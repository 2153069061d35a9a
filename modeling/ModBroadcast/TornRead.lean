import ModBroadcast.Ring

namespace ModBroadcast

open Automaton

/-- The layout of the frames of a broadcast; `broadcast_create` refuses frames larger
than `BROADCAST_MAX_FRAME_BYTES`. -/
structure FrameFormat where
  samples_per_frame : ℕ
  channels : ℕ
  fits : samples_per_frame * channels * 2 ≤ 1920

def FrameFormat.bytes_per_frame (q : FrameFormat) : ℕ := q.samples_per_frame * q.channels * 2

/-- The frames a tick assembles: from the file, the speaker or the silence policy, each of
them fills `bytes_per_frame` bytes. -/
def TickFrame.Formatted (q : FrameFormat) (f : TickFrame) : Prop :=
  f.bytes.length = q.bytes_per_frame ∧ f.samples = q.samples_per_frame

instance (q : FrameFormat) (f : TickFrame) : Decidable (f.Formatted q) := inferInstanceAs (Decidable (_ ∧ _))

/-- The next store of the producer; `copy` has stored the bytes before `i`. -/
inductive PublishPc
  | idle
  | datalen (f : TickFrame)
  | samples (f : TickFrame)
  | silence (f : TickFrame)
  | copy (f : TickFrame) (i : ℕ)
  | advance (f : TickFrame)
  deriving DecidableEq

def AudioRing.store (N : ℕ) (b : AudioRing) (g : RingFrame → RingFrame) : AudioRing :=
  let i := b.producer_seq % N
  { b with ring := Function.update b.ring i (g (b.ring i)) }

/-- One store of a publication: the fields of the slot one after the other, the payload byte by byte,
then the stamp, then `producer_seq`. -/
def publishStep (N : ℕ) (b : AudioRing) : PublishPc → AudioRing × PublishPc
  | .idle => (b, .idle)
  | .datalen f => (b.store N fun x => { x with datalen := f.bytes.length }, .samples f)
  | .samples f => (b.store N fun x => { x with samples := f.samples }, .silence f)
  | .silence f => (b.store N fun x => { x with silence := f.silence }, .copy f 0)
  | .copy f i =>
    match f.bytes[i]? with
    | some y => (b.store N fun x => { x with data := x.data.set i y }, .copy f (i + 1))
    | none => (b.store N fun x => { x with seq := b.producer_seq }, .advance f)
  | .advance _ => ({ b with producer_seq := b.producer_seq + 1 }, .idle)

def PublishPc.published (sent : List TickFrame) : PublishPc → List TickFrame
  | .advance f => sent ++ [f]
  | _ => sent

/-- The place of a listener in its ring read; `copy` has copied `acc` of `n` bytes. -/
inductive ListenerReadPc
  | idle
  | compare (cs pseq : ℕ)
  | length (cs : ℕ)
  | copy (cs n : ℕ) (acc : List UInt8)
  | samples (cs : ℕ) (acc : List UInt8) (datalen : ℕ)
  deriving DecidableEq

/-- One access of the ring read of `broadcast_listener_run`, and the frame it has
assembled. -/
def listenerRead (p : RingProfile) (b : AudioRing) (m : RingReader) :
    ListenerReadPc → AudioRing × RingReader × ListenerReadPc × Option (ℕ × WriteFrame)
  | .idle =>
    let cs := m.consumer_seq
    let pseq := b.producer_seq
    if cs < pseq then
      if p.max_lag < pseq - cs then
        ({ b with stat_listener_resyncs := b.stat_listener_resyncs + 1 },
          { m with resync_count := m.resync_count + 1 }, .compare (pseq - 1) pseq, none)
      else (b, m, .compare cs pseq, none)
    else (b, m, .idle, none)
  | .compare cs pseq =>
    if (b.ring (cs % p.ring_size)).seq = cs then (b, m, .length cs, none)
    else (b, { m with consumer_seq := (pseq - 1) + 1 }, .idle, none)
  | .length cs => (b, m, .copy cs (b.ring (cs % p.ring_size)).datalen [], none)
  | .copy cs n acc =>
    let slot := b.ring (cs % p.ring_size)
    if acc.length < n then (b, m, .copy cs n (acc ++ [slot.data.getD acc.length 0]), none)
    else (b, m, .samples cs acc slot.datalen, none)
  | .samples cs acc datalen =>
    (b, { m with consumer_seq := cs + 1 }, .idle,
      some (cs, ⟨datalen, (b.ring (cs % p.ring_size)).samples, acc⟩))

/-- The fields of `rec_consumer_t` that its writer's ring read uses. -/
structure RecordReader where
  consumer_seq : ℕ
  running : Bool
  deriving DecidableEq

inductive RecordReadPc
  | idle
  | compare (pseq : ℕ)
  | length (pseq : ℕ)
  | copy (pseq len : ℕ) (acc : List UInt8)
  | ended
  deriving DecidableEq

/-- One access of `broadcast_record_writer_run`, and what it has written to the file;
`ok` is the result of `switch_core_file_write`, which counts in samples. -/
def recordRead (q : FrameFormat) (N : ℕ) (b : AudioRing) (r : RecordReader) (ok : Bool) :
    RecordReadPc → RecordReader × RecordReadPc × Option (ℕ × List UInt8)
  | .idle => if r.running then (r, .compare b.producer_seq, none) else (r, .ended, none)
  | .compare pseq =>
    if r.consumer_seq < pseq ∧ r.running then
      if (b.ring (r.consumer_seq % N)).seq = r.consumer_seq then (r, .length pseq, none)
      else ({ r with consumer_seq := r.consumer_seq + 1 }, .compare pseq, none)
    else (r, .idle, none)
  | .length pseq => (r, .copy pseq (b.ring (r.consumer_seq % N)).samples [], none)
  | .copy pseq len acc =>
    if acc.length < len * q.channels * 2 then
      (r, .copy pseq len (acc ++ [(b.ring (r.consumer_seq % N)).data.getD acc.length 0]), none)
    else if ok then
      ({ r with consumer_seq := r.consumer_seq + 1 }, .compare pseq, some (r.consumer_seq, acc))
    else ({ r with running := false }, .ended, none)
  | .ended => (r, .ended, none)

/-- A broadcast with its listeners and recording writers, and as history the frames
published so far and what every consumer has taken, the latest first. -/
structure RingTraffic where
  b : AudioRing
  publishing : PublishPc
  listener : ℕ → Option (RingReader × ListenerReadPc)
  recorder : ℕ → Option (RecordReader × RecordReadPc)
  sent : List TickFrame
  heard : ℕ → List (ℕ × WriteFrame)
  written : ℕ → List (ℕ × List UInt8)

inductive TrafficAction
  | tick (f : TickFrame)
  | producer
  | join (i : ℕ)
  | listener (i : ℕ)
  | record (i : ℕ)
  | recorder (i : ℕ) (ok : Bool)
  | stop (i : ℕ)
  deriving DecidableEq

def RingTraffic.init : RingTraffic where
  b := .create
  publishing := .idle
  listener _ := none
  recorder _ := none
  sent := []
  heard _ := []
  written _ := []

/-- `tick` is the producer with a frame assembled, `record` the start of a recording in
`broadcast_record_start`, `stop` the store to its `running`. -/
def trafficStep (p : RingProfile) (q : FrameFormat) (s : RingTraffic) :
    TrafficAction → Option RingTraffic
  | .tick f =>
    if s.publishing = .idle ∧ f.Formatted q then some { s with publishing := .datalen f } else none
  | .producer =>
    let x := publishStep p.ring_size s.b s.publishing
    some { s with
      b := x.1
      publishing := x.2
      sent := s.publishing.published s.sent }
  | .join i =>
    match s.listener i with
    | some _ => none
    | none => some { s with
        listener := Function.update s.listener i (some (⟨startCursor p s.b, 0⟩, .idle)) }
  | .listener i => (s.listener i).map fun m =>
    let x := listenerRead p s.b m.1 m.2
    { s with
      b := x.1
      listener := Function.update s.listener i (some (x.2.1, x.2.2.1))
      heard := Function.update s.heard i (x.2.2.2.toList ++ s.heard i) }
  | .record i =>
    match s.recorder i with
    | some _ => none
    | none => some { s with
        recorder := Function.update s.recorder i (some (⟨s.b.producer_seq, true⟩, .idle)) }
  | .recorder i ok => (s.recorder i).map fun r =>
    let x := recordRead q p.ring_size s.b r.1 ok r.2
    { s with
      recorder := Function.update s.recorder i (some (x.1, x.2.1))
      written := Function.update s.written i (x.2.2.toList ++ s.written i) }
  | .stop i => (s.recorder i).map fun r =>
    { s with recorder := Function.update s.recorder i (some ({ r.1 with running := false }, r.2)) }

variable {p : RingProfile} {q : FrameFormat} {N k n i j : ℕ} {b b' : AudioRing} {pc : PublishPc}
  {sent : List TickFrame} {s t : RingTraffic} {a : TrafficAction}
  {h : List (RingTraffic × TrafficAction)}

def PublishPc.frame : PublishPc → Option TickFrame
  | .idle => none
  | .datalen f | .samples f | .silence f | .copy f _ | .advance f => some f

def PublishPc.Stored (i : ℕ) : PublishPc → Prop
  | .copy _ j => i < j
  | .advance _ => True
  | _ => False

def PublishPc.HasDatalen : PublishPc → Prop
  | .idle | .datalen _ => False
  | _ => True

def PublishPc.HasSamples : PublishPc → Prop
  | .silence _ | .copy .. | .advance _ => True
  | _ => False

/-- Frame number `k` has come as far as `S`, `n` being the number under publication. -/
def Reached (S : Prop) (n k : ℕ) : Prop := k < n ∨ k = n ∧ S

/-- What the slots hold while the frame of `pc` is being published: the byte `i` of a
frame stays in its slot until the byte `i` of the frame `N` numbers later is stored. -/
structure RingIntact (q : FrameFormat) (N : ℕ) (b : AudioRing) (pc : PublishPc)
    (sent : List TickFrame) : Prop where
  length : sent.length = b.producer_seq
  formatted : ∀ f ∈ sent ++ pc.frame.toList, f.Formatted q
  data_length : ∀ j, (b.ring j).data.length = 1920
  datalen : ∀ k, Reached pc.HasDatalen b.producer_seq k →
    (b.ring (k % N)).datalen = q.bytes_per_frame
  samples : ∀ k, Reached pc.HasSamples b.producer_seq k →
    (b.ring (k % N)).samples = q.samples_per_frame
  bytes : ∀ k f i, (sent ++ pc.frame.toList)[k]? = some f → i < q.bytes_per_frame →
    Reached (pc.Stored i) b.producer_seq k → ¬ Reached (pc.Stored i) b.producer_seq (k + N) →
    (b.ring (k % N)).data[i]? = f.bytes[i]?

@[simp] theorem store_self {g : RingFrame → RingFrame} :
    (b.store N g).ring (b.producer_seq % N) = g (b.ring (b.producer_seq % N)) := by
  simp [AudioRing.store]

theorem store_other {g : RingFrame → RingFrame} (hj : j ≠ b.producer_seq % N) :
    (b.store N g).ring j = b.ring j := by
  simp [AudioRing.store, hj]

/-- A store that keeps a field of its slot keeps that field everywhere. -/
theorem store_field {γ : Type} {g : RingFrame → RingFrame} (φ : RingFrame → γ)
    (hg : ∀ x, φ (g x) = φ x) (j : ℕ) : φ ((b.store N g).ring j) = φ (b.ring j) := by
  by_cases hj : j = b.producer_seq % N
  · rw [hj, store_self, hg]
  · rw [store_other hj]

theorem RingIntact.create (q : FrameFormat) (N : ℕ) : RingIntact q N .create .idle [] where
  length := rfl
  formatted f hf := by simp [PublishPc.frame] at hf
  data_length j := List.length_replicate ..
  datalen k hk := (hk.elim (Nat.not_lt_zero k) fun h => h.2).elim
  samples k hk := (hk.elim (Nat.not_lt_zero k) fun h => h.2).elim
  bytes k f i hk := by simp [PublishPc.frame] at hk

/-- The counters beside the ring do not matter. -/
theorem RingIntact.of_ring (hi : RingIntact q N b pc sent) (hring : b'.ring = b.ring)
    (hseq : b'.producer_seq = b.producer_seq) : RingIntact q N b' pc sent := by
  cases b with
  | mk ring seq r =>
    cases b' with
    | mk ring' seq' r' =>
      obtain rfl : ring' = ring := hring
      obtain rfl : seq' = seq := hseq
      exact ⟨hi.length, hi.formatted, hi.data_length, hi.datalen, hi.samples, hi.bytes⟩

theorem RingIntact.tick {f : TickFrame} (hi : RingIntact q N b .idle sent) (hf : f.Formatted q) :
    RingIntact q N b (.datalen f) sent where
  length := hi.length
  formatted g hg := by
    obtain hg | hg := List.mem_append.mp hg
    · exact hi.formatted g (List.mem_append_left _ hg)
    · obtain rfl : g = f := by simpa [PublishPc.frame] using hg
      exact hf
  data_length := hi.data_length
  datalen := hi.datalen
  samples := hi.samples
  bytes k g i hk hik hl hn := by
    have hlt : k < sent.length := by
      obtain hl | ⟨-, hl⟩ := hl
      · rwa [hi.length]
      · exact hl.elim
    refine hi.bytes k g i ?_ hik hl hn
    rw [List.getElem?_append_left hlt] at hk ⊢
    exact hk

theorem RingIntact.stored {f : TickFrame} {y : UInt8}
    (hi : RingIntact q N b (.copy f j) sent) (hy : f.bytes[j]? = some y) :
    RingIntact q N (b.store N fun x => { x with data := x.data.set j y }) (.copy f (j + 1)) sent where
  length := hi.length
  formatted := hi.formatted
  data_length k := by
    rw [store_field (fun x => x.data.length) fun x => by simp]
    exact hi.data_length k
  datalen k hk := by
    rw [store_field RingFrame.datalen fun _ => by rfl]
    exact hi.datalen k hk
  samples k hk := by
    rw [store_field RingFrame.samples fun _ => by rfl]
    exact hi.samples k hk
  bytes k g i hk hik hl hn := by
    have hlast : (sent ++ [f])[sent.length]? = some f := by simp
    have hfits : j < 1920 := by
      have := (List.getElem?_eq_some_iff.mp hy).1
      have := (hi.formatted f (by simp [PublishPc.frame])).1
      have := q.fits
      simp only [FrameFormat.bytes_per_frame] at *
      omega
    by_cases hslot : k % N = b.producer_seq % N
    · rw [hslot, store_self]
      by_cases hij : i = j
      · -- the byte just stored belongs to the frame that is being published
        subst hij
        have hkn : k = b.producer_seq := by
          obtain hlt | ⟨rfl, -⟩ := hl
          · by_contra hne
            refine hn ?_
            -- an older frame of this slot has its byte overwritten by now
            have hd : b.producer_seq ≥ k + N := by
              by_contra hlt'
              exact hne (StampedRing.eq_of_mod_eq hlt.le (Nat.not_le.mp hlt') hslot.symm)
            obtain heq | hlt' := Nat.eq_or_lt_of_le hd
            · exact .inr ⟨heq, Nat.lt_succ_self _⟩
            · exact .inl hlt'
          · rfl
        subst hkn
        obtain rfl : g = f := by
          rw [← hi.length] at hk
          exact Option.some.inj (hk.symm.trans hlast)
        rw [List.getElem?_set_self (by rw [hi.data_length]; exact hfits), hy]
      · rw [List.getElem?_set_ne (Ne.symm hij), ← hslot]
        refine hi.bytes k g i hk hik ?_ fun hr => hn ?_
        · exact hl.imp_right fun h => ⟨h.1, by have := h.2; simp only [PublishPc.Stored] at *; omega⟩
        · exact hr.imp_right fun h => ⟨h.1, by have := h.2; simp only [PublishPc.Stored] at *; omega⟩
    -- another slot than the one that is being filled
    · rw [store_other hslot]
      have hkn : k ≠ b.producer_seq := fun he => hslot (by rw [he])
      refine hi.bytes k g i hk hik (.inl ?_) fun hr => hn ?_
      · exact hl.resolve_right fun h => hkn h.1
      · exact hr.imp_right fun h => absurd (by rw [← Nat.add_mod_right k N, h.1]) hslot

/-- A store that leaves the payload alone. -/
theorem RingIntact.marked {pc' : PublishPc} {g : RingFrame → RingFrame}
    (hi : RingIntact q N b pc sent) (hframe : pc'.frame = pc.frame) (hdata : ∀ x, (g x).data = x.data)
    (hd : ∀ x, (g x).datalen = x.datalen ∧ (pc'.HasDatalen → pc.HasDatalen) ∨
      (g x).datalen = q.bytes_per_frame)
    (hsm : ∀ x, (g x).samples = x.samples ∧ (pc'.HasSamples → pc.HasSamples) ∨
      (g x).samples = q.samples_per_frame)
    (hstored : ∀ i < q.bytes_per_frame, pc'.Stored i ↔ pc.Stored i) :
    RingIntact q N (b.store N g) pc' sent where
  length := hi.length
  formatted := hframe ▸ hi.formatted
  data_length k := by
    rw [store_field (fun x => x.data.length) fun x => by rw [hdata]]
    exact hi.data_length k
  datalen k hk := by
    by_cases hslot : k % N = b.producer_seq % N
    · rw [hslot, store_self]
      obtain ⟨h, himp⟩ | h := hd (b.ring (b.producer_seq % N))
      · rw [h, ← hslot]
        exact hi.datalen k (hk.imp_right fun h => ⟨h.1, himp h.2⟩)
      · exact h
    · rw [store_other hslot]
      exact hi.datalen k (.inl (hk.resolve_right fun h => hslot (by rw [h.1]; rfl)))
  samples k hk := by
    by_cases hslot : k % N = b.producer_seq % N
    · rw [hslot, store_self]
      obtain ⟨h, himp⟩ | h := hsm (b.ring (b.producer_seq % N))
      · rw [h, ← hslot]
        exact hi.samples k (hk.imp_right fun h => ⟨h.1, himp h.2⟩)
      · exact h
    · rw [store_other hslot]
      exact hi.samples k (.inl (hk.resolve_right fun h => hslot (by rw [h.1]; rfl)))
  bytes k f i hk hik hl hn := by
    rw [store_field RingFrame.data hdata]
    rw [hframe] at hk
    refine hi.bytes k f i hk hik ?_ fun hr => hn ?_
    · exact hl.imp_right fun h => ⟨h.1, (hstored i hik).mp h.2⟩
    · exact hr.imp_right fun h => ⟨h.1, (hstored i hik).mpr h.2⟩

theorem RingIntact.advance {f : TickFrame} (hi : RingIntact q N b (.advance f) sent) :
    RingIntact q N { b with producer_seq := b.producer_seq + 1 } .idle (sent ++ [f]) := by
  have hback : ∀ {k : ℕ} {S : Prop}, (S → False) → (Reached S (b.producer_seq + 1) k ↔
      Reached True b.producer_seq k) := by
    intro k S hS
    constructor
    · rintro (h | h)
      · obtain h | h := Nat.lt_succ_iff_lt_or_eq.mp h
        · exact .inl h
        · exact .inr ⟨h, trivial⟩
      · exact (hS h.2).elim
    · rintro (h | h)
      · exact .inl (Nat.lt_succ_of_lt h)
      · exact .inl (h.1 ▸ Nat.lt_succ_self _)
  exact {
    length := by simp [hi.length]
    formatted := fun g hg => hi.formatted g (by simpa [PublishPc.frame] using hg)
    data_length := hi.data_length
    datalen := fun k hk => hi.datalen k ((hback id).mp hk)
    samples := fun k hk => hi.samples k ((hback id).mp hk)
    bytes := fun k g i hk hik hl hn => hi.bytes k g i (by simpa [PublishPc.frame] using hk) hik
      ((hback id).mp hl) fun hr => hn ((hback id).mpr hr) }

theorem RingIntact.publishStep (hi : RingIntact q N b pc sent) :
    RingIntact q N (publishStep N b pc).1 (publishStep N b pc).2 (pc.published sent) := by
  cases pc with
  | idle => exact hi
  | datalen f =>
    have hf := hi.formatted f (by simp [PublishPc.frame])
    dsimp only [ModBroadcast.publishStep]
    exact hi.marked rfl (fun _ => rfl) (fun _ => .inr hf.1) (fun _ => .inl ⟨rfl, id⟩) fun _ _ => .rfl
  | samples f =>
    have hf := hi.formatted f (by simp [PublishPc.frame])
    dsimp only [ModBroadcast.publishStep]
    exact hi.marked rfl (fun _ => rfl) (fun _ => .inl ⟨rfl, fun _ => trivial⟩) (fun _ => .inr hf.2)
      fun _ _ => .rfl
  | silence f =>
    dsimp only [ModBroadcast.publishStep]
    refine hi.marked rfl (fun _ => rfl) (fun _ => .inl ⟨rfl, fun _ => trivial⟩)
      (fun _ => .inl ⟨rfl, fun _ => trivial⟩) fun i _ => ?_
    -- no byte is stored yet, before this step or after it
    exact ⟨fun h => absurd h (Nat.not_lt_zero i), False.elim⟩
  | copy f j =>
    dsimp only [ModBroadcast.publishStep]
    split
    · exact hi.stored ‹_›
    · have hf := hi.formatted f (by simp [PublishPc.frame])
      have hall : q.bytes_per_frame ≤ j := hf.1 ▸ List.getElem?_eq_none_iff.mp ‹_›
      dsimp only
      refine hi.marked rfl (fun _ => rfl) (fun _ => .inl ⟨rfl, fun _ => trivial⟩)
        (fun _ => .inl ⟨rfl, fun _ => trivial⟩) fun i hib => ?_
      exact ⟨fun _ => hib.trans_le hall, fun _ => trivial⟩
  | advance f => exact hi.advance

/-- The byte that a consumer loads is its frame's until the byte of the frame `N` numbers
later is stored. -/
theorem RingIntact.load {f : TickFrame} (hi : RingIntact q N b pc sent) (hf : sent[k]? = some f)
    (hib : i < q.bytes_per_frame) (hn : ¬ Reached (pc.Stored i) b.producer_seq (k + N)) :
    f.bytes[i]? = some ((b.ring (k % N)).data.getD i 0) := by
  have hk : k < sent.length := (List.getElem?_eq_some_iff.mp hf).1
  have hbytes := hi.bytes k f i (by rw [List.getElem?_append_left hk, hf]) hib
    (.inl (by rwa [← hi.length])) hn
  have hlt : i < (b.ring (k % N)).data.length := by
    have := q.fits
    rw [hi.data_length]
    simp only [FrameFormat.bytes_per_frame] at hib
    omega
  rw [← hbytes, List.getD_eq_getElem?_getD, List.getElem?_eq_getElem hlt, Option.getD_some]

def Copied (sent : List TickFrame) (k : ℕ) (acc : List UInt8) : Prop :=
  ∃ f, sent[k]? = some f ∧ acc <+: f.bytes

theorem getElem?_of_longer {sent' : List TickFrame} {f : TickFrame} (hp : sent <+: sent')
    (hf : sent[k]? = some f) : sent'[k]? = some f := by
  obtain ⟨l, rfl⟩ := hp
  rw [List.getElem?_append_left (List.getElem?_eq_some_iff.mp hf).1, hf]

theorem Copied.mono {sent' : List TickFrame} {acc : List UInt8} (hp : sent <+: sent')
    (hc : Copied sent k acc) : Copied sent' k acc := by
  obtain ⟨f, hf, hacc⟩ := hc
  exact ⟨f, getElem?_of_longer hp hf, hacc⟩

theorem Copied.nil (hk : k < sent.length) : Copied sent k [] :=
  ⟨sent[k], List.getElem?_eq_getElem hk, List.nil_prefix⟩

/-- One more byte, copied in time. -/
theorem Copied.snoc {acc : List UInt8} (hi : RingIntact q N b pc sent) (hc : Copied sent k acc)
    (hlt : acc.length < q.bytes_per_frame)
    (hn : ¬ Reached (pc.Stored acc.length) b.producer_seq (k + N)) :
    Copied sent k (acc ++ [(b.ring (k % N)).data.getD acc.length 0]) := by
  obtain ⟨f, hf, hacc⟩ := hc
  refine ⟨f, hf, ?_⟩
  have hload := hi.load hf hlt hn
  rw [List.prefix_iff_eq_take] at hacc ⊢
  rw [List.length_append, List.length_singleton, List.take_add_one, hload, ← hacc]
  rfl

/-- A copy that has come to the end of its frame is that frame. -/
theorem Copied.full {acc : List UInt8} (hi : RingIntact q N b pc sent) (hc : Copied sent k acc)
    (hlen : q.bytes_per_frame ≤ acc.length) : ∃ f, sent[k]? = some f ∧ f.Formatted q ∧
      acc = f.bytes := by
  obtain ⟨f, hf, hacc⟩ := hc
  have hform := hi.formatted f (List.mem_append_left _ (List.mem_of_getElem? hf))
  exact ⟨f, hf, hform, hacc.eq_of_length_le (hform.1 ▸ hlen)⟩

def ListenerReadPc.Sound (q : FrameFormat) (sent : List TickFrame) : ListenerReadPc → Prop
  | .idle => True
  | .compare cs pseq => cs < pseq ∧ pseq ≤ sent.length
  | .length cs => cs < sent.length
  | .copy cs n acc => n = q.bytes_per_frame ∧ Copied sent cs acc
  | .samples cs acc datalen => datalen = q.bytes_per_frame ∧ Copied sent cs acc ∧
    q.bytes_per_frame ≤ acc.length

/-- What a recording writer with the cursor `cs` knows in its ring read. -/
def RecordReadPc.Sound (q : FrameFormat) (sent : List TickFrame) (cs : ℕ) : RecordReadPc → Prop
  | .idle | .ended => True
  | .compare pseq => pseq ≤ sent.length
  | .length pseq => cs < pseq ∧ pseq ≤ sent.length
  | .copy pseq len acc => pseq ≤ sent.length ∧ len = q.samples_per_frame ∧ Copied sent cs acc

theorem ListenerReadPc.Sound.mono {sent' : List TickFrame} {pc : ListenerReadPc}
    (hp : sent <+: sent') (hs : pc.Sound q sent) : pc.Sound q sent' := by
  cases pc with
  | idle => trivial
  | compare cs pseq => exact ⟨hs.1, hs.2.trans hp.length_le⟩
  | length cs => exact hs.trans_le hp.length_le
  | copy cs n acc => exact ⟨hs.1, hs.2.mono hp⟩
  | samples cs acc datalen => exact ⟨hs.1, hs.2.1.mono hp, hs.2.2⟩

theorem RecordReadPc.Sound.mono {sent' : List TickFrame} {cs : ℕ} {pc : RecordReadPc}
    (hp : sent <+: sent') (hs : pc.Sound q sent cs) : pc.Sound q sent' cs := by
  cases pc with
  | idle | ended => trivial
  | compare pseq => exact le_trans hs hp.length_le
  | length pseq => exact ⟨hs.1, hs.2.trans hp.length_le⟩
  | copy pseq len acc => exact ⟨hs.1.trans hp.length_le, hs.2.1, hs.2.2.mono hp⟩

/-- The step copies no byte of frame `k` after the byte at that place of frame
`k + ring_size` has been stored. -/
def CopiesInTime (p : RingProfile) (q : FrameFormat) (s : RingTraffic) (a : TrafficAction) : Prop :=
  (∀ i m cs n acc, a = .listener i → s.listener i = some (m, .copy cs n acc) → acc.length < n →
    ¬ Reached (s.publishing.Stored acc.length) s.b.producer_seq (cs + p.ring_size)) ∧
  ∀ i ok r pseq len acc, a = .recorder i ok → s.recorder i = some (r, .copy pseq len acc) →
    acc.length < len * q.channels * 2 →
    ¬ Reached (s.publishing.Stored acc.length) s.b.producer_seq (r.consumer_seq + p.ring_size)

/-- What one access of a listener keeps and takes. -/
theorem listenerRead_sound {m : RingReader} {rpc : ListenerReadPc}
    (hi : RingIntact q p.ring_size b pc sent) (hs : rpc.Sound q sent)
    (hg : ∀ cs n acc, rpc = .copy cs n acc → acc.length < n →
      ¬ Reached (pc.Stored acc.length) b.producer_seq (cs + p.ring_size)) :
    (listenerRead p b m rpc).2.2.1.Sound q sent ∧
      ∀ kw ∈ (listenerRead p b m rpc).2.2.2, ∃ f, sent[kw.1]? = some f ∧ kw.2 = f.toWriteFrame := by
  have hlen := hi.length
  cases rpc with
  | idle =>
    dsimp only [listenerRead]
    split_ifs with hlt hlag
    · exact ⟨⟨by omega, by omega⟩, nofun⟩
    · exact ⟨⟨hlt, by omega⟩, nofun⟩
    · exact ⟨trivial, nofun⟩
  | compare cs pseq =>
    dsimp only [listenerRead]
    split_ifs
    · exact ⟨hs.1.trans_le hs.2, nofun⟩
    · exact ⟨trivial, nofun⟩
  | length cs =>
    exact ⟨⟨hi.datalen cs (.inl (hlen ▸ hs)), .nil hs⟩, nofun⟩
  | copy cs n acc =>
    obtain ⟨rfl, hc⟩ := hs
    dsimp only [listenerRead]
    split_ifs with hlt
    · exact ⟨⟨rfl, hc.snoc hi hlt (hg cs _ acc rfl hlt)⟩, nofun⟩
    · obtain ⟨f, hf, -⟩ := id hc
      have hk : cs < b.producer_seq := hlen ▸ (List.getElem?_eq_some_iff.mp hf).1
      exact ⟨⟨hi.datalen cs (.inl hk), hc, Nat.le_of_not_lt hlt⟩, nofun⟩
  | samples cs acc datalen =>
    obtain ⟨rfl, hc, hfull⟩ := hs
    obtain ⟨f, hf, hform, rfl⟩ := hc.full hi hfull
    have hk : cs < b.producer_seq := hlen ▸ (List.getElem?_eq_some_iff.mp hf).1
    refine ⟨trivial, ?_⟩
    rintro kw ⟨⟩
    refine ⟨f, hf, ?_⟩
    rw [TickFrame.toWriteFrame, hform.1, hform.2, hi.samples cs (.inl hk)]

/-- What one access of a recording writer keeps and writes. -/
theorem recordRead_sound {r : RecordReader} (ok : Bool) {rpc : RecordReadPc}
    (hi : RingIntact q N b pc sent) (hs : rpc.Sound q sent r.consumer_seq)
    (hg : ∀ pseq len acc, rpc = .copy pseq len acc → acc.length < len * q.channels * 2 →
      ¬ Reached (pc.Stored acc.length) b.producer_seq (r.consumer_seq + N)) :
    (recordRead q N b r ok rpc).2.1.Sound q sent (recordRead q N b r ok rpc).1.consumer_seq ∧
      ∀ kw ∈ (recordRead q N b r ok rpc).2.2, ∃ f, sent[kw.1]? = some f ∧ kw.2 = f.bytes := by
  have hlen := hi.length
  cases rpc with
  | idle =>
    dsimp only [recordRead]
    split_ifs
    · exact ⟨hlen.ge, nofun⟩
    · exact ⟨trivial, nofun⟩
  | compare pseq =>
    dsimp only [recordRead]
    split_ifs with hlt
    · exact ⟨⟨hlt.1, hs⟩, nofun⟩
    · exact ⟨hs, nofun⟩
    · exact ⟨trivial, nofun⟩
  | length pseq =>
    have hk : r.consumer_seq < sent.length := hs.1.trans_le hs.2
    exact ⟨⟨hs.2, hi.samples _ (.inl (hlen ▸ hk)), .nil hk⟩, nofun⟩
  | copy pseq len acc =>
    obtain ⟨hle, rfl, hc⟩ := hs
    dsimp only [recordRead]
    split_ifs with hlt hok
    · exact ⟨⟨hle, rfl, hc.snoc hi hlt (hg pseq _ acc rfl hlt)⟩, nofun⟩
    · refine ⟨hle, ?_⟩
      rintro kw ⟨⟩
      obtain ⟨f, hf, -, hacc⟩ := hc.full hi (Nat.le_of_not_lt hlt)
      exact ⟨f, hf, hacc⟩
    · exact ⟨trivial, nofun⟩
  | ended => exact ⟨trivial, nofun⟩

/-- The ring and its consumers after a run in which every copy is in time. -/
structure TrafficSound (p : RingProfile) (q : FrameFormat) (s : RingTraffic) : Prop where
  ring : RingIntact q p.ring_size s.b s.publishing s.sent
  listener : ∀ i m pc, s.listener i = some (m, pc) → pc.Sound q s.sent
  recorder : ∀ i r pc, s.recorder i = some (r, pc) → pc.Sound q s.sent r.consumer_seq
  heard : ∀ i, ∀ kw ∈ s.heard i, ∃ f, s.sent[kw.1]? = some f ∧ kw.2 = f.toWriteFrame
  written : ∀ i, ∀ kw ∈ s.written i, ∃ f, s.sent[kw.1]? = some f ∧ kw.2 = f.bytes

theorem TrafficSound.init (p : RingProfile) (q : FrameFormat) : TrafficSound p q .init where
  ring := .create q _
  listener := nofun
  recorder := nofun
  heard := nofun
  written := nofun

/-- More frames have been published. -/
theorem TrafficSound.publishes {pc : PublishPc} {sent : List TickFrame} (hi : TrafficSound p q s)
    (hp : s.sent <+: sent) (hr : RingIntact q p.ring_size b pc sent) :
    TrafficSound p q { s with b := b, publishing := pc, sent := sent } where
  ring := hr
  listener i m pc hm := (hi.listener i m pc hm).mono hp
  recorder i r pc hm := (hi.recorder i r pc hm).mono hp
  heard i kw hkw := (hi.heard i kw hkw).imp fun _ hf => ⟨getElem?_of_longer hp hf.1, hf.2⟩
  written i kw hkw := (hi.written i kw hkw).imp fun _ hf => ⟨getElem?_of_longer hp hf.1, hf.2⟩

/-- The listener `i` comes to `x` and takes `out`. -/
theorem TrafficSound.listens {x : RingReader × ListenerReadPc} (out : Option (ℕ × WriteFrame))
    (hi : TrafficSound p q s) (hr : RingIntact q p.ring_size b s.publishing s.sent)
    (hx : x.2.Sound q s.sent)
    (hout : ∀ kw ∈ out, ∃ f, s.sent[kw.1]? = some f ∧ kw.2 = f.toWriteFrame) :
    TrafficSound p q { s with
      b := b
      listener := Function.update s.listener i (some x)
      heard := Function.update s.heard i (out.toList ++ s.heard i) } where
  ring := hr
  listener j m pc hm := by
    by_cases hj : j = i
    · subst hj
      obtain rfl := Option.some.inj ((Function.update_self j (some x) s.listener).symm.trans hm)
      exact hx
    · exact hi.listener j m pc ((Function.update_of_ne hj _ _).symm.trans hm)
  recorder := hi.recorder
  heard j kw hkw := by
    by_cases hj : j = i
    · subst hj
      simp only [Function.update_self, List.mem_append, Option.mem_toList] at hkw
      exact hkw.elim (hout kw) (hi.heard j kw)
    · simp only [Function.update_of_ne hj] at hkw
      exact hi.heard j kw hkw
  written := hi.written

/-- The recording writer `i` comes to `x` and writes `out`. -/
theorem TrafficSound.records {x : RecordReader × RecordReadPc} (out : Option (ℕ × List UInt8))
    (hi : TrafficSound p q s) (hx : x.2.Sound q s.sent x.1.consumer_seq)
    (hout : ∀ kw ∈ out, ∃ f, s.sent[kw.1]? = some f ∧ kw.2 = f.bytes) :
    TrafficSound p q { s with
      recorder := Function.update s.recorder i (some x)
      written := Function.update s.written i (out.toList ++ s.written i) } where
  ring := hi.ring
  listener := hi.listener
  recorder j r pc hm := by
    by_cases hj : j = i
    · subst hj
      obtain rfl := Option.some.inj ((Function.update_self j (some x) s.recorder).symm.trans hm)
      exact hx
    · exact hi.recorder j r pc ((Function.update_of_ne hj _ _).symm.trans hm)
  heard := hi.heard
  written j kw hkw := by
    by_cases hj : j = i
    · subst hj
      simp only [Function.update_self, List.mem_append, Option.mem_toList] at hkw
      exact hkw.elim (hout kw) (hi.written j kw)
    · simp only [Function.update_of_ne hj] at hkw
      exact hi.written j kw hkw

theorem TrafficSound.step (hi : TrafficSound p q s) (hg : CopiesInTime p q s a)
    (hs : trafficStep p q s a = some t) : TrafficSound p q t := by
  cases a with
  | tick f =>
    simp only [trafficStep] at hs
    split_ifs at hs with hf
    obtain rfl := Option.some.inj hs
    exact hi.publishes (List.prefix_refl _) (.tick (hf.1 ▸ hi.ring) hf.2)
  | producer =>
    obtain rfl := Option.some.inj hs
    refine hi.publishes ?_ hi.ring.publishStep
    unfold PublishPc.published
    split
    · exact List.prefix_append _ _
    · exact List.prefix_refl _
  | join i =>
    cases hm : s.listener i with
    | some m => simp [trafficStep, hm] at hs
    | none =>
      simp only [trafficStep, hm, Option.some.injEq] at hs
      subst hs
      have := hi.listens (i := i) (x := (⟨startCursor p s.b, 0⟩, .idle)) none hi.ring trivial
        nofun
      simpa using this
  | listener i =>
    obtain ⟨m, hm, rfl⟩ := Option.map_eq_some_iff.mp hs
    obtain ⟨hx, hout⟩ := listenerRead_sound (m := m.1) hi.ring (hi.listener i m.1 m.2 hm)
      fun cs n acc he hlt => hg.1 i m.1 cs n acc rfl (he ▸ hm) hlt
    refine hi.listens _ ?_ hx hout
    refine hi.ring.of_ring ?_ ?_
    all_goals
      cases m.2 <;> dsimp only [listenerRead] <;> (try split_ifs) <;> rfl
  | record i =>
    cases hm : s.recorder i with
    | some m => simp [trafficStep, hm] at hs
    | none =>
      simp only [trafficStep, hm, Option.some.injEq] at hs
      subst hs
      have := hi.records (i := i) (x := (⟨s.b.producer_seq, true⟩, .idle)) none trivial
        nofun
      simpa using this
  | recorder i ok =>
    obtain ⟨r, hr, rfl⟩ := Option.map_eq_some_iff.mp hs
    obtain ⟨hx, hout⟩ := recordRead_sound ok hi.ring (hi.recorder i r.1 r.2 hr)
      fun pseq len acc he hlt => hg.2 i ok r.1 pseq len acc rfl (he ▸ hr) hlt
    exact hi.records _ hx hout
  | stop i =>
    obtain ⟨r, hr, rfl⟩ := Option.map_eq_some_iff.mp hs
    have := hi.records (i := i) (x := ({ r.1 with running := false }, r.2)) none
      (hi.recorder i r.1 r.2 hr) nofun
    simpa using this

/-- What a listener delivers and a recording writer writes under a number is what was
published under it, in every run in which the producer never overtakes a copy. -/
theorem copies_match_publication (hr : Run (trafficStep p q) .init h s)
    (hg : Meets (CopiesInTime p q) h) :
    (∀ i, ∀ kw ∈ s.heard i, ∃ f, s.sent[kw.1]? = some f ∧ kw.2 = f.toWriteFrame) ∧
      ∀ i, ∀ kw ∈ s.written i, ∃ f, s.sent[kw.1]? = some f ∧ kw.2 = f.bytes := by
  have hi : TrafficSound p q s := hr.invariant (fun _ _ _ hi hg hs => hi.step hg hs) hg (.init p q)
  exact ⟨hi.heard, hi.written⟩

instance (i : ℕ) : DecidablePred (PublishPc.Stored i) := fun pc => by
  unfold PublishPc.Stored
  split <;> infer_instance

instance (S : Prop) [Decidable S] (n k : ℕ) : Decidable (Reached S n k) :=
  inferInstanceAs (Decidable (_ ∨ _))

def copiesInTimeTest (p : RingProfile) (q : FrameFormat) (s : RingTraffic) : TrafficAction → Bool
  | .listener i =>
    match s.listener i with
    | some (_, .copy cs n acc) => acc.length < n →
      ¬ Reached (s.publishing.Stored acc.length) s.b.producer_seq (cs + p.ring_size)
    | _ => true
  | .recorder i _ =>
    match s.recorder i with
    | some (r, .copy _ len acc) => acc.length < len * q.channels * 2 →
      ¬ Reached (s.publishing.Stored acc.length) s.b.producer_seq (r.consumer_seq + p.ring_size)
    | _ => true
  | _ => true

theorem copiesInTime_of_test (ht : copiesInTimeTest p q s a = true) : CopiesInTime p q s a := by
  constructor
  · rintro i m cs n acc rfl hm hlt
    simp only [copiesInTimeTest, hm] at ht
    exact of_decide_eq_true ht hlt
  · rintro i ok r pseq len acc rfl hr hlt
    simp only [copiesInTimeTest, hr] at ht
    exact of_decide_eq_true ht hlt

/-- On a ring of 2 the producer comes back to the slot of frame 0 while a listener copies it,
but stays behind the listener; a recording writer takes frame 1 beside it. -/
theorem copies_match_publication_close : ∃ (h : List (RingTraffic × TrafficAction))
    (s : RingTraffic), Run (trafficStep ⟨2, 1, 20, 0⟩ ⟨1, 1, by decide⟩) .init h s ∧
      s.publishing = .copy ⟨[30, 31], 1, false⟩ 0 ∧ s.b.producer_seq = 2 ∧
      s.heard 0 = [(0, ⟨2, 1, [10, 11]⟩)] ∧ s.written 0 = [(1, [20, 21])] ∧
      (∀ i, ∀ kw ∈ s.heard i, ∃ f, s.sent[kw.1]? = some f ∧ kw.2 = f.toWriteFrame) ∧
      ∀ i, ∀ kw ∈ s.written i, ∃ f, s.sent[kw.1]? = some f ∧ kw.2 = f.bytes := by
  obtain ⟨h, s, hr, hm, hv⟩ := exists_run_observing (trafficStep ⟨2, 1, 20, 0⟩ ⟨1, 1, by decide⟩)
    (copiesInTimeTest ⟨2, 1, 20, 0⟩ ⟨1, 1, by decide⟩) .init
    (List.flatten [[.join 0, .tick ⟨[10, 11], 1, false⟩], List.replicate 7 .producer,
      List.replicate 4 (.listener 0), [.record 0, .tick ⟨[20, 21], 1, false⟩],
      List.replicate 7 .producer, [.tick ⟨[30, 31], 1, false⟩], List.replicate 3 .producer,
      List.replicate 3 (.listener 0), List.replicate 6 (.recorder 0 true)])
    (fun _ s => decide (s.publishing = .copy ⟨[30, 31], 1, false⟩ 0 ∧ s.b.producer_seq = 2 ∧
      s.heard 0 = [(0, ⟨2, 1, [10, 11]⟩)] ∧ s.written 0 = [(1, [20, 21])])) (v := true) (by decide)
  obtain ⟨hpc, hseq, hheard, hwritten⟩ := of_decide_eq_true hv
  exact ⟨h, s, hr, hpc, hseq, hheard, hwritten,
    copies_match_publication hr (hm.mono fun _ _ => copiesInTime_of_test)⟩

/-- The producer has stored the first byte of frame 2 when a listener finds the stamp of
frame 0 in their slot: it delivers a byte of each. -/
theorem torn_frame_delivered : ¬ ∀ (h : List (RingTraffic × TrafficAction)) (s : RingTraffic),
    Run (trafficStep ⟨2, 1, 20, 0⟩ ⟨1, 1, by decide⟩) .init h s →
      (∀ i, ∀ kw ∈ s.heard i, ∃ f, s.sent[kw.1]? = some f ∧ kw.2 = f.toWriteFrame) ∧
        ∀ i, ∀ kw ∈ s.written i, ∃ f, s.sent[kw.1]? = some f ∧ kw.2 = f.bytes := by
  refine not_forall_run (fun _ _ => true)
    (List.flatten [[.join 0, .tick ⟨[10, 11], 1, false⟩], List.replicate 7 .producer,
      [.listener 0, .tick ⟨[20, 21], 1, false⟩], List.replicate 7 .producer,
      [.tick ⟨[30, 31], 1, false⟩], List.replicate 4 .producer, List.replicate 6 (.listener 0)])
    (fun _ s => (s.heard 0, s.sent[0]?))
    (v := ([(0, ⟨2, 1, [30, 11]⟩)], some ⟨[10, 11], 1, false⟩)) (by decide) ?_
  intro h s _ _ hv hall
  simp only [Prod.mk.injEq] at hv
  obtain ⟨f, hf, hw⟩ := hall.1 0 (0, ⟨2, 1, [30, 11]⟩) (by simp [hv.1])
  obtain rfl := Option.some.inj (hv.2.symm.trans hf)
  exact absurd hw (by decide)

end ModBroadcast
