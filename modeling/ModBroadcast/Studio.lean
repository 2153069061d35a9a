import ModBroadcast.AudioPath
import ModBroadcast.CatchUp
import ModBroadcast.ReadLog
import ModBroadcast.RingDelivery

namespace ModBroadcast

open Automaton ReadLog

/-- A broadcast's audio, its ring, and that `switch_change_sln_volume_granular` works in place. -/
structure StudioProfile where
  audio : AudioProfile
  ring : RingProfile
  volume_length : ∀ i l, (audio.volume i l).length = l.length

def StudioProfile.tape (p : StudioProfile) : TapeFormat :=
  ⟨p.ring.ring_size, p.ring.ring_size_pos, p.audio.format.channels,
    p.audio.format.samples_per_frame⟩

/-- Those who read the ring: a member from one `broadcast_listener_add` to the next, and a
recording. -/
inductive Consumer
  | listener (i : ℕ)
  | recording (j : ℕ)
  deriving DecidableEq

/-- `ended` is set for a stay on the list that a rollback has ended.  The last two fields are
history: the cursors that the consumers have begun with, and the frames that they have taken from
the ring, the latest first. -/
structure Studio where
  path : AudioPath
  b : AudioRing
  destroyed : Bool
  listener : ℕ → Option RingReader
  ended : ℕ → Bool
  recording : ℕ → Option TapeReader
  first : Consumer → ℕ
  heard : Consumer → List (ℕ × List UInt8)

inductive StudioAction
  | audio (a : AudioAction)
  | join (i : ℕ)
  | listen (i : ℕ)
  | readd (i j : ℕ)
  | start (j : ℕ)
  | stop (j : ℕ)
  | writer (j : ℕ) (ok : Bool)
  | destroy
  deriving DecidableEq

def Studio.init : Studio :=
  ⟨.init, .create, false, fun _ => none, fun _ => false, fun _ => none, fun _ => 0, fun _ => []⟩

def AudioPath.publishing (s : AudioPath) : AudioAction → Option AudioFrame
  | .tick _ _ => s.tick.frame
  | _ => none

/-- A publication, the ring read of a listener's tick and each step of a writer are single steps, and so
are the sections under `audio_in_mutex`. -/
def studioStep (p : StudioProfile) (s : Studio) : StudioAction → Option Studio
  | .audio a => (audioStep p.audio s.path a).map fun path =>
    { s with
      path := path
      b := ((s.path.publishing a).map fun f => publish p.ring.ring_size s.b f.toTickFrame).getD s.b }
  | .join i =>
    match s.listener i with
    | some _ => none
    | none => some { s with
        listener := Function.update s.listener i (some ⟨startCursor p.ring s.b, 0⟩)
        first := Function.update s.first (.listener i) (startCursor p.ring s.b) }
  | .listen i =>
    if s.ended i then none
    else (s.listener i).map fun m =>
      let (b, m', out) := listenerTick p.ring s.b m
      { s with
        b := b
        listener := Function.update s.listener i (some m')
        heard := Function.update s.heard (.listener i)
          ((out.map fun x => (x.1, x.2.data)).toList ++ s.heard (.listener i)) }
  -- a promotion that is rolled back puts the member on the list again, with a new cursor
  | .readd i j =>
    match s.listener i, s.listener j with
    | some m, none =>
      if s.ended i then none
      else some { s with
        listener := Function.update s.listener j (some ⟨startCursor p.ring s.b, m.resync_count⟩)
        ended := Function.update s.ended i true
        first := Function.update s.first (.listener j) (startCursor p.ring s.b) }
    | _, _ => none
  | .start j =>
    match s.recording j with
    | some _ => none
    | none => some { s with
        recording := Function.update s.recording j (some ⟨s.b.producer_seq, true, .timer⟩)
        first := Function.update s.first (.recording j) s.b.producer_seq }
  | .stop j => (s.recording j).map fun m =>
    { s with recording := Function.update s.recording j (some { m with running := false }) }
  | .writer j ok => (s.recording j).bind fun m =>
    (recordWriterRun p.tape s.b s.destroyed ok m).map fun x =>
      { s with
        recording := Function.update s.recording j (some x.1)
        heard := Function.update s.heard (.recording j) (x.2.toList ++ s.heard (.recording j)) }
  | .destroy => some { s with destroyed := true }

def Studio.reader (s : Studio) : Consumer → Option Reader
  | .listener i => (s.listener i).map fun m => ⟨s.first (.listener i), m.consumer_seq⟩
  | .recording j => (s.recording j).map fun m => ⟨s.first (.recording j), m.consumer_seq⟩

/-- A listener's tick finds the frame at its cursor within `max_lag` and still in the ring; a
recording finds it still in the ring. -/
def KeepsUp (p : StudioProfile) : Consumer → Studio → StudioAction → Prop
  | .listener i, s, a => a = .listen i → ∀ m, s.listener i = some m →
    s.b.producer_seq - m.consumer_seq ≤ min p.ring.max_lag p.ring.ring_size
  | .recording j, s, a => ∀ ok, a = .writer j ok → ∀ m, s.recording j = some m →
    ∀ n, m.pc = .pass n → m.running → m.consumer_seq < n →
      s.b.producer_seq - m.consumer_seq ≤ p.ring.ring_size

def payload (x : ℕ × AudioFrame) : ℕ × List UInt8 := (x.1, x.2.bytes)

variable {p : StudioProfile} {s t : Studio} {a : StudioAction} {l : Log Consumer AudioFrame}
  {c : Consumer} {h : List (Studio × StudioAction)}

structure Related (p : StudioProfile) (s : Studio) (l : Log Consumer AudioFrame) : Prop where
  path : ∃ h, Run (audioStep p.audio) .init h s.path
  ring : RingHolds p.ring.ring_size s.b (s.path.frames.map AudioFrame.toTickFrame)
  reads : Reads l
  entries : l.entries = s.path.frames
  reader : ∀ c, l.reader c = s.reader c
  heard : ∀ c, s.heard c = (l.taken c).map payload
  sampled : ∀ j m n, s.recording j = some m → m.pc = .pass n →
    m.consumer_seq ≤ n ∧ n ≤ s.b.producer_seq

theorem Related.init (p : StudioProfile) : Related p .init .empty where
  path := ⟨[], .nil⟩
  ring := .create _
  reads := .empty
  entries := rfl
  reader c := by cases c <;> rfl
  heard c := rfl
  sampled := by simp [Studio.init]

theorem Related.length (hR : Related p s l) : l.entries.length = s.b.producer_seq := by
  rw [hR.entries, ← hR.ring.length, List.length_map]

theorem Related.formatted (hR : Related p s l) :
    ∀ f ∈ s.path.frames, f.toTickFrame.Formatted p.audio.format := by
  obtain ⟨h, hr⟩ := hR.path
  exact frames_formatted p.volume_length hr

theorem audioStep_frames {s t : AudioPath} {a : AudioAction} {q : AudioProfile}
    (hs : audioStep q s a = some t) : t.frames = s.frames ++ (s.publishing a).toList := by
  cases a with
  | tick bs ok =>
    obtain hsame | ⟨f, hpc, hnew⟩ := audioTick_frames hs
    · cases hpc : s.tick with
      | publish f =>
        simp only [audioStep, audioTick, hpc, Option.some.injEq] at hs
        subst hs
        simp [AudioPath.publishing, hpc, TickPc.frame]
      | _ => simpa [AudioPath.publishing, hpc, TickPc.frame] using hsame
    · rw [hnew]
      simp [AudioPath.publishing, hpc, TickPc.frame]
  | write m bs ok | speaker new =>
    simp only [audioStep] at hs
    split_ifs at hs
    obtain rfl := Option.some.inj hs
    simp [AudioPath.publishing, AudioPath.modify]
  | _ =>
    obtain rfl := Option.some.inj hs
    simp [AudioPath.publishing, AudioPath.modify]

/-- No consumer moves. -/
theorem Related.keep (hR : Related p s l) (hpath : t.path = s.path)
    (hring : RingHolds p.ring.ring_size t.b (s.path.frames.map AudioFrame.toTickFrame))
    (hreader : ∀ c, t.reader c = s.reader c) (hheard : ∀ c, t.heard c = s.heard c)
    (hsampled : ∀ j m n, t.recording j = some m → m.pc = .pass n →
      m.consumer_seq ≤ n ∧ n ≤ t.b.producer_seq) : Related p t l where
  path := hpath ▸ hR.path
  ring := hpath ▸ hring
  reads := hR.reads
  entries := hpath ▸ hR.entries
  reader c := (hR.reader c).trans (hreader c).symm
  heard c := (hheard c).trans (hR.heard c)
  sampled := hsampled

/-- The consumer `c` goes on, and has taken what is in `out`. -/
theorem Related.move {first next : ℕ} {out : List (ℕ × AudioFrame)} (hR : Related p s l)
    (hreads : Reads (l.move c ⟨first, next⟩ out)) (hpath : t.path = s.path)
    (hring : RingHolds p.ring.ring_size t.b (s.path.frames.map AudioFrame.toTickFrame))
    (hc : t.reader c = some ⟨first, next⟩) (hother : ∀ d, d ≠ c → t.reader d = s.reader d)
    (hheard : t.heard = Function.update s.heard c (out.map payload ++ s.heard c))
    (hsampled : ∀ j m n, t.recording j = some m → m.pc = .pass n →
      m.consumer_seq ≤ n ∧ n ≤ t.b.producer_seq) :
    Related p t (l.move c ⟨first, next⟩ out) where
  path := hpath ▸ hR.path
  ring := hpath ▸ hring
  reads := hreads
  entries := hpath ▸ hR.entries
  reader d := by
    by_cases hd : d = c
    · subst hd
      simp [Log.move, hc]
    · simp [Log.move, hd, hother d hd, hR.reader d]
  heard d := by
    rw [hheard]
    by_cases hd : d = c
    · subst hd
      simp [Log.move, hR.heard d]
    · simp [Log.move, hd, hR.heard d]
  sampled := hsampled

/-- A slot with the number `k` holds the entry `k` of the log. -/
theorem Related.slot {k : ℕ} (hR : Related p s l) (hk : k < s.b.producer_seq)
    (hs : (s.b.ring (k % p.ring.ring_size)).seq = k) :
    ∃ f, l.entries[k]? = some f ∧
      (s.b.ring (k % p.ring.ring_size)).cell.2.data = f.bytes ∧
      (s.b.ring (k % p.ring.ring_size)).data.take
        ((s.b.ring (k % p.ring.ring_size)).samples * p.audio.format.channels * 2) = f.bytes := by
  obtain ⟨g, hg, hw⟩ := hR.ring.payload hk hs
  obtain ⟨f, hf, rfl⟩ := Option.map_eq_some_iff.mp (List.getElem?_map .. ▸ hg)
  have hfit : ∀ g ∈ s.path.frames.map AudioFrame.toTickFrame, p.tape.Fits g := by
    intro g hg
    obtain ⟨x, hx, rfl⟩ := List.mem_map.mp hg
    exact hR.formatted x hx
  obtain ⟨g, hg', htape⟩ := RingHolds.taken (q := p.tape)
    (s := ⟨s.b, s.destroyed, none, 0, s.path.frames.map AudioFrame.toTickFrame, []⟩)
    hR.ring hfit hk hs
  obtain rfl : f.toTickFrame = g := Option.some.inj (hg.symm.trans hg')
  exact ⟨f, hR.entries ▸ hf, congrArg WriteFrame.data hw.symm, htape⟩

/-- The listener `i` has come to `m` in a tick that leaves the ring as `b`, and has taken what is in
`out`. -/
def Studio.onLine (s : Studio) (i : ℕ) (b : AudioRing) (m : RingReader)
    (out : List (ℕ × List UInt8)) : Studio :=
  { s with
    b := b
    listener := Function.update s.listener i (some m)
    heard := Function.update s.heard (.listener i) (out ++ s.heard (.listener i)) }

section Line

variable {i : ℕ} {b : AudioRing} {m m' : RingReader} {out : List (ℕ × List UInt8)}

theorem reader_onLine (s : Studio) (i : ℕ) (b : AudioRing) (m : RingReader)
    (out : List (ℕ × List UInt8)) :
    (s.onLine i b m out).reader (.listener i) = some ⟨s.first (.listener i), m.consumer_seq⟩ := by
  simp [Studio.reader, Studio.onLine]

theorem reader_onLine_of_ne (hc : c ≠ .listener i) :
    (s.onLine i b m out).reader c = s.reader c := by
  cases c with
  | listener j =>
    have hj : j ≠ i := fun h => hc (h ▸ rfl)
    simp [Studio.reader, Studio.onLine, hj]
  | recording j => rfl

variable (hR : Related p s l) (hm : s.listener i = some m)

include hm in
theorem keepsUp_listen_iff (c : Consumer) : KeepsUp p c s (.listen i) ↔ (c = .listener i →
    s.b.producer_seq - m.consumer_seq ≤ min p.ring.max_lag p.ring.ring_size) := by
  cases c with
  | listener j =>
    constructor
    · rintro hk ⟨⟩
      exact hk rfl m hm
    · rintro hk ⟨⟩ m' hm'
      obtain rfl : m = m' := Option.some.inj (hm.symm.trans hm')
      exact hk rfl
  | recording j => exact iff_of_true (by rintro ok ⟨⟩) (by rintro ⟨⟩)

include hR hm in
theorem Related.reader_listener :
    l.reader (.listener i) = some ⟨s.first (.listener i), m.consumer_seq⟩ := by
  rw [hR.reader, Studio.reader, hm]
  rfl

variable (hring : RingHolds p.ring.ring_size b (s.path.frames.map AudioFrame.toTickFrame))
  (hseq : b.producer_seq = s.b.producer_seq)

include hR hm hring hseq

/-- The log does nothing where the listener does not move. -/
theorem Related.still_onLine (hsame : m'.consumer_seq = m.consumer_seq) :
    Related p (s.onLine i b m' []) l := by
  refine hR.keep rfl hring (fun d => ?_) (fun d => by simp [Studio.onLine])
    (by simpa only [Studio.onLine, hseq] using hR.sampled)
  by_cases hd : d = .listener i
  · subst hd
    rw [reader_onLine, ← hR.reader, hR.reader_listener hm, hsame]
  · exact reader_onLine_of_ne hd

/-- A listener that finds the frame `k` in its slot passes to the entry `k` and takes it. -/
theorem Related.take_onLine {k : ℕ} (hk : k < s.b.producer_seq) (hle : m.consumer_seq ≤ k)
    (hslot : (s.b.ring (k % p.ring.ring_size)).seq = k) (hnext : m'.consumer_seq = k + 1)
    (hlag : m.consumer_seq = k ↔
      s.b.producer_seq - m.consumer_seq ≤ min p.ring.max_lag p.ring.ring_size) :
    ∃ h l', Run logStep l h l' ∧ (∀ c, Meets (Forward c) h ↔ KeepsUp p c s (.listen i)) ∧
      Related p (s.onLine i b m'
        [(k, (s.b.ring (k % p.ring.ring_size)).cell.2.data)]) l' := by
  obtain ⟨f, hf, hdata, -⟩ := hR.slot hk hslot
  obtain ⟨h', hrun, hforward⟩ := exists_run_take (hR.reader_listener hm) hle hf
  refine ⟨h', _, hrun, fun c => ?_, hR.move (hR.reads.of_run hrun) rfl hring ?_
    (fun d hd => reader_onLine_of_ne hd) ?_ (by simpa only [Studio.onLine, hseq] using hR.sampled)⟩
  · rw [hforward, keepsUp_listen_iff hm]
    exact imp_congr_right fun _ => hlag
  · rw [reader_onLine, hnext]
  · simp [Studio.onLine, payload, hdata]

/-- A listener that finds another frame in the slot of its cursor passes everything over. -/
theorem Related.skip_onLine (hlt : m.consumer_seq < s.b.producer_seq)
    (hslot : (s.b.ring (m.consumer_seq % p.ring.ring_size)).seq ≠ m.consumer_seq)
    (hnext : m'.consumer_seq = s.b.producer_seq) :
    ∃ h l', Run logStep l h l' ∧ (∀ c, Meets (Forward c) h ↔ KeepsUp p c s (.listen i)) ∧
      Related p (s.onLine i b m' []) l' := by
  obtain ⟨h', hrun, hforward⟩ := exists_run_pass (hR.reader_listener hm) hlt.le hR.length.ge
  have hout := mt (hR.ring.seq_iff hlt).mpr hslot
  refine ⟨h', _, hrun, fun c => ?_, hR.move (hR.reads.of_run hrun) rfl hring ?_
    (fun d hd => reader_onLine_of_ne hd) (by simp [Studio.onLine])
    (by simpa only [Studio.onLine, hseq] using hR.sampled)⟩
  · rw [hforward, keepsUp_listen_iff hm]
    refine imp_congr_right fun _ => iff_of_false hlt.ne fun hmin => ?_
    have := hmin.trans (min_le_right _ _)
    omega
  · rw [reader_onLine, hnext]

end Line

theorem Related.listen {i : ℕ} (hR : Related p s l) (hs : studioStep p s (.listen i) = some t) :
    ∃ h l', Run logStep l h l' ∧ (∀ c, Meets (Forward c) h ↔ KeepsUp p c s (.listen i)) ∧
      Related p t l' := by
  simp only [studioStep] at hs
  split_ifs at hs
  obtain ⟨m, hm, rfl⟩ := Option.map_eq_some_iff.mp hs
  have hring := hR.ring.listenerTick (p := p.ring) m
  have hseq := listenerTick_producer_seq p.ring s.b m
  have hout := listenerTick_outcome p.ring hR.ring m
  rcases hx : listenerTick p.ring s.b m with ⟨b, m', out⟩
  rw [hx] at hring hseq hout
  cases hout with
  | idle h =>
    refine ⟨[], l, .nil, fun c => ?_, hR.still_onLine hm hring hseq rfl⟩
    rw [keepsUp_listen_iff hm]
    exact iff_of_true (meets_nil _) fun _ => by omega
  | deliver h hlag hslot =>
    have hin := (hR.ring.seq_iff h).mp hslot
    exact hR.take_onLine hm hring hseq h le_rfl hslot rfl
      (iff_of_true rfl (le_min hlag (by omega)))
  | stale h hlag hslot => exact hR.skip_onLine hm hring hseq h hslot rfl
  | resync h hlag hslot =>
    have hpos : 0 < p.ring.max_lag := by
      unfold RingProfile.max_lag
      split_ifs <;> omega
    have hlast : s.b.producer_seq - 1 + 1 = s.b.producer_seq := by omega
    refine hR.take_onLine hm hring hseq (by omega) (by omega) hslot hlast.symm
      (iff_of_false (by omega) fun hmin => ?_)
    have := hmin.trans (min_le_left _ _)
    omega

/-- A writer that has found another frame in the slot of its cursor passes the number over. -/
theorem recordWriterRun_late {q : TapeFormat} {b : AudioRing} {destroyed ok : Bool}
    {m m' : TapeReader} {out : Option (ℕ × List UInt8)} {n : ℕ} (hn : m.pc = .pass n)
    (hrun : m.running = true) (hlt : m.consumer_seq < n)
    (hslot : (b.ring (m.consumer_seq % q.ring_size)).seq ≠ m.consumer_seq)
    (hs : recordWriterRun q b destroyed ok m = some (m', out)) :
    m'.consumer_seq = m.consumer_seq + 1 ∧ out = none := by
  simp only [recordWriterRun, hn, hlt, hrun, and_self, if_true, hslot, if_false] at hs
  obtain ⟨rfl, rfl⟩ := Prod.mk.inj (Option.some.inj hs)
  exact ⟨rfl, rfl⟩

theorem recordWriterRun_running {q : TapeFormat} {b : AudioRing} {destroyed ok : Bool}
    {m m' : TapeReader} {out : Option (ℕ × List UInt8)}
    (hs : recordWriterRun q b destroyed ok m = some (m', out))
    (hnext : m'.consumer_seq ≠ m.consumer_seq) : m.running = true := by
  obtain ⟨cs, running, pc⟩ := m
  by_contra hrun
  simp only [Bool.not_eq_true] at hrun
  subst hrun
  cases pc with
  | timer =>
    simp only [recordWriterRun] at hs
    split_ifs at hs <;> obtain ⟨rfl, rfl⟩ := Prod.mk.inj (Option.some.inj hs) <;>
      exact hnext rfl
  | loop | sample =>
    obtain ⟨rfl, rfl⟩ := Prod.mk.inj (Option.some.inj hs)
    exact hnext rfl
  | pass n =>
    simp only [recordWriterRun, Bool.false_eq_true, and_false, if_false] at hs
    obtain ⟨rfl, rfl⟩ := Prod.mk.inj (Option.some.inj hs)
    exact hnext rfl
  | closed => cases hs

/-- The writer of the recording `j` has come to `m`, and has taken what is in `out`. -/
def Studio.onTape (s : Studio) (j : ℕ) (m : TapeReader) (out : List (ℕ × List UInt8)) : Studio :=
  { s with
    recording := Function.update s.recording j (some m)
    heard := Function.update s.heard (.recording j) (out ++ s.heard (.recording j)) }

section Tape

variable {j : ℕ} {ok : Bool} {m m' : TapeReader} {out : List (ℕ × List UInt8)}

theorem reader_onTape (s : Studio) (j : ℕ) (m : TapeReader) (out : List (ℕ × List UInt8)) :
    (s.onTape j m out).reader (.recording j) = some ⟨s.first (.recording j), m.consumer_seq⟩ := by
  simp [Studio.reader, Studio.onTape]

theorem reader_onTape_of_ne (hc : c ≠ .recording j) :
    (s.onTape j m out).reader c = s.reader c := by
  cases c with
  | listener i => rfl
  | recording i =>
    have hi : i ≠ j := fun h => hc (h ▸ rfl)
    simp [Studio.reader, Studio.onTape, hi]

/-- The pass that the writer is in keeps its bounds. -/
theorem Related.sampled_onTape (hR : Related p s l)
    (hm : ∀ n, m.pc = .pass n → m.consumer_seq ≤ n ∧ n ≤ s.b.producer_seq) :
    ∀ i q n, (s.onTape j m out).recording i = some q → q.pc = .pass n →
      q.consumer_seq ≤ n ∧ n ≤ (s.onTape j m out).b.producer_seq := by
  intro i q n hq hn
  by_cases hi : i = j
  · subst hi
    obtain rfl : m = q := by simpa [Studio.onTape] using hq
    exact hm n hn
  · exact hR.sampled i q n (by simpa [Studio.onTape, hi] using hq) hn

variable (hR : Related p s l) (hm : s.recording j = some m)

include hR hm in
theorem Related.reader_recording :
    l.reader (.recording j) = some ⟨s.first (.recording j), m.consumer_seq⟩ := by
  rw [hR.reader, Studio.reader, hm]
  rfl

include hm in
/-- A writer that does not keep up finds its cursor out of the ring. -/
theorem late_of_not_keepsUp (hk : ¬ KeepsUp p c s (.writer j ok)) : c = .recording j ∧
    ∃ n, m.pc = .pass n ∧ m.running = true ∧ m.consumer_seq < n ∧
      p.ring.ring_size < s.b.producer_seq - m.consumer_seq := by
  cases c with
  | listener i => exact absurd (by rintro ⟨⟩) hk
  | recording i =>
    simp only [KeepsUp, not_forall, exists_prop, not_le] at hk
    obtain ⟨_, ⟨⟩, q, hq, n, hn, hrun, hlt, hlag⟩ := hk
    obtain rfl : m = q := Option.some.inj (hm.symm.trans hq)
    exact ⟨rfl, n, hn, hrun, hlt, hlag⟩

include hR hm

/-- A writer that does not move has kept up. -/
theorem Related.keepsUp_of_still {o : Option (ℕ × List UInt8)}
    (hw : recordWriterRun p.tape s.b s.destroyed ok m = some (m', o))
    (hsame : m'.consumer_seq = m.consumer_seq) (c : Consumer) : KeepsUp p c s (.writer j ok) := by
  by_contra hk
  obtain ⟨-, n, hn, hrun, hlt, hlag⟩ := late_of_not_keepsUp hm hk
  have hle := (hR.sampled j m n hm hn).2
  have hslot := mt (hR.ring.seq_iff (hlt.trans_le hle)).mp (by omega)
  have := (recordWriterRun_late (q := p.tape) hn hrun hlt hslot hw).1
  omega

/-- The log does nothing where the writer does not move. -/
theorem Related.still_onTape (hsame : m'.consumer_seq = m.consumer_seq)
    (hpass : ∀ n, m'.pc = .pass n → m'.consumer_seq ≤ n ∧ n ≤ s.b.producer_seq) :
    Related p (s.onTape j m' []) l := by
  refine hR.keep rfl hR.ring (fun d => ?_) (fun d => by simp [Studio.onTape])
    (hR.sampled_onTape hpass)
  by_cases hd : d = .recording j
  · subst hd
    rw [reader_onTape, ← hR.reader, hR.reader_recording hm, hsame]
  · exact reader_onTape_of_ne hd

/-- A writer that finds its frame in the ring takes the entry. -/
theorem Related.write_onTape {n : ℕ} (hn : m.pc = .pass n) (hlt : m.consumer_seq < n)
    (hslot : (s.b.ring (m.consumer_seq % p.ring.ring_size)).seq = m.consumer_seq) :
    ∃ h l', Run logStep l h l' ∧ (∀ c, Meets (Forward c) h ↔ KeepsUp p c s (.writer j ok)) ∧
      Related p (s.onTape j { m with consumer_seq := m.consumer_seq + 1 }
        [(m.consumer_seq, (s.b.ring (m.consumer_seq % p.ring.ring_size)).data.take
          ((s.b.ring (m.consumer_seq % p.ring.ring_size)).samples *
            p.audio.format.channels * 2))]) l' := by
  have hle := (hR.sampled j m n hm hn).2
  obtain ⟨f, hf, -, hdata⟩ := hR.slot (hlt.trans_le hle) hslot
  obtain ⟨h', hrun, hforward⟩ := exists_run_take (hR.reader_recording hm) le_rfl hf
  refine ⟨h', _, hrun, fun c => ?_, hR.move (hR.reads.of_run hrun) rfl hR.ring (reader_onTape ..)
    (fun d hd => reader_onTape_of_ne hd) ?_ (hR.sampled_onTape fun k hk => ?_)⟩
  · rw [hforward]
    refine iff_of_true (fun _ => rfl) ?_
    by_contra hk
    obtain ⟨-, -, -, -, -, hlag⟩ := late_of_not_keepsUp hm hk
    have := (hR.ring.seq_iff (hlt.trans_le hle)).mp hslot
    omega
  · simp [Studio.onTape, payload, hdata]
  · obtain rfl := TapePc.pass.inj (hn.symm.trans hk)
    exact ⟨hlt, hle⟩

/-- A writer that finds another frame in the slot passes the entry over. -/
theorem Related.skip_onTape {n : ℕ} (hn : m.pc = .pass n) (hlt : m.consumer_seq < n)
    (hrunning : m.running = true)
    (hslot : (s.b.ring (m.consumer_seq % p.ring.ring_size)).seq ≠ m.consumer_seq) :
    ∃ h l', Run logStep l h l' ∧ (∀ c, Meets (Forward c) h ↔ KeepsUp p c s (.writer j ok)) ∧
      Related p (s.onTape j { m with consumer_seq := m.consumer_seq + 1 } []) l' := by
  have hle := (hR.sampled j m n hm hn).2
  obtain ⟨h', hrun, hforward⟩ := exists_run_pass (hR.reader_recording hm) (Nat.le_succ _)
    (hR.length.symm ▸ hlt.trans_le hle)
  refine ⟨h', _, hrun, fun c => ?_, hR.move (hR.reads.of_run hrun) rfl hR.ring (reader_onTape ..)
    (fun d hd => reader_onTape_of_ne hd) (by simp [Studio.onTape])
    (hR.sampled_onTape fun k hk => ?_)⟩
  · rw [hforward]
    have hin := mt (hR.ring.seq_iff (hlt.trans_le hle)).mpr hslot
    constructor
    · intro hc
      by_contra hk
      have := hc (late_of_not_keepsUp hm hk).1
      dsimp only at this
      omega
    · rintro hk rfl
      have := hk ok rfl m hm n hn hrunning hlt
      omega
  · obtain rfl := TapePc.pass.inj (hn.symm.trans hk)
    exact ⟨hlt, hle⟩

end Tape

theorem Related.writer {j : ℕ} {ok : Bool} (hR : Related p s l)
    (hs : studioStep p s (.writer j ok) = some t) :
    ∃ h l', Run logStep l h l' ∧ (∀ c, Meets (Forward c) h ↔ KeepsUp p c s (.writer j ok)) ∧
      Related p t l' := by
  obtain ⟨m, hm, hx⟩ := Option.bind_eq_some_iff.mp hs
  obtain ⟨⟨m', out⟩, hw, rfl⟩ := Option.map_eq_some_iff.mp hx
  have hrunning := recordWriterRun_running hw
  cases recordWriterRun_move hw with
  | still running pc hp =>
    exact ⟨[], l, .nil, fun c => iff_of_true (meets_nil _) (hR.keepsUp_of_still hm hw rfl c),
      hR.still_onTape hm rfl fun n hn => absurd hn (hp n)⟩
  | sample hp =>
    have hle : m.consumer_seq ≤ s.b.producer_seq := by
      rw [← hR.length]
      exact hR.reads.next_le _ _ (hR.reader_recording hm)
    refine ⟨[], l, .nil, fun c => iff_of_true (meets_nil _) (hR.keepsUp_of_still hm hw rfl c),
      hR.still_onTape hm rfl ?_⟩
    rintro _ ⟨⟩
    exact ⟨hle, le_rfl⟩
  | @write n hn hlt hslot => exact hR.write_onTape hm hn hlt hslot
  | @skip n hn hlt hslot => exact hR.skip_onTape hm hn hlt (hrunning (Nat.succ_ne_self _)) hslot

theorem Related.audio {act : AudioAction} (hR : Related p s l)
    (hs : studioStep p s (.audio act) = some t) :
    ∃ h l', Run logStep l h l' ∧ (∀ c, Meets (Forward c) h ↔ KeepsUp p c s (.audio act)) ∧
      Related p t l' := by
  obtain ⟨path, hpath, rfl⟩ := Option.map_eq_some_iff.mp hs
  obtain ⟨h₀, hr₀⟩ := hR.path
  have hframes := audioStep_frames hpath
  have hkeeps : ∀ c, KeepsUp p c s (.audio act) := by
    rintro (i | j)
    · rintro ⟨⟩
    · rintro ok ⟨⟩
  cases hpub : s.path.publishing act with
  | none =>
    rw [hpub, Option.toList_none, List.append_nil] at hframes
    exact ⟨[], l, .nil, fun c => iff_of_true (meets_nil _) (hkeeps c), ⟨_, hr₀.snoc hpath⟩,
      hframes ▸ hR.ring, hR.reads, hframes ▸ hR.entries, fun c => by rw [hR.reader]; cases c <;> rfl,
      hR.heard, hR.sampled⟩
  | some f =>
    rw [hpub, Option.toList_some] at hframes
    have hrun : Run logStep l [(l, .append f)] { l with entries := l.entries ++ [f] } :=
      .snoc .nil rfl
    refine ⟨_, _, hrun, fun c => iff_of_true ?_ (hkeeps c), ⟨_, hr₀.snoc hpath⟩, ?_,
      hR.reads.append f, ?_, fun c => ?_, hR.heard, fun j m n hm hn => ?_⟩
    · refine meets_cons.mpr ⟨?_, meets_nil _⟩
      rintro k ⟨⟩
    · have hring := hR.ring.publish p.ring.ring_size_pos f.toTickFrame
      rw [hframes, List.map_append]
      exact hring
    · rw [hframes, ← hR.entries]
    · show l.reader c = _
      rw [hR.reader]
      cases c <;> rfl
    · obtain ⟨h₁, h₂⟩ := hR.sampled j m n hm hn
      exact ⟨h₁, h₂.trans (Nat.le_succ _)⟩

/-- A consumer begins at a cursor that is not ahead of the producer. -/
theorem Related.enter {cursor : ℕ} (hR : Related p s l) (hnone : s.reader c = none)
    (hle : cursor ≤ s.b.producer_seq) (hpath : t.path = s.path) (hb : t.b = s.b)
    (hc : t.reader c = some ⟨cursor, cursor⟩) (hother : ∀ d, d ≠ c → t.reader d = s.reader d)
    (hheard : t.heard = s.heard)
    (hsampled : ∀ j m n, t.recording j = some m → m.pc = .pass n → s.recording j = some m) :
    ∃ h l', Run logStep l h l' ∧ (∀ d, Meets (Forward d) h) ∧ Related p t l' := by
  have hstep : logStep l (.enter c cursor) = some (l.move c ⟨cursor, cursor⟩ []) := by
    simp [logStep, hR.reader, hnone, hR.length, hle, Log.move]
  have hrun : Run logStep l [(l, .enter c cursor)] (l.move c ⟨cursor, cursor⟩ []) :=
    .snoc .nil hstep
  refine ⟨_, _, hrun, fun d => meets_cons.mpr ⟨?_, meets_nil _⟩,
    hR.move (hR.reads.of_run hrun) hpath (hb ▸ hR.ring) hc hother (by simp [hheard]) ?_⟩
  · rintro k ⟨⟩
  · intro j m n hm hn
    rw [hb]
    exact hR.sampled j m n (hsampled j m n hm hn) hn

/-- Only ticks and writers can fail to keep up. -/
theorem keepsUp_of_other (hl : ∀ i, a ≠ .listen i) (hw : ∀ j ok, a ≠ .writer j ok) (c : Consumer) :
    KeepsUp p c s a := by
  cases c with
  | listener i => exact fun ha => absurd ha (hl i)
  | recording j => exact fun ok ha => absurd ha (hw j ok)

/-- A member is put on the list under the number `i`, which nobody has had. -/
theorem Related.list {i n : ℕ} (hR : Related p s l) (hi : s.listener i = none)
    (hpath : t.path = s.path) (hb : t.b = s.b) (hheard : t.heard = s.heard)
    (hrec : t.recording = s.recording)
    (hlist : t.listener = Function.update s.listener i (some ⟨startCursor p.ring s.b, n⟩))
    (hfirst : t.first = Function.update s.first (.listener i) (startCursor p.ring s.b)) :
    ∃ h l', Run logStep l h l' ∧ (∀ d, Meets (Forward d) h) ∧ Related p t l' := by
  refine hR.enter (c := .listener i) (by simp [Studio.reader, hi]) (startCursor_le p.ring s.b)
    hpath hb (by simp [Studio.reader, hlist, hfirst]) ?_ hheard
    fun _ _ _ hm _ => hrec ▸ hm
  rintro (k | k) hd
  · have hk : k ≠ i := fun h => hd (h ▸ rfl)
    simp [Studio.reader, hlist, hfirst, hk]
  · simp [Studio.reader, hrec, hfirst]

theorem Related.start {j : ℕ} (hR : Related p s l) (hj : s.recording j = none)
    (ht : t = { s with
      recording := Function.update s.recording j (some ⟨s.b.producer_seq, true, .timer⟩)
      first := Function.update s.first (.recording j) s.b.producer_seq }) :
    ∃ h l', Run logStep l h l' ∧ (∀ d, Meets (Forward d) h) ∧ Related p t l' := by
  refine hR.enter (c := .recording j) (by simp [Studio.reader, hj]) le_rfl (by rw [ht])
    (by rw [ht]) (by simp [ht, Studio.reader]) ?_ (by rw [ht]) ?_
  · rintro (k | k) hd
    · simp [ht, Studio.reader]
    · have hk : k ≠ j := fun h => hd (h ▸ rfl)
      simp [ht, Studio.reader, hk]
  -- the writer that has been started is in no pass
  · intro k m n hm hn
    rw [ht] at hm
    by_cases hk : k = j
    · obtain rfl : (⟨s.b.producer_seq, true, .timer⟩ : TapeReader) = m := by simpa [hk] using hm
      cases hn
    · simpa [hk] using hm

theorem Related.stop {j : ℕ} {m : TapeReader} (hR : Related p s l) (hm : s.recording j = some m) :
    Related p { s with
      recording := Function.update s.recording j (some { m with running := false }) } l := by
  refine hR.keep rfl hR.ring (fun d => ?_) (fun d => rfl) fun i q n hq hn => ?_
  · cases d with
    | listener i => rfl
    | recording i =>
      by_cases hi : i = j
      · subst hi
        simp [Studio.reader, hm]
      · simp [Studio.reader, hi]
  · by_cases hi : i = j
    · subst hi
      obtain rfl : { m with running := false } = q := by simpa using hq
      exact hR.sampled i m n hm hn
    · exact hR.sampled i q n (by simpa [hi] using hq) hn

theorem Related.step (hR : Related p s l) (hs : studioStep p s a = some t) :
    ∃ h l', Run logStep l h l' ∧ (∀ c, Meets (Forward c) h ↔ KeepsUp p c s a) ∧
      Related p t l' := by
  have entered (hl : ∀ i, a ≠ .listen i) (hw : ∀ j ok, a ≠ .writer j ok)
      (he : ∃ h l', Run logStep l h l' ∧ (∀ d, Meets (Forward d) h) ∧ Related p t l') :
      ∃ h l', Run logStep l h l' ∧ (∀ c, Meets (Forward c) h ↔ KeepsUp p c s a) ∧
        Related p t l' := by
    obtain ⟨h, l', hrun, hf, hR'⟩ := he
    exact ⟨h, l', hrun, fun c => iff_of_true (hf c) (keepsUp_of_other hl hw c), hR'⟩
  cases a with
  | audio a => exact hR.audio hs
  | listen i => exact hR.listen hs
  | writer j ok => exact hR.writer hs
  | join i =>
    refine entered (by simp) (by simp) ?_
    simp only [studioStep] at hs
    split at hs
    · cases hs
    · next hi =>
      obtain rfl := Option.some.inj hs
      exact hR.list hi rfl rfl rfl rfl rfl rfl
  | readd i j =>
    refine entered (by simp) (by simp) ?_
    simp only [studioStep] at hs
    split at hs
    · next m hi hj =>
      split_ifs at hs
      obtain rfl := Option.some.inj hs
      exact hR.list hj rfl rfl rfl rfl rfl rfl
    · cases hs
  | start j =>
    refine entered (by simp) (by simp) ?_
    simp only [studioStep] at hs
    split at hs
    · cases hs
    · next hj => exact hR.start hj (Option.some.inj hs).symm
  | stop j =>
    obtain ⟨m, hm, rfl⟩ := Option.map_eq_some_iff.mp hs
    exact ⟨[], l, .nil, fun c => iff_of_true (meets_nil _) (keepsUp_of_other (by simp) (by simp) c),
      hR.stop hm⟩
  | destroy =>
    obtain rfl := Option.some.inj hs
    exact ⟨[], l, .nil, fun c => iff_of_true (meets_nil _) (keepsUp_of_other (by simp) (by simp) c),
      hR.keep rfl hR.ring (fun d => by cases d <;> rfl) (fun d => rfl) hR.sampled⟩

/-- Every run of the studio is a run of the log. -/
theorem Related.of_run {s₀ : Studio} {l₀ : Log Consumer AudioFrame} (hR : Related p s₀ l₀)
    (hr : Run (studioStep p) s₀ h s) :
    ∃ h' l, Run logStep l₀ h' l ∧ (∀ c, Meets (Forward c) h' ↔ Meets (KeepsUp p c) h) ∧
      Related p s l :=
  hr.simulation (g := KeepsUp p) (f := Forward) (fun _ _ _ _ hR hs => hR.step hs) hR

theorem Related.exists_of_run (hr : Run (studioStep p) .init h s) :
    ∃ h' l, Run logStep .empty h' l ∧ (∀ c, Meets (Forward c) h' ↔ Meets (KeepsUp p c) h) ∧
      Related p s l := (Related.init p).of_run hr

/-- A broadcast is a log of frames with independent readers: whatever its threads do is what the
readers of such a log can do, and a consumer keeps up while its reader passes no frame over. -/
theorem studio_refines_log (p : StudioProfile) (hr : Run (studioStep p) .init h s) :
    ∃ h' l, Run logStep .empty h' l ∧ l.entries = s.path.frames ∧ (∀ c, l.reader c = s.reader c) ∧
      (∀ c, s.heard c = (l.taken c).map payload) ∧
      ∀ c, Meets (Forward c) h' ↔ Meets (KeepsUp p c) h := by
  obtain ⟨h', l, hrun, hf, hR⟩ := Related.exists_of_run hr
  exact ⟨h', l, hrun, hR.entries, hR.reader, hR.heard, hf⟩

def smallStudio : StudioProfile :=
  ⟨⟨⟨1, 1, by decide⟩, fun _ l => l⟩, ⟨2, 1, 20, 0⟩, fun _ _ => rfl⟩

def silentTick (n : UInt8) : List StudioAction := List.replicate 5 (.audio (.tick [n, n] true))

/-- A listener that has let a frame pass is a reader that has passed it over. -/
theorem studio_refines_log_late : ∃ h s, Run (studioStep smallStudio) .init h s ∧
    s.heard (.listener 0) = [(1, [11, 11])] ∧
    ∃ h' l, Run logStep .empty h' l ∧ l.entries = s.path.frames ∧
      (∀ c, l.reader c = s.reader c) ∧ (∀ c, s.heard c = (l.taken c).map payload) ∧
      ∀ c, Meets (Forward c) h' ↔ Meets (KeepsUp smallStudio c) h := by
  obtain ⟨h, s, hr, -, hv⟩ := exists_run_observing (studioStep smallStudio) (fun _ _ => true) .init
    (.join 0 :: List.flatten [silentTick 10, silentTick 11, [.listen 0]])
    (fun _ s => s.heard (.listener 0)) (v := [(1, [11, 11])]) (by decide)
  exact ⟨h, s, hr, hv, studio_refines_log smallStudio hr⟩

theorem map_fst_payload (l : List (ℕ × AudioFrame)) :
    (l.map payload).map Prod.fst = l.map Prod.fst := by
  rw [List.map_map]
  rfl

/-- What a consumer has heard since `s₀` is all that it has passed, if and only if it has kept up. -/
theorem Related.heard_since_iff {s₀ : Studio} {l₀ : Log Consumer AudioFrame} {r : Reader}
    (hR : Related p s₀ l₀) (hr : Run (studioStep p) s₀ h s) (hc : s.reader c = some r) :
    (s.heard c).reverse = (s₀.heard c).reverse ++
      (between s.path.frames (l₀.since c r) r.next).map payload ↔ Meets (KeepsUp p c) h := by
  obtain ⟨h', l, hrun, hf, hR'⟩ := hR.of_run hr
  have hall := takesAll_iff hR.reads hrun ((hR'.reader c).trans hc)
  rw [← hf c, ← hall, TakesAll, hR'.heard, hR.heard, ← hR'.entries, ← List.map_reverse,
    ← List.map_reverse, ← List.map_append]
  constructor
  · intro heq
    -- the numbers say which frames they are
    have hnumbers := congrArg (List.map Prod.fst) heq
    rw [map_fst_payload, map_fst_payload] at hnumbers
    refine eq_of_numbers (l := l.entries) (fun x hx => ?_) (fun x hx => ?_) hnumbers
    · exact hR'.reads.entry c x (List.mem_reverse.mp hx)
    · obtain hold | hnew := List.mem_append.mp hx
      · exact entry_of_run hrun (hR.reads.entry c x (List.mem_reverse.mp hold))
      · exact (mem_between.mp hnew).2.2
  · intro heq
    rw [heq]

/-- What every listener and every recording gets is a part of what has been published, in its order,
so that they all agree; and one of them has got everything from the frame it has begun with on, if
and only if it has kept up. -/
theorem heard_in_order (p : StudioProfile) (hr : Run (studioStep p) .init h s) :
    (∀ c, (s.heard c).reverse.Sublist ((numbered s.path.frames).map payload)) ∧
    ∀ c r, s.reader c = some r →
      ((s.heard c).reverse = (between s.path.frames r.first r.next).map payload ↔
        Meets (KeepsUp p c) h) := by
  constructor
  · obtain ⟨h', l, hrun, hf, hR⟩ := Related.exists_of_run hr
    intro c
    rw [hR.heard, ← List.map_reverse, ← hR.entries]
    exact (hR.reads.taken_sublist c).map payload
  · intro c r hc
    exact (Related.init p).heard_since_iff hr hc

/-- A listener lets two frames pass and snaps forward, a recording takes every frame. -/
theorem heard_in_order_late : ∃ h s, Run (studioStep smallStudio) .init h s ∧
    s.heard (.listener 0) = [(1, [11, 11])] ∧
    s.heard (.recording 0) = [(1, [11, 11]), (0, [10, 10])] ∧
    (∀ c, (s.heard c).reverse.Sublist ((numbered s.path.frames).map payload)) ∧
    Meets (KeepsUp smallStudio (.recording 0)) h ∧
    ¬ Meets (KeepsUp smallStudio (.listener 0)) h := by
  obtain ⟨h, s, hr, -, hv⟩ := exists_run_observing (studioStep smallStudio) (fun _ _ => true) .init
    (.join 0 :: .start 0 :: List.flatten [silentTick 10, silentTick 11, [.listen 0],
      List.replicate 5 (.writer 0 true)])
    (fun _ s => ([.listener 0, .recording 0].map s.heard, s.path.frames,
      [.listener 0, .recording 0].map s.reader))
    (v := ([[(1, [11, 11])], [(1, [11, 11]), (0, [10, 10])]],
      [⟨⟨[10, 10], 1, true⟩, none⟩, ⟨⟨[11, 11], 1, true⟩, none⟩], [some ⟨0, 2⟩, some ⟨0, 2⟩]))
    (by decide)
  simp only [Prod.mk.injEq, List.map_cons, List.map_nil, List.cons.injEq, and_true] at hv
  obtain ⟨⟨h₁, h₂⟩, h₃, h₄, h₅⟩ := hv
  obtain ⟨hsub, hiff⟩ := heard_in_order smallStudio hr
  refine ⟨h, s, hr, h₁, h₂, hsub, (hiff _ _ h₅).mp ?_, mt (hiff _ _ h₄).mpr ?_⟩
  · rw [h₂, h₃]
    decide
  · rw [h₁, h₃]
    decide

end ModBroadcast
