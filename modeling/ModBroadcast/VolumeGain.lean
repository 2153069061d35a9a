import ModBroadcast.CatchUp
import ModBroadcast.PreBuffer

namespace ModBroadcast

open Automaton

abbrev Sample := UInt8 × UInt8

def bytesOf (xs : List Sample) : List UInt8 := xs.flatMap fun x => [x.1, x.2]

/-- `switch_change_sln_volume_granular` on a buffer: the first `n` samples are scaled. -/
def changeSlnVolume (gain : Sample → Sample) : ℕ → List UInt8 → List UInt8
  | n + 1, lo :: hi :: bs =>
    (gain (lo, hi)).1 :: (gain (lo, hi)).2 :: changeSlnVolume gain n bs
  | _, bs => bs

inductive GainFactor
  | unity | scaled
  deriving DecidableEq

/-- The fields of `member_obj_t` that the volume controls write. -/
structure Volume where
  vol_idx : ℤ
  write_gain : GainFactor
  read_gain : GainFactor
  deriving DecidableEq

def Volume.prepare : Volume := ⟨0, .unity, .unity⟩

inductive VolumeAction
  | volUp | volDown | volReset
  deriving DecidableEq

def Volume.dispatch (m : Volume) : VolumeAction → Volume
  | .volUp =>
    let i := if m.vol_idx < 12 then m.vol_idx + 1 else m.vol_idx
    ⟨i, if i = 0 then .unity else .scaled, if i = 0 then .unity else .scaled⟩
  | .volDown =>
    let i := if m.vol_idx > -12 then m.vol_idx - 1 else m.vol_idx
    ⟨i, if i = 0 then .unity else .scaled, if i = 0 then .unity else .scaled⟩
  | .volReset => ⟨0, .unity, .unity⟩

/-- A member after the volume controls that it has used since it was prepared. -/
def Volume.after (acts : List VolumeAction) : Volume := acts.foldl Volume.dispatch .prepare

structure Volume.Tracks (m : Volume) : Prop where
  write : m.write_gain = .unity ↔ m.vol_idx = 0
  read : m.read_gain = .unity ↔ m.vol_idx = 0
  bounds : -12 ≤ m.vol_idx ∧ m.vol_idx ≤ 12

theorem Volume.Tracks.dispatch {m : Volume} (h : m.Tracks) (a : VolumeAction) :
    (m.dispatch a).Tracks := by
  obtain ⟨-, -, hlo, hhi⟩ := h
  cases a with
  | volUp =>
    refine ⟨by simp [Volume.dispatch], by simp [Volume.dispatch], ?_⟩
    simp only [Volume.dispatch]
    split_ifs <;> omega
  | volDown =>
    refine ⟨by simp [Volume.dispatch], by simp [Volume.dispatch], ?_⟩
    simp only [Volume.dispatch]
    split_ifs <;> omega
  | volReset =>
    exact ⟨by simp [Volume.dispatch], by simp [Volume.dispatch], by simp [Volume.dispatch]⟩

theorem Volume.Tracks.foldl {m : Volume} (h : m.Tracks) (acts : List VolumeAction) :
    (acts.foldl Volume.dispatch m).Tracks := by
  induction acts generalizing m with
  | nil => exact h
  | cons a acts ih => exact ih (h.dispatch a)

theorem Volume.tracks_after (acts : List VolumeAction) : (Volume.after acts).Tracks :=
  Volume.Tracks.foldl ⟨by simp [prepare], by simp [prepare], by simp [prepare]⟩ acts

variable (gain : ℤ → Sample → Sample)

/-- What the tick of `broadcast_listener_run` writes of the frame that it holds. -/
def listenerWrite (m : Volume) (w : WriteFrame) : WriteFrame :=
  if m.write_gain ≠ .unity then { w with data := changeSlnVolume (gain m.vol_idx) w.samples w.data }
  else w

/-- What the tick of `broadcast_producer_run` makes of the `datalen` bytes of its speaker. -/
def producerScale (vol_idx : ℤ) (bs : List UInt8) : List UInt8 :=
  if vol_idx ≠ 0 then changeSlnVolume (gain vol_idx) (bs.length / 2) bs else bs

/-- The listener sends the frame with all of its samples scaled, as the producer would scale
them. -/
structure GainReaches (m : Volume) (w : WriteFrame) : Prop where
  whole : (listenerWrite gain m w).data =
    changeSlnVolume (gain m.vol_idx) (w.datalen / 2) w.data
  as_producer : (listenerWrite gain m w).data = producerScale gain m.vol_idx w.data

/-- Every ring frame that a listener delivers, in any run of a broadcast with frames of this
format, is sent with all of its samples scaled. -/
def GainReachesAll (p : RingProfile) (q : TapeFormat) (m : Volume) : Prop :=
  ∀ h r, Run (relayStep p) Relay.init h r → (∀ f ∈ r.sent, q.Fits f) →
    ∀ i, ∀ kw ∈ r.heard i, GainReaches gain m kw.2

variable {gain}

@[simp] theorem bytesOf_nil : bytesOf [] = [] := rfl

@[simp] theorem bytesOf_cons (x : Sample) (xs : List Sample) :
    bytesOf (x :: xs) = x.1 :: x.2 :: bytesOf xs := rfl

@[simp] theorem bytesOf_length (xs : List Sample) : (bytesOf xs).length = xs.length * 2 := by
  induction xs with
  | nil => rfl
  | cons x xs ih =>
    simp only [bytesOf_cons, List.length_cons, ih]
    omega

theorem bytesOf_injective : Function.Injective bytesOf := by
  intro xs
  induction xs with
  | nil =>
    rintro (_ | ⟨y, ys⟩) h
    · rfl
    · simp at h
  | cons x xs ih =>
    rintro (_ | ⟨y, ys⟩) h
    · simp at h
    · simp only [bytesOf_cons, List.cons.injEq] at h
      rw [Prod.ext h.1 h.2.1, ih h.2.2]

/-- A buffer of an even number of bytes is one of samples. -/
theorem exists_bytesOf (n : ℕ) : ∀ bs : List UInt8, bs.length = n * 2 → ∃ xs, bytesOf xs = bs := by
  induction n with
  | zero => exact fun bs hbs => ⟨[], by simp_all⟩
  | succ n ih =>
    rintro (_ | ⟨lo, _ | ⟨hi, bs⟩⟩) hbs
    · simp at hbs
    · simp at hbs
      omega
    · obtain ⟨xs, rfl⟩ := ih bs (by simp only [List.length_cons] at hbs; omega)
      exact ⟨(lo, hi) :: xs, rfl⟩

theorem changeSlnVolume_bytesOf (g : Sample → Sample) (n : ℕ) (xs : List Sample) :
    changeSlnVolume g n (bytesOf xs) = bytesOf ((xs.take n).map g ++ xs.drop n) := by
  induction xs generalizing n with
  | nil => cases n <;> rfl
  | cons x xs ih =>
    cases n with
    | zero => rfl
    | succ n => simp [changeSlnVolume, ih]

/-- Scaling the first `n` samples is scaling all of them when the gain leaves those behind
alone. -/
theorem changeSlnVolume_all_iff (g : Sample → Sample) (n : ℕ) (xs : List Sample) :
    changeSlnVolume g n (bytesOf xs) = changeSlnVolume g xs.length (bytesOf xs) ↔
      ∀ x ∈ xs.drop n, g x = x := by
  rw [changeSlnVolume_bytesOf, changeSlnVolume_bytesOf, bytesOf_injective.eq_iff, List.take_length,
    List.drop_length, List.append_nil]
  conv_lhs => rw [← List.take_append_drop n (xs.map g), ← List.map_take, ← List.map_drop]
  rw [List.append_cancel_left_eq, eq_comm]
  simpa using List.map_inj_left (f := g) (g := id) (l := xs.drop n)

/-- The frame is scaled as a whole exactly when the gain leaves alone what comes after the first
`samples` of it. -/
theorem gainReaches_iff {m : Volume} (hm : m.Tracks) (hv : m.vol_idx ≠ 0) (f : TickFrame)
    {xs : List Sample} (hxs : bytesOf xs = f.bytes) :
    GainReaches gain m f.toWriteFrame ↔ ∀ x ∈ xs.drop f.samples, gain m.vol_idx x = x := by
  have hw : m.write_gain ≠ .unity := fun h => hv (hm.write.mp h)
  have hsent : (listenerWrite gain m f.toWriteFrame).data =
      changeSlnVolume (gain m.vol_idx) f.samples (bytesOf xs) := by
    rw [hxs, listenerWrite, if_pos hw]
    rfl
  have hlen : f.bytes.length / 2 = xs.length := by
    rw [← hxs, bytesOf_length, Nat.mul_div_cancel _ (by decide)]
  have hprod : producerScale gain m.vol_idx f.bytes =
      changeSlnVolume (gain m.vol_idx) xs.length (bytesOf xs) := by
    rw [producerScale, if_pos hv, hlen, hxs]
  rw [← changeSlnVolume_all_iff, ← hsent, ← hprod]
  constructor
  · exact fun h => h.as_producer
  · intro h
    refine ⟨h.trans ?_, h⟩
    simp only [producerScale, if_pos hv, TickFrame.toWriteFrame]

theorem TapeFormat.Fits.exists_samples {q : TapeFormat} {f : TickFrame} (h : q.Fits f) :
    ∃ xs, bytesOf xs = f.bytes ∧ xs.length = q.samples_per_frame * q.channels := by
  obtain ⟨xs, hxs⟩ := exists_bytesOf _ f.bytes h.1
  refine ⟨xs, hxs, ?_⟩
  have hlen := h.1
  rw [← hxs, bytesOf_length, TapeFormat.bytes_per_frame] at hlen
  exact Nat.mul_right_cancel (by decide) hlen

/-- A listener that joins first hears the first frame. -/
theorem exists_heard (p : RingProfile) (f : TickFrame) :
    ∃ h r, Run (relayStep p) Relay.init h r ∧ r.sent = [f] ∧ ∃ kw ∈ r.heard 0,
      kw.2 = f.toWriteFrame := by
  let r₁ : Relay := { Relay.init with
    listener := Function.update Relay.init.listener 0 (some ⟨startCursor p AudioRing.create, 0⟩) }
  let r₂ : Relay := { r₁ with b := publish p.ring_size r₁.b f, sent := [f] }
  have hjoin : relayStep p Relay.init (.join 0) = some r₁ := rfl
  have hpub : relayStep p r₁ (.publish f) = some r₂ := rfl
  have hrun := (Run.nil.snoc hjoin).snoc hpub
  have hseq : r₂.b.producer_seq = 1 := rfl
  have hcur : startCursor p AudioRing.create = 0 := Nat.le_zero.mp (startCursor_le p _)
  have hl : r₂.listener 0 = some ⟨0, 0⟩ := by simp [r₂, r₁, hcur]
  have hmax := p.max_lag_pos
  have hpos := p.ring_size_pos
  obtain ⟨-, w, hw⟩ := listenerTick_deliver (m := ⟨0, 0⟩) (Delivered.of_run hrun).ring
    (by simp [hseq]) (by simp only [hseq]; omega) (by simp only [hseq]; omega)
  have hrun' := hrun.snoc (relayStep_tick hl)
  refine ⟨_, _, hrun', rfl, (0, w), by simp [hw], ?_⟩
  obtain ⟨g, hg, hgw⟩ := (Delivered.of_run hrun').payload 0 (0, w) (by simp [hw])
  obtain rfl : f = g := by simpa [r₂] using hg
  exact hgw

/-- With a second channel the samples of its half of the frame are sent as they are. -/
theorem not_gainReachesAll {p : RingProfile} {q : TapeFormat} {m : Volume} (hm : m.Tracks)
    (hv : m.vol_idx ≠ 0) (hch : 1 < q.channels) (hspf : q.samples_per_frame ≠ 0) {x : Sample}
    (hx : gain m.vol_idx x ≠ x) : ¬ GainReachesAll gain p q m := by
  intro hall
  let xs : List Sample := List.replicate (q.samples_per_frame * q.channels) x
  let f : TickFrame := ⟨bytesOf xs, q.samples_per_frame, false⟩
  have hfits : q.Fits f := by
    refine ⟨?_, rfl⟩
    simp only [f, xs, bytesOf_length, List.length_replicate]
    rfl
  obtain ⟨h, r, hr, hsent, kw, hkw, hw⟩ := exists_heard p f
  have hreach := hall h r hr (by simpa [hsent] using hfits) 0 kw hkw
  have hbytes : bytesOf xs = f.bytes := rfl
  rw [hw, gainReaches_iff hm hv f hbytes] at hreach
  refine hx (hreach x ?_)
  have hlt : q.samples_per_frame < q.samples_per_frame * q.channels :=
    (Nat.lt_mul_iff_one_lt_right (by omega)).mpr hch
  simp only [f, xs, List.drop_replicate, List.mem_replicate]
  exact ⟨by omega, trivial⟩

/-- The gain of a listener reaches the whole of every ring frame exactly when a frame has one
channel or no samples, or the gain changes no sample. -/
theorem gainReachesAll_iff (p : RingProfile) (q : TapeFormat) (acts : List VolumeAction)
    (hv : (Volume.after acts).vol_idx ≠ 0) :
    GainReachesAll gain p q (Volume.after acts) ↔
      q.channels ≤ 1 ∨ q.samples_per_frame = 0 ∨ ∀ x, gain (Volume.after acts).vol_idx x = x := by
  have hm := Volume.tracks_after acts
  constructor
  · intro hall
    by_contra hnot
    simp only [not_or, not_le, not_forall] at hnot
    obtain ⟨hch, hspf, x, hx⟩ := hnot
    exact not_gainReachesAll hm hv hch hspf hx hall
  · intro hcond h r hr hfits i kw hkw
    obtain ⟨f, hf, hw⟩ := (Delivered.of_run hr).payload i kw hkw
    obtain ⟨xs, hxs, hlen⟩ := (hfits f (List.mem_of_getElem? hf)).exists_samples
    rw [hw, gainReaches_iff hm hv f hxs, (hfits f (List.mem_of_getElem? hf)).2]
    intro x hx
    rcases hcond with hch | hspf | hid
    · have hle : xs.length ≤ q.samples_per_frame := by
        rw [hlen]
        exact (Nat.mul_le_mul_left _ hch).trans_eq (Nat.mul_one _)
      rw [List.drop_eq_nil_of_le hle] at hx
      cases hx
    · rw [hspf, zero_mul] at hlen
      rw [List.length_eq_zero_iff.mp hlen, List.drop_nil] at hx
      cases hx
    · exact hid x

/-- One decibel up, for a sample that is not negative. -/
def oneUp (x : Sample) : Sample :=
  let n := min 32767 ((x.1.toNat + 256 * x.2.toNat) * 1122018 / 1000000)
  (UInt8.ofNat n, UInt8.ofNat (n / 256))

theorem gainReachesAll_mono : (Volume.after [.volUp]).vol_idx = 1 ∧
    GainReachesAll (fun _ => oneUp) ⟨50, 10, 20, 0⟩ ⟨50, by decide, 1, 160⟩
      (Volume.after [.volUp]) :=
  ⟨by decide, (gainReachesAll_iff _ _ [.volUp] (by decide)).mpr (.inl le_rfl)⟩

/-- In stereo the second half of every frame stays as it was. -/
theorem gain_misses_stereo : (Volume.after [.volUp]).vol_idx ≠ 0 ∧
    ¬ GainReachesAll (fun _ => oneUp) ⟨50, 10, 20, 0⟩ ⟨50, by decide, 2, 160⟩
      (Volume.after [.volUp]) :=
  ⟨by decide, not_gainReachesAll (x := (100, 0)) (Volume.tracks_after _) (by decide)
    (by decide) (by decide) (by decide)⟩

end ModBroadcast
