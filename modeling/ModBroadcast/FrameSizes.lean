import ModBroadcast.SilencePolicy

namespace ModBroadcast

/-- What a tick of `broadcast_producer_run` finds: while a file plays, whether the read succeeds
and its samples; the pause flag; for a speaker with an audio path, whether it is muted and the bytes
in its buffer. -/
structure TickInput where
  file : Option (Bool × ℕ)
  paused : Bool
  speaker : Option (Bool × ℕ)
  moh_open : Bool
  moh : MohAnswers

structure TickRun where
  calls : List CoreCall
  datalen : ℕ
  silence : Bool
  deriving DecidableEq

def fileTick (b : AudioShape) : Option (Bool × ℕ) → TickRun
  | some (ok, rlen) =>
    if ok ∧ rlen = b.samples_per_frame then
      ⟨[.fileRead b.samples_per_frame], rlen * 2 * b.channels % 2 ^ 32, false⟩
    else ⟨[.fileRead b.samples_per_frame], 0, true⟩
  | none => ⟨[], 0, true⟩

def speakerTick (b : AudioShape) (x : TickInput) (t : TickRun) : TickRun :=
  match x.speaker with
  | some (false, n) =>
    if t.datalen = 0 ∧ ¬ x.paused then
      let got := min n b.bytes_per_frame
      let calls := t.calls ++ [.bufferRead got]
      if got = b.bytes_per_frame then ⟨calls, got, false⟩ else ⟨calls, t.datalen, t.silence⟩
    else t
  | _ => t

/-- The frame of one tick of `broadcast_producer_run`. -/
def producerTick (b : AudioShape) (x : TickInput) : TickRun :=
  let t := speakerTick b x (fileTick b x.file)
  if t.silence ∨ x.paused then
    let s := applySilencePolicy b x.moh_open x.moh
    ⟨t.calls ++ s.calls, s.datalen, true⟩
  else t

/-- How far a call may write into `local_data`; a file is read with all of its channels. -/
def CoreCall.bytes (channels : ℕ) : CoreCall → ℕ
  | .copyZero n => n
  | .generateSlnSilence samples channels _ => samples * channels * 2
  | .fileRead samples => samples * channels * 2
  | .bufferRead n => n
  | .fileOpen _ _ _ | .fileSeek => 0

/-- The frame of a broadcast is what its profile says over the integers, and every tick
publishes it whole without leaving `local_data`. -/
structure ExactFrame (prof : BroadcastProfile) (b : AudioShape) : Prop where
  samples : b.samples_per_frame = prof.rate * prof.interval_ms / 1000
  channels : b.channels = prof.channels
  bytes : b.bytes_per_frame = b.samples_per_frame * prof.channels * 2
  fits : b.bytes_per_frame ≤ BROADCAST_MAX_FRAME_BYTES
  datalen : ∀ x, (producerTick b x).datalen = b.bytes_per_frame
  room : ∀ x, ∀ c ∈ (producerTick b x).calls, c.bytes b.channels ≤ BROADCAST_MAX_FRAME_BYTES
  slot : b.samples_per_frame * b.channels * 2 ≤ BROADCAST_MAX_FRAME_BYTES

variable {prof : BroadcastProfile} {b : AudioShape}

/-- The frame size of a broadcast is the exact product of its own fields. -/
structure AudioShape.Exact (b : AudioShape) : Prop where
  bytes : b.bytes_per_frame = b.samples_per_frame * b.channels * 2
  fits : b.bytes_per_frame ≤ BROADCAST_MAX_FRAME_BYTES

theorem AudioShape.Exact.lt (h : b.Exact) : b.bytes_per_frame < 2 ^ 32 :=
  h.fits.trans_lt (by decide)

/-- The file part publishes a whole frame or leaves the tick silent. -/
theorem fileTick_datalen (h : b.Exact) (file : Option (Bool × ℕ)) :
    (fileTick b file).silence = false → (fileTick b file).datalen = b.bytes_per_frame := by
  intro hs
  rcases file with _ | ⟨ok, rlen⟩
  · cases hs
  · simp only [fileTick] at hs ⊢
    split_ifs at hs ⊢ with hok
    have hlen : rlen * 2 * b.channels = b.bytes_per_frame := by
      rw [hok.2, h.bytes, Nat.mul_right_comm]
    show rlen * 2 * b.channels % 2 ^ 32 = b.bytes_per_frame
    rw [hlen, Nat.mod_eq_of_lt h.lt]

theorem speakerTick_datalen {x : TickInput} {t : TickRun}
    (ht : t.silence = false → t.datalen = b.bytes_per_frame) :
    (speakerTick b x t).silence = false → (speakerTick b x t).datalen = b.bytes_per_frame := by
  unfold speakerTick
  split
  · split_ifs with hread
    · by_cases hfull : min ‹ℕ› b.bytes_per_frame = b.bytes_per_frame
      · simp only [hfull, if_true]
        exact fun _ => trivial
      · simp only [if_neg hfull]
        exact ht
    · exact ht
  · exact ht

/-- Every branch of a tick publishes one frame. -/
theorem producerTick_datalen (h : b.Exact) (x : TickInput) :
    (producerTick b x).datalen = b.bytes_per_frame := by
  simp only [producerTick]
  split_ifs with hs
  · exact applySilencePolicy_datalen b x.moh_open x.moh
  · simp only [not_or, Bool.not_eq_true] at hs
    exact speakerTick_datalen (fileTick_datalen h x.file) hs.1

theorem CoreCall.Plain.bytes_le (h : b.Exact) {c : CoreCall} (hc : c.Plain b) :
    c.bytes b.channels ≤ b.bytes_per_frame := by
  rcases hc with rfl | rfl | rfl | ⟨path, channels, rate, rfl⟩
  · unfold silenceFill
    split_ifs
    · exact le_rfl
    · exact h.bytes.ge
  · exact h.bytes.ge
  · exact Nat.zero_le _
  · exact Nat.zero_le _

theorem applySilencePolicy_room (h : b.Exact) (moh_open : Bool) (o : MohAnswers) :
    ∀ c ∈ (applySilencePolicy b moh_open o).calls, c.bytes b.channels ≤ b.bytes_per_frame := by
  intro c hc
  rcases applySilencePolicy_calls b moh_open o with ⟨-, hcalls⟩ | ⟨-, hcalls⟩
  · rw [hcalls, List.mem_singleton] at hc
    subst hc
    exact h.bytes.ge
  · exact (hcalls c hc).bytes_le h

theorem fileTick_room (h : b.Exact) (file : Option (Bool × ℕ)) :
    ∀ c ∈ (fileTick b file).calls, c.bytes b.channels ≤ b.bytes_per_frame := by
  intro c hc
  have hread : c = .fileRead b.samples_per_frame := by
    rcases file with _ | ⟨ok, rlen⟩
    · cases hc
    · simp only [fileTick] at hc
      split_ifs at hc <;> exact List.mem_singleton.mp hc
  rw [hread]
  exact h.bytes.ge

theorem speakerTick_room {x : TickInput} {t : TickRun}
    (ht : ∀ c ∈ t.calls, c.bytes b.channels ≤ b.bytes_per_frame) :
    ∀ c ∈ (speakerTick b x t).calls, c.bytes b.channels ≤ b.bytes_per_frame := by
  intro c hc
  unfold speakerTick at hc
  split at hc
  · split_ifs at hc with hread
    · have hmem : c ∈ t.calls ++ [.bufferRead (min ‹ℕ› b.bytes_per_frame)] := by
        by_cases hfull : min ‹ℕ› b.bytes_per_frame = b.bytes_per_frame
        · simpa only [hfull, if_true] using hc
        · simpa only [if_neg hfull] using hc
      rcases List.mem_append.mp hmem with hmem | hmem
      · exact ht c hmem
      · rw [List.mem_singleton.mp hmem]
        exact min_le_right _ _
    · exact ht c hc
  · exact ht c hc

theorem producerTick_room (h : b.Exact) (x : TickInput) :
    ∀ c ∈ (producerTick b x).calls, c.bytes b.channels ≤ b.bytes_per_frame := by
  intro c hc
  simp only [producerTick] at hc
  split_ifs at hc
  · rcases List.mem_append.mp hc with hc | hc
    · exact speakerTick_room (fileTick_room h x.file) c hc
    · exact applySilencePolicy_room h _ _ c hc
  · exact speakerTick_room (fileTick_room h x.file) c hc

/-- The samples of a frame are exact as long as the product under them is. -/
theorem mod_div_eq_iff (n : ℕ) : n % 2 ^ 32 / 1000 = n / 1000 ↔ n < 2 ^ 32 := by
  omega

/-- A frame is exact exactly when the rate times the interval does not wrap and the channels fit
their 8 bits. -/
theorem exactFrame_iff (hb : createShape prof = some b) :
    ExactFrame prof b ↔ prof.rate * prof.interval_ms < 2 ^ 32 ∧ prof.channels < 2 ^ 8 := by
  obtain ⟨-, -, hch, hspf, hbpf, hfits, -⟩ := createShape_eq hb
  constructor
  · intro h
    have hsamples := h.samples
    rw [hspf, mod_div_eq_iff] at hsamples
    have hchannels := h.channels
    rw [hch] at hchannels
    omega
  · rintro ⟨hprod, hlt⟩
    have hchannels : b.channels = prof.channels := hch.trans (Nat.mod_eq_of_lt hlt)
    have hsamples : b.samples_per_frame = prof.rate * prof.interval_ms / 1000 := by
      rw [hspf, mod_div_eq_iff]
      exact hprod
    -- neither factor is large enough to make the second product wrap
    have hsmall : b.samples_per_frame * prof.channels ≤ 4294967 * 255 :=
      Nat.mul_le_mul (by omega) (by omega)
    have hexact : b.bytes_per_frame = b.samples_per_frame * prof.channels * 2 := by
      rw [hbpf, Nat.mod_eq_of_lt (by omega)]
    have h : b.Exact := ⟨hexact.trans (by rw [hchannels]), hfits⟩
    exact {
      samples := hsamples
      channels := hchannels
      bytes := hexact
      fits := hfits
      datalen := producerTick_datalen h
      room := fun x c hc => (producerTick_room h x c hc).trans hfits
      slot := h.bytes.ge.trans hfits }

/-- Two channels at 48 kHz would be too large, at 16 kHz they are exact. -/
theorem exactFrame_stereo : ∃ b,
    createShape (hallProfile [⟨"rate", "16000"⟩, ⟨"channels", "2"⟩]) = some b ∧
    b.bytes_per_frame = 1280 ∧
    ExactFrame (hallProfile [⟨"rate", "16000"⟩, ⟨"channels", "2"⟩]) b := by
  have hb : createShape (hallProfile [⟨"rate", "16000"⟩, ⟨"channels", "2"⟩]) = some _ := rfl
  exact ⟨_, hb, by decide, (exactFrame_iff hb).mpr (by decide)⟩

/-- 160 samples of 13421773 channels wrap to a frame of 64 bytes, and a file is read with 205
channels into it. -/
theorem frame_overrun : ∃ b, createShape (hallProfile [⟨"channels", "13421773"⟩]) = some b ∧
    b.bytes_per_frame = 64 ∧ ¬ ExactFrame (hallProfile [⟨"channels", "13421773"⟩]) b ∧
    ∃ x, ∃ c ∈ (producerTick b x).calls, c.bytes b.channels = 65600 := by
  have hb : createShape (hallProfile [⟨"channels", "13421773"⟩]) = some _ := rfl
  refine ⟨_, hb, by decide, fun h => ?_,
    ⟨some (true, 160), false, none, false, ⟨false, false, 0, 0⟩⟩, .fileRead 160, by decide,
    by decide⟩
  exact absurd h.channels (by decide)

end ModBroadcast
