import ModBroadcast.Config

namespace ModBroadcast

/-- The fields of `broadcast_obj_t` that shape its audio, and the silence settings of its
profile. -/
structure AudioShape where
  rate : ℕ
  interval_ms : ℕ
  channels : ℕ
  samples_per_frame : ℕ
  bytes_per_frame : ℕ
  silence_policy : String
  comfort_noise_level : ℕ
  silence_zero_buf : Bool
  deriving DecidableEq

/-- `broadcast_create` up to its frame-size check, and the fields that it sets. -/
def createShape (prof : BroadcastProfile) : Option AudioShape :=
  let spf := prof.rate * prof.interval_ms % 2 ^ 32 / 1000
  let bpf := spf * prof.channels % 2 ^ 32 * 2 % 2 ^ 32
  if bpf > BROADCAST_MAX_FRAME_BYTES then none
  else some {
    rate := prof.rate
    interval_ms := prof.interval_ms
    channels := prof.channels % 2 ^ 8
    samples_per_frame := spf
    bytes_per_frame := bpf
    silence_policy := prof.silence_policy
    comfort_noise_level := prof.comfort_noise_level
    silence_zero_buf := true }

/-- The calls of a tick on `local_data` and on the files that feed it. -/
inductive CoreCall
  | copyZero (bytes : ℕ)
  | generateSlnSilence (samples channels divisor : ℕ)
  | fileOpen (path : String) (channels rate : ℕ)
  | fileRead (samples : ℕ)
  | fileSeek
  | bufferRead (bytes : ℕ)
  deriving DecidableEq

/-- The answers of the core for the MoH file: whether it opens, the first read with the samples
that it got, and the samples of the read after the rewind. -/
structure MohAnswers where
  opens : Bool
  first_ok : Bool
  first : ℕ
  second : ℕ

/-- What `b_apply_silence_policy` has done: its calls in order, `moh_open` and `*datalen_out`. -/
structure SilenceTick where
  calls : List CoreCall
  moh_open : Bool
  datalen : ℕ
  deriving DecidableEq

def silenceFill (b : AudioShape) : CoreCall :=
  if b.silence_zero_buf then .copyZero b.bytes_per_frame
  else .generateSlnSilence b.samples_per_frame b.channels (2 ^ 32 - 1)

/-- The divisor that `b_apply_silence_policy` hands to the core for comfort noise. -/
def comfortDivisor (level rate : ℕ) : ℕ :=
  (if level ≠ 0 then level else 1400) * (rate / 8000) % 2 ^ 32

/-- The MoH branch of `b_apply_silence_policy`, inside `moh_mutex` up to the last test. -/
def mohSilence (b : AudioShape) (moh_open : Bool) (o : MohAnswers) : SilenceTick :=
  let want := b.samples_per_frame
  let opening := if moh_open then []
    else [.fileOpen (String.ofList (b.silence_policy.toList.drop 4)) b.channels b.rate]
  let moh_open := moh_open || o.opens
  -- a short read starts the file over
  let again := !o.first_ok || decide (o.first < want)
  let reads := if moh_open then
      .fileRead want :: if again then [.fileSeek, .fileRead want] else []
    else []
  let rlen := if moh_open then (if again then o.second else o.first) else 0
  ⟨opening ++ reads ++ (if rlen < want then [silenceFill b] else []), moh_open,
    b.bytes_per_frame⟩

def applySilencePolicy (b : AudioShape) (moh_open : Bool) (o : MohAnswers) : SilenceTick :=
  let pol := b.silence_policy
  if pol = "" ∨ caseEq pol "zero" then ⟨[silenceFill b], moh_open, b.bytes_per_frame⟩
  else if caseEq pol "cn" then
    ⟨[.generateSlnSilence b.samples_per_frame b.channels
      (comfortDivisor b.comfort_noise_level b.rate)], moh_open, b.bytes_per_frame⟩
  else if (pol.toList.take 4).map Char.toLower = "moh:".toList then mohSilence b moh_open o
  else ⟨[silenceFill b], moh_open, b.bytes_per_frame⟩

/-- The silence is defined: a divisor is never zero, and the frame has its length. -/
structure SilenceDefined (b : AudioShape) (t : SilenceTick) : Prop where
  divisor : ∀ samples channels, .generateSlnSilence samples channels 0 ∉ t.calls
  datalen : t.datalen = b.bytes_per_frame

variable {b : AudioShape}

@[simp] theorem silenceFill_ne (samples channels : ℕ) :
    CoreCall.generateSlnSilence samples channels 0 ≠ silenceFill b := by
  unfold silenceFill
  split_ifs <;> simp

/-- Every branch reports one frame. -/
theorem applySilencePolicy_datalen (b : AudioShape) (moh_open : Bool) (o : MohAnswers) :
    (applySilencePolicy b moh_open o).datalen = b.bytes_per_frame := by
  simp only [applySilencePolicy]
  split_ifs <;> rfl

/-- The calls that never divide: all of them but comfort noise. -/
def CoreCall.Plain (b : AudioShape) (c : CoreCall) : Prop :=
  c = silenceFill b ∨ c = .fileRead b.samples_per_frame ∨ c = .fileSeek ∨
    ∃ path channels rate, c = .fileOpen path channels rate

theorem CoreCall.Plain.ne_zero {c : CoreCall} (hc : c.Plain b) (samples channels : ℕ) :
    c ≠ .generateSlnSilence samples channels 0 := by
  rintro rfl
  rcases hc with h | h | h | ⟨path, channels', rate, h⟩
  · exact silenceFill_ne _ _ h
  · cases h
  · cases h
  · cases h

theorem mohSilence_plain (b : AudioShape) (moh_open : Bool) (o : MohAnswers) :
    ∀ c ∈ (mohSilence b moh_open o).calls, c.Plain b := by
  intro c hc
  simp only [mohSilence, List.mem_append] at hc
  rcases hc with (hc | hc) | hc
  · split_ifs at hc
    · cases hc
    · exact .inr (.inr (.inr ⟨_, _, _, List.mem_singleton.mp hc⟩))
  · split_ifs at hc
    · simp only [List.mem_cons, List.not_mem_nil, or_false] at hc
      rcases hc with h | h | h
      · exact .inr (.inl h)
      · exact .inr (.inr (.inl h))
      · exact .inr (.inl h)
    · exact .inr (.inl (List.mem_singleton.mp hc))
    · cases hc
  · exact .inl (List.mem_singleton.mp (List.mem_ite_nil_right.mp hc).2)

/-- Only comfort noise has a divisor of its own. -/
theorem applySilencePolicy_calls (b : AudioShape) (moh_open : Bool) (o : MohAnswers) :
    (caseEq b.silence_policy "cn" = true ∧ (applySilencePolicy b moh_open o).calls =
      [.generateSlnSilence b.samples_per_frame b.channels
        (comfortDivisor b.comfort_noise_level b.rate)]) ∨
    caseEq b.silence_policy "cn" = false ∧
      ∀ c ∈ (applySilencePolicy b moh_open o).calls, c.Plain b := by
  by_cases hcn : caseEq b.silence_policy "cn"
  · have hzero : ¬ (b.silence_policy = "" ∨ caseEq b.silence_policy "zero") := by
      rintro (h | h)
      · rw [h] at hcn
        exact absurd hcn (by decide)
      · simp only [caseEq, decide_eq_true_eq] at h hcn
        exact absurd (hcn.symm.trans h) (by decide)
    exact .inl ⟨hcn, by simp only [applySilencePolicy, if_neg hzero, if_pos hcn]⟩
  · refine .inr ⟨by simpa using hcn, fun c hc => ?_⟩
    simp only [applySilencePolicy, if_neg hcn] at hc
    split_ifs at hc
    · exact .inl (List.mem_singleton.mp hc)
    · exact mohSilence_plain b moh_open o c hc
    · exact .inl (List.mem_singleton.mp hc)

theorem createShape_eq {prof : BroadcastProfile} (hb : createShape prof = some b) :
    b.rate = prof.rate ∧ b.interval_ms = prof.interval_ms ∧
      b.channels = prof.channels % 2 ^ 8 ∧
      b.samples_per_frame = prof.rate * prof.interval_ms % 2 ^ 32 / 1000 ∧
      b.bytes_per_frame = b.samples_per_frame * prof.channels * 2 % 2 ^ 32 ∧
      b.bytes_per_frame ≤ BROADCAST_MAX_FRAME_BYTES ∧
      b.silence_policy = prof.silence_policy ∧
      b.comfort_noise_level = prof.comfort_noise_level ∧ b.silence_zero_buf = true := by
  unfold createShape at hb
  simp only at hb
  split_ifs at hb with hle
  obtain rfl := Option.some.inj hb
  exact ⟨rfl, rfl, rfl, rfl, Nat.mod_mul_mod .., not_lt.mp hle, rfl, rfl, rfl⟩

/-- The divisor does not vanish at a rate of 8 kHz or more, unless its product does in 32 bits. -/
theorem comfortDivisor_ne_zero {level rate : ℕ} : comfortDivisor level rate ≠ 0 ↔
    8000 ≤ rate ∧ ¬ 2 ^ 32 ∣ (if level = 0 then 1400 else level) * (rate / 8000) := by
  have hlevel : (if level ≠ 0 then level else 1400) = if level = 0 then 1400 else level := by
    by_cases h0 : level = 0 <;> simp [h0]
  rw [comfortDivisor, hlevel, Ne, ← Nat.dvd_iff_mod_eq_zero]
  constructor
  · intro hne
    refine ⟨?_, hne⟩
    by_contra hlt
    rw [Nat.div_eq_of_lt (Nat.lt_of_not_le hlt), Nat.mul_zero] at hne
    exact hne ⟨0, rfl⟩
  · exact And.right

/-- The silence of an admitted broadcast is defined exactly when its policy is not comfort noise,
or the rate is at least 8 kHz and the product of the level and the rate in units of 8 kHz is not
a multiple of `2 ^ 32`. -/
theorem silence_defined_iff {prof : BroadcastProfile} (hb : createShape prof = some b)
    (moh_open : Bool) (o : MohAnswers) :
    SilenceDefined b (applySilencePolicy b moh_open o) ↔
      ¬ caseEq prof.silence_policy "cn" ∨ 8000 ≤ prof.rate ∧
        ¬ 2 ^ 32 ∣ (if prof.comfort_noise_level = 0 then 1400 else prof.comfort_noise_level) *
          (prof.rate / 8000) := by
  obtain ⟨hrate, -, -, -, -, -, hpol, hlevel, -⟩ := createShape_eq hb
  rw [← comfortDivisor_ne_zero, ← hrate, ← hpol, ← hlevel]
  rcases applySilencePolicy_calls b moh_open o with ⟨hcn, hcalls⟩ | ⟨hcn, hcalls⟩
  · rw [hcn]
    constructor
    · rintro ⟨hdiv, -⟩
      refine .inr fun hzero => hdiv b.samples_per_frame b.channels ?_
      rw [hcalls, hzero]
      exact List.mem_singleton_self _
    · rintro (hnot | hne)
      · exact absurd rfl hnot
      · refine ⟨fun samples channels hmem => ?_, applySilencePolicy_datalen ..⟩
        rw [hcalls, List.mem_singleton] at hmem
        simp only [CoreCall.generateSlnSilence.injEq] at hmem
        exact hne hmem.2.2.symm
  · rw [hcn]
    exact iff_of_true ⟨fun samples channels hmem => (hcalls _ hmem).ne_zero _ _ rfl,
      applySilencePolicy_datalen ..⟩ (.inl Bool.false_ne_true)

def hallProfile (params : List XmlParam) : BroadcastProfile :=
  (bParseProfile (fun _ => false) 0 ⟨"hall", params⟩).get rfl

/-- The default comfort noise at 16 kHz. -/
theorem silence_defined_comfort : ∃ b,
    createShape (hallProfile [⟨"rate", "16000"⟩, ⟨"silence-policy", "CN"⟩]) = some b ∧
    ∀ moh_open o, SilenceDefined b (applySilencePolicy b moh_open o) := by
  have hb : createShape (hallProfile [⟨"rate", "16000"⟩, ⟨"silence-policy", "CN"⟩]) = some _ := rfl
  exact ⟨_, hb, fun moh_open o => (silence_defined_iff hb moh_open o).mpr (.inr (by decide))⟩

/-- Below 8 kHz the rate counts for nothing, and comfort noise divides by zero. -/
theorem comfort_noise_divides_by_zero : ∃ b,
    createShape (hallProfile [⟨"rate", "4000"⟩, ⟨"silence-policy", "cn"⟩]) = some b ∧
    (hallProfile [⟨"rate", "4000"⟩, ⟨"silence-policy", "cn"⟩]).channels ≤ 255 ∧
    ∀ moh_open o, ¬ SilenceDefined b (applySilencePolicy b moh_open o) := by
  refine ⟨_, rfl, by decide, fun moh_open o h => h.divisor 80 1 ?_⟩
  show CoreCall.generateSlnSilence 80 1 0 ∈ [CoreCall.generateSlnSilence 80 1 0]
  exact List.mem_singleton_self _

end ModBroadcast
