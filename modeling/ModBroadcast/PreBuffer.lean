import ModBroadcast.ResyncCount

namespace ModBroadcast

open Automaton

variable {p : RingProfile} {r r₀ : Relay} {i : ℕ} {h : List (Relay × RelayAction)}

def RingProfile.back (p : RingProfile) : ℕ := p.listenerPreBufferMs / p.intervalMs

/-- The steps in which one publication comes before each tick of listener `i`; the flag says that
a frame has been published since its last tick.  The other listeners join and tick at will. -/
def pacedStep (p : RingProfile) (i : ℕ) : Relay × Bool → RelayAction → Option (Relay × Bool)
  | (r, fresh), .publish f =>
    if fresh then none else (relayStep p r (.publish f)).map fun r' => (r', true)
  | (r, fresh), .tick j =>
    if j = i then
      if fresh then (relayStep p r (.tick j)).map fun r' => (r', false) else none
    else (relayStep p r (.tick j)).map fun r' => (r', fresh)
  | (r, fresh), .join j => (relayStep p r (.join j)).map fun r' => (r', fresh)

def ownTicks (i : ℕ) {σ : Type*} (h : List (σ × RelayAction)) : ℕ :=
  h.countP fun x => x.2 = .tick i

/-- After `n` ticks listener `i` has delivered the frames `start`, …, `start + n - 1` in this
order, each as it was published, without a resync. -/
structure HearsFrom (i start n : ℕ) (r : Relay) : Prop where
  order : (r.heard i).map Prod.fst = (List.range' start n).reverse
  payload : ∀ kw ∈ r.heard i, ∃ f, r.sent[kw.1]? = some f ∧ kw.2 = f.toWriteFrame
  resyncs : ∀ m, r.listener i = some m → m.resync_count = 0

/-- From the join of listener `i` in the state `r` on, every paced run delivers from `start`. -/
def DeliversFrom (p : RingProfile) (i start : ℕ) (r : Relay) : Prop :=
  ∀ h r' fresh, Run (pacedStep p i) (r, false) h (r', fresh) → HearsFrom i start (ownTicks i h) r'

/-- What a paced run keeps of a listener that follows the producer `lag` frames behind. -/
structure InStep (p : RingProfile) (i start lag n : ℕ) (s : Relay × Bool) : Prop where
  delivered : Delivered p s.1
  cursor : s.1.listener i = some ⟨start + n, 0⟩
  seq : s.1.b.producer_seq = start + lag + n + s.2.toNat
  order : (s.1.heard i).map Prod.fst = (List.range' start n).reverse

theorem InStep.hears {start lag n : ℕ} {s : Relay × Bool} (hf : InStep p i start lag n s) :
    HearsFrom i start n s.1 where
  order := hf.order
  payload := hf.delivered.payload i
  resyncs m hm := by
    rw [hf.cursor] at hm
    obtain rfl := Option.some.inj hm
    rfl

/-- A tick with a lag within `max_lag` and the ring delivers the frame at the cursor. -/
theorem listenerTick_deliver {b : AudioRing} {sent : List TickFrame} {m : RingReader}
    (hb : RingHolds p.ring_size b sent) (hlt : m.consumer_seq < b.producer_seq)
    (hlag : b.producer_seq - m.consumer_seq ≤ p.max_lag)
    (hring : b.producer_seq - m.consumer_seq ≤ p.ring_size) :
    (listenerTick p b m).2.1 = ⟨m.consumer_seq + 1, m.resync_count⟩ ∧
      ∃ w, (listenerTick p b m).2.2 = some (m.consumer_seq, w) := by
  have hs : (b.ring (m.consumer_seq % p.ring_size)).seq = m.consumer_seq := by
    rw [hb.seq_iff hlt]
    omega
  have hlag' : ¬ p.max_lag < b.producer_seq - m.consumer_seq := by omega
  simp [listenerTick, hlt, hlag', hs]

/-- A tick of listener `i` adds to what it has heard. -/
theorem relayStep_tick {m : RingReader} (hm : r.listener i = some m) :
    relayStep p r (.tick i) = some { r with
      b := (listenerTick p r.b m).1
      listener := Function.update r.listener i (some (listenerTick p r.b m).2.1)
      heard := Function.update r.heard i ((listenerTick p r.b m).2.2.toList ++ r.heard i) } := by
  simp [relayStep, hm]

/-- The tick of another listener leaves listener `i` and the producer alone. -/
theorem relayStep_tick_other {j : ℕ} {r' : Relay} (hj : j ≠ i)
    (hs : relayStep p r (.tick j) = some r') :
    r'.listener i = r.listener i ∧ r'.heard i = r.heard i ∧
      r'.b.producer_seq = r.b.producer_seq := by
  cases hm : r.listener j with
  | none => simp [relayStep, hm] at hs
  | some m =>
    rw [relayStep_tick hm, Option.some.injEq] at hs
    subst hs
    simp [Function.update_of_ne (Ne.symm hj)]

theorem relayStep_join_other {j : ℕ} {r' : Relay} {m : RingReader} (hm : r.listener i = some m)
    (hs : relayStep p r (.join j) = some r') :
    r'.listener i = r.listener i ∧ r'.heard i = r.heard i ∧
      r'.b.producer_seq = r.b.producer_seq := by
  cases hj : r.listener j with
  | some m' => simp [relayStep, hj] at hs
  | none =>
    simp only [relayStep, hj, Option.some.injEq] at hs
    subst hs
    have hne : i ≠ j := fun he => by simp [← he, hm] at hj
    simp [Function.update_of_ne hne]

/-- One paced step of a listener whose lag stays within `max_lag` and the ring. -/
theorem InStep.step {start lag n : ℕ} {s s' : Relay × Bool} {a : RelayAction}
    (hlag : lag + 1 ≤ p.max_lag) (hring : lag + 1 ≤ p.ring_size)
    (hf : InStep p i start lag n s) (hs : pacedStep p i s a = some s') :
    InStep p i start lag (n + if a = .tick i then 1 else 0) s' := by
  obtain ⟨r, fresh⟩ := s
  obtain ⟨hd, hcur, hseq, hord⟩ := hf
  cases a with
  | publish f =>
    cases fresh with
    | true => simp [pacedStep] at hs
    | false =>
      simp only [pacedStep, relayStep, Bool.false_eq_true, if_false, Option.map_some,
        Option.some.injEq] at hs
      subst hs
      refine ⟨hd.publish f, by simpa using hcur, ?_, by simpa using hord⟩
      simp only [Bool.toNat_false] at hseq
      simp [publish, hseq]
  | join j =>
    obtain ⟨r', hr', rfl⟩ := Option.map_eq_some_iff.mp hs
    obtain ⟨hl, hh, hb⟩ := relayStep_join_other hcur hr'
    exact ⟨hd.step hr', by simpa [hl] using hcur, by simpa [hb] using hseq,
      by simpa [hh] using hord⟩
  | tick j =>
    by_cases hj : j = i
    · subst hj
      cases fresh with
      | false => simp [pacedStep] at hs
      | true =>
        simp only [pacedStep, if_true] at hs
        obtain ⟨r', hr', rfl⟩ := Option.map_eq_some_iff.mp hs
        have hd' := hd.step hr'
        simp only [Bool.toNat_true] at hseq
        -- the listener is `lag + 1` behind when it ticks
        obtain ⟨hm, w, hw⟩ := listenerTick_deliver (m := ⟨start + n, 0⟩) hd.ring
          (by simp only; omega) (by simp only; omega) (by simp only; omega)
        rw [relayStep_tick hcur, hm, hw, Option.some.injEq] at hr'
        subst hr'
        refine ⟨hd', by simp [Nat.add_assoc], ?_, ?_⟩
        · simp only [listenerTick_producer_seq, Bool.toNat_false, if_true]
          omega
        · simp [hord, List.range'_concat]
    · simp only [pacedStep, if_neg hj] at hs
      obtain ⟨r', hr', rfl⟩ := Option.map_eq_some_iff.mp hs
      obtain ⟨hl, hh, hb⟩ := relayStep_tick_other hj hr'
      have hne : RelayAction.tick j ≠ .tick i := by simpa using hj
      exact ⟨hd.step hr', by simpa [hl, hne] using hcur, by simpa [hb, hne] using hseq,
        by simpa [hh, hne] using hord⟩

theorem InStep.run {start lag : ℕ} {s s' : Relay × Bool} {h' : List ((Relay × Bool) × RelayAction)}
    (hlag : lag + 1 ≤ p.max_lag) (hring : lag + 1 ≤ p.ring_size)
    (hf : InStep p i start lag 0 s) (hr : Run (pacedStep p i) s h' s') :
    InStep p i start lag (ownTicks i h') s' := by
  refine hr.history_invariant (I := fun h s => InStep p i start lag (ownTicks i h) s)
    (g := fun _ _ => True) (fun h s a t hi _ hs => ?_) (fun _ _ => trivial) hf
  simpa [ownTicks, List.countP_cons] using hi.step hlag hring hs

/-- The cursor of a joining member is at most the ring size behind, and less by one when the
bound on the pre-buffer is met. -/
theorem startCursor_cases (p : RingProfile) (b : AudioRing)
    (hpre : p.listenerPreBufferMs < p.intervalMs * p.ring_size) :
    p.back + 1 ≤ p.ring_size ∧ (startCursor p b = b.producer_seq - p.back ∧
        p.back < b.producer_seq ∧
        p.listenerPreBufferMs < p.intervalMs * p.ring_size % 2 ^ 32 ∨
      startCursor p b = b.producer_seq ∧ (p.back = 0 ∨ b.producer_seq ≤ p.back ∨
        ¬ p.listenerPreBufferMs < p.intervalMs * p.ring_size % 2 ^ 32)) := by
  have hcap : p.back < p.ring_size := Nat.div_lt_of_lt_mul hpre
  refine ⟨hcap, ?_⟩
  dsimp only [startCursor]
  split_ifs with hguard hcs
  · exact .inl ⟨rfl, hcs, hguard.2⟩
  · exact .inr ⟨rfl, .inr (.inl (not_lt.mp hcs))⟩
  · refine .inr ⟨rfl, ?_⟩
    rcases not_and_or.mp hguard with hzero | hwrap
    · have hback : p.back = 0 := by simp [RingProfile.back, not_not.mp hzero]
      exact .inl hback
    · exact .inr (.inr hwrap)

theorem relayStep_join (hj : relayStep p r (.join i) = some r₀) :
    r.listener i = none ∧ r₀ = { r with
      listener := Function.update r.listener i (some ⟨startCursor p r.b, 0⟩) } := by
  cases hi : r.listener i with
  | some m => simp [relayStep, hi] at hj
  | none =>
    simp only [relayStep, hi, Option.some.injEq] at hj
    exact ⟨rfl, hj.symm⟩

/-- A listener that delivers from `start` begins there, and its first tick is within
`max_lag`. -/
theorem DeliversFrom.first {start : ℕ} {m : RingReader} (hd : Delivered p r)
    (hm : r.listener i = some m) (hheard : r.heard i = [])
    (hring : r.b.producer_seq + 1 - m.consumer_seq ≤ p.ring_size) (hz : m.resync_count = 0)
    (h : DeliversFrom p i start r) :
    m.consumer_seq = start ∧ r.b.producer_seq + 1 - m.consumer_seq ≤ p.max_lag := by
  have hle := hd.cursor_le i m hm
  let f : TickFrame := ⟨[], 0, false⟩
  let r₁ : Relay := { r with b := publish p.ring_size r.b f, sent := r.sent ++ [f] }
  have hd₁ : Delivered p r₁ := hd.publish f
  have hseq : r₁.b.producer_seq = r.b.producer_seq + 1 := rfl
  have hpub : pacedStep p i (r, false) (.publish f) = some (r₁, true) := rfl
  have htick : pacedStep p i (r₁, true) (.tick i) = some ({ r₁ with
      b := (listenerTick p r₁.b m).1
      listener := Function.update r.listener i (some (listenerTick p r₁.b m).2.1)
      heard := Function.update r.heard i ((listenerTick p r₁.b m).2.2.toList ++ r.heard i) },
      false) := by
    simp only [pacedStep, if_true]
    rw [relayStep_tick (r := r₁) hm]
    rfl
  have hrun := (Run.nil.snoc hpub).snoc htick
  obtain ⟨hord, -, hres⟩ := h _ _ _ hrun
  have hone : ownTicks i [((r₁, true), RelayAction.tick i), ((r, false), .publish f)] = 1 := by
    simp [ownTicks]
  have hord₁ : ((listenerTick p r₁.b m).2.2.toList ++ r.heard i).map Prod.fst = [start] := by
    simpa [hone, r₁] using hord
  have hres₁ : (listenerTick p r₁.b m).2.1.resync_count = 0 := hres _ (by simp)
  rw [hheard, List.append_nil] at hord₁
  have hout := listenerTick_outcome p hd₁.ring m
  generalize (listenerTick p r₁.b m).2.1 = m', (listenerTick p r₁.b m).2.2 = out at hord₁ hres₁ hout
  cases hout with
  | idle hidle => omega
  | deliver hlt hlag hs =>
    have hstart : m.consumer_seq = start := by simpa using hord₁
    exact ⟨hstart, hlag⟩
  | stale hlt hlag hs =>
    rw [ne_eq, hd₁.ring.seq_iff hlt] at hs
    omega
  | resync hlt hlag hs => simp [hz] at hres₁

/-- The listener delivers from its start cursor if its first tick is within `max_lag`, and then
all the others are. -/
theorem deliversFrom_iff {start : ℕ} {m : RingReader} (hd : Delivered p r)
    (hm : r.listener i = some m) (hheard : r.heard i = [])
    (hring : r.b.producer_seq + 1 - m.consumer_seq ≤ p.ring_size) (hz : m.resync_count = 0) :
    DeliversFrom p i start r ↔
      m.consumer_seq = start ∧ r.b.producer_seq + 1 - m.consumer_seq ≤ p.max_lag := by
  constructor
  · exact fun h => h.first hd hm hheard hring hz
  · rintro ⟨rfl, hlag⟩ h' r' fresh hr
    have hle := hd.cursor_le i m hm
    have hf : InStep p i m.consumer_seq (r.b.producer_seq - m.consumer_seq) 0 (r, false) := by
      refine ⟨hd, ?_, ?_, by simp [hheard]⟩
      · rw [hm, Nat.add_zero, ← hz]
      · simp only [Bool.toNat_false]
        omega
    exact (hf.run (by omega) (by omega) hr).hears

/-- The pre-buffer is honoured exactly when there is none, at the very start, or when the whole
of it has been published, the lag that it makes stays within `max_lag`, and the bound does not wrap
in 32 bits. -/
theorem joined_deliversFrom_iff (hr : Run (relayStep p) Relay.init h r)
    (hj : relayStep p r (.join i) = some r₀)
    (hpre : p.listenerPreBufferMs < p.intervalMs * p.ring_size) :
    DeliversFrom p i (r.b.producer_seq - p.back) r₀ ↔
      p.back = 0 ∨ r.b.producer_seq = 0 ∨ p.back < r.b.producer_seq ∧
        p.back + 1 ≤ p.max_lag ∧
        p.listenerPreBufferMs < p.intervalMs * p.ring_size % 2 ^ 32 := by
  have hd := Delivered.of_run hr
  have hd₀ := hd.step hj
  obtain ⟨hi, rfl⟩ := relayStep_join hj
  have hmax := p.max_lag_pos
  obtain ⟨hcap, hcur⟩ := startCursor_cases p r.b hpre
  have hle := startCursor_le p r.b
  rw [deliversFrom_iff hd₀ (Function.update_self ..) (hd.unjoined i hi)
    (by simp only; omega) rfl]
  simp only
  rcases hcur with ⟨hc, hlt, hguard⟩ | ⟨hc, hnot⟩
  · rw [hc]
    simp only [hguard, hlt, true_and, and_true]
    omega
  · rw [hc]
    constructor
    · rintro ⟨hstart, -⟩
      omega
    · rintro (hback | hzero | ⟨hlt, -, hguard⟩)
      · omega
      · omega
      · have hback : p.back = 0 := by
          rcases hnot with hz | hge | hwrap
          · exact hz
          · omega
          · exact absurd hguard hwrap
        omega

/-- A pre-buffer of 200 ms, ten frames of 20 ms, is within the ring but one frame more than the
default `max_lag` admits at the first tick. -/
theorem preBuffer_resynced : ∃ h r r₀, Run (relayStep ⟨50, 10, 20, 200⟩) Relay.init h r ∧
    relayStep ⟨50, 10, 20, 200⟩ r (.join 0) = some r₀ ∧ 200 < 20 * 50 ∧
    ¬ DeliversFrom ⟨50, 10, 20, 200⟩ 0 (r.b.producer_seq - 200 / 20) r₀ := by
  obtain ⟨h, r, hr, -, hv⟩ := exists_run_observing (relayStep ⟨50, 10, 20, 200⟩) (fun _ _ => true)
    Relay.init (List.replicate 11 (.publish ⟨[], 0, false⟩))
    (fun _ r => (r.b.producer_seq, r.listener 0)) (v := (11, none)) (by decide)
  obtain ⟨hseq, hl⟩ : r.b.producer_seq = 11 ∧ r.listener 0 = none := by simpa using hv
  have hd := Delivered.of_run hr
  have hj : relayStep ⟨50, 10, 20, 200⟩ r (.join 0) = some { r with
      listener := Function.update r.listener 0 (some ⟨startCursor ⟨50, 10, 20, 200⟩ r.b, 0⟩) } := by
    simp [relayStep, hl]
  have hc : startCursor ⟨50, 10, 20, 200⟩ r.b = 1 := by
    simp [startCursor, RingProfile.ring_size, hseq]
  refine ⟨h, r, _, hr, hj, by decide, fun hdel => ?_⟩
  have hlag := (hdel.first (hd.step hj) (Function.update_self ..) (hd.unjoined 0 hl)
    (by simp [hc, hseq, RingProfile.ring_size]) rfl).2
  simp [hc, hseq, RingProfile.max_lag] at hlag

/-- With the same pre-buffer and `max_lag` 20 the listener hears the ten frames before its join. -/
theorem preBuffer_honoured : ∃ h r r₀, Run (relayStep ⟨50, 20, 20, 200⟩) Relay.init h r ∧
    relayStep ⟨50, 20, 20, 200⟩ r (.join 0) = some r₀ ∧ r.b.producer_seq = 11 ∧
    DeliversFrom ⟨50, 20, 20, 200⟩ 0 (r.b.producer_seq - 10) r₀ := by
  obtain ⟨h, r, hr, -, hv⟩ := exists_run_observing (relayStep ⟨50, 20, 20, 200⟩) (fun _ _ => true)
    Relay.init (List.replicate 11 (.publish ⟨[], 0, false⟩))
    (fun _ r => (r.b.producer_seq, r.listener 0)) (v := (11, none)) (by decide)
  obtain ⟨hseq, hl⟩ : r.b.producer_seq = 11 ∧ r.listener 0 = none := by simpa using hv
  have hj : relayStep ⟨50, 20, 20, 200⟩ r (.join 0) = some { r with
      listener := Function.update r.listener 0 (some ⟨startCursor ⟨50, 20, 20, 200⟩ r.b, 0⟩) } := by
    simp [relayStep, hl]
  refine ⟨h, r, _, hr, hj, hseq, (joined_deliversFrom_iff hr hj (by decide)).mpr ?_⟩
  exact .inr (.inr ⟨by rw [hseq]; decide, by decide, by decide⟩)

end ModBroadcast
