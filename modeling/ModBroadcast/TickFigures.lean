import ModBroadcast.JsonReplies
import ModBroadcast.RateGate

namespace ModBroadcast

/-- What the clock shows in one tick, and whether the tick is silent. -/
structure TickTimes where
  now_us : ℤ
  work_start : ℤ
  work_end : ℤ
  silence_flag : Bool
  deriving DecidableEq

def TickTimes.work (x : TickTimes) : ℤ := x.work_end - x.work_start

deriving instance DecidableEq for TickHistogram

/-- The fields of the broadcast that a tick writes for the figures. -/
structure ProducerFigures where
  stat_ticks : ℕ
  stat_missed_ticks : ℕ
  stat_speaker_silent_ticks : ℕ
  producer_first_tick_us : ℤ
  last_producer_stall_evt_us : ℤ
  stat_tick_drift_us_max : ℕ
  producer_max_tick_us : ℤ
  producer_max_tick_seen_us : ℤ
  producer_tick_sum_us : ℕ
  producer_tick_count_for_avg : ℕ
  producer_tick_hist : TickHistogram
  deriving DecidableEq

def ProducerFigures.zero : ProducerFigures := ⟨0, 0, 0, 0, 0, 0, 0, 0, 0, 0, ⟨0, 0, 0, 0, 0, 0, 0, 0⟩⟩

/-- The wall-clock drift against the ideal schedule, after `ticks` completed frames. -/
def driftUs (interval_ms ticks : ℕ) (first now : ℤ) : ℕ :=
  (now - (first + asTime (ticks * interval_ms * 1000))).toNat

/-- The beginning of a tick, and the stall event that it enqueues, with the time and the drift. -/
def beginTick (interval_ms : ℕ) (b : ProducerFigures) (now_us : ℤ) :
    ProducerFigures × Option (ℤ × ℕ) :=
  if b.producer_first_tick_us = 0 then ({ b with producer_first_tick_us := now_us }, none)
  else
    let drift := driftUs interval_ms b.stat_ticks b.producer_first_tick_us now_us
    let b := if b.stat_tick_drift_us_max < drift then { b with stat_tick_drift_us_max := drift }
      else b
    if 2 * interval_ms * 1000 < drift ∧ 3000000 < now_us - b.last_producer_stall_evt_us then
      ({ b with last_producer_stall_evt_us := now_us }, some (now_us, drift))
    else (b, none)

/-- The bucket of the histogram that counts the work `d`. -/
def TickHistogram.count (hist : TickHistogram) (d : ℤ) : TickHistogram :=
  if d ≤ 50 then { hist with bucket_us_50 := (hist.bucket_us_50 + 1) % 2 ^ 64 }
  else if d ≤ 100 then { hist with bucket_us_100 := (hist.bucket_us_100 + 1) % 2 ^ 64 }
  else if d ≤ 200 then { hist with bucket_us_200 := (hist.bucket_us_200 + 1) % 2 ^ 64 }
  else if d ≤ 500 then { hist with bucket_us_500 := (hist.bucket_us_500 + 1) % 2 ^ 64 }
  else if d ≤ 1000 then { hist with bucket_us_1000 := (hist.bucket_us_1000 + 1) % 2 ^ 64 }
  else if d ≤ 5000 then { hist with bucket_us_5000 := (hist.bucket_us_5000 + 1) % 2 ^ 64 }
  else if d ≤ 20000 then { hist with bucket_us_20000 := (hist.bucket_us_20000 + 1) % 2 ^ 64 }
  else { hist with bucket_us_over := (hist.bucket_us_over + 1) % 2 ^ 64 }

def tickBudget (interval_ms : ℕ) : ℤ := (interval_ms * 1000 * 2 % 2 ^ 32 : ℕ)

def endTick (interval_ms : ℕ) (b : ProducerFigures) (x : TickTimes) : ProducerFigures where
  stat_ticks := (b.stat_ticks + 1) % 2 ^ 32
  stat_missed_ticks := if tickBudget interval_ms < x.work then (b.stat_missed_ticks + 1) % 2 ^ 32
    else b.stat_missed_ticks
  stat_speaker_silent_ticks := if x.silence_flag then (b.stat_speaker_silent_ticks + 1) % 2 ^ 32
    else b.stat_speaker_silent_ticks
  producer_first_tick_us := b.producer_first_tick_us
  last_producer_stall_evt_us := b.last_producer_stall_evt_us
  stat_tick_drift_us_max := b.stat_tick_drift_us_max
  producer_max_tick_us := if b.producer_max_tick_us < x.work then x.work else b.producer_max_tick_us
  producer_max_tick_seen_us := if b.producer_max_tick_us < x.work then x.work_end
    else b.producer_max_tick_seen_us
  -- the work is added as an unsigned number
  producer_tick_sum_us := ((b.producer_tick_sum_us + x.work) % 2 ^ 64).toNat
  producer_tick_count_for_avg := (b.producer_tick_count_for_avg + 1) % 2 ^ 64
  producer_tick_hist := b.producer_tick_hist.count x.work

/-- The figures after the ticks, the latest first, and the stall events among them. -/
def runTicks (interval_ms : ℕ) : List TickTimes → ProducerFigures × List (ℤ × ℕ)
  | [] => (.zero, [])
  | x :: l =>
    let (b, stalls) := runTicks interval_ms l
    let (b, stall) := beginTick interval_ms b x.now_us
    (endTick interval_ms b x, stall.toList ++ stalls)

variable {interval_ms n : ℕ} {first now : ℤ} {b : ProducerFigures} {x x₀ : TickTimes}
  {l : List TickTimes}

structure FiguresOf (interval_ms : ℕ) (l : List TickTimes) (b : ProducerFigures) : Prop where
  ticks : b.stat_ticks = l.length % 2 ^ 32
  missed : b.stat_missed_ticks =
    l.countP (fun x => decide (tickBudget interval_ms < x.work)) % 2 ^ 32
  silent : b.stat_speaker_silent_ticks = l.countP TickTimes.silence_flag % 2 ^ 32
  count : b.producer_tick_count_for_avg = l.length % 2 ^ 64
  sum : (b.producer_tick_sum_us : ℤ) = (l.map TickTimes.work).sum % 2 ^ 64
  max : b.producer_max_tick_us = (l.map TickTimes.work).foldr max 0
  seen : b.producer_max_tick_us ≠ 0 → ∃ l₁ x l₂, l = l₁ ++ x :: l₂ ∧
    b.producer_max_tick_seen_us = x.work_end ∧ b.producer_max_tick_us = x.work ∧
      ∀ y ∈ l₂, y.work < x.work
  hist : b.producer_tick_hist =
    { bucket_us_50 := l.countP (fun x => decide (x.work ≤ 50)) % 2 ^ 64
      bucket_us_100 := l.countP (fun x => decide (50 < x.work ∧ x.work ≤ 100)) % 2 ^ 64
      bucket_us_200 := l.countP (fun x => decide (100 < x.work ∧ x.work ≤ 200)) % 2 ^ 64
      bucket_us_500 := l.countP (fun x => decide (200 < x.work ∧ x.work ≤ 500)) % 2 ^ 64
      bucket_us_1000 := l.countP (fun x => decide (500 < x.work ∧ x.work ≤ 1000)) % 2 ^ 64
      bucket_us_5000 := l.countP (fun x => decide (1000 < x.work ∧ x.work ≤ 5000)) % 2 ^ 64
      bucket_us_20000 := l.countP (fun x => decide (5000 < x.work ∧ x.work ≤ 20000)) % 2 ^ 64
      bucket_us_over := l.countP (fun x => decide (20000 < x.work)) % 2 ^ 64 }

/-- The beginning of a tick leaves alone what its end adds to. -/
theorem FiguresOf.beginTick (h : FiguresOf interval_ms l b) (now : ℤ) :
    FiguresOf interval_ms l (beginTick interval_ms b now).1 := by
  obtain ⟨h₁, h₂, h₃, h₄, h₅, h₆, h₇, h₈⟩ := h
  unfold ModBroadcast.beginTick
  dsimp only
  split_ifs <;> exact ⟨h₁, h₂, h₃, h₄, h₅, h₆, h₇, h₈⟩

theorem TickHistogram.count_eq (hist : TickHistogram) (d : ℤ) : hist.count d =
    { bucket_us_50 := if d ≤ 50 then (hist.bucket_us_50 + 1) % 2 ^ 64 else hist.bucket_us_50
      bucket_us_100 := if 50 < d ∧ d ≤ 100 then (hist.bucket_us_100 + 1) % 2 ^ 64
        else hist.bucket_us_100
      bucket_us_200 := if 100 < d ∧ d ≤ 200 then (hist.bucket_us_200 + 1) % 2 ^ 64
        else hist.bucket_us_200
      bucket_us_500 := if 200 < d ∧ d ≤ 500 then (hist.bucket_us_500 + 1) % 2 ^ 64
        else hist.bucket_us_500
      bucket_us_1000 := if 500 < d ∧ d ≤ 1000 then (hist.bucket_us_1000 + 1) % 2 ^ 64
        else hist.bucket_us_1000
      bucket_us_5000 := if 1000 < d ∧ d ≤ 5000 then (hist.bucket_us_5000 + 1) % 2 ^ 64
        else hist.bucket_us_5000
      bucket_us_20000 := if 5000 < d ∧ d ≤ 20000 then (hist.bucket_us_20000 + 1) % 2 ^ 64
        else hist.bucket_us_20000
      bucket_us_over := if 20000 < d then (hist.bucket_us_over + 1) % 2 ^ 64
        else hist.bucket_us_over } := by
  unfold TickHistogram.count
  rcases le_or_gt d 50 with h₁ | h₁
  · simp (disch := omega) only [if_pos, if_neg]
  rcases le_or_gt d 100 with h₂ | h₂
  · simp (disch := omega) only [if_pos, if_neg]
  rcases le_or_gt d 200 with h₃ | h₃
  · simp (disch := omega) only [if_pos, if_neg]
  rcases le_or_gt d 500 with h₄ | h₄
  · simp (disch := omega) only [if_pos, if_neg]
  rcases le_or_gt d 1000 with h₅ | h₅
  · simp (disch := omega) only [if_pos, if_neg]
  rcases le_or_gt d 5000 with h₆ | h₆
  · simp (disch := omega) only [if_pos, if_neg]
  rcases le_or_gt d 20000 with h₇ | h₇ <;> simp (disch := omega) only [if_pos, if_neg]

/-- A counter that wraps, of the elements with a property. -/
theorem countP_wrap (p : TickTimes → Prop) [DecidablePred p] (k : ℕ) :
    (if p x then (l.countP (fun x => decide (p x)) % k + 1) % k
      else l.countP (fun x => decide (p x)) % k) =
        (x :: l).countP (fun x => decide (p x)) % k := by
  rw [List.countP_cons]
  by_cases hp : p x
  · simp [hp, Nat.mod_add_mod]
  · simp [hp]

theorem work_le_max {y : TickTimes} (hy : y ∈ l) :
    y.work ≤ (l.map TickTimes.work).foldr max 0 := by
  induction l with
  | nil => cases hy
  | cons x l ih =>
    rw [List.map_cons, List.foldr_cons]
    rcases List.mem_cons.mp hy with rfl | hy
    · exact le_max_left _ _
    · exact (ih hy).trans (le_max_right _ _)

theorem FiguresOf.endTick (h : FiguresOf interval_ms l b) (x : TickTimes) :
    FiguresOf interval_ms (x :: l) (endTick interval_ms b x) where
  ticks := by
    show (b.stat_ticks + 1) % 2 ^ 32 = _
    rw [h.ticks, Nat.mod_add_mod, List.length_cons]
  missed := by
    simp only [ModBroadcast.endTick, h.missed]
    exact countP_wrap (fun x => tickBudget interval_ms < x.work) _
  silent := by
    simp only [ModBroadcast.endTick, h.silent]
    have hcount := countP_wrap (x := x) (l := l) (fun x => x.silence_flag = true) (2 ^ 32)
    simp only [Bool.decide_eq_true] at hcount
    exact hcount
  count := by
    show (b.producer_tick_count_for_avg + 1) % 2 ^ 64 = _
    rw [h.count, Nat.mod_add_mod, List.length_cons]
  sum := by
    show ((((b.producer_tick_sum_us : ℤ) + x.work) % 2 ^ 64).toNat : ℤ) = _
    rw [Int.toNat_of_nonneg (Int.emod_nonneg _ (by norm_num)), h.sum, Int.emod_add_emod,
      List.map_cons, List.sum_cons, add_comm]
  max := by
    simp only [ModBroadcast.endTick, h.max, List.map_cons, List.foldr_cons]
    split_ifs with hx
    · exact (max_eq_left hx.le).symm
    · exact (max_eq_right (not_lt.mp hx)).symm
  seen := by
    intro hne
    simp only [ModBroadcast.endTick] at hne ⊢
    by_cases hx : b.producer_max_tick_us < x.work
    · simp only [if_pos hx] at hne ⊢
      refine ⟨[], x, l, rfl, rfl, rfl, fun y hy => ?_⟩
      exact (h.max ▸ work_le_max hy).trans_lt hx
    · simp only [if_neg hx] at hne ⊢
      obtain ⟨l₁, y, l₂, rfl, hseen, hmax, hlt⟩ := h.seen hne
      exact ⟨x :: l₁, y, l₂, rfl, hseen, hmax, hlt⟩
  hist := by
    show b.producer_tick_hist.count x.work = _
    rw [TickHistogram.count_eq, h.hist]
    congr 1
    · exact countP_wrap (fun x => x.work ≤ 50) _
    · exact countP_wrap (fun x => 50 < x.work ∧ x.work ≤ 100) _
    · exact countP_wrap (fun x => 100 < x.work ∧ x.work ≤ 200) _
    · exact countP_wrap (fun x => 200 < x.work ∧ x.work ≤ 500) _
    · exact countP_wrap (fun x => 500 < x.work ∧ x.work ≤ 1000) _
    · exact countP_wrap (fun x => 1000 < x.work ∧ x.work ≤ 5000) _
    · exact countP_wrap (fun x => 5000 < x.work ∧ x.work ≤ 20000) _
    · exact countP_wrap (fun x => 20000 < x.work) _

/-- Whatever the clock shows, the figures after a run of ticks are those of its ticks. -/
theorem figures_of_ticks (interval_ms : ℕ) (l : List TickTimes) :
    FiguresOf interval_ms l (runTicks interval_ms l).1 := by
  induction l with
  | nil =>
    exact ⟨rfl, rfl, rfl, rfl, rfl, rfl, fun h => absurd rfl h, rfl⟩
  | cons x l ih => exact (ih.beginTick x.now_us).endTick x

theorem asTime_of_lt {n : ℕ} (h : n < 2 ^ 63) : asTime n = n := by
  rw [asTime, BitVec.toInt_ofNat']
  exact Int.bmod_eq_of_le (by omega) (by omega)

def drift (interval_ms : ℕ) (first : ℤ) (l : List TickTimes) (now : ℤ) : ℤ :=
  now - first - ((l.length + 1) * interval_ms * 1000 : ℕ)

def drifts (interval_ms : ℕ) (first : ℤ) : List TickTimes → List (ℤ × ℤ)
  | [] => []
  | x :: l => (x.now_us, drift interval_ms first l x.now_us) :: drifts interval_ms first l

def lateTicks (interval_ms : ℕ) (first : ℤ) (l : List TickTimes) : List (ℤ × ℤ) :=
  (drifts interval_ms first l).filter fun x => decide ((2 * interval_ms * 1000 : ℕ) < x.2)

/-- What the ticks `l` after the first leave in the figures, and the stalls they announce. -/
structure StallsOf (interval_ms : ℕ) (first : ℤ) (l : List TickTimes) (b : ProducerFigures)
    (stalls : List (ℤ × ℕ)) : Prop where
  start : b.producer_first_tick_us = first
  ticks : b.stat_ticks = (l.length + 1) % 2 ^ 32
  most : (b.stat_tick_drift_us_max : ℤ) =
    ((drifts interval_ms first l).map Prod.snd).foldr max 0
  last : b.last_producer_stall_evt_us =
    RateGate.latest 3000001 0 ((lateTicks interval_ms first l).map Prod.fst)
  times : stalls.map Prod.fst =
    RateGate.passed 3000001 0 ((lateTicks interval_ms first l).map Prod.fst)
  late : ∀ e ∈ stalls, (e.1, (e.2 : ℤ)) ∈ lateTicks interval_ms first l

theorem driftUs_eq (hn : (l.length + 1) * interval_ms * 1000 < 2 ^ 63) :
    (driftUs interval_ms (l.length + 1) first now : ℤ) =
      max (drift interval_ms first l now) 0 := by
  rw [driftUs, asTime_of_lt hn, Int.toNat_eq_max]
  unfold drift
  congr 1
  omega

theorem beginTick_of_ne (hb : b.producer_first_tick_us ≠ 0) :
    beginTick interval_ms b now =
      let d := driftUs interval_ms b.stat_ticks b.producer_first_tick_us now
      let stall := 2 * interval_ms * 1000 < d ∧ 3000000 < now - b.last_producer_stall_evt_us
      ({ b with
          stat_tick_drift_us_max := max b.stat_tick_drift_us_max d
          last_producer_stall_evt_us := if stall then now else b.last_producer_stall_evt_us },
        if stall then some (now, d) else none) := by
  unfold beginTick
  rw [if_neg hb]
  dsimp only
  by_cases hd : b.stat_tick_drift_us_max < driftUs interval_ms b.stat_ticks
      b.producer_first_tick_us now
  · rw [if_pos hd, max_eq_right hd.le]
    split_ifs <;> rfl
  · rw [if_neg hd, max_eq_left (not_lt.mp hd)]
    split_ifs <;> rfl

/-- A tick is counted among the late ones by what the producer computes as its drift. -/
theorem lateTicks_cons (hn : (l.length + 1) * interval_ms * 1000 < 2 ^ 63) :
    lateTicks interval_ms first (x :: l) =
      if 2 * interval_ms * 1000 < driftUs interval_ms (l.length + 1) first x.now_us then
        (x.now_us, (driftUs interval_ms (l.length + 1) first x.now_us : ℤ)) ::
          lateTicks interval_ms first l
      else lateTicks interval_ms first l := by
  have hd : (driftUs interval_ms (l.length + 1) first x.now_us : ℤ) =
      max (drift interval_ms first l x.now_us) 0 := driftUs_eq hn
  rw [lateTicks, drifts, List.filter_cons]
  by_cases hlate : 2 * interval_ms * 1000 < driftUs interval_ms (l.length + 1) first x.now_us
  · have hpos : drift interval_ms first l x.now_us =
        driftUs interval_ms (l.length + 1) first x.now_us := by omega
    rw [if_pos hlate, if_pos (by rw [decide_eq_true_eq, hpos]; omega), hpos]
    rfl
  · rw [if_neg hlate, if_neg (by rw [decide_eq_true_eq]; omega)]
    rfl

theorem StallsOf.endTick {stalls : List (ℤ × ℕ)} (x : TickTimes) (hfirst : first ≠ 0)
    (hl : l.length + 1 < 2 ^ 32) (hn : (l.length + 1) * interval_ms * 1000 < 2 ^ 63)
    (h : StallsOf interval_ms first l b stalls) :
    StallsOf interval_ms first (x :: l)
      (endTick interval_ms (ModBroadcast.beginTick interval_ms b x.now_us).1 x)
      ((ModBroadcast.beginTick interval_ms b x.now_us).2.toList ++ stalls) := by
  have hticks : b.stat_ticks = l.length + 1 := by rw [h.ticks, Nat.mod_eq_of_lt hl]
  have hlast := h.last
  have htimes := h.times
  have hmost : (max b.stat_tick_drift_us_max
      (driftUs interval_ms (l.length + 1) first x.now_us) : ℕ) =
        ((drifts interval_ms first (x :: l)).map Prod.snd).foldr max 0 := by
    rw [drifts, List.map_cons, List.foldr_cons, ← h.most, Nat.cast_max, driftUs_eq hn]
    omega
  rw [beginTick_of_ne (h.start ▸ hfirst), h.start, hticks]
  dsimp only
  by_cases hlate : 2 * interval_ms * 1000 < driftUs interval_ms (l.length + 1) first x.now_us
  · have hcons : lateTicks interval_ms first (x :: l) = _ := lateTicks_cons hn
    rw [if_pos hlate] at hcons
    by_cases hgap : 3000000 < x.now_us - b.last_producer_stall_evt_us
    · rw [if_pos ⟨hlate, hgap⟩, if_pos ⟨hlate, hgap⟩]
      have hpass : 3000001 ≤ x.now_us -
          RateGate.latest 3000001 0 ((lateTicks interval_ms first l).map Prod.fst) := by
        rw [← hlast]
        omega
      refine ⟨rfl, ?_, hmost, ?_, ?_, ?_⟩
      · show (l.length + 1 + 1) % 2 ^ 32 = _
        rfl
      · rw [hcons, List.map_cons, RateGate.latest_of_le hpass]
        rfl
      · rw [hcons, List.map_cons, RateGate.passed_of_le hpass, ← htimes]
        rfl
      · intro e he
        rw [hcons]
        rcases List.mem_cons.mp he with rfl | he
        · exact List.mem_cons_self
        · exact List.mem_cons_of_mem _ (h.late e he)
    · rw [if_neg fun h => hgap h.2, if_neg fun h => hgap h.2]
      have hstay : x.now_us -
          RateGate.latest 3000001 0 ((lateTicks interval_ms first l).map Prod.fst) < 3000001 := by
        rw [← hlast]
        omega
      refine ⟨rfl, rfl, hmost, ?_, ?_, fun e he => ?_⟩
      · rw [hcons, List.map_cons, RateGate.latest_of_lt hstay]
        exact hlast
      · rw [hcons, List.map_cons, RateGate.passed_of_lt hstay]
        exact htimes
      · rw [hcons]
        exact List.mem_cons_of_mem _ (h.late e he)
  · have hcons : lateTicks interval_ms first (x :: l) = _ := lateTicks_cons hn
    rw [if_neg hlate] at hcons
    rw [if_neg fun h => hlate h.1, if_neg fun h => hlate h.1]
    refine ⟨rfl, rfl, hmost, ?_, ?_, fun e he => ?_⟩
    · rw [hcons]
      exact hlast
    · rw [hcons]
      exact htimes
    · rw [hcons]
      exact h.late e he

/-- What a run of ticks after the first leaves and announces. -/
theorem stallsOf_run (hfirst : x₀.now_us ≠ 0) (hl : l.length < 2 ^ 32)
    (hn : l.length * interval_ms * 1000 < 2 ^ 63) :
    StallsOf interval_ms x₀.now_us l (runTicks interval_ms (l ++ [x₀])).1
      (runTicks interval_ms (l ++ [x₀])).2 := by
  induction l with
  | nil => exact ⟨rfl, rfl, rfl, rfl, rfl, fun e he => nomatch he⟩
  | cons x l ih =>
    rw [List.length_cons] at hl hn
    have hle : l.length * interval_ms * 1000 ≤ (l.length + 1) * interval_ms * 1000 := by
      gcongr
      omega
    exact (ih (by omega) (hle.trans_lt hn)).endTick x hfirst hl hn

/-- Stalls are announced more than three seconds apart, each with the drift of a late tick, and
when a tick is late one is announced by it or was no more than three seconds before; the greatest
drift is kept. -/
theorem stalls_announced (hfirst : x₀.now_us ≠ 0) (hl : l.length < 2 ^ 32)
    (hn : l.length * interval_ms * 1000 < 2 ^ 63) :
    let figures := (runTicks interval_ms (l ++ [x₀])).1
    let stalls := (runTicks interval_ms (l ++ [x₀])).2
    let late := lateTicks interval_ms x₀.now_us l
    (stalls.map Prod.fst).IsChain (fun a b => b + 3000000 < a) ∧
      (∀ e ∈ stalls, (e.1, (e.2 : ℤ)) ∈ late) ∧
      (∀ tick ∈ late.head?, 3000000 < tick.1 → ∃ e ∈ stalls, tick.1 ≤ e.1 + 3000000) ∧
      (figures.stat_tick_drift_us_max : ℤ) =
        ((drifts interval_ms x₀.now_us l).map Prod.snd).foldr max 0 := by
  have h := stallsOf_run hfirst hl hn
  refine ⟨?_, h.late, fun tick htick hnow => ?_, h.most⟩
  · rw [h.times]
    exact (RateGate.passed_isChain ..).imp fun a b hab => by omega
  · have hhead : tick.1 ∈ ((lateTicks interval_ms x₀.now_us l).map Prod.fst).head? := by
      rw [List.head?_map, htick]
      rfl
    obtain ⟨t, ht, hlt⟩ :=
      RateGate.exists_passed (by norm_num) hhead (by omega : 0 + 3000001 ≤ tick.1)
    rw [← h.times] at ht
    obtain ⟨e, he, rfl⟩ := List.mem_map.mp ht
    exact ⟨e, he, by omega⟩

/-- The drift of the second tick is announced, that of the third is not, and the fourth comes more
than three seconds later. -/
theorem stalls_announced_late :
    let l : List TickTimes := [⟨14100000, 14100010, 14100020, true⟩,
      ⟨11050000, 11050000, 11050100, true⟩, ⟨11040000, 11040000, 11040100, false⟩]
    (runTicks 20 (l ++ [⟨10000000, 10000000, 10000020, false⟩])).2 =
      [(14100000, 4040000), (11040000, 1020000)] ∧
    (∀ e ∈ (runTicks 20 (l ++ [⟨10000000, 10000000, 10000020, false⟩])).2,
      (e.1, (e.2 : ℤ)) ∈ lateTicks 20 10000000 l) :=
  ⟨by decide, (stalls_announced (by decide) (by decide) (by decide)).2.1⟩

end ModBroadcast
