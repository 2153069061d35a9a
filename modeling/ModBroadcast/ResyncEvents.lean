import ModBroadcast.PreBuffer
import ModBroadcast.RateGate
import ModBroadcast.ResyncCount

namespace ModBroadcast

open Automaton

/-- The relay with the clocks of the announcements, and two history variables: the times of the
resyncs of each listener and the events announced, with the lag, both the latest first. -/
structure NotedRelay where
  r : Relay
  last_resync_evt_us : ℕ → ℤ
  resyncs : ℕ → List ℤ
  events : List (ℕ × ℤ × ℕ)

def NotedRelay.init : NotedRelay := ⟨.init, fun _ => 0, fun _ => [], []⟩

def RingReader.Lags (p : RingProfile) (b : AudioRing) (m : RingReader) : Prop :=
  m.consumer_seq < b.producer_seq ∧ p.max_lag < b.producer_seq - m.consumer_seq

instance (p : RingProfile) (b : AudioRing) (m : RingReader) : Decidable (m.Lags p b) :=
  inferInstanceAs (Decidable (_ ∧ _))

def NotedRelay.resync (s : NotedRelay) (i : ℕ) (now : ℤ) (lag : ℕ) : NotedRelay :=
  let s := { s with resyncs := Function.update s.resyncs i (now :: s.resyncs i) }
  if 1000000 < now - s.last_resync_evt_us i then { s with
    last_resync_evt_us := Function.update s.last_resync_evt_us i now
    events := (i, now, lag) :: s.events }
  else s

/-- A step of the relay, with the time that the clock shows in it. -/
def notedStep (p : RingProfile) (s : NotedRelay) (a : RelayAction × ℤ) : Option NotedRelay :=
  (relayStep p s.r a.1).map fun r =>
    match a.1 with
    | .tick i =>
      match s.r.listener i with
      | some m =>
        if m.Lags p s.r.b then
          { s.resync i a.2 (s.r.b.producer_seq - m.consumer_seq) with r := r }
        else { s with r := r }
      | none => { s with r := r }
    | _ => { s with r := r }

def NotedRelay.times (s : NotedRelay) (i : ℕ) : List ℤ :=
  (s.events.filter fun e => e.1 = i).map fun e => e.2.1

variable {p : RingProfile} {s t : NotedRelay} {i j : ℕ} {a : RelayAction × ℤ} {m : RingReader}
  {now : ℤ} {lag : ℕ} {h : List (NotedRelay × (RelayAction × ℤ))}

/-- The clocks and the events are those of a gate at which the resyncs come, and the resyncs are
those counted. -/
structure NotedRelay.Sound (p : RingProfile) (s : NotedRelay) : Prop where
  latest : ∀ i, s.last_resync_evt_us i = RateGate.latest 1000001 0 (s.resyncs i)
  times : ∀ i, s.times i = RateGate.passed 1000001 0 (s.resyncs i)
  count : ∀ i m, s.r.listener i = some m → m.resync_count = (s.resyncs i).length
  none : ∀ i, s.r.listener i = none → s.resyncs i = []
  lags : ∀ e ∈ s.events, p.max_lag < e.2.2

theorem NotedRelay.Sound.init : NotedRelay.Sound p .init where
  latest _ := rfl
  times _ := rfl
  count _ _ hm := by cases hm
  none _ _ := rfl
  lags _ he := by cases he

theorem listenerTick_resync (p : RingProfile) (b : AudioRing) (m : RingReader) :
    (listenerTick p b m).2.1.resync_count =
      if m.Lags p b then m.resync_count + 1 else m.resync_count := by
  simp only [listenerTick, RingReader.Lags]
  split_ifs <;> simp_all

theorem resync_of_gap (hgap : 1000000 < now - s.last_resync_evt_us i) :
    s.resync i now lag = { s with
      resyncs := Function.update s.resyncs i (now :: s.resyncs i)
      last_resync_evt_us := Function.update s.last_resync_evt_us i now
      events := (i, now, lag) :: s.events } := if_pos hgap

theorem resync_of_recent (hgap : ¬ 1000000 < now - s.last_resync_evt_us i) :
    s.resync i now lag =
      { s with resyncs := Function.update s.resyncs i (now :: s.resyncs i) } := if_neg hgap

/-- The other listeners have their clocks, and their events. -/
theorem resync_other (s : NotedRelay) (now : ℤ) (lag : ℕ) (hj : j ≠ i) :
    (s.resync i now lag).last_resync_evt_us j = s.last_resync_evt_us j ∧
      (s.resync i now lag).times j = s.times j ∧
      (s.resync i now lag).resyncs j = s.resyncs j := by
  by_cases hgap : 1000000 < now - s.last_resync_evt_us i
  · rw [resync_of_gap hgap]
    simp [NotedRelay.times, Function.update_of_ne hj, hj.symm]
  · rw [resync_of_recent hgap]
    simp [NotedRelay.times, Function.update_of_ne hj]

/-- The gate of the listener takes the resync. -/
theorem resync_own (hi : s.Sound p) (i : ℕ) (now : ℤ) (lag : ℕ) :
    (s.resync i now lag).last_resync_evt_us i =
        RateGate.latest 1000001 0 ((s.resync i now lag).resyncs i) ∧
      (s.resync i now lag).times i =
        RateGate.passed 1000001 0 ((s.resync i now lag).resyncs i) ∧
      (s.resync i now lag).resyncs i = now :: s.resyncs i := by
  have hlast := hi.latest i
  have htimes := hi.times i
  by_cases hgap : 1000000 < now - s.last_resync_evt_us i
  · have hpass : 1000001 ≤ now - RateGate.latest 1000001 0 (s.resyncs i) := by omega
    rw [resync_of_gap hgap]
    simp only [NotedRelay.times, Function.update_self, RateGate.latest_of_le hpass,
      RateGate.passed_of_le hpass, ← htimes]
    simp
  · have hstay : now - RateGate.latest 1000001 0 (s.resyncs i) < 1000001 := by omega
    rw [resync_of_recent hgap]
    simp only [Function.update_self, RateGate.latest_of_lt hstay, RateGate.passed_of_lt hstay]
    exact ⟨hlast, htimes, trivial⟩

theorem resync_lags (hi : s.Sound p) (hlag : p.max_lag < lag) :
    ∀ e ∈ (s.resync i now lag).events, p.max_lag < e.2.2 := by
  intro e he
  by_cases hgap : 1000000 < now - s.last_resync_evt_us i
  · rw [resync_of_gap hgap] at he
    rcases List.mem_cons.mp he with rfl | he
    · exact hlag
    · exact hi.lags e he
  · rw [resync_of_recent hgap] at he
    exact hi.lags e he

/-- A step that no listener resyncs in. -/
theorem NotedRelay.Sound.keep (hi : s.Sound p) {r : Relay}
    (hcount : ∀ j m, r.listener j = some m → m.resync_count = (s.resyncs j).length)
    (hnone : ∀ j, r.listener j = Option.none → s.resyncs j = []) :
    NotedRelay.Sound p { s with r := r } :=
  ⟨hi.latest, hi.times, hcount, hnone, hi.lags⟩

theorem NotedRelay.Sound.step (hi : s.Sound p) (hs : notedStep p s a = some t) : t.Sound p := by
  obtain ⟨act, now⟩ := a
  obtain ⟨r, hr, rfl⟩ := Option.map_eq_some_iff.mp hs
  cases act with
  | publish f =>
    obtain rfl := Option.some.inj hr
    exact hi.keep hi.count hi.none
  | join j =>
    cases hj : s.r.listener j with
    | some m => simp [relayStep, hj] at hr
    | none =>
      simp only [relayStep, hj, Option.some.injEq] at hr
      subst hr
      refine hi.keep (fun i m hm => ?_) fun i hn => ?_
      · by_cases hij : i = j
        · subst hij
          obtain rfl : _ = m := Option.some.inj (by simpa using hm)
          simp [hi.none i hj]
        · exact hi.count i m (by simpa [Function.update_of_ne hij] using hm)
      · by_cases hij : i = j
        · simp [hij] at hn
        · exact hi.none i (by simpa [Function.update_of_ne hij] using hn)
  | tick j =>
    cases hj : s.r.listener j with
    | none => simp [relayStep, hj] at hr
    | some m =>
      rw [relayStep_tick hj, Option.some.injEq] at hr
      have hown : r.listener j = some (listenerTick p s.r.b m).2.1 := by rw [← hr]; simp
      have hother : ∀ i, i ≠ j → r.listener i = s.r.listener i := fun i hij => by
        rw [← hr]
        simp [Function.update_of_ne hij]
      have htick := listenerTick_resync p s.r.b m
      simp only [hj]
      by_cases hlag : m.Lags p s.r.b
      · rw [if_pos hlag] at htick ⊢
        have hself := resync_own hi j now (s.r.b.producer_seq - m.consumer_seq)
        have helse : ∀ i, i ≠ j → _ := fun i =>
          resync_other s now (s.r.b.producer_seq - m.consumer_seq)
        refine ⟨fun i => ?_, fun i => ?_, fun i m' hm => ?_, fun i hn => ?_,
          resync_lags hi hlag.2⟩
        · by_cases hij : i = j
          · exact hij ▸ hself.1
          · show (s.resync j now _).last_resync_evt_us i = _
            rw [(helse i hij).1, hi.latest i, (helse i hij).2.2]
        · by_cases hij : i = j
          · exact hij ▸ hself.2.1
          · show (s.resync j now _).times i = _
            rw [(helse i hij).2.1, hi.times i, (helse i hij).2.2]
        · by_cases hij : i = j
          · subst hij
            obtain rfl := Option.some.inj (hown.symm.trans hm)
            rw [htick, hself.2.2, List.length_cons, hi.count i m hj]
          · rw [(helse i hij).2.2]
            exact hi.count i m' (hother i hij ▸ hm)
        · by_cases hij : i = j
          · subst hij
            cases hown.symm.trans hn
          · rw [(helse i hij).2.2]
            exact hi.none i (hother i hij ▸ hn)
      · rw [if_neg hlag] at htick ⊢
        refine hi.keep (fun i m' hm => ?_) fun i hn => ?_
        · by_cases hij : i = j
          · subst hij
            obtain rfl := Option.some.inj (hown.symm.trans hm)
            rw [htick]
            exact hi.count i m hj
          · exact hi.count i m' (hother i hij ▸ hm)
        · by_cases hij : i = j
          · subst hij
            cases hown.symm.trans hn
          · exact hi.none i (hother i hij ▸ hn)

/-- The events of a listener are more than a second apart and no more than its resyncs, each with
a lag above `max_lag`; and a resync is announced, or one has been within the second before. -/
theorem resync_events_coalesced (hr : Run (notedStep p) .init h s) (i : ℕ)
    (hm : s.r.listener i = some m) :
    (s.times i).IsChain (fun a b => b + 1000000 < a) ∧ (s.times i).length ≤ m.resync_count ∧
      (∀ now ∈ (s.resyncs i).head?, 1000000 < now → ∃ t ∈ s.times i, now ≤ t + 1000000) ∧
      ∀ e ∈ s.events, p.max_lag < e.2.2 := by
  have hi : s.Sound p :=
    hr.invariant (g := fun _ _ => True) (fun _ _ _ hi _ hs => hi.step hs) (fun _ _ => trivial) .init
  rw [hi.times i, hi.count i m hm]
  refine ⟨(RateGate.passed_isChain ..).imp fun a b hab => by omega,
    (RateGate.passed_sublist ..).length_le, fun now hnow hlate => ?_, hi.lags⟩
  obtain ⟨t, ht, hlt⟩ := RateGate.exists_passed (by norm_num) hnow (by omega : 0 + 1000001 ≤ now)
  exact ⟨t, ht, by omega⟩

/-- Of three resyncs within two seconds the second is not announced. -/
theorem resync_events_coalesced_second : ∃ h s m, Run (notedStep ⟨4, 1, 20, 0⟩) .init h s ∧
    s.r.listener 0 = some m ∧ m.resync_count = 3 ∧
    s.events = [(0, 6100000, 2), (0, 5000000, 3)] ∧ (s.times 0).length ≤ m.resync_count := by
  let silence : RelayAction × ℤ := (.publish ⟨[], 0, true⟩, 0)
  obtain ⟨h, s, hr, -, hv⟩ := exists_run_observing (notedStep ⟨4, 1, 20, 0⟩) (fun _ _ => true) .init
    [(.join 0, 0), silence, silence, silence, (.tick 0, 5000000), silence, silence,
      (.tick 0, 5500000), silence, silence, (.tick 0, 6100000)]
    (fun _ s => (s.r.listener 0, s.events))
    (v := (some ⟨7, 3⟩, [(0, 6100000, 2), (0, 5000000, 3)])) (by decide)
  obtain ⟨hm, hev⟩ := Prod.mk.inj hv
  exact ⟨h, s, ⟨7, 3⟩, hr, hm, rfl, hev, (resync_events_coalesced hr 0 hm).2.1⟩

end ModBroadcast
