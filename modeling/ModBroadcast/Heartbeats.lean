import ModBroadcast.Config
import ModBroadcast.JsonReplies
import ModBroadcast.RateGate

namespace ModBroadcast

open JsonText

/-- What a pass of the housekeeping finds in the broadcast; `spid` is 0 without a speaker. -/
structure HousekeepingPass where
  now : ℤ
  destroyed : Bool
  listener_count : ℕ
  stat_peak_listeners : ℕ
  spid : ℕ
  stat_ticks : ℕ
  stat_missed_ticks : ℕ
  stat_tick_drift_us_max : ℕ
  stat_listener_resyncs : ℕ
  stat_events_dropped : ℕ
  deriving DecidableEq

def heartbeatData (verbose_events : Bool) (x : HousekeepingPass) : Text :=
  (render (if verbose_events then
    json ["listeners=%u peak=%u speaker_id=%u ticks=%u missed=%u drift_max_us=%lu",
        " resyncs=%u dropped=%u"]
      [num x.listener_count, num x.stat_peak_listeners, num x.spid, num x.stat_ticks,
        num x.stat_missed_ticks, num x.stat_tick_drift_us_max, num x.stat_listener_resyncs,
        num x.stat_events_dropped]
    else json ["listeners=%u speaker_id=%u"] [num x.listener_count, num x.spid])).take 255

/-- The part of `broadcast_runtime_housekeeping` that sends the heartbeat, with `last_heartbeat_us`
and the data of the event. -/
def heartbeatPass (profile : Option BroadcastProfile) (last_heartbeat_us : ℤ)
    (x : HousekeepingPass) : ℤ × Option Text :=
  if x.destroyed then (last_heartbeat_us, none)
  else match profile with
    | none => (last_heartbeat_us, none)
    | some profile =>
      if 0 < profile.heartbeat_interval_sec then
        let interval_us : ℤ := profile.heartbeat_interval_sec * 1000000
        if last_heartbeat_us = 0 then (x.now, none)
        else if interval_us ≤ x.now - last_heartbeat_us then
          (x.now, some (heartbeatData profile.verbose_events x))
        else (last_heartbeat_us, none)
      else (last_heartbeat_us, none)

/-- `last_heartbeat_us` after the passes, the latest first, and the heartbeats with their times. -/
def heartbeats (profile : Option BroadcastProfile) :
    List HousekeepingPass → ℤ × List (ℤ × Text)
  | [] => (0, [])
  | x :: l =>
    let z := heartbeats profile l
    let z' := heartbeatPass profile z.1 x
    (z'.1, z'.2.toList.map (fun data => (x.now, data)) ++ z.2)

variable {profile : BroadcastProfile} {x x₀ : HousekeepingPass} {l : List HousekeepingPass}
  {last w : ℤ}

def BroadcastProfile.interval_us (profile : BroadcastProfile) : ℤ :=
  profile.heartbeat_interval_sec * 1000000

/-- The pass finds the broadcast alive, and the clock after the beginning of time. -/
def HousekeepingPass.Live (x : HousekeepingPass) : Prop := x.destroyed = false ∧ 0 < x.now

theorem heartbeatPass_of_le (hint : 0 < profile.heartbeat_interval_sec) (hx : x.Live)
    (hlast : 0 < last) (h : profile.interval_us ≤ x.now - last) :
    heartbeatPass (some profile) last x =
      (x.now, some (heartbeatData profile.verbose_events x)) := by
  have hne : last ≠ 0 := by omega
  unfold BroadcastProfile.interval_us at h
  simp [heartbeatPass, hx.1, hint, hne, h]

theorem heartbeatPass_of_lt (hx : x.Live) (hlast : 0 < last)
    (h : x.now - last < profile.interval_us) :
    heartbeatPass (some profile) last x = (last, none) := by
  have hne : last ≠ 0 := by omega
  have hlt : ¬ (profile.heartbeat_interval_sec : ℤ) * 1000000 ≤ x.now - last := not_le.mpr h
  simp [heartbeatPass, hx.1, hne, hlt]

/-- The clock and the heartbeats are those of a gate that the first pass has closed. -/
structure Beats (profile : BroadcastProfile) (first : ℤ) (l : List HousekeepingPass)
    (z : ℤ × List (ℤ × Text)) : Prop where
  last : z.1 = RateGate.latest profile.interval_us first (l.map HousekeepingPass.now)
  positive : 0 < z.1
  times : z.2.map Prod.fst =
    RateGate.passed profile.interval_us first (l.map HousekeepingPass.now)
  data : ∀ e ∈ z.2, ∃ x ∈ l, e = (x.now, heartbeatData profile.verbose_events x)

theorem Beats.step {first : ℤ} {passes : List HousekeepingPass}
    (hint : 0 < profile.heartbeat_interval_sec) (hx : x.Live)
    (h : Beats profile first l (heartbeats (some profile) passes)) :
    Beats profile first (x :: l) (heartbeats (some profile) (x :: passes)) := by
  obtain ⟨hlast, hpos, htimes, hdata⟩ := h
  have hold : ∀ e ∈ (heartbeats (some profile) passes).2,
      ∃ y ∈ x :: l, e = (y.now, heartbeatData profile.verbose_events y) := fun e he => by
    obtain ⟨y, hy, heq⟩ := hdata e he
    exact ⟨y, List.mem_cons_of_mem x hy, heq⟩
  simp only [heartbeats]
  rcases le_or_gt profile.interval_us (x.now - (heartbeats (some profile) passes).1) with hle | hlt
  · rw [heartbeatPass_of_le hint hx hpos hle]
    have hpass := hlast ▸ hle
    refine ⟨?_, hx.2, ?_, fun e he => ?_⟩
    · rw [List.map_cons, RateGate.latest_of_le hpass]
    · rw [List.map_cons, RateGate.passed_of_le hpass, ← htimes]
      rfl
    · rcases List.mem_cons.mp he with rfl | he
      · exact ⟨x, List.mem_cons_self, rfl⟩
      · exact hold e he
  · rw [heartbeatPass_of_lt hx hpos hlt]
    have hstay := hlast ▸ hlt
    refine ⟨?_, hpos, ?_, hold⟩
    · rw [List.map_cons, RateGate.latest_of_lt hstay]
      exact hlast
    · rw [List.map_cons, RateGate.passed_of_lt hstay]
      exact htimes

theorem beats_of_passes (hint : 0 < profile.heartbeat_interval_sec)
    (hlive : ∀ x ∈ l ++ [x₀], x.Live) :
    Beats profile x₀.now l (heartbeats (some profile) (l ++ [x₀])) := by
  induction l with
  | nil =>
    obtain ⟨hd, hpos⟩ := hlive x₀ (by simp)
    have hfirst : heartbeats (some profile) ([] ++ [x₀]) = (x₀.now, []) := by
      simp [heartbeats, heartbeatPass, hd, hint]
    rw [hfirst]
    exact ⟨rfl, hpos, rfl, fun e he => nomatch he⟩
  | cons x l ih =>
    exact (ih fun y hy => hlive y (List.mem_cons_of_mem x hy)).step hint
      (hlive x List.mem_cons_self)

/-- Heartbeats are an interval apart, the first pass being the beginning; when no two passes are
more than `w` apart, no two heartbeats are an interval and `w` apart, and the last one is
less than an interval old.  Each has the data of a pass. -/
theorem heartbeats_paced (hint : 0 < profile.heartbeat_interval_sec)
    (hlive : ∀ x ∈ l ++ [x₀], x.Live)
    (hwait : (l ++ [x₀]).IsChain fun x y => x.now - y.now ≤ w) :
    let sent := (heartbeats (some profile) (l ++ [x₀])).2
    (sent.map Prod.fst ++ [x₀.now]).IsChain (fun t u => u + profile.interval_us ≤ t) ∧
      (sent.map Prod.fst ++ [x₀.now]).IsChain (fun t u => t < u + profile.interval_us + w) ∧
      (∀ x ∈ l.head?, x.now < (sent.map Prod.fst).headD x₀.now + profile.interval_us) ∧
      ∀ e ∈ sent, ∃ x ∈ l, e = (x.now, heartbeatData profile.verbose_events x) := by
  have h := beats_of_passes hint hlive
  have hpos : 0 < profile.interval_us := by
    unfold BroadcastProfile.interval_us
    omega
  have hchain : (l.map HousekeepingPass.now ++ [x₀.now]).IsChain fun t u => t - u ≤ w := by
    rw [← List.map_singleton, ← List.map_append, List.isChain_map]
    exact hwait
  obtain ⟨hdense, hlast⟩ := RateGate.passed_dense hpos hchain
  dsimp only
  rw [h.times]
  refine ⟨RateGate.passed_spaced .., hdense, fun x hx => ?_, h.data⟩
  refine hlast x.now ?_
  rw [List.head?_map, hx]
  rfl

/-- Passes five seconds apart and an interval of twelve seconds. -/
theorem heartbeats_paced_twelve : ∃ (profile : BroadcastProfile) (l : List HousekeepingPass)
    (x₀ : HousekeepingPass), let sent := (heartbeats (some profile) (l ++ [x₀])).2
      sent.map Prod.fst = [31000000, 16000000] ∧
        (sent.map Prod.fst ++ [x₀.now]).IsChain (fun t u => u + profile.interval_us ≤ t) := by
  obtain ⟨profile, hp⟩ : ∃ profile, bParseProfile (fun _ => false) 0
      ⟨"lecture", [⟨"heartbeat-interval-sec", "12"⟩]⟩ = some profile := ⟨_, rfl⟩
  let x (now : ℤ) : HousekeepingPass := ⟨now, false, 3, 4, 1, 0, 0, 0, 0, 0⟩
  have hsec : profile.heartbeat_interval_sec = 12 := by
    obtain rfl := Option.some.inj hp
    decide
  refine ⟨profile, [x 31000000, x 26000000, x 21000000, x 16000000, x 11000000, x 6000000],
    x 1000000, ?_, ?_⟩
  · simp [heartbeats, heartbeatPass, hsec, x]
  · exact (heartbeats_paced (w := 5000000) (by omega)
      (by simp [x, HousekeepingPass.Live]) (by simp [x])).1

end ModBroadcast
