import Mathlib.Data.List.Basic
import Mathlib.Tactic.SplitIfs
import ModBroadcast.Channel

namespace ModBroadcast

inductive KickReason
  | kicked | wedgeTimeout | destroyed
  deriving DecidableEq

def KickReason.text : KickReason → String
  | .kicked => "kicked"
  | .wedgeTimeout => "wedge_timeout"
  | .destroyed => "destroyed"

/-- What sets the variables during a visit: the controls `hangup` and `leave` of
`b_listener_dispatch_control`, and `b_hangup_listener_session_by_uuid`. -/
inductive ChannelWrite
  | hangup | leave
  | kick (reason : KickReason)
  deriving DecidableEq

def ChannelWrite.reason : ChannelWrite → String
  | .hangup => "self-hangup"
  | .leave => "self-leave"
  | .kick reason => reason.text

def ChannelWrite.own : ChannelWrite → Bool
  | .hangup | .leave => true
  | .kick _ => false

def ChannelVariables.write (v : ChannelVariables) (w : ChannelWrite) : ChannelVariables :=
  { v with
    broadcast_ended_by_self := if w.own then "true" else v.broadcast_ended_by_self
    broadcast_left_reason := w.reason }

/-- A call of `broadcast_app_function` that comes to `broadcast_member_set_exit_variables`:
what is written before, and the broadcast, the member and its time of joining there. -/
structure Visit where
  writes : List ChannelWrite
  b : Broadcast
  m : ℕ
  join_us : ℕ

def ChannelVariables.exit (v : ChannelVariables) (x : Visit) : ChannelVariables :=
  memberSetExitVariables x.b x.m x.join_us (x.writes.foldl ChannelVariables.write v)

/-- What happens to the variables of a channel: a visit, a call that `broadcast_listener_add`
turns away, or a kick that comes when the visit it was meant for is over. -/
inductive ChannelEvent
  | visit (x : Visit)
  | refused
  | late (reason : KickReason)

def ChannelVariables.next (v : ChannelVariables) : ChannelEvent → ChannelVariables
  | .visit x => v.exit x
  | .refused => { v with broadcast_left_reason := "error" }
  | .late reason => v.write (.kick reason)

/-- The variables of a channel after some of its visits. -/
def channelAfter (l : List ChannelEvent) : ChannelVariables :=
  l.foldl ChannelVariables.next .unset

variable {v : ChannelVariables} {x : Visit} {l : List ChannelWrite}

def Visit.reason (x : Visit) : String :=
  (x.writes.getLast?.map ChannelWrite.reason).getD (leftReason x.b x.m)

def Visit.own (x : Visit) : Bool := x.writes.any ChannelWrite.own

theorem foldl_write (v : ChannelVariables) (l : List ChannelWrite) :
    (l.foldl ChannelVariables.write v).broadcast_left_reason =
        (l.getLast?.map ChannelWrite.reason).getD v.broadcast_left_reason ∧
      (l.foldl ChannelVariables.write v).broadcast_kicked_by = v.broadcast_kicked_by ∧
      (l.foldl ChannelVariables.write v).broadcast_ended_by_self =
        if l.any ChannelWrite.own then "true" else v.broadcast_ended_by_self := by
  induction l generalizing v with
  | nil => exact ⟨rfl, rfl, rfl⟩
  | cons w l ih =>
    obtain ⟨hleft, hkicked, hended⟩ := ih (v.write w)
    rw [List.foldl_cons, hleft, hkicked, hended]
    refine ⟨?_, rfl, ?_⟩
    · cases l with
      | nil => rfl
      | cons w' l =>
        obtain ⟨y, hy⟩ : ∃ y, (w' :: l).getLast? = some y := ⟨_, List.getLast?_cons⟩
        simp [List.getLast?_cons_cons, hy]
    · cases hw : w.own <;> simp [ChannelVariables.write, hw]

theorem reason_ne_empty (w : ChannelWrite) : w.reason ≠ "" := by
  cases w with
  | hangup | leave => decide
  | kick reason => cases reason <;> decide

/-- Nobody is kicked who has ended by itself. -/
theorem endedBySelf_of_kickedBy {reason : String} (h : kickedBy reason ≠ "") :
    endedBySelf reason = "false" := by
  unfold kickedBy at h
  split_ifs at h with h₁ h₂ h₃
  · rw [h₁]
    decide
  · rw [h₂]
    decide
  · rw [h₃]
    decide
  · exact absurd rfl h

theorem fillEmpty_eq_iff {value fill : String} :
    fillEmpty value fill = fill ↔ value = "" ∨ value = fill := by
  unfold fillEmpty
  split_ifs with h
  · exact ⟨fun _ => .inl h, fun _ => rfl⟩
  · exact ⟨.inr, fun h' => h'.resolve_left h⟩

/-- What the exit makes of the variables that the visit has found. -/
theorem exit_left_reason : (v.exit x).broadcast_left_reason =
    if x.writes = [] then fillEmpty v.broadcast_left_reason x.reason else x.reason := by
  show fillEmpty (x.writes.foldl ChannelVariables.write v).broadcast_left_reason _ = _
  rw [(foldl_write v x.writes).1, Visit.reason]
  cases hl : x.writes.getLast? with
  | none =>
    rw [if_pos (List.getLast?_eq_none_iff.mp hl)]
    rfl
  | some w =>
    have hne : x.writes ≠ [] := by
      intro hnil
      simp [hnil] at hl
    rw [if_neg hne, Option.map_some, Option.getD_some, Option.getD_some, fillEmpty,
      if_neg (reason_ne_empty w)]

theorem exit_kicked_by : (v.exit x).broadcast_kicked_by =
    fillEmpty v.broadcast_kicked_by (kickedBy (v.exit x).broadcast_left_reason) := by
  show fillEmpty (x.writes.foldl ChannelVariables.write v).broadcast_kicked_by _ = _
  rw [(foldl_write v x.writes).2.1]
  rfl

theorem exit_ended_by_self : (v.exit x).broadcast_ended_by_self =
    if x.own then "true"
    else fillEmpty v.broadcast_ended_by_self (endedBySelf (v.exit x).broadcast_left_reason) := by
  show fillEmpty (x.writes.foldl ChannelVariables.write v).broadcast_ended_by_self _ = _
  rw [(foldl_write v x.writes).2.2]
  cases hown : x.own with
  | true =>
    rw [if_pos (show x.writes.any ChannelWrite.own = true from hown)]
    rfl
  | false =>
    rw [if_neg (by rw [show x.writes.any ChannelWrite.own = false from hown]; decide)]
    rfl

theorem first_left_reason : (ChannelVariables.unset.exit x).broadcast_left_reason = x.reason := by
  rw [exit_left_reason]
  split_ifs <;> rfl

theorem first_kicked_by :
    (ChannelVariables.unset.exit x).broadcast_kicked_by = kickedBy x.reason := by
  rw [exit_kicked_by, first_left_reason]
  rfl

theorem first_ended_by_self : (ChannelVariables.unset.exit x).broadcast_ended_by_self =
    if x.own then "true" else endedBySelf x.reason := by
  rw [exit_ended_by_self, first_left_reason]
  rfl

/-- The two channels agree in the three variables. -/
structure ChannelVariables.SameExit (v v' : ChannelVariables) : Prop where
  left_reason : v.broadcast_left_reason = v'.broadcast_left_reason
  kicked_by : v.broadcast_kicked_by = v'.broadcast_kicked_by
  ended_by_self : v.broadcast_ended_by_self = v'.broadcast_ended_by_self

/-- What a visit finds on its channel is empty, or written over, or what it would store itself; and
nobody kicks the member after it has ended the visit by itself. -/
structure Visit.Undisturbed (x : Visit) (v : ChannelVariables) : Prop where
  left_reason : x.writes = [] →
    v.broadcast_left_reason = "" ∨ v.broadcast_left_reason = leftReason x.b x.m
  kicked_by : v.broadcast_kicked_by = "" ∨ v.broadcast_kicked_by = kickedBy x.reason
  ended_by_self : x.own = true ∨ v.broadcast_ended_by_self = "" ∨
    v.broadcast_ended_by_self = endedBySelf x.reason
  last : x.own = true → kickedBy x.reason = ""

theorem exit_left_reason_iff : (v.exit x).broadcast_left_reason = x.reason ↔
    (x.writes = [] → v.broadcast_left_reason = "" ∨
      v.broadcast_left_reason = leftReason x.b x.m) := by
  rw [exit_left_reason]
  by_cases hw : x.writes = []
  · have hreason : x.reason = leftReason x.b x.m := by simp [Visit.reason, hw]
    rw [if_pos hw, fillEmpty_eq_iff, hreason]
    exact ⟨fun h _ => h, fun h => h hw⟩
  · rw [if_neg hw]
    exact ⟨fun _ hnil => absurd hnil hw, fun _ => rfl⟩

theorem exit_ended_by_self_iff (h : (v.exit x).broadcast_left_reason = x.reason) :
    (v.exit x).broadcast_ended_by_self = (if x.own then "true" else endedBySelf x.reason) ↔
      x.own = true ∨ v.broadcast_ended_by_self = "" ∨
        v.broadcast_ended_by_self = endedBySelf x.reason := by
  rw [exit_ended_by_self, h]
  by_cases hown : x.own = true
  · simp [hown]
  · rw [if_neg hown, if_neg hown, fillEmpty_eq_iff]
    exact ⟨.inr, fun h => h.resolve_left hown⟩

/-- On the first visit a kick and an exit by itself come together when the kick comes last. -/
theorem first_consistent_iff :
    ¬ (kickedBy x.reason ≠ "" ∧ (if x.own then "true" else endedBySelf x.reason) = "true") ↔
      (x.own = true → kickedBy x.reason = "") := by
  constructor
  · intro h hown
    by_contra hk
    exact h ⟨hk, by rw [if_pos hown]⟩
  · rintro h ⟨hk, he⟩
    by_cases hown : x.own = true
    · exact hk (h hown)
    · rw [if_neg hown, endedBySelf_of_kickedBy hk] at he
      exact absurd he (by decide)

/-- The exit variables after any history of the channel are those of the visit alone, and
consistent, exactly when what the visit finds and the order of its own writes allow it. -/
theorem exit_variables_of_visit_iff (l : List ChannelEvent) (x : Visit) :
    ((channelAfter l).exit x).SameExit (ChannelVariables.unset.exit x) ∧
        ¬ (((channelAfter l).exit x).broadcast_kicked_by ≠ "" ∧
          ((channelAfter l).exit x).broadcast_ended_by_self = "true") ↔
      x.Undisturbed (channelAfter l) := by
  generalize channelAfter l = v
  constructor
  · rintro ⟨⟨hl, hk, he⟩, hboth⟩
    rw [first_left_reason] at hl
    rw [first_kicked_by] at hk
    rw [first_ended_by_self] at he
    refine ⟨exit_left_reason_iff.mp hl, ?_, (exit_ended_by_self_iff hl).mp he, ?_⟩
    · rwa [exit_kicked_by, hl, fillEmpty_eq_iff] at hk
    · rw [hk, he] at hboth
      exact first_consistent_iff.mp hboth
  · rintro ⟨hl, hk, he, hlast⟩
    have hleft := exit_left_reason_iff.mpr hl
    have hkicked : (v.exit x).broadcast_kicked_by = kickedBy x.reason := by
      rw [exit_kicked_by, hleft, fillEmpty_eq_iff]
      exact hk
    have hended := (exit_ended_by_self_iff hleft).mpr he
    refine ⟨⟨?_, ?_, ?_⟩, ?_⟩
    · rw [hleft, first_left_reason]
    · rw [hkicked, first_kicked_by]
    · rw [hended, first_ended_by_self]
    · rw [hkicked, hended]
      exact first_consistent_iff.mpr hlast

/-- The member leaves by a digit, comes back and is kicked. -/
theorem exit_variables_of_earlier_visit : ¬ ∀ (l : List ChannelEvent) (x : Visit),
    ((channelAfter l).exit x).SameExit (ChannelVariables.unset.exit x) ∧
      ¬ (((channelAfter l).exit x).broadcast_kicked_by ≠ "" ∧
        ((channelAfter l).exit x).broadcast_ended_by_self = "true") := by
  intro h
  refine (h [.visit ⟨[.leave], .create, 0, 0⟩] ⟨[.kick .kicked], .create, 1, 0⟩).2 ?_
  decide

end ModBroadcast
