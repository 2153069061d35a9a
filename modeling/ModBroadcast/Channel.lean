import ModBroadcast.Broadcast

namespace ModBroadcast

/-- The variables that the exit from a broadcast sets. -/
structure ChannelVariables where
  broadcast_left_reason : String
  broadcast_kicked_by : String
  broadcast_ended_by_self : String
  broadcast_total_duration_ms : Option ℕ
  broadcast_was_speaker_for_ms : Option ℕ
  broadcast_final_role : String
  deriving DecidableEq

def ChannelVariables.unset : ChannelVariables := ⟨"", "", "", none, none, ""⟩

def leftReason (b : Broadcast) (m : ℕ) : String :=
  if b.destroyed then "destroyed" else if (b.member m).mflags.kicked then "kicked" else "hangup"

def kickedBy (left_reason : String) : String :=
  if left_reason = "kicked" then "admin"
  else if left_reason = "wedge_timeout" then "wedged"
  else if left_reason = "destroyed" then "destroy"
  else ""

def endedBySelf (left_reason : String) : String :=
  if left_reason = "hangup" ∨ left_reason = "self-leave" ∨ left_reason = "self-hangup" then "true"
  else "false"

def fillEmpty (value fill : String) : String := if value = "" then fill else value

/-- `broadcast_member_set_exit_variables`; the clock of the broadcast is the time. -/
def memberSetExitVariables (b : Broadcast) (m : ℕ) (join_us : ℕ) (v : ChannelVariables) :
    ChannelVariables :=
  let left_reason := fillEmpty v.broadcast_left_reason (leftReason b m)
  { broadcast_left_reason := left_reason
    broadcast_kicked_by := fillEmpty v.broadcast_kicked_by (kickedBy left_reason)
    broadcast_ended_by_self := fillEmpty v.broadcast_ended_by_self (endedBySelf left_reason)
    broadcast_total_duration_ms := some ((b.clock - join_us) / 1000)
    -- a member without a time on the clock leaves the variable as it is
    broadcast_was_speaker_for_ms :=
      if 0 < (b.member m).speaker_since_us then
        some ((b.clock - (b.member m).speaker_since_us) / 1000)
      else v.broadcast_was_speaker_for_ms
    broadcast_final_role := if (b.member m).role = .speaker then "speaker" else "listener" }

end ModBroadcast
