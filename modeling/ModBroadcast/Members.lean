import Mathlib.Algebra.Group.Nat.Defs
import Mathlib.Data.List.Basic
import ModBroadcast.Broadcast

namespace ModBroadcast

/-- `broadcast_member_next_id`; the counter is a `uint32_t`. -/
def memberNextId (b : Broadcast) : Broadcast × ℕ :=
  let id := (b.next_member_id + 1) % 2 ^ 32
  ({ b with next_member_id := id }, id)

def memberPrepare (b : Broadcast) (m : ℕ) (role : MemberRole) (ghost : Bool) : Broadcast :=
  b.modify m fun x =>
    { Member.zero with
      role := role
      mflags := { Member.zero.mflags with ghost := ghost }
      audio := role = .speaker
      ready := x.ready }

inductive ListenerAddPc
  | destroyed | locked | link | stats | running
  deriving DecidableEq

def listenerLink (b : Broadcast) (m : ℕ) : Broadcast :=
  -- the id of an earlier link is kept: a rollback links a member that has one
  let (b, id) := if (b.member m).id = 0 then memberNextId b else (b, (b.member m).id)
  let b := b.modify m fun x => { x with id := id, role := .listener }
  -- head insertion, without a look at whether `m` is on the list already
  { b with
    listeners := m :: b.listeners
    listener_count := b.listener_count + 1
    stat_peak_listeners := max b.stat_peak_listeners (b.listener_count + 1) }

def listenerAdd (p : RoomProfile) (b : Broadcast) (m : ℕ) :
    ListenerAddPc → Broadcast × Progress ListenerAddPc
  -- both tests are made before the lock is taken and not repeated inside
  | .destroyed => (b, if b.destroyed then .ret false else .run .locked)
  | .locked => (b, if b.locked then .ret false else .run .link)
  | .link =>
    if p.max_listeners ≤ b.listener_count then (b, .ret false) else (listenerLink b m, .run .stats)
  | .stats =>
    if (b.member m).mflags.ghost then (b, .run .running)
    else (enqueueEvent p { b with stat_listeners_joined := b.stat_listeners_joined + 1 }
      .listenerJoin (b.member m).id, .run .running)
  | .running => (b.modifyFlags m fun f => { f with running := true }, .ret true)

/-- The unlinking that `broadcast_listener_unlink_for_promotion` and
`broadcast_listener_del` share. -/
def listenerUnlink (b : Broadcast) (m : ℕ) : Broadcast :=
  { b with listeners := b.listeners.erase m, listener_count := b.listener_count - 1 }

def listenerUnlinkForPromotion (b : Broadcast) (m : ℕ) : Broadcast × Bool :=
  if m ∈ b.listeners then (listenerUnlink b m, true) else (b, false)

def listenerDel (p : RoomProfile) (b : Broadcast) (m : ℕ) : Broadcast :=
  if m ∈ b.listeners then
    let b := listenerUnlink b m
    if (b.member m).mflags.ghost then b
    -- unlike the join, the leave is announced inside the lock
    else enqueueEvent p { b with stat_listeners_left := b.stat_listeners_left + 1 }
      .listenerLeave (b.member m).id
  else b

/-- `b_listener_dispatch_control`, as far as the broadcast and the member's flags are
concerned; gains and thresholds, applications, scripts and transfers are not. -/
def dispatchControl (p : RoomProfile) (b : Broadcast) (m : ℕ) : ControlAction → Broadcast
  | .hangup => b.hangup m
  | .leave => b.modifyFlags m fun f => { f with running := false }
  | .requestSpeaker => enqueueEvent p b .speakerRequest (b.member m).id
  | .muteToggle =>
    if (b.member m).role = .speaker then
      b.modifyFlags m fun f => { f with mutedSpeaker := !f.mutedSpeaker }
    else b
  | .event => enqueueEvent p b .dtmfAction (b.member m).id
  | _ => b

inductive ListenerRunPc
  | enter | timer | loop | dtmf | check | tick | stop | leave
  deriving DecidableEq

/-- `broadcast_listener_run`.  Its early return, when no timer can be set up, leaves
`in_listener_bridge` as it is. -/
def listenerRun (p : RoomProfile) (b : Broadcast) (m : ℕ) (c : Choice) :
    ListenerRunPc → Broadcast × Progress ListenerRunPc
  | .enter => (b.modify m fun x => { x with in_listener_bridge := true }, .run .timer)
  | .timer => (b, if c = .fail then .ret false else .run .loop)
  | .loop =>
    -- the wait for the next tick, or a read of the session that fails
    if (b.member m).mflags.running ∧ (b.member m).ready ∧ ¬ b.destroyed ∧ c ≠ .fail then
      (b, .run .dtmf)
    else (b, .run .stop)
  | .dtmf =>
    match c with
    | .dtmf act => (dispatchControl p b m act, .run .dtmf)
    | _ => (b, .run .check)
  -- the tests after the DTMF digits, the kick among them
  | .check =>
    if (b.member m).mflags.kicked ∨ ¬ (b.member m).mflags.running ∨ b.destroyed ∨
        ¬ (b.member m).ready then (b, .run .stop)
    else (b, .run .tick)
  | .tick =>
    match c with
    | .fail => (b, .run .stop)
    | .event => (enqueueEvent p b .listenerResync (b.member m).id, .run .loop)
    | _ => (b, .run .loop)
  -- `MFLAG_RUNNING` goes before `in_listener_bridge`: two stores
  | .stop => (b.modifyFlags m fun f => { f with running := false }, .run .leave)
  | .leave => (b.modify m fun x => { x with in_listener_bridge := false }, .ret true)

end ModBroadcast
