import ModBroadcast.Teardown

namespace ModBroadcast

structure JoinParams where
  role : MemberRole
  ghost : Bool
  exclusive : Bool
  deriving DecidableEq

/-- The place of a session in `broadcast_app_function`: `outside` before the call,
`pin` between the tests and the increment of `broadcast_find_and_ref`, `created`
back from the insertion of `broadcast_create`. -/
inductive SessionPc
  | outside
  | created
  | record (j : JoinParams) (k : RecordStartPc)
  | recordFailed (j : JoinParams)
  | pin (j : JoinParams)
  | accept (j : JoinParams)
  | prepare (j : JoinParams)
  | check | nextId | running
  | speak (promoted : Bool) (k : SetSpeakerPc)
  | wait (k : MainWaitPc)
  | lower | exitVariables
  | add (k : ListenerAddPc)
  | listen (k : ListenerRunPc)
  | decide | clearFlag | raise
  | listenerVariables | unlink
  | clear (k : ClearPc)
  | cleanup | release
  | returned
  deriving DecidableEq

def appFunction (p : RoomProfile) (b : Broadcast) (m : ℕ) (c : Choice) :
    SessionPc → Option (Broadcast × SessionPc)
  | .outside | .created | .returned => none
  | .record j k =>
    let x := recordStart p b "record-template" c k
    some (x.1, x.2.resume (.record j) fun ok => if ok then .prepare j else .recordFailed j)
  | .recordFailed j => some (enqueueEvent p b .recordingFailed 0, .prepare j)
  | .pin j =>
    some ({ b with live_refs := b.live_refs + 1, hash_readers := b.hash_readers - 1 }, .accept j)
  -- `find_and_ref` has found the broadcast, so an exclusive join is rejected
  | .accept j => some (if j.exclusive then (b.hangup m, .release) else (b, .prepare j))
  | .prepare j =>
    if c = .fail then some (b, .release)
    else some (memberPrepare b m j.role j.ghost, if j.role = .speaker then .check else .add .destroyed)
  | .check =>
    -- the occupancy is tested here, the member is installed some steps later
    if b.current_speaker ≠ none ∧ b.current_speaker ≠ some m ∧ ¬ p.speaker_override then
      some (b.hangup m, .cleanup)
    else some (b, .nextId)
  | .nextId =>
    let x := memberNextId b
    some (x.1.modify m fun y => { y with id := x.2 }, .running)
  -- an own speaker join; the promotion commit comes from `raise`
  | .running => some (b.modifyFlags m fun f => { f with running := true }, .speak false .guard)
  | .speak promoted k => (setSpeaker b (some m) c k).map fun x =>
    (x.1, x.2.resume (.speak promoted) fun ok =>
      -- a join that is refused skips the exit, a promotion does not
      if ok then .wait .enter else if promoted then .lower else .cleanup)
  | .wait k => (speakerMainWait p b m c k).map fun x => (x.1, x.2.resume .wait fun _ => .lower)
  | .lower => some (b.modifyFlags m fun f => { f with running := false }, .exitVariables)
  | .exitVariables => some (b, .clear .test)
  | .add k =>
    let x := listenerAdd p b m k
    some (match x.2 with
      | .run k => (x.1, .add k)
      | .ret true => (x.1, .listen .enter)
      | .ret false => (x.1.hangup m, .cleanup))
  | .listen k =>
    let x := listenerRun p b m c k
    some (x.1, x.2.resume .listen fun _ => .decide)
  -- the only place where a promotion request reaches the member's own thread
  | .decide =>
    some (b, if (b.member m).mflags.roleTransitionToSpeaker then .clearFlag else .listenerVariables)
  | .clearFlag => some (b.modifyFlags m fun f => { f with roleTransitionToSpeaker := false }, .raise)
  | .raise => some (b.modifyFlags m fun f => { f with running := true }, .speak true .guard)
  | .listenerVariables => some (b, .unlink)
  | .unlink => some (listenerDel p b m, .clear .test)
  | .clear k => (clearSpeakerIfCurrent b m k).map fun x => (x.1, x.2.resume .clear fun _ => .cleanup)
  -- `broadcast_member_cleanup_codecs`
  | .cleanup => some (b, .release)
  | .release => some ({ b with live_refs := b.live_refs - 1 }, .returned)

/-- The tests of `broadcast_find_and_ref`, when they succeed; the thread stays inside
`hash_rwlock` until it has incremented. -/
def findBroadcast (b : Broadcast) : Option Broadcast :=
  if b.deleted ∨ b.destroyed ∨ b.destruct then none
  else some { b with hash_readers := b.hash_readers + 1 }

/-- `broadcast_app_function` is called: with the tests of `broadcast_find_and_ref`, or
in the session that has created the broadcast. -/
def joinSession (p : RoomProfile) (b : Broadcast) (j : JoinParams) :
    SessionPc → Option (Broadcast × SessionPc)
  | .outside => (findBroadcast b).map fun b => (b, .pin j)
  | .created => some (b, if p.auto_record then .record j .start else .prepare j)
  | _ => none

end ModBroadcast
