import ModBroadcast.Producer

namespace ModBroadcast

/-- The commands that name a member; `promote` is `set_speaker` and
`promote_listener`. -/
inductive MemberCommand
  | promote | kick | dtmf
  deriving DecidableEq

inductive FlagCommand
  | lock | unlock | pause | resume
  deriving DecidableEq

/-- `info` stands for every command that only reads under the locks. -/
inductive ApiCommand
  | info
  | member (k : MemberCommand) (id : ℕ)
  | clearSpeaker | kickAll
  | flag (f : FlagCommand)
  | record (target : String)
  | norecord
  | play | stopPlay
  | destroy (grace announcement : Bool)
  deriving DecidableEq

inductive KickPc
  | test | role | mark | event | hangup
  deriving DecidableEq

/-- The place of an API thread.  In the commands on a member, `s` is the member whose
session is pinned and `m` the member that the second lookup has found. -/
inductive ApiPc
  | idle
  | pin (k : ApiCommand)
  | start (k : ApiCommand)
  | find (k : MemberCommand) (id : ℕ)
  | findSpeaker (k : MemberCommand) (id : ℕ)
  | locate (k : MemberCommand) (id s : ℕ)
  | resolve (k : MemberCommand) (id s : ℕ)
  | resolveSpeaker (k : MemberCommand) (id s : ℕ)
  | promote (s m : ℕ) (k : PromotionPc)
  | kick (s m : ℕ) (k : KickPc)
  | dtmf (s m : ℕ)
  | unpin (s : ℕ)
  | clearSpeaker (k : SetSpeakerPc)
  | kickAll (l : List ℕ)
  | flagEvent (f : FlagCommand)
  | record (target : String) (k : RecordStartPc)
  | norecord (k : RecordStopPc)
  | destroy (grace announcement : Bool) (k : DestroyPc)
  | release
  deriving DecidableEq

def FlagCommand.apply (b : Broadcast) : FlagCommand → Broadcast
  | .lock => { b with locked := true }
  | .unlock => { b with locked := false }
  | .pause => { b with paused := true }
  | .resume => { b with paused := false }

def FlagCommand.event : FlagCommand → EventType
  | .lock => .lock
  | .unlock => .unlock
  | .pause => .pause
  | .resume => .resume

def MemberCommand.begin (s m : ℕ) : MemberCommand → ApiPc
  | .promote => .promote s m .bridge
  | .kick => .kick s m .test
  | .dtmf => .dtmf s m

def startCommand (p : RoomProfile) (b : Broadcast) (c : Choice) : ApiCommand → Broadcast × ApiPc
  | .info => (b, .release)
  | .member k id => (b, if id = 0 then .release else .find k id)
  | .clearSpeaker => (b, .clearSpeaker (.first none))
  | .kickAll => let l := uuidSnapshot b c; (kickAllMark p b l, .kickAll l)
  | .flag f => (f.apply b, .flagEvent f)
  | .record target => (b, .record target .start)
  | .norecord => (b, .norecord .unlink)
  -- the handle stays in `play_fh` whether or not the file could be opened
  | .play => (startPlay b true c, .release)
  | .stopPlay => (stopPlay b, .release)
  | .destroy grace announcement => (b, .destroy grace announcement .flag)

def kickListener (p : RoomProfile) (b : Broadcast) (m : ℕ) (c : Choice) :
    KickPc → Broadcast × Progress KickPc
  -- the command tests the role and `broadcast_kick_listener` tests it again
  | .test => (b, if (b.member m).role = .listener then .run .role else .ret false)
  | .role => (b, if (b.member m).role = .listener then .run .mark else .ret true)
  | .mark => (b.modifyFlags m fun f => { f with kicked := true }, .run .event)
  | .event => (enqueueEvent p b .listenerKicked (b.member m).id, .run .hangup)
  | .hangup => (hangupByUuid b m c, .ret true)

def apiDispatch (p : RoomProfile) (b : Broadcast) (c : Choice) : ApiPc → Option (Broadcast × ApiPc)
  | .idle => none
  | .pin k =>
    some ({ b with live_refs := b.live_refs + 1, hash_readers := b.hash_readers - 1 }, .start k)
  | .start k => some (startCommand p b c k)
  | .find k id =>
    some (b, match findListener b id with
      | some s => .locate k id s
      | none => .findSpeaker k id)
  | .findSpeaker k id =>
    some (b, match findSpeaker b id with
      | some s => .locate k id s
      | none => .release)
  -- `switch_core_session_locate` by the uuid read under the lock
  | .locate k id s => some (b, if c = .fail then .release else .resolve k id s)
  -- the second lookup: the pinned session need not be the one found here
  | .resolve k id s =>
    some (b, match findListener b id with
      | some m => k.begin s m
      | none => .resolveSpeaker k id s)
  | .resolveSpeaker k id s =>
    some (b, match findSpeaker b id with
      | some m => k.begin s m
      | none => .unpin s)
  -- what the request returns only words the answer
  | .promote s m k =>
    let x := requestPromotion p b m c k
    some (x.1, x.2.resume (.promote s m) fun _ => .unpin s)
  | .kick s m k =>
    let x := kickListener p b m c k
    some (x.1, x.2.resume (.kick s m) fun _ => .unpin s)
  | .dtmf s _ => some (b, .unpin s)
  | .unpin _ => some (b, .release)
  | .clearSpeaker k => (setSpeaker b none c k).map fun x =>
    (x.1, x.2.resume .clearSpeaker fun _ => .release)
  | .kickAll [] => some (b, .release)
  | .kickAll (m :: l) => some (hangupByUuid b m c, .kickAll l)
  | .flagEvent f => some (enqueueEvent p b f.event 0, .release)
  | .record target k =>
    let x := recordStart p b target c k
    some (x.1, x.2.resume (.record target) fun _ => .release)
  | .norecord k => (recordStop p b none k).map fun x =>
    (x.1, x.2.resume .norecord fun _ => .release)
  | .destroy grace announcement k => (destroyRoom p grace announcement b c k).map fun x =>
    -- the reference of the caller went with the broadcast: no `release`
    (x.1, x.2.resume (.destroy grace announcement) fun _ => .idle)
  | .release => some ({ b with live_refs := b.live_refs - 1 }, .idle)

end ModBroadcast
