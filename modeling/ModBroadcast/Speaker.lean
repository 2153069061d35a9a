import ModBroadcast.Members

namespace ModBroadcast

/-- `broadcast_speaker_input_run`, with the session's read lock held from `pinned`
to `unpin`. -/
def speakerInput (p : RoomProfile) (b : Broadcast) (m : ℕ) (c : Choice) :
    InputPc → Option (Broadcast × InputPc)
  | .absent | .ended => none
  | .start =>
    -- the session cannot be locked for reading
    if c = .fail then
      some (b.modify m fun x => { x with input_running := false }, .ended)
    else some (b, .pinned)
  | .pinned => some (b.modifyFlags m fun f => { f with ithread := true }, .loop)
  | .loop =>
    -- one frame, or a read that fails; the energy detection may raise an event
    if (b.member m).input_running ∧ (b.member m).mflags.running ∧ (b.member m).ready ∧ c ≠ .fail then
      match c with
      | .event => some (enqueueEvent p b .speakerTalking (b.member m).id, .loop)
      | .timeout => some (enqueueEvent p b .speakerSilent (b.member m).id, .loop)
      | _ => some (b, .loop)
    else some (b, .unflag)
  | .unflag => some (b.modifyFlags m fun f => { f with ithread := false }, .stop)
  | .stop => some (b.modify m fun x => { x with input_running := false }, .unpin)
  | .unpin => some (b, .ended)

inductive StopInputPc
  | clear | exchange | join
  deriving DecidableEq

def speakerStopInput (b : Broadcast) (m : ℕ) :
    StopInputPc → Option (Broadcast × Progress StopInputPc)
  | .clear => some (b.modify m fun x => { x with input_running := false }, .run .exchange)
  | .exchange =>
    -- whoever exchanges the pointer joins; anyone later returns at once
    if (b.member m).input_thread then
      some (b.modify m fun x => { x with input_thread := false }, .run .join)
    else some (b, .ret true)
  | .join => if (b.member m).input = .ended then some (b, .ret true) else none

inductive SetSpeakerPc
  | guard | audio | role | start | install
  | fire (old : Option ℕ)
  | stop (old : ℕ) (k : StopInputPc)
  | since (old : ℕ)
  deriving DecidableEq

/-- Where `broadcast_set_speaker` begins for its argument. -/
def SetSpeakerPc.first : Option ℕ → SetSpeakerPc
  | some _ => .guard
  | none => .install

/-- The section of `broadcast_set_speaker` that replaces the pointer, one step that waits for the producer
to be outside of `speaker_lock`. -/
def installSpeaker (b : Broadcast) (new : Option ℕ) : Broadcast :=
  let b := { b with current_speaker := new, speaker_active_since := b.clock }
  match new with
  | some m => b.modify m fun x => { x with speaker_since_us := b.clock }
  | none => b

def setSpeaker (b : Broadcast) (new : Option ℕ) (c : Choice) :
    SetSpeakerPc → Option (Broadcast × Progress SetSpeakerPc)
  -- a member in its listener loop is refused
  | .guard => new.map fun m =>
    (b, if (b.member m).in_listener_bridge then .ret false else .run .audio)
  | .audio => new.map fun m =>
    if (b.member m).audio then (b, .run .role)
    else if c = .fail then (b, .ret false)
    else (b.modify m fun x => { x with audio := true }, .run .role)
  | .role => new.map fun m => (b.modify m fun x => { x with role := .speaker }, .run .start)
  | .start => new.map fun m =>
    -- `broadcast_speaker_start_input`; a thread that is there already will do
    if (b.member m).input_thread then (b, .run .install)
    else if c = .fail then (b.modify m fun x => { x with input_running := false }, .ret false)
    else (b.modify m fun x => { x with input_running := true, input_thread := true, input := .start },
      .run .install)
  | .install =>
    -- the old speaker is replaced whoever it is: no test of the override here
    if b.speaker_reader then none
    else if b.current_speaker = new then some (b, .ret true)
    else some (installSpeaker b new, .run (.fire b.current_speaker))
  | .fire old =>
    let b := match new with
      | some m => fireCriticalEvent b .speakerSet (b.member m).id
      | none => fireCriticalEvent b .speakerClear 0
    -- the pointer is gone before the old input thread is stopped
    match old with
    | some o => some (b, .run (.stop o .clear))
    | none => some (b, .ret true)
  | .stop old k => (speakerStopInput b old k).map fun x =>
    (x.1, x.2.resume (fun k => .run (.stop old k)) fun _ => .run (.since old))
  | .since old => some (b.modify old fun x => { x with speaker_since_us := 0 }, .ret true)

inductive ClearPc
  | test
  | stop (k : StopInputPc)
  deriving DecidableEq

def clearSpeakerIfCurrent (b : Broadcast) (m : ℕ) : ClearPc → Option (Broadcast × Progress ClearPc)
  | .test =>
    -- the test and the store in one section, in contrast to `broadcast_speaker_main_wait`
    if b.speaker_reader then none
    else if b.current_speaker = some m then
      some ({ b with current_speaker := none }, .run (.stop .clear))
    else some (b, .ret true)
  | .stop k => (speakerStopInput b m k).map fun x => (x.1, x.2.resume (fun k => .run (.stop k)) .ret)

inductive MainWaitPc
  | enter | loop | dtmf | still | recheck
  | clear (k : SetSpeakerPc)
  | leave
  deriving DecidableEq

def speakerMainWait (p : RoomProfile) (b : Broadcast) (m : ℕ) (c : Choice) :
    MainWaitPc → Option (Broadcast × Progress MainWaitPc)
  | .enter => some (b.modify m fun x => { x with in_speaker_wait := true }, .run .loop)
  | .loop =>
    if (b.member m).mflags.running ∧ (b.member m).ready ∧ ¬ b.destroyed then some (b, .run .dtmf)
    else some (b, .run .recheck)
  | .dtmf =>
    match c with
    | .dtmf act => if (b.member m).ready then some (dispatchControl p b m act, .run .dtmf) else none
    | _ => some (b, .run .still)
  | .still => some (b, if b.current_speaker = some m then .run .loop else .run .recheck)
  -- the lock is given up between this test and `broadcast_clear_speaker`
  | .recheck =>
    some (b, if b.current_speaker = some m then .run (.clear (.first none)) else .run .leave)
  | .clear k => (setSpeaker b none c k).map fun x =>
    (x.1, x.2.resume (fun k => .run (.clear k)) fun _ => .run .leave)
  | .leave => some (b.modify m fun x => { x with in_speaker_wait := false }, .ret true)

inductive PromotionPc
  | bridge | unlink | raise | lower | poll | recheck | drop
  | add (k : ListenerAddPc)
  deriving DecidableEq

def requestPromotion (p : RoomProfile) (b : Broadcast) (m : ℕ) (c : Choice) :
    PromotionPc → Broadcast × Progress PromotionPc
  | .bridge => (b, if (b.member m).in_listener_bridge then .run .unlink else .ret false)
  | .unlink =>
    match listenerUnlinkForPromotion b m with
    | (b, true) => (b, .run .raise)
    | (b, false) => (b, .ret false)
  -- off the list, and the member's own thread does not know yet
  | .raise => (b.modifyFlags m fun f => { f with roleTransitionToSpeaker := true }, .run .lower)
  | .lower => (b.modifyFlags m fun f => { f with running := false }, .run .poll)
  -- the poll of at most 200 ms, and the test after it
  | .poll =>
    (b, if (b.member m).in_listener_bridge ∧ c ≠ .timeout then .run .poll else .run .recheck)
  | .recheck => (b, if (b.member m).in_listener_bridge then .run .drop else .ret true)
  | .drop =>
    (b.modifyFlags m fun f => { f with roleTransitionToSpeaker := false }, .run (.add .destroyed))
  -- the rollback; whether the listener is admitted again is only logged
  | .add k =>
    let x := listenerAdd p b m k
    (x.1, x.2.resume (fun k => .run (.add k)) fun _ => .ret false)

end ModBroadcast
