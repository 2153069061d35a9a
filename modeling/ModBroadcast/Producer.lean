import ModBroadcast.Teardown

namespace ModBroadcast

/-- The place of the producer thread; `got` tells whether the tick has audio from
the file already, `paused` is the bit of its `cflags_snap`. -/
inductive ProducerPc
  | init | top | play
  | snapshot (got : Bool)
  | enter (got paused : Bool)
  | locked (got paused : Bool) (spk : Option ℕ)
  | reading (spk : ℕ)
  | leave (silence : Bool)
  | silence | publish | exit | ended
  deriving DecidableEq

def producerRun (p : RoomProfile) (b : Broadcast) (c : Choice) :
    ProducerPc → Option (Broadcast × ProducerPc)
  | .init => some (b, if c = .fail then .exit else .top)
  | .top =>
    if b.producer_running ∧ ¬ b.destroyed then
      some (if c = .event then enqueueEvent p b .producerStall 0 else b, .play)
    else some (b, .exit)
  | .play =>
    -- the end of the file closes the handle
    if b.play_file ∧ b.play_fh ≠ .null then
      if c = .fail then some (stopPlay b, .snapshot false) else some (b, .snapshot true)
    else some (b, .snapshot false)
  -- one read of `cflags` for the rest of the tick
  | .snapshot got => some (b, .enter got b.paused)
  -- `speaker_lock` for reading: nobody installs or clears before `leave`
  | .enter got paused =>
    some ({ b with speaker_reader := true }, .locked got paused b.current_speaker)
  | .locked got paused spk =>
    match spk with
    | none => some (b, .leave (!got || paused))
    | some m =>
      if ¬ got ∧ ¬ paused ∧ (b.member m).audio then some (b, .reading m)
      else some (b, .leave (!got || paused))
  | .reading m =>
    -- a full frame, unless the member is muted or its buffer is short
    some (b, .leave ((b.member m).mflags.mutedSpeaker || decide (c = .fail)))
  | .leave silence =>
    some ({ b with speaker_reader := false }, if silence then .silence else .publish)
  | .silence =>
    -- `b_apply_silence_policy` opens the MoH file when it is not open
    some (if p.moh ∧ ¬ b.moh_open ∧ c ≠ .fail then { b with moh_open := true } else b, .publish)
  | .publish => some (b, .top)
  | .exit => some ({ b with producer_running := false, producer_ended := true }, .ended)
  | .ended => none

def EventType.looksUp : EventType → Bool
  | .listenerJoin | .listenerLeave | .listenerResync | .speakerRequest => true
  | _ => false

inductive EmitterPc
  | idle | drain
  | find (type : EventType) (id : ℕ)
  | findSpeaker (type : EventType) (id : ℕ)
  | use (type : EventType) (id : ℕ) (m : ℕ)
  | fire (type : EventType) (id : ℕ)
  deriving DecidableEq

def findListener (b : Broadcast) (id : ℕ) : Option ℕ :=
  b.listeners.find? fun m => (b.member m).id = id

def findSpeaker (b : Broadcast) (id : ℕ) : Option ℕ :=
  b.current_speaker.filter fun m => (b.member m).id = id

def eventEmitter (b : Broadcast) : EmitterPc → Option (Broadcast × EmitterPc)
  | .idle =>
    if b.deleted ∨ b.destroyed then none
    else some ({ b with hash_readers := b.hash_readers + 1 }, .drain)
  | .drain =>
    match b.events with
    | [] => some ({ b with hash_readers := b.hash_readers - 1 }, .idle)
    -- the event is off the ring before its member is looked up
    | (type, id) :: rest =>
      some ({ b with events := rest }, if type.looksUp then .find type id else .fire type id)
  | .find type id =>
    some (b, match findListener b id with
      | some m => .use type id m
      | none => .findSpeaker type id)
  | .findSpeaker type id =>
    some (b, match findSpeaker b id with
      | some m => .use type id m
      | none => .fire type id)
  | .use type id _ => some (b, .fire type id)
  | .fire type id => some (fireCriticalEvent b type id, .drain)

/-- The listeners of `l` that the wedge detector marks, `l` being those whose last tick
is too long ago. -/
def wedged (b : Broadcast) (l : List ℕ) : List ℕ :=
  b.listeners.filter fun m =>
    m ∈ l ∧ (b.member m).role = .listener ∧ (b.member m).mflags.running

inductive HousekeepingPc
  | idle | heartbeat | mark
  | hangup (l : List ℕ)
  deriving DecidableEq

def runtimeHousekeeping (p : RoomProfile) (b : Broadcast) (c : Choice) :
    HousekeepingPc → Option (Broadcast × HousekeepingPc)
  | .idle =>
    if b.deleted ∨ b.destroyed then none
    else some ({ b with hash_readers := b.hash_readers + 1 }, .heartbeat)
  | .heartbeat => some (if c = .event then enqueueEvent p b .heartbeat 0 else b, .mark)
  | .mark =>
    match c with
    -- marked under the lock, hung up by uuid after it
    | .pick l => some (markKicked b (wedged b l), .hangup (wedged b l))
    | _ => none
  | .hangup [] => some ({ b with hash_readers := b.hash_readers - 1 }, .idle)
  | .hangup (m :: l) => some (hangupByUuid b m c, .hangup l)

end ModBroadcast
