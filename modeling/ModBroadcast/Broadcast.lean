import Mathlib.Data.Int.Notation
import Mathlib.Data.Nat.Notation
import Mathlib.Logic.Function.Basic
import ModBroadcast.StopWalk

namespace ModBroadcast

inductive MemberRole
  | speaker | listener | observer
  deriving DecidableEq

inductive EventType
  | broadcastCreate | broadcastDestroy | speakerSet | speakerClear | speakerTalking
  | speakerSilent | listenerJoin | listenerLeave | listenerResync | listenerKicked
  | recordingStart | recordingStop | pause | resume | lock | unlock | speakerRequest
  | recordingFailed | producerStall | heartbeat | destroyGrace | dtmfAction
  deriving DecidableEq

inductive ControlAction
  | none | hangup | requestSpeaker | energyUp | energyDown | leave | muteToggle | volUp | volDown
  | volReset | executeApp | lua | js | transfer | event
  deriving DecidableEq

structure Mflags where
  running : Bool
  ithread : Bool
  kicked : Bool
  ghost : Bool
  roleTransitionToSpeaker : Bool
  mutedSpeaker : Bool
  deriving DecidableEq

/-- The place of a member's `broadcast_speaker_input_run` thread; `absent` before
the thread exists. -/
inductive InputPc
  | absent | start | pinned | loop | unflag | stop | unpin | ended
  deriving DecidableEq

/-- `member_obj_t`.  `input_thread` tells whether the pointer is set, `audio`
whether `audio_buffer` and `audio_in_mutex` exist, `ready` is what
`switch_channel_ready` answers for the member's channel. -/
structure Member where
  id : ℕ
  role : MemberRole
  mflags : Mflags
  in_listener_bridge : Bool
  in_speaker_wait : Bool
  input_running : Bool
  input_thread : Bool
  input : InputPc
  audio : Bool
  ready : Bool
  speaker_since_us : ℕ
  deriving DecidableEq

def Member.zero : Member :=
  ⟨0, .listener, ⟨false, false, false, false, false, false⟩, false, false, false, false, .absent,
    false, true, 0⟩

inductive WriterPc
  | absent | start | loop | ended
  deriving DecidableEq

/-- A recording consumer with the place of its writer; a consumer whose pool has been
destroyed reads as it was left. -/
structure RecConsumer extends RecNode where
  writer : WriterPc
  freed : Bool
  deriving DecidableEq

/-- `play_fh`: NULL, a handle whose open failed, or an open handle. -/
inductive PlayHandle
  | null | failed | opened
  deriving DecidableEq

/-- The profile values used here; `moh` tells whether `silence_policy` is `moh:…`. -/
structure RoomProfile where
  max_listeners : ℕ
  speaker_override : Bool
  event_ring_size : ℕ
  moh : Bool
  auto_record : Bool

/-- `broadcast_obj_t`.  `destruct`, `locked`, `recording`, `paused` and `play_file` are
bits of `cflags`; `speaker_reader` holds while the producer is inside `speaker_lock`,
`hash_readers` counts the threads inside `hash_rwlock`; the events are the pending part of
the event ring, the oldest first; `fired` are the events handed to the core, the latest
first. -/
structure Broadcast where
  destruct : Bool
  locked : Bool
  recording : Bool
  paused : Bool
  play_file : Bool
  destroyed : Bool
  current_speaker : Option ℕ
  speaker_active_since : ℕ
  speaker_reader : Bool
  listeners : List ℕ
  listener_count : ℕ
  stat_peak_listeners : ℕ
  next_member_id : ℕ
  stat_listeners_joined : ℕ
  stat_listeners_left : ℕ
  events : List (EventType × ℕ)
  stat_events_dropped : ℕ
  fired : List (EventType × ℕ)
  play_fh : PlayHandle
  moh_open : Bool
  recording_head : Option ℕ
  next_recording : ℕ
  live_refs : ℤ
  producer_running : Bool
  producer_ended : Bool
  hash_readers : ℕ
  deleted : Bool
  pool_destroyed : Bool
  clock : ℕ
  member : ℕ → Member
  consumer : ℕ → RecConsumer

/-- A broadcast as `broadcast_create` leaves it: the creator's reference is stored
and the producer runs. -/
def Broadcast.create : Broadcast where
  destruct := false
  locked := false
  recording := false
  paused := false
  play_file := false
  destroyed := false
  current_speaker := none
  speaker_active_since := 0
  speaker_reader := false
  listeners := []
  listener_count := 0
  stat_peak_listeners := 0
  next_member_id := 0
  stat_listeners_joined := 0
  stat_listeners_left := 0
  events := []
  stat_events_dropped := 0
  fired := [(.broadcastCreate, 0)]
  play_fh := .null
  moh_open := false
  recording_head := none
  next_recording := 0
  live_refs := 1
  producer_running := true
  producer_ended := false
  hash_readers := 0
  deleted := false
  pool_destroyed := false
  clock := 1
  member := fun _ => .zero
  consumer := fun _ => ⟨⟨"", false, false, none⟩, .absent, false⟩

/-- How a thread resolves what its step leaves open: the outcome of a call to the
core, the expiry of a deadline, a dialled control, an event raised on the way, or
the members that a test on wall time selects. -/
inductive Choice
  | ok | fail | timeout
  | dtmf (act : ControlAction)
  | event
  | pick (l : List ℕ)
  deriving DecidableEq

/-- The state of a C function that runs in steps: at the place `k`, or returned
with a status. -/
inductive Progress (κ : Type)
  | run (k : κ)
  | ret (ok : Bool)

def Progress.resume {κ π : Type} (run : κ → π) (ret : Bool → π) : Progress κ → π
  | .run k => run k
  | .ret ok => ret ok

def Broadcast.modify (b : Broadcast) (m : ℕ) (f : Member → Member) : Broadcast :=
  { b with member := Function.update b.member m (f (b.member m)) }

def Broadcast.modifyFlags (b : Broadcast) (m : ℕ) (f : Mflags → Mflags) : Broadcast :=
  b.modify m fun x => { x with mflags := f x.mflags }

def Broadcast.modifyConsumer (b : Broadcast) (r : ℕ) (f : RecConsumer → RecConsumer) : Broadcast :=
  { b with consumer := Function.update b.consumer r (f (b.consumer r)) }

/-- `switch_channel_hangup` on the member's channel. -/
def Broadcast.hangup (b : Broadcast) (m : ℕ) : Broadcast := b.modify m fun x => { x with ready := false }

/-- `broadcast_enqueue_event`: nothing on a destroyed broadcast; when the ring is full
the oldest event is given up and the new one is not stored either. -/
def enqueueEvent (p : RoomProfile) (b : Broadcast) (type : EventType) (id : ℕ) : Broadcast :=
  if b.destroyed ∨ p.event_ring_size = 0 then b
  else if p.event_ring_size - 1 ≤ b.events.length then
    { b with events := b.events.tail, stat_events_dropped := b.stat_events_dropped + 1 }
  else { b with events := b.events ++ [(type, id)] }

def fireCriticalEvent (b : Broadcast) (type : EventType) (id : ℕ) : Broadcast :=
  { b with fired := (type, id) :: b.fired }

end ModBroadcast
