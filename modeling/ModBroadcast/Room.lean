import ModBroadcast.Api
import ModBroadcast.App
import ModBroadcast.Automaton

namespace ModBroadcast

/-- One broadcast from the end of its creation on, with any number of sessions and API threads, the
producer, the input threads, the recording writers, the event emitter and the housekeeping thread. -/
structure Room where
  b : Broadcast
  session : ℕ → SessionPc
  api : ℕ → ApiPc
  producer : ProducerPc
  emitter : EmitterPc
  housekeeping : HousekeepingPc

inductive RoomAction
  | join (m : ℕ) (j : JoinParams)
  | session (m : ℕ) (c : Choice)
  | call (t : ℕ) (k : ApiCommand)
  | shutdown (t : ℕ)
  | api (t : ℕ) (c : Choice)
  | producer (c : Choice)
  | input (m : ℕ) (c : Choice)
  | writer (r : ℕ) (c : Choice)
  | emitter
  | housekeeping (c : Choice)
  | hangup (m : ℕ)
  | elapse
  deriving DecidableEq

/-- The session of member 0 has just created the broadcast. -/
def Room.init : Room where
  b := .create
  session := Function.update (fun _ => .outside) 0 .created
  api := fun _ => .idle
  producer := .init
  emitter := .idle
  housekeeping := .idle

/-- One step of the room.  `call` is the test of `broadcast_find_and_ref`, `shutdown` the
round of `broadcast_destroy_all` that takes this broadcast. -/
def roomStep (p : RoomProfile) (r : Room) : RoomAction → Option Room
  | .join m j => (joinSession p r.b j (r.session m)).map fun x =>
    { r with b := x.1, session := Function.update r.session m x.2 }
  | .session m c => (appFunction p r.b m c (r.session m)).map fun x =>
    { r with b := x.1, session := Function.update r.session m x.2 }
  | .call t k =>
    if r.api t = .idle then
      (findBroadcast r.b).map fun b => { r with b := b, api := Function.update r.api t (.pin k) }
    else none
  | .shutdown t =>
    -- neither `destroyed` nor `BFLAG_DESTRUCT` is tested here
    if r.api t = .idle ∧ r.b.hash_readers = 0 ∧ ¬ r.b.deleted then
      some { r with
        b := { r.b with live_refs := r.b.live_refs + 1 }
        api := Function.update r.api t (.destroy false false .flag) }
    else none
  | .api t c => (apiDispatch p r.b c (r.api t)).map fun x =>
    { r with b := x.1, api := Function.update r.api t x.2 }
  | .producer c => (producerRun p r.b c r.producer).map fun x =>
    { r with b := x.1, producer := x.2 }
  | .input m c => (speakerInput p r.b m c (r.b.member m).input).map fun x =>
    { r with b := x.1.modify m fun y => { y with input := x.2 } }
  | .writer i c => (recordWriter p r.b i c).map fun b => { r with b := b }
  | .emitter => (eventEmitter r.b r.emitter).map fun x => { r with b := x.1, emitter := x.2 }
  | .housekeeping c => (runtimeHousekeeping p r.b c r.housekeeping).map fun x =>
    { r with b := x.1, housekeeping := x.2 }
  | .hangup m => some { r with b := r.b.hangup m }
  | .elapse => some { r with b := { r.b with clock := r.b.clock + 1 } }

end ModBroadcast
