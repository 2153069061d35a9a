import ModBroadcast.Recording
import ModBroadcast.Speaker

namespace ModBroadcast

def hangupByUuid (b : Broadcast) (m : ℕ) (c : Choice) : Broadcast :=
  if c = .fail then b else b.hangup m

def markKicked (b : Broadcast) : List ℕ → Broadcast
  | [] => b
  | m :: l => markKicked (b.modifyFlags m fun f => { f with kicked := true }) l

/-- The listeners that fit into the uuid snapshot; without memory for a larger one
these are the first 512. -/
def uuidSnapshot (b : Broadcast) (c : Choice) : List ℕ :=
  if c = .fail then b.listeners.take 512 else b.listeners

def kickAllMark (p : RoomProfile) (b : Broadcast) : List ℕ → Broadcast
  | [] => b
  | m :: l =>
    let b := b.modifyFlags m fun f => { f with kicked := true }
    kickAllMark p (enqueueEvent p b .listenerKicked (b.member m).id) l

def stopPlay (b : Broadcast) : Broadcast := { b with play_fh := .null, play_file := false }

/-- The opening of a file under `play_mutex`.  A handle whose open failed stays in
`play_fh` in the API command; the announcement takes it out again. -/
def startPlay (b : Broadcast) (keep : Bool) (c : Choice) : Broadcast :=
  if c = .fail then { b with play_fh := if keep then .failed else .null }
  else { b with play_fh := .opened, play_file := true }

inductive DestroyPc
  | flag
  | grace | announce | ungrace
  | mark
  | stopPlay | closeMoh
  | stopRecords (k : RecordStopPc)
  | slot
  | stop (old : ℕ) (k : StopInputPc)
  | snapshot (old : Option ℕ)
  | hangup (old : Option ℕ) (l : List ℕ)
  | waitCount (old : Option ℕ)
  | waitSlot (old : Option ℕ) (lc : ℕ)
  | waitOld (old : Option ℕ) (lc : ℕ) (has_sp : Bool)
  | refs
  | stopProducer | joinProducer
  | delete | fire | pool
  deriving DecidableEq

/-- `broadcast_destroy_ex`; `grace` tells whether `grace_ms > 0`, `announcement` whether
a file was named. -/
def destroyRoom (p : RoomProfile) (grace announcement : Bool) (b : Broadcast) (c : Choice) :
    DestroyPc → Option (Broadcast × Progress DestroyPc)
  | .flag => some ({ b with destruct := true }, .run (if grace then .grace else .mark))
  | .grace => some (enqueueEvent p b .destroyGrace 0, .run .announce)
  | .announce => some (if announcement then startPlay b false c else b, .run .ungrace)
  | .ungrace => some (ModBroadcast.stopPlay b, .run .mark)
  -- the listeners and the producer go on until here
  | .mark => some ({ b with destroyed := true }, .run .stopPlay)
  -- each resource is cleaned up once, before anyone is waited for
  | .stopPlay => some (ModBroadcast.stopPlay b, .run .closeMoh)
  | .closeMoh => some ({ b with moh_open := false }, .run (.stopRecords .unlink))
  | .stopRecords k => (recordStop p b none k).map fun x =>
    (x.1, x.2.resume (fun k => .run (.stopRecords k)) fun _ => .run .slot)
  | .slot =>
    if b.speaker_reader then none
    else some ({ b with current_speaker := none },
      .run (match b.current_speaker with
        | some o => .stop o .clear
        | none => .snapshot none))
  | .stop old k => (speakerStopInput b old k).map fun x =>
    (x.1, x.2.resume (fun k => .run (.stop old k)) fun _ => .run (.snapshot (some old)))
  | .snapshot old =>
    let l := uuidSnapshot b c
    some (markKicked b l, .run (.hangup old l))
  | .hangup old [] => some (b, .run (.waitCount old))
  | .hangup old (m :: l) => some (hangupByUuid b m c, .run (.hangup old l))
  -- the wait for the members: three reads under two locks, then the decision
  | .waitCount old =>
    if c = .timeout then some (b, .run .refs) else some (b, .run (.waitSlot old b.listener_count))
  | .waitSlot old lc => some (b, .run (.waitOld old lc b.current_speaker.isSome))
  | .waitOld old lc has_sp =>
    let speaker_wait : Bool := match old with
      | some o => (b.member o).in_speaker_wait
      | none => false
    some (b, .run (if lc = 0 ∧ ¬ has_sp ∧ ¬ speaker_wait then .refs else .waitCount old))
  -- one reference is the caller's own
  | .refs => some (b, .run (if b.live_refs ≤ 1 ∨ c = .timeout then .stopProducer else .refs))
  | .stopProducer => some ({ b with producer_running := false }, .run .joinProducer)
  | .joinProducer => if b.producer_ended then some (b, .run .delete) else none
  | .delete => if b.hash_readers ≠ 0 then none else some ({ b with deleted := true }, .run .fire)
  | .fire => some (fireCriticalEvent b .broadcastDestroy 0, .run .pool)
  | .pool => some ({ b with pool_destroyed := true }, .ret true)

end ModBroadcast
