import Mathlib.Data.List.Basic
import ModBroadcast.Broadcast

namespace ModBroadcast

def Broadcast.heap (b : Broadcast) : RecHeap where
  recording_head := b.recording_head
  recording := b.recording
  consumer r := if r < b.next_recording then some (b.consumer r).toRecNode else none

def Broadcast.setHeap (b : Broadcast) (h : RecHeap) : Broadcast :=
  { b with
    recording_head := h.recording_head
    recording := h.recording
    consumer := fun r =>
      (h.consumer r).elim (b.consumer r) fun x => { b.consumer r with toRecNode := x } }

def Broadcast.chain (b : Broadcast) (p : Option ℕ) : List ℕ :=
  SinglyLinked.trail RecNode.next b.heap.consumer b.next_recording p

def Broadcast.recordings (b : Broadcast) : List ℕ := b.chain b.recording_head

inductive RecordStartPc
  | start
  | link (r : ℕ)
  | create (r : ℕ)
  | rollback (r : ℕ)
  | discard (r : ℕ)
  | flag
  | announce
  deriving DecidableEq

def recordStart (p : RoomProfile) (b : Broadcast) (target : String) (c : Choice) :
    RecordStartPc → Broadcast × Progress RecordStartPc
  | .start =>
    -- an empty target, or a pool or a file that cannot be had
    if target = "" ∨ c = .fail then (b, .ret false)
    else
      let r := b.next_recording
      ({ b with
        next_recording := r + 1
        consumer := Function.update b.consumer r ⟨⟨target, true, false, none⟩, .absent, false⟩ },
        .run (.link r))
  -- from here on the consumer can be taken out, its thread or not
  | .link r =>
    let b := b.modifyConsumer r fun x => { x with next := b.recording_head }
    ({ b with recording_head := some r }, .run (.create r))
  | .create r =>
    if c = .fail then (b, .run (.rollback r))
    else
      (b.modifyConsumer r fun x => { x with writer_thread := true, writer := .start }, .run .flag)
  -- stored into `recording_head` even when the consumer is no longer in front
  | .rollback r => ({ b with recording_head := (b.consumer r).next }, .run (.discard r))
  | .discard r => (b.modifyConsumer r fun x => { x with freed := true }, .ret false)
  | .flag => ({ b with recording := true }, .run .announce)
  | .announce => (enqueueEvent p b .recordingStart 0, .ret true)

inductive RecordStopPc
  | unlink
  | next (st : Bool) (stopped : Option ℕ)
  | test (st : Bool) (r : ℕ) (stopped : Option ℕ)
  | join (st : Bool) (r : ℕ) (stopped : Option ℕ)
  | report (st : Bool) (r : ℕ) (stopped : Option ℕ)
  | free (st : Bool) (r : ℕ) (stopped : Option ℕ)
  deriving DecidableEq

def recordStop (p : RoomProfile) (b : Broadcast) (target : Option String) :
    RecordStopPc → Option (Broadcast × Progress RecordStopPc)
  -- the walk and the clearing of the flag are one section of `recording_lock`
  | .unlink =>
    (stopWalk target b.next_recording ⟨b.heap, none, b.recording_head, none, false, []⟩).map
      fun w => (b.setHeap w.b.clearFlag, .run (.next w.st w.stopped))
  | .next st none => some (b, .ret st)
  | .next st (some r) =>
    some (b.modifyConsumer r fun x => { x with next := none },
      .run (.test st r (b.consumer r).next))
  | .test st r stopped =>
    some (b, .run (if (b.consumer r).writer_thread then .join st r stopped
      else .report st r stopped))
  | .join st r stopped =>
    if (b.consumer r).writer = .ended then some (b, .run (.report st r stopped)) else none
  | .report st r stopped => some (enqueueEvent p b .recordingStop 0, .run (.free st r stopped))
  | .free st r stopped =>
    some (b.modifyConsumer r fun x => { x with freed := true }, .run (.next st stopped))

def recordWriter (p : RoomProfile) (b : Broadcast) (r : ℕ) (c : Choice) : Option Broadcast :=
  match (b.consumer r).writer with
  | .start =>
    if c = .fail then
      some (b.modifyConsumer r fun x => { x with running := false, writer := .ended })
    else some (b.modifyConsumer r fun x => { x with writer := .loop })
  | .loop =>
    if (b.consumer r).running ∧ ¬ b.destroyed then
      -- the write error; without one the pass over the ring changes nothing here
      if c = .fail then
        let b := b.modifyConsumer r fun x => { x with running := false, writer := .ended }
        some (enqueueEvent p b .recordingStop 0)
      else some b
    else some (b.modifyConsumer r fun x => { x with writer := .ended })
  | _ => none

inductive RecordCall
  | idle
  | start (target : String) (k : RecordStartPc)
  | stop (target : Option String) (k : RecordStopPc)
  deriving DecidableEq

def recordCall (p : RoomProfile) (b : Broadcast) (c : Choice) :
    RecordCall → Option (Broadcast × RecordCall)
  | .idle => none
  | .start target k =>
    let (b, x) := recordStart p b target c k
    some (b, x.resume (.start target) fun _ => .idle)
  | .stop target k =>
    (recordStop p b target k).map fun x => (x.1, x.2.resume (.stop target) fun _ => .idle)

variable {p : RoomProfile} {b b' : Broadcast} {c : Choice} {r : ℕ}

inductive RecordWrites (p : RoomProfile) (b b' : Broadcast) : Prop
  | fields (recording_head : Option ℕ) (recording : Bool) (next_recording : ℕ)
      (consumer : ℕ → RecConsumer)
      (hb : b' = { b with recording_head, recording, next_recording, consumer })
  | event (e : EventType) (he : e = .recordingStart ∨ e = .recordingStop)
      (consumer : ℕ → RecConsumer)
      (hb : b' = enqueueEvent p { b with consumer } e 0)

theorem RecordWrites.refl (b : Broadcast) : RecordWrites p b b := .fields _ _ _ _ rfl

theorem recordStart_writes (target : String) (k : RecordStartPc) :
    RecordWrites p b (recordStart p b target c k).1 := by
  cases k with
  | start | create r =>
    simp only [recordStart]
    split_ifs
    · exact .refl b
    · exact .fields _ _ _ _ rfl
  | announce => exact .event _ (.inl rfl) _ rfl
  | _ => exact .fields _ _ _ _ rfl

theorem recordStop_writes {target : Option String} {k : RecordStopPc}
    {x : Broadcast × Progress RecordStopPc} (h : recordStop p b target k = some x) :
    RecordWrites p b x.1 := by
  cases k with
  | unlink =>
    obtain ⟨w, -, rfl⟩ := Option.map_eq_some_iff.mp h
    exact .fields _ _ _ _ rfl
  | next st stopped =>
    cases stopped <;> obtain rfl := Option.some.inj h
    · exact .refl b
    · exact .fields _ _ _ _ rfl
  | test =>
    obtain rfl := Option.some.inj h
    exact .refl b
  | join =>
    simp only [recordStop] at h
    split_ifs at h
    obtain rfl := Option.some.inj h
    exact .refl b
  | report =>
    obtain rfl := Option.some.inj h
    exact .event _ (.inr rfl) _ rfl
  | free =>
    obtain rfl := Option.some.inj h
    exact .fields _ _ _ _ rfl

theorem recordWriter_writes (h : recordWriter p b r c = some b') : RecordWrites p b b' := by
  simp only [recordWriter] at h
  split at h
  · split_ifs at h <;> obtain rfl := Option.some.inj h <;> exact .fields _ _ _ _ rfl
  · split_ifs at h <;> obtain rfl := Option.some.inj h
    · exact .event _ (.inr rfl) _ rfl
    · exact .refl b
    · exact .fields _ _ _ _ rfl
  · cases h

end ModBroadcast
