import Mathlib.Data.List.Perm.Subperm
import ModBroadcast.Threads

namespace ModBroadcast

open SinglyLinked

variable {p : RoomProfile} {b b' : Broadcast} {c : Choice} {q : Option ℕ} {r n : ℕ}
  {x y : RecordCall} {l : List ℕ}

def WriterPc.Alive (k : WriterPc) : Prop := k ≠ .absent ∧ k ≠ .ended

/-- The head of the list, the number of the next consumer, and the consumers. -/
structure Consumers where
  head : Option ℕ
  next : ℕ
  consumer : ℕ → RecConsumer

def Broadcast.consumers (b : Broadcast) : Consumers :=
  ⟨b.recording_head, b.next_recording, b.consumer⟩

def Consumers.modify (v : Consumers) (r : ℕ) (f : RecConsumer → RecConsumer) : Consumers :=
  { v with consumer := Function.update v.consumer r (f (v.consumer r)) }

theorem consumers_of_core (hb : b'.core = b.core) : b'.consumers = b.consumers := by
  have ht : b'.core.consumers = b.core.consumers := by rw [hb]
  exact ht

theorem heap_eq_some {z : RecNode} (h : b.heap.consumer r = some z) :
    r < b.next_recording ∧ z = (b.consumer r).toRecNode := by
  simp only [Broadcast.heap] at h
  split_ifs at h with hr
  exact ⟨hr, (Option.some.inj h).symm⟩

theorem heap_of_lt (hr : r < b.next_recording) :
    b.heap.consumer r = some (b.consumer r).toRecNode := if_pos hr

theorem chain_lt (h : Chain RecNode.next b.heap.consumer q l) (hr : r ∈ l) :
    r < b.next_recording := by
  obtain ⟨z, hz⟩ := h.allocated hr
  exact (heap_eq_some hz).1

/-- A list without repetition has no more consumers than have been made. -/
theorem chain_length (h : Chain RecNode.next b.heap.consumer q l) (hl : l.Nodup) :
    l.length ≤ b.next_recording := by
  have hsub : l ⊆ List.range b.next_recording := fun r hr => List.mem_range.mpr (chain_lt h hr)
  simpa using (hl.subperm hsub).length_le

theorem chain_eq (h : Chain RecNode.next b.heap.consumer q l) (hl : l.Nodup) : b.chain q = l :=
  h.trail_eq (chain_length h hl)

theorem chain_none (b : Broadcast) : b.chain none = [] := chain_eq rfl List.nodup_nil

/-- The consumer that a pointer leads to comes first, and then those that it leads to. -/
theorem chain_some (h : Chain RecNode.next b.heap.consumer (some r) l) :
    ∃ l', l = r :: l' ∧ Chain RecNode.next b.heap.consumer (b.consumer r).next l' := by
  obtain ⟨z, l', hz, hl, hc⟩ := h.tail
  rw [(heap_eq_some hz).2] at hc
  exact ⟨l', hl, hc⟩

/-- The pointer of a consumer on the list leads along those behind it. -/
theorem chain_after (hl : b.heap.Lists b.recordings) (hr : r ∈ b.recordings) :
    ∃ l₁ l₂, b.recordings = l₁ ++ r :: l₂ ∧ (r :: l₂).Nodup ∧
      Chain RecNode.next b.heap.consumer (b.consumer r).next l₂ ∧
      b.chain (b.consumer r).next = l₂ := by
  obtain ⟨z, l₁, l₂, hz, hrec, hc⟩ := hl.chain.after hr
  have hnd := hl.nodup
  rw [hrec] at hnd
  have hnd' := (List.nodup_append.mp hnd).2.1
  rw [(heap_eq_some hz).2] at hc
  exact ⟨l₁, l₂, hrec, hnd', hc, chain_eq hc (List.nodup_cons.mp hnd').2⟩

section Next

variable (hh : b'.recording_head = b.recording_head) (hn : b'.next_recording = b.next_recording)
  (hp : ∀ r, (b'.consumer r).next = (b.consumer r).next)

include hn hp

theorem heap_of_next (r : ℕ) :
    (b'.heap.consumer r).map RecNode.next = (b.heap.consumer r).map RecNode.next := by
  simp only [Broadcast.heap, hn]
  split_ifs
  · exact congrArg some (hp r)
  · rfl

theorem chain_of_next (q : Option ℕ) : b'.chain q = b.chain q := by
  rw [Broadcast.chain, Broadcast.chain, hn]
  exact trail_congr (heap_of_next hn hp) _ q

include hh in
theorem recordings_of_next : b'.recordings = b.recordings := by
  rw [Broadcast.recordings, hh, chain_of_next hn hp, Broadcast.recordings]

end Next

theorem recordings_of_consumers (hb : b'.consumers = b.consumers) :
    b'.recordings = b.recordings := by
  have hc : b'.consumer = b.consumer := congrArg Consumers.consumer hb
  exact recordings_of_next (congrArg Consumers.head hb) (congrArg Consumers.next hb)
    fun r => by rw [hc]

def RecordCall.current : RecordCall → Option ℕ
  | .stop _ (.test _ r _) | .stop _ (.join _ r _) | .stop _ (.report _ r _)
  | .stop _ (.free _ r _) => some r
  | _ => none

def RecordCall.stopped : RecordCall → Option ℕ
  | .stop _ (.next _ q) | .stop _ (.test _ _ q) | .stop _ (.join _ _ q) | .stop _ (.report _ _ q)
  | .stop _ (.free _ _ q) => q
  | _ => none

def RecordCall.hand (b : Broadcast) (x : RecordCall) : List ℕ :=
  x.current.toList ++ b.chain x.stopped

theorem hand_of_next (hn : b'.next_recording = b.next_recording)
    (hp : ∀ r, (b'.consumer r).next = (b.consumer r).next) (x : RecordCall) :
    x.hand b' = x.hand b := by
  rw [RecordCall.hand, chain_of_next hn hp, RecordCall.hand]

/-- The consumer that a `broadcast_record_start` works on and has created no writer for. -/
def RecordCall.made : RecordCall → Option ℕ
  | .start _ (.link r) | .start _ (.create r) | .start _ (.rollback r) | .start _ (.discard r) =>
    some r
  | _ => none

def RecordCall.Free : RecordCall → Prop
  | .idle | .start _ .start | .start _ .flag | .start _ .announce | .stop _ .unlink
  | .stop _ (.next _ none) => True
  | _ => False

def RecordCall.Walks : RecordCall → Prop
  | .stop _ .unlink => True
  | _ => False

theorem RecordCall.Free.none (h : x.Free) :
    x.current = none ∧ x.stopped = none ∧ x.made = none := by
  cases x with
  | idle => exact ⟨rfl, rfl, rfl⟩
  | start target k => cases k <;> first | exact ⟨rfl, rfl, rfl⟩ | exact h.elim
  | stop target k =>
    cases k with
    | unlink => exact ⟨rfl, rfl, rfl⟩
    | next st q =>
      cases q with
      | none => exact ⟨rfl, rfl, rfl⟩
      | some r => exact h.elim
    | _ => exact h.elim

theorem hand_of_free (h : x.Free) : x.hand b = [] := by
  obtain ⟨hc, hs, -⟩ := h.none
  rw [RecordCall.hand, hc, hs, chain_none]
  rfl

theorem hand_of_stopped (h : x.current = none) (hs : x.stopped = none) : x.hand b = [] := by
  rw [RecordCall.hand, h, hs, chain_none]
  rfl

def recordMatches (b : Broadcast) (target : Option String) (r : ℕ) : Bool :=
  stopMatches target (b.consumer r).target

/-- The walk has split the list into what it leaves and what `q` leads along. -/
structure Unlinked (b b' : Broadcast) (target : Option String) (q : Option ℕ) : Prop where
  next : b'.next_recording = b.next_recording
  left : Chain RecNode.next b'.heap.consumer b'.recording_head
    (b.recordings.filter fun r => !recordMatches b target r)
  taken : Chain RecNode.next b'.heap.consumer q
    (b.recordings.filter (recordMatches b target)).reverse
  others : ∀ r ∉ b.recordings, b'.consumer r = b.consumer r
  writer : ∀ r, (b'.consumer r).writer = (b.consumer r).writer ∧
    (b'.consumer r).writer_thread = (b.consumer r).writer_thread
  freed : ∀ r, (b'.consumer r).freed = (b.consumer r).freed
  running : ∀ r, (b'.consumer r).running =
    ((b.consumer r).running && r ∉ b.recordings.filter (recordMatches b target))
  recording : b'.recording = (b.recording && b'.recording_head.isSome)

inductive CallStep (b b' : Broadcast) (c : Choice) : RecordCall → RecordCall → Prop
  | quiet {x y : RecordCall} (hb : b'.consumers = b.consumers) (hx : x.Free)
      (hu : ¬ x.Walks) (hy : y.Free) : CallStep b b' c x y
  | make (target : String)
      (hb : b'.consumers = { b.consumers with
        next := b.next_recording + 1
        consumer := Function.update b.consumer b.next_recording
          ⟨⟨target, true, false, none⟩, .absent, false⟩ }) :
      CallStep b b' c (.start target .start) (.start target (.link b.next_recording))
  | link {target : String} {r : ℕ}
      (hh : b'.recording_head = some r) (hn : b'.next_recording = b.next_recording)
      (hb : b'.consumers.consumer =
        (b.consumers.modify r fun x => { x with next := b.recording_head }).consumer) :
      CallStep b b' c (.start target (.link r)) (.start target (.create r))
  | fail {target : String} {r : ℕ} (hb : b' = b) :
      CallStep b b' c (.start target (.create r)) (.start target (.rollback r))
  | create {target : String} {r : ℕ} (hc : c ≠ .fail)
      (hb : b'.consumers =
        b.consumers.modify r fun x => { x with writer_thread := true, writer := .start }) :
      CallStep b b' c (.start target (.create r)) (.start target .flag)
  | rollback {target : String} {r : ℕ}
      (hb : b'.consumers = { b.consumers with head := (b.consumer r).next }) :
      CallStep b b' c (.start target (.rollback r)) (.start target (.discard r))
  | discard {target : String} {r : ℕ}
      (hb : b'.consumers = b.consumers.modify r fun x => { x with freed := true }) :
      CallStep b b' c (.start target (.discard r)) .idle
  | unlink {target : Option String} {st : Bool} {q : Option ℕ} (hw : Unlinked b b' target q) :
      CallStep b b' c (.stop target .unlink) (.stop target (.next st q))
  | pop {target : Option String} {st : Bool} {r : ℕ}
      (hb : b'.consumers = b.consumers.modify r fun x => { x with next := none }) :
      CallStep b b' c (.stop target (.next st (some r)))
        (.stop target (.test st r (b.consumer r).next))
  | wait {target : Option String} {st : Bool} {r : ℕ} {q : Option ℕ} (hb : b' = b) :
      CallStep b b' c (.stop target (.test st r q)) (.stop target (.join st r q))
  | miss {target : Option String} {st : Bool} {r : ℕ} {q : Option ℕ}
      (hw : (b.consumer r).writer_thread = false) (hb : b' = b) :
      CallStep b b' c (.stop target (.test st r q)) (.stop target (.report st r q))
  | joined {target : Option String} {st : Bool} {r : ℕ} {q : Option ℕ}
      (hw : (b.consumer r).writer = .ended) (hb : b' = b) :
      CallStep b b' c (.stop target (.join st r q)) (.stop target (.report st r q))
  | report {target : Option String} {st : Bool} {r : ℕ} {q : Option ℕ}
      (hb : b'.consumers = b.consumers) :
      CallStep b b' c (.stop target (.report st r q)) (.stop target (.free st r q))
  | free {target : Option String} {st : Bool} {r : ℕ} {q : Option ℕ}
      (hb : b'.consumers = b.consumers.modify r fun x => { x with freed := true }) :
      CallStep b b' c (.stop target (.free st r q)) (.stop target (.next st q))

theorem setHeap_heap {h : RecHeap}
    (hh : ∀ r, (h.consumer r).isSome = decide (r < b.next_recording)) :
    (b.setHeap h).heap.consumer = h.consumer := by
  funext r
  have hr := hh r
  by_cases hlt : r < b.next_recording
  · simp only [hlt, decide_true, Option.isSome_iff_exists] at hr
    obtain ⟨z, hz⟩ := hr
    rw [heap_of_lt (show r < (b.setHeap h).next_recording from hlt), hz]
    simp [Broadcast.setHeap, hz]
  · simp only [hlt, decide_false, Option.isSome_eq_false_iff, Option.isNone_iff_eq_none] at hr
    rw [hr]
    exact if_neg hlt

theorem heap_stops {target : Option String} (hr : r < b.next_recording) :
    b.heap.stops target r = recordMatches b target r := by
  simp [RecHeap.stops, heap_of_lt hr, recordMatches]

theorem unlinked_of_walk {target : Option String} {w : StopWalk}
    (hl : b.heap.Lists b.recordings) (hw : w.Ended b.heap target b.recordings) :
    Unlinked b (b.setHeap w.b.clearFlag) target w.stopped := by
  have hmatch : b.recordings.filter (b.heap.stops target) =
      b.recordings.filter (recordMatches b target) :=
    List.filter_congr fun r hr => heap_stops (chain_lt hl.chain hr)
  have hleft : b.heap.left target b.recordings =
      b.recordings.filter fun r => !recordMatches b target r := by
    rw [hl.left_eq]
    exact List.filter_congr fun r hr => by rw [heap_stops (chain_lt hl.chain hr)]
  have hsome : ∀ r, (w.b.clearFlag.consumer r).isSome = decide (r < b.next_recording) := by
    intro r
    rw [RecHeap.clearFlag_consumer, ← Option.isSome_map (f := RecNode.fields), hw.fields r]
    by_cases hr : r < b.next_recording <;> simp [Broadcast.heap, hr]
  have hheap := setHeap_heap hsome
  have hconsumer : ∀ r, ((b.setHeap w.b.clearFlag).consumer r) =
      (w.b.consumer r).elim (b.consumer r) fun z => { b.consumer r with toRecNode := z } := by
    intro r
    rw [← RecHeap.clearFlag_consumer]
    rfl
  have hfields : ∀ r, ((b.setHeap w.b.clearFlag).consumer r).writer_thread =
      (b.consumer r).writer_thread ∧ ((b.setHeap w.b.clearFlag).consumer r).running =
        ((b.consumer r).running && r ∉ b.recordings.filter (recordMatches b target)) := by
    intro r
    have hf := hw.fields r
    rw [hconsumer r, ← hmatch]
    by_cases hr : r < b.next_recording
    · rw [heap_of_lt hr] at hf
      obtain ⟨z, hz, hzf⟩ := Option.map_eq_some_iff.mp hf
      simp only [RecNode.fields, Prod.mk.injEq] at hzf
      simp [hz, hzf.2.2, hzf.2.1]
    · have hno : r ∉ b.recordings := fun hm => hr (chain_lt hl.chain hm)
      rw [show b.heap.consumer r = none from if_neg hr, Option.map_none,
        Option.map_eq_none_iff] at hf
      simp [hf, hno]
  exact {
    next := rfl
    left := by
      show Chain _ _ w.b.clearFlag.recording_head _
      rw [hheap, RecHeap.clearFlag_consumer, RecHeap.clearFlag_head, ← hleft]
      exact hw.left
    taken := by
      rw [hheap, RecHeap.clearFlag_consumer, ← hmatch]
      exact hw.taken
    others := by
      intro r hr
      rw [hconsumer r, hw.others r hr, Broadcast.heap]
      dsimp only
      split_ifs <;> rfl
    writer := by
      refine fun r => ⟨?_, (hfields r).1⟩
      rw [hconsumer r]
      cases w.b.consumer r <;> rfl
    freed := by
      intro r
      rw [hconsumer r]
      cases w.b.consumer r <;> rfl
    running := fun r => (hfields r).2
    recording := by
      show w.b.clearFlag.recording = (b.recording && w.b.clearFlag.recording_head.isSome)
      rw [RecHeap.clearFlag_recording, RecHeap.clearFlag_head, hw.recording]
      rfl }

theorem recordCall_step (hl : b.heap.Lists b.recordings) (hs : recordCall p b c x = some (b', y)) :
    CallStep b b' c x y := by
  cases x with
  | idle => cases hs
  | start target k =>
    obtain ⟨rfl, rfl⟩ := Prod.mk.inj (Option.some.inj hs)
    cases k with
    | start =>
      by_cases hf : target = "" ∨ c = .fail
      · simp only [if_pos hf]
        exact .quiet rfl trivial id trivial
      · simp only [if_neg hf]
        exact .make target rfl
    | link r => exact .link rfl rfl rfl
    | create r =>
      by_cases hf : c = .fail
      · simp only [if_pos hf]
        exact .fail rfl
      · simp only [if_neg hf]
        exact .create hf rfl
    | rollback r => exact .rollback rfl
    | discard r => exact .discard rfl
    | flag => exact .quiet rfl trivial id trivial
    | announce => exact .quiet (consumers_of_core (enqueueEvent_core ..)) trivial id trivial
  | stop target k =>
    obtain ⟨z, hz, he⟩ := Option.map_eq_some_iff.mp hs
    obtain ⟨rfl, rfl⟩ := Prod.mk.inj he
    cases k with
    | unlink =>
      obtain ⟨w, hw, rfl⟩ := Option.map_eq_some_iff.mp hz
      obtain ⟨w', hw', hended⟩ := hl.walk target (chain_length hl.chain hl.nodup)
      obtain rfl := Option.some.inj (hw.symm.trans hw')
      exact .unlink (unlinked_of_walk hl hended)
    | next st q =>
      cases q with
      | none =>
        obtain rfl := Option.some.inj hz
        exact .quiet rfl trivial id trivial
      | some r =>
        obtain rfl := Option.some.inj hz
        exact .pop rfl
    | test st r q =>
      obtain rfl := Option.some.inj hz
      dsimp only
      split_ifs with hw
      · exact .wait rfl
      · exact .miss (Bool.eq_false_iff.mpr hw) rfl
    | join st r q =>
      simp only [recordStop] at hz
      split_ifs at hz with hw
      obtain rfl := Option.some.inj hz
      exact .joined hw rfl
    | report st r q =>
      obtain rfl := Option.some.inj hz
      exact .report (consumers_of_core (enqueueEvent_core ..))
    | free st r q =>
      obtain rfl := Option.some.inj hz
      exact .free rfl

/-- A rollback finds its consumer on the list, or a pointer that leads to nothing. -/
def RecordCall.RollsBack (x : RecordCall) (b : Broadcast) : Prop :=
  ∀ target r, x = .start target (.rollback r) → r ∈ b.recordings ∨ (b.consumer r).next = none

section Step

theorem CallStep.next_le (h : CallStep b b' c x y) : b.next_recording ≤ b'.next_recording := by
  cases h with
  | make target hb =>
    rw [show b'.next_recording = b.next_recording + 1 from congrArg Consumers.next hb]
    exact Nat.le_succ _
  | quiet hb | create _ hb | rollback hb | discard hb | pop hb | report hb | free hb =>
    exact Nat.le_of_eq (congrArg Consumers.next hb).symm
  | link _ hn => exact Nat.le_of_eq hn.symm
  | fail hb | wait hb | miss _ hb | joined _ hb => exact Nat.le_of_eq (by rw [hb])
  | unlink hw => exact Nat.le_of_eq hw.next.symm

theorem consumer_modify {f : RecConsumer → RecConsumer}
    (hb : b'.consumers.consumer = (b.consumers.modify n f).consumer) (r : ℕ) :
    b'.consumer r = if r = n then f (b.consumer n) else b.consumer r := by
  rw [show b'.consumer = Function.update b.consumer n (f (b.consumer n)) from hb,
    Function.update_apply]

/-- A writer and its pointer stay, unless the consumer has just been made or its thread is
created. -/
theorem CallStep.writer (h : CallStep b b' c x y) (r : ℕ) :
    (b'.consumer r).writer = (b.consumer r).writer ∧
        (b'.consumer r).writer_thread = (b.consumer r).writer_thread ∨
      r = b.next_recording ∧ (b'.consumer r).writer = .absent ∧
        (b'.consumer r).writer_thread = false ∨
      (∃ target, x = .start target (.create r)) ∧ c ≠ .fail ∧ y.made = none ∧
        (b'.consumer r).writer = .start ∧ (b'.consumer r).writer_thread = true := by
  have of_modify : ∀ {n f}, b'.consumers.consumer = (b.consumers.modify n f).consumer →
      (∀ x, (f x).writer = x.writer ∧ (f x).writer_thread = x.writer_thread) →
      (b'.consumer r).writer = (b.consumer r).writer ∧
        (b'.consumer r).writer_thread = (b.consumer r).writer_thread := by
    intro n f hb hf
    rw [consumer_modify hb]
    split_ifs with hr
    · rw [hr]
      exact hf (b.consumer n)
    · exact ⟨rfl, rfl⟩
  cases h with
  | quiet hb | rollback hb | report hb =>
    rw [show b'.consumer = b.consumer from congrArg Consumers.consumer hb]
    exact .inl ⟨rfl, rfl⟩
  | fail hb | wait hb | miss _ hb | joined _ hb =>
    rw [hb]
    exact .inl ⟨rfl, rfl⟩
  | make target hb =>
    rw [show b'.consumer = Function.update b.consumer b.next_recording
      ⟨⟨target, true, false, none⟩, .absent, false⟩ from congrArg Consumers.consumer hb]
    by_cases hr : r = b.next_recording
    · subst hr
      exact .inr (.inl ⟨rfl, by simp, by simp⟩)
    · exact .inl (by simp [hr])
  | @create target n hc hb =>
    rw [consumer_modify (congrArg Consumers.consumer hb)]
    by_cases hr : r = n
    · subst hr
      exact .inr (.inr ⟨⟨target, rfl⟩, hc, rfl, by simp, by simp⟩)
    · exact .inl (by simp [hr])
  | discard hb | pop hb | free hb =>
    exact .inl (of_modify (congrArg Consumers.consumer hb) fun _ => ⟨rfl, rfl⟩)
  | link _ _ hb => exact .inl (of_modify hb fun _ => ⟨rfl, rfl⟩)
  | unlink hw => exact .inl (hw.writer r)

/-- What has been destroyed or told to stop remains so. -/
theorem CallStep.keeps (h : CallStep b b' c x y) (hr : r < b.next_recording) :
    ((b.consumer r).freed = true → (b'.consumer r).freed = true) ∧
      ((b.consumer r).running = false → (b'.consumer r).running = false) := by
  have of_modify : ∀ {n f}, b'.consumers.consumer = (b.consumers.modify n f).consumer →
      (∀ x, (x.freed = true → (f x).freed = true) ∧ (f x).running = x.running) →
      ((b.consumer r).freed = true → (b'.consumer r).freed = true) ∧
        ((b.consumer r).running = false → (b'.consumer r).running = false) := by
    intro n f hb hf
    rw [consumer_modify hb]
    split_ifs with hn
    · obtain ⟨h₁, h₂⟩ := hf (b.consumer n)
      rw [hn, h₂]
      exact ⟨h₁, id⟩
    · exact ⟨id, id⟩
  cases h with
  | quiet hb | rollback hb | report hb =>
    rw [show b'.consumer = b.consumer from congrArg Consumers.consumer hb]
    exact ⟨id, id⟩
  | fail hb | wait hb | miss _ hb | joined _ hb =>
    rw [hb]
    exact ⟨id, id⟩
  | make target hb =>
    rw [show b'.consumer = Function.update b.consumer b.next_recording
      ⟨⟨target, true, false, none⟩, .absent, false⟩ from congrArg Consumers.consumer hb]
    simp [Nat.ne_of_lt hr]
  | create _ hb | pop hb =>
    exact of_modify (congrArg Consumers.consumer hb) fun _ => ⟨id, rfl⟩
  | link _ _ hb => exact of_modify hb fun _ => ⟨id, rfl⟩
  | discard hb | free hb =>
    exact of_modify (congrArg Consumers.consumer hb) fun _ => ⟨fun _ => rfl, rfl⟩
  | unlink hw =>
    rw [hw.freed, hw.running]
    exact ⟨id, fun h => by rw [h, Bool.false_and]⟩

theorem CallStep.made (h : CallStep b b' c x y) (hy : y.made = some r) :
    x.made = some r ∨ r = b.next_recording ∧ b'.next_recording = b.next_recording + 1 ∧
      (b'.consumer r).writer = .absent ∧ (b'.consumer r).writer_thread = false := by
  cases h with
  | quiet hb hx hu hy' => cases hy'.none.2.2.symm.trans hy
  | make target hb =>
    obtain rfl : b.next_recording = r := Option.some.inj hy
    have hc : b'.consumer = Function.update b.consumer b.next_recording
      ⟨⟨target, true, false, none⟩, .absent, false⟩ := congrArg Consumers.consumer hb
    exact .inr ⟨rfl, congrArg Consumers.next hb, by simp [hc], by simp [hc]⟩
  | link | fail | rollback => exact .inl hy
  | _ => cases hy

theorem CallStep.linking {target : String} (h : CallStep b b' c x (.start target (.link r))) :
    r = b.next_recording ∧ x.made = none := by
  cases h with
  | quiet hb hx hu hy => exact hy.elim
  | make => exact ⟨rfl, rfl⟩

def RecordCall.writes (b : Broadcast) : RecordCall → List ℕ
  | .start _ (.link r) | .stop _ (.next _ (some r)) => [r]
  | .stop _ .unlink => b.recordings
  | _ => []

theorem CallStep.kept (h : CallStep b b' c x y) (hr : r < b.next_recording)
    (hw : r ∉ x.writes b) :
    (b'.heap.consumer r).map RecNode.next = (b.heap.consumer r).map RecNode.next := by
  suffices hnext : (b'.consumer r).next = (b.consumer r).next by
    rw [heap_of_lt hr, heap_of_lt (Nat.lt_of_lt_of_le hr h.next_le), Option.map_some, hnext]
    rfl
  have of_modify : ∀ {n f}, b'.consumers.consumer = (b.consumers.modify n f).consumer →
      (r = n → ∀ x, (f x).next = x.next) → (b'.consumer r).next = (b.consumer r).next := by
    intro n f hb hf
    rw [consumer_modify hb]
    split_ifs with hn
    · rw [hf hn, hn]
    · rfl
  cases h with
  | quiet hb | rollback hb | report hb =>
    rw [show b'.consumer = b.consumer from congrArg Consumers.consumer hb]
  | fail hb | wait hb | miss _ hb | joined _ hb => rw [hb]
  | make target hb =>
    rw [show b'.consumer = Function.update b.consumer b.next_recording
      ⟨⟨target, true, false, none⟩, .absent, false⟩ from congrArg Consumers.consumer hb,
      Function.update_of_ne (Nat.ne_of_lt hr)]
  | create _ hb | discard hb | free hb =>
    exact of_modify (congrArg Consumers.consumer hb) fun _ _ => rfl
  | pop hb =>
    exact of_modify (congrArg Consumers.consumer hb) fun hn =>
      absurd (List.mem_singleton.mpr hn) hw
  | link _ _ hb => exact of_modify hb fun hn => absurd (List.mem_singleton.mpr hn) hw
  | unlink hu => rw [hu.others r hw]

theorem CallStep.chain (h : CallStep b b' c x y) (hc : Chain RecNode.next b.heap.consumer q l)
    (hw : ∀ r ∈ l, r ∉ x.writes b) : Chain RecNode.next b'.heap.consumer q l :=
  hc.congr_next fun r hr => h.kept (chain_lt hc hr) (hw r hr)

def RecordCall.listed (b : Broadcast) : RecordCall → List ℕ
  | .start _ (.link r) => r :: b.recordings
  | .start _ (.rollback r) => b.chain (b.consumer r).next
  | .stop target .unlink => b.recordings.filter fun r => !recordMatches b target r
  | _ => b.recordings

def RecordCall.handed (b : Broadcast) : RecordCall → List ℕ
  | .stop target .unlink => (b.recordings.filter (recordMatches b target)).reverse
  | .stop _ (.free _ _ q) => b.chain q
  | x => x.hand b

end Step

/-- The list and the hands of the calls are disjoint; what a start has made has no writer, and
is nowhere before it is linked. -/
structure Tidy {κ : Type} (b : Broadcast) (call : κ → RecordCall) : Prop where
  lists : b.heap.Lists b.recordings
  chains : ∀ u, Chain RecNode.next b.heap.consumer (call u).stopped (b.chain (call u).stopped)
  known : ∀ u r, r ∈ (call u).hand b → r < b.next_recording
  nodup : ∀ u, ((call u).hand b).Nodup
  apart : ∀ u v r, r ∈ (call u).hand b → r ∈ (call v).hand b → u = v
  held : ∀ u r, r ∈ (call u).hand b → r ∉ b.recordings
  made : ∀ u r, (call u).made = some r → r < b.next_recording ∧
    (b.consumer r).writer = .absent ∧ (b.consumer r).writer_thread = false
  fresh : ∀ u target r, call u = .start target (.link r) →
    r ∉ b.recordings ∧ ∀ v, r ∉ (call v).hand b
  alone : ∀ u v r, (call u).made = some r → (call v).made = some r → u = v
  thread : ∀ r, (b.consumer r).writer.Alive →
    (b.consumer r).writer_thread = true ∧ r < b.next_recording

section Tidy

variable {κ : Type} {call : κ → RecordCall} {u v : κ}

theorem Tidy.of_free (hb : b.recording_head = none) (hc : ∀ r, (b.consumer r).writer = .absent)
    (hf : ∀ u, (call u).Free) : Tidy b call := by
  have hrec : b.recordings = [] := by
    rw [Broadcast.recordings, hb, chain_none]
  have hmade : ∀ {u r}, (call u).made ≠ some r := fun h => by cases (hf _).none.2.2.symm.trans h
  have hhand : ∀ {u r}, r ∉ (call u).hand b := fun h => by
    rw [hand_of_free (hf _)] at h
    cases h
  refine ⟨⟨?_, ?_⟩, fun u => ?_, fun u r h => absurd h hhand, fun u => ?_, fun u v r h =>
    absurd h hhand, fun u r h => absurd h hhand, fun u r h => absurd h hmade,
    fun u target r h => absurd ?_ (hmade (u := u) (r := r)), fun u v r h => absurd h hmade,
    fun r h => absurd (hc r) h.1⟩
  · rw [hrec, show b.heap.recording_head = none from hb]
    rfl
  · rw [hrec]
    exact List.nodup_nil
  · rw [(hf u).none.2.1, chain_none]
    rfl
  · rw [hand_of_free (hf u)]
    exact List.nodup_nil
  · rw [h]
    rfl

theorem Tidy.listed_lt (hi : Tidy b call) (hr : r ∈ b.recordings) : r < b.next_recording :=
  chain_lt hi.lists.chain hr

/-- The consumer in front is what a rollback takes off the list. -/
theorem Tidy.rolled_back (hi : Tidy b call) (hh : b.recordings.head? = some r) :
    b.recordings = r :: b.chain (b.consumer r).next ∧ r ∉ b.chain (b.consumer r).next := by
  obtain ⟨l₁, l₂, hrec, hnd, -, heq⟩ := chain_after hi.lists (List.mem_of_head? hh)
  have hnil : l₁ = [] := by
    cases l₁ with
    | nil => rfl
    | cons k l₁ =>
      obtain rfl : k = r := by simpa [hrec] using hh
      have hall := hi.lists.nodup
      rw [hrec] at hall
      simp at hall
  rw [heq, hrec, hnil]
  exact ⟨rfl, (List.nodup_cons.mp hnd).1⟩

theorem Tidy.rest_nodup (hi : Tidy b call) (u : κ) : (b.chain (call u).stopped).Nodup :=
  (List.nodup_append.mp (hi.nodup u)).2.1

/-- A stop has the consumer in hand that it is about to take up. -/
theorem Tidy.popped (hi : Tidy b call) {target : Option String} {st : Bool}
    (hx : call u = .stop target (.next st (some r))) : r ∈ (call u).hand b := by
  have hc := hi.chains u
  rw [hx] at hc ⊢
  obtain ⟨l', hl, -⟩ := chain_some hc
  show r ∈ b.chain (some r)
  exact hl ▸ List.mem_cons_self

/-- Nobody else has a consumer whose pointer the step stores. -/
theorem Tidy.writes (hi : Tidy b call) (hr : r ∈ (call u).writes b) (hv : v ≠ u) :
    r ∉ (call v).hand b := by
  generalize hx : call u = x at hr
  cases x with
  | idle => cases hr
  | start target k =>
    cases k with
    | link n =>
      obtain rfl := List.mem_singleton.mp hr
      exact (hi.fresh u target r hx).2 v
    | _ => cases hr
  | stop target k =>
    cases k with
    | unlink => exact fun h => hi.held v r h hr
    | next st q =>
      cases q with
      | none => cases hr
      | some n =>
        obtain rfl := List.mem_singleton.mp hr
        exact fun h => hv (hi.apart v u r h (hi.popped hx))
    | _ => cases hr

theorem Tidy.rest_kept (hi : Tidy b call) (h : CallStep b b' c (call u) y) (hv : v ≠ u) :
    Chain RecNode.next b'.heap.consumer (call v).stopped (b.chain (call v).stopped) ∧
      b'.chain (call v).stopped = b.chain (call v).stopped := by
  have hc := h.chain (hi.chains v) fun r hr hw =>
    hi.writes hw hv (List.mem_append_right _ hr)
  exact ⟨hc, chain_eq hc (hi.rest_nodup v)⟩

/-- The other calls keep what they have. -/
theorem Tidy.hand_kept (hi : Tidy b call) (h : CallStep b b' c (call u) y) (hv : v ≠ u) :
    (call v).hand b' = (call v).hand b := by
  rw [RecordCall.hand, (hi.rest_kept h hv).2, RecordCall.hand]

theorem Tidy.list_step (hi : Tidy b call) (h : CallStep b b' c (call u) y)
    (hr : (call u).RollsBack b) :
    Chain RecNode.next b'.heap.consumer b'.recording_head ((call u).listed b) ∧
      ((call u).listed b).Nodup := by
  have hl := hi.lists
  -- a step that stores no pointer of the list
  have still : b'.recording_head = b.recording_head → (∀ r ∈ b.recordings, r ∉ (call u).writes b) →
      (call u).listed b = b.recordings →
      Chain RecNode.next b'.heap.consumer b'.recording_head ((call u).listed b) ∧
        ((call u).listed b).Nodup := by
    intro hh hw he
    rw [hh, he]
    exact ⟨h.chain hl.chain hw, hl.nodup⟩
  generalize hx : call u = x at h hr still
  cases h with
  | quiet hb hf hu =>
    refine still (congrArg Consumers.head hb) ?_ ?_ <;> cases x with
    | idle => first | exact fun _ _ => List.not_mem_nil | rfl
    | start target k => cases k <;> first | exact fun _ _ => List.not_mem_nil | rfl | exact hf.elim
    | stop target k =>
      cases k with
      | unlink => exact (hu trivial).elim
      | next st q => cases q <;> first | exact fun _ _ => List.not_mem_nil | rfl | exact hf.elim
      | _ => exact hf.elim
  | make _ hb | create _ hb | discard hb | report hb | free hb =>
    exact still (congrArg Consumers.head hb) (fun _ _ => List.not_mem_nil) rfl
  | fail hb | wait hb | miss _ hb | joined _ hb =>
    exact still (by rw [hb]) (fun _ _ => List.not_mem_nil) rfl
  | @pop target st n hb =>
    refine still (congrArg Consumers.head hb) (fun r hmem hn => ?_) rfl
    obtain rfl := List.mem_singleton.mp hn
    exact hi.held u r (hi.popped hx) hmem
  | @link target n hh hnext hb =>
    obtain ⟨hn, -⟩ := hi.fresh u target n hx
    have hlt := (hi.made u n (by rw [hx]; rfl)).1
    refine ⟨⟨hh, (b'.consumer n).toRecNode, ?_, ?_⟩,
      List.nodup_cons.mpr ⟨hn, hl.nodup⟩⟩
    · exact heap_of_lt (Nat.lt_of_lt_of_eq hlt hnext.symm)
    · rw [consumer_modify hb, if_pos rfl]
      have hstep : CallStep b b' c (.start target (.link n)) (.start target (.create n)) :=
        .link hh hnext hb
      refine hstep.chain hl.chain fun r hr hw => hn ?_
      rwa [List.mem_singleton.mp hw] at hr
  | @rollback target n hb =>
    have hstep : CallStep b b' c (.start target (.rollback n)) (.start target (.discard n)) :=
      .rollback hb
    rw [show b'.recording_head = (b.consumer n).next from congrArg Consumers.head hb]
    show Chain _ _ _ (b.chain _) ∧ (b.chain _).Nodup
    rcases hr target n rfl with hmem | hnone
    · obtain ⟨l₁, l₂, -, hnd, hc, heq⟩ := chain_after hl hmem
      rw [heq]
      exact ⟨hstep.chain hc fun _ _ => List.not_mem_nil, (List.nodup_cons.mp hnd).2⟩
    · rw [hnone, chain_none]
      exact ⟨rfl, List.nodup_nil⟩
  | unlink hw => exact ⟨hw.left, hl.nodup.filter _⟩

theorem Tidy.recordings_eq (hi : Tidy b call) (h : CallStep b b' c (call u) y)
    (hr : (call u).RollsBack b) : b'.recordings = (call u).listed b := by
  obtain ⟨hc, hnd⟩ := hi.list_step h hr
  exact chain_eq hc hnd

theorem Tidy.hand_step (hi : Tidy b call) (h : CallStep b b' c (call u) y) :
    Chain RecNode.next b'.heap.consumer y.stopped (b'.chain y.stopped) ∧
      y.hand b' = (call u).handed b := by
  have hchain := hi.chains u
  have hnd := hi.nodup u
  have hrest := hi.rest_nodup u
  have none : y.current = none → y.stopped = none → (call u).handed b = [] →
      Chain RecNode.next b'.heap.consumer y.stopped (b'.chain y.stopped) ∧
        y.hand b' = (call u).handed b := by
    intro hc hs he
    rw [hand_of_stopped hc hs, hs, chain_none, he]
    exact ⟨rfl, rfl⟩
  -- a step that stores no pointer
  have still : (call u).writes b = [] → y.stopped = (call u).stopped →
      (call u).handed b = y.current.toList ++ b.chain (call u).stopped →
      Chain RecNode.next b'.heap.consumer y.stopped (b'.chain y.stopped) ∧
        y.hand b' = (call u).handed b := by
    intro hw hs he
    have hc := h.chain hchain fun r _ => by
      rw [hw]
      exact List.not_mem_nil
    have heq := chain_eq hc hrest
    rw [RecordCall.hand, hs, heq, he]
    exact ⟨hc, rfl⟩
  generalize hx : call u = x at h none still hchain hnd hrest
  cases h with
  | quiet hb hf hu hy =>
    obtain ⟨hc, hs, -⟩ := hy.none
    refine none hc hs ?_
    have hhand := hand_of_free (b := b) hf
    cases x with
    | idle => exact hhand
    | start target k => exact hhand
    | stop target k =>
      cases k with
      | unlink => exact (hu trivial).elim
      | free => exact hf.elim
      | _ => exact hhand
  | make | link | fail | create | rollback | discard =>
    exact none rfl rfl (hand_of_stopped rfl rfl)
  | wait | miss | joined | report | free => exact still rfl rfl rfl
  | @unlink target st q hw =>
    have hnd := List.nodup_reverse.mpr (hi.lists.nodup.filter (recordMatches b target))
    have heq := chain_eq hw.taken hnd
    exact ⟨heq.symm ▸ hw.taken, heq⟩
  | @pop target st n hb =>
    obtain ⟨l', hl, hc⟩ := chain_some hchain
    have hstep : CallStep b b' c (.stop target (.next st (some n)))
        (.stop target (.test st n (b.consumer n).next)) := .pop hb
    have hnd' : (n :: l').Nodup := hl ▸ hrest
    have hc' := hstep.chain hc fun r hr hw =>
      (List.nodup_cons.mp hnd').1 (List.mem_singleton.mp hw ▸ hr)
    have heq := chain_eq hc' (List.nodup_cons.mp hnd').2
    refine ⟨heq.symm ▸ hc', ?_⟩
    show n :: b'.chain (b.consumer n).next = b.chain (some n)
    rw [heq]
    exact hl.symm

theorem Tidy.handed_mem (hr : r ∈ (call u).handed b) : r ∈ (call u).hand b ∨
    ∃ target, call u = .stop target .unlink ∧
      r ∈ b.recordings.filter (recordMatches b target) := by
  generalize call u = x at hr ⊢
  cases x with
  | idle | start => exact .inl hr
  | stop target k =>
    cases k with
    | unlink => exact .inr ⟨target, rfl, List.mem_reverse.mp hr⟩
    | free => exact .inl (List.mem_append_right _ hr)
    | _ => exact .inl hr

theorem Tidy.handed_nodup (hi : Tidy b call) (u : κ) : ((call u).handed b).Nodup := by
  have hnd := hi.nodup u
  have hrest := hi.rest_nodup u
  generalize call u = x at hnd hrest
  cases x with
  | idle | start => exact hnd
  | stop target k =>
    cases k with
    | unlink => exact List.nodup_reverse.mpr (hi.lists.nodup.filter _)
    | free => exact hrest
    | _ => exact hnd

theorem Tidy.listed_mem (hi : Tidy b call) (hr : (call u).RollsBack b)
    (hm : r ∈ (call u).listed b) :
    r ∈ b.recordings ∨ ∃ target, call u = .start target (.link r) := by
  generalize call u = x at hr hm
  cases x with
  | idle => exact .inl hm
  | start target k =>
    cases k with
    | link n =>
      rcases List.mem_cons.mp hm with rfl | hm
      · exact .inr ⟨target, rfl⟩
      · exact .inl hm
    | rollback n =>
      have hm' : r ∈ b.chain (b.consumer n).next := hm
      rcases hr target n rfl with hmem | hnone
      · obtain ⟨l₁, l₂, hrec, -, -, heq⟩ := chain_after hi.lists hmem
        rw [heq] at hm'
        left
        rw [hrec]
        simp [hm']
      · rw [hnone, chain_none] at hm'
        cases hm'
    | _ => exact .inl hm
  | stop target k =>
    cases k with
    | unlink => exact .inl (List.mem_of_mem_filter hm)
    | _ => exact .inl hm

/-- What a call holds after its step is not on the list. -/
theorem Tidy.handed_held (hi : Tidy b call) (hr : (call u).RollsBack b) {v : κ}
    (hv : r ∈ (call u).handed b ∨ v ≠ u ∧ r ∈ (call v).hand b) : r ∉ (call u).listed b := by
  intro hl
  have hhand : ∀ w, r ∉ (call w).hand b := by
    intro w hw
    rcases hi.listed_mem hr hl with hl | ⟨target, hu⟩
    · exact hi.held w r hw hl
    · exact (hi.fresh u target r hu).2 w hw
  rcases hv with hv | ⟨-, hv⟩
  · rcases Tidy.handed_mem hv with hv | ⟨target, hu, hm⟩
    · exact hhand u hv
    · rw [hu] at hl
      have hno := List.of_mem_filter hl
      rw [List.of_mem_filter hm] at hno
      cases hno
  · exact hhand v hv

variable [DecidableEq κ]

theorem Tidy.hand_update (hi : Tidy b call) (h : CallStep b b' c (call u) y) (v : κ) :
    (Function.update call u y v).hand b' =
      if v = u then (call u).handed b else (call v).hand b := by
  split_ifs with hv
  · rw [hv, Function.update_self]
    exact (hi.hand_step h).2
  · rw [Function.update_of_ne hv]
    exact hi.hand_kept h hv

/-- What a call has after a step was its own, or is what the walk of that step has taken out. -/
theorem Tidy.hand_mem (hi : Tidy b call) (h : CallStep b b' c (call u) y)
    (hv : r ∈ (Function.update call u y v).hand b') : r ∈ (call v).hand b ∨
      v = u ∧ ∃ target, call u = .stop target .unlink ∧
        r ∈ b.recordings.filter (recordMatches b target) := by
  rw [hi.hand_update h] at hv
  split_ifs at hv with hvu
  · subst hvu
    exact (Tidy.handed_mem hv).imp_right fun h => ⟨rfl, h⟩
  · exact .inl hv

/-- What a call is making after a step of the call `u`. -/
theorem CallStep.made_by (h : CallStep b b' c (call u) y)
    (hv : (Function.update call u y v).made = some r) :
    (call v).made = some r ∨ v = u ∧ r = b.next_recording ∧
      b'.next_recording = b.next_recording + 1 ∧ (b'.consumer r).writer = .absent ∧
      (b'.consumer r).writer_thread = false := by
  by_cases hvu : v = u
  · subst hvu
    rw [Function.update_self] at hv
    exact (h.made hv).imp_right fun h => ⟨rfl, h⟩
  · rw [Function.update_of_ne hvu] at hv
    exact .inl hv

/-- A consumer that is being made has no writer. -/
theorem Tidy.made_step (hi : Tidy b call) (h : CallStep b b' c (call u) y)
    (hv : (Function.update call u y v).made = some r) :
    r < b'.next_recording ∧ (b'.consumer r).writer = .absent ∧
      (b'.consumer r).writer_thread = false := by
  rcases h.made_by hv with hm | ⟨-, rfl, hn, hw⟩
  · obtain ⟨hlt, hw, ht⟩ := hi.made v r hm
    refine ⟨Nat.lt_of_lt_of_le hlt h.next_le, ?_⟩
    rcases h.writer r with ⟨hw', ht'⟩ | ⟨rfl, -⟩ | ⟨⟨target, hx⟩, -, hno, -⟩
    · exact ⟨hw'.trans hw, ht'.trans ht⟩
    · exact absurd hlt (Nat.lt_irrefl _)
    · obtain rfl := hi.alone v u r hm (by rw [hx]; rfl)
      rw [Function.update_self] at hv
      cases hno.symm.trans hv
  · exact ⟨hn ▸ Nat.lt_succ_self _, hw⟩

/-- No two calls make the same consumer. -/
theorem Tidy.alone_step (hi : Tidy b call) (h : CallStep b b' c (call u) y) {v' : κ}
    (hv : (Function.update call u y v).made = some r)
    (hv' : (Function.update call u y v').made = some r) : v = v' := by
  have hnew : ∀ {v}, (call v).made ≠ some b.next_recording := fun hv =>
    Nat.lt_irrefl _ (hi.made _ _ hv).1
  rcases h.made_by hv with h₁ | ⟨rfl, rfl, -⟩ <;> rcases h.made_by hv' with h₂ | ⟨rfl, hn, -⟩
  · exact hi.alone _ _ r h₁ h₂
  · exact absurd (hn ▸ h₁) hnew
  · exact absurd h₂ hnew
  · rfl

theorem Tidy.fresh_step (hi : Tidy b call) (h : CallStep b b' c (call u) y)
    (hr : (call u).RollsBack b) {target : String}
    (hv : Function.update call u y v = .start target (.link r)) :
    r ∉ (call u).listed b ∧ ∀ w, r ∉ (Function.update call u y w).hand b' := by
  -- a consumer that is on no list and in no hand, and is not linked in this step
  suffices hno : r ∉ b.recordings ∧ (∀ w, r ∉ (call w).hand b) ∧
      ∀ target, call u ≠ .start target (.link r) by
    obtain ⟨hrec, hhand, hlink⟩ := hno
    refine ⟨fun hm => ?_, fun w hw => ?_⟩
    · exact (hi.listed_mem hr hm).elim hrec fun ⟨target, hu⟩ => hlink target hu
    · rcases hi.hand_mem h hw with hw | ⟨-, target, -, hm⟩
      · exact hhand w hw
      · exact hrec (List.mem_of_mem_filter hm)
  by_cases hvu : v = u
  · subst hvu
    rw [Function.update_self] at hv
    rw [hv] at h
    obtain ⟨rfl, hm⟩ := h.linking
    refine ⟨fun hr => Nat.lt_irrefl _ (hi.listed_lt hr),
      fun w hw => Nat.lt_irrefl _ (hi.known w _ hw), fun target hu => ?_⟩
    rw [hu] at hm
    cases hm
  · rw [Function.update_of_ne hvu] at hv
    obtain ⟨hrec, hhand⟩ := hi.fresh v target r hv
    refine ⟨hrec, hhand, fun target' hu => hvu (hi.alone v u r ?_ ?_)⟩
    · rw [hv]
      rfl
    · rw [hu]
      rfl

theorem Tidy.step (hi : Tidy b call) (h : CallStep b b' c (call u) y)
    (hr : (call u).RollsBack b) : Tidy b' (Function.update call u y) where
  lists := by
    obtain ⟨hc, hnd⟩ := hi.list_step h hr
    constructor
    · rw [hi.recordings_eq h hr]
      exact hc
    · rw [hi.recordings_eq h hr]
      exact hnd
  chains v := by
    by_cases hv : v = u
    · rw [hv, Function.update_self]
      exact (hi.hand_step h).1
    · rw [Function.update_of_ne hv, (hi.rest_kept h hv).2]
      exact (hi.rest_kept h hv).1
  known v r hv := by
    refine Nat.lt_of_lt_of_le ?_ h.next_le
    rcases hi.hand_mem h hv with hv | ⟨-, target, -, hm⟩
    · exact hi.known v r hv
    · exact hi.listed_lt (List.mem_of_mem_filter hm)
  nodup v := by
    rw [hi.hand_update h]
    split_ifs
    · exact hi.handed_nodup u
    · exact hi.nodup v
  apart v w r hv hw := by
    rcases hi.hand_mem h hv with h₁ | ⟨h₁, _, -, h₂⟩ <;>
      rcases hi.hand_mem h hw with h₃ | ⟨h₃, _, -, h₄⟩
    · exact hi.apart v w r h₁ h₃
    · exact absurd (List.mem_of_mem_filter h₄) (hi.held v r h₁)
    · exact absurd (List.mem_of_mem_filter h₂) (hi.held w r h₃)
    · exact h₁.trans h₃.symm
  held v r hv := by
    rw [hi.hand_update h] at hv
    rw [hi.recordings_eq h hr]
    split_ifs at hv with hvu
    · exact hi.handed_held hr (v := u) (.inl hv)
    · exact hi.handed_held hr (.inr ⟨hvu, hv⟩)
  made v r hv := hi.made_step h hv
  fresh v target r hv := by
    rw [hi.recordings_eq h hr]
    exact hi.fresh_step h hr hv
  alone v w r hv hw := hi.alone_step h hv hw
  thread r ha := by
    rcases h.writer r with ⟨hw, ht⟩ | ⟨-, hw, -⟩ | ⟨⟨target, hx⟩, -, -, -, ht⟩
    · rw [hw] at ha
      obtain ⟨hthread, hlt⟩ := hi.thread r ha
      exact ⟨ht.trans hthread, Nat.lt_of_lt_of_le hlt h.next_le⟩
    · exact absurd hw ha.1
    · refine ⟨ht, Nat.lt_of_lt_of_le (hi.made u r ?_).1 h.next_le⟩
      rw [hx]
      rfl

omit [DecidableEq κ]

/-- A step that stores no pointer, and after which no more writers run than before. -/
theorem Tidy.frame (hi : Tidy b call) (hh : b'.recording_head = b.recording_head)
    (hn : b'.next_recording = b.next_recording)
    (hp : ∀ r, (b'.consumer r).next = (b.consumer r).next)
    (ht : ∀ r, (b'.consumer r).writer_thread = (b.consumer r).writer_thread)
    (hm : ∀ r, (b.consumer r).writer = .absent → (b'.consumer r).writer = .absent)
    (ha : ∀ r, (b'.consumer r).writer.Alive → (b.consumer r).writer.Alive) : Tidy b' call := by
  have hchain := chain_of_next hn hp
  have hrec := recordings_of_next hh hn hp
  have hhand := hand_of_next hn hp
  constructor
  case lists =>
    rw [hrec]
    refine ⟨?_, hi.lists.nodup⟩
    rw [show b'.heap.recording_head = b.heap.recording_head from hh]
    exact hi.lists.chain.congr_next fun r _ => heap_of_next hn hp r
  case chains =>
    simp only [hchain]
    exact fun u => (hi.chains u).congr_next fun r _ => heap_of_next hn hp r
  case known =>
    simp only [hhand, hn]
    exact hi.known
  case nodup =>
    simp only [hhand]
    exact hi.nodup
  case apart =>
    simp only [hhand]
    exact hi.apart
  case held =>
    simp only [hhand, hrec]
    exact hi.held
  case made =>
    intro u r hr
    obtain ⟨hlt, hw, hth⟩ := hi.made u r hr
    exact ⟨hn ▸ hlt, hm r hw, (ht r).trans hth⟩
  case fresh =>
    simp only [hhand, hrec]
    exact hi.fresh
  case alone => exact hi.alone
  case thread =>
    intro r hr
    obtain ⟨hth, hlt⟩ := hi.thread r (ha r hr)
    exact ⟨(ht r).trans hth, hn ▸ hlt⟩

theorem Tidy.congr (hi : Tidy b call) (hb : b'.consumers = b.consumers) : Tidy b' call := by
  have hc : b'.consumer = b.consumer := congrArg Consumers.consumer hb
  refine hi.frame (congrArg Consumers.head hb) (congrArg Consumers.next hb) ?_ ?_ ?_ ?_ <;>
    intro r <;> rw [hc]
  · exact id
  · exact id

structure WriterStep (b b' : Broadcast) (r : ℕ) : Prop where
  alive : (b.consumer r).writer.Alive
  consumers : ∃ k running, (running = true → (b.consumer r).running = true) ∧
    b'.consumers = b.consumers.modify r fun x => { x with running := running, writer := k }

theorem WriterStep.head (h : WriterStep b b' r) : b'.recording_head = b.recording_head := by
  obtain ⟨k, running, -, hb⟩ := h.consumers
  exact congrArg Consumers.head hb

theorem WriterStep.next (h : WriterStep b b' r) : b'.next_recording = b.next_recording := by
  obtain ⟨k, running, -, hb⟩ := h.consumers
  exact congrArg Consumers.next hb

theorem WriterStep.of_ne (h : WriterStep b b' r) (hn : n ≠ r) : b'.consumer n = b.consumer n := by
  obtain ⟨k, running, -, hb⟩ := h.consumers
  rw [consumer_modify (congrArg Consumers.consumer hb), if_neg hn]

/-- All but `running` and the place of the writer stays. -/
theorem WriterStep.fields (h : WriterStep b b' r) (n : ℕ) :
    (b'.consumer n).next = (b.consumer n).next ∧
      (b'.consumer n).writer_thread = (b.consumer n).writer_thread ∧
      (b'.consumer n).freed = (b.consumer n).freed ∧
      ((b.consumer n).running = false → (b'.consumer n).running = false) := by
  obtain ⟨k, running, hrun, hb⟩ := h.consumers
  rw [consumer_modify (congrArg Consumers.consumer hb)]
  split_ifs with hn
  · rw [hn]
    refine ⟨rfl, rfl, rfl, fun hf => ?_⟩
    exact Bool.eq_false_iff.mpr fun ht => Bool.eq_false_iff.mp hf (hrun ht)
  · exact ⟨rfl, rfl, rfl, id⟩

theorem WriterStep.alive_of (h : WriterStep b b' r) (ha : (b'.consumer n).writer.Alive) :
    (b.consumer n).writer.Alive := by
  by_cases hn : n = r
  · exact hn ▸ h.alive
  · rwa [h.of_ne hn] at ha

theorem WriterStep.recordings (h : WriterStep b b' r) : b'.recordings = b.recordings :=
  recordings_of_next h.head h.next fun n => (h.fields n).1

theorem WriterStep.chain (h : WriterStep b b' r) (q : Option ℕ) : b'.chain q = b.chain q :=
  chain_of_next h.next (fun n => (h.fields n).1) q

/-- A writer that runs is not one that is still to be created. -/
theorem WriterStep.absent (h : WriterStep b b' r) (hw : (b.consumer n).writer = .absent) :
    b'.consumer n = b.consumer n :=
  h.of_ne fun hn => h.alive.1 (hn ▸ hw)

theorem Tidy.writer (hi : Tidy b call) (h : WriterStep b b' r) : Tidy b' call :=
  hi.frame h.head h.next (fun n => (h.fields n).1) (fun n => (h.fields n).2.1)
    (fun n hn => by rw [h.absent hn, hn]) fun _ => h.alive_of

theorem recordWriter_step (h : recordWriter p b r c = some b') : WriterStep b b' r ∨ b' = b := by
  have alive : ∀ {k : WriterPc}, (b.consumer r).writer = k → k.Alive →
      (b.consumer r).writer.Alive := fun hk ha => by rwa [← hk] at ha
  simp only [recordWriter] at h
  split at h
  case h_1 hw =>
    have ha := alive hw ⟨by decide, by decide⟩
    split_ifs at h <;> obtain rfl := Option.some.inj h
    · exact .inl ⟨ha, .ended, false, by rintro ⟨⟩, rfl⟩
    · exact .inl ⟨ha, .loop, _, id, rfl⟩
  case h_2 hw =>
    have ha := alive hw ⟨by decide, by decide⟩
    split_ifs at h <;> obtain rfl := Option.some.inj h
    · exact .inl ⟨ha, .ended, false, by rintro ⟨⟩, consumers_of_core (enqueueEvent_core ..)⟩
    · exact .inr rfl
    · exact .inl ⟨ha, .ended, _, id, rfl⟩
  case h_3 => cases h

end Tidy

end ModBroadcast
