import ModBroadcast.Automaton
import ModBroadcast.Members
import ModBroadcast.StampedRing

namespace ModBroadcast

open Automaton

structure EvtMsg where
  type : EventType
  member_id : ℕ
  seq : ℕ
  data : List UInt8
  deriving DecidableEq

/-- The arguments of `broadcast_enqueue_event`; no data is the empty string. -/
structure EventCall where
  type : EventType
  member_id : ℕ
  data : List UInt8
  deriving DecidableEq

def uint64Sub (a b : ℕ) : ℕ := (a + (2 ^ 64 - b % 2 ^ 64)) % 2 ^ 64

/-- `switch_copy_string` into a field of 256 bytes. -/
def copyData (data : List UInt8) : List UInt8 := data.take 255

inductive EmitterPlace
  | idle | drain
  | fire (e : EvtMsg)
  deriving DecidableEq

/-- The event fields of `broadcast_obj_t`, with the emitter.  The indices count calls; their difference
is the one of the source, on words of 64 bits. -/
structure EventQueue where
  event_ring : ℕ → EvtMsg
  event_prod_idx : ℕ
  event_cons_idx : ℕ
  stat_events_dropped : ℕ
  destroyed : Bool
  emitter : EmitterPlace

/-- `broadcast_create` takes a zeroed ring from the pool. -/
def EventQueue.create : EventQueue :=
  ⟨fun _ => ⟨.broadcastCreate, 0, 0, []⟩, 0, 0, 0, false, .idle⟩

def EventQueue.full (size : UInt32) (q : EventQueue) : Prop :=
  size.toNat - 1 ≤ uint64Sub q.event_prod_idx q.event_cons_idx

instance (size : UInt32) (q : EventQueue) : Decidable (q.full size) :=
  inferInstanceAs (Decidable (_ ≤ _))

def EventQueue.enqueue (size : UInt32) (q : EventQueue) (e : EventCall) : EventQueue :=
  if q.destroyed then q
  else if size = 0 then q
  else if q.full size then
    { q with
      stat_events_dropped := (q.stat_events_dropped + 1) % 2 ^ 32
      event_cons_idx := q.event_cons_idx + 1 }
  else
    let prod := q.event_prod_idx
    { q with
      event_ring := Function.update q.event_ring (prod % size.toNat)
        ⟨e.type, e.member_id, prod, copyData e.data⟩
      event_prod_idx := prod + 1 }

def EventQueue.emit (size : UInt32) (q : EventQueue) : EventQueue :=
  match q.emitter with
  | .idle => if q.destroyed then q else { q with emitter := .drain }
  | .drain =>
    if q.event_cons_idx < q.event_prod_idx then
      { q with
        emitter := .fire (q.event_ring (q.event_cons_idx % size.toNat))
        event_cons_idx := q.event_cons_idx + 1 }
    else { q with emitter := .idle }
  | .fire _ => { q with emitter := .drain }

inductive QueueAction
  | enqueue (e : EventCall)
  | emitter
  | destroy
  deriving DecidableEq

def queueStep (size : UInt32) (q : EventQueue) : QueueAction → Option EventQueue
  | .enqueue e => some (q.enqueue size e)
  | .emitter => some (q.emit size)
  | .destroy => some { q with destroyed := true }

variable {size : UInt32} {q r : EventQueue} {a : QueueAction} {e : EvtMsg}
  {h : List (EventQueue × QueueAction)}

def enqueueCalls : List (EventQueue × QueueAction) → ℕ
  | [] => 0
  | (q, .enqueue _) :: h => if q.destroyed then enqueueCalls h else enqueueCalls h + 1
  | _ :: h => enqueueCalls h

/-- The events that the emitter has fired, the latest first. -/
def firedEvents : List (EventQueue × QueueAction) → List EvtMsg
  | [] => []
  | (q, .emitter) :: h =>
    match q.emitter with
    | .fire e => e :: firedEvents h
    | _ => firedEvents h
  | _ :: h => firedEvents h

def EmitterPlace.inHand : EmitterPlace → List EvtMsg
  | .fire e => [e]
  | _ => []

def emittedEvents (h : List (EventQueue × QueueAction)) (q : EventQueue) : List EvtMsg :=
  q.emitter.inHand ++ firedEvents h

def EventQueue.pending (q : EventQueue) : ℕ := uint64Sub q.event_prod_idx q.event_cons_idx

def EventQueue.pendingEvents (size : UInt32) (q : EventQueue) : List EvtMsg :=
  (List.range (q.event_prod_idx - q.event_cons_idx)).map fun i =>
    q.event_ring ((q.event_cons_idx + i) % size.toNat)

/-- The calls are the events emitted, pending and dropped. -/
def Conserves (h : List (EventQueue × QueueAction)) (q : EventQueue) : Prop :=
  enqueueCalls h = (emittedEvents h q).length + q.pending + q.stat_events_dropped

def Overflows (size : UInt32) (q : EventQueue) : QueueAction → Prop
  | .enqueue _ => q.destroyed = false ∧ q.full size
  | _ => False

instance (size : UInt32) (q : EventQueue) (a : QueueAction) : Decidable (Overflows size q a) := by
  cases a <;> unfold Overflows <;> infer_instance

/-- A call that finds the ring full gives up the oldest event for its own. -/
def KeepsNewest (size : UInt32) (q : EventQueue) : QueueAction → Prop
  | .enqueue e => Overflows size q (.enqueue e) →
    (q.enqueue size e).pendingEvents size = (q.pendingEvents size).tail ++
      [⟨e.type, e.member_id, q.event_prod_idx, copyData e.data⟩]
  | _ => True

theorem uint64Sub_eq {a b : ℕ} (hb : b ≤ a) (ha : a < b + 2 ^ 64) : uint64Sub a b = a - b := by
  unfold uint64Sub
  omega

inductive QueueStep (size : UInt32) (q r : EventQueue) : QueueAction → Prop
  | ignore (a : QueueAction) (ha : ∀ e, a = .enqueue e → q.destroyed = true)
      (he : a = .emitter → q.emitter = .idle ∨
        q.emitter = .drain ∧ q.event_prod_idx ≤ q.event_cons_idx)
      (hr : r.event_ring = q.event_ring ∧ r.event_prod_idx = q.event_prod_idx ∧
        r.event_cons_idx = q.event_cons_idx ∧ r.stat_events_dropped = q.stat_events_dropped)
      (hemit : r.emitter.inHand = q.emitter.inHand) : QueueStep size q r a
  | drop (e : EventCall) (hd : q.destroyed = false) (hfull : q.full size)
      (hr : r = { q with
        stat_events_dropped := (q.stat_events_dropped + 1) % 2 ^ 32
        event_cons_idx := q.event_cons_idx + 1 }) : QueueStep size q r (.enqueue e)
  | store (e : EventCall) (hd : q.destroyed = false) (hfull : ¬ q.full size)
      (hr : r = { q with
        event_ring := Function.update q.event_ring (q.event_prod_idx % size.toNat)
          ⟨e.type, e.member_id, q.event_prod_idx, copyData e.data⟩
        event_prod_idx := q.event_prod_idx + 1 }) : QueueStep size q r (.enqueue e)
  | take (hlt : q.event_cons_idx < q.event_prod_idx) (hq : q.emitter = .drain)
      (hr : r = { q with
        emitter := .fire (q.event_ring (q.event_cons_idx % size.toNat))
        event_cons_idx := q.event_cons_idx + 1 }) : QueueStep size q r .emitter
  | fire (e : EvtMsg) (hq : q.emitter = .fire e) (hr : r = { q with emitter := .drain }) :
      QueueStep size q r .emitter

theorem queueStep_cases (hsize : 0 < size) (hs : queueStep size q a = some r) :
    QueueStep size q r a := by
  cases a with
  | enqueue e =>
    obtain rfl := Option.some.inj hs
    have hne : size ≠ 0 := by
      rintro rfl
      exact absurd (UInt32.lt_iff_toNat_lt.mp hsize) (by decide)
    unfold EventQueue.enqueue
    by_cases hd : q.destroyed = true
    · rw [if_pos hd]
      exact .ignore _ (fun _ _ => hd) (by simp) ⟨rfl, rfl, rfl, rfl⟩ rfl
    · rw [if_neg hd, if_neg hne]
      by_cases hfull : q.full size
      · rw [if_pos hfull]
        exact .drop e (by simpa using hd) hfull rfl
      · rw [if_neg hfull]
        exact .store e (by simpa using hd) hfull rfl
  | emitter =>
    obtain rfl := Option.some.inj hs
    unfold EventQueue.emit
    cases hq : q.emitter with
    | idle =>
      dsimp only
      split_ifs
      · exact .ignore _ (by simp) (fun _ => .inl hq) ⟨rfl, rfl, rfl, rfl⟩ rfl
      · exact .ignore _ (by simp) (fun _ => .inl hq) ⟨rfl, rfl, rfl, rfl⟩ (by rw [hq]; rfl)
    | drain =>
      dsimp only
      split_ifs with hlt
      · exact .take hlt hq rfl
      · exact .ignore _ (by simp) (fun _ => .inr ⟨hq, Nat.le_of_not_lt hlt⟩)
          ⟨rfl, rfl, rfl, rfl⟩ (by rw [hq]; rfl)
    | fire e => exact .fire e hq rfl
  | destroy =>
    obtain rfl := Option.some.inj hs
    exact .ignore _ (by simp) (by simp) ⟨rfl, rfl, rfl, rfl⟩ rfl

/-- The event is what the call that was assigned its number has asked for. -/
def WrittenBy (size : UInt32) (h : List (EventQueue × QueueAction)) (e : EvtMsg) : Prop :=
  ∃ q c, (q, .enqueue c) ∈ h ∧ q.destroyed = false ∧ ¬ q.full size ∧ q.event_prod_idx = e.seq ∧
    e = ⟨c.type, c.member_id, q.event_prod_idx, copyData c.data⟩

/-- The ring holds the pending events of `log`, the list of all events stored; what the
emitter has taken out came from there, in order. -/
structure QueueSound (size : UInt32) (h : List (EventQueue × QueueAction)) (q : EventQueue)
    (log : List EvtMsg) : Prop where
  length : log.length = q.event_prod_idx
  records : StampedRing.Records size.toNat (fun i => ((q.event_ring i).seq, q.event_ring i)) log
  written : ∀ e ∈ log, WrittenBy size h e
  single : size.toNat = 1 → q.event_prod_idx = 0
  bounds : size.toNat ≠ 1 → q.event_cons_idx ≤ q.event_prod_idx ∧
    q.event_prod_idx ≤ q.event_cons_idx + (size.toNat - 1)
  taken : ∀ e ∈ emittedEvents h q, e.seq < q.event_cons_idx ∧ e ∈ log
  ordered : (emittedEvents h q).Pairwise fun e e' => e'.seq < e.seq

/-- Storing an event writes its number as the stamp of the slot. -/
theorem stamped_update {N n : ℕ} (ring : ℕ → EvtMsg) (hn : e.seq = n) :
    (fun i => ((Function.update ring (n % N) e i).seq, Function.update ring (n % N) e i)) =
      StampedRing.write N (fun i => ((ring i).seq, ring i)) n e := by
  funext i
  unfold StampedRing.write Function.update
  dsimp only
  split_ifs <;> simp [hn]

theorem QueueSound.create : QueueSound size [] .create [] where
  length := rfl
  records := .nil _
  written e he := by cases he
  single _ := rfl
  bounds _ := ⟨Nat.le_refl 0, Nat.zero_le _⟩
  taken e he := by cases he
  ordered := List.Pairwise.nil

theorem WrittenBy.cons (hw : WrittenBy size h e) (x : EventQueue × QueueAction) :
    WrittenBy size (x :: h) e := by
  obtain ⟨q, c, hmem, hrest⟩ := hw
  exact ⟨q, c, List.mem_cons_of_mem x hmem, hrest⟩

variable {log : List EvtMsg}

theorem QueueSound.not_full (hi : QueueSound size h q log) (hsize : 0 < size) :
    q.full size ↔ size.toNat = 1 ∨ q.event_cons_idx + (size.toNat - 1) = q.event_prod_idx := by
  have hlt := size.toNat_lt
  have hpos : 0 < size.toNat := UInt32.lt_iff_toNat_lt.mp hsize
  unfold EventQueue.full
  by_cases hone : size.toNat = 1
  · simp [hone]
  · obtain ⟨hle, hge⟩ := hi.bounds hone
    rw [uint64Sub_eq hle (by omega)]
    omega

/-- What the emitter has emitted changes only when it takes an event. -/
theorem emittedEvents_cons (hs : QueueStep size q r a) : emittedEvents ((q, a) :: h) r =
    if a = .emitter ∧ q.emitter = .drain ∧ q.event_cons_idx < q.event_prod_idx then
      q.event_ring (q.event_cons_idx % size.toNat) :: emittedEvents h q
    else emittedEvents h q := by
  cases hs with
  | ignore a _ he _ hemit =>
    unfold emittedEvents
    rw [hemit]
    cases a with
    | enqueue c => rw [if_neg (by simp)]; rfl
    | destroy => rw [if_neg (by simp)]; rfl
    | emitter =>
      obtain hq | ⟨hq, hle⟩ := he rfl
      · rw [if_neg (by simp [hq])]
        simp [firedEvents, hq]
      · rw [if_neg (by simp [Nat.not_lt.mpr hle])]
        simp [firedEvents, hq]
  | drop e hd hfull hr =>
    rw [hr, if_neg (by simp)]
    rfl
  | store e hd hfull hr =>
    rw [hr, if_neg (by simp)]
    rfl
  | take hlt hq hr =>
    rw [hr, if_pos ⟨rfl, hq, hlt⟩]
    simp [emittedEvents, firedEvents, hq, EmitterPlace.inHand]
  | fire e hq hr =>
    rw [hr, if_neg (by simp [hq])]
    simp [emittedEvents, firedEvents, hq, EmitterPlace.inHand]

theorem firedEvents_sublist (h : List (EventQueue × QueueAction)) (q : EventQueue) :
    (firedEvents h).Sublist (emittedEvents h q) := List.sublist_append_right _ _

/-- The event found under the consumer index of a ring that is not empty. -/
theorem QueueSound.oldest (hi : QueueSound size h q log)
    (hlt : q.event_cons_idx < q.event_prod_idx) :
    (q.event_ring (q.event_cons_idx % size.toNat)).seq = q.event_cons_idx ∧
      q.event_ring (q.event_cons_idx % size.toNat) ∈ log := by
  have hone : size.toNat ≠ 1 := fun h1 => absurd (hi.single h1) (by omega)
  obtain ⟨-, hge⟩ := hi.bounds hone
  have hk : q.event_cons_idx < log.length := hi.length ▸ hlt
  have hseq := (hi.records.stamp_iff _ hk).mpr (by rw [hi.length]; omega)
  exact ⟨hseq, List.mem_of_getElem? (hi.records.value _ hk hseq)⟩

theorem QueueSound.step (hsize : 0 < size) (hi : QueueSound size h q log)
    (hs : QueueStep size q r a) : ∃ log', QueueSound size ((q, a) :: h) r log' := by
  have hpos : 0 < size.toNat := UInt32.lt_iff_toNat_lt.mp hsize
  have hem := emittedEvents_cons (h := h) hs
  cases hs with
  | ignore a ha he hr hemit =>
    obtain ⟨hring, hprod, hcons, -⟩ := hr
    have hem : emittedEvents ((q, a) :: h) r = emittedEvents h q := by
      rw [hem, if_neg]
      rintro ⟨rfl, hq, hlt⟩
      obtain hq' | ⟨-, hle⟩ := he rfl
      · rw [hq] at hq'
        cases hq'
      · omega
    refine ⟨log, ⟨hprod ▸ hi.length, hring ▸ hi.records, fun e he => (hi.written e he).cons _,
      hprod ▸ hi.single, ?_, ?_, ?_⟩⟩
    · rw [hprod, hcons]
      exact hi.bounds
    · rw [hem, hcons]
      exact hi.taken
    · rw [hem]
      exact hi.ordered
  | drop e hd hfull hr =>
    rw [if_neg (by simp)] at hem
    subst hr
    -- only the consumer index moves; the ring and the log of what was stored stay
    have hfull := (hi.not_full hsize).mp hfull
    refine ⟨log, ⟨hi.length, hi.records, fun e he => (hi.written e he).cons _, hi.single,
      fun hone => ?_, ?_, ?_⟩⟩
    · have := hi.bounds hone
      dsimp only
      omega
    · rw [hem]
      exact fun e he => ⟨Nat.lt_succ_of_lt (hi.taken e he).1, (hi.taken e he).2⟩
    · rw [hem]
      exact hi.ordered
  | store e hd hfull hr =>
    rw [if_neg (by simp)] at hem
    subst hr
    have hroom := mt (hi.not_full hsize).mpr hfull
    -- the slot of `new` is that of an event taken out or dropped long ago
    let new : EvtMsg := ⟨e.type, e.member_id, q.event_prod_idx, copyData e.data⟩
    refine ⟨log ++ [new], ⟨?_, ?_, ?_, fun h1 => absurd (.inl h1) hroom, fun hone => ?_, ?_, ?_⟩⟩
    · simp [hi.length]
    · have hw := hi.records.write hpos new
      rw [hi.length, ← stamped_update (e := new) _ rfl] at hw
      exact hw
    · intro e' he'
      obtain hold | hnew := List.mem_append.mp he'
      · exact (hi.written e' hold).cons _
      · rw [List.mem_singleton.mp hnew]
        exact ⟨q, e, List.mem_cons_self, hd, hfull, rfl, rfl⟩
    · have := hi.bounds hone
      dsimp only
      omega
    · rw [hem]
      exact fun e he => ⟨(hi.taken e he).1, List.mem_append_left _ (hi.taken e he).2⟩
    · rw [hem]
      exact hi.ordered
  | take hlt hq hr =>
    rw [if_pos ⟨rfl, hq, hlt⟩] at hem
    subst hr
    -- what is taken out has the smallest number among those still stamped
    obtain ⟨hseq, hmem⟩ := hi.oldest hlt
    refine ⟨log, ⟨hi.length, hi.records, fun e he => (hi.written e he).cons _, hi.single,
      fun hone => ?_, ?_, ?_⟩⟩
    · have := hi.bounds hone
      dsimp only
      omega
    · rw [hem]
      intro e he
      obtain rfl | he := List.mem_cons.mp he
      · exact ⟨by dsimp only; omega, hmem⟩
      · exact ⟨Nat.lt_succ_of_lt (hi.taken e he).1, (hi.taken e he).2⟩
    · rw [hem]
      exact List.pairwise_cons.mpr ⟨fun e he => hseq.symm ▸ (hi.taken e he).1, hi.ordered⟩
  | fire e hq hr =>
    rw [if_neg (by simp [hq])] at hem
    subst hr
    refine ⟨log, ⟨hi.length, hi.records, fun e he => (hi.written e he).cons _, hi.single,
      hi.bounds, ?_, ?_⟩⟩
    · rw [hem]
      exact hi.taken
    · rw [hem]
      exact hi.ordered

theorem QueueSound.run (hsize : 0 < size) (hr : Run (queueStep size) .create h q) :
    ∃ log, QueueSound size h q log :=
  hr.history_invariant (I := fun h q => ∃ log, QueueSound size h q log) (g := fun _ _ => True)
    (fun _ _ _ _ hi _ hs => hi.elim fun _ hi => hi.step hsize (queueStep_cases hsize hs))
    (fun _ _ => trivial) ⟨[], .create⟩

/-- The emitter fires events in the order of their numbers, each at most once and as
the call that was assigned the number has asked for. -/
theorem events_fired_in_order (hsize : 0 < size) (hr : Run (queueStep size) .create h q) :
    (firedEvents h).Pairwise (fun e e' => e'.seq < e.seq) ∧
      ∀ e ∈ firedEvents h, WrittenBy size h e := by
  obtain ⟨log, hi⟩ := QueueSound.run hsize hr
  have hsub := firedEvents_sublist h q
  exact ⟨hi.ordered.sublist hsub, fun e he => hi.written e (hi.taken e (hsub.subset he)).2⟩

/-- Three calls on a ring of two slots: the second is dropped, with it the event of the
first, and the emitter fires the third. -/
theorem events_fired_in_order_overflow : ∃ h q, Run (queueStep 2) .create h q ∧
    firedEvents h = [⟨.listenerLeave, 5, 1, [104, 105]⟩] ∧
      ∀ e ∈ firedEvents h, WrittenBy 2 h e := by
  obtain ⟨h, q, hr, -, hv⟩ := exists_run_observing (queueStep 2) (fun _ _ => true) .create
    [.enqueue ⟨.listenerJoin, 3, []⟩, .enqueue ⟨.listenerJoin, 4, []⟩,
      .enqueue ⟨.listenerLeave, 5, [104, 105]⟩, .emitter, .emitter, .emitter]
    (fun h _ => firedEvents h) (v := [⟨.listenerLeave, 5, 1, [104, 105]⟩]) (by decide)
  exact ⟨h, q, hr, hv, (events_fired_in_order (by decide) hr).2⟩

theorem Conserves.not_overflows (hc : Conserves h q) (_hlt : q.stat_events_dropped < 2 ^ 32)
    (hs : QueueStep size q r a) (hc' : Conserves ((q, a) :: h) r) : ¬ Overflows size q a := by
  intro hover
  have hem := emittedEvents_cons (h := h) hs
  cases hs with
  | ignore a ha _ _ _ =>
    cases a with
    | enqueue c => simp [Overflows, ha _ rfl] at hover
    | emitter => exact hover
    | destroy => exact hover
  | store _ _ hroom _ => exact hroom hover.2
  | take => exact hover
  | fire => exact hover
  | drop _ hlive _ hr =>
    -- the call adds at most one dropped event, and the consumer index takes one away
    rw [if_neg (by simp)] at hem
    unfold Conserves at hc hc'
    rw [hem] at hc'
    simp only [enqueueCalls, hlive, Bool.false_eq_true, if_false] at hc'
    subst hr
    unfold EventQueue.pending uint64Sub at hc hc'
    dsimp only at hc'
    omega

structure NothingDropped (size : UInt32) (h : List (EventQueue × QueueAction)) (q : EventQueue) :
    Prop where
  calls : enqueueCalls h = q.event_prod_idx
  emitted : (emittedEvents h q).length = q.event_cons_idx
  dropped : q.stat_events_dropped = 0
  order : q.event_cons_idx ≤ q.event_prod_idx
  room : q.event_prod_idx ≤ q.event_cons_idx + (size.toNat - 1)

theorem NothingDropped.create : NothingDropped size [] .create :=
  ⟨rfl, rfl, rfl, Nat.le_refl 0, Nat.zero_le _⟩

theorem NothingDropped.conserves (hi : NothingDropped size h q) : Conserves h q := by
  have hlt := size.toNat_lt
  have hroom := hi.room
  have horder := hi.order
  unfold Conserves EventQueue.pending
  rw [hi.calls, hi.emitted, hi.dropped, uint64Sub_eq horder (by omega)]
  omega

theorem NothingDropped.step (hi : NothingDropped size h q) (ho : ¬ Overflows size q a)
    (hs : QueueStep size q r a) : NothingDropped size ((q, a) :: h) r := by
  have hem := emittedEvents_cons (h := h) hs
  obtain ⟨hcalls, hemitted, hdropped, horder, hroom⟩ := hi
  cases hs with
  | ignore a ha he hr hemit =>
    obtain ⟨-, hprod, hcons, hdrop⟩ := hr
    have hcalls' : enqueueCalls ((q, a) :: h) = enqueueCalls h := by
      cases a with
      | enqueue c => simp [enqueueCalls, ha _ rfl]
      | emitter => rfl
      | destroy => rfl
    rw [if_neg] at hem
    · exact ⟨by rw [hcalls', hprod, hcalls], by rw [hem, hcons, hemitted], by rw [hdrop, hdropped],
        by omega, by omega⟩
    · rintro ⟨rfl, hq, hlt⟩
      obtain hq' | ⟨-, hle⟩ := he rfl
      · rw [hq] at hq'
        cases hq'
      · omega
  -- the only step that loses an event
  | drop e hd hfull hr => exact absurd ⟨hd, hfull⟩ ho
  | store e hd hfull hr =>
    rw [if_neg (by simp)] at hem
    have hlt := size.toNat_lt
    unfold EventQueue.full at hfull
    rw [uint64Sub_eq horder (by omega)] at hfull
    subst hr
    refine ⟨?_, hem ▸ hemitted, hdropped, ?_, ?_⟩
    · simp [enqueueCalls, hd, hcalls]
    · dsimp only
      omega
    · dsimp only
      omega
  | take hlt hq hr =>
    rw [if_pos ⟨rfl, hq, hlt⟩] at hem
    subst hr
    refine ⟨hcalls, by simp [hem, hemitted], hdropped, ?_, ?_⟩
    · dsimp only
      omega
    · dsimp only
      omega
  | fire e hq hr =>
    rw [if_neg (by simp [hq])] at hem
    subst hr
    exact ⟨hcalls, hem ▸ hemitted, hdropped, horder, hroom⟩

theorem dropped_lt (hsize : 0 < size) (hr : Run (queueStep size) .create h q) :
    AllAlong (fun _ q => q.stat_events_dropped < 2 ^ 32) h q := by
  refine hr.allAlong (I := fun _ q => q.stat_events_dropped < 2 ^ 32) (g := fun _ _ => True)
    (fun h q a r hd _ hs => ?_) (fun _ _ => id) (fun _ _ => trivial) (by decide)
  cases queueStep_cases hsize hs with
  | ignore a _ _ hr _ => exact hr.2.2.2 ▸ hd
  | drop e _ _ hr => exact hr ▸ Nat.mod_lt _ (by decide)
  | store e _ _ hr => exact hr ▸ hd
  | take _ _ hr => exact hr ▸ hd
  | fire e _ hr => exact hr ▸ hd

theorem keepsNewest_of_room (ho : ¬ Overflows size q a) : KeepsNewest size q a := by
  cases a with
  | enqueue e => exact fun hover => absurd hover ho
  | emitter => trivial
  | destroy => trivial

/-- Every call is accounted for as an event emitted, pending or dropped, and a full ring
gives up its oldest event for the new one, exactly when no call finds the ring full. -/
theorem events_conserved_iff (hsize : 0 < size) (hr : Run (queueStep size) .create h q) :
    AllAlong Conserves h q ∧ Meets (KeepsNewest size) h ↔
      Meets (fun q a => ¬ Overflows size q a) h := by
  constructor
  · rintro ⟨hall, -⟩
    exact hr.meets_of_allAlong (fun h q a r hi hs hi' =>
      hi.1.not_overflows hi.2 (queueStep_cases hsize hs) hi'.1) (hall.and (dropped_lt hsize hr))
  · intro hroom
    exact ⟨hr.allAlong (I := NothingDropped size)
      (fun _ _ _ _ hi ho hs => hi.step ho (queueStep_cases hsize hs))
      (fun _ _ hi => hi.conserves) hroom .create, hroom.mono fun _ _ => keepsNewest_of_room⟩

/-- Two events on a ring of three slots. -/
theorem events_conserved_iff_three : ∃ h q, Run (queueStep 3) .create h q ∧
    (firedEvents h).length = 1 ∧ q.pending = 1 ∧
      AllAlong Conserves h q ∧ Meets (KeepsNewest 3) h := by
  obtain ⟨h, q, hr, hm, hv⟩ := exists_run_observing (queueStep 3)
    (fun q a => decide (¬ Overflows 3 q a)) .create
    [.enqueue ⟨.listenerJoin, 3, []⟩, .enqueue ⟨.listenerJoin, 4, []⟩, .emitter, .emitter, .emitter]
    (fun h q => ((firedEvents h).length, q.pending)) (v := (1, 1)) (by decide)
  obtain ⟨hfired, hpending⟩ := Prod.mk.inj hv
  exact ⟨h, q, hr, hfired, hpending, (events_conserved_iff (by decide) hr).mpr
    (hm.mono fun _ _ ho => of_decide_eq_true ho)⟩

/-- The second of two calls on a ring of two slots loses both events and counts one. -/
theorem overflow_loses_both : ¬ ∀ (h : List (EventQueue × QueueAction)) (q : EventQueue),
    Run (queueStep 2) .create h q → AllAlong Conserves h q ∧ Meets (KeepsNewest 2) h := by
  refine not_forall_run (fun _ _ => true)
    [.enqueue ⟨.listenerJoin, 3, []⟩, .enqueue ⟨.listenerJoin, 4, []⟩]
    (fun h q => (enqueueCalls h, (emittedEvents h q).length, q.pending, q.stat_events_dropped))
    (v := (2, 0, 0, 1)) (by decide) ?_
  intro h q _ _ hv hall
  have hc := hall.1.last
  unfold Conserves at hc
  simp only [Prod.mk.injEq] at hv
  omega

/-- The emitter takes the oldest event off the list of a broadcast and hands it out. -/
def takeEvent (b : Broadcast) : Broadcast :=
  match b.events with
  | [] => b
  | (type, id) :: rest => fireCriticalEvent { b with events := rest } type id

/-- A broadcast that keeps the pending events in a list, after the calls of the history. -/
def pendingList (p : RoomProfile) : List (EventQueue × QueueAction) → Broadcast
  | [] => .create
  | (_, .enqueue e) :: h => enqueueEvent p (pendingList p h) e.type e.member_id
  | (q, .emitter) :: h =>
    if q.emitter = .drain then takeEvent (pendingList p h) else pendingList p h
  | (_, .destroy) :: h => { pendingList p h with destroyed := true }

/-- The event fields of a broadcast that keeps the pending events in a list. -/
structure EventQueue.Refines (size : UInt32) (p : RoomProfile) (q : EventQueue) (b : Broadcast) :
    Prop where
  ring_size : p.event_ring_size = size.toNat
  destroyed : b.destroyed = q.destroyed
  events : b.events = (q.pendingEvents size).map fun e => (e.type, e.member_id)
  dropped : q.stat_events_dropped = b.stat_events_dropped % 2 ^ 32

/-- The oldest event is given up, or taken out. -/
theorem pendingEvents_tail (hring : r.event_ring = q.event_ring)
    (hprod : r.event_prod_idx = q.event_prod_idx) (hcons : r.event_cons_idx = q.event_cons_idx + 1) :
    r.pendingEvents size = (q.pendingEvents size).tail := by
  unfold EventQueue.pendingEvents
  rw [hring, hprod, hcons]
  cases hn : q.event_prod_idx - q.event_cons_idx with
  | zero =>
    have hn' : q.event_prod_idx - (q.event_cons_idx + 1) = 0 := by omega
    simp [hn']
  | succ n =>
    have hn' : q.event_prod_idx - (q.event_cons_idx + 1) = n := by omega
    simp [hn', List.range_succ_eq_map, Function.comp_def, Nat.add_assoc, Nat.add_comm 1]

theorem pendingEvents_store (hle : q.event_cons_idx ≤ q.event_prod_idx)
    (hlt : q.event_prod_idx < q.event_cons_idx + size.toNat) (e : EvtMsg) : { q with
      event_ring := Function.update q.event_ring (q.event_prod_idx % size.toNat) e
      event_prod_idx := q.event_prod_idx + 1 : EventQueue }.pendingEvents size =
    q.pendingEvents size ++ [e] := by
  unfold EventQueue.pendingEvents
  have hn : q.event_prod_idx + 1 - q.event_cons_idx =
      q.event_prod_idx - q.event_cons_idx + 1 := by omega
  have hlast : q.event_cons_idx + (q.event_prod_idx - q.event_cons_idx) = q.event_prod_idx := by
    omega
  dsimp only
  rw [hn, List.range_succ, List.map_append, List.map_singleton, hlast, Function.update_self]
  congr 1
  refine List.map_congr_left fun i hi => Function.update_of_ne (fun hmod => ?_) ..
  rw [List.mem_range] at hi
  have := StampedRing.eq_of_mod_eq (by omega) (by omega) hmod.symm
  omega

/-- `enqueueEvent` on the list is `broadcast_enqueue_event` on the ring. -/
theorem EventQueue.Refines.enqueue {p : RoomProfile} {b : Broadcast} (hsize : 0 < size)
    (hi : QueueSound size h q log) (hq : q.Refines size p b) (e : EventCall) :
    (q.enqueue size e).Refines size p (enqueueEvent p b e.type e.member_id) := by
  have hpos : 0 < size.toNat := UInt32.lt_iff_toNat_lt.mp hsize
  have hlt := size.toNat_lt
  have hlen : b.events.length = q.event_prod_idx - q.event_cons_idx := by
    simp [hq.events, EventQueue.pendingEvents]
  have hfull : q.full size ↔ p.event_ring_size - 1 ≤ b.events.length := by
    rw [hi.not_full hsize, hlen, hq.ring_size]
    by_cases hone : size.toNat = 1
    · simp [hone]
    · have := hi.bounds hone
      omega
  have hstep := queueStep_cases hsize (a := .enqueue e) (q := q) rfl
  unfold enqueueEvent
  generalize hr : q.enqueue size e = r at hstep
  cases hstep with
  | ignore a ha _ _ _ =>
    have hd := ha e rfl
    rw [EventQueue.enqueue, if_pos hd] at hr
    rw [if_pos (.inl (hq.destroyed.trans hd))]
    exact hr ▸ hq
  | drop _ hd hf hr' =>
    have htail : r.pendingEvents size = (q.pendingEvents size).tail :=
      pendingEvents_tail (by rw [hr']) (by rw [hr']) (by rw [hr'])
    rw [if_neg (by simp [hq.destroyed, hd, hq.ring_size]; omega), if_pos (hfull.mp hf)]
    refine ⟨hq.ring_size, by rw [hr']; exact hq.destroyed, ?_, ?_⟩
    · rw [htail, List.map_tail, ← hq.events]
    · rw [hr']
      dsimp only
      rw [hq.dropped]
      omega
  | store _ hd hf hr =>
    have hroom := mt (hi.not_full hsize).mpr hf
    have hbounds := hi.bounds fun h1 => hroom (.inl h1)
    rw [if_neg (by simp [hq.destroyed, hd, hq.ring_size]; omega), if_neg (mt hfull.mpr hf), hr]
    refine ⟨hq.ring_size, hq.destroyed, ?_, hq.dropped⟩
    have hlast : q.event_prod_idx < q.event_cons_idx + size.toNat := by omega
    rw [pendingEvents_store hbounds.1 hlast, List.map_append, hq.events]
    rfl

theorem pendingEvents_head (hlt : q.event_cons_idx < q.event_prod_idx) :
    q.pendingEvents size = q.event_ring (q.event_cons_idx % size.toNat) ::
      (q.pendingEvents size).tail := by
  unfold EventQueue.pendingEvents
  obtain ⟨n, hn⟩ := Nat.exists_eq_add_of_lt hlt
  rw [show q.event_prod_idx - q.event_cons_idx = n + 1 by omega, List.range_succ_eq_map]
  rfl

/-- What a step that keeps the ring, its indices and the flag keeps. -/
theorem EventQueue.Refines.keep {p : RoomProfile} {b : Broadcast} (hq : q.Refines size p b)
    (hsame : r.event_ring = q.event_ring ∧ r.event_prod_idx = q.event_prod_idx ∧
      r.event_cons_idx = q.event_cons_idx ∧ r.stat_events_dropped = q.stat_events_dropped)
    (hd : r.destroyed = q.destroyed) : r.Refines size p b := by
  obtain ⟨hring, hprod, hcons, hdrop⟩ := hsame
  refine ⟨hq.ring_size, hd ▸ hq.destroyed, ?_, hdrop ▸ hq.dropped⟩
  rw [hq.events, EventQueue.pendingEvents, EventQueue.pendingEvents, hring, hprod, hcons]

theorem emit_destroyed : (q.emit size).destroyed = q.destroyed := by
  unfold EventQueue.emit
  split
  · split_ifs <;> rfl
  · split_ifs <;> rfl
  · rfl

theorem enqueueEvent_fired {p : RoomProfile} {b : Broadcast} (type : EventType) (id : ℕ) :
    (enqueueEvent p b type id).fired = b.fired := by
  unfold enqueueEvent
  split_ifs <;> rfl

/-- The list after the history stands for the ring, and the same events have been handed out. -/
structure Listed (size : UInt32) (p : RoomProfile) (h : List (EventQueue × QueueAction))
    (q : EventQueue) : Prop where
  pending : q.Refines size p (pendingList p h)
  emitted : (pendingList p h).fired =
    (emittedEvents h q).map (fun e => (e.type, e.member_id)) ++ Broadcast.create.fired

theorem Listed.emit {p : RoomProfile} (hsize : 0 < size) (hl : Listed size p h q) :
    Listed size p ((q, .emitter) :: h) (q.emit size) := by
  have hstep := queueStep_cases hsize (a := .emitter) (q := q) rfl
  have hd : (q.emit size).destroyed = q.destroyed := emit_destroyed
  have hem := emittedEvents_cons (h := h) hstep
  generalize q.emit size = r at hstep hd hem
  cases hstep with
  | ignore a _ he hsame _ =>
    have hb : pendingList p ((q, .emitter) :: h) = pendingList p h := by
      obtain hidle | ⟨-, hle⟩ := he rfl
      · simp [pendingList, hidle]
      · have hnil : (pendingList p h).events = [] := by
          simp [hl.pending.events, EventQueue.pendingEvents, Nat.sub_eq_zero_of_le hle]
        simp [pendingList, takeEvent, hnil]
    have hno : ¬ (q.emitter = .drain ∧ q.event_cons_idx < q.event_prod_idx) := by
      rintro ⟨hdrain, hlt⟩
      obtain hidle | ⟨-, hle⟩ := he rfl
      · cases hdrain.symm.trans hidle
      · omega
    refine ⟨hb ▸ hl.pending.keep hsame hd, ?_⟩
    rw [hb, hem, if_neg (by simpa using hno), hl.emitted]
  | take hlt hdrain hr =>
    -- the oldest event of the ring is the first one of the list
    have htail : r.pendingEvents size = (q.pendingEvents size).tail :=
      pendingEvents_tail (by rw [hr]) (by rw [hr]) (by rw [hr])
    have hevents := hl.pending.events
    rw [pendingEvents_head hlt, List.map_cons] at hevents
    have hb : pendingList p ((q, .emitter) :: h) = takeEvent (pendingList p h) := by
      simp [pendingList, hdrain]
    rw [takeEvent, hevents] at hb
    refine ⟨⟨hl.pending.ring_size, ?_, ?_, ?_⟩, ?_⟩
    · rw [hb, hd]
      exact hl.pending.destroyed
    · rw [hb, htail]
      rfl
    · rw [hb, hr]
      exact hl.pending.dropped
    · rw [hb, hem, if_pos ⟨rfl, hdrain, hlt⟩, List.map_cons, List.cons_append, ← hl.emitted]
      rfl
  | fire e hf hr =>
    have hb : pendingList p ((q, .emitter) :: h) = pendingList p h := by simp [pendingList, hf]
    refine ⟨hb ▸ hl.pending.keep (by simp [hr]) hd, ?_⟩
    rw [hb, hem, if_neg (by simp [hf]), hl.emitted]

/-- In every run the list holds the pending events of the ring, the oldest first, and has handed out
what the emitter has taken. -/
theorem ring_refines_list {p : RoomProfile} (hsize : 0 < size)
    (hp : p.event_ring_size = size.toNat) (hr : Run (queueStep size) .create h q) :
    Listed size p h q := by
  have hi : (∃ log, QueueSound size h q log) ∧ Listed size p h q := by
    refine hr.history_invariant (I := fun h q => (∃ log, QueueSound size h q log) ∧ Listed size p h q)
      (g := fun _ _ => True) ?_ (fun _ _ => trivial) ⟨⟨[], .create⟩, ⟨hp, rfl, rfl, rfl⟩, rfl⟩
    rintro h q a r ⟨⟨log, hi⟩, hl⟩ - hs
    refine ⟨hi.step hsize (queueStep_cases hsize hs), ?_⟩
    cases a with
    | enqueue e =>
      have hem := emittedEvents_cons (h := h) (queueStep_cases hsize hs)
      obtain rfl := Option.some.inj hs
      refine ⟨hl.pending.enqueue hsize hi e, ?_⟩
      rw [hem, if_neg (by simp), ← hl.emitted]
      exact enqueueEvent_fired ..
    | emitter =>
      obtain rfl := Option.some.inj hs
      exact hl.emit hsize
    | destroy =>
      obtain rfl := Option.some.inj hs
      exact ⟨⟨hp, rfl, hl.pending.events, hl.pending.dropped⟩, hl.emitted⟩
  exact hi.2

/-- The second event finds the ring full, the third one gets through. -/
theorem ring_refines_list_full : ∃ h q, Run (queueStep 2) .create h q ∧
    q.stat_events_dropped = 1 ∧ (emittedEvents h q).map EvtMsg.type = [.pause] ∧
    Listed 2 ⟨8, false, 2, false, false⟩ h q := by
  obtain ⟨h, q, hr, -, hv⟩ := exists_run_observing (queueStep 2) (fun _ _ => true) .create
    [.enqueue ⟨.lock, 0, []⟩, .enqueue ⟨.unlock, 0, []⟩, .enqueue ⟨.pause, 0, []⟩, .emitter, .emitter]
    (fun h q => (q.stat_events_dropped, (emittedEvents h q).map EvtMsg.type))
    (v := (1, [.pause])) (by decide)
  obtain ⟨hdropped, hemitted⟩ := Prod.mk.inj hv
  exact ⟨h, q, hr, hdropped, hemitted, ring_refines_list (by decide) rfl hr⟩

end ModBroadcast
