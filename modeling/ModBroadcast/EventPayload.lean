import ModBroadcast.FirstSeparator
import ModBroadcast.GracePeriod

namespace ModBroadcast

open FirstSeparator

/-- The `event` case of `b_listener_dispatch_control`, for the member `id`. -/
def dispatchEvent (bind : ControlBinding) (id : ℕ) : EventCall :=
  ⟨.dtmfAction, id, barPair (cBytes bind.digits) (cBytes (bind.arg.getD ""))⟩

/-- The two headers that `b_fire_evt_msg` parts its data into; `copied` is whether `strdup` finds
memory. -/
def barHeaders (name name' : String) (data : List UInt8) (copied : Bool) :
    List (String × List UInt8) :=
  if copied then (name, (cut 124 data).1) :: ((cut 124 data).2.map fun t => (name', t)).toList
  else []

/-- The headers that `b_fire_evt_msg` makes of `msg->data`; `found` is whether it finds the
member. -/
def dataHeaders (e : EvtMsg) (found copied : Bool) : List (String × List UInt8) :=
  (if e.data ≠ [] then [("Broadcast-Event-Data", e.data)] else []) ++
  match e.type with
  | .listenerResync => if found then [("Lag-Frames", e.data)] else []
  | .speakerTalking | .speakerSilent => [("Energy", e.data)]
  | .recordingStop | .recordingFailed => if e.data ≠ [] then [("Reason", e.data)] else []
  | .producerStall => if e.data ≠ [] then [("Drift-Us", e.data)] else []
  | .destroyGrace => barHeaders "Grace-Ms" "Announcement-File" e.data copied
  | .dtmfAction => barHeaders "DTMF-Digit" "DTMF-Payload" e.data copied
  | _ => []

/-- The message that a queue stores for a call that it takes. -/
def storedEvent (size : UInt32) (q : EventQueue) (e : EventCall) : EvtMsg :=
  (q.enqueue size e).event_ring (q.event_prod_idx % size.toNat)

/-- The queue takes the next call: the broadcast lives and the ring has room. -/
def EventQueue.Takes (size : UInt32) (q : EventQueue) : Prop := q.destroyed = false ∧ ¬ q.full size

/-- The event of the binding has its digits and the data of its control in its headers. -/
def DtmfCarried (x : XmlControl) (bind : ControlBinding) (e : EvtMsg) (found copied : Bool) :
    Prop :=
  (dataHeaders e found copied).lookup "DTMF-Digit" = some (cBytes bind.digits) ∧
    (dataHeaders e found copied).lookup "DTMF-Payload" = some (cBytes x.data)

/-- The event has the clamped grace and the announcement in its headers. -/
def GraceCarried (grace_ms : ℕ) (announce_file : Option String) (e : EvtMsg)
    (found copied : Bool) : Prop :=
  (dataHeaders e found copied).lookup "Grace-Ms" = some (cBytes (toString (clampGrace grace_ms))) ∧
    (dataHeaders e found copied).lookup "Announcement-File" = some (cBytes (announce_file.getD ""))

variable {size : UInt32} {q : EventQueue}

/-- What the queue stores is the call, with its data cut to 255 bytes. -/
theorem storedEvent_eq (hq : q.Takes size) (e : EventCall) :
    storedEvent size q e = ⟨e.type, e.member_id, q.event_prod_idx, copyData e.data⟩ := by
  have hsize : size ≠ 0 := by
    rintro rfl
    exact hq.2 (Nat.zero_le _)
  simp [storedEvent, EventQueue.enqueue, hq.1, hq.2, hsize]

/-- A bar comes from a bar only. -/
theorem bar_mem_utf8 {c : Char} (h : (124 : UInt8) ∈ String.utf8EncodeChar c) : c = '|' := by
  -- the other bytes are 128 and above
  have hne : ∀ n, 128 ≤ n → n < 256 → (124 : UInt8) ≠ UInt8.ofNat n := by
    intro n hlo hhi he
    have h124 := congrArg UInt8.toNat he
    rw [UInt8.toNat_ofNat_of_lt' hhi] at h124
    have : n = 124 := h124.symm
    omega
  unfold String.utf8EncodeChar at h
  simp only at h
  split_ifs at h with h1 h2 h3
  · rw [List.mem_singleton] at h
    have h124 := congrArg UInt8.toNat h
    rw [UInt8.toNat_ofNat_of_lt' (Nat.lt_of_le_of_lt h1 (by decide))] at h124
    exact Char.ext (UInt32.toNat_inj.mp h124.symm)
  · simp only [List.mem_cons, List.not_mem_nil, or_false] at h
    rcases h with h | h
    · exact absurd h (hne _ (by omega) (by omega))
    · exact absurd h (hne _ (by omega) (by omega))
  · simp only [List.mem_cons, List.not_mem_nil, or_false] at h
    rcases h with h | h | h
    · exact absurd h (hne _ (by omega) (by omega))
    · exact absurd h (hne _ (by omega) (by omega))
    · exact absurd h (hne _ (by omega) (by omega))
  · simp only [List.mem_cons, List.not_mem_nil, or_false] at h
    rcases h with h | h | h | h
    · exact absurd h (hne _ (by omega) (by omega))
    · exact absurd h (hne _ (by omega) (by omega))
    · exact absurd h (hne _ (by omega) (by omega))
    · exact absurd h (hne _ (by omega) (by omega))

theorem bar_not_mem {s : String} (hs : '|' ∉ s.toList) : (124 : UInt8) ∉ cBytes s := by
  intro hmem
  obtain ⟨c, hc, hbar⟩ := List.mem_flatMap.mp hmem
  rw [bar_mem_utf8 hbar] at hc
  exact hs hc

/-- The decimal of a number has no bar. -/
theorem bar_not_mem_decimal (n : ℕ) : '|' ∉ (toString n).toList := by
  intro hmem
  rw [show (toString n).toList = Nat.toDigits 10 n from Nat.toList_repr] at hmem
  exact absurd (Nat.isDigit_of_mem_toDigits (by decide) (by decide) hmem) (by decide)

/-- Two texts come out of the queue as they were put together exactly when they and the bar fit
its field. -/
theorem cut_copyData_iff {s t : List UInt8} (hs : 124 ∉ s) :
    cut 124 (copyData (barPair s t)) = (s, some t) ↔ s.length + 1 + t.length ≤ 255 := by
  rw [copyData, barPair, List.take_take, show min 255 511 = 255 from rfl]
  exact cut_take_iff hs 255

/-- The two headers behind the one with the whole data. -/
theorem lookup_barHeaders {name name' : String} (data : List UInt8) {copied : Bool}
    (h : name ≠ "Broadcast-Event-Data") (h' : name' ≠ "Broadcast-Event-Data")
    (hne : name' ≠ name) {l : List (String × List UInt8)}
    (hl : l = (if data ≠ [] then [("Broadcast-Event-Data", data)] else []) ++
      barHeaders name name' data copied) :
    l.lookup name = (if copied then some (cut 124 data).1 else none) ∧
      l.lookup name' = if copied then (cut 124 data).2 else none := by
  have hpre (n : String) (hn : n ≠ "Broadcast-Event-Data") :
      l.lookup n = (barHeaders name name' data copied).lookup n := by
    rw [hl]
    split_ifs with hdata
    · rw [List.singleton_append, List.lookup_cons, beq_false_of_ne hn]
    · rfl
  rw [hpre name h, hpre name' h', barHeaders]
  cases copied with
  | false => exact ⟨rfl, rfl⟩
  | true =>
    refine ⟨List.lookup_cons_self, ?_⟩
    rw [if_pos rfl, List.lookup_cons, beq_false_of_ne hne]
    cases (cut 124 data).2 with
    | none => rfl
    | some t => exact List.lookup_cons_self

/-- Both texts are in the headers of the event that the queue stores exactly when they fit its
field together and the copy of it is made. -/
theorem barHeaders_carried_iff {name name' : String} {s t : List UInt8} {copied : Bool}
    (hs : 124 ∉ s) (h : name ≠ "Broadcast-Event-Data") (h' : name' ≠ "Broadcast-Event-Data")
    (hne : name' ≠ name) {l : List (String × List UInt8)}
    (hl : l = (if copyData (barPair s t) ≠ [] then
      [("Broadcast-Event-Data", copyData (barPair s t))] else []) ++
      barHeaders name name' (copyData (barPair s t)) copied) :
    l.lookup name = some s ∧ l.lookup name' = some t ↔
      copied = true ∧ s.length + 1 + t.length ≤ 255 := by
  obtain ⟨hfst, hsnd⟩ := lookup_barHeaders _ h h' hne hl
  rw [← cut_copyData_iff hs, hfst, hsnd]
  cases copied with
  | false => simp
  | true => simp [Prod.ext_iff]

/-- A destroy enqueues one event. -/
theorem destroySteps_event {grace_ms : ℕ} {announce_file : Option String} {o : GraceAnswers}
    {e : EventCall} (he : .enqueueEvent e ∈ destroySteps grace_ms announce_file o) :
    e = ⟨.destroyGrace, 0, barPair (cBytes (toString (clampGrace grace_ms)))
      (cBytes (announce_file.getD ""))⟩ := by
  have hann : .enqueueEvent e ∉ announcementSteps announce_file o := by
    unfold announcementSteps
    split
    · split_ifs <;> simp
    · simp
  simp only [destroySteps, List.mem_append, List.mem_ite_nil_right, List.mem_singleton,
    DestroyStep.enqueueEvent.injEq, reduceCtorEq, and_false, or_false, false_or, hann] at he
  exact he.2

theorem dtmfCarried_iff (hq : q.Takes size) (found copied : Bool) {x : XmlControl}
    {bind : ControlBinding} (hx : bParseControl x = some bind)
    (hbar : '|' ∉ bind.digits.toList) (id : ℕ) :
    DtmfCarried x bind (storedEvent size q (dispatchEvent bind id)) found copied ↔
      copied = true ∧ (cBytes bind.digits).length + 1 + (cBytes x.data).length ≤ 255 := by
  have harg : bind.arg.getD "" = x.data := by
    simp only [bParseControl] at hx
    split_ifs at hx with h hdata
    · rw [← Option.some.inj hx, hdata]
      rfl
    · rw [← Option.some.inj hx]
      rfl
  rw [DtmfCarried, storedEvent_eq hq, ← harg]
  exact barHeaders_carried_iff (bar_not_mem hbar) (by decide) (by decide) (by decide) rfl

/-- The events of a binding and of a destroy carry both of their texts exactly when these fit
255 bytes together with the bar between them, and the emitter finds memory for its copy. -/
theorem event_payload_iff (hq : q.Takes size) (found copied : Bool) :
    (∀ x bind id, bParseControl x = some bind → bind.action = .event → '|' ∉ bind.digits.toList →
      (DtmfCarried x bind (storedEvent size q (dispatchEvent bind id)) found copied ↔
        copied = true ∧ (cBytes bind.digits).length + 1 + (cBytes x.data).length ≤ 255)) ∧
    ∀ grace_ms announce_file o e, .enqueueEvent e ∈ destroySteps grace_ms announce_file o →
      (GraceCarried grace_ms announce_file (storedEvent size q e) found copied ↔
        copied = true ∧ (cBytes (toString (clampGrace grace_ms))).length + 1 +
          (cBytes (announce_file.getD "")).length ≤ 255) := by
  constructor
  · exact fun x bind id hx _ hbar => dtmfCarried_iff hq found copied hx hbar id
  · intro grace_ms announce_file o e he
    rw [GraceCarried, storedEvent_eq hq, destroySteps_event he]
    exact barHeaders_carried_iff (bar_not_mem (bar_not_mem_decimal _)) (by decide) (by decide)
      (by decide) rfl

/-- A control of the test group, and a destroy with an announcement. -/
theorem event_payload_lecture : ∃ bind,
    bParseControl ⟨"##", "event", "custom-signal|payload"⟩ = some bind ∧
    DtmfCarried ⟨"##", "event", "custom-signal|payload"⟩ bind
      (storedEvent 8 .create (dispatchEvent bind 3)) true true ∧
    ∃ e, .enqueueEvent e ∈ destroySteps 3000 (some "/tmp/closing.wav") ⟨false, true, true⟩ ∧
      GraceCarried 3000 (some "/tmp/closing.wav") (storedEvent 8 .create e) false true := by
  have hq : EventQueue.Takes 8 .create := ⟨rfl, by decide⟩
  refine ⟨⟨"##", .event, some "custom-signal|payload"⟩, by decide, ?_, _,
    List.mem_cons_of_mem _ (List.mem_cons_self ..), ?_⟩
  · exact ((event_payload_iff hq true true).1 _ _ 3 (by decide) rfl (by decide)).mpr (by decide)
  · exact ((event_payload_iff hq false true).2 3000 _ ⟨false, true, true⟩ _
      (List.mem_cons_of_mem _ (List.mem_cons_self ..))).mpr (by decide)

theorem cBytes_replicate (n : ℕ) :
    (cBytes (String.ofList (List.replicate n 'a'))).length = n := by
  rw [cBytes, String.toList_ofList]
  induction n with
  | zero => rfl
  | succ n ih =>
    rw [List.replicate_succ, List.flatMap_cons, List.length_append, ih]
    exact Nat.add_comm 1 n

/-- A payload of 253 bytes behind two digits loses its last byte. -/
theorem payload_cut : ∃ x bind, bParseControl x = some bind ∧ bind.action = .event ∧
    '|' ∉ bind.digits.toList ∧ EventQueue.Takes 8 .create ∧
    ¬ DtmfCarried x bind (storedEvent 8 .create (dispatchEvent bind 3)) true true := by
  let data : String := String.ofList (List.replicate 253 'a')
  have hq : EventQueue.Takes 8 .create := ⟨rfl, by decide⟩
  have hlen : (cBytes data).length = 253 := cBytes_replicate 253
  have hne : data ≠ "" := by
    intro h
    rw [h] at hlen
    cases hlen
  have hx : bParseControl ⟨"##", "event", data⟩ = some ⟨"##", .event, some data⟩ := by
    simp only [bParseControl, if_neg hne]
    rfl
  refine ⟨_, _, hx, rfl, by decide, hq, ?_⟩
  rw [dtmfCarried_iff hq true true hx (by decide), hlen]
  decide

end ModBroadcast
