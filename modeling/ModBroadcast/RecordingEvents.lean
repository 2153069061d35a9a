import ModBroadcast.RecordingLife

namespace ModBroadcast

open Automaton

/-- The events queued for the consumer `r`, and the end of its life.  `stopped` and `writeError`
are both `BEVT_RECORDING_STOP`, without data and with `"write-error"`. -/
inductive RecordingEvent
  | started (r : ℕ)
  | stopped (r : ℕ)
  | writeError (r : ℕ)
  | freed (r : ℕ)
  deriving DecidableEq

/-- A writer inside its loops: in front of the outer test, of the inner test, of the write, of the
event for a failed write, and behind the loops. -/
inductive WriterPhase
  | test | pass | write | failed | closing
  deriving DecidableEq

/-- `broadcast_destroy_ex` up to `broadcast_record_stop_all`; from there on the thread is in a
stop. -/
inductive PairingCall
  | record (x : RecordCall)
  | destroy (grace : Bool)
  deriving DecidableEq

/-- `made` is the consumer that the start of a thread has made last; it and `log`, the latest event
first, are history variables. -/
structure Pairing where
  b : Broadcast
  phase : ℕ → WriterPhase
  call : ℕ → PairingCall
  made : ℕ → ℕ
  log : List RecordingEvent

inductive PairingAction
  | start (u : ℕ) (target : String)
  | stop (u : ℕ) (target : Option String)
  | destroy (u : ℕ) (grace : Bool)
  | step (u : ℕ) (c : Choice)
  | writer (r : ℕ) (c : Choice)
  | other (type : EventType)
  | emit

def Pairing.init : Pairing := ⟨.create, fun _ => .test, fun _ => .record .idle, fun _ => 0, []⟩

def Broadcast.Accepts (p : RoomProfile) (b : Broadcast) : Prop :=
  ¬ b.destroyed ∧ p.event_ring_size ≠ 0 ∧ b.events.length < p.event_ring_size - 1

instance (p : RoomProfile) (b : Broadcast) : Decidable (b.Accepts p) :=
  inferInstanceAs (Decidable (_ ∧ _))

def Pairing.offer (p : RoomProfile) (s : Pairing) (e : RecordingEvent) : List RecordingEvent :=
  if s.b.Accepts p then e :: s.log else s.log

def Pairing.logCall (p : RoomProfile) (s : Pairing) (u : ℕ) : RecordCall → List RecordingEvent
  | .start _ .announce => s.offer p (.started (s.made u))
  | .stop _ (.report _ r _) => s.offer p (.stopped r)
  | .stop _ (.free _ r _) => .freed r :: s.log
  | _ => s.log

def writerStep (p : RoomProfile) (s : Pairing) (r : ℕ) (c : Choice) : Option Pairing :=
  match (s.b.consumer r).writer, s.phase r with
  | .start, _ =>
    -- neither timer can be had
    if c = .fail then some { s with
      b := s.b.modifyConsumer r fun x => { x with running := false, writer := .ended } }
    else some { s with
      b := s.b.modifyConsumer r fun x => { x with writer := .loop }
      phase := Function.update s.phase r .test }
  | .loop, .test =>
    let k := if (s.b.consumer r).running ∧ ¬ s.b.destroyed then .pass else .closing
    some { s with phase := Function.update s.phase r k }
  | .loop, .pass =>
    -- `c` tells whether the ring has another frame for this pass
    let k := if (s.b.consumer r).running ∧ c = .ok then .write else .test
    some { s with phase := Function.update s.phase r k }
  | .loop, .write =>
    if c = .fail then some { s with
      b := s.b.modifyConsumer r fun x => { x with running := false }
      phase := Function.update s.phase r .failed }
    else some { s with phase := Function.update s.phase r .pass }
  | .loop, .failed => some { s with
      b := enqueueEvent p s.b .recordingStop 0
      phase := Function.update s.phase r .closing
      log := s.offer p (.writeError r) }
  | .loop, .closing =>
    some { s with b := s.b.modifyConsumer r fun x => { x with writer := .ended } }
  | _, _ => none

def pairingStep (p : RoomProfile) (s : Pairing) : PairingAction → Option Pairing
  | .start u target =>
    if s.call u = .record .idle then
      some { s with call := Function.update s.call u (.record (.start target .start)) }
    else none
  | .stop u target =>
    if s.call u = .record .idle then
      some { s with call := Function.update s.call u (.record (.stop target .unlink)) }
    else none
  | .destroy u grace =>
    if s.call u = .record .idle then
      some { s with call := Function.update s.call u (.destroy grace) }
    else none
  | .step u c =>
    match s.call u with
    | .record x => (recordCall p s.b c x).map fun y => { s with
        b := y.1
        call := Function.update s.call u (.record y.2)
        made := match y.2 with
          | .start _ (.link r) => Function.update s.made u r
          | _ => s.made
        log := s.logCall p u x }
    | .destroy true => some { s with
        b := enqueueEvent p s.b .destroyGrace 0
        call := Function.update s.call u (.destroy false) }
    | .destroy false => some { s with
        b := { s.b with destroyed := true }
        call := Function.update s.call u (.record (.stop none .unlink)) }
  | .writer r c => writerStep p s r c
  -- whatever else the broadcast reports, and the emitter, which has looked at `destroyed` before
  | .other type =>
    if type = .recordingStart ∨ type = .recordingStop then none
    else some { s with b := enqueueEvent p s.b type 0 }
  | .emit => some { s with b := { s.b with events := s.b.events.tail } }

def stopCount (r : ℕ) (log : List RecordingEvent) : ℕ :=
  log.count (.stopped r) + log.count (.writeError r)

/-- Every recording that was announced and has been joined and freed has been reported as stopped
once. -/
def Pairing.Paired (s : Pairing) : Prop :=
  ∀ r, .started r ∈ s.log → .freed r ∈ s.log → stopCount r s.log = 1

/-- A consumer is reported before `destroyed` is set and without a write error reported, or after
it and with one, if it was announced.  A rollback puts no consumer back on the list. -/
def RecordCall.StopsOnce (s : Pairing) : RecordCall → Prop
  | .stop _ (.report _ r _) =>
    if s.b.destroyed then .started r ∈ s.log → .writeError r ∈ s.log else .writeError r ∉ s.log
  | .start _ (.rollback r) => r ∈ s.b.recordings ∨ (s.b.consumer r).next = none
  | _ => True

def PairingCall.doing : PairingCall → RecordCall
  | .record x => x
  | .destroy _ => .idle

def StopsOnce (s : Pairing) : PairingAction → Prop
  | .step u _ => (s.call u).doing.StopsOnce s
  | _ => True

instance RecordCall.StopsOnce.decidable (s : Pairing) : DecidablePred (RecordCall.StopsOnce s)
  | .stop _ (.report _ _ _) =>
    if hd : s.b.destroyed then
      decidable_of_iff (_ → _) (by rw [RecordCall.StopsOnce, if_pos hd])
    else decidable_of_iff (¬ _) (by rw [RecordCall.StopsOnce, if_neg hd])
  | .start _ (.rollback _) => inferInstanceAs (Decidable (_ ∨ _))
  | .start _ .start | .start _ (.link _) | .start _ (.create _) | .start _ (.discard _)
  | .start _ .flag | .start _ .announce | .stop _ .unlink | .stop _ (.next _ _)
  | .stop _ (.test _ _ _) | .stop _ (.join _ _ _) | .stop _ (.free _ _ _) | .idle => .isTrue trivial

instance StopsOnce.decidable (s : Pairing) : DecidablePred (StopsOnce s)
  | .step u _ => inferInstanceAs (Decidable ((s.call u).doing.StopsOnce s))
  | .start _ _ | .stop _ _ | .destroy _ _ | .writer _ _ | .other _ | .emit => .isTrue trivial

variable {p : RoomProfile} {b b' : Broadcast} {c : Choice} {r n u : ℕ} {s t : Pairing}
  {a : PairingAction} {x y : RecordCall}

def RecordCall.reports : RecordCall → Option ℕ
  | .stop _ (.report _ r _) => some r
  | _ => none

def RecordCall.frees : RecordCall → Option ℕ
  | .stop _ (.free _ r _) => some r
  | _ => none

theorem past_of_reports (h : x.reports = some r) : x.past = some r := by
  cases x with
  | stop target k => cases k <;> first | exact h | cases h
  | _ => cases h

theorem past_of_frees (h : x.frees = some r) : x.past = some r := by
  cases x with
  | stop target k => cases k <;> first | exact h | cases h
  | _ => cases h

theorem frees_ne_reports (h : x.reports = some r) : x.frees = none := by
  cases x with
  | stop target k => cases k <;> first | rfl | cases h
  | _ => cases h

theorem CallStep.frees_iff (h : CallStep b b' c x y) : y.frees = some r ↔ x.reports = some r := by
  cases h with
  | quiet hb hx hu hy =>
    have hno : ∀ {z : RecordCall}, z.Free → z.past ≠ some r := fun hz hp => by
      have hmem := mem_hand_of_past (b := b) hp
      rw [hand_of_free hz] at hmem
      cases hmem
    exact ⟨fun h => absurd (past_of_frees h) (hno hy), fun h => absurd (past_of_reports h) (hno hx)⟩
  | report => exact Iff.rfl
  | _ => constructor <;> rintro ⟨⟩

theorem StopsOnce.rollsBack (hg : x.StopsOnce s) : x.RollsBack s.b := by
  rintro target r rfl
  exact hg

theorem mem_offer {e e' : RecordingEvent} (h : e ∈ s.offer p e') : e = e' ∨ e ∈ s.log := by
  rw [Pairing.offer] at h
  split_ifs at h
  · exact List.mem_cons.mp h
  · exact .inr h

theorem log_subset_offer (e : RecordingEvent) : s.log ⊆ s.offer p e := by
  rw [Pairing.offer]
  split_ifs
  · exact List.subset_cons_self e s.log
  · exact List.Subset.refl s.log

theorem count_offer {e e' : RecordingEvent} (h : e ≠ e') :
    (s.offer p e').count e = s.log.count e := by
  rw [Pairing.offer]
  split_ifs
  · exact List.count_cons_of_ne h.symm
  · rfl

/-- What a step of a call adds to the log. -/
theorem logCall_cases (p : RoomProfile) (s : Pairing) (u : ℕ) (x : RecordCall) :
    s.logCall p u x = s.log ∧ x.frees = none ∧ x.reports = none ∨
      s.logCall p u x = s.offer p (.started (s.made u)) ∧ x.frees = none ∧ x.reports = none ∨
      (∃ r, x.reports = some r ∧ s.logCall p u x = s.offer p (.stopped r)) ∨
      ∃ r, x.frees = some r ∧ s.logCall p u x = .freed r :: s.log := by
  cases x with
  | idle => exact .inl ⟨rfl, rfl, rfl⟩
  | start target k =>
    cases k <;> first | exact .inl ⟨rfl, rfl, rfl⟩ | exact .inr (.inl ⟨rfl, rfl, rfl⟩)
  | stop target k =>
    cases k with
    | report st r q => exact .inr (.inr (.inl ⟨r, rfl, rfl⟩))
    | free st r q => exact .inr (.inr (.inr ⟨r, rfl, rfl⟩))
    | _ => exact .inl ⟨rfl, rfl, rfl⟩

theorem freed_logCall : .freed r ∈ s.logCall p u x ↔ x.frees = some r ∨ .freed r ∈ s.log := by
  have offered : ∀ {e}, e ≠ .freed r → x.frees = none → s.logCall p u x = s.offer p e →
      (.freed r ∈ s.logCall p u x ↔ x.frees = some r ∨ .freed r ∈ s.log) := by
    intro e he hx hl
    rw [hl, hx]
    exact ⟨fun h => .inr ((mem_offer h).resolve_left he.symm),
      fun h => log_subset_offer _ (h.resolve_left (by simp))⟩
  rcases logCall_cases p s u x with ⟨hl, hx, -⟩ | ⟨hl, hx, -⟩ | ⟨n, hx, hl⟩ | ⟨n, hx, hl⟩
  · simp [hl, hx]
  · exact offered (by simp) hx hl
  · exact offered (by simp) (frees_ne_reports hx) hl
  · rw [hl, hx, List.mem_cons]
    simp [eq_comm]

theorem writeError_logCall :
    (s.logCall p u x).count (.writeError r) = s.log.count (.writeError r) := by
  rcases logCall_cases p s u x with ⟨hl, -⟩ | ⟨hl, -⟩ | ⟨n, -, hl⟩ | ⟨n, -, hl⟩
  · rw [hl]
  · rw [hl, count_offer (by simp)]
  · rw [hl, count_offer (by simp)]
  · rw [hl, List.count_cons_of_ne (by simp)]

theorem stopped_logCall (hx : x.reports ≠ some r) :
    (s.logCall p u x).count (.stopped r) = s.log.count (.stopped r) := by
  rcases logCall_cases p s u x with ⟨hl, -⟩ | ⟨hl, -⟩ | ⟨n, hn, hl⟩ | ⟨n, -, hl⟩
  · rw [hl]
  · rw [hl, count_offer (by simp)]
  · have hne : r ≠ n := fun he => hx (by rw [hn, he])
    rw [hl, count_offer (by simpa using hne)]
  · rw [hl, List.count_cons_of_ne (by simp)]

theorem stopped_reported (hx : x.reports = some r) :
    (s.logCall p u x).count (.stopped r) =
      s.log.count (.stopped r) + if s.b.Accepts p then 1 else 0 := by
  have hl : s.logCall p u x = s.offer p (.stopped r) := by
    cases x with
    | stop target k =>
      cases k with
      | report st n q =>
        obtain rfl := Option.some.inj hx
        rfl
      | _ => cases hx
    | _ => cases hx
  rw [hl, Pairing.offer]
  split_ifs
  · rw [List.count_cons_self]
  · rfl

theorem started_logCall (h : .started r ∈ s.logCall p u x) :
    .started r ∈ s.log ∨ s.b.Accepts p := by
  rcases logCall_cases p s u x with ⟨hl, -⟩ | ⟨hl, -⟩ | ⟨n, -, hl⟩ | ⟨n, -, hl⟩
  · exact .inl (hl ▸ h)
  · rw [hl, Pairing.offer] at h
    split_ifs at h with ha
    · exact .inr ha
    · exact .inl h
  · rw [hl] at h
    exact .inl ((mem_offer h).resolve_left (by simp))
  · rw [hl] at h
    exact .inl ((List.mem_cons.mp h).resolve_left (by simp))

/-- What a step does to the switches and to the count of the dropped events. -/
structure RingKept (b b' : Broadcast) : Prop where
  destroyed : b.destroyed = true → b'.destroyed = true
  dropped : b.stat_events_dropped ≤ b'.stat_events_dropped

theorem RingKept.rfl : RingKept b b := ⟨id, Nat.le_refl _⟩

theorem enqueueEvent_kept (e : EventType) (i : ℕ) : RingKept b (enqueueEvent p b e i) := by
  rw [enqueueEvent]
  split_ifs
  · exact .rfl
  · exact ⟨id, Nat.le_succ _⟩
  · exact ⟨id, Nat.le_refl _⟩

theorem enqueueEvent_refused {e : EventType} {i : ℕ} (h : ¬ b.Accepts p) :
    b.destroyed = true ∨ p.event_ring_size = 0 ∨
      0 < (enqueueEvent p b e i).stat_events_dropped := by
  by_cases hd : b.destroyed = true
  · exact .inl hd
  by_cases hs : p.event_ring_size = 0
  · exact .inr (.inl hs)
  have hfull : p.event_ring_size - 1 ≤ b.events.length := by
    by_contra hlt
    exact h ⟨by simpa using hd, hs, by omega⟩
  have hoff : ¬ (b.destroyed = true ∨ p.event_ring_size = 0) := fun ho => ho.elim hd hs
  rw [enqueueEvent, if_neg hoff, if_pos hfull]
  exact .inr (.inr (Nat.succ_pos _))

theorem RecordWrites.kept (h : RecordWrites p b b') : RingKept b b' := by
  cases h with
  | fields _ _ _ _ hb =>
    rw [hb]
    exact ⟨id, Nat.le_refl _⟩
  | event e _ consumer hb =>
    have hk := enqueueEvent_kept (p := p) (b := { b with consumer }) e 0
    rw [hb]
    exact ⟨hk.destroyed, hk.dropped⟩

theorem recordCall_writes (hs : recordCall p b c x = some (b', y)) : RecordWrites p b b' := by
  cases x with
  | idle => cases hs
  | start target k =>
    obtain ⟨rfl, -⟩ := Prod.mk.inj (Option.some.inj hs)
    exact recordStart_writes target k
  | stop target k =>
    obtain ⟨z, hz, he⟩ := Option.map_eq_some_iff.mp hs
    obtain ⟨rfl, -⟩ := Prod.mk.inj he
    exact recordStop_writes hz

/-- A stop whose event is not queued finds the broadcast destroyed or without a ring, or drops
it. -/
theorem recordCall_refused (hs : recordCall p b c x = some (b', y)) (hx : x.reports = some r)
    (h : ¬ b.Accepts p) :
    b.destroyed = true ∨ p.event_ring_size = 0 ∨ 0 < b'.stat_events_dropped := by
  cases x with
  | stop target k =>
    cases k with
    | report st n q =>
      obtain ⟨rfl, -⟩ := Prod.mk.inj (Option.some.inj hs)
      exact enqueueEvent_refused h
    | _ => cases hx
  | _ => cases hx

def Pairing.doing (s : Pairing) (u : ℕ) : RecordCall := (s.call u).doing

/-- The stop of the consumer has been offered to the ring by the one who has joined it. -/
def Pairing.Reported (s : Pairing) (r : ℕ) : Prop :=
  .freed r ∈ s.log ∨ ∃ u, (s.doing u).frees = some r

def Pairing.Past (s : Pairing) (r : ℕ) : Prop :=
  .freed r ∈ s.log ∨ ∃ u, (s.doing u).past = some r

/-- What the pairing of the events rests on.  A consumer that nobody waits for was told to stop, so
its writer reports nothing more; one that has not been reported by its stop has been reported by
its writer at most. -/
structure Pairing.Sound (p : RoomProfile) (s : Pairing) : Prop where
  tidy : Tidy s.b s.doing
  gone : ∀ r, .freed r ∈ s.log → r < s.b.next_recording ∧ r ∉ s.b.recordings ∧
    (∀ u, r ∉ (s.doing u).hand s.b) ∧ ∀ u target, s.doing u ≠ .start target (.link r)
  told : ∀ r, (∃ u, r ∈ (s.doing u).hand s.b) ∨ .freed r ∈ s.log →
    (s.b.consumer r).running = false
  errors : ∀ r, .writeError r ∈ s.log → r < s.b.next_recording ∧
    s.log.count (.writeError r) = 1 ∧ ((s.b.consumer r).writer = .ended ∨
      (s.b.consumer r).writer = .loop ∧ s.phase r = .closing)
  plain : ∀ r, ¬ s.Reported r → .stopped r ∉ s.log
  silent : ∀ r, s.Past r → (s.b.consumer r).writer = .loop →
    s.phase r ≠ .write ∧ s.phase r ≠ .failed
  mute : p.event_ring_size = 0 → ∀ r, .started r ∉ s.log
  settled : ∀ r, s.Reported r → 0 < s.b.stat_events_dropped ∨ stopCount r s.log = 1 ∨
    (s.b.destroyed = true ∨ p.event_ring_size = 0) ∧ .started r ∉ s.log

theorem Pairing.Sound.init (p : RoomProfile) : Pairing.Sound p Pairing.init where
  tidy := Tidy.of_free rfl (fun _ => rfl) fun _ => trivial
  gone _ h := by cases h
  told r h := by
    rcases h with ⟨u, h⟩ | h
    · rw [hand_of_free (show (Pairing.init.doing u).Free from trivial)] at h
      cases h
    · cases h
  errors _ h := by cases h
  plain _ _ h := by cases h
  silent _ _ h := by cases h
  mute _ _ h := by cases h
  settled r h := by rcases h with h | ⟨_, h⟩ <;> cases h

theorem Pairing.past_of_reported (h : s.Reported r) : s.Past r :=
  h.imp_right fun ⟨u, hu⟩ => ⟨u, past_of_frees hu⟩

/-- A consumer that nobody waits for has been freed or is in the hand of a stop. -/
theorem Pairing.hand_of_past (h : s.Past r) :
    (∃ u, r ∈ (s.doing u).hand s.b) ∨ .freed r ∈ s.log :=
  h.symm.imp_left fun ⟨u, hu⟩ => ⟨u, mem_hand_of_past hu⟩

theorem Pairing.Sound.lt_of_past (hi : s.Sound p) (h : s.Past r) : r < s.b.next_recording := by
  rcases hand_of_past h with ⟨u, hr⟩ | hr
  · exact hi.tidy.known u r hr
  · exact (hi.gone r hr).1

structure PairingMove (p : RoomProfile) (s t : Pairing) (u : ℕ) (c : Choice) (y : RecordCall) :
    Prop where
  call : t.doing = Function.update s.doing u y
  step : CallStep s.b t.b c (s.doing u) y
  kept : RingKept s.b t.b
  refused : ∀ r, (s.doing u).reports = some r → ¬ s.b.Accepts p →
    s.b.destroyed = true ∨ p.event_ring_size = 0 ∨ 0 < t.b.stat_events_dropped
  log : t.log = s.logCall p u (s.doing u)
  phase : t.phase = s.phase

section Call

variable (hi : s.Sound p) (hg : (s.doing u).StopsOnce s) (h : PairingMove p s t u c y)

theorem doing_update {z : PairingCall} (hc : t.call = Function.update s.call u z) :
    t.doing = Function.update s.doing u z.doing := by
  funext v
  rw [Pairing.doing, hc]
  exact Function.apply_update (fun _ => PairingCall.doing) s.call u z v

include h

theorem PairingMove.freed_iff :
    .freed r ∈ t.log ↔ (s.doing u).frees = some r ∨ .freed r ∈ s.log := by
  rw [h.log]
  exact freed_logCall

theorem PairingMove.reported_iff : t.Reported r ↔ s.Reported r ∨ (s.doing u).reports = some r := by
  rw [Pairing.Reported, Pairing.Reported, h.freed_iff, h.call]
  constructor
  · rintro ((hf | hf) | ⟨v, hv⟩)
    · exact .inl (.inr ⟨u, hf⟩)
    · exact .inl (.inl hf)
    · by_cases hvu : v = u
      · rw [hvu, Function.update_self] at hv
        exact .inr (h.step.frees_iff.mp hv)
      · rw [Function.update_of_ne hvu] at hv
        exact .inl (.inr ⟨v, hv⟩)
  · rintro ((hf | ⟨v, hv⟩) | hr)
    · exact .inl (.inr hf)
    · by_cases hvu : v = u
      · exact .inl (.inl (hvu ▸ hv))
      · exact .inr ⟨v, by rwa [Function.update_of_ne hvu]⟩
    · exact .inr ⟨u, by rw [Function.update_self]; exact h.step.frees_iff.mpr hr⟩

theorem PairingMove.past (hr : t.Past r) : s.Past r ∨
    (s.b.consumer r).writer_thread = false ∨ (s.b.consumer r).writer = .ended := by
  rcases hr with hf | ⟨v, hv⟩
  · rcases h.freed_iff.mp hf with hx | hf
    · exact .inl (.inr ⟨u, past_of_frees hx⟩)
    · exact .inl (.inl hf)
  · rw [h.call] at hv
    by_cases hvu : v = u
    · rw [hvu, Function.update_self] at hv
      exact (h.step.past hv).imp (fun hx => .inr ⟨u, hx⟩) fun ⟨_, hx⟩ => hx.imp_left And.right
    · rw [Function.update_of_ne hvu] at hv
      exact .inl (.inr ⟨v, hv⟩)

include hi

/-- What the calls have in hand after the step. -/
theorem PairingMove.hand {v : ℕ} (hr : r ∈ (t.doing v).hand t.b) : r ∈ (s.doing v).hand s.b ∨
    r ∈ s.b.recordings ∧ (t.b.consumer r).running = false := by
  rw [h.call] at hr
  refine (hi.tidy.hand_mem h.step hr).imp_right ?_
  rintro ⟨-, target, hx, hm⟩
  refine ⟨List.mem_of_mem_filter hm, ?_⟩
  have hstep := h.step
  rw [hx] at hstep
  cases hstep with
  | quiet hb hf hw => exact (hw trivial).elim
  | unlink hw =>
    rw [hw.running r]
    simp [hm]

include hg in
theorem Pairing.Sound.gone_step (hr : .freed r ∈ t.log) : r < t.b.next_recording ∧
    r ∉ t.b.recordings ∧ (∀ v, r ∉ (t.doing v).hand t.b) ∧
      ∀ v target, t.doing v ≠ .start target (.link r) := by
  have hrec := hi.tidy.recordings_eq h.step (StopsOnce.rollsBack hg)
  have hlt : r < s.b.next_recording :=
    hi.lt_of_past ((h.freed_iff.mp hr).elim (fun hx => .inr ⟨u, past_of_frees hx⟩) .inl)
  have hlink : ∀ v target, t.doing v = .start target (.link r) →
      s.doing v = .start target (.link r) := by
    intro v target hv
    rw [h.call] at hv
    by_cases hvu : v = u
    · subst hvu
      rw [Function.update_self] at hv
      have hstep := h.step
      rw [hv] at hstep
      exact absurd hlt (hstep.linking.1 ▸ Nat.lt_irrefl _)
    · rwa [Function.update_of_ne hvu] at hv
  refine ⟨Nat.lt_of_lt_of_le hlt h.step.next_le, ?_⟩
  rcases h.freed_iff.mp hr with hx | hf
  · -- the call that has freed the consumer was the only one to hold it
    have hmem := mem_hand_of_past (b := s.b) (past_of_frees hx)
    have hfree : ∃ target st q, s.doing u = .stop target (.free st r q) := by
      generalize s.doing u = x at hx
      cases x with
      | stop target k =>
        cases k with
        | free st n q => exact ⟨target, st, q, by rw [Option.some.inj hx]⟩
        | _ => cases hx
      | _ => cases hx
    obtain ⟨target, st, q, hu⟩ := hfree
    refine ⟨?_, fun v hv => ?_, fun v target' hv => ?_⟩
    · rw [hrec, hu]
      exact hi.tidy.held u r hmem
    · rw [h.call, hi.tidy.hand_update h.step] at hv
      split_ifs at hv with hvu
      · have hnd := hi.tidy.nodup u
        rw [hu] at hv hnd
        exact (List.nodup_cons.mp hnd).1 hv
      · exact hvu (hi.tidy.apart v u r hv hmem)
    · exact (hi.tidy.fresh v target' r (hlink v target' hv)).2 u hmem
  · obtain ⟨-, hno, hhand, hfresh⟩ := hi.gone r hf
    refine ⟨fun hm => ?_, fun v hv => ?_, fun v target hv => hfresh v target (hlink v target hv)⟩
    · rw [hrec] at hm
      exact (hi.tidy.listed_mem (StopsOnce.rollsBack hg) hm).elim hno
        fun ⟨target, hu⟩ => hfresh u target hu
    · exact (h.hand hi hv).elim (hhand v) fun hm => hno hm.1

theorem Pairing.Sound.told_step (hr : (∃ v, r ∈ (t.doing v).hand t.b) ∨ .freed r ∈ t.log) :
    (t.b.consumer r).running = false := by
  have hold : (∃ v, r ∈ (s.doing v).hand s.b) ∨ .freed r ∈ s.log →
      (t.b.consumer r).running = false := by
    intro hr
    have hlt : r < s.b.next_recording :=
      hr.elim (fun ⟨v, hv⟩ => hi.tidy.known v r hv) fun hf => (hi.gone r hf).1
    exact (h.step.keeps hlt).2 (hi.told r hr)
  rcases hr with ⟨v, hv⟩ | hf
  · exact (h.hand hi hv).elim (fun hv => hold (.inl ⟨v, hv⟩)) And.right
  · rcases h.freed_iff.mp hf with hx | hf
    · exact hold (.inl ⟨u, mem_hand_of_past (past_of_frees hx)⟩)
    · exact hold (.inr hf)

/-- The writer of a consumer that has been made is the one it had, or has just been created. -/
theorem Pairing.Sound.writer_step (hr : r < s.b.next_recording) :
    (t.b.consumer r).writer = (s.b.consumer r).writer ∨
      (s.b.consumer r).writer = .absent ∧ (t.b.consumer r).writer = .start := by
  rcases h.step.writer r with ⟨hw, -⟩ | ⟨rfl, -⟩ | ⟨⟨target, hx⟩, -, -, hw, -⟩
  · exact .inl hw
  · exact absurd hr (Nat.lt_irrefl _)
  · refine .inr ⟨(hi.tidy.made u r ?_).2.1, hw⟩
    rw [hx]
    rfl

theorem Pairing.Sound.errors_step (hr : .writeError r ∈ t.log) : r < t.b.next_recording ∧
    t.log.count (.writeError r) = 1 ∧ ((t.b.consumer r).writer = .ended ∨
      (t.b.consumer r).writer = .loop ∧ t.phase r = .closing) := by
  have hcount : t.log.count (.writeError r) = s.log.count (.writeError r) := by
    rw [h.log, writeError_logCall]
  rw [← List.count_pos_iff, hcount, List.count_pos_iff] at hr
  obtain ⟨hlt, hone, hw⟩ := hi.errors r hr
  refine ⟨Nat.lt_of_lt_of_le hlt h.step.next_le, hcount.trans hone, ?_⟩
  rcases hi.writer_step h hlt with hsame | ⟨habsent, -⟩
  · rw [hsame, h.phase]
    exact hw
  · rw [habsent] at hw
    rcases hw with hw | ⟨hw, -⟩ <;> cases hw

/-- When nobody waits for a consumer any more, nothing more comes from its writer. -/
theorem Pairing.Sound.silent_step (hr : t.Past r) (hw : (t.b.consumer r).writer = .loop) :
    t.phase r ≠ .write ∧ t.phase r ≠ .failed := by
  have hloop : (s.b.consumer r).writer = .loop := by
    rcases h.step.writer r with ⟨hsame, -⟩ | ⟨-, habsent, -⟩ | ⟨-, -, -, hstart, -⟩
    · exact hsame.symm.trans hw
    · cases habsent.symm.trans hw
    · cases hstart.symm.trans hw
  rcases h.past hr with hr | hthread | hended
  · rw [h.phase]
    exact hi.silent r hr hloop
  · have halive : (s.b.consumer r).writer.Alive := by
      rw [hloop]
      exact ⟨by decide, by decide⟩
    cases hthread.symm.trans (hi.tidy.thread r halive).1
  · cases hended.symm.trans hloop

include hg in
/-- The stop of a consumer that had not been reported. -/
theorem Pairing.Sound.report_step (hr : (s.doing u).reports = some r) :
    0 < t.b.stat_events_dropped ∨ stopCount r t.log = 1 ∨
      (t.b.destroyed = true ∨ p.event_ring_size = 0) ∧ .started r ∉ t.log := by
  have hstops : if s.b.destroyed then .started r ∈ s.log → .writeError r ∈ s.log
      else .writeError r ∉ s.log := by
    generalize s.doing u = x at hr hg
    cases x with
    | stop target k =>
      cases k with
      | report st n q => exact Option.some.inj hr ▸ hg
      | _ => cases hr
    | _ => cases hr
  have hnone : s.log.count (.stopped r) = 0 := by
    refine List.count_eq_zero.mpr (hi.plain r ?_)
    have hmem := mem_hand_of_past (b := s.b) (past_of_reports hr)
    rintro (hf | ⟨v, hv⟩)
    · exact (hi.gone r hf).2.2.1 u hmem
    · obtain rfl := hi.tidy.apart v u r (mem_hand_of_past (past_of_frees hv)) hmem
      cases (frees_ne_reports hr).symm.trans hv
  have hcount : stopCount r t.log =
      (if s.b.Accepts p then 1 else 0) + s.log.count (.writeError r) := by
    rw [stopCount, h.log, writeError_logCall, stopped_reported hr, hnone, Nat.zero_add]
  have hmute : ¬ s.b.Accepts p → .started r ∉ s.log → .started r ∉ t.log := fun ha hno hs => by
    rw [h.log] at hs
    exact (started_logCall hs).elim hno ha
  rw [hcount]
  by_cases ha : s.b.Accepts p
  · -- the event is queued, and the writer has queued none
    rw [if_neg ha.1] at hstops
    rw [if_pos ha, List.count_eq_zero.mpr hstops]
    exact .inr (.inl rfl)
  · rw [if_neg ha, Nat.zero_add]
    rcases h.refused r hr ha with hd | hring | hdrop
    · -- the broadcast is destroyed: the writer has queued one, or nothing was announced
      by_cases hstarted : .started r ∈ s.log
      · rw [if_pos hd] at hstops
        exact .inr (.inl (hi.errors r (hstops hstarted)).2.1)
      · exact .inr (.inr ⟨.inl (h.kept.destroyed hd), hmute ha hstarted⟩)
    · exact .inr (.inr ⟨.inr hring, hmute ha (hi.mute hring r)⟩)
    · exact .inl hdrop

include hg in
theorem Pairing.Sound.settled_step (hr : t.Reported r) : 0 < t.b.stat_events_dropped ∨
    stopCount r t.log = 1 ∨
      (t.b.destroyed = true ∨ p.event_ring_size = 0) ∧ .started r ∉ t.log := by
  by_cases hx : (s.doing u).reports = some r
  · exact hi.report_step hg h hx
  have hsame : stopCount r t.log = stopCount r s.log := by
    rw [stopCount, h.log, writeError_logCall, stopped_logCall hx, stopCount]
  rcases hi.settled r ((h.reported_iff.mp hr).resolve_right hx) with hdrop | hone | ⟨hoff, hno⟩
  · exact .inl (Nat.lt_of_lt_of_le hdrop h.kept.dropped)
  · exact .inr (.inl (hsame.trans hone))
  · refine .inr (.inr ⟨hoff.imp_left h.kept.destroyed, fun hs => ?_⟩)
    rw [h.log] at hs
    rcases started_logCall hs with hs | ⟨hlive, hring, -⟩
    · exact hno hs
    · exact hoff.elim hlive hring

include hg in
theorem Pairing.Sound.call_step : t.Sound p where
  tidy := by
    rw [h.call]
    exact hi.tidy.step h.step (StopsOnce.rollsBack hg)
  gone r hr := hi.gone_step hg h hr
  told r hr := hi.told_step h hr
  errors r hr := hi.errors_step h hr
  plain r hr hstop := by
    rw [h.reported_iff, not_or] at hr
    rw [h.log, ← List.count_pos_iff, stopped_logCall hr.2, List.count_pos_iff] at hstop
    exact hi.plain r hr.1 hstop
  silent r hr hw := hi.silent_step h hr hw
  mute hring r hr := by
    rw [h.log] at hr
    exact (started_logCall hr).elim (hi.mute hring r) fun ha => ha.2.1 hring
  settled r hr := hi.settled_step hg h hr

end Call
structure PhaseStep (s t : Pairing) (r : ℕ) : Prop where
  writer : WriterStep s.b t.b r
  kept : RingKept s.b t.b
  call : t.call = s.call
  phase : ∀ n, n ≠ r → t.phase n = s.phase n
  log : t.log = s.log ∨ t.log = .writeError r :: s.log ∧ (s.b.consumer r).writer = .loop ∧
    s.phase r = .failed ∧ (t.b.consumer r).writer = .loop ∧ t.phase r = .closing
  closing : (s.b.consumer r).writer = .loop → s.phase r = .closing →
    (t.b.consumer r).writer = .ended
  entering : (t.b.consumer r).writer = .loop → t.phase r = .write ∨ t.phase r = .failed →
    (s.b.consumer r).writer = .loop ∧ (s.phase r = .write ∨ s.phase r = .failed) ∨
      (s.b.consumer r).running = true

theorem modify_self (b : Broadcast) (r : ℕ) : b.consumers = b.consumers.modify r fun x =>
    { x with running := (b.consumer r).running, writer := (b.consumer r).writer } := by
  simp [Consumers.modify, Broadcast.consumers]

theorem writerStep_phase (hs : writerStep p s r c = some t) : PhaseStep s t r := by
  have hupdate : ∀ {k : WriterPhase} n, n ≠ r → Function.update s.phase r k n = s.phase n :=
    fun n hn => Function.update_of_ne hn _ _
  have alive : ∀ {k : WriterPc}, (s.b.consumer r).writer = k → k.Alive →
      (s.b.consumer r).writer.Alive := fun hk ha => by rwa [← hk] at ha
  simp only [writerStep] at hs
  split at hs
  case h_1 hw =>
    have ha := alive hw ⟨by decide, by decide⟩
    split_ifs at hs <;> obtain rfl := Option.some.inj hs
    · exact ⟨⟨ha, .ended, false, by rintro ⟨⟩, rfl⟩, ⟨id, Nat.le_refl _⟩, rfl, fun _ _ => rfl,
        .inl rfl, fun h => (by cases hw.symm.trans h),
        fun h => (by simp [Broadcast.modifyConsumer] at h)⟩
    · exact ⟨⟨ha, .loop, _, id, rfl⟩, ⟨id, Nat.le_refl _⟩, rfl, hupdate, .inl rfl,
        fun h => (by cases hw.symm.trans h), fun _ h => (by simp at h)⟩
  case h_2 hw hp =>
    have ha := alive hw ⟨by decide, by decide⟩
    obtain rfl := Option.some.inj hs
    refine ⟨⟨ha, _, _, id, modify_self s.b r⟩, .rfl, rfl, hupdate, .inl rfl,
      fun _ h => (by cases hp.symm.trans h), fun _ h => ?_⟩
    simp only [Function.update_self] at h
    split_ifs at h <;> simp at h
  case h_3 hw hp =>
    have ha := alive hw ⟨by decide, by decide⟩
    obtain rfl := Option.some.inj hs
    refine ⟨⟨ha, _, _, id, modify_self s.b r⟩, .rfl, rfl, hupdate, .inl rfl,
      fun _ h => (by cases hp.symm.trans h), fun _ h => ?_⟩
    simp only [Function.update_self] at h
    split_ifs at h with hrun
    · exact .inr hrun.1
    · simp at h
  case h_4 hw hp =>
    have ha := alive hw ⟨by decide, by decide⟩
    split_ifs at hs <;> obtain rfl := Option.some.inj hs
    · exact ⟨⟨ha, _, false, by rintro ⟨⟩, rfl⟩, ⟨id, Nat.le_refl _⟩, rfl, hupdate, .inl rfl,
        fun _ h => (by cases hp.symm.trans h), fun _ _ => .inl ⟨hw, .inl hp⟩⟩
    · exact ⟨⟨ha, _, _, id, modify_self s.b r⟩, .rfl, rfl, hupdate, .inl rfl,
        fun _ h => (by cases hp.symm.trans h), fun _ _ => .inl ⟨hw, .inl hp⟩⟩
  case h_5 hw hp =>
    have ha := alive hw ⟨by decide, by decide⟩
    obtain rfl := Option.some.inj hs
    have hcons : (enqueueEvent p s.b .recordingStop 0).consumers = s.b.consumers :=
      consumers_of_core (enqueueEvent_core ..)
    refine ⟨⟨ha, _, _, id, hcons.trans (modify_self s.b r)⟩, enqueueEvent_kept .., rfl, hupdate,
      ?_, fun _ h => (by cases hp.symm.trans h), fun _ h => (by simp at h)⟩
    simp only [Pairing.offer]
    split_ifs
    · have hsame : (enqueueEvent p s.b .recordingStop 0).consumer = s.b.consumer :=
        congrArg Consumers.consumer hcons
      exact .inr ⟨rfl, hw, hp, by rw [hsame]; exact hw, Function.update_self ..⟩
    · exact .inl rfl
  case h_6 hw hp =>
    have ha := alive hw ⟨by decide, by decide⟩
    obtain rfl := Option.some.inj hs
    exact ⟨⟨ha, .ended, _, id, rfl⟩, ⟨id, Nat.le_refl _⟩, rfl, fun _ _ => rfl, .inl rfl,
      fun _ _ => (by simp [Broadcast.modifyConsumer]),
      fun h => (by simp [Broadcast.modifyConsumer] at h)⟩
  case h_7 => cases hs

section Writer

variable (hi : s.Sound p) (h : PhaseStep s t r)

include h

theorem PhaseStep.doing : t.doing = s.doing := by
  funext u
  rw [Pairing.doing, h.call, Pairing.doing]

theorem PhaseStep.mem {e : RecordingEvent} (he : e ∈ t.log) : e = .writeError r ∨ e ∈ s.log := by
  rcases h.log with hl | ⟨hl, -⟩
  · exact .inr (hl ▸ he)
  · rw [hl] at he
    exact List.mem_cons.mp he

theorem PhaseStep.freed_iff : .freed n ∈ t.log ↔ .freed n ∈ s.log := by
  rcases h.log with hl | ⟨hl, -⟩ <;> simp [hl]

theorem PhaseStep.reported_iff : t.Reported n ↔ s.Reported n := by
  rw [Pairing.Reported, Pairing.Reported, h.freed_iff, h.doing]

theorem PhaseStep.past_iff : t.Past n ↔ s.Past n := by
  rw [Pairing.Past, Pairing.Past, h.freed_iff, h.doing]

include hi

/-- A writer reports an error once, on its way out. -/
theorem Pairing.Sound.errors_phase (hn : .writeError n ∈ t.log) : n < t.b.next_recording ∧
    t.log.count (.writeError n) = 1 ∧ ((t.b.consumer n).writer = .ended ∨
      (t.b.consumer n).writer = .loop ∧ t.phase n = .closing) := by
  rw [h.writer.next]
  by_cases hnr : n = r
  · subst hnr
    refine ⟨(hi.tidy.thread n h.writer.alive).2, ?_⟩
    have hclosing : .writeError n ∈ s.log → (s.b.consumer n).writer = .loop ∧
        s.phase n = .closing := fun hm =>
      (hi.errors n hm).2.2.resolve_left fun hend => h.writer.alive.2 hend
    rcases h.log with hl | ⟨hl, hw, hp, hw', hp'⟩
    · rw [hl] at hn ⊢
      obtain ⟨hw, hp⟩ := hclosing hn
      exact ⟨(hi.errors n hn).2.1, .inl (h.closing hw hp)⟩
    · have hno : .writeError n ∉ s.log := fun hm => by cases hp.symm.trans (hclosing hm).2
      rw [hl, List.count_cons_self, List.count_eq_zero.mpr hno]
      exact ⟨rfl, .inr ⟨hw', hp'⟩⟩
  · have hold : .writeError n ∈ s.log :=
      (h.mem hn).resolve_left fun he => hnr (RecordingEvent.writeError.inj he)
    have hcount : t.log.count (.writeError n) = s.log.count (.writeError n) := by
      rcases h.log with hl | ⟨hl, -⟩
      · rw [hl]
      · rw [hl, List.count_cons_of_ne (by simpa using Ne.symm hnr)]
    rw [hcount, h.writer.of_ne hnr, h.phase n hnr]
    exact hi.errors n hold

/-- A writer that was told to stop goes on to no write. -/
theorem Pairing.Sound.silent_phase (hn : t.Past n) (hw : (t.b.consumer n).writer = .loop) :
    t.phase n ≠ .write ∧ t.phase n ≠ .failed := by
  rw [h.past_iff] at hn
  by_cases hnr : n = r
  · subst hnr
    rw [← not_or]
    intro hp
    rcases h.entering hw hp with ⟨hold, hphase⟩ | htrue
    · obtain ⟨h₁, h₂⟩ := hi.silent n hn hold
      exact hphase.elim h₁ h₂
    · cases (hi.told n (Pairing.hand_of_past hn)).symm.trans htrue
  · rw [h.writer.of_ne hnr] at hw
    rw [h.phase n hnr]
    exact hi.silent n hn hw

theorem Pairing.Sound.settled_phase (hn : t.Reported n) : 0 < t.b.stat_events_dropped ∨
    stopCount n t.log = 1 ∨
      (t.b.destroyed = true ∨ p.event_ring_size = 0) ∧ .started n ∉ t.log := by
  rw [h.reported_iff] at hn
  have hsame : stopCount n t.log = stopCount n s.log := by
    rcases h.log with hl | ⟨hl, hw, hp, -⟩
    · rw [hl]
    · -- a consumer that has been reported is not one whose writer still reports
      have hnr : r ≠ n := by
        rintro rfl
        exact (hi.silent r (Pairing.past_of_reported hn) hw).2 hp
      rw [stopCount, hl, List.count_cons_of_ne (by simp),
        List.count_cons_of_ne (by simpa using hnr), stopCount]
  rcases hi.settled n hn with hdrop | hone | ⟨hoff, hno⟩
  · exact .inl (Nat.lt_of_lt_of_le hdrop h.kept.dropped)
  · exact .inr (.inl (hsame.trans hone))
  · exact .inr (.inr ⟨hoff.imp_left h.kept.destroyed,
      fun hm => hno ((h.mem hm).resolve_left (by simp))⟩)

theorem Pairing.Sound.phase_step : t.Sound p where
  tidy := by
    rw [h.doing]
    exact hi.tidy.writer h.writer
  gone n hn := by
    rw [h.writer.next, h.writer.recordings, h.doing]
    obtain ⟨hlt, hno, hhand, hfresh⟩ := hi.gone n (h.freed_iff.mp hn)
    refine ⟨hlt, hno, fun u hu => hhand u ?_, hfresh⟩
    rwa [hand_of_next h.writer.next fun n => (h.writer.fields n).1] at hu
  told n hn := by
    refine (h.writer.fields n).2.2.2 (hi.told n (hn.imp (fun ⟨u, hu⟩ => ⟨u, ?_⟩) h.freed_iff.mp))
    rwa [h.doing, hand_of_next h.writer.next fun n => (h.writer.fields n).1] at hu
  errors n hn := hi.errors_phase h hn
  plain n hn hstop := by
    rw [h.reported_iff] at hn
    exact hi.plain n hn ((h.mem hstop).resolve_left (by simp))
  silent n hn hw := hi.silent_phase h hn hw
  mute hring n hn := hi.mute hring n ((h.mem hn).resolve_left (by simp))
  settled n hn := hi.settled_phase h hn

end Writer

/-- A thread that enters one of the functions, or goes on to the stop of a destroy. -/
theorem PairingMove.enter {z : PairingCall} (hb : t.b.consumers = s.b.consumers)
    (hk : RingKept s.b t.b) (hu : s.doing u = .idle) (hz : z.doing.Free)
    (hc : t.call = Function.update s.call u z) (hp : t.phase = s.phase) (hlog : t.log = s.log) :
    PairingMove p s t u .ok z.doing where
  call := doing_update hc
  step := by
    rw [hu]
    exact .quiet hb trivial id hz
  kept := hk
  refused r hr := by
    rw [hu] at hr
    cases hr
  log := by
    rw [hu, hlog]
    rfl
  phase := hp

/-- A step of the broadcast that no recording has part in. -/
theorem Pairing.Sound.frame (hi : s.Sound p) (hb : t.b.consumers = s.b.consumers)
    (hk : RingKept s.b t.b) (hc : t.call = s.call) (hp : t.phase = s.phase)
    (hlog : t.log = s.log) : t.Sound p := by
  have hdoing : t.doing = s.doing := by
    funext u
    rw [Pairing.doing, hc, Pairing.doing]
  have hnext : t.b.next_recording = s.b.next_recording := congrArg Consumers.next hb
  have hcons : t.b.consumer = s.b.consumer := congrArg Consumers.consumer hb
  have hhand : ∀ x : RecordCall, x.hand t.b = x.hand s.b :=
    hand_of_next hnext fun r => by rw [hcons]
  constructor
  case tidy =>
    rw [hdoing]
    exact hi.tidy.congr hb
  case gone =>
    simp only [hlog, hnext, recordings_of_consumers hb, hdoing, hhand]
    exact hi.gone
  case told =>
    simp only [hdoing, hlog, hcons, hhand]
    exact hi.told
  case errors =>
    simp only [hlog, hcons, hp, hnext]
    exact hi.errors
  case plain =>
    simp only [Pairing.Reported, hdoing, hlog]
    exact hi.plain
  case silent =>
    simp only [Pairing.Past, hdoing, hlog, hcons, hp]
    exact hi.silent
  case mute =>
    simp only [hlog]
    exact hi.mute
  case settled =>
    simp only [Pairing.Reported, hdoing, hlog]
    intro r hr
    rcases hi.settled r hr with h | h | ⟨h, hs⟩
    · exact .inl (Nat.lt_of_lt_of_le h hk.dropped)
    · exact .inr (.inl h)
    · exact .inr (.inr ⟨h.imp_left hk.destroyed, hs⟩)

theorem Pairing.Sound.step (hi : s.Sound p) (hg : StopsOnce s a)
    (hs : pairingStep p s a = some t) : t.Sound p := by
  have idle : ∀ {u}, s.doing u = .idle → (s.doing u).StopsOnce s := fun hu => by
    rw [hu]
    trivial
  cases a with
  | start u target | stop u target | destroy u grace =>
    simp only [pairingStep] at hs
    split_ifs at hs with hu
    obtain rfl := Option.some.inj hs
    have hdoing : s.doing u = .idle := congrArg PairingCall.doing hu
    refine hi.call_step (idle hdoing) (.enter rfl .rfl hdoing ?_ rfl rfl rfl)
    trivial
  | step u c =>
    simp only [pairingStep] at hs
    split at hs
    case h_1 x hu =>
      obtain ⟨⟨b, y⟩, hy, rfl⟩ := Option.map_eq_some_iff.mp hs
      have hdoing : s.doing u = x := congrArg PairingCall.doing hu
      rw [← hdoing] at hy
      refine hi.call_step hg (c := c) ⟨doing_update rfl, recordCall_step hi.tidy.lists hy,
        (recordCall_writes hy).kept, fun r => recordCall_refused hy, ?_, rfl⟩
      rw [hdoing]
    case h_2 hu | h_3 hu =>
      obtain rfl := Option.some.inj hs
      have hdoing : s.doing u = .idle := congrArg PairingCall.doing hu
      refine hi.call_step (idle hdoing) (.enter ?_ ?_ hdoing ?_ rfl rfl rfl)
      · first | exact consumers_of_core (enqueueEvent_core ..) | rfl
      · first | exact enqueueEvent_kept .. | exact ⟨fun _ => rfl, Nat.le_refl _⟩
      · trivial
  | writer r c => exact hi.phase_step (writerStep_phase hs)
  | other type =>
    simp only [pairingStep] at hs
    split_ifs at hs
    obtain rfl := Option.some.inj hs
    exact hi.frame (consumers_of_core (enqueueEvent_core ..)) (enqueueEvent_kept ..) rfl rfl rfl
  | emit =>
    obtain rfl := Option.some.inj hs
    exact hi.frame rfl ⟨id, Nat.le_refl _⟩ rfl rfl rfl

variable {h : List (Pairing × PairingAction)}

/-- In every run in which the ring drops no event and each stop is reported by the writer or by the
one who joins it, every recording that was announced is reported as stopped once. -/
theorem recording_events_pair (hr : Run (pairingStep p) Pairing.init h s) (hm : Meets StopsOnce h)
    (hd : s.b.stat_events_dropped = 0) : s.Paired := by
  have hi : s.Sound p := hr.invariant (fun _ _ _ hi hg hs => hi.step hg hs) hm (.init p)
  intro r hstarted hfreed
  rcases hi.settled r (.inl hfreed) with hdrop | hone | ⟨-, hno⟩
  · rw [hd] at hdrop
    exact absurd hdrop (Nat.lt_irrefl 0)
  · exact hone
  · exact absurd hstarted hno

/-- The steps of a start whose thread is created, and of a writer whose first write fails. -/
def announceSteps (u : ℕ) (target : String) : List PairingAction :=
  .start u target :: List.replicate 5 (.step u .ok)

def failedWriter (r : ℕ) : List PairingAction :=
  List.replicate 3 (.writer r .ok) ++ .writer r .fail :: List.replicate 2 (.writer r .ok)

/-- One recording is stopped; the writer of another one fails before the broadcast is destroyed. -/
theorem recording_events_pair_destroy : ∃ (h : List (Pairing × PairingAction)) (s : Pairing),
    Run (pairingStep ⟨8, false, 16, false, false⟩) Pairing.init h s ∧
      s.log = [.freed 1, .freed 0, .stopped 0, .writeError 1, .started 1, .started 0] ∧
      s.Paired := by
  obtain ⟨h, s, hr, hm, hv⟩ := exists_run_observing (pairingStep ⟨8, false, 16, false, false⟩)
    (fun s a => decide (StopsOnce s a)) Pairing.init
    (List.flatten [announceSteps 0 "a", announceSteps 1 "b", failedWriter 1,
      [.stop 2 (some "a"), .step 2 .ok], List.replicate 3 (.writer 0 .ok),
      List.replicate 6 (.step 2 .ok), .destroy 3 false :: List.replicate 8 (.step 3 .ok)])
    (fun _ s => (s.log, s.b.stat_events_dropped))
    (v := ([.freed 1, .freed 0, .stopped 0, .writeError 1, .started 1, .started 0], 0)) (by decide)
  obtain ⟨hlog, hd⟩ := Prod.mk.inj hv
  exact ⟨h, s, hr, hlog, recording_events_pair hr (hm.mono fun _ _ => of_decide_eq_true) hd⟩

/-- A stop after a write error: the recording is reported as stopped by its writer and by the
stop. -/
theorem recording_stopped_twice : ¬ ∀ (h : List (Pairing × PairingAction)) (s : Pairing),
    Run (pairingStep ⟨8, false, 16, false, false⟩) Pairing.init h s →
      s.b.stat_events_dropped = 0 → s.Paired := by
  refine not_forall_run (fun _ _ => true)
    (List.flatten [announceSteps 0 "a", failedWriter 0,
      .stop 1 none :: List.replicate 7 (.step 1 .ok)])
    (fun _ s => (s.log, s.b.stat_events_dropped))
    (v := ([.freed 0, .stopped 0, .writeError 0, .started 0], 0)) (by decide) ?_
  intro h s _ _ hv hall
  obtain ⟨hlog, hd⟩ := Prod.mk.inj hv
  have hone := hall hd 0 (by simp [hlog]) (by simp [hlog])
  rw [hlog] at hone
  revert hone
  decide

end ModBroadcast
