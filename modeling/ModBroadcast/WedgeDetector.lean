import ModBroadcast.ExitAttribution

namespace ModBroadcast

open Automaton

/-- The room with `last_seen_seq_advance` of its members and the DTMF actions that their threads
are executing. -/
structure TimedRoom where
  room : Room
  last_seen_seq_advance : ℕ → ℤ
  action : ℕ → Option ControlAction

/-- A step of the room with the time that it reads, or the return of the action of a member. In a
pass of housekeeping this is the time that the pass has read when it began. -/
inductive TimedAction
  | room (a : RoomAction) (now : ℤ)
  | actionReturns (m : ℕ)
  deriving DecidableEq

def TimedRoom.init : TimedRoom := ⟨.init, fun _ => 0, fun _ => none⟩

def Choice.dispatched : Choice → Option ControlAction
  | .dtmf act => some act
  | _ => none

def TimedRoom.stale (uuid : ℕ → String) (s : TimedRoom) (now : ℤ) : List ℕ :=
  s.room.b.listeners.filter fun m =>
    (s.room.b.member m).role = .listener ∧ (s.room.b.member m).mflags.running ∧
      ¬ (s.last_seen_seq_advance m ≤ 0 ∨ now - s.last_seen_seq_advance m ≤ 5000000) ∧ uuid m ≠ ""

/-- A step. The marks of a pass end early when there is no memory for a copy of a uuid; a listener
is marked at the moment at which the pass loads its `last_seen_seq_advance`. -/
def timedStep (p : RoomProfile) (uuid : ℕ → String) (s : TimedRoom) :
    TimedAction → Option TimedRoom
  | .room (.session m c) now =>
    -- no step of the thread before the action has returned
    if s.action m ≠ none then none
    else (roomStep p s.room (.session m c)).map fun r =>
      { room := r
        last_seen_seq_advance :=
          if s.room.session m = .listen .tick then Function.update s.last_seen_seq_advance m now
          else s.last_seen_seq_advance
        action :=
          if (s.room.session m).dispatches then Function.update s.action m c.dispatched
          else s.action }
  | .room (.housekeeping (.pick l)) now =>
    if s.room.housekeeping = .mark ∧ ¬ l <+: s.stale uuid now then none
    else (roomStep p s.room (.housekeeping (.pick l))).map fun r => { s with room := r }
  | .room a _ => (roomStep p s.room a).map fun r => { s with room := r }
  | .actionReturns m =>
    if s.action m = none then none else some { s with action := Function.update s.action m none }

def TimedRoom.Removes (s : TimedRoom) (m : ℕ) : TimedAction → Prop
  | .room (.housekeeping c) _ =>
    s.room.housekeeping = .mark ∧ (∃ l, c = .pick l ∧ m ∈ wedged s.room.b l) ∨
      ∃ l, s.room.housekeeping = .hangup (m :: l)
  | _ => False

/-- The pass removes no member whose thread is executing an action. -/
def SparesBusy (s : TimedRoom) (a : TimedAction) : Prop := ∀ m, s.Removes m a → s.action m = none

def lastTick (m : ℕ) : List (TimedRoom × TimedAction) → Option ℤ
  | [] => none
  | (s, .room (.session n _) now) :: h =>
    if n = m ∧ s.room.session m = .listen .tick then some now else lastTick m h
  | _ :: h => lastTick m h

/-- An action that `m` has dispatched since the marks of the last pass has not returned. -/
def actsSinceMark (m : ℕ) : List (TimedRoom × TimedAction) → Bool
  | [] => false
  | (s, .room (.session n c) _) :: h =>
    if n = m ∧ (s.room.session m).dispatches then c.dispatched.isSome else actsSinceMark m h
  | (s, .room (.housekeeping _) _) :: h =>
    if s.room.housekeeping = .mark then false else actsSinceMark m h
  | (_, .actionReturns n) :: h => if n = m then false else actsSinceMark m h
  | _ :: h => actsSinceMark m h

/-- Where a pass marks, a listener in the middle of an action has had its last tick in the
5 seconds before it; where it hangs up, the listener is done with what it has dispatched since. -/
def HousekeepingPc.InTime (uuid : ℕ → String) (h : List (TimedRoom × TimedAction))
    (s : TimedRoom) (now : ℤ) : HousekeepingPc → Prop
  | .mark => ∀ m ∈ s.room.b.listeners, (s.room.b.member m).role = .listener →
      (s.room.b.member m).mflags.running → uuid m ≠ "" → s.action m ≠ none →
        ∀ tick ∈ lastTick m h, 0 < tick → now - tick ≤ 5000000
  | .hangup (m :: _) => actsSinceMark m h = false
  | _ => True

def PassInTime (uuid : ℕ → String) (h : List (TimedRoom × TimedAction)) (s : TimedRoom) :
    TimedAction → Prop
  | .room (.housekeeping _) now => s.room.housekeeping.InTime uuid h s now
  | _ => True

instance (uuid : ℕ → String) (h : List (TimedRoom × TimedAction)) (s : TimedRoom) (now : ℤ) :
    DecidablePred (HousekeepingPc.InTime uuid h s now)
  | .mark => inferInstanceAs (Decidable (∀ m ∈ s.room.b.listeners,
      (s.room.b.member m).role = .listener → (s.room.b.member m).mflags.running → uuid m ≠ "" →
        s.action m ≠ none → ∀ tick ∈ lastTick m h, 0 < tick → now - tick ≤ 5000000))
  | .hangup (m :: _) => inferInstanceAs (Decidable (actsSinceMark m h = false))
  | .hangup [] | .idle | .heartbeat => .isTrue trivial

instance (uuid : ℕ → String) (h : List (TimedRoom × TimedAction)) (s : TimedRoom) :
    DecidablePred (PassInTime uuid h s)
  | .room (.housekeeping _) now =>
    inferInstanceAs (Decidable (s.room.housekeeping.InTime uuid h s now))
  | .room (.join ..) _ | .room (.session ..) _ | .room (.call ..) _ | .room (.shutdown _) _
  | .room (.api ..) _ | .room (.producer _) _ | .room (.input ..) _ | .room (.writer ..) _
  | .room .emitter _ | .room (.hangup _) _ | .room .elapse _ | .actionReturns _ => .isTrue trivial

/-- A listener that a pass has marked dispatches nothing until the pass has hung it up. -/
def DispatchesUnmarked (s : TimedRoom) (a : TimedAction) : Prop :=
  ∀ m c now, a = .room (.session m c) now → (s.room.session m).dispatches → c.dispatched ≠ none →
    ∀ l, s.room.housekeeping = .hangup l → m ∉ l

/-- The pass finds the memory to mark all of them. -/
def MarksAll (uuid : ℕ → String) (s : TimedRoom) : TimedAction → Prop
  | .room (.housekeeping (.pick l)) now => s.room.housekeeping = .mark → l = s.stale uuid now
  | _ => True

variable {p : RoomProfile} {uuid : ℕ → String} {h : List (TimedRoom × TimedAction)}
  {s t : TimedRoom} {a : TimedAction} {m n : ℕ} {c : Choice} {now : ℤ} {l : List ℕ} {r r' : Room}

/-- The places of a pass. -/
theorem runtimeHousekeeping_next (hs : roomStep p r (.housekeeping c) = some r') :
    (∃ l, r.housekeeping = .mark ∧ c = .pick l ∧ r'.housekeeping = .hangup (wedged r.b l)) ∨
      (∃ m l, r.housekeeping = .hangup (m :: l) ∧ r'.housekeeping = .hangup l) ∨
      r.housekeeping ≠ .mark ∧ ∀ l, r'.housekeeping ≠ .hangup l := by
  obtain ⟨⟨b, k⟩, hx, rfl⟩ := Option.map_eq_some_iff.mp hs
  cases hpc : r.housekeeping with
  | idle =>
    simp only [hpc, runtimeHousekeeping] at hx
    split_ifs at hx
    cases hx
    exact .inr (.inr ⟨HousekeepingPc.noConfusion, fun l => HousekeepingPc.noConfusion⟩)
  | heartbeat =>
    simp only [hpc, runtimeHousekeeping] at hx
    cases hx
    exact .inr (.inr ⟨HousekeepingPc.noConfusion, fun l => HousekeepingPc.noConfusion⟩)
  | mark =>
    cases c with
    | pick l =>
      simp only [hpc, runtimeHousekeeping] at hx
      cases hx
      exact .inl ⟨l, rfl, rfl, rfl⟩
    | _ =>
      simp only [hpc, runtimeHousekeeping] at hx
      cases hx
  | hangup l =>
    cases l with
    | nil =>
      simp only [hpc, runtimeHousekeeping] at hx
      cases hx
      exact .inr (.inr ⟨HousekeepingPc.noConfusion, fun l => HousekeepingPc.noConfusion⟩)
    | cons m l =>
      simp only [hpc, runtimeHousekeeping] at hx
      cases hx
      exact .inr (.inl ⟨m, l, rfl, rfl⟩)

/-- What a step does to the times, to the actions and to the place of the pass. -/
inductive TimedStep (uuid : ℕ → String) (s t : TimedRoom) : TimedAction → Prop
  | session {m : ℕ} {c : Choice} {now : ℤ} (hidle : s.action m = none)
      (hpass : t.room.housekeeping = s.room.housekeeping)
      (hlast : t.last_seen_seq_advance =
        if s.room.session m = .listen .tick then Function.update s.last_seen_seq_advance m now
        else s.last_seen_seq_advance)
      (haction : t.action =
        if (s.room.session m).dispatches then Function.update s.action m c.dispatched
        else s.action) :
      TimedStep uuid s t (.room (.session m c) now)
  | pass {c : Choice} {now : ℤ} (hlast : t.last_seen_seq_advance = s.last_seen_seq_advance)
      (haction : t.action = s.action)
      (hmark : ∀ l, s.room.housekeeping = .mark → c = .pick l → l <+: s.stale uuid now)
      (hnext : (∃ l, s.room.housekeeping = .mark ∧ c = .pick l ∧
          t.room.housekeeping = .hangup (wedged s.room.b l)) ∨
        (∃ m l, s.room.housekeeping = .hangup (m :: l) ∧ t.room.housekeeping = .hangup l) ∨
        s.room.housekeeping ≠ .mark ∧ ∀ l, t.room.housekeeping ≠ .hangup l) :
      TimedStep uuid s t (.room (.housekeeping c) now)
  | other {a : RoomAction} {now : ℤ} (ha : ∀ m c, a ≠ .session m c)
      (ha' : ∀ c, a ≠ .housekeeping c) (hpass : t.room.housekeeping = s.room.housekeeping)
      (hlast : t.last_seen_seq_advance = s.last_seen_seq_advance) (haction : t.action = s.action) :
      TimedStep uuid s t (.room a now)
  | returns {m : ℕ} (hroom : t.room = s.room)
      (hlast : t.last_seen_seq_advance = s.last_seen_seq_advance)
      (haction : t.action = Function.update s.action m none) :
      TimedStep uuid s t (.actionReturns m)

theorem timedStep_cases (hs : timedStep p uuid s a = some t) : TimedStep uuid s t a := by
  cases a with
  | actionReturns m =>
    simp only [timedStep] at hs
    split_ifs at hs
    obtain rfl := Option.some.inj hs
    exact .returns rfl rfl rfl
  | room a now =>
    cases a with
    | session m c =>
      rw [timedStep] at hs
      by_cases hidle : s.action m = none
      · rw [if_neg (not_not.mpr hidle)] at hs
        obtain ⟨r, hr, rfl⟩ := Option.map_eq_some_iff.mp hs
        exact .session hidle ((roomStep_background hr).2.2 fun _ => RoomAction.noConfusion) rfl rfl
      · rw [if_pos hidle] at hs
        cases hs
    | housekeeping c =>
      have hpass : ∃ r, roomStep p s.room (.housekeeping c) = some r ∧ t = { s with room := r } ∧
          ∀ l, s.room.housekeeping = .mark → c = .pick l → l <+: s.stale uuid now := by
        cases c with
        | pick l =>
          simp only [timedStep] at hs
          split_ifs at hs with hl
          obtain ⟨r, hr, rfl⟩ := Option.map_eq_some_iff.mp hs
          refine ⟨r, hr, rfl, fun l' hpc hc => ?_⟩
          cases hc
          exact not_not.mp fun hn => hl ⟨hpc, hn⟩
        | _ =>
          obtain ⟨r, hr, rfl⟩ := Option.map_eq_some_iff.mp hs
          exact ⟨r, hr, rfl, fun l _ hc => by cases hc⟩
      obtain ⟨r, hr, rfl, hl⟩ := hpass
      exact .pass rfl rfl hl (runtimeHousekeeping_next hr)
    | _ =>
      simp only [timedStep, Option.map_eq_some_iff] at hs
      obtain ⟨r, hr, rfl⟩ := hs
      exact .other (fun _ _ => RoomAction.noConfusion) (fun _ => RoomAction.noConfusion)
        ((roomStep_background hr).2.2 fun _ => RoomAction.noConfusion) rfl rfl

/-- The field holds the time of the last tick, and what has begun since the marks still runs. -/
structure TimedRoom.Sound (h : List (TimedRoom × TimedAction)) (s : TimedRoom) : Prop where
  ticked : ∀ m, s.last_seen_seq_advance m = (lastTick m h).getD 0
  acts : ∀ m, actsSinceMark m h → s.action m ≠ none

theorem TimedRoom.Sound.init : TimedRoom.init.Sound [] :=
  ⟨fun _ => rfl, fun _ ha => by cases ha⟩

theorem lastTick_session : lastTick m ((s, .room (.session n c) now) :: h) =
    if n = m ∧ s.room.session m = .listen .tick then some now else lastTick m h := rfl

theorem lastTick_other (ha : ∀ n c now, a ≠ .room (.session n c) now) :
    lastTick m ((s, a) :: h) = lastTick m h := by
  cases a with
  | actionReturns n => rfl
  | room a now =>
    cases a with
    | session n c => exact absurd rfl (ha n c now)
    | _ => rfl

theorem actsSinceMark_session : actsSinceMark m ((s, .room (.session n c) now) :: h) =
    if n = m ∧ (s.room.session m).dispatches then c.dispatched.isSome else actsSinceMark m h := rfl

theorem actsSinceMark_pass : actsSinceMark m ((s, .room (.housekeeping c) now) :: h) =
    if s.room.housekeeping = .mark then false else actsSinceMark m h := rfl

theorem actsSinceMark_returns : actsSinceMark m ((s, .actionReturns n) :: h) =
    if n = m then false else actsSinceMark m h := rfl

theorem actsSinceMark_other {a : RoomAction} (ha : ∀ m c, a ≠ .session m c)
    (ha' : ∀ c, a ≠ .housekeeping c) :
    actsSinceMark m ((s, .room a now) :: h) = actsSinceMark m h := by
  cases a with
  | session n c => exact absurd rfl (ha n c)
  | housekeeping c => exact absurd rfl (ha' c)
  | _ => rfl

/-- The times along a step. -/
theorem TimedStep.ticked (hs : TimedStep uuid s t a)
    (hi : s.last_seen_seq_advance m = (lastTick m h).getD 0) :
    t.last_seen_seq_advance m = (lastTick m ((s, a) :: h)).getD 0 := by
  cases hs with
  | @session n c now hidle hpass hlast haction =>
    rw [hlast, lastTick_session]
    by_cases hn : n = m
    · subst hn
      split_ifs with htick htick' htick'
      · rw [Function.update_self, Option.getD_some]
      · exact absurd ⟨rfl, htick⟩ htick'
      · exact absurd htick'.2 htick
      · exact hi
    · have hother : ¬ (n = m ∧ s.room.session m = .listen .tick) := fun h => hn h.1
      rw [if_neg hother]
      split_ifs
      · rw [Function.update_of_ne (Ne.symm hn), hi]
      · exact hi
  | pass hlast | returns _ hlast =>
    rw [hlast, lastTick_other (by simp), hi]
  | other ha _ _ hlast =>
    rw [hlast, lastTick_other (by simpa using ha), hi]

/-- A step that is no pass leaves the action of a member and what the run tells of it alone, or
it makes them agree. -/
theorem TimedStep.busy (hs : TimedStep uuid s t a)
    (ha : ∀ c now, a ≠ .room (.housekeeping c) now) (m : ℕ) :
    t.room.housekeeping = s.room.housekeeping ∧
      ((t.action m ≠ none ↔ actsSinceMark m ((s, a) :: h)) ∨
        t.action m = s.action m ∧ actsSinceMark m ((s, a) :: h) = actsSinceMark m h) := by
  cases hs with
  | @session n c now hidle hpass hlast haction =>
    refine ⟨hpass, ?_⟩
    rw [haction, actsSinceMark_session]
    by_cases hd : (s.room.session n).dispatches
    · rw [if_pos hd]
      by_cases hn : n = m
      · subst hn
        rw [Function.update_self, if_pos ⟨rfl, hd⟩]
        exact .inl Option.isSome_iff_ne_none.symm
      · rw [Function.update_of_ne (Ne.symm hn), if_neg fun h => hn h.1]
        exact .inr ⟨rfl, rfl⟩
    · have hother : ¬ (n = m ∧ (s.room.session m).dispatches) := fun h => hd (h.1 ▸ h.2)
      rw [if_neg hd, if_neg hother]
      exact .inr ⟨rfl, rfl⟩
  | @pass c now => exact absurd rfl (ha c now)
  | other hsession hpass hplace _ haction =>
    rw [actsSinceMark_other hsession hpass, haction]
    exact ⟨hplace, .inr ⟨rfl, rfl⟩⟩
  | @returns n hroom _ haction =>
    refine ⟨by rw [hroom], ?_⟩
    rw [haction, actsSinceMark_returns]
    by_cases hn : n = m
    · subst hn
      rw [Function.update_self, if_pos rfl]
      exact .inl ⟨fun h => absurd rfl h, fun h => by cases h⟩
    · rw [Function.update_of_ne (Ne.symm hn), if_neg hn]
      exact .inr ⟨rfl, rfl⟩

/-- The actions along a step. -/
theorem TimedStep.acts (hs : TimedStep uuid s t a)
    (hi : actsSinceMark m h → s.action m ≠ none) (ha : actsSinceMark m ((s, a) :: h)) :
    t.action m ≠ none := by
  by_cases hpass : ∃ c now, a = .room (.housekeeping c) now
  · obtain ⟨c, now, rfl⟩ := hpass
    cases hs with
    | pass _ haction =>
      rw [actsSinceMark_pass] at ha
      split_ifs at ha
      rw [haction]
      exact hi ha
    | other _ ha' => exact absurd rfl (ha' c)
  · obtain ⟨-, hagree | ⟨hkept, hacts⟩⟩ := hs.busy (fun c now he => hpass ⟨c, now, he⟩) m
    · exact hagree.mpr ha
    · rw [hacts] at ha
      rw [hkept]
      exact hi ha

theorem TimedRoom.Sound.step (hi : s.Sound h) (hs : timedStep p uuid s a = some t) :
    t.Sound ((s, a) :: h) where
  ticked m := (timedStep_cases hs).ticked (hi.ticked m)
  acts m := (timedStep_cases hs).acts (hi.acts m)

/-- Whoever is still to be hung up executes nothing but what has begun since the marks. -/
def TimedRoom.Pending (h : List (TimedRoom × TimedAction)) (s : TimedRoom) : Prop :=
  ∀ l, s.room.housekeeping = .hangup l → ∀ m ∈ l, s.action m ≠ none → actsSinceMark m h

theorem mem_stale : m ∈ s.stale uuid now ↔ m ∈ s.room.b.listeners ∧
    (s.room.b.member m).role = .listener ∧ (s.room.b.member m).mflags.running ∧
      (0 < s.last_seen_seq_advance m ∧ 5000000 < now - s.last_seen_seq_advance m) ∧
        uuid m ≠ "" := by
  rw [TimedRoom.stale, List.mem_filter, decide_eq_true_eq, not_or, Int.not_le, Int.not_le]

/-- A mark in time spares the listeners that are in the middle of an action. -/
theorem idle_of_marked (hi : s.Sound h) (hpc : s.room.housekeeping = .mark)
    (hg : PassInTime uuid h s (.room (.housekeeping c) now)) (hl : l <+: s.stale uuid now)
    (hm : m ∈ wedged s.room.b l) : s.action m = none := by
  by_contra hbusy
  obtain ⟨-, hmem⟩ := List.mem_filter.mp hm
  have hmem : m ∈ l := (of_decide_eq_true hmem).1
  obtain ⟨hlisted, hrole, hrunning, ⟨hpos, hlate⟩, huuid⟩ := mem_stale.mp (hl.subset hmem)
  simp only [PassInTime, hpc, HousekeepingPc.InTime] at hg
  have hfresh := hg m hlisted hrole hrunning huuid hbusy
  rw [hi.ticked m] at hpos hlate
  cases ht : lastTick m h with
  | none =>
    rw [ht] at hpos
    exact absurd hpos (Int.lt_irrefl 0)
  | some tick =>
    rw [ht, Option.getD_some] at hpos hlate
    have := hfresh tick ht hpos
    omega

theorem TimedRoom.Pending.step (hp : s.Pending h) (hi : s.Sound h) (hg : PassInTime uuid h s a)
    (hs : timedStep p uuid s a = some t) : t.Pending ((s, a) :: h) := by
  intro l hl m hm hbusy
  have hstep := timedStep_cases hs
  by_cases hpass : ∃ c now, a = .room (.housekeeping c) now
  · obtain ⟨c, now, rfl⟩ := hpass
    cases hstep with
    | pass hlast haction hmark hnext =>
      rw [haction] at hbusy
      rcases hnext with ⟨l', hpc, hc, hnext⟩ | ⟨n, l', hpc, hnext⟩ | ⟨-, hnext⟩
      · rw [hl] at hnext
        cases hnext
        exact absurd (idle_of_marked hi hpc hg (hmark l' hpc hc) hm) hbusy
      · rw [hl] at hnext
        cases hnext
        rw [actsSinceMark_pass, if_neg (by simp [hpc])]
        exact hp _ hpc m (List.mem_cons_of_mem n hm) hbusy
      · exact absurd hl (hnext l)
    | other _ ha' => exact absurd rfl (ha' c)
  · obtain ⟨hplace, hagree | ⟨hkept, hacts⟩⟩ :=
      hstep.busy (fun c now he => hpass ⟨c, now, he⟩) m
    · exact hagree.mp hbusy
    · rw [hkept] at hbusy
      rw [hacts]
      exact hp l (hplace ▸ hl) m hm hbusy

theorem sparesBusy_of_inTime (hi : s.Sound h) (hp : s.Pending h) (hg : PassInTime uuid h s a)
    (hs : timedStep p uuid s a = some t) : SparesBusy s a := by
  intro m hm
  cases timedStep_cases hs with
  | @pass c now hlast haction hmark hnext =>
    rcases hm with ⟨hpc, l, hc, hmem⟩ | ⟨l, hpc⟩
    · exact idle_of_marked hi hpc hg (hmark l hpc hc) hmem
    · simp only [PassInTime, hpc, HousekeepingPc.InTime] at hg
      by_contra hbusy
      have hacts := hp _ hpc m (List.mem_cons_self ..) hbusy
      rw [hg] at hacts
      cases hacts
  | @other a now ha ha' =>
    cases a with
    | housekeeping c => exact absurd rfl (ha' c)
    | _ => exact hm.elim
  | session | returns => exact hm.elim

/-- A pass that marks all of the stale listeners and spares the busy ones is in time. -/
theorem inTime_of_sparesBusy (hi : s.Sound h) (hall : MarksAll uuid s a) (hb : SparesBusy s a)
    (hs : timedStep p uuid s a = some t) : PassInTime uuid h s a := by
  cases timedStep_cases hs with
  | session | returns => trivial
  | @other a now ha ha' =>
    cases a with
    | housekeeping c => exact absurd rfl (ha' c)
    | _ => trivial
  | @pass c now hlast haction hmark hnext =>
    change s.room.housekeeping.InTime uuid h s now
    cases hpc : s.room.housekeeping with
    | idle | heartbeat => trivial
    | mark =>
      rcases hnext with ⟨l, -, rfl, -⟩ | ⟨n, l, hpc', -⟩ | ⟨hne, -⟩
      · intro m hlisted hrole hrunning huuid hbusy tick htick hpos
        by_contra hlate
        have hstale : m ∈ s.stale uuid now := by
          refine mem_stale.mpr ⟨hlisted, hrole, hrunning, ?_, huuid⟩
          rw [hi.ticked m, show lastTick m h = some tick from htick, Option.getD_some]
          omega
        have hmem : m ∈ wedged s.room.b l := by
          rw [hall hpc]
          exact List.mem_filter.mpr ⟨hlisted, decide_eq_true ⟨hstale, hrole, hrunning⟩⟩
        exact hbusy (hb m (.inl ⟨hpc, l, rfl, hmem⟩))
      · rw [hpc] at hpc'
        cases hpc'
      · exact absurd hpc hne
    | hangup l =>
      cases l with
      | nil => trivial
      | cons m l =>
        have hidle := hb m (.inr ⟨l, hpc⟩)
        by_contra hacts
        exact hi.acts m ((Bool.not_eq_false _).mp hacts) hidle

theorem timed_sound (hr : Run (timedStep p uuid) .init h t) : t.Sound h := by
  induction hr with
  | nil => exact .init
  | snoc _ hs ih => exact ih.step hs

/-- A run in time spares everybody who is executing an action. -/
theorem spared_of_inTime (hr : Run (timedStep p uuid) .init h t)
    (hm : MeetsPast (PassInTime uuid) h) : Meets SparesBusy h ∧ t.Pending h := by
  induction hr with
  | nil => exact ⟨meets_nil _, fun l hl => by cases hl⟩
  | @snoc h s a t run hs ih =>
    obtain ⟨hmeets, hp⟩ := ih hm.2
    have hi := timed_sound run
    exact ⟨meets_cons.mpr ⟨sparesBusy_of_inTime hi hp hm.1 hs, hmeets⟩, hp.step hi hm.1 hs⟩

theorem inTime_of_spared (hr : Run (timedStep p uuid) .init h t) (hall : Meets (MarksAll uuid) h)
    (hm : Meets SparesBusy h) : MeetsPast (PassInTime uuid) h := by
  induction hr with
  | nil => trivial
  | @snoc h s a t run hs ih =>
    obtain ⟨hall, hall'⟩ := meets_cons.mp hall
    obtain ⟨hb, hb'⟩ := meets_cons.mp hm
    exact ⟨inTime_of_sparesBusy (timed_sound run) hall hb hs, ih hall' hb'⟩

def TimedRoom.Quiet (h : List (TimedRoom × TimedAction)) (s : TimedRoom) : Prop :=
  ∀ l, s.room.housekeeping = .hangup l → ∀ m ∈ l, actsSinceMark m h = false

theorem TimedRoom.Quiet.step (hq : s.Quiet h) (hd : DispatchesUnmarked s a)
    (hs : timedStep p uuid s a = some t) : t.Quiet ((s, a) :: h) := by
  intro l hl m hm
  cases timedStep_cases hs with
  | @session n c now hidle hpass hlast haction =>
    rw [hpass] at hl
    rw [actsSinceMark_session]
    split_ifs with hn
    · obtain ⟨rfl, hdispatch⟩ := hn
      by_contra hsome
      refine hd n c now rfl hdispatch (fun hnone => hsome ?_) l hl hm
      rw [hnone]
      rfl
    · exact hq l hl m hm
  | pass hlast haction hmark hnext =>
    rw [actsSinceMark_pass]
    split_ifs with hpc
    · rfl
    · rcases hnext with ⟨_, hpc', -⟩ | ⟨n, l', hpc', hnext⟩ | ⟨-, hnext⟩
      · exact absurd hpc' hpc
      · rw [hl] at hnext
        cases hnext
        exact hq _ hpc' m (List.mem_cons_of_mem n hm)
      · exact absurd hl (hnext l)
  | other ha ha' hpass =>
    rw [actsSinceMark_other ha ha']
    exact hq l (hpass ▸ hl) m hm
  | returns hroom =>
    rw [actsSinceMark_returns]
    split_ifs
    · rfl
    · exact hq l (hroom ▸ hl) m hm

theorem inTime_of_unmarked (hr : Run (timedStep p uuid) .init h t)
    (hm : MeetsPast (fun h s a => s.room.housekeeping = .mark → PassInTime uuid h s a) h)
    (hd : Meets DispatchesUnmarked h) : MeetsPast (PassInTime uuid) h ∧ t.Quiet h := by
  induction hr with
  | nil => exact ⟨trivial, fun l hl => by cases hl⟩
  | @snoc h s a t run hs ih =>
    obtain ⟨hd, hd'⟩ := meets_cons.mp hd
    obtain ⟨hmeets, hq⟩ := ih hm.2 hd'
    refine ⟨⟨?_, hmeets⟩, hq.step hd hs⟩
    cases a with
    | actionReturns m => trivial
    | room a now =>
      cases a with
      | housekeeping c =>
        have hmark := hm.1
        simp only [PassInTime] at hmark ⊢
        cases hpc : s.room.housekeeping with
        | idle | heartbeat => trivial
        | mark => exact hpc ▸ hmark hpc
        | hangup l =>
          cases l with
          | nil => trivial
          | cons m l => exact hq _ hpc m List.mem_cons_self
      | _ => trivial

/-- The detector spares busy listeners in every run whose passes are in time, and with memory
for all the marks in no other run; a pass that marks in time is in time when it hangs up, if no
listener dispatches an action between the two. -/
theorem wedge_spares_busy (hr : Run (timedStep p uuid) .init h t) :
    (MeetsPast (PassInTime uuid) h → Meets SparesBusy h) ∧
      (Meets (MarksAll uuid) h → Meets SparesBusy h → MeetsPast (PassInTime uuid) h) ∧
      (MeetsPast (fun h s a => s.room.housekeeping = .mark → PassInTime uuid h s a) h →
        Meets DispatchesUnmarked h → Meets SparesBusy h) :=
  ⟨fun hm => (spared_of_inTime hr hm).1, inTime_of_spared hr,
    fun hm hd => (spared_of_inTime hr (inTime_of_unmarked hr hm hd).1).1⟩

def busyListener : List TimedAction :=
  List.flatten [[.room (.join 0 ⟨.listener, false, false⟩) 900000],
    List.replicate 13 (.room (.session 0 .ok) 1000000),
    [.room (.session 0 (.dtmf .executeApp)) 1020000],
    List.replicate 2 (.room (.housekeeping .ok) 1020000)]

/-- A pass comes while the application runs, 3 seconds after the tick. -/
theorem wedge_spares_announcement : ∃ (h : List (TimedRoom × TimedAction)) (t : TimedRoom),
    Run (timedStep ⟨8, true, 16, false, false⟩ fun _ => "a1") .init h t ∧
      (∃ x ∈ h, x.2 = .room (.housekeeping (.pick [])) 4000000 ∧ x.1.action 0 = some .executeApp) ∧
      Meets SparesBusy h := by
  obtain ⟨h, t, hr, -, hv⟩ := exists_run_observing
    (timedStep ⟨8, true, 16, false, false⟩ fun _ => "a1") (fun _ _ => true) .init
    (busyListener ++ [.room (.housekeeping (.pick [])) 4000000, .room (.housekeeping .ok) 4000000,
      .actionReturns 0])
    (fun h _ => (decide (MeetsPast (PassInTime fun _ => "a1") h), h.any fun x =>
      x.2 = .room (.housekeeping (.pick [])) 4000000 ∧ x.1.action 0 = some .executeApp))
    (v := (true, true)) (by decide)
  obtain ⟨htime, hpass⟩ := Prod.mk.inj hv
  exact ⟨h, t, hr, by simpa using hpass, (wedge_spares_busy hr).1 (of_decide_eq_true htime)⟩

/-- A pass comes while the application runs, 6 seconds after the tick. -/
theorem busy_listener_marked : ¬ ∀ (h : List (TimedRoom × TimedAction)) (t : TimedRoom),
    Run (timedStep ⟨8, true, 16, false, false⟩ fun _ => "a1") .init h t → Meets SparesBusy h := by
  refine not_forall_run (fun _ _ => true)
    (busyListener ++ [.room (.housekeeping (.pick [0])) 7000000])
    (fun h _ => h.head?.map fun x =>
      (x.2, x.1.room.housekeeping, wedged x.1.room.b [0], x.1.action 0))
    (v := some (.room (.housekeeping (.pick [0])) 7000000, .mark, [0], some .executeApp))
    (by decide) ?_
  intro h t hr _ hv hall
  cases h with
  | nil => cases hv
  | cons x h =>
    obtain ⟨s, a⟩ := x
    obtain ⟨ha, hv⟩ := Prod.mk.inj (Option.some.inj hv)
    obtain ⟨hpc, hv⟩ := Prod.mk.inj hv
    obtain ⟨hmarked, hbusy⟩ := Prod.mk.inj hv
    obtain rfl : a = _ := ha
    have hidle := (meets_cons.mp hall).1 0 (.inl ⟨hpc, [0], rfl, by rw [hmarked]; decide⟩)
    rw [hidle] at hbusy
    cases hbusy

end ModBroadcast
