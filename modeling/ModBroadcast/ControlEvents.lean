import ModBroadcast.Announcement
import ModBroadcast.EventTape
import ModBroadcast.RoomSlot

namespace ModBroadcast

open Automaton Announcement

variable {p : RoomProfile} {b b' : Broadcast} {c : Choice} {m n : ℕ} {s t : Room} {a : RoomAction}
  {h : List (Room × RoomAction)}

def SessionPc.Vacated : SessionPc → Prop
  | .wait (.clear (.fire _)) | .wait (.clear (.stop _ _)) | .wait (.clear (.since _))
  | .wait .leave | .lower | .exitVariables | .clear _ => True
  | _ => False

theorem speakerMainWait_vacated {k : MainWaitPc} {x : Broadcast × Progress MainWaitPc}
    (h : speakerMainWait p b m c k = some x) (hc : b.current_speaker = some m)
    (hc' : x.1.current_speaker = some m) (hk : ¬ (SessionPc.wait k).Vacated) :
    ∃ k', x.2 = .run k' ∧ ¬ (SessionPc.wait k').Vacated := by
  cases k with
  | enter =>
    obtain rfl := Option.some.inj h
    exact ⟨_, rfl, id⟩
  | loop =>
    simp only [speakerMainWait] at h
    split_ifs at h <;> obtain rfl := Option.some.inj h <;> exact ⟨_, rfl, id⟩
  | dtmf =>
    simp only [speakerMainWait] at h
    split at h
    · split_ifs at h
      obtain rfl := Option.some.inj h
      exact ⟨_, rfl, id⟩
    · obtain rfl := Option.some.inj h
      exact ⟨_, rfl, id⟩
  | still | recheck =>
    obtain rfl := Option.some.inj h
    dsimp only
    rw [if_pos hc]
    exact ⟨_, rfl, id⟩
  | clear k =>
    obtain ⟨y, hy, rfl⟩ := Option.map_eq_some_iff.mp h
    cases k with
    | guard | audio | role | start => cases hy
    | install =>
      obtain ⟨-, ⟨hsame, -⟩ | ⟨-, rfl⟩⟩ := setSpeaker_install hy
      · cases hc.symm.trans hsame
      · cases hc'
    | _ => exact absurd trivial hk
  | leave => exact absurd trivial hk

def Room.Vacates (s : Room) : Prop :=
  ∀ m, (s.session m).Vacated → s.b.current_speaker ≠ some m

theorem Room.Vacates.init : Room.init.Vacates := fun m _ hc => by cases hc

theorem Room.Vacates.step (hi : s.Vacates) (hslot : s.SlotSound) (hs : roomStep p s a = some t) :
    t.Vacates := by
  intro m hv hcur
  rcases roomStep_current hs hcur with hold | ⟨c, promoted, rfl, hpc⟩
  · have hpub := hslot.published m hold
    have hnot : ¬ (s.session m).Vacated := fun hv => hi m hv hold
    rcases roomStep_session hs m with hsame | ⟨c, -, hown⟩ | ⟨j, -, hjoin⟩
    · exact hnot (hsame ▸ hv)
    · generalize s.session m = pc at hpub hnot hown
      generalize t.session m = pc' at hv hown
      cases pc with
      | speak promoted k =>
        obtain ⟨x, hx, he⟩ := Option.map_eq_some_iff.mp hown
        obtain ⟨-, rfl⟩ := Prod.mk.inj he
        obtain ⟨k', -, hk⟩ | hk := setSpeaker_published hx hpub <;> rw [hk] at hv <;> exact hv
      | wait k =>
        obtain ⟨x, hx, he⟩ := Option.map_eq_some_iff.mp hown
        obtain ⟨hb, rfl⟩ := Prod.mk.inj he
        obtain ⟨k', hk, hno⟩ := speakerMainWait_vacated hx hold (hb ▸ hcur) hnot
        rw [hk] at hv
        exact hno hv
      | lower | exitVariables | clear => exact hnot trivial
      | _ => exact hpub
    · cases hpc : s.session m <;> simp [hpc, joinSession, SessionPc.Published] at hjoin hpub
  · have hown := roomStep_own hs
    rw [hpc] at hown
    obtain ⟨x, hx, he⟩ := Option.map_eq_some_iff.mp hown
    rw [← (Prod.mk.inj he).2] at hv
    obtain ⟨k', -, hk⟩ | hk := setSpeaker_published hx trivial <;> rw [hk] at hv <;> exact hv

def EmitterPc.inHand : EmitterPc → List (EventType × ℕ)
  | .idle | .drain => []
  | .find type id | .findSpeaker type id | .use type id _ | .fire type id => [(type, id)]

/-- The events in the order in which the core gets them, the latest first: those still in
the queue, the one in the emitter's hand, and those that were handed out. -/
def Room.tape (s : Room) : List (EventType × ℕ) :=
  s.b.events.reverse ++ (s.emitter.inHand ++ s.b.fired)

/-- The broadcast is not destroyed, and the step is not the one in which a destroy clears the
slot. -/
def Live (s : Room) (a : RoomAction) : Prop :=
  s.b.destroyed = false ∧ ∀ u g f, a.thread = some (.api u) → s.api u ≠ .destroy g f .slot

def Place.firing (x : Place) : Option (Option ℕ) :=
  match x.calls with
  | some (new, .fire _) => some new
  | _ => none

theorem firing_eq_some {x : Place} {new : Option ℕ} (hx : x.firing = some new) :
    ∃ old, x.calls = some (new, .fire old) := by
  unfold Place.firing at hx
  split at hx
  · next old hcall => exact ⟨old, Option.some.inj hx ▸ hcall⟩
  · cases hx

/-- Who changes the speaker, who announces something, and what all other steps are. -/
inductive ControlStep (p : RoomProfile) (s t : Room) (a : RoomAction) : Prop
  | install {th : Thread} {new : Option ℕ} (ha : a.thread = some th)
      (hx : (s.place th).calls = some (new, .install)) (hb : t.b = installSpeaker s.b new)
      (he : t.emitter = s.emitter)
      (hk : (t.place th).firing = some new) : ControlStep p s t a
  | fire {th : Thread} {new : Option ℕ} (ha : a.thread = some th)
      (hk : (s.place th).firing = some new)
      (hb : t.b = { s.b with fired := speakerEvent s.b new :: s.b.fired })
      (he : t.emitter = s.emitter) (hk' : (t.place th).firing = none)
      (ho : ∀ th', th' ≠ th → t.place th' = s.place th') : ControlStep p s t a
  | flag {u : ℕ} {f : FlagCommand} (ha : a.thread = some (.api u)) (hpc : s.api u = .flagEvent f)
      (hb : t.b = enqueueEvent p s.b f.event 0) (he : t.emitter = s.emitter)
      (hpc' : t.api u = .release) (ho : ∀ th, th ≠ .api u → t.place th = s.place th) :
      ControlStep p s t a
  | emit (ha : a.thread = none) (hb : t.b.core = s.b.core) (htape : t.tape = s.tape)
      (hq : ∀ e ∈ t.b.events ++ t.emitter.inHand, e ∈ s.b.events ++ s.emitter.inHand)
      (hd : t.b.stat_events_dropped = s.b.stat_events_dropped) (hpl : t.place = s.place) :
      ControlStep p s t a
  | silent (h : Silent s.b t.b) (he : t.emitter = s.emitter)
      (hk : ∀ th, (t.place th).firing = (s.place th).firing)
      (hf : ∀ u f, a.thread = some (.api u) → s.api u ≠ .flagEvent f) : ControlStep p s t a

theorem eventEmitter_tape {k k' : EmitterPc} (h : eventEmitter b k = some (b', k')) :
    b'.events.reverse ++ (k'.inHand ++ b'.fired) = b.events.reverse ++ (k.inHand ++ b.fired) ∧
      (∀ e ∈ b'.events ++ k'.inHand, e ∈ b.events ++ k.inHand) ∧
      b'.stat_events_dropped = b.stat_events_dropped := by
  cases k with
  | idle =>
    simp only [eventEmitter] at h
    split_ifs at h
    obtain ⟨rfl, rfl⟩ := Prod.mk.inj (Option.some.inj h)
    exact ⟨rfl, fun _ => id, rfl⟩
  | drain =>
    simp only [eventEmitter] at h
    split at h
    · next he =>
      obtain ⟨rfl, rfl⟩ := Prod.mk.inj (Option.some.inj h)
      exact ⟨by simp [EmitterPc.inHand, he], by simp [EmitterPc.inHand, he], rfl⟩
    · next type id rest he =>
      obtain ⟨rfl, rfl⟩ := Prod.mk.inj (Option.some.inj h)
      have hand : (if type.looksUp then EmitterPc.find type id else .fire type id).inHand =
          [(type, id)] := by
        split_ifs <;> rfl
      rw [hand]
      refine ⟨by simp [EmitterPc.inHand, he], fun e hm => ?_, rfl⟩
      rw [he]
      simp only [EmitterPc.inHand, List.mem_append, List.mem_cons, List.not_mem_nil, or_false] at hm ⊢
      exact hm.symm
  | find type id | findSpeaker type id =>
    obtain ⟨rfl, rfl⟩ := Prod.mk.inj (Option.some.inj h)
    split <;> exact ⟨rfl, fun _ hm => hm, rfl⟩
  | use type id m =>
    obtain ⟨rfl, rfl⟩ := Prod.mk.inj (Option.some.inj h)
    exact ⟨rfl, fun _ hm => hm, rfl⟩
  | fire type id =>
    obtain ⟨rfl, rfl⟩ := Prod.mk.inj (Option.some.inj h)
    refine ⟨rfl, fun e hm => ?_, rfl⟩
    simp only [EmitterPc.inHand, List.append_nil] at hm
    exact List.mem_append_left _ hm

theorem ThreadStep.firing {x y : Place} (h : ThreadStep p b b' c x y) {new : Option ℕ}
    (hy : y.firing = some new) : x.calls = some (new, .install) := by
  obtain ⟨old, hy⟩ := firing_eq_some hy
  obtain ⟨hgo, hbegin⟩ := h.calls
  cases hx : x.calls with
  | none => cases new <;> cases hbegin hx _ _ hy
  | some q =>
    obtain ⟨new', k⟩ := q
    obtain ⟨z, hz, hres⟩ := hgo new' k hx
    rw [hy] at hres
    cases z with
    | ret ok => cases hres
    | run k' =>
      obtain ⟨rfl, rfl⟩ := Prod.mk.inj (Option.some.inj hres)
      rcases setSpeaker_next hz with ⟨k₁, hk, hz⟩ | hz | ⟨-, hz⟩
      · obtain rfl := Progress.run.inj hz
        cases k <;> first | rfl | exact hk.elim
      · cases hz
      · cases hz

theorem firing_of_calls {x : Place} {new : Option ℕ} {k : SetSpeakerPc}
    (hx : x.calls = some (new, k)) (hk : k.Silent) : x.firing = none := by
  unfold Place.firing
  rw [hx]
  cases k <;> first | rfl | exact hk.elim

/-- A thread that does not publish is not between a publication and its event afterwards. -/
theorem ThreadStep.firing_none {x y : Place} (h : ThreadStep p b b' c x y)
    (hx : ∀ new, x.calls ≠ some (new, .install)) : y.firing = none :=
  Option.eq_none_iff_forall_ne_some.mpr fun new hy => hx new (h.firing hy)

/-- A silent step of the thread `th` neither begins nor ends between a publication and its
event. -/
theorem ControlStep.quiet {th : Thread} (hsil : Silent s.b t.b) (he : t.emitter = s.emitter)
    (ho : ∀ th', th' ≠ th → t.place th' = s.place th') (hs : (s.place th).firing = none)
    (ht : (t.place th).firing = none)
    (hf : ∀ u f, a.thread = some (.api u) → s.api u ≠ .flagEvent f) : ControlStep p s t a := by
  refine .silent hsil he (fun th' => ?_) hf
  by_cases hne : th' = th
  · rw [hne, hs, ht]
  · rw [ho th' hne]

/-- A thread outside `broadcast_set_speaker`. -/
theorem ThreadStep.control_outside {th : Thread} (hi : s.Vacates) (hg : Live s a)
    (ha : a.thread = some th) (h : ThreadStep p s.b t.b c (s.place th) (t.place th))
    (ho : ∀ th', th' ≠ th → t.place th' = s.place th') (he : t.emitter = s.emitter)
    (hcall : (s.place th).calls = none) : ControlStep p s t a := by
  have hs' : (s.place th).firing = none := by
    unfold Place.firing
    rw [hcall]
  have ht' : (t.place th).firing = none := h.firing_none (by simp [hcall])
  have hsil : (s.place th).Silent := fun new k hk => by cases hcall.symm.trans hk
  cases th with
  | session m =>
    refine .quiet ?_ he ho hs' ht' fun u f hu => by cases ha.symm.trans hu
    cases h with
    | join h => exact joinSession_silent h
    | session h => exact appFunction_silent h hsil fun hpc => hi m (by rw [hpc]; trivial)
  | api u =>
    have only : ∀ {v}, a.thread = some (.api v) → v = u := by
      intro v hv
      cases ha.symm.trans hv
      rfl
    by_cases hf : ∃ f, s.api u = .flagEvent f
    · obtain ⟨f, hpc⟩ := hf
      simp only [Room.place, hpc] at h
      generalize hpc' : Place.api (t.api u) = y at h
      cases h with
      | api h =>
        obtain ⟨hb, rfl⟩ := Prod.mk.inj (Option.some.inj h)
        exact .flag ha hpc hb.symm he (Place.api.inj hpc') ho
    · refine .quiet ?_ he ho hs' ht' fun v f hv hpc => hf ⟨f, only hv ▸ hpc⟩
      have hd : ∀ g f, s.api u ≠ .destroy g f .slot := fun g f => hg.2 u g f ha
      simp only [Room.place] at h hsil
      generalize s.api u = pc at h hf hd hsil
      generalize t.api u = pc' at h
      cases h with
      | call k h =>
        rw [(findBroadcast_eq h).2]
        exact .of_news rfl
      | shutdown _ h =>
        rw [h]
        exact .of_news rfl
      | api h => exact apiDispatch_silent h hsil (not_exists.mp hf) hd

/-- A thread inside `broadcast_set_speaker`. -/
theorem ThreadStep.control_inside {th : Thread} {new : Option ℕ} {k : SetSpeakerPc}
    (ha : a.thread = some th) (h : ThreadStep p s.b t.b c (s.place th) (t.place th))
    (ho : ∀ th', th' ≠ th → t.place th' = s.place th') (he : t.emitter = s.emitter)
    (hcall : (s.place th).calls = some (new, k)) : ControlStep p s t a := by
  obtain ⟨z, hz, hres⟩ := h.calls.1 new k hcall
  have hnf : ∀ u f, a.thread = some (.api u) → s.api u ≠ .flagEvent f := by
    rintro u f hu hpc
    cases ha.symm.trans hu
    simp [Room.place, hpc, Place.calls] at hcall
  by_cases hk : k.Silent
  · refine .quiet (setSpeaker_silent hz hk) he ho (firing_of_calls hcall hk)
      (h.firing_none fun new' hx => ?_) hnf
    cases hcall.symm.trans hx
    exact hk
  · cases k with
    | install =>
      obtain ⟨-, ⟨-, heq⟩ | ⟨-, heq⟩⟩ := setSpeaker_install hz
      · obtain ⟨hb, rfl⟩ := Prod.mk.inj heq
        refine .quiet (hb ▸ .refl _) he ho ?_ ?_ hnf
        · unfold Place.firing
          rw [hcall]
        · unfold Place.firing
          rw [hres]
          rfl
      · obtain ⟨hb, rfl⟩ := Prod.mk.inj heq
        have hfiring : (t.place th).firing = some new := by
          unfold Place.firing
          rw [hres]
          rfl
        exact .install ha hcall hb he hfiring
    | fire old =>
      have hfiring : (s.place th).firing = some new := by
        unfold Place.firing
        rw [hcall]
      refine .fire ha hfiring (setSpeaker_fires hz) he (h.firing_none fun new' hx => ?_) ho
      cases hcall.symm.trans hx
    | _ => exact absurd trivial hk

theorem ThreadStep.control {th : Thread} (hi : s.Vacates) (hg : Live s a)
    (ha : a.thread = some th) (h : ThreadStep p s.b t.b c (s.place th) (t.place th))
    (ho : ∀ th', th' ≠ th → t.place th' = s.place th') (he : t.emitter = s.emitter) :
    ControlStep p s t a := by
  cases hcall : (s.place th).calls with
  | none => exact h.control_outside hi hg ha ho he hcall
  | some q => exact h.control_inside ha ho he hcall

theorem roomStep_control (hi : s.Vacates) (hg : Live s a) (hs : roomStep p s a = some t) :
    ControlStep p s t a := by
  have background : Silent s.b t.b → t.emitter = s.emitter → t.place = s.place →
      a.thread = none → ControlStep p s t a := fun h he hpl ha =>
    .silent h he (fun th => by rw [hpl]) fun u f hu => by rw [ha] at hu; cases hu
  by_cases ha : ∃ th, a.thread = some th
  · obtain ⟨th, ha⟩ := ha
    have he : t.emitter = s.emitter := by
      cases a with
      | join | session | api | call =>
        simp only [roomStep] at hs
        first
        | split_ifs at hs
          obtain ⟨x, -, rfl⟩ := Option.map_eq_some_iff.mp hs
          rfl
        | obtain ⟨x, -, rfl⟩ := Option.map_eq_some_iff.mp hs
          rfl
      | shutdown =>
        simp only [roomStep] at hs
        split_ifs at hs
        obtain rfl := Option.some.inj hs
        rfl
      | _ => cases ha
    cases roomStep_move hs with
    | thread ha' _ h ho _ =>
      obtain rfl := Option.some.inj (ha.symm.trans ha')
      exact h.control hi hg ha ho he
    | background ha' _ _ => cases ha.symm.trans ha'
  · have hnone : a.thread = none := Option.not_isSome_iff_eq_none.mp fun h =>
      ha (Option.isSome_iff_exists.mp h)
    cases a with
    | join | session | call | shutdown | api => cases hnone
    | producer c =>
      obtain ⟨x, hx, rfl⟩ := Option.map_eq_some_iff.mp hs
      exact background (producerRun_silent hx) rfl rfl rfl
    | input m c =>
      obtain ⟨⟨b₁, k'⟩, hx, rfl⟩ := Option.map_eq_some_iff.mp hs
      exact background ((speakerInput_silent hx).trans (.of_news rfl)) rfl rfl rfl
    | writer i c =>
      obtain ⟨x, hx, rfl⟩ := Option.map_eq_some_iff.mp hs
      exact background (recordWriter_writes hx).silent rfl rfl rfl
    | emitter =>
      obtain ⟨x, hx, rfl⟩ := Option.map_eq_some_iff.mp hs
      obtain ⟨htape, hq, hd⟩ := eventEmitter_tape hx
      exact .emit rfl (eventEmitter_core hx) htape hq hd rfl
    | housekeeping c =>
      obtain ⟨x, hx, rfl⟩ := Option.map_eq_some_iff.mp hs
      exact background (runtimeHousekeeping_silent hx) rfl rfl rfl
    | hangup m =>
      obtain rfl := Option.some.inj hs
      exact background (.of_news rfl) rfl rfl rfl
    | elapse =>
      obtain rfl := Option.some.inj hs
      exact background (.of_news rfl) rfl rfl rfl

def speakerReads : EventType × ℕ → Option ℕ
  | (.speakerSet, id) => some id
  | (.speakerClear, _) => some 0
  | _ => none

def Broadcast.speakerId (b : Broadcast) : ℕ := (speakerEvent b b.current_speaker).2

/-- The speaker, what the tape says of it, and what the threads still have to fire. -/
def Room.speakerNews (s : Room) : News Thread ℕ where
  value := s.b.speakerId
  announced := replay speakerReads 0 s.tape
  pending th := (s.place th).firing.map fun new => (speakerEvent s.b new).2

theorem speakerReads_event (new : Option ℕ) :
    speakerReads (speakerEvent b new) = some (speakerEvent b new).2 := by
  cases new <;> rfl

theorem speakerReads_none {e : EventType × ℕ} (he : ¬ e.1.Controls) : speakerReads e = none := by
  obtain ⟨type, id⟩ := e
  cases type <;> first | rfl | exact absurd trivial he

/-- No event of the speaker goes through the queue. -/
def Room.QueueSound (s : Room) : Prop :=
  ∀ e ∈ s.b.events ++ s.emitter.inHand, speakerReads e = none

/-- The rollback of a promotion does not give a new id to the speaker, nor to a member whose
publication has not been fired. -/
def RenumbersNobody (s : Room) (a : RoomAction) : Prop :=
  ∀ u x m, a.thread = some (.api u) → s.api u = .promote x m (.add .link) →
    (s.b.member m).id = 0 →
      s.b.current_speaker ≠ some m ∧ (s.place (.session m)).firing = none

theorem firing_member {th : Thread} (hf : (s.place th).firing = some (some m)) :
    th = .session m ∧ (s.session m).Published := by
  obtain ⟨old, hcall⟩ := firing_eq_some hf
  cases th with
  | session n =>
    simp only [Room.place] at hcall
    generalize hpc : s.session n = pc at hcall
    cases pc with
    | speak promoted k =>
      obtain ⟨hn, rfl⟩ := Prod.mk.inj (Option.some.inj hcall)
      obtain rfl := Option.some.inj hn
      exact ⟨rfl, by rw [hpc]; trivial⟩
    | wait k => cases k <;> cases hcall
    | _ => cases hcall
  | api u =>
    simp only [Room.place] at hcall
    generalize s.api u = pc at hcall
    cases pc <;> cases hcall

theorem id_kept (hslot : s.SlotSound) (hg : RenumbersNobody s a) (hs : roomStep p s a = some t)
    (hm : s.b.current_speaker = some m ∨ ∃ th, (s.place th).firing = some (some m)) :
    (t.b.member m).id = (s.b.member m).id := by
  have hpub : (s.session m).Published := by
    rcases hm with hm | ⟨th, hf⟩
    · exact hslot.published m hm
    · exact (firing_member hf).2
  have other : ∀ {n}, ¬ (s.session n).Published → n ≠ m := by
    rintro n hno rfl
    exact hno hpub
  cases roomStep_roster hs with
  | @session n c h hn hsess ha =>
    generalize hpc : s.session n = pc at h
    generalize t.session n = pc' at h
    cases h with
    | prepare h =>
      have hne := other (n := n) (by rw [hpc]; exact id)
      rw [h]
      simp [memberPrepare, Broadcast.modify, hne.symm]
    | number h =>
      have hne := other (n := n) (by rw [hpc]; exact id)
      rw [h]
      simp [memberNextId, Broadcast.modify, hne.symm]
    | link h =>
      have hne := other (n := n) (by rw [hpc]; exact id)
      rw [h, listenerLink_member]
      simp [hne.symm]
    | commit _ h | keep _ h => exact congrFun (ids_of_roster h) m
    | lower h =>
      rw [h]
      by_cases hne : m = n
      · subst hne
        simp [Broadcast.modifyFlags, Broadcast.modify]
      · simp [Broadcast.modifyFlags, Broadcast.modify, hne]
    | unlink h => rw [h, listenerDel_member]
  | @api u c h hsess ha =>
    generalize hpc : s.api u = pc at h
    generalize t.api u = pc' at h
    cases h with
    | unlink _ h =>
      rw [h]
      rfl
    | @raise x n h | @drop x n h =>
      rw [h]
      by_cases hne : m = n
      · subst hne
        simp [Broadcast.modifyFlags, Broadcast.modify]
      · simp [Broadcast.modifyFlags, Broadcast.modify, hne]
    | @link x n _ h =>
      rw [h, listenerLink_member]
      by_cases hne : m = n
      · subst hne
        -- a member that has an id keeps it
        have hid : (s.b.member m).id ≠ 0 := fun h0 => by
          obtain ⟨hcur, hfire⟩ := hg u x m rfl hpc h0
          rcases hm with hm | ⟨th, hf⟩
          · exact hcur hm
          · obtain rfl := (firing_member hf).1
            cases hfire.symm.trans hf
        simp [hid]
      · simp [hne]
    | keep _ _ h => exact congrFun (ids_of_roster h) m
  | join h | enter h | keep h => exact congrFun (ids_of_roster h) m

theorem speakerEvent_kept (hslot : s.SlotSound) (hg : RenumbersNobody s a)
    (hs : roomStep p s a = some t) {new : Option ℕ}
    (hm : s.b.current_speaker = new ∨ ∃ th, (s.place th).firing = some new) :
    speakerEvent t.b new = speakerEvent s.b new := by
  cases new with
  | none => rfl
  | some m => exact congrArg (Prod.mk _) (id_kept hslot hg hs hm)

theorem Silent.replay {V : Type} {reads : EventType × ℕ → Option V}
    (hreads : ∀ e : EventType × ℕ, ¬ e.1.Controls → reads e = none) (h : Silent s.b t.b)
    (hd : t.b.stat_events_dropped = s.b.stat_events_dropped) (he : t.emitter = s.emitter) (d : V) :
    Announcement.replay reads d t.tape = Announcement.replay reads d s.tape := by
  obtain ⟨q, f, hq, hf, hno⟩ := h.tape hd
  have hq' : ∀ e ∈ q.reverse, reads e = none := fun e hm =>
    hreads e (hno e (List.mem_append_left _ (List.mem_reverse.mp hm)))
  have hf' : ∀ e ∈ f, reads e = none := fun e hm => hreads e (hno e (List.mem_append_right _ hm))
  unfold Room.tape
  rw [hq, hf, he, List.reverse_append, List.append_assoc, replay_append hq', ← List.append_assoc,
    replay_insert hf', List.append_assoc]

theorem ControlStep.dropped (h : ControlStep p s t a) :
    s.b.stat_events_dropped ≤ t.b.stat_events_dropped := by
  cases h with
  | @install _ new _ _ hb _ _ =>
    rw [hb]
    cases new <;> exact Nat.le_refl _
  | fire _ _ hb _ _ _ => exact Nat.le_of_eq (congrArg Broadcast.stat_events_dropped hb).symm
  | @flag u f _ _ hb _ _ _ =>
    have hdrop := congrArg Broadcast.stat_events_dropped hb
    obtain ⟨-, -, ⟨hd, -⟩ | hd⟩ := enqueueEvent_tape (p := p) (b := s.b) f.event 0 <;> omega
  | emit _ _ _ _ hd _ => exact Nat.le_of_eq hd.symm
  | silent h _ _ _ => exact h.dropped

theorem flagEvent_speaker (f : FlagCommand) : speakerReads (f.event, 0) = none := by
  cases f <;> rfl

/-- The queue after the announcement of a flag. -/
theorem enqueueEvent_live (hg : Live s a) (hsize : 0 < p.event_ring_size) {e : EventType} {i : ℕ}
    (hb : t.b = enqueueEvent p s.b e i)
    (hd : t.b.stat_events_dropped = s.b.stat_events_dropped) :
    t.b.events = s.b.events ++ [(e, i)] ∧ t.b.fired = s.b.fired := by
  rw [hb] at hd ⊢
  obtain ⟨-, hf, ⟨-, ⟨-, hoff⟩ | hq⟩ | hd'⟩ := enqueueEvent_tape (p := p) (b := s.b) e i
  · rcases hoff with hoff | hoff
    · rw [hg.1] at hoff
      cases hoff
    · omega
  · exact ⟨hq, hf⟩
  · omega

theorem Room.QueueSound.step (hi : s.QueueSound) (hg : Live s a) (hsize : 0 < p.event_ring_size)
    (h : ControlStep p s t a) (hd : t.b.stat_events_dropped = s.b.stat_events_dropped) :
    t.QueueSound := by
  intro e hm
  cases h with
  | @install _ new _ _ hb he _ =>
    refine hi e ?_
    rw [hb, he] at hm
    cases new <;> exact hm
  | fire _ _ hb he _ _ =>
    rw [hb, he] at hm
    exact hi e hm
  | @flag u f _ _ hb he _ _ =>
    rw [(enqueueEvent_live hg hsize hb hd).1, he] at hm
    simp only [List.mem_append, List.mem_singleton] at hm
    rcases hm with (hm | rfl) | hm
    · exact hi e (List.mem_append_left _ hm)
    · exact flagEvent_speaker f
    · exact hi e (List.mem_append_right _ hm)
  | emit _ _ _ hq _ _ => exact hi e (hq e hm)
  | silent h he _ _ =>
    obtain ⟨q, f, hq, -, hno⟩ := h.tape hd
    rw [hq, he] at hm
    simp only [List.mem_append] at hm
    rcases hm with (hm | hm) | hm
    · exact hi e (List.mem_append_left _ hm)
    · exact speakerReads_none (hno e (List.mem_append_left _ hm))
    · exact hi e (List.mem_append_right _ hm)

/-- A step that keeps the slot and the calls keeps the speaker and what is still to be fired. -/
theorem speakerNews_kept (hslot : s.SlotSound) (hg : RenumbersNobody s a)
    (hs : roomStep p s a = some t) (hcur : t.b.current_speaker = s.b.current_speaker)
    (hk : ∀ th, (t.place th).firing = (s.place th).firing) :
    t.b.speakerId = s.b.speakerId ∧ t.speakerNews.pending = s.speakerNews.pending := by
  constructor
  · unfold Broadcast.speakerId
    rw [hcur, speakerEvent_kept hslot hg hs (.inl rfl)]
  · funext th
    simp only [Room.speakerNews, hk]
    cases hf : (s.place th).firing with
    | none => rfl
    | some new => exact congrArg (fun x => some x.2) (speakerEvent_kept hslot hg hs (.inr ⟨th, hf⟩))

theorem speakerNews_step (hslot : s.SlotSound) (hqueue : s.QueueSound) (hg : RenumbersNobody s a)
    (hlive : Live s a) (hsize : 0 < p.event_ring_size) (hs : roomStep p s a = some t)
    (h : ControlStep p s t a) (hd : t.b.stat_events_dropped = s.b.stat_events_dropped) :
    News.Step a.thread s.speakerNews t.speakerNews := by
  cases h with
  | @install th new ha hx hb he hk =>
    refine .change th ?_
    have hcur : t.b.current_speaker = new := by
      rw [hb]
      cases new <;> rfl
    simp only [Room.speakerNews, hk, Broadcast.speakerId, hcur, Option.map_some]
  | @fire th new ha hk hb he hk' ho =>
    refine .announce th ha ?_ ?_ fun th' hne => ?_
    · have htape : t.tape = s.b.events.reverse ++ (s.emitter.inHand ++
          (speakerEvent s.b new :: s.b.fired)) := by
        unfold Room.tape
        rw [hb, he]
      have htold : t.speakerNews.announced = (speakerEvent s.b new).2 := by
        change replay speakerReads 0 t.tape = _
        rw [htape, replay_append, replay_append, replay_cons (speakerReads_event new)]
        · exact fun e hm => hqueue e (List.mem_append_right _ hm)
        · exact fun e hm => hqueue e (List.mem_append_left _ (List.mem_reverse.mp hm))
      rw [htold]
      simp only [Room.speakerNews, hk, Option.map_some]
    · simp only [Room.speakerNews, hb]
      rfl
    · simp only [Room.speakerNews, ho th' hne, hb]
      rfl
  | @flag u f ha hpc hb he hpc' ho =>
    have hcur : t.b.current_speaker = s.b.current_speaker := by
      rw [hb]
      exact (enqueueEvent_tape _ _).1
    have hk : ∀ th, (t.place th).firing = (s.place th).firing := by
      intro th
      by_cases hne : th = .api u
      · subst hne
        simp only [Room.place, hpc, hpc']
        rfl
      · rw [ho th hne]
    obtain ⟨hv, hp⟩ := speakerNews_kept hslot hg hs hcur hk
    refine .keep hv ?_ hp
    obtain ⟨hq, hf⟩ := enqueueEvent_live hlive hsize hb hd
    change replay speakerReads 0 t.tape = replay speakerReads 0 s.tape
    unfold Room.tape
    rw [hq, hf, he, List.reverse_append, List.append_assoc, replay_append]
    intro e hm
    obtain rfl : e = (f.event, 0) := by simpa using hm
    exact flagEvent_speaker f
  | emit ha hb htape hq _ hpl =>
    have hcur : t.b.current_speaker = s.b.current_speaker := congrArg Prod.fst (slot_of_core hb)
    obtain ⟨hv, hp⟩ := speakerNews_kept hslot hg hs hcur fun th => by rw [hpl]
    exact .keep hv (congrArg (replay speakerReads 0) htape) hp
  | silent h he hk _ =>
    obtain ⟨hv, hp⟩ := speakerNews_kept hslot hg hs h.current hk
    exact .keep hv (h.replay (fun _ => speakerReads_none) hd he 0) hp

inductive ControlFlag
  | locked | paused
  deriving DecidableEq

def ControlFlag.value (w : ControlFlag) (b : Broadcast) : Bool :=
  match w with
  | .locked => b.locked
  | .paused => b.paused

def ControlFlag.stores : ControlFlag → FlagCommand → Option Bool
  | .locked, .lock | .paused, .pause => some true
  | .locked, .unlock | .paused, .resume => some false
  | _, _ => none

def ControlFlag.reads : ControlFlag → EventType × ℕ → Option Bool
  | .locked, (.lock, _) | .paused, (.pause, _) => some true
  | .locked, (.unlock, _) | .paused, (.resume, _) => some false
  | _, _ => none

def Place.flagged (w : ControlFlag) : Place → Option Bool
  | .api (.flagEvent f) => w.stores f
  | _ => none

/-- The flag, what the tape says of it, and what the threads still have to queue. -/
def Room.flagNews (s : Room) (w : ControlFlag) : News Thread Bool where
  value := w.value s.b
  announced := replay w.reads false s.tape
  pending th := (s.place th).flagged w

theorem ControlFlag.reads_none (w : ControlFlag) {e : EventType × ℕ} (he : ¬ e.1.Controls) :
    w.reads e = none := by
  obtain ⟨type, id⟩ := e
  cases w <;> cases type <;> first | rfl | exact absurd trivial he

theorem ControlFlag.reads_event (w : ControlFlag) (f : FlagCommand) :
    w.reads (f.event, 0) = w.stores f := by
  cases w <;> cases f <;> rfl

theorem ControlFlag.reads_speakerEvent (w : ControlFlag) (new : Option ℕ) :
    w.reads (speakerEvent b new) = none := by
  cases w <;> cases new <;> rfl

theorem ControlFlag.value_of_cflags (w : ControlFlag) (h : b'.cflags = b.cflags) :
    w.value b' = w.value b := by
  cases w
  · exact congrArg Prod.fst h
  · exact congrArg Prod.snd h

theorem ControlFlag.value_apply (w : ControlFlag) (f : FlagCommand) :
    w.value (f.apply b) = (w.stores f).getD (w.value b) := by
  cases w <;> cases f <;> rfl

theorem ThreadStep.flagged {x y : Place} {w : ControlFlag} {v : Bool}
    (h : ThreadStep p b b' c x y) (hy : y.flagged w = some v) :
    ∃ f, x = .api (.start (.flag f)) ∧ b' = f.apply b ∧ y = .api (.flagEvent f) := by
  cases h with
  | join | session => cases hy
  | call | shutdown => cases hy
  | @api pc pc' h =>
    cases pc' with
    | flagEvent f =>
      cases apiDispatch_cases h with
      | flag => exact ⟨f, rfl, (Prod.mk.inj (Option.some.inj h)).1.symm, rfl⟩
      | @resolve k _ _ _ _ _ hpc | @resolveSpeaker k _ _ _ _ _ hpc => cases k <;> cases hpc
    | _ => cases hy

theorem flagged_eq_some {x : Place} {w : ControlFlag} {v : Bool} (hx : x.flagged w = some v) :
    ∃ f, x = .api (.flagEvent f) ∧ w.stores f = some v := by
  cases x with
  | session m pc => cases hx
  | api pc =>
    cases pc with
    | flagEvent f => exact ⟨f, rfl, hx⟩
    | _ => cases hx

def Room.StoresFlag (s : Room) (a : RoomAction) (u : ℕ) (f : FlagCommand) : Prop :=
  a.thread = some (.api u) ∧ s.api u = .start (.flag f)

theorem roomStep_storesFlag {u : ℕ} {f : FlagCommand} (hs : roomStep p s a = some t)
    (hst : s.StoresFlag a u f) : t.b = f.apply s.b ∧ t.api u = .flagEvent f ∧
      ∀ th, th ≠ .api u → t.place th = s.place th := by
  obtain ⟨ha, hpc⟩ := hst
  cases roomStep_move hs with
  | background ha' _ _ => cases ha.symm.trans ha'
  | thread ha' _ h ho _ =>
    cases ha.symm.trans ha'
    simp only [Room.place, hpc] at h
    generalize hpc' : Place.api (t.api u) = y at h
    cases h with
    | api h =>
      obtain ⟨hb, rfl⟩ := Prod.mk.inj (Option.some.inj h)
      exact ⟨hb.symm, Place.api.inj hpc', ho⟩

/-- Any other step keeps the flags, and what the threads still have to queue unless it queues it. -/
theorem flags_kept (hs : roomStep p s a = some t) (w : ControlFlag)
    (hst : ∀ u f, ¬ s.StoresFlag a u f) : w.value t.b = w.value s.b ∧
      ((∀ u f, a.thread = some (.api u) → s.api u = .flagEvent f → w.stores f = none) →
        ∀ th, (t.place th).flagged w = (s.place th).flagged w) := by
  constructor
  · rcases roomStep_cflags hs with hsame | ⟨u, c, f, rfl, hpc, -⟩
    · exact w.value_of_cflags hsame
    · exact absurd ⟨rfl, hpc⟩ (hst u f)
  · intro hno th
    cases roomStep_move hs with
    | background _ _ hpl => rw [hpl]
    | @thread th' c ha _ h ho _ =>
      by_cases hne : th = th'
      · subst hne
        have hx : (s.place th).flagged w = none := by
          refine Option.eq_none_iff_forall_ne_some.mpr fun v hx => ?_
          obtain ⟨f, hpl, hv⟩ := flagged_eq_some hx
          cases th with
          | session m => cases hpl
          | api u => cases (hno u f ha (Place.api.inj hpl)).symm.trans hv
        have hy : (t.place th).flagged w = none := by
          refine Option.eq_none_iff_forall_ne_some.mpr fun v hy => ?_
          obtain ⟨f, hpl, -, -⟩ := h.flagged hy
          cases th with
          | session m => cases hpl
          | api u => exact hst u f ⟨ha, Place.api.inj hpl⟩
        rw [hx, hy]
      · rw [ho th hne]

/-- What the tape says of a flag changes when a command queues its event. -/
theorem ControlStep.flagTape (w : ControlFlag) (hlive : Live s a) (hsize : 0 < p.event_ring_size)
    (h : ControlStep p s t a) (hd : t.b.stat_events_dropped = s.b.stat_events_dropped) :
    (replay w.reads false t.tape = replay w.reads false s.tape ∧
        ∀ u f, a.thread = some (.api u) → s.api u = .flagEvent f → w.stores f = none) ∨
      ∃ u f, a.thread = some (.api u) ∧ s.api u = .flagEvent f ∧
        w.stores f = some (replay w.reads false t.tape) ∧
        ∀ th, th ≠ .api u → t.place th = s.place th := by
  cases h with
  | @install th new ha hx hb he hk =>
    refine .inl ⟨?_, fun u f hu hpc => ?_⟩
    · unfold Room.tape
      rw [hb, he]
      cases new <;> rfl
    · cases ha.symm.trans hu
      simp [Room.place, hpc, Place.calls] at hx
  | @fire th new ha hk hb he hk' ho =>
    refine .inl ⟨?_, fun u f hu hpc => ?_⟩
    · unfold Room.tape
      have hone : ∀ e ∈ [speakerEvent s.b new], w.reads e = none := by
        intro e hm
        obtain rfl := List.mem_singleton.mp hm
        exact w.reads_speakerEvent new
      rw [hb, he]
      simpa using replay_insert hone (s.b.events.reverse ++ s.emitter.inHand) false
    · obtain ⟨old, hcall⟩ := firing_eq_some hk
      cases ha.symm.trans hu
      simp [Room.place, hpc, Place.calls] at hcall
  | @flag u f ha hpc hb he hpc' ho =>
    obtain ⟨hq, hf⟩ := enqueueEvent_live hlive hsize hb hd
    have htape : t.tape = (f.event, 0) :: s.tape := by
      unfold Room.tape
      rw [hq, hf, he, List.reverse_append]
      rfl
    cases hw : w.stores f with
    | some v =>
      refine .inr ⟨u, f, ha, hpc, ?_, ho⟩
      rw [htape, replay_cons ((w.reads_event f).trans hw), hw]
    | none =>
      refine .inl ⟨?_, fun v g hv hg => ?_⟩
      · have hone : ∀ e ∈ [(f.event, 0)], w.reads e = none := by
          intro e hm
          obtain rfl := List.mem_singleton.mp hm
          exact (w.reads_event f).trans hw
        rw [htape]
        exact replay_append hone false
      · cases ha.symm.trans hv
        cases hpc.symm.trans hg
        exact hw
  | emit ha hb htape _ _ _ =>
    exact .inl ⟨congrArg _ htape, fun u f hu => by cases ha.symm.trans hu⟩
  | silent h he _ hno =>
    exact .inl ⟨h.replay (fun _ => w.reads_none) hd he false,
      fun u f hu hpc => absurd hpc (hno u f hu)⟩

theorem flagNews_step (w : ControlFlag) (hlive : Live s a) (hsize : 0 < p.event_ring_size)
    (hs : roomStep p s a = some t) (h : ControlStep p s t a)
    (hd : t.b.stat_events_dropped = s.b.stat_events_dropped) :
    News.Step a.thread (s.flagNews w) (t.flagNews w) := by
  have htape := h.flagTape w hlive hsize hd
  by_cases hst : ∃ u f, s.StoresFlag a u f
  · obtain ⟨u, f, ha, hpc⟩ := hst
    obtain ⟨hb, hpc', ho⟩ := roomStep_storesFlag hs ⟨ha, hpc⟩
    have hv := w.value_apply (b := s.b) f
    cases hw : w.stores f with
    | some v =>
      refine .change (.api u) ?_
      simp only [Room.flagNews, Room.place, hpc', Place.flagged, hb, hv, hw, Option.getD_some]
    | none =>
      obtain ⟨hsame, -⟩ | ⟨u', g, ha', hpc₁, -⟩ := htape
      · refine .keep ?_ hsame ?_
        · simp only [Room.flagNews, hb, hv, hw, Option.getD_none]
        · funext th
          by_cases hne : th = .api u
          · subst hne
            simp only [Room.flagNews, Room.place, hpc, hpc', Place.flagged, hw]
          · simp only [Room.flagNews, ho th hne]
      · cases ha.symm.trans ha'
        cases hpc.symm.trans hpc₁
  · have hno : ∀ u f, ¬ s.StoresFlag a u f := fun u f h => hst ⟨u, f, h⟩
    obtain ⟨hv, hp⟩ := flags_kept hs w hno
    obtain ⟨hsame, hnone⟩ | ⟨u, f, ha, hpc, hw, ho⟩ := htape
    · exact .keep hv hsame (funext (hp hnone))
    · refine .announce (.api u) ha ?_ hv fun th hne => ?_
      · simp only [Room.flagNews, Room.place, hpc, Place.flagged, hw]
      · simp only [Room.flagNews, ho th hne]

/-- Whoever announces a change announces the latest one of its kind, or another thread has yet
to announce that; and no rollback renumbers the speaker. -/
structure AnnouncesInTime (s : Room) (a : RoomAction) : Prop where
  speaker : ∀ th, a.thread = some th → s.speakerNews.InTime th
  flags : ∀ w th, a.thread = some th → (s.flagNews w).InTime th
  ids : RenumbersNobody s a

/-- Nobody stands between a change and its announcement, and the queue is empty. -/
structure Room.Settled (s : Room) : Prop where
  fired : ∀ th, (s.place th).firing = none
  queued : ∀ w th, (s.place th).flagged w = none
  drained : s.b.events = [] ∧ s.emitter.inHand = []

/-- As long as no event was dropped, every change is announced or will be. -/
structure ControlSound (s : Room) : Prop where
  slot : s.SlotSound
  vacates : s.Vacates
  told : s.b.stat_events_dropped = 0 →
    s.QueueSound ∧ s.speakerNews.Covered ∧ ∀ w, (s.flagNews w).Covered

theorem ControlSound.init : ControlSound Room.init where
  slot := .init
  vacates := .init
  told _ := ⟨by simp [Room.QueueSound, Room.init, Broadcast.create, EmitterPc.inHand], .inl rfl,
    fun w => .inl (by cases w <;> rfl)⟩

theorem ControlSound.step (hi : ControlSound s) (hsize : 0 < p.event_ring_size) (hlive : Live s a)
    (hg : AnnouncesInTime s a) (hs : roomStep p s a = some t) : ControlSound t where
  slot := hi.slot.step hs
  vacates := hi.vacates.step hi.slot hs
  told hd := by
    have h := roomStep_control hi.vacates hlive hs
    have hle := h.dropped
    have hd₀ : t.b.stat_events_dropped = s.b.stat_events_dropped := by omega
    obtain ⟨hqueue, hspeaker, hflags⟩ := hi.told (by omega)
    refine ⟨hqueue.step hlive hsize h hd₀, ?_, fun w => ?_⟩
    · exact hspeaker.step (speakerNews_step hi.slot hqueue hg.ids hlive hsize hs h hd₀) hg.speaker
    · exact (hflags w).step (flagNews_step w hlive hsize hs h hd₀) (hg.flags w)

/-- On a live broadcast with no event dropped, the speaker events and the flag events that the core
has got tell the speaker's id and the flags whenever nothing is left to announce, as long as
no announcement of an old value comes last. -/
theorem control_events_agree (hsize : 0 < p.event_ring_size)
    (hr : Run (roomStep p) Room.init h s) (hlive : Meets Live h) (hg : Meets AnnouncesInTime h)
    (hd : s.b.stat_events_dropped = 0) (hq : s.Settled) :
    replay speakerReads 0 s.b.fired = s.b.speakerId ∧
      replay ControlFlag.locked.reads false s.b.fired = s.b.locked ∧
      replay ControlFlag.paused.reads false s.b.fired = s.b.paused := by
  have hi : ControlSound s := hr.invariant (g := fun s a => Live s a ∧ AnnouncesInTime s a)
    (fun _ _ _ hi hg hs => hi.step hsize hg.1 hg.2 hs) (hlive.and hg) .init
  obtain ⟨-, hspeaker, hflags⟩ := hi.told hd
  have htape : s.tape = s.b.fired := by
    unfold Room.tape
    rw [hq.drained.1, hq.drained.2]
    rfl
  have hnews : ∀ w : ControlFlag, replay w.reads false s.tape = w.value s.b := fun w =>
    (hflags w).told (hq.queued w)
  rw [← htape]
  refine ⟨hspeaker.told fun th => ?_, hnews .locked, hnews .paused⟩
  simp only [Room.speakerNews, hq.fired th, Option.map_none]

def liveTest (s : Room) (a : RoomAction) : Bool :=
  !s.b.destroyed && match a.thread with
    | some (.api u) =>
      match s.api u with
      | .destroy _ _ .slot => false
      | _ => true
    | _ => true

theorem live_of_test (ht : liveTest s a = true) : Live s a := by
  obtain ⟨hd, ht⟩ := Bool.and_eq_true_iff.mp ht
  refine ⟨by simpa using hd, fun u g f ha hpc => ?_⟩
  rw [ha] at ht
  simp [hpc] at ht

def newsTest {V : Type} [DecidableEq V] (x : News Thread V) (th : Thread) : Bool :=
  x.pending th = none ∨ x.pending th = some x.value

theorem inTime_of_test {V : Type} [DecidableEq V] {x : News Thread V} {th : Thread}
    (ht : newsTest x th = true) : x.InTime th := by
  intro v hv
  rcases of_decide_eq_true ht with hn | hs
  · cases hv.symm.trans hn
  · exact .inl (Option.some.inj (hv.symm.trans hs))

def announcesTest (s : Room) (a : RoomAction) : Bool :=
  match a.thread with
  | none => true
  | some th => newsTest s.speakerNews th && newsTest (s.flagNews .locked) th &&
      newsTest (s.flagNews .paused) th && match s.place th with
        | .api (.promote _ _ (.add .link)) => false
        | _ => true

theorem announcesInTime_of_test (ht : announcesTest s a = true) : AnnouncesInTime s a := by
  have split : ∀ th, a.thread = some th → newsTest s.speakerNews th = true ∧
      newsTest (s.flagNews .locked) th = true ∧ newsTest (s.flagNews .paused) th = true ∧
      ∀ x m, s.place th ≠ .api (.promote x m (.add .link)) := by
    intro th ha
    simp only [announcesTest, ha, Bool.and_eq_true] at ht
    obtain ⟨⟨⟨hs, hl⟩, hp⟩, hno⟩ := ht
    refine ⟨hs, hl, hp, fun x m hpl => ?_⟩
    simp [hpl] at hno
  refine ⟨fun th ha => inTime_of_test (split th ha).1, fun w th ha => ?_, fun u x m ha hpc => ?_⟩
  · cases w
    · exact inTime_of_test (split th ha).2.1
    · exact inTime_of_test (split th ha).2.2.1
  · exact absurd (congrArg Place.api hpc) ((split _ ha).2.2.2 x m)

def settledTest (n : ℕ) (s : Room) : Bool :=
  decide (∀ m < n, (s.place (.session m)).firing = none ∧ (s.place (.api m)).firing = none ∧
    (s.place (.api m)).flagged .locked = none ∧ (s.place (.api m)).flagged .paused = none) &&
  (s.b.events.isEmpty && s.emitter.inHand.isEmpty)

theorem settled_of_test (hm : s.Small n) (ht : settledTest n s = true) : s.Settled := by
  obtain ⟨ht, hq⟩ := Bool.and_eq_true_iff.mp ht
  obtain ⟨he, hh⟩ := Bool.and_eq_true_iff.mp hq
  have hn := of_decide_eq_true ht
  refine ⟨fun th => ?_, fun w th => ?_, List.isEmpty_iff.mp he, List.isEmpty_iff.mp hh⟩
  · cases th with
    | session m =>
      exact hm.session (P := fun m pc => (Place.session m pc).firing = none) (fun _ => rfl)
        (fun m hlt => (hn m hlt).1) m
    | api u =>
      exact hm.api (P := fun _ pc => (Place.api pc).firing = none) (fun _ => rfl)
        (fun m hlt => (hn m hlt).2.1) u
  · cases th with
    | session m => rfl
    | api u =>
      refine hm.api (P := fun _ pc => (Place.api pc).flagged w = none) (fun _ => rfl)
        (fun m hlt => ?_) u
      cases w
      · exact (hn m hlt).2.2.1
      · exact (hn m hlt).2.2.2

/-- A speaker joins a room that is locked, paused and unlocked. -/
theorem control_events_agree_unlocked : ∃ (h : List (Room × RoomAction)) (s : Room),
    Run (roomStep ⟨8, false, 16, false, false⟩) Room.init h s ∧ s.b.current_speaker = some 0 ∧
      s.b.paused = true ∧ replay speakerReads 0 s.b.fired = s.b.speakerId ∧
      replay ControlFlag.locked.reads false s.b.fired = s.b.locked ∧
      replay ControlFlag.paused.reads false s.b.fired = s.b.paused := by
  obtain ⟨h, s, hr, hm, hv⟩ := exists_run_observing (roomStep ⟨8, false, 16, false, false⟩)
    (fun s a => a.within 1 && (liveTest s a && announcesTest s a)) Room.init
    (List.flatten [[.call 0 (.flag .lock)], List.replicate 4 (.api 0 .ok),
      [.call 0 (.flag .pause)], List.replicate 4 (.api 0 .ok),
      [.call 0 (.flag .unlock)], List.replicate 4 (.api 0 .ok),
      [.join 0 ⟨.speaker, false, false⟩], List.replicate 10 (.session 0 .ok),
      List.replicate 8 .emitter])
    (fun _ s => (s.b.current_speaker, s.b.paused, s.b.stat_events_dropped, settledTest 1 s))
    (v := (some 0, true, 0, true)) (by decide)
  simp only [Prod.mk.injEq] at hv
  obtain ⟨hcur, hp, hd, hsettled⟩ := hv
  have htest := hm.mono fun _ _ h => Bool.and_eq_true_iff.mp (Bool.and_eq_true_iff.mp h).2
  refine ⟨h, s, hr, hcur, hp, control_events_agree (by decide) hr
    (htest.mono fun _ _ h => live_of_test h.1)
    (htest.mono fun _ _ h => announcesInTime_of_test h.2) hd
    (settled_of_test (small_of_test (by decide) hr hm) hsettled)⟩

/-- One thread locks, another one unlocks and is the first to queue its event. -/
theorem control_events_crossed : ¬ ∀ (h : List (Room × RoomAction)) (s : Room),
    Run (roomStep ⟨8, false, 16, false, false⟩) Room.init h s → Meets Live h →
      s.b.stat_events_dropped = 0 → s.Settled →
        replay speakerReads 0 s.b.fired = s.b.speakerId ∧
          replay ControlFlag.locked.reads false s.b.fired = s.b.locked ∧
          replay ControlFlag.paused.reads false s.b.fired = s.b.paused := by
  refine not_forall_run (fun s a => a.within 2 && liveTest s a)
    (List.flatten [[.call 0 (.flag .lock)], List.replicate 2 (.api 0 .ok),
      [.call 1 (.flag .unlock)], List.replicate 4 (.api 1 .ok), List.replicate 2 (.api 0 .ok),
      List.replicate 6 .emitter])
    (fun _ s => (s.b.locked, replay ControlFlag.locked.reads false s.b.fired,
      s.b.stat_events_dropped, settledTest 2 s))
    (v := (false, true, 0, true)) (by decide) ?_
  intro h s hr hm hv hall
  simp only [Prod.mk.injEq] at hv
  obtain ⟨hl, hreplay, hd, hsettled⟩ := hv
  have hagree := hall (hm.mono fun _ _ h => live_of_test (Bool.and_eq_true_iff.mp h).2) hd
    (settled_of_test (small_of_test (by decide) hr hm) hsettled)
  rw [hreplay, hl] at hagree
  cases hagree.2.1

end ModBroadcast
