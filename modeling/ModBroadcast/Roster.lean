import ModBroadcast.RoomSlot

namespace ModBroadcast

variable {p : RoomProfile} {b b' : Broadcast} {c : Choice} {m n u : ℕ}

def Member.entry (x : Member) : Member :=
  { Member.zero with
    id := x.id
    mflags := { Member.zero.mflags with roleTransitionToSpeaker := x.mflags.roleTransitionToSpeaker } }

def Broadcast.roster (b : Broadcast) : Broadcast :=
  { b.people with
    member := fun n => (b.member n).entry
    current_speaker := none
    speaker_reader := false }

def Broadcast.transitions (b : Broadcast) (n : ℕ) : Bool :=
  (b.member n).mflags.roleTransitionToSpeaker

def Broadcast.ids (b : Broadcast) (n : ℕ) : ℕ := (b.member n).id

theorem roster_of_people (h : b'.people = b.people) : b'.roster = b.roster := by
  have hr : b'.people.roster = b.people.roster := by rw [h]
  exact hr

theorem listeners_of_roster (h : b'.roster = b.roster) : b'.listeners = b.listeners := by
  have hl : b'.roster.listeners = b.roster.listeners := by rw [h]
  exact hl

theorem count_of_roster (h : b'.roster = b.roster) : b'.listener_count = b.listener_count := by
  have hc : b'.roster.listener_count = b.roster.listener_count := by rw [h]
  exact hc

theorem transitions_of_roster (h : b'.roster = b.roster) : b'.transitions = b.transitions := by
  have ht : b'.roster.transitions = b.roster.transitions := by rw [h]
  exact ht

theorem ids_of_roster (h : b'.roster = b.roster) : b'.ids = b.ids := by
  have hi : b'.roster.ids = b.roster.ids := by rw [h]
  exact hi

theorem next_of_roster (h : b'.roster = b.roster) : b'.next_member_id = b.next_member_id := by
  have hn : b'.roster.next_member_id = b.roster.next_member_id := by rw [h]
  exact hn

theorem modify_roster {f : Member → Member} (hf : ∀ x, (f x).entry = x.entry) :
    (b.modify m f).roster = b.roster := by
  have hm : (fun n => ((b.modify m f).member n).entry) = fun n => (b.member n).entry := by
    funext n
    by_cases hn : n = m
    · subst hn
      simp [Broadcast.modify, hf]
    · simp [Broadcast.modify, hn]
  unfold Broadcast.roster
  rw [hm]
  rfl

theorem speakerStopInput_roster {k : StopInputPc} {x : Broadcast × Progress StopInputPc}
    (h : speakerStopInput b m k = some x) : x.1.roster = b.roster := by
  cases k with
  | exchange =>
    simp only [speakerStopInput] at h
    split_ifs at h <;> obtain rfl := Option.some.inj h
    · dsimp only
      apply modify_roster
      intro x
      rfl
    · rfl
  | clear | join => exact roster_of_people (people_of_core (speakerStopInput_core h (by simp)))

theorem producerRun_roster {k k' : ProducerPc} (h : producerRun p b c k = some (b', k')) :
    b'.roster = b.roster := by
  have hr : { b'.people with speaker_reader := b.speaker_reader }.roster = b.people.roster := by
    rw [producerRun_people h]
  exact hr

theorem speakerInput_roster {k k' : InputPc} (h : speakerInput p b m c k = some (b', k')) :
    b'.roster = b.roster := by
  cases k with
  | absent | ended => cases h
  | start =>
    simp only [speakerInput] at h
    split_ifs at h <;> obtain ⟨rfl, -⟩ := Prod.mk.inj (Option.some.inj h)
    · apply modify_roster
      intro x
      rfl
    · rfl
  | loop =>
    simp only [speakerInput] at h
    split_ifs at h
    · split at h <;> obtain ⟨rfl, -⟩ := Prod.mk.inj (Option.some.inj h)
      · exact roster_of_people (enqueueEvent_people ..)
      · exact roster_of_people (enqueueEvent_people ..)
      · rfl
    · obtain ⟨rfl, -⟩ := Prod.mk.inj (Option.some.inj h)
      rfl
  | pinned | unflag | stop =>
    obtain ⟨rfl, -⟩ := Prod.mk.inj (Option.some.inj h)
    apply modify_roster
    intro x
    rfl
  | unpin =>
    obtain ⟨rfl, -⟩ := Prod.mk.inj (Option.some.inj h)
    rfl

theorem setSpeaker_roster {new : Option ℕ} {k : SetSpeakerPc}
    {x : Broadcast × Progress SetSpeakerPc} (h : setSpeaker b new c k = some x) :
    x.1.roster = b.roster := by
  cases k with
  | start =>
    obtain ⟨m, -, rfl⟩ := Option.map_eq_some_iff.mp h
    split_ifs
    · rfl
    all_goals
      dsimp only
      apply modify_roster
      intro x
      rfl
  | install =>
    obtain ⟨-, ⟨-, rfl⟩ | ⟨-, rfl⟩⟩ := setSpeaker_install h
    · rfl
    · cases new with
      | none => rfl
      | some m =>
        dsimp only [installSpeaker]
        apply modify_roster (b := { b with current_speaker := some m, speaker_active_since := b.clock })
        intro x
        rfl
  | stop old k =>
    obtain ⟨y, hy, rfl⟩ := Option.map_eq_some_iff.mp h
    exact speakerStopInput_roster hy
  | _ => exact roster_of_people (people_of_core (setSpeaker_core h trivial))

theorem clearSpeakerIfCurrent_roster {k : ClearPc} {x : Broadcast × Progress ClearPc}
    (h : clearSpeakerIfCurrent b m k = some x) : x.1.roster = b.roster := by
  cases k with
  | test =>
    simp only [clearSpeakerIfCurrent] at h
    split_ifs at h <;> obtain rfl := Option.some.inj h <;> rfl
  | stop k =>
    obtain ⟨y, hy, hx, -⟩ := clearSpeakerIfCurrent_stop h
    rw [hx]
    exact speakerStopInput_roster hy

theorem destroyRoom_roster {grace announcement : Bool} {k : DestroyPc}
    {x : Broadcast × Progress DestroyPc} (h : destroyRoom p grace announcement b c k = some x) :
    x.1.roster = b.roster := by
  by_cases hk : k.Peopled
  · cases k with
    | slot =>
      simp only [destroyRoom] at h
      split_ifs at h
      obtain rfl := Option.some.inj h
      rfl
    | stop old k =>
      obtain ⟨y, hy, rfl⟩ := Option.map_eq_some_iff.mp h
      exact speakerStopInput_roster hy
    | _ => exact absurd hk id
  · exact roster_of_people (destroyRoom_people h hk)

@[simp] theorem listenerLink_listeners : (listenerLink b m).listeners = m :: b.listeners := by
  unfold listenerLink
  split_ifs <;> rfl

@[simp] theorem listenerLink_transitions : (listenerLink b m).transitions = b.transitions := by
  funext n
  unfold Broadcast.transitions
  rw [listenerLink_member]
  by_cases hn : n = m
  · subst hn
    simp
  · simp [hn]

theorem listenerDel_roster : (listenerDel p b m).roster =
    if m ∈ b.listeners then (listenerUnlink b m).roster else b.roster := by
  have hcore := listenerDel_core (p := p) (b := b) (m := m)
  split_ifs at hcore ⊢ <;> exact roster_of_people (people_of_core hcore)

def SessionPc.MayBeListed : SessionPc → Prop
  | .add .stats | .add .running | .listen _ | .decide | .listenerVariables | .unlink => True
  | _ => False

instance : DecidablePred SessionPc.MayBeListed := fun pc => by
  unfold SessionPc.MayBeListed
  split <;> infer_instance

inductive SessionRoster (p : RoomProfile) (m : ℕ) (b b' : Broadcast) : SessionPc → SessionPc → Prop
  | prepare {j : JoinParams} {pc' : SessionPc} (h : b' = memberPrepare b m j.role j.ghost) :
      SessionRoster p m b b' (.prepare j) pc'
  | number (h : b' = (memberNextId b).1.modify m fun x => { x with id := (memberNextId b).2 }) :
      SessionRoster p m b b' .nextId .running
  | link (h : b' = listenerLink b m) : SessionRoster p m b b' (.add .link) (.add .stats)
  | commit (hm : b.transitions m = true) (h : b'.roster = b.roster) :
      SessionRoster p m b b' .decide .clearFlag
  | lower (h : b' = b.modifyFlags m fun f => { f with roleTransitionToSpeaker := false }) :
      SessionRoster p m b b' .clearFlag .raise
  | unlink (h : b' = listenerDel p b m) : SessionRoster p m b b' .unlink (.clear .test)
  | keep {pc pc' : SessionPc} (hpc : pc.MayBeListed → pc'.MayBeListed) (h : b'.roster = b.roster) :
      SessionRoster p m b b' pc pc'

theorem appFunction_roster {pc pc' : SessionPc} (h : appFunction p b m c pc = some (b', pc')) :
    SessionRoster p m b b' pc pc' := by
  have hnext := appFunction_next h
  by_cases hp : pc.Peopled
  · cases pc with
    | prepare j =>
      simp only [appFunction] at h
      split_ifs at h <;> obtain ⟨rfl, -⟩ := Prod.mk.inj (Option.some.inj h)
      · exact .keep False.elim rfl
      all_goals exact .prepare rfl
    | nextId =>
      obtain ⟨rfl, rfl⟩ := Prod.mk.inj (Option.some.inj h)
      exact .number rfl
    | add k =>
      cases k with
      | link =>
        simp only [appFunction, listenerAdd] at h
        split_ifs at h <;> obtain ⟨rfl, rfl⟩ := Prod.mk.inj (Option.some.inj h)
        -- refused inside the lock, for want of room
        · exact .keep False.elim (roster_of_people (people_of_core hangup_core))
        · exact .link rfl
      | _ => exact absurd hp id
    | clearFlag =>
      obtain ⟨rfl, rfl⟩ := Prod.mk.inj (Option.some.inj h)
      exact .lower rfl
    | unlink =>
      obtain ⟨rfl, rfl⟩ := Prod.mk.inj (Option.some.inj h)
      exact .unlink rfl
    | speak promoted k =>
      obtain ⟨x, hx, he⟩ := Option.map_eq_some_iff.mp h
      obtain ⟨rfl, -⟩ := Prod.mk.inj he
      exact .keep False.elim (setSpeaker_roster hx)
    | wait k =>
      cases k with
      | clear k =>
        obtain ⟨x, hx, he⟩ := Option.map_eq_some_iff.mp h
        obtain ⟨rfl, -⟩ := Prod.mk.inj he
        obtain ⟨y, hy, rfl⟩ := Option.map_eq_some_iff.mp hx
        exact .keep False.elim (setSpeaker_roster hy)
      | _ => exact absurd hp id
    | clear k =>
      obtain ⟨x, hx, he⟩ := Option.map_eq_some_iff.mp h
      obtain ⟨rfl, -⟩ := Prod.mk.inj he
      exact .keep False.elim (clearSpeakerIfCurrent_roster hx)
    | _ => exact absurd hp id
  · have hsame : b'.roster = b.roster := roster_of_people (appFunction_people h hp)
    cases pc with
    | decide =>
      obtain ⟨-, rfl⟩ := Prod.mk.inj (Option.some.inj h)
      -- the session finds the flag of a promotion, or goes on as a listener
      split_ifs with hflag
      · exact .commit hflag hsame
      · exact .keep (fun _ => trivial) hsame
    | listen k =>
      refine .keep (fun _ => ?_) hsame
      rcases hnext with ⟨k', rfl⟩ | rfl <;> trivial
    | add k =>
      refine .keep (fun hl => ?_) hsame
      cases k with
      | stats | running =>
        obtain rfl := hnext
        trivial
      | _ => exact absurd hl id
    | listenerVariables =>
      obtain rfl := hnext
      exact .keep (fun _ => trivial) hsame
    | unlink => exact absurd trivial hp
    | _ => exact .keep False.elim hsame

/-- The places of `broadcast_request_promotion` between the unlinking and the end of
the rollback. -/
def PromotionPc.Holds : PromotionPc → Prop
  | .raise | .lower | .poll | .recheck | .drop | .add .destroyed | .add .locked | .add .link => True
  | _ => False

def PromotionPc.Dropped : PromotionPc → Prop
  | .add .destroyed | .add .locked | .add .link => True
  | _ => False

def ApiPc.Moves (m : ℕ) : ApiPc → Prop
  | .promote _ n k => n = m ∧ k.Holds
  | _ => False

def ApiPc.PutsBack (m : ℕ) : ApiPc → Prop
  | .promote _ n k => n = m ∧ k.Dropped
  | _ => False

theorem PromotionPc.Dropped.holds {k : PromotionPc} (hk : k.Dropped) : k.Holds := by
  cases k with
  | add k => cases k <;> exact hk
  | _ => exact absurd hk id

theorem ApiPc.PutsBack.moves {pc : ApiPc} (hm : pc.PutsBack m) : pc.Moves m := by
  cases pc with
  | promote x n k => exact ⟨hm.1, hm.2.holds⟩
  | _ => exact absurd hm id

inductive ApiRoster (p : RoomProfile) (b b' : Broadcast) : ApiPc → ApiPc → Prop
  | unlink {x m : ℕ} (hm : m ∈ b.listeners) (h : b' = listenerUnlink b m) :
      ApiRoster p b b' (.promote x m .unlink) (.promote x m .raise)
  | raise {x m : ℕ} (h : b' = b.modifyFlags m fun f => { f with roleTransitionToSpeaker := true }) :
      ApiRoster p b b' (.promote x m .raise) (.promote x m .lower)
  | drop {x m : ℕ} (h : b' = b.modifyFlags m fun f => { f with roleTransitionToSpeaker := false }) :
      ApiRoster p b b' (.promote x m .drop) (.promote x m (.add .destroyed))
  | link {x m : ℕ} (hroom : b.listener_count < p.max_listeners) (h : b' = listenerLink b m) :
      ApiRoster p b b' (.promote x m (.add .link)) (.promote x m (.add .stats))
  | keep {pc pc' : ApiPc} (hm : ∀ m, pc'.Moves m → pc.Moves m)
      (hd : ∀ m, pc'.PutsBack m → pc.PutsBack m) (h : b'.roster = b.roster) : ApiRoster p b b' pc pc'

theorem ApiRoster.other {pc pc' : ApiPc} (hpc : ∀ m, ¬ pc'.Moves m) (h : b'.roster = b.roster) :
    ApiRoster p b b' pc pc' :=
  .keep (fun m hm => absurd hm (hpc m)) (fun m hm => absurd hm.moves (hpc m)) h

theorem requestPromotion_roster (x : ℕ) (k : PromotionPc) :
    ApiRoster p b (requestPromotion p b m c k).1 (.promote x m k)
      ((requestPromotion p b m c k).2.resume (.promote x m) fun _ => .unpin x) := by
  cases k with
  | bridge =>
    dsimp only [requestPromotion]
    split_ifs
    · exact .other (fun _ hm => hm.2) rfl
    · exact .other (fun _ => id) rfl
  | unlink =>
    simp only [requestPromotion, listenerUnlinkForPromotion]
    by_cases hm : m ∈ b.listeners
    · simp only [if_pos hm]
      exact .unlink hm rfl
    · simp only [if_neg hm]
      exact .other (fun _ => id) rfl
  | raise => exact .raise rfl
  | drop => exact .drop rfl
  | lower =>
    refine .keep (fun _ hm => hm) (fun _ hm => hm) ?_
    exact roster_of_people (people_of_core (requestPromotion_core (s := x) trivial))
  | poll | recheck =>
    dsimp only [requestPromotion]
    split_ifs <;>
      first
      | exact .other (fun _ => id) rfl
      | exact .keep (fun _ hm => hm) (fun _ hm => hm.2.elim) rfl
  | add k =>
    cases k with
    | link =>
      dsimp only [requestPromotion, listenerAdd]
      split_ifs with hfull
      · exact .other (fun _ => id) rfl
      · exact .link (Nat.not_le.mp hfull) rfl
    | destroyed | locked =>
      dsimp only [requestPromotion, listenerAdd]
      split_ifs
      · exact .other (fun _ => id) rfl
      · exact .keep (fun _ hm => hm) (fun _ hm => hm) rfl
    -- after the linking the thread holds the member no longer
    | stats =>
      refine .other (fun n hn => ?_) (roster_of_people (people_of_core (listenerAdd_core (by simp))))
      dsimp only [requestPromotion, listenerAdd] at hn
      split_ifs at hn <;> exact hn.2
    | running =>
      exact .other (fun _ => id) (roster_of_people (people_of_core (listenerAdd_core (by simp))))

/-- A request begins when its member has been found, and goes on by itself. -/
theorem apiDispatch_promote {pc : ApiPc} {x : ℕ} {k' : PromotionPc}
    (h : apiDispatch p b c pc = some (b', .promote x m k')) : k' = .bridge ∨
      ∃ k, pc = .promote x m k ∧ requestPromotion p b m c k = (b', .run k') := by
  cases apiDispatch_cases h with
  | @resolve k _ _ _ _ _ hpc | @resolveSpeaker k _ _ _ _ _ hpc =>
    cases k <;> cases hpc
    exact .inl rfl
  | promote h => exact .inr ⟨_, rfl, h⟩

/-- Only a promotion moves a member. -/
theorem apiDispatch_moves {pc pc' : ApiPc} (h : apiDispatch p b c pc = some (b', pc'))
    (hm : pc'.Moves m) : ∃ x n k, pc = .promote x n k := by
  cases pc' with
  | promote x n k' =>
    obtain rfl | ⟨k, rfl, -⟩ := apiDispatch_promote h
    · exact hm.2.elim
    · exact ⟨x, n, k, rfl⟩
  | _ => exact hm.elim

theorem apiDispatch_roster {pc pc' : ApiPc} (h : apiDispatch p b c pc = some (b', pc')) :
    ApiRoster p b b' pc pc' := by
  have hmoves : ∀ m, pc'.Moves m → ∃ x n k, pc = .promote x n k := fun _ => apiDispatch_moves h
  cases pc with
  | promote x m k =>
    obtain ⟨rfl, rfl⟩ := Prod.mk.inj (Option.some.inj h)
    exact requestPromotion_roster x k
  | clearSpeaker k =>
    obtain ⟨x, hx, he⟩ := Option.map_eq_some_iff.mp h
    obtain ⟨rfl, -⟩ := Prod.mk.inj he
    exact .other (fun m hm => by simpa using hmoves m hm) (setSpeaker_roster hx)
  | destroy grace announcement k =>
    obtain ⟨x, hx, he⟩ := Option.map_eq_some_iff.mp h
    obtain ⟨rfl, -⟩ := Prod.mk.inj he
    exact .other (fun m hm => by simpa using hmoves m hm) (destroyRoom_roster hx)
  | _ =>
    exact .other (fun m hm => by simpa using hmoves m hm)
      (roster_of_people (apiDispatch_people h id))

inductive RosterStep (p : RoomProfile) (s t : Room) : RoomAction → Prop
  | session {m : ℕ} {c : Choice} (h : SessionRoster p m s.b t.b (s.session m) (t.session m))
      (hn : (s.session m).Next (t.session m)) (hs : ∀ n, n ≠ m → t.session n = s.session n)
      (ha : t.api = s.api) : RosterStep p s t (.session m c)
  | api {u : ℕ} {c : Choice} (h : ApiRoster p s.b t.b (s.api u) (t.api u))
      (hs : t.session = s.session) (ha : ∀ v, v ≠ u → t.api v = s.api v) : RosterStep p s t (.api u c)
  | join {m : ℕ} {j : JoinParams} (h : t.b.roster = s.b.roster)
      (hn : s.session m = .outside ∨ s.session m = .created)
      (hn' : (∃ j, t.session m = .pin j) ∨ (∃ j k, t.session m = .record j k) ∨
        ∃ j, t.session m = .prepare j)
      (hs : ∀ n, n ≠ m → t.session n = s.session n) (ha : t.api = s.api) :
      RosterStep p s t (.join m j)
  | enter {a : RoomAction} {u : ℕ} (h : t.b.roster = s.b.roster) (hs : t.session = s.session)
      (hi : s.api u = .idle) (hu : (∃ k, t.api u = .pin k) ∨ t.api u = .destroy false false .flag)
      (ha : ∀ v, v ≠ u → t.api v = s.api v) : RosterStep p s t a
  | keep {a : RoomAction} (h : t.b.roster = s.b.roster) (hs : t.session = s.session)
      (ha : t.api = s.api) : RosterStep p s t a

theorem roomStep_roster {s t : Room} {a : RoomAction} (hs : roomStep p s a = some t) :
    RosterStep p s t a := by
  have of_core : ∀ {b' : Broadcast}, b'.core = s.b.core → b'.roster = s.b.roster := fun h =>
    roster_of_people (people_of_core h)
  cases a with
  | session m c =>
    obtain ⟨x, hx, rfl⟩ := Option.map_eq_some_iff.mp hs
    have hm : Function.update s.session m x.2 m = x.2 := Function.update_self ..
    exact .session (by simpa only [hm] using appFunction_roster hx)
      (by simpa only [hm] using appFunction_next hx) (fun n hn => Function.update_of_ne hn ..) rfl
  | join m j =>
    obtain ⟨x, hx, rfl⟩ := Option.map_eq_some_iff.mp hs
    have hroster := of_core (joinSession_core hx)
    have hm : Function.update s.session m x.2 m = x.2 := Function.update_self ..
    refine .join hroster ?_ ?_ (fun n hn => Function.update_of_ne hn ..) rfl
    · cases hpc : s.session m <;> simp [hpc, joinSession] at hx ⊢
    · dsimp only
      rw [hm]
      cases hpc : s.session m with
      | outside =>
        rw [hpc] at hx
        obtain ⟨y, -, rfl⟩ := Option.map_eq_some_iff.mp hx
        exact .inl ⟨j, rfl⟩
      | created =>
        rw [hpc] at hx
        obtain rfl := Option.some.inj hx
        dsimp only
        split_ifs
        · exact .inr (.inl ⟨j, .start, rfl⟩)
        · exact .inr (.inr ⟨j, rfl⟩)
      | _ => simp [hpc, joinSession] at hx
  | api u c =>
    obtain ⟨x, hx, rfl⟩ := Option.map_eq_some_iff.mp hs
    have hu : Function.update s.api u x.2 u = x.2 := Function.update_self ..
    exact .api (by simpa only [hu] using apiDispatch_roster hx) rfl
      fun v hv => Function.update_of_ne hv ..
  | call u k =>
    simp only [roomStep] at hs
    split_ifs at hs with hi
    obtain ⟨x, hx, rfl⟩ := Option.map_eq_some_iff.mp hs
    refine .enter (of_core ?_) rfl hi (.inl ⟨k, Function.update_self ..⟩)
      fun v hv => Function.update_of_ne hv ..
    rw [(findBroadcast_eq hx).2]
    rfl
  | shutdown u =>
    simp only [roomStep] at hs
    split_ifs at hs with hi
    obtain rfl := Option.some.inj hs
    exact .enter rfl rfl hi.1 (.inr (Function.update_self ..)) fun v hv => Function.update_of_ne hv ..
  | producer c =>
    obtain ⟨x, hx, rfl⟩ := Option.map_eq_some_iff.mp hs
    exact .keep (producerRun_roster hx) rfl rfl
  | input m c =>
    obtain ⟨⟨b₁, k'⟩, hx, rfl⟩ := Option.map_eq_some_iff.mp hs
    refine .keep ?_ rfl rfl
    rw [← speakerInput_roster hx]
    dsimp only
    apply modify_roster
    intro x
    rfl
  | writer i c =>
    obtain ⟨x, hx, rfl⟩ := Option.map_eq_some_iff.mp hs
    exact .keep (roster_of_people (recordWriter_writes hx).people) rfl rfl
  | emitter =>
    obtain ⟨x, hx, rfl⟩ := Option.map_eq_some_iff.mp hs
    exact .keep (of_core (eventEmitter_core hx)) rfl rfl
  | housekeeping c =>
    obtain ⟨x, hx, rfl⟩ := Option.map_eq_some_iff.mp hs
    exact .keep (of_core (runtimeHousekeeping_core hx)) rfl rfl
  | hangup m =>
    obtain rfl := Option.some.inj hs
    exact .keep (of_core hangup_core) rfl rfl
  | elapse =>
    obtain rfl := Option.some.inj hs
    exact .keep rfl rfl rfl

end ModBroadcast
