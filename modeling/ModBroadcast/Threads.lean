import ModBroadcast.People

namespace ModBroadcast

variable {p : RoomProfile} {b b' : Broadcast} {c : Choice} {m n u : ℕ} {s t : Room}
  {a : RoomAction}

inductive Thread
  | session (m : ℕ)
  | api (u : ℕ)
  deriving DecidableEq

inductive Place
  | session (m : ℕ) (pc : SessionPc)
  | api (pc : ApiPc)
  deriving DecidableEq

def Place.HasRef : Place → Prop
  | .session _ .outside | .session _ (.pin _) | .session _ .returned | .api .idle
  | .api (.pin _) => False
  | _ => True

def Room.place (s : Room) : Thread → Place
  | .session m => .session m (s.session m)
  | .api u => .api (s.api u)

def RoomAction.thread : RoomAction → Option Thread
  | .join m _ | .session m _ => some (.session m)
  | .call u _ | .shutdown u | .api u _ => some (.api u)
  | _ => none

inductive ThreadStep (p : RoomProfile) (b b' : Broadcast) (c : Choice) : Place → Place → Prop
  | join {m : ℕ} {j : JoinParams} {pc pc' : SessionPc}
      (h : joinSession p b j pc = some (b', pc')) :
      ThreadStep p b b' c (.session m pc) (.session m pc')
  | session {m : ℕ} {pc pc' : SessionPc} (h : appFunction p b m c pc = some (b', pc')) :
      ThreadStep p b b' c (.session m pc) (.session m pc')
  | call (k : ApiCommand) (h : findBroadcast b = some b') :
      ThreadStep p b b' c (.api .idle) (.api (.pin k))
  | shutdown (hd : b.deleted = false) (h : b' = { b with live_refs := b.live_refs + 1 }) :
      ThreadStep p b b' c (.api .idle) (.api (.destroy false false .flag))
  | api {pc pc' : ApiPc} (h : apiDispatch p b c pc = some (b', pc')) :
      ThreadStep p b b' c (.api pc) (.api pc')

inductive BackgroundStep (p : RoomProfile) (s t : Room) : RoomAction → Prop
  | producer {c : Choice} (h : producerRun p s.b c s.producer = some (t.b, t.producer)) :
      BackgroundStep p s t (.producer c)
  | input {m : ℕ} {c : Choice} {b₁ : Broadcast} {k' : InputPc}
      (h : speakerInput p s.b m c (s.b.member m).input = some (b₁, k'))
      (hb : t.b = b₁.modify m fun y => { y with input := k' }) (hp : t.producer = s.producer) :
      BackgroundStep p s t (.input m c)
  | writer {i : ℕ} {c : Choice} (h : recordWriter p s.b i c = some t.b)
      (hp : t.producer = s.producer) : BackgroundStep p s t (.writer i c)
  | quiet {a : RoomAction} (h : t.b.core = s.b.core) (hp : t.producer = s.producer) :
      BackgroundStep p s t a

inductive RoomMove (p : RoomProfile) (s t : Room) (a : RoomAction) : Prop
  | thread {th : Thread} {c : Choice} (ha : a.thread = some th)
      (hc : ∀ u d, a = .api u d → d = c)
      (h : ThreadStep p s.b t.b c (s.place th) (t.place th))
      (ho : ∀ th', th' ≠ th → t.place th' = s.place th') (hp : t.producer = s.producer)
  | background (ha : a.thread = none) (h : BackgroundStep p s t a) (hpl : t.place = s.place)

theorem roomStep_move (hs : roomStep p s a = some t) : RoomMove p s t a := by
  cases a with
  | join m j =>
    obtain ⟨x, hx, rfl⟩ := Option.map_eq_some_iff.mp hs
    refine .thread (c := .ok) (rfl : _ = some (Thread.session m)) (by simp) ?_ ?_ rfl
    · simp only [Room.place, Function.update_self]
      exact .join hx
    · rintro (n | u) hn
      · have hnm : n ≠ m := fun h => hn (congrArg Thread.session h)
        simp [Room.place, hnm]
      · rfl
  | session m c =>
    obtain ⟨x, hx, rfl⟩ := Option.map_eq_some_iff.mp hs
    refine .thread (c := c) (rfl : _ = some (Thread.session m)) (by simp) ?_ ?_ rfl
    · simp only [Room.place, Function.update_self]
      exact .session hx
    · rintro (n | u) hn
      · have hnm : n ≠ m := fun h => hn (congrArg Thread.session h)
        simp [Room.place, hnm]
      · rfl
  | call u k =>
    simp only [roomStep] at hs
    split_ifs at hs with hidle
    obtain ⟨x, hx, rfl⟩ := Option.map_eq_some_iff.mp hs
    refine .thread (c := .ok) (rfl : _ = some (Thread.api u)) (by simp) ?_ ?_ rfl
    · simp only [Room.place, Function.update_self, hidle]
      exact .call k hx
    · rintro (n | v) hv
      · rfl
      · have hvu : v ≠ u := fun h => hv (congrArg Thread.api h)
        simp [Room.place, hvu]
  | shutdown u =>
    simp only [roomStep] at hs
    split_ifs at hs with hidle
    obtain rfl := Option.some.inj hs
    refine .thread (c := .ok) (rfl : _ = some (Thread.api u)) (by simp) ?_ ?_ rfl
    · simp only [Room.place, Function.update_self, hidle.1]
      exact .shutdown (by simpa using hidle.2.2) rfl
    · rintro (n | v) hv
      · rfl
      · have hvu : v ≠ u := fun h => hv (congrArg Thread.api h)
        simp [Room.place, hvu]
  | api u c =>
    obtain ⟨x, hx, rfl⟩ := Option.map_eq_some_iff.mp hs
    refine .thread (c := c) (rfl : _ = some (Thread.api u)) ?_ ?_ ?_ rfl
    · rintro v d he
      cases he
      rfl
    · simp only [Room.place, Function.update_self]
      exact .api hx
    · rintro (n | v) hv
      · rfl
      · have hvu : v ≠ u := fun h => hv (congrArg Thread.api h)
        simp [Room.place, hvu]
  | producer c =>
    obtain ⟨x, hx, rfl⟩ := Option.map_eq_some_iff.mp hs
    exact .background rfl (.producer hx) rfl
  | input m c =>
    obtain ⟨x, hx, rfl⟩ := Option.map_eq_some_iff.mp hs
    exact .background rfl (.input hx rfl rfl) rfl
  | writer i c =>
    obtain ⟨x, hx, rfl⟩ := Option.map_eq_some_iff.mp hs
    exact .background rfl (.writer hx rfl) rfl
  | emitter =>
    obtain ⟨x, hx, rfl⟩ := Option.map_eq_some_iff.mp hs
    exact .background rfl (.quiet (eventEmitter_core hx) rfl) rfl
  | housekeeping c =>
    obtain ⟨x, hx, rfl⟩ := Option.map_eq_some_iff.mp hs
    exact .background rfl (.quiet (runtimeHousekeeping_core hx) rfl) rfl
  | hangup m =>
    obtain rfl := Option.some.inj hs
    exact .background rfl (.quiet hangup_core rfl) rfl
  | elapse =>
    obtain rfl := Option.some.inj hs
    exact .background rfl (.quiet rfl rfl) rfl

def Broadcast.rest (b : Broadcast) : Broadcast :=
  { b.apart with current_speaker := none, speaker_reader := false }

theorem rest_of_apart (h : b'.apart = b.apart) : b'.rest = b.rest := by
  unfold Broadcast.rest
  rw [h]

theorem rest_of_core (h : b'.core = b.core) : b'.rest = b.rest := rest_of_apart (apart_of_core h)

theorem setSpeaker_rest {new : Option ℕ} {k : SetSpeakerPc}
    {x : Broadcast × Progress SetSpeakerPc} (h : setSpeaker b new c k = some x) :
    x.1.rest = b.rest := by
  by_cases hk : k = .install
  · subst hk
    obtain ⟨-, ⟨-, rfl⟩ | ⟨-, rfl⟩⟩ := setSpeaker_install h
    · rfl
    · cases new <;> rfl
  · exact rest_of_apart (apart_of_listed (setSpeaker_listed h hk))

theorem clearSpeakerIfCurrent_rest {k : ClearPc} {x : Broadcast × Progress ClearPc}
    (h : clearSpeakerIfCurrent b m k = some x) : x.1.rest = b.rest := by
  cases k with
  | test =>
    simp only [clearSpeakerIfCurrent] at h
    split_ifs at h <;> obtain rfl := Option.some.inj h <;> rfl
  | stop k =>
    obtain ⟨y, hy, hx, -⟩ := clearSpeakerIfCurrent_stop h
    rw [hx]
    exact rest_of_apart (apart_of_listed (speakerStopInput_listed hy))

def SessionPc.Rest : SessionPc → Prop
  | .record .. | .pin _ | .release => True
  | _ => False

theorem appFunction_rest {pc pc' : SessionPc} (h : appFunction p b m c pc = some (b', pc'))
    (hr : ¬ pc.Rest) : b'.rest = b.rest := by
  cases pc with
  | record | pin | release => exact absurd trivial hr
  | prepare j =>
    simp only [appFunction] at h
    split_ifs at h <;> obtain ⟨rfl, -⟩ := Prod.mk.inj (Option.some.inj h) <;> rfl
  | nextId | clearFlag =>
    obtain ⟨rfl, -⟩ := Prod.mk.inj (Option.some.inj h)
    rfl
  | add k =>
    apply rest_of_apart
    simp only [appFunction] at h
    split at h <;> obtain ⟨rfl, -⟩ := Prod.mk.inj (Option.some.inj h)
    · exact listenerAdd_apart k
    · exact listenerAdd_apart k
    · rw [apart_of_core hangup_core, listenerAdd_apart]
  | unlink =>
    obtain ⟨rfl, -⟩ := Prod.mk.inj (Option.some.inj h)
    exact rest_of_apart listenerDel_apart
  | speak promoted k =>
    obtain ⟨x, hx, he⟩ := Option.map_eq_some_iff.mp h
    obtain ⟨rfl, -⟩ := Prod.mk.inj he
    exact setSpeaker_rest hx
  | wait k =>
    cases k with
    | clear k =>
      obtain ⟨x, hx, he⟩ := Option.map_eq_some_iff.mp h
      obtain ⟨rfl, -⟩ := Prod.mk.inj he
      obtain ⟨y, hy, rfl⟩ := Option.map_eq_some_iff.mp hx
      exact setSpeaker_rest hy
    | _ => exact rest_of_core (appFunction_core h trivial)
  | clear k =>
    obtain ⟨x, hx, he⟩ := Option.map_eq_some_iff.mp h
    obtain ⟨rfl, -⟩ := Prod.mk.inj he
    exact clearSpeakerIfCurrent_rest hx
  | _ => exact rest_of_core (appFunction_core h trivial)

def DestroyPc.Rest : DestroyPc → Prop
  | .flag | .announce | .ungrace | .mark | .stopPlay | .closeMoh | .stopRecords _ | .stopProducer
  | .delete | .pool => True
  | _ => False

theorem destroyRoom_rest {grace announcement : Bool} {k : DestroyPc}
    {x : Broadcast × Progress DestroyPc} (h : destroyRoom p grace announcement b c k = some x)
    (hk : ¬ k.Rest) : x.1.rest = b.rest := by
  cases k with
  | slot =>
    simp only [destroyRoom] at h
    split_ifs at h
    obtain rfl := Option.some.inj h
    rfl
  | stop old k =>
    obtain ⟨y, hy, rfl⟩ := Option.map_eq_some_iff.mp h
    exact rest_of_apart (apart_of_listed (speakerStopInput_listed hy))
  | flag | announce | ungrace | mark | stopPlay | closeMoh | stopRecords | stopProducer | delete
  | pool => exact absurd trivial hk
  | _ => exact rest_of_core (destroyRoom_core h trivial)

def ApiPc.Rest : ApiPc → Prop
  | .pin _ | .release | .start .play | .start .stopPlay | .record .. | .norecord _ => True
  | .destroy _ _ k => k.Rest
  | _ => False

theorem apiDispatch_rest {pc pc' : ApiPc} (h : apiDispatch p b c pc = some (b', pc'))
    (hr : ¬ pc.Rest) : b'.rest = b.rest := by
  cases pc with
  | pin | release | record | norecord => exact absurd trivial hr
  | start k =>
    cases k with
    | play | stopPlay => exact absurd trivial hr
    | _ => exact rest_of_core (apiDispatch_core h trivial)
  | promote x m k =>
    obtain ⟨rfl, -⟩ := Prod.mk.inj (Option.some.inj h)
    exact rest_of_apart (requestPromotion_apart k)
  | clearSpeaker k =>
    obtain ⟨x, hx, he⟩ := Option.map_eq_some_iff.mp h
    obtain ⟨rfl, -⟩ := Prod.mk.inj he
    exact setSpeaker_rest hx
  | destroy grace announcement k =>
    obtain ⟨x, hx, he⟩ := Option.map_eq_some_iff.mp h
    obtain ⟨rfl, -⟩ := Prod.mk.inj he
    exact destroyRoom_rest hx hr
  | _ => exact rest_of_core (apiDispatch_core h trivial)

def Broadcast.life (b : Broadcast) : Broadcast :=
  { b.rest with
    recording_head := none
    next_recording := 0
    live_refs := 0
    consumer := fun _ => ⟨⟨"", false, false, none⟩, .absent, false⟩ }

theorem life_of_rest (h : b'.rest = b.rest) : b'.life = b.life := by
  unfold Broadcast.life
  rw [h]

theorem life_of_core (h : b'.core = b.core) : b'.life = b.life := life_of_rest (rest_of_core h)

theorem RecordWrites.life (h : RecordWrites p b b') : b'.life = b.life := by
  cases h with
  | fields _ _ _ _ hb =>
    rw [hb]
    rfl
  | event _ _ _ hb =>
    rw [hb]
    exact (life_of_core (enqueueEvent_core ..)).trans rfl

theorem speakerInput_life {k k' : InputPc} (h : speakerInput p b m c k = some (b', k')) :
    b'.life = b.life := life_of_rest (rest_of_apart (apart_of_listed (speakerInput_listed h)))

theorem appFunction_life {pc pc' : SessionPc} (h : appFunction p b m c pc = some (b', pc')) :
    b'.life = b.life := by
  cases pc with
  | record j k =>
    obtain ⟨rfl, -⟩ := Prod.mk.inj (Option.some.inj h)
    exact (recordStart_writes _ k).life
  | pin | release =>
    obtain ⟨rfl, -⟩ := Prod.mk.inj (Option.some.inj h)
    rfl
  | _ => exact life_of_rest (appFunction_rest h id)

/-- The places where an API thread opens or closes a file or takes the broadcast apart. -/
def ApiPc.Life : ApiPc → Prop
  | .start .play | .start .stopPlay => True
  | .destroy _ _ k => k.Rest ∧ ∀ k', k ≠ .stopRecords k'
  | _ => False

theorem apiDispatch_life {pc pc' : ApiPc} (h : apiDispatch p b c pc = some (b', pc'))
    (hl : ¬ pc.Life) : b'.life = b.life := by
  cases pc with
  | pin | release =>
    obtain ⟨rfl, -⟩ := Prod.mk.inj (Option.some.inj h)
    rfl
  | record target k =>
    obtain ⟨rfl, -⟩ := Prod.mk.inj (Option.some.inj h)
    exact (recordStart_writes _ k).life
  | norecord k =>
    obtain ⟨x, hx, he⟩ := Option.map_eq_some_iff.mp h
    obtain ⟨rfl, -⟩ := Prod.mk.inj he
    exact (recordStop_writes hx).life
  | start k =>
    cases k with
    | play | stopPlay => exact absurd trivial hl
    | _ => exact life_of_rest (apiDispatch_rest h id)
  | destroy grace announcement k =>
    by_cases hk : k.Rest
    · obtain ⟨k', rfl⟩ : ∃ k', k = .stopRecords k' := by
        by_contra hne
        exact hl ⟨hk, not_exists.mp hne⟩
      obtain ⟨x, hx, he⟩ := Option.map_eq_some_iff.mp h
      obtain ⟨y, hy, rfl⟩ := Option.map_eq_some_iff.mp hx
      obtain ⟨rfl, -⟩ := Prod.mk.inj he
      exact (recordStop_writes hy).life
    · exact life_of_rest (apiDispatch_rest h hk)
  | _ => exact life_of_rest (apiDispatch_rest h id)

theorem roomStep_life (hs : roomStep p s a = some t) (hapi : ∀ u c, a ≠ .api u c)
    (hprod : ∀ c, a ≠ .producer c) : t.b.life = s.b.life := by
  cases roomStep_broadcast hs with
  | session h => exact appFunction_life h
  | api => exact absurd rfl (hapi _ _)
  | shutdown h =>
    rw [h]
    rfl
  | producer => exact absurd rfl (hprod _)
  | input h hb =>
    rw [hb]
    exact (speakerInput_life h :)
  | writer h => exact (recordWriter_writes h).life
  | quiet h => exact life_of_core h

theorem producerRun_life {k k' : ProducerPc} (h : producerRun p b c k = some (b', k')) :
    b'.life = b.life ∨ k = .play ∧ b' = stopPlay b ∨
      k = .silence ∧ p.moh = true ∧ c ≠ .fail ∧ b' = { b with moh_open := true } ∨
        k = .exit ∧ k' = .ended ∧
          b' = { b with producer_running := false, producer_ended := true } := by
  cases k with
  | play =>
    simp only [producerRun] at h
    split_ifs at h <;> obtain ⟨rfl, -⟩ := Prod.mk.inj (Option.some.inj h)
    · exact .inr (.inl ⟨rfl, rfl⟩)
    all_goals exact .inl rfl
  | silence =>
    obtain ⟨rfl, -⟩ := Prod.mk.inj (Option.some.inj h)
    split_ifs with hm
    · exact .inr (.inr (.inl ⟨rfl, hm.1, hm.2.2, rfl⟩))
    · exact .inl rfl
  | exit =>
    obtain ⟨rfl, rfl⟩ := Prod.mk.inj (Option.some.inj h)
    exact .inr (.inr (.inr ⟨rfl, rfl, rfl⟩))
  | top =>
    simp only [producerRun] at h
    split_ifs at h <;> obtain ⟨rfl, -⟩ := Prod.mk.inj (Option.some.inj h)
    · exact .inl (life_of_core (enqueueEvent_core ..))
    all_goals exact .inl rfl
  | locked got paused spk =>
    simp only [producerRun] at h
    split at h
    · obtain ⟨rfl, -⟩ := Prod.mk.inj (Option.some.inj h)
      exact .inl rfl
    · split_ifs at h <;> obtain ⟨rfl, -⟩ := Prod.mk.inj (Option.some.inj h) <;> exact .inl rfl
  | ended => cases h
  | _ =>
    obtain ⟨rfl, -⟩ := Prod.mk.inj (Option.some.inj h)
    exact .inl rfl

/-- Whose step has opened or closed a file or taken the broadcast apart. -/
inductive Room.LifeStep (p : RoomProfile) (s t : Room) : RoomAction → Prop
  | keep {a : RoomAction} (ha : ∀ u c, a = .api u c → ¬ (s.api u).Life)
      (h : t.b.life = s.b.life) : Room.LifeStep p s t a
  | play {u : ℕ} {c : Choice} (hpc : s.api u = .start .play) (h : t.b = startPlay s.b true c) :
      Room.LifeStep p s t (.api u c)
  | stopPlay {u : ℕ} {c : Choice} (hpc : s.api u = .start .stopPlay)
      (h : t.b = ModBroadcast.stopPlay s.b) : Room.LifeStep p s t (.api u c)
  | destroy {u : ℕ} {c : Choice} {g f : Bool} {k : DestroyPc} {z : Progress DestroyPc}
      (hpc : s.api u = .destroy g f k) (hk : k.Rest ∧ ∀ k', k ≠ .stopRecords k')
      (h : destroyRoom p g f s.b c k = some (t.b, z)) : Room.LifeStep p s t (.api u c)
  | producer {c : Choice} (h : producerRun p s.b c s.producer = some (t.b, t.producer)) :
      Room.LifeStep p s t (.producer c)

theorem roomStep_lifeStep (hs : roomStep p s a = some t) : Room.LifeStep p s t a := by
  cases a with
  | api u c =>
    obtain ⟨x, hx, rfl⟩ := Option.map_eq_some_iff.mp hs
    by_cases hl : (s.api u).Life
    · cases hpc : s.api u with
      | start k =>
        rw [hpc] at hl hx
        cases k with
        | play =>
          obtain rfl := Option.some.inj hx
          exact .play hpc rfl
        | stopPlay =>
          obtain rfl := Option.some.inj hx
          exact .stopPlay hpc rfl
        | _ => exact hl.elim
      | destroy g f k =>
        rw [hpc] at hl hx
        obtain ⟨y, hy, rfl⟩ := Option.map_eq_some_iff.mp hx
        exact .destroy hpc hl hy
      | _ =>
        rw [hpc] at hl
        exact hl.elim
    · refine .keep ?_ (apiDispatch_life hx hl)
      rintro _ _ he
      cases he
      exact hl
  | producer c =>
    obtain ⟨x, hx, rfl⟩ := Option.map_eq_some_iff.mp hs
    exact .producer hx
  | _ => exact .keep (fun _ _ => nofun) (roomStep_life hs (by simp) (by simp))

end ModBroadcast
