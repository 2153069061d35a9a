import ModBroadcast.Places

namespace ModBroadcast

variable {p : RoomProfile} {b b' : Broadcast} {c : Choice} {m n : ℕ}

def Broadcast.people (b : Broadcast) : Broadcast :=
  { Broadcast.create with
    member := fun n => (b.member n).core
    listeners := b.listeners
    listener_count := b.listener_count
    next_member_id := b.next_member_id
    current_speaker := b.current_speaker
    speaker_reader := b.speaker_reader }

def Broadcast.slot (b : Broadcast) : Option ℕ × Bool := (b.current_speaker, b.speaker_reader)

theorem people_of_core (h : b'.core = b.core) : b'.people = b.people := by
  have hp : b'.core.people = b.core.people := by rw [h]
  exact hp

theorem slot_of_people (h : b'.people = b.people) : b'.slot = b.slot := by
  have hc : b'.people.slot = b.people.slot := by rw [h]
  exact hc

@[simp] theorem enqueueEvent_people (e : EventType) (i : ℕ) :
    (enqueueEvent p b e i).people = b.people := people_of_core (enqueueEvent_core e i)

@[simp] theorem modifyConsumer_people (i : ℕ) (f : RecConsumer → RecConsumer) :
    (b.modifyConsumer i f).people = b.people := rfl

theorem RecordWrites.people (h : RecordWrites p b b') : b'.people = b.people := by
  cases h with
  | fields _ _ _ _ hb =>
    rw [hb]
    rfl
  | event _ _ _ hb =>
    rw [hb]
    exact (enqueueEvent_people ..).trans rfl

/-- The producer goes into the lock of the slot and out of it. -/
theorem producerRun_people {k k' : ProducerPc} (h : producerRun p b c k = some (b', k')) :
    { b'.people with speaker_reader := b.speaker_reader } = b.people := by
  have same : ∀ {b₁ : Broadcast}, b₁.people = b.people →
      { b₁.people with speaker_reader := b.speaker_reader } = b.people := by
    intro b₁ h₁
    rw [h₁]
    rfl
  cases k with
  | top =>
    simp only [producerRun] at h
    split_ifs at h <;> obtain ⟨rfl, -⟩ := Prod.mk.inj (Option.some.inj h)
    · exact same (enqueueEvent_people ..)
    all_goals rfl
  | play | silence =>
    simp only [producerRun] at h
    split_ifs at h <;> obtain ⟨rfl, -⟩ := Prod.mk.inj (Option.some.inj h) <;> rfl
  | locked =>
    simp only [producerRun] at h
    split at h
    · obtain ⟨rfl, -⟩ := Prod.mk.inj (Option.some.inj h)
      rfl
    · split_ifs at h <;> obtain ⟨rfl, -⟩ := Prod.mk.inj (Option.some.inj h) <;> rfl
  | ended => cases h
  | _ =>
    obtain ⟨rfl, -⟩ := Prod.mk.inj (Option.some.inj h)
    rfl

def DestroyPc.Peopled : DestroyPc → Prop
  | .slot | .stop _ .exchange => True
  | _ => False

theorem destroyRoom_people {grace announcement : Bool} {k : DestroyPc}
    {x : Broadcast × Progress DestroyPc} (h : destroyRoom p grace announcement b c k = some x)
    (hk : ¬ k.Peopled) : x.1.people = b.people := by
  cases k with
  | slot => exact absurd trivial hk
  | stopRecords k =>
    obtain ⟨y, hy, rfl⟩ := Option.map_eq_some_iff.mp h
    exact (recordStop_writes hy).people
  | stop old k =>
    obtain ⟨y, hy, rfl⟩ := Option.map_eq_some_iff.mp h
    refine people_of_core (speakerStopInput_core hy ?_)
    rintro rfl
    exact hk trivial
  | announce =>
    obtain rfl := Option.some.inj h
    simp only [startPlay]
    split_ifs <;> rfl
  | delete =>
    simp only [destroyRoom] at h
    split_ifs at h
    obtain rfl := Option.some.inj h
    rfl
  | flag | ungrace | mark | stopPlay | closeMoh | stopProducer | pool =>
    obtain rfl := Option.some.inj h
    rfl
  | _ => exact people_of_core (destroyRoom_core h trivial)

def SessionPc.Peopled : SessionPc → Prop
  | .prepare _ | .nextId | .add .link | .clearFlag | .unlink | .clear .test
  | .clear (.stop .exchange) => True
  | .speak _ k | .wait (.clear k) => ¬ k.Quiet
  | _ => False

theorem appFunction_people {pc pc' : SessionPc} (h : appFunction p b m c pc = some (b', pc'))
    (hp : ¬ pc.Peopled) : b'.people = b.people := by
  cases pc with
  | record j k =>
    obtain ⟨rfl, -⟩ := Prod.mk.inj (Option.some.inj h)
    exact (recordStart_writes _ _).people
  | pin | release =>
    obtain ⟨rfl, -⟩ := Prod.mk.inj (Option.some.inj h)
    rfl
  | prepare | nextId | clearFlag | unlink => exact absurd trivial hp
  | speak promoted k => exact people_of_core (appFunction_core h (not_not.mp hp))
  | wait k =>
    cases k with
    | clear k => exact people_of_core (appFunction_core h (not_not.mp hp))
    | _ => exact people_of_core (appFunction_core h trivial)
  | add k =>
    cases k with
    | link => exact absurd trivial hp
    | _ => exact people_of_core (appFunction_core h trivial)
  | clear k =>
    cases k with
    | test => exact absurd trivial hp
    | stop k =>
      cases k with
      | exchange => exact absurd trivial hp
      | _ => exact people_of_core (appFunction_core h trivial)
  | _ => exact people_of_core (appFunction_core h trivial)

def ApiPc.Peopled : ApiPc → Prop
  | .promote _ _ k =>
    match k with
    | .unlink | .raise | .drop | .add .link => True
    | _ => False
  | .clearSpeaker k => ¬ k.Quiet
  | .destroy _ _ k => k.Peopled
  | _ => False

theorem apiDispatch_people {pc pc' : ApiPc} (h : apiDispatch p b c pc = some (b', pc'))
    (hp : ¬ pc.Peopled) : b'.people = b.people := by
  cases pc with
  | pin | release =>
    obtain ⟨rfl, -⟩ := Prod.mk.inj (Option.some.inj h)
    rfl
  | start k =>
    cases k with
    | play =>
      obtain ⟨rfl, -⟩ := Prod.mk.inj (Option.some.inj h)
      simp only [startPlay]
      split_ifs <;> rfl
    | stopPlay =>
      obtain ⟨rfl, -⟩ := Prod.mk.inj (Option.some.inj h)
      rfl
    | _ => exact people_of_core (apiDispatch_core h trivial)
  | promote s m k =>
    refine people_of_core (apiDispatch_core h ?_)
    cases k with
    | add k => cases k <;> first | trivial | exact absurd trivial hp
    | _ => first | trivial | exact absurd trivial hp
  | clearSpeaker k => exact people_of_core (apiDispatch_core h (not_not.mp hp))
  | record target k =>
    obtain ⟨rfl, -⟩ := Prod.mk.inj (Option.some.inj h)
    exact (recordStart_writes _ _).people
  | norecord k =>
    obtain ⟨x, hx, he⟩ := Option.map_eq_some_iff.mp h
    obtain ⟨rfl, -⟩ := Prod.mk.inj he
    exact (recordStop_writes hx).people
  | destroy grace announcement k =>
    obtain ⟨x, hx, he⟩ := Option.map_eq_some_iff.mp h
    obtain ⟨rfl, -⟩ := Prod.mk.inj he
    exact destroyRoom_people hx hp
  | _ => exact people_of_core (apiDispatch_core h trivial)

/-- Whose step has changed what the broadcast says about its members. -/
inductive PeopleStep (p : RoomProfile) (s : Room) (b' : Broadcast) : RoomAction → Prop
  | session {m : ℕ} {c : Choice} {pc' : SessionPc}
      (h : appFunction p s.b m c (s.session m) = some (b', pc'))
      (hp : (s.session m).Peopled) : PeopleStep p s b' (.session m c)
  | api {u : ℕ} {c : Choice} {pc' : ApiPc} (h : apiDispatch p s.b c (s.api u) = some (b', pc'))
      (hp : (s.api u).Peopled) : PeopleStep p s b' (.api u c)
  | input {m : ℕ} {c : Choice} {b₁ : Broadcast} {k' : InputPc}
      (h : speakerInput p s.b m c (s.b.member m).input = some (b₁, k'))
      (hb : b' = b₁.modify m fun y => { y with input := k' }) : PeopleStep p s b' (.input m c)
  | producer {c : Choice} {k' : ProducerPc} (h : producerRun p s.b c s.producer = some (b', k')) :
      PeopleStep p s b' (.producer c)
  | keep {a : RoomAction} (h : b'.people = s.b.people) : PeopleStep p s b' a

theorem roomStep_people {s t : Room} {a : RoomAction} (hs : roomStep p s a = some t) :
    PeopleStep p s t.b a := by
  cases roomStep_broadcast hs with
  | @session m c pc' h =>
    by_cases hp : (s.session m).Peopled
    · exact .session h hp
    · exact .keep (appFunction_people h hp)
  | @api u c pc' h =>
    by_cases hp : (s.api u).Peopled
    · exact .api h hp
    · exact .keep (apiDispatch_people h hp)
  | shutdown h => exact .keep (by rw [h]; rfl)
  | producer h => exact .producer h
  | input h hb => exact .input h hb
  | writer h => exact .keep (recordWriter_writes h).people
  | quiet h => exact .keep (people_of_core h)

end ModBroadcast
