import ModBroadcast.Room

namespace ModBroadcast

variable {p : RoomProfile} {b b' : Broadcast} {c : Choice} {m n : ℕ}

/-- A member without what only its own loops and its events look at. -/
def Member.core (x : Member) : Member :=
  { Member.zero with
    id := x.id
    mflags := { Member.zero.mflags with roleTransitionToSpeaker := x.mflags.roleTransitionToSpeaker }
    input_thread := x.input_thread
    input := x.input }

/-- The broadcast with the core of its members and without switches, events, times
and statistics. -/
def Broadcast.core (b : Broadcast) : Broadcast :=
  { b with
    member := fun n => (b.member n).core
    locked := false
    recording := false
    paused := false
    events := []
    stat_events_dropped := 0
    fired := []
    stat_peak_listeners := 0
    stat_listeners_joined := 0
    stat_listeners_left := 0
    speaker_active_since := 0
    hash_readers := 0
    clock := 0 }

def Broadcast.listed (b : Broadcast) : Broadcast :=
  { b.core with member := fun _ => .zero }

def Broadcast.apart (b : Broadcast) : Broadcast :=
  { b.listed with
    listeners := []
    listener_count := 0
    next_member_id := 0 }

theorem listed_of_core (h : b'.core = b.core) : b'.listed = b.listed := by
  unfold Broadcast.listed
  rw [h]

theorem apart_of_listed (h : b'.listed = b.listed) : b'.apart = b.apart := by
  unfold Broadcast.apart
  rw [h]

theorem apart_of_core (h : b'.core = b.core) : b'.apart = b.apart :=
  apart_of_listed (listed_of_core h)

theorem modify_core {f : Member → Member} (hf : ∀ x, (f x).core = x.core) :
    (b.modify m f).core = b.core := by
  have hm : (fun n => ((b.modify m f).member n).core) = fun n => (b.member n).core := by
    funext n
    by_cases hn : n = m
    · subst hn
      simp [Broadcast.modify, hf]
    · simp [Broadcast.modify, hn]
  unfold Broadcast.core
  rw [hm]
  rfl

theorem modifyFlags_core {f : Mflags → Mflags}
    (hf : ∀ x, (f x).roleTransitionToSpeaker = x.roleTransitionToSpeaker) :
    (b.modifyFlags m f).core = b.core :=
  modify_core fun x => by simp [Member.core, hf]

@[simp] theorem hangup_core : (b.hangup m).core = b.core := modify_core fun _ => rfl

@[simp] theorem fireCriticalEvent_core (e : EventType) (i : ℕ) :
    (fireCriticalEvent b e i).core = b.core := rfl

@[simp] theorem enqueueEvent_core (e : EventType) (i : ℕ) :
    (enqueueEvent p b e i).core = b.core := by
  unfold enqueueEvent
  split_ifs <;> rfl

theorem enqueueEvent_member (e : EventType) (i : ℕ) : (enqueueEvent p b e i).member = b.member := by
  unfold enqueueEvent
  split_ifs <;> rfl

theorem listenerDel_member : (listenerDel p b m).member = b.member := by
  simp only [listenerDel]
  split_ifs
  · rfl
  · exact enqueueEvent_member ..
  · rfl

@[simp] theorem dispatchControl_core (act : ControlAction) :
    (dispatchControl p b m act).core = b.core := by
  cases act with
  | leave => exact modifyFlags_core fun _ => rfl
  | muteToggle =>
    simp only [dispatchControl]
    split_ifs
    · exact modifyFlags_core fun _ => rfl
    · rfl
  | _ => simp [dispatchControl]

@[simp] theorem hangupByUuid_core : (hangupByUuid b m c).core = b.core := by
  unfold hangupByUuid
  split_ifs <;> simp

@[simp] theorem markKicked_core (l : List ℕ) : (markKicked b l).core = b.core := by
  induction l generalizing b with
  | nil => rfl
  | cons m l ih =>
    rw [markKicked, ih]
    exact modifyFlags_core fun _ => rfl

@[simp] theorem kickAllMark_core (l : List ℕ) : (kickAllMark p b l).core = b.core := by
  induction l generalizing b with
  | nil => rfl
  | cons m l ih =>
    rw [kickAllMark, ih, enqueueEvent_core]
    exact modifyFlags_core fun _ => rfl

@[simp] theorem kickListener_core (k : KickPc) : (kickListener p b m c k).1.core = b.core := by
  cases k with
  | mark => exact modifyFlags_core fun _ => rfl
  | _ => simp [kickListener]

@[simp] theorem listenerRun_core (k : ListenerRunPc) : (listenerRun p b m c k).1.core = b.core := by
  cases k with
  | enter | leave => exact modify_core fun _ => rfl
  | stop => exact modifyFlags_core fun _ => rfl
  | dtmf | tick =>
    simp only [listenerRun]
    split <;> simp
  | timer => rfl
  | loop | check =>
    simp only [listenerRun]
    split_ifs <;> rfl

theorem speakerInput_listed {k k' : InputPc} (h : speakerInput p b m c k = some (b', k')) :
    b'.listed = b.listed := by
  cases k <;> simp only [speakerInput] at h <;> (try split_ifs at h) <;> (try split at h) <;>
    simp only [Option.some.injEq, Prod.mk.injEq, reduceCtorEq] at h <;> obtain ⟨rfl, -⟩ := h <;>
    first | rfl | exact listed_of_core (enqueueEvent_core ..)

theorem speakerStopInput_core {k : StopInputPc} {x : Broadcast × Progress StopInputPc}
    (h : speakerStopInput b m k = some x) (hk : k ≠ .exchange) : x.1.core = b.core := by
  cases k with
  | exchange => exact absurd rfl hk
  | clear =>
    obtain rfl := Option.some.inj h
    exact modify_core fun _ => rfl
  | join =>
    simp only [speakerStopInput] at h
    split_ifs at h
    obtain rfl := Option.some.inj h
    rfl

theorem speakerStopInput_listed {k : StopInputPc} {x : Broadcast × Progress StopInputPc}
    (h : speakerStopInput b m k = some x) : x.1.listed = b.listed := by
  cases k with
  | exchange =>
    simp only [speakerStopInput] at h
    split_ifs at h <;> obtain rfl := Option.some.inj h <;> rfl
  | clear | join => exact listed_of_core (speakerStopInput_core h (by simp))

def SetSpeakerPc.Quiet : SetSpeakerPc → Prop
  | .start | .install | .stop _ .exchange => False
  | _ => True

theorem setSpeaker_core {new : Option ℕ} {k : SetSpeakerPc}
    {x : Broadcast × Progress SetSpeakerPc} (h : setSpeaker b new c k = some x)
    (hk : k.Quiet) : x.1.core = b.core := by
  cases k with
  | start | install => exact absurd hk id
  | guard =>
    obtain ⟨m, -, rfl⟩ := Option.map_eq_some_iff.mp h
    rfl
  | audio =>
    obtain ⟨m, -, rfl⟩ := Option.map_eq_some_iff.mp h
    split_ifs
    · rfl
    · rfl
    · exact modify_core fun _ => rfl
  | role =>
    obtain ⟨m, -, rfl⟩ := Option.map_eq_some_iff.mp h
    exact modify_core fun _ => rfl
  | fire old =>
    simp only [setSpeaker] at h
    split at h <;> obtain rfl := Option.some.inj h <;> cases new <;> rfl
  | stop old k =>
    obtain ⟨y, hy, rfl⟩ := Option.map_eq_some_iff.mp h
    refine speakerStopInput_core hy ?_
    rintro rfl
    exact hk
  | since old =>
    obtain rfl := Option.some.inj h
    exact modify_core fun _ => rfl

/-- Only the installation itself touches more than a member and the events. -/
theorem setSpeaker_listed {new : Option ℕ} {k : SetSpeakerPc}
    {x : Broadcast × Progress SetSpeakerPc} (h : setSpeaker b new c k = some x)
    (hk : k ≠ .install) : x.1.listed = b.listed := by
  cases k with
  | install => exact absurd rfl hk
  | start =>
    obtain ⟨m, -, rfl⟩ := Option.map_eq_some_iff.mp h
    split_ifs <;> rfl
  | stop old k =>
    obtain ⟨y, hy, rfl⟩ := Option.map_eq_some_iff.mp h
    exact speakerStopInput_listed hy
  | guard | audio | role | fire | since => exact listed_of_core (setSpeaker_core h trivial)

theorem setSpeaker_install {new : Option ℕ} {x : Broadcast × Progress SetSpeakerPc}
    (h : setSpeaker b new c .install = some x) : b.speaker_reader = false ∧
      (b.current_speaker = new ∧ x = (b, .ret true) ∨
        b.current_speaker ≠ new ∧ x = (installSpeaker b new, .run (.fire b.current_speaker))) := by
  simp only [setSpeaker] at h
  split_ifs at h with hr hc <;> obtain rfl := Option.some.inj h
  · exact ⟨by simpa using hr, .inl ⟨hc, rfl⟩⟩
  · exact ⟨by simpa using hr, .inr ⟨hc, rfl⟩⟩

@[simp] theorem listenerLink_apart : (listenerLink b m).apart = b.apart := by
  unfold listenerLink
  split_ifs <;> rfl

theorem listenerLink_member : (listenerLink b m).member = Function.update b.member m
    { b.member m with
      id := if (b.member m).id = 0 then (memberNextId b).2 else (b.member m).id
      role := .listener } := by
  unfold listenerLink
  split_ifs <;> rfl

theorem listenerAdd_core {k : ListenerAddPc} (hk : k ≠ .link) :
    (listenerAdd p b m k).1.core = b.core := by
  cases k with
  | link => exact absurd rfl hk
  | stats =>
    simp only [listenerAdd]
    split_ifs
    · rfl
    · exact enqueueEvent_core ..
  | running => exact modifyFlags_core fun _ => rfl
  | _ => rfl

@[simp] theorem listenerAdd_apart (k : ListenerAddPc) :
    (listenerAdd p b m k).1.apart = b.apart := by
  by_cases hk : k = .link
  · subst hk
    simp only [listenerAdd]
    split_ifs <;> simp
  · exact apart_of_core (listenerAdd_core hk)

@[simp] theorem listenerUnlink_apart : (listenerUnlink b m).apart = b.apart := rfl

theorem listenerDel_core : (listenerDel p b m).core =
    if m ∈ b.listeners then (listenerUnlink b m).core else b.core := by
  simp only [listenerDel]
  split_ifs
  · rfl
  · exact enqueueEvent_core ..
  · rfl

@[simp] theorem listenerDel_apart : (listenerDel p b m).apart = b.apart := by
  have h := listenerDel_core (p := p) (b := b) (m := m)
  split_ifs at h
  · rw [apart_of_core h, listenerUnlink_apart]
  · exact apart_of_core h

@[simp] theorem requestPromotion_apart (k : PromotionPc) :
    (requestPromotion p b m c k).1.apart = b.apart := by
  cases k with
  | unlink =>
    simp only [requestPromotion, listenerUnlinkForPromotion]
    split_ifs <;> simp
  | add k => simp [requestPromotion]
  | _ => rfl

def SessionPc.Quiet : SessionPc → Prop
  | .record .. | .pin _ | .prepare _ | .nextId | .add .link | .clearFlag | .unlink
  | .clear .test | .clear (.stop .exchange) | .release => False
  | .speak _ k | .wait (.clear k) => k.Quiet
  | _ => True

theorem speakerMainWait_core {k : MainWaitPc} {x : Broadcast × Progress MainWaitPc}
    (h : speakerMainWait p b m c k = some x) (hk : (SessionPc.wait k).Quiet) :
    x.1.core = b.core := by
  cases k with
  | enter | leave =>
    obtain rfl := Option.some.inj h
    exact modify_core fun _ => rfl
  | loop =>
    simp only [speakerMainWait] at h
    split_ifs at h <;> obtain rfl := Option.some.inj h <;> rfl
  | dtmf =>
    simp only [speakerMainWait] at h
    split at h
    · split_ifs at h
      obtain rfl := Option.some.inj h
      simp
    · obtain rfl := Option.some.inj h
      rfl
  | still | recheck =>
    obtain rfl := Option.some.inj h
    rfl
  | clear k =>
    obtain ⟨y, hy, rfl⟩ := Option.map_eq_some_iff.mp h
    exact setSpeaker_core hy hk

theorem clearSpeakerIfCurrent_stop {k : StopInputPc} {x : Broadcast × Progress ClearPc}
    (h : clearSpeakerIfCurrent b m (.stop k) = some x) :
    ∃ y, speakerStopInput b m k = some y ∧ x.1 = y.1 ∧
      x.2 = y.2.resume (fun k => .run (.stop k)) .ret := by
  obtain ⟨y, hy, rfl⟩ := Option.map_eq_some_iff.mp h
  exact ⟨y, hy, rfl, rfl⟩

theorem appFunction_core {pc pc' : SessionPc} (h : appFunction p b m c pc = some (b', pc'))
    (hq : pc.Quiet) : b'.core = b.core := by
  cases pc with
  | outside | created | returned => cases h
  | record | pin | prepare | nextId | clearFlag | unlink | release => exact absurd hq id
  | recordFailed =>
    obtain ⟨rfl, -⟩ := Prod.mk.inj (Option.some.inj h)
    exact enqueueEvent_core ..
  | accept j =>
    simp only [appFunction] at h
    split_ifs at h <;> obtain ⟨rfl, -⟩ := Prod.mk.inj (Option.some.inj h) <;> simp
  | check =>
    simp only [appFunction] at h
    split_ifs at h <;> obtain ⟨rfl, -⟩ := Prod.mk.inj (Option.some.inj h) <;> simp
  | running | lower | raise =>
    obtain ⟨rfl, -⟩ := Prod.mk.inj (Option.some.inj h)
    exact modifyFlags_core fun _ => rfl
  | exitVariables | decide | listenerVariables | cleanup =>
    obtain ⟨rfl, -⟩ := Prod.mk.inj (Option.some.inj h)
    rfl
  | speak promoted k =>
    obtain ⟨x, hx, he⟩ := Option.map_eq_some_iff.mp h
    obtain ⟨rfl, -⟩ := Prod.mk.inj he
    exact setSpeaker_core hx hq
  | wait k =>
    obtain ⟨x, hx, he⟩ := Option.map_eq_some_iff.mp h
    obtain ⟨rfl, -⟩ := Prod.mk.inj he
    exact speakerMainWait_core hx hq
  | add k =>
    have hk : k ≠ .link := by
      rintro rfl
      exact hq
    have hb : b' = (listenerAdd p b m k).1 ∨ b' = (listenerAdd p b m k).1.hangup m := by
      simp only [appFunction] at h
      split at h <;> obtain ⟨rfl, -⟩ := Prod.mk.inj (Option.some.inj h) <;> simp
    rcases hb with rfl | rfl
    · exact listenerAdd_core hk
    · rw [hangup_core, listenerAdd_core hk]
  | listen k =>
    obtain ⟨rfl, -⟩ := Prod.mk.inj (Option.some.inj h)
    exact listenerRun_core k
  | clear k =>
    obtain ⟨x, hx, he⟩ := Option.map_eq_some_iff.mp h
    obtain ⟨rfl, -⟩ := Prod.mk.inj he
    cases k with
    | test => exact absurd hq id
    | stop k =>
      obtain ⟨y, hy, h1, -⟩ := clearSpeakerIfCurrent_stop hx
      rw [h1]
      refine speakerStopInput_core hy ?_
      rintro rfl
      exact hq

def DestroyPc.Quiet : DestroyPc → Prop
  | .grace | .snapshot _ | .hangup .. | .waitCount _ | .waitSlot .. | .waitOld .. | .refs
  | .joinProducer | .fire => True
  | .stop _ k => k ≠ .exchange
  | _ => False

theorem destroyRoom_core {grace announcement : Bool} {k : DestroyPc}
    {x : Broadcast × Progress DestroyPc} (h : destroyRoom p grace announcement b c k = some x)
    (hk : k.Quiet) : x.1.core = b.core := by
  cases k with
  | flag | announce | ungrace | mark | stopPlay | closeMoh | stopRecords | slot | stopProducer
  | delete | pool => exact absurd hk id
  | grace | snapshot | waitCount | waitSlot | waitOld | refs | fire =>
    simp only [destroyRoom] at h
    (try split_ifs at h) <;> obtain rfl := Option.some.inj h <;> simp
  | hangup old l =>
    cases l <;> simp only [destroyRoom] at h <;> obtain rfl := Option.some.inj h <;> simp
  | joinProducer =>
    simp only [destroyRoom] at h
    split_ifs at h
    obtain rfl := Option.some.inj h
    rfl
  | stop old k =>
    obtain ⟨y, hy, rfl⟩ := Option.map_eq_some_iff.mp h
    exact speakerStopInput_core hy hk

def ApiPc.Quiet : ApiPc → Prop
  | .pin _ | .release | .start .play | .start .stopPlay => False
  | .promote _ _ k =>
    match k with
    | .unlink | .raise | .drop | .add .link => False
    | _ => True
  | .clearSpeaker k => k.Quiet
  | .record .. | .norecord _ => False
  | .destroy _ _ k => k.Quiet
  | _ => True

theorem requestPromotion_core {k : PromotionPc} {s : ℕ} (hk : (ApiPc.promote s m k).Quiet) :
    (requestPromotion p b m c k).1.core = b.core := by
  cases k with
  | unlink | raise | drop => exact absurd hk id
  | lower => exact modifyFlags_core fun _ => rfl
  | bridge | poll | recheck => rfl
  | add k =>
    refine listenerAdd_core ?_
    rintro rfl
    exact hk

theorem apiDispatch_core {pc pc' : ApiPc} (h : apiDispatch p b c pc = some (b', pc'))
    (hq : pc.Quiet) : b'.core = b.core := by
  cases pc with
  | idle => cases h
  | pin | release | record | norecord => exact absurd hq id
  | start k =>
    obtain ⟨rfl, -⟩ := Prod.mk.inj (Option.some.inj h)
    cases k with
    | play | stopPlay => exact absurd hq id
    | flag f => cases f <;> rfl
    | kickAll => exact kickAllMark_core _
    | _ => rfl
  | promote s m k =>
    obtain ⟨rfl, -⟩ := Prod.mk.inj (Option.some.inj h)
    exact requestPromotion_core hq
  | kick s m k =>
    obtain ⟨rfl, -⟩ := Prod.mk.inj (Option.some.inj h)
    exact kickListener_core k
  | clearSpeaker k =>
    obtain ⟨x, hx, he⟩ := Option.map_eq_some_iff.mp h
    obtain ⟨rfl, -⟩ := Prod.mk.inj he
    exact setSpeaker_core hx hq
  | kickAll l =>
    cases l <;> obtain ⟨rfl, -⟩ := Prod.mk.inj (Option.some.inj h) <;> simp
  | flagEvent f =>
    obtain ⟨rfl, -⟩ := Prod.mk.inj (Option.some.inj h)
    exact enqueueEvent_core ..
  | destroy grace announcement k =>
    obtain ⟨x, hx, he⟩ := Option.map_eq_some_iff.mp h
    obtain ⟨rfl, -⟩ := Prod.mk.inj he
    exact destroyRoom_core hx hq
  | _ =>
    obtain ⟨rfl, -⟩ := Prod.mk.inj (Option.some.inj h)
    rfl

theorem eventEmitter_core {k k' : EmitterPc} (h : eventEmitter b k = some (b', k')) :
    b'.core = b.core := by
  cases k with
  | idle =>
    simp only [eventEmitter] at h
    split_ifs at h
    obtain ⟨rfl, -⟩ := Prod.mk.inj (Option.some.inj h)
    rfl
  | drain =>
    simp only [eventEmitter] at h
    split at h <;> obtain ⟨rfl, -⟩ := Prod.mk.inj (Option.some.inj h) <;> rfl
  | _ =>
    obtain ⟨rfl, -⟩ := Prod.mk.inj (Option.some.inj h)
    rfl

theorem runtimeHousekeeping_core {k k' : HousekeepingPc}
    (h : runtimeHousekeeping p b c k = some (b', k')) : b'.core = b.core := by
  cases k with
  | idle =>
    simp only [runtimeHousekeeping] at h
    split_ifs at h
    obtain ⟨rfl, -⟩ := Prod.mk.inj (Option.some.inj h)
    rfl
  | heartbeat =>
    obtain ⟨rfl, -⟩ := Prod.mk.inj (Option.some.inj h)
    split_ifs <;> simp
  | mark =>
    simp only [runtimeHousekeeping] at h
    split at h
    · obtain ⟨rfl, -⟩ := Prod.mk.inj (Option.some.inj h)
      simp
    · cases h
  | hangup l =>
    cases l <;> obtain ⟨rfl, -⟩ := Prod.mk.inj (Option.some.inj h) <;> first | rfl | simp

theorem findBroadcast_eq (h : findBroadcast b = some b') :
    b.destruct = false ∧ b' = { b with hash_readers := b.hash_readers + 1 } := by
  simp only [findBroadcast] at h
  split_ifs at h with hb
  obtain rfl := Option.some.inj h
  exact ⟨by simp_all, rfl⟩

theorem joinSession_core {j : JoinParams} {pc pc' : SessionPc}
    (h : joinSession p b j pc = some (b', pc')) : b'.core = b.core := by
  cases pc with
  | outside =>
    obtain ⟨y, hy, he⟩ := Option.map_eq_some_iff.mp h
    obtain ⟨rfl, -⟩ := Prod.mk.inj he
    rw [(findBroadcast_eq hy).2]
    rfl
  | created =>
    obtain ⟨rfl, -⟩ := Prod.mk.inj (Option.some.inj h)
    rfl
  | _ => cases h

end ModBroadcast
