import ModBroadcast.Touches

namespace ModBroadcast

variable {p : RoomProfile} {b b' : Broadcast} {c : Choice} {m n : ℕ} {s t : Room} {a : RoomAction}

def Broadcast.loops (b : Broadcast) (n : ℕ) : Bool × Bool :=
  ((b.member n).mflags.running, (b.member n).in_listener_bridge)

theorem loops_of_member (h : b'.member = b.member) : b'.loops = b.loops := by
  funext n
  unfold Broadcast.loops
  rw [h]

theorem modify_loops {f : Member → Member} {v : Bool × Bool}
    (hf : ((f (b.member m)).mflags.running, (f (b.member m)).in_listener_bridge) = v) :
    (b.modify m f).loops = Function.update b.loops m v := by
  funext n
  by_cases hn : n = m
  · subst hn
    simp only [Broadcast.loops, Broadcast.modify, Function.update_self]
    exact hf
  · simp [Broadcast.loops, Broadcast.modify, hn]

theorem modify_loops_same {f : Member → Member}
    (hf : ((f (b.member m)).mflags.running, (f (b.member m)).in_listener_bridge) = b.loops m) :
    (b.modify m f).loops = b.loops := by
  rw [modify_loops hf, Function.update_eq_self]

theorem enqueueEvent_loops (e : EventType) (i : ℕ) : (enqueueEvent p b e i).loops = b.loops :=
  loops_of_member (enqueueEvent_member e i)

theorem hangup_loops : (b.hangup m).loops = b.loops := modify_loops_same rfl

theorem hangupByUuid_loops : (hangupByUuid b m c).loops = b.loops := by
  unfold hangupByUuid
  split_ifs
  · rfl
  · exact hangup_loops

theorem modifyFlags_loops {f : Mflags → Mflags} (hf : ∀ x, (f x).running = x.running) :
    (b.modifyFlags m f).loops = b.loops :=
  modify_loops_same (Prod.ext (hf _) rfl)

theorem markKicked_loops (l : List ℕ) : (markKicked b l).loops = b.loops := by
  induction l generalizing b with
  | nil => rfl
  | cons m l ih => exact ih.trans (modifyFlags_loops fun _ => rfl)

theorem kickAllMark_loops (l : List ℕ) : (kickAllMark p b l).loops = b.loops := by
  induction l generalizing b with
  | nil => rfl
  | cons m l ih =>
    exact (ih.trans (enqueueEvent_loops ..)).trans (modifyFlags_loops fun _ => rfl)

theorem kickListener_loops (k : KickPc) : (kickListener p b m c k).1.loops = b.loops := by
  cases k with
  | test | role => rfl
  | mark =>
    dsimp only [kickListener]
    exact modifyFlags_loops fun _ => rfl
  | event => exact enqueueEvent_loops ..
  | hangup => exact hangupByUuid_loops

theorem speakerStopInput_loops {k : StopInputPc} {x : Broadcast × Progress StopInputPc}
    (h : speakerStopInput b m k = some x) : x.1.loops = b.loops := by
  cases k with
  | clear =>
    obtain rfl := Option.some.inj h
    dsimp only
    exact modify_loops_same rfl
  | exchange =>
    simp only [speakerStopInput] at h
    split_ifs at h <;> obtain rfl := Option.some.inj h
    · dsimp only
      exact modify_loops_same rfl
    · rfl
  | join =>
    simp only [speakerStopInput] at h
    split_ifs at h
    obtain rfl := Option.some.inj h
    rfl

theorem setSpeaker_loops {new : Option ℕ} {k : SetSpeakerPc}
    {x : Broadcast × Progress SetSpeakerPc} (h : setSpeaker b new c k = some x) :
    x.1.loops = b.loops := by
  cases k with
  | guard | audio | role | start =>
    obtain ⟨m, -, rfl⟩ := Option.map_eq_some_iff.mp h
    (try split_ifs) <;> dsimp only <;> first | rfl | exact modify_loops_same rfl
  | install =>
    obtain ⟨-, ⟨-, rfl⟩ | ⟨-, rfl⟩⟩ := setSpeaker_install h
    · rfl
    · cases new with
      | none => rfl
      | some m =>
        dsimp only [installSpeaker]
        exact (modify_loops_same rfl).trans rfl
  | fire old =>
    simp only [setSpeaker] at h
    split at h <;> obtain rfl := Option.some.inj h <;> cases new <;> rfl
  | stop old k =>
    obtain ⟨y, hy, rfl⟩ := Option.map_eq_some_iff.mp h
    exact speakerStopInput_loops hy
  | since old =>
    obtain rfl := Option.some.inj h
    dsimp only
    exact modify_loops_same rfl

theorem clearSpeakerIfCurrent_loops {k : ClearPc} {x : Broadcast × Progress ClearPc}
    (h : clearSpeakerIfCurrent b m k = some x) : x.1.loops = b.loops := by
  cases k with
  | test =>
    simp only [clearSpeakerIfCurrent] at h
    split_ifs at h <;> obtain rfl := Option.some.inj h <;> rfl
  | stop k =>
    obtain ⟨y, hy, hx, -⟩ := clearSpeakerIfCurrent_stop h
    rw [hx]
    exact speakerStopInput_loops hy

theorem destroyRoom_loops {g f : Bool} {k : DestroyPc} {x : Broadcast × Progress DestroyPc}
    (h : destroyRoom p g f b c k = some x) : x.1.loops = b.loops := by
  cases k with
  | stopRecords k =>
    obtain ⟨y, hy, rfl⟩ := Option.map_eq_some_iff.mp h
    exact loops_of_member (recordStop_writes hy).member
  | stop old k =>
    obtain ⟨y, hy, rfl⟩ := Option.map_eq_some_iff.mp h
    exact speakerStopInput_loops hy
  | hangup old l =>
    cases l <;> obtain rfl := Option.some.inj h
    · rfl
    · exact hangupByUuid_loops
  | snapshot old =>
    obtain rfl := Option.some.inj h
    exact markKicked_loops _
  | grace =>
    obtain rfl := Option.some.inj h
    exact enqueueEvent_loops ..
  | announce =>
    obtain rfl := Option.some.inj h
    simp only [startPlay]
    split_ifs <;> rfl
  | slot | joinProducer | delete | waitCount =>
    simp only [destroyRoom] at h
    split_ifs at h <;> obtain rfl := Option.some.inj h <;> rfl
  | _ =>
    obtain rfl := Option.some.inj h
    rfl

theorem speakerInput_loops {k k' : InputPc} (h : speakerInput p b m c k = some (b', k')) :
    b'.loops = b.loops := by
  cases k with
  | absent | ended => cases h
  | start =>
    simp only [speakerInput] at h
    split_ifs at h <;> obtain ⟨rfl, -⟩ := Prod.mk.inj (Option.some.inj h)
    · exact modify_loops_same rfl
    · rfl
  | loop =>
    simp only [speakerInput] at h
    split_ifs at h
    · split at h <;> obtain ⟨rfl, -⟩ := Prod.mk.inj (Option.some.inj h)
      · exact enqueueEvent_loops ..
      · exact enqueueEvent_loops ..
      · rfl
    · obtain ⟨rfl, -⟩ := Prod.mk.inj (Option.some.inj h)
      rfl
  | pinned | unflag =>
    obtain ⟨rfl, -⟩ := Prod.mk.inj (Option.some.inj h)
    exact modifyFlags_loops fun _ => rfl
  | stop =>
    obtain ⟨rfl, -⟩ := Prod.mk.inj (Option.some.inj h)
    exact modify_loops_same rfl
  | unpin =>
    obtain ⟨rfl, -⟩ := Prod.mk.inj (Option.some.inj h)
    rfl

theorem runtimeHousekeeping_loops {k k' : HousekeepingPc}
    (h : runtimeHousekeeping p b c k = some (b', k')) : b'.loops = b.loops := by
  cases k with
  | idle =>
    simp only [runtimeHousekeeping] at h
    split_ifs at h
    obtain ⟨rfl, -⟩ := Prod.mk.inj (Option.some.inj h)
    rfl
  | heartbeat =>
    obtain ⟨rfl, -⟩ := Prod.mk.inj (Option.some.inj h)
    split_ifs
    · exact enqueueEvent_loops ..
    · rfl
  | mark =>
    simp only [runtimeHousekeeping] at h
    split at h
    · obtain ⟨rfl, -⟩ := Prod.mk.inj (Option.some.inj h)
      exact markKicked_loops _
    · cases h
  | hangup l =>
    cases l <;> obtain ⟨rfl, -⟩ := Prod.mk.inj (Option.some.inj h)
    · rfl
    · exact hangupByUuid_loops

def LoopsTo (b b' : Broadcast) (m : ℕ) (P : Bool × Bool → Prop) : Prop :=
  ∃ v, b'.loops = Function.update b.loops m v ∧ P v

theorem LoopsTo.same {P : Bool × Bool → Prop} (h : b'.loops = b.loops) (hP : P (b.loops m)) :
    LoopsTo b b' m P := ⟨b.loops m, by rw [h, Function.update_eq_self], hP⟩

theorem LoopsTo.mono {P Q : Bool × Bool → Prop} (h : LoopsTo b b' m P) (hPQ : ∀ v, P v → Q v) :
    LoopsTo b b' m Q := h.imp fun _ hv => ⟨hv.1, hPQ _ hv.2⟩

theorem LoopsTo.modify {f : Member → Member} {P : Bool × Bool → Prop}
    (hP : P ((f (b.member m)).mflags.running, (f (b.member m)).in_listener_bridge)) :
    LoopsTo b (b.modify m f) m P := ⟨_, modify_loops rfl, hP⟩

def Lowers (b : Broadcast) (m : ℕ) (v : Bool × Bool) : Prop :=
  (v.1 = true → (b.loops m).1 = true) ∧ v.2 = (b.loops m).2

theorem LoopsTo.keep (h : b'.loops = b.loops) : LoopsTo b b' m (Lowers b m) := .same h ⟨id, rfl⟩

theorem dispatchControl_loops (act : ControlAction) :
    LoopsTo b (dispatchControl p b m act) m (Lowers b m) := by
  cases act with
  | leave =>
    dsimp only [dispatchControl, Broadcast.modifyFlags]
    exact .modify ⟨nofun, rfl⟩
  | hangup => exact .keep hangup_loops
  | requestSpeaker | event => exact .keep (enqueueEvent_loops ..)
  | muteToggle =>
    simp only [dispatchControl]
    split_ifs
    · exact .keep (modifyFlags_loops fun _ => rfl)
    · exact .keep rfl
  | _ => exact .keep rfl

theorem speakerMainWait_loops {k : MainWaitPc} {x : Broadcast × Progress MainWaitPc}
    (h : speakerMainWait p b m c k = some x) : LoopsTo b x.1 m (Lowers b m) := by
  cases k with
  | enter | leave =>
    obtain rfl := Option.some.inj h
    dsimp only
    exact .keep (modify_loops_same rfl)
  | loop =>
    simp only [speakerMainWait] at h
    split_ifs at h <;> obtain rfl := Option.some.inj h <;> exact .keep rfl
  | dtmf =>
    simp only [speakerMainWait] at h
    split at h
    · split_ifs at h
      obtain rfl := Option.some.inj h
      exact dispatchControl_loops _
    · obtain rfl := Option.some.inj h
      exact .keep rfl
  | still | recheck =>
    obtain rfl := Option.some.inj h
    exact .keep rfl
  | clear k =>
    obtain ⟨y, hy, rfl⟩ := Option.map_eq_some_iff.mp h
    exact .keep (setSpeaker_loops hy)

def ListenerRunPc.Sets (b : Broadcast) (m : ℕ) (k : ListenerRunPc) (v : Bool × Bool) : Prop :=
  (v.1 = true → (b.loops m).1 = true) ∧
    (v.2 = (b.loops m).2 ∨ k = .enter ∧ v.2 = true ∨ k = .leave ∧ v.2 = false)

theorem Lowers.sets {k : ListenerRunPc} {v : Bool × Bool} (h : Lowers b m v) : k.Sets b m v :=
  ⟨h.1, .inl h.2⟩

theorem listenerRun_loops (k : ListenerRunPc) :
    LoopsTo b (listenerRun p b m c k).1 m (k.Sets b m) := by
  cases k with
  | enter =>
    dsimp only [listenerRun]
    exact .modify ⟨id, .inr (.inl ⟨rfl, rfl⟩)⟩
  | stop =>
    dsimp only [listenerRun, Broadcast.modifyFlags]
    exact .modify ⟨nofun, .inl rfl⟩
  | leave =>
    dsimp only [listenerRun]
    exact .modify ⟨id, .inr (.inr ⟨rfl, rfl⟩)⟩
  | timer => exact .same rfl ⟨id, .inl rfl⟩
  | dtmf =>
    dsimp only [listenerRun]
    split
    · exact (dispatchControl_loops _).mono fun _ => Lowers.sets
    · exact .same rfl ⟨id, .inl rfl⟩
  | loop | check =>
    dsimp only [listenerRun]
    split_ifs <;> exact .same rfl ⟨id, .inl rfl⟩
  | tick =>
    dsimp only [listenerRun]
    split
    · exact .same rfl ⟨id, .inl rfl⟩
    · exact .same (enqueueEvent_loops ..) ⟨id, .inl rfl⟩
    · exact .same rfl ⟨id, .inl rfl⟩

theorem listenerLink_loops : (listenerLink b m).loops = b.loops := by
  funext n
  unfold Broadcast.loops
  rw [listenerLink_member]
  by_cases hn : n = m
  · subst hn
    simp
  · simp [hn]

theorem listenerAdd_loops (k : ListenerAddPc) : LoopsTo b (listenerAdd p b m k).1 m fun v =>
    (v.1 = true → (b.loops m).1 = true ∨ k = .running) ∧ v.2 = (b.loops m).2 := by
  cases k with
  | destroyed | locked => exact .same rfl ⟨.inl, rfl⟩
  | link =>
    dsimp only [listenerAdd]
    split_ifs
    · exact .same rfl ⟨.inl, rfl⟩
    · exact .same listenerLink_loops ⟨.inl, rfl⟩
  | stats =>
    dsimp only [listenerAdd]
    split_ifs
    · exact .same rfl ⟨.inl, rfl⟩
    · exact .same ((enqueueEvent_loops ..).trans rfl) ⟨.inl, rfl⟩
  | running =>
    dsimp only [listenerAdd, Broadcast.modifyFlags]
    exact .modify ⟨fun _ => .inr rfl, rfl⟩

theorem requestPromotion_loops (k : PromotionPc) : LoopsTo b (requestPromotion p b m c k).1 m
    fun v => (v.1 = true → (b.loops m).1 = true ∨ k = .add .running) ∧ v.2 = (b.loops m).2 := by
  cases k with
  | bridge | poll | recheck => exact .same rfl ⟨.inl, rfl⟩
  | unlink =>
    dsimp only [requestPromotion, listenerUnlinkForPromotion]
    split_ifs <;> exact .same rfl ⟨.inl, rfl⟩
  | raise | drop =>
    dsimp only [requestPromotion]
    exact .same (modifyFlags_loops fun _ => rfl) ⟨.inl, rfl⟩
  | lower =>
    dsimp only [requestPromotion, Broadcast.modifyFlags]
    exact .modify ⟨nofun, rfl⟩
  | add k =>
    exact (listenerAdd_loops k).mono fun _ hv => ⟨fun h => (hv.1 h).imp_right (by rintro rfl; rfl), hv.2⟩

def SessionPc.SetsRunning : SessionPc → Prop
  | .running | .raise | .add .running => True
  | _ => False

def SessionPc.Sets (b : Broadcast) (m : ℕ) (pc : SessionPc) (v : Bool × Bool) : Prop :=
  (v.1 = true → (b.loops m).1 = true ∨ pc.SetsRunning) ∧
    (v.2 = (b.loops m).2 ∨ pc = .listen .enter ∧ v.2 = true ∨
      (pc = .listen .leave ∨ ∃ j, pc = .prepare j) ∧ v.2 = false)

theorem Lowers.session {pc : SessionPc} {v : Bool × Bool} (h : Lowers b m v) : pc.Sets b m v :=
  ⟨fun hv => .inl (h.1 hv), .inl h.2⟩

theorem LoopsTo.session {pc : SessionPc} (h : b'.loops = b.loops) : LoopsTo b b' m (pc.Sets b m) :=
  (LoopsTo.keep h).mono fun _ => Lowers.session

theorem appFunction_loops {pc pc' : SessionPc} (h : appFunction p b m c pc = some (b', pc')) :
    LoopsTo b b' m (pc.Sets b m) := by
  cases pc with
  | outside | created | returned => cases h
  | record j k =>
    obtain ⟨rfl, -⟩ := Prod.mk.inj (Option.some.inj h)
    exact .session (loops_of_member (recordStart_writes _ k).member)
  | recordFailed j =>
    obtain ⟨rfl, -⟩ := Prod.mk.inj (Option.some.inj h)
    exact .session (enqueueEvent_loops ..)
  | pin | release | exitVariables | decide | listenerVariables | cleanup =>
    obtain ⟨rfl, -⟩ := Prod.mk.inj (Option.some.inj h)
    exact .session rfl
  | accept | check =>
    simp only [appFunction] at h
    split_ifs at h <;> obtain ⟨rfl, -⟩ := Prod.mk.inj (Option.some.inj h)
    · exact .session hangup_loops
    · exact .session rfl
  | prepare j =>
    simp only [appFunction] at h
    split_ifs at h <;> obtain ⟨rfl, -⟩ := Prod.mk.inj (Option.some.inj h)
    · exact .session rfl
    all_goals exact .modify ⟨(absurd · Bool.false_ne_true), .inr (.inr ⟨.inr ⟨j, rfl⟩, rfl⟩)⟩
  | nextId =>
    obtain ⟨rfl, -⟩ := Prod.mk.inj (Option.some.inj h)
    exact .session (modify_loops_same (b := (memberNextId b).1) rfl)
  | running | raise =>
    obtain ⟨rfl, -⟩ := Prod.mk.inj (Option.some.inj h)
    dsimp only [Broadcast.modifyFlags]
    exact .modify ⟨fun _ => .inr trivial, .inl rfl⟩
  | lower =>
    obtain ⟨rfl, -⟩ := Prod.mk.inj (Option.some.inj h)
    dsimp only [Broadcast.modifyFlags]
    exact .modify ⟨(absurd · Bool.false_ne_true), .inl rfl⟩
  | clearFlag =>
    obtain ⟨rfl, -⟩ := Prod.mk.inj (Option.some.inj h)
    exact .session (modifyFlags_loops fun _ => rfl)
  | speak promoted k =>
    obtain ⟨x, hx, he⟩ := Option.map_eq_some_iff.mp h
    obtain ⟨rfl, -⟩ := Prod.mk.inj he
    exact .session (setSpeaker_loops hx)
  | wait k =>
    obtain ⟨x, hx, he⟩ := Option.map_eq_some_iff.mp h
    obtain ⟨rfl, -⟩ := Prod.mk.inj he
    exact (speakerMainWait_loops hx).mono fun _ => Lowers.session
  | add k =>
    have hadd : LoopsTo b (listenerAdd p b m k).1 m ((SessionPc.add k).Sets b m) :=
      (listenerAdd_loops k).mono fun _ hv => ⟨fun h => (hv.1 h).imp_right (by rintro rfl; trivial),
        .inl hv.2⟩
    simp only [appFunction] at h
    split at h <;> obtain ⟨rfl, -⟩ := Prod.mk.inj (Option.some.inj h)
    · exact hadd
    · exact hadd
    · obtain ⟨v, hv, hset⟩ := hadd
      exact ⟨v, hangup_loops.trans hv, hset⟩
  | listen k =>
    obtain ⟨rfl, -⟩ := Prod.mk.inj (Option.some.inj h)
    refine (listenerRun_loops k).mono fun v hv => ⟨fun h => .inl (hv.1 h), ?_⟩
    obtain hsame | ⟨rfl, hset⟩ | ⟨rfl, hset⟩ := hv.2
    · exact .inl hsame
    · exact .inr (.inl ⟨rfl, hset⟩)
    · exact .inr (.inr ⟨.inl rfl, hset⟩)
  | unlink =>
    obtain ⟨rfl, -⟩ := Prod.mk.inj (Option.some.inj h)
    exact .session (loops_of_member listenerDel_member)
  | clear k =>
    obtain ⟨x, hx, he⟩ := Option.map_eq_some_iff.mp h
    obtain ⟨rfl, -⟩ := Prod.mk.inj he
    exact .session (clearSpeakerIfCurrent_loops hx)

/-- An API thread sets the flags only in a promotion. -/
theorem apiDispatch_loops {pc pc' : ApiPc} (h : apiDispatch p b c pc = some (b', pc')) :
    b'.loops = b.loops ∨ ∃ x m k, pc = .promote x m k ∧ LoopsTo b b' m fun v =>
      (v.1 = true → (b.loops m).1 = true ∨ k = .add .running) ∧ v.2 = (b.loops m).2 := by
  cases pc with
  | idle => cases h
  | promote x m k =>
    obtain ⟨rfl, -⟩ := Prod.mk.inj (Option.some.inj h)
    exact .inr ⟨x, m, k, rfl, requestPromotion_loops k⟩
  | start k =>
    obtain ⟨rfl, -⟩ := Prod.mk.inj (Option.some.inj h)
    refine .inl ?_
    cases k with
    | kickAll => exact kickAllMark_loops _
    | flag f => cases f <;> rfl
    | play =>
      simp only [startPlay]
      split_ifs <;> rfl
    | _ => rfl
  | kick x m k =>
    obtain ⟨rfl, -⟩ := Prod.mk.inj (Option.some.inj h)
    exact .inl (kickListener_loops k)
  | kickAll l =>
    cases l <;> obtain ⟨rfl, -⟩ := Prod.mk.inj (Option.some.inj h)
    · exact .inl rfl
    · exact .inl hangupByUuid_loops
  | clearSpeaker k =>
    obtain ⟨x, hx, he⟩ := Option.map_eq_some_iff.mp h
    obtain ⟨rfl, -⟩ := Prod.mk.inj he
    exact .inl (setSpeaker_loops hx)
  | flagEvent f =>
    obtain ⟨rfl, -⟩ := Prod.mk.inj (Option.some.inj h)
    exact .inl (enqueueEvent_loops ..)
  | record target k =>
    obtain ⟨rfl, -⟩ := Prod.mk.inj (Option.some.inj h)
    exact .inl (loops_of_member (recordStart_writes _ k).member)
  | norecord k =>
    obtain ⟨x, hx, he⟩ := Option.map_eq_some_iff.mp h
    obtain ⟨rfl, -⟩ := Prod.mk.inj he
    exact .inl (loops_of_member (recordStop_writes hx).member)
  | destroy g f k =>
    obtain ⟨x, hx, he⟩ := Option.map_eq_some_iff.mp h
    obtain ⟨rfl, -⟩ := Prod.mk.inj he
    exact .inl (destroyRoom_loops hx)
  | _ =>
    obtain ⟨rfl, -⟩ := Prod.mk.inj (Option.some.inj h)
    exact .inl rfl

inductive LoopsStep (s : Room) (b' : Broadcast) : RoomAction → Prop
  | keep {a : RoomAction} (h : b'.loops = s.b.loops) : LoopsStep s b' a
  | session {m : ℕ} {c : Choice} (h : LoopsTo s.b b' m ((s.session m).Sets s.b m)) :
      LoopsStep s b' (.session m c)
  | promote {u x m : ℕ} {c : Choice} {k : PromotionPc} (hpc : s.api u = .promote x m k)
      (h : LoopsTo s.b b' m fun v =>
        (v.1 = true → (s.b.loops m).1 = true ∨ k = .add .running) ∧ v.2 = (s.b.loops m).2) :
      LoopsStep s b' (.api u c)

theorem roomStep_loops (hs : roomStep p s a = some t) : LoopsStep s t.b a := by
  cases a with
  | join m j =>
    obtain ⟨x, hx, rfl⟩ := Option.map_eq_some_iff.mp hs
    exact .keep (loops_of_member (funext (joinSession_member hx)))
  | session m c =>
    obtain ⟨x, hx, rfl⟩ := Option.map_eq_some_iff.mp hs
    exact .session (appFunction_loops hx)
  | call u k =>
    simp only [roomStep] at hs
    split_ifs at hs
    obtain ⟨x, hx, rfl⟩ := Option.map_eq_some_iff.mp hs
    refine .keep ?_
    rw [(findBroadcast_eq hx).2]
    rfl
  | shutdown u =>
    simp only [roomStep] at hs
    split_ifs at hs
    obtain rfl := Option.some.inj hs
    exact .keep rfl
  | api u c =>
    obtain ⟨x, hx, rfl⟩ := Option.map_eq_some_iff.mp hs
    obtain h | ⟨y, m, k, hpc, h⟩ := apiDispatch_loops hx
    · exact .keep h
    · exact .promote hpc h
  | producer c =>
    obtain ⟨x, hx, rfl⟩ := Option.map_eq_some_iff.mp hs
    exact .keep (loops_of_member (producerRun_member hx))
  | input m c =>
    obtain ⟨x, hx, rfl⟩ := Option.map_eq_some_iff.mp hs
    dsimp only
    exact .keep ((modify_loops_same rfl).trans (speakerInput_loops hx))
  | writer i c =>
    obtain ⟨x, hx, rfl⟩ := Option.map_eq_some_iff.mp hs
    exact .keep (loops_of_member (recordWriter_writes hx).member)
  | emitter =>
    obtain ⟨x, hx, rfl⟩ := Option.map_eq_some_iff.mp hs
    exact .keep (loops_of_member (eventEmitter_member hx))
  | housekeeping c =>
    obtain ⟨x, hx, rfl⟩ := Option.map_eq_some_iff.mp hs
    exact .keep (runtimeHousekeeping_loops hx)
  | hangup m =>
    obtain rfl := Option.some.inj hs
    exact .keep hangup_loops
  | elapse =>
    obtain rfl := Option.some.inj hs
    exact .keep rfl

/-- `MFLAG_RUNNING` is set by the member's own session or at the end of a rollback. -/
theorem roomStep_running (hs : roomStep p s a = some t) (ht : (t.b.loops m).1 = true) :
    (s.b.loops m).1 = true ∨ (∃ c, a = .session m c ∧ (s.session m).SetsRunning) ∨
      ∃ u c x, a = .api u c ∧ s.api u = .promote x m (.add .running) := by
  cases roomStep_loops hs with
  | keep h => exact .inl (h ▸ ht)
  | @session n c h =>
    obtain ⟨v, hv, hset⟩ := h
    by_cases hmn : m = n
    · subst hmn
      rw [hv, Function.update_self] at ht
      exact (hset.1 ht).imp_right fun h => .inl ⟨c, rfl, h⟩
    · rw [hv, Function.update_of_ne hmn] at ht
      exact .inl ht
  | @promote u x n c k hpc h =>
    obtain ⟨v, hv, hset⟩ := h
    by_cases hmn : m = n
    · subst hmn
      rw [hv, Function.update_self] at ht
      refine (hset.1 ht).imp_right fun h => .inr ⟨u, c, x, rfl, ?_⟩
      rw [hpc, h]
    · rw [hv, Function.update_of_ne hmn] at ht
      exact .inl ht

/-- `in_listener_bridge` is set and cleared by the member's own session. -/
theorem roomStep_bridge (hs : roomStep p s a = some t) (m : ℕ) :
    (t.b.loops m).2 = (s.b.loops m).2 ∨ ∃ c, a = .session m c ∧
      (s.session m = .listen .enter ∧ (t.b.loops m).2 = true ∨
        (s.session m = .listen .leave ∨ ∃ j, s.session m = .prepare j) ∧
          (t.b.loops m).2 = false) := by
  cases roomStep_loops hs with
  | keep h => exact .inl (by rw [h])
  | @session n c h =>
    obtain ⟨v, hv, hset⟩ := h
    by_cases hmn : m = n
    · subst hmn
      rw [hv, Function.update_self]
      exact hset.2.imp_right fun h => ⟨c, rfl, h⟩
    · rw [hv, Function.update_of_ne hmn]
      exact .inl rfl
  | @promote u x n c k hpc h =>
    obtain ⟨v, hv, hset⟩ := h
    by_cases hmn : m = n
    · subst hmn
      rw [hv, Function.update_self]
      exact .inl hset.2
    · rw [hv, Function.update_of_ne hmn]
      exact .inl rfl

end ModBroadcast
