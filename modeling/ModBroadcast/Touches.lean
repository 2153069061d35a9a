import ModBroadcast.SpeakerFloor

namespace ModBroadcast

variable {p : RoomProfile} {b b' : Broadcast} {c : Choice} {m n : ℕ} {s t : Room} {a : RoomAction}

/-- What covers an access: nothing, the read lock of the session of a member, or one of
the two locks of the broadcast. -/
inductive Cover
  | bare
  | pin (m : ℕ)
  | listenerLock
  | speakerLock
  deriving DecidableEq

def SetSpeakerPc.touches : SetSpeakerPc → List (ℕ × Cover)
  | .stop old _ | .since old => [(old, .bare)]
  | _ => []

/-- The members on the list, read under `listener_lock`. -/
def Broadcast.walk (b : Broadcast) : List (ℕ × Cover) := b.listeners.map (·, .listenerLock)

def Broadcast.look (b : Broadcast) : List (ℕ × Cover) := b.current_speaker.toList.map (·, .speakerLock)

/-- The members that a session touches: its neighbours on the list and the speaker that
it replaces. -/
def SessionPc.touches (b : Broadcast) : SessionPc → List (ℕ × Cover)
  | .speak _ k | .wait (.clear k) => k.touches
  | .add .link | .unlink => b.walk
  | _ => []

def DestroyPc.touches (b : Broadcast) : DestroyPc → List (ℕ × Cover)
  | .stop old _ => [(old, .bare)]
  | .snapshot _ => b.walk
  | .waitOld old _ _ => old.toList.map (·, .bare)
  | _ => []

def ApiPc.touches (b : Broadcast) : ApiPc → List (ℕ × Cover)
  | .start .info => b.walk ++ b.look
  | .start .kickAll => b.walk
  | .find .. | .resolve .. => b.walk
  | .findSpeaker .. | .resolveSpeaker .. => b.look
  | .promote x m k => (m, .pin x) :: if k = .unlink ∨ k = .add .link then b.walk else []
  | .kick x m _ | .dtmf x m => [(m, .pin x)]
  | .clearSpeaker k => k.touches
  | .destroy _ _ k => k.touches b
  | _ => []

def ProducerPc.touches : ProducerPc → List (ℕ × Cover)
  | .locked _ _ spk => spk.toList.map (·, .speakerLock)
  | .reading m => [(m, .speakerLock)]
  | _ => []

/-- The input thread holds the read lock of its session from `pinned` to `unpin`. -/
def InputPc.touches (m : ℕ) : InputPc → List (ℕ × Cover)
  | .absent | .ended => []
  | .start => [(m, .bare)]
  | _ => [(m, .pin m)]

def EmitterPc.touches (b : Broadcast) : EmitterPc → List (ℕ × Cover)
  | .find .. => b.walk
  | .findSpeaker .. => b.look
  | .use _ _ m => [(m, .bare)]
  | _ => []

def HousekeepingPc.touches (b : Broadcast) : HousekeepingPc → List (ℕ × Cover)
  -- the id of the speaker for the heartbeat
  | .heartbeat => b.look
  | .mark => b.walk
  | _ => []

/-- The accesses to members that a step makes, without those of a session to its own
member. -/
def touches (s : Room) : RoomAction → List (ℕ × Cover)
  | .session m _ => ((s.session m).touches s.b).filter fun x => x.1 ≠ m
  | .api u _ => (s.api u).touches s.b
  | .producer _ => s.producer.touches
  | .input m _ => (s.b.member m).input.touches m
  | .emitter => s.emitter.touches s.b
  | .housekeeping _ => s.housekeeping.touches s.b
  | _ => []

def Broadcast.still (b : Broadcast) (n : ℕ) : Member := { b.member n with ready := true }

theorem still_of_member (h : b'.member n = b.member n) : b'.still n = b.still n := by
  unfold Broadcast.still
  rw [h]

theorem modify_still {f : Member → Member} (hn : n ≠ m) : (b.modify m f).still n = b.still n :=
  still_of_member (modify_other hn)

@[simp] theorem hangup_still : (b.hangup m).still n = b.still n := by
  by_cases hn : n = m
  · subst hn
    simp [Broadcast.still, Broadcast.hangup, Broadcast.modify]
  · exact modify_still hn

@[simp] theorem hangupByUuid_still : (hangupByUuid b m c).still n = b.still n := by
  unfold hangupByUuid
  split_ifs
  · rfl
  · exact hangup_still

@[simp] theorem enqueueEvent_still (e : EventType) (i : ℕ) :
    (enqueueEvent p b e i).still n = b.still n := still_of_member (congrFun (enqueueEvent_member e i) n)

theorem markKicked_still {l : List ℕ} (hn : n ∉ l) : (markKicked b l).still n = b.still n := by
  induction l generalizing b with
  | nil => rfl
  | cons m l ih =>
    obtain ⟨hnm, hl⟩ := not_or.mp (List.mem_cons.not.mp hn)
    exact (ih hl).trans (modify_still hnm)

theorem kickAllMark_still {l : List ℕ} (hn : n ∉ l) : (kickAllMark p b l).still n = b.still n := by
  induction l generalizing b with
  | nil => rfl
  | cons m l ih =>
    obtain ⟨hnm, hl⟩ := not_or.mp (List.mem_cons.not.mp hn)
    exact (ih hl).trans ((enqueueEvent_still ..).trans (modify_still hnm))

theorem not_mem_walk : n ∉ b.listeners ↔ ∀ κ, (n, κ) ∉ b.walk := by
  simp [Broadcast.walk]

theorem setSpeaker_still {new : Option ℕ} {k : SetSpeakerPc}
    {x : Broadcast × Progress SetSpeakerPc} (h : setSpeaker b new c k = some x)
    (hnew : new ≠ some n) (hn : ∀ κ, (n, κ) ∉ k.touches) : x.1.still n = b.still n := by
  cases k with
  | guard =>
    obtain ⟨m, -, rfl⟩ := Option.map_eq_some_iff.mp h
    rfl
  | audio | role | start =>
    obtain ⟨m, rfl, rfl⟩ := Option.map_eq_some_iff.mp h
    have hnm : n ≠ m := fun he => hnew (congrArg some he.symm)
    (try split_ifs) <;> dsimp only <;> first | rfl | exact modify_still hnm
  | install =>
    obtain ⟨-, ⟨-, rfl⟩ | ⟨-, rfl⟩⟩ := setSpeaker_install h
    · rfl
    · cases new with
      | none => rfl
      | some m =>
        dsimp only [installSpeaker]
        exact (modify_still fun he => hnew (congrArg some he.symm)).trans rfl
  | fire old =>
    cases old <;> obtain rfl := Option.some.inj h <;> cases new <;> rfl
  | stop old k =>
    obtain ⟨y, hy, rfl⟩ := Option.map_eq_some_iff.mp h
    have hold : n ≠ old := by
      rintro rfl
      exact hn .bare (List.mem_singleton.mpr rfl)
    exact still_of_member (speakerStopInput_other hy hold)
  | since old =>
    obtain rfl := Option.some.inj h
    dsimp only
    apply modify_still
    rintro rfl
    exact hn .bare (List.mem_singleton.mpr rfl)

theorem RecordWrites.member (h : RecordWrites p b b') : b'.member = b.member := by
  cases h with
  | fields _ _ _ _ hb =>
    rw [hb]
  | event _ _ _ hb =>
    rw [hb]
    exact enqueueEvent_member ..

theorem listenerAdd_other {k : ListenerAddPc} (hn : n ≠ m) :
    (listenerAdd p b m k).1.member n = b.member n := by
  cases k with
  | link =>
    simp only [listenerAdd]
    split_ifs
    · rfl
    · simp [listenerLink_member, hn]
  | stats =>
    simp only [listenerAdd]
    split_ifs
    · rfl
    · exact congrFun (enqueueEvent_member ..) n
  | running =>
    dsimp only [listenerAdd, Broadcast.modifyFlags]
    exact modify_other hn
  | _ => rfl

theorem listenerRun_still {k : ListenerRunPc} (hn : n ≠ m) :
    (listenerRun p b m c k).1.still n = b.still n := by
  cases k with
  | enter | stop | leave =>
    dsimp only [listenerRun, Broadcast.modifyFlags]
    exact modify_still hn
  | timer => rfl
  | loop | check =>
    simp only [listenerRun]
    split_ifs <;> rfl
  | dtmf =>
    simp only [listenerRun]
    split
    · exact still_of_member (dispatchControl_other _ hn)
    · rfl
  | tick =>
    simp only [listenerRun]
    split
    · rfl
    · exact enqueueEvent_still ..
    · rfl

theorem requestPromotion_other {k : PromotionPc} (hn : n ≠ m) :
    (requestPromotion p b m c k).1.member n = b.member n := by
  cases k with
  | unlink =>
    simp only [requestPromotion, listenerUnlinkForPromotion]
    split_ifs <;> rfl
  | raise | lower | drop =>
    dsimp only [requestPromotion, Broadcast.modifyFlags]
    exact modify_other hn
  | add k => exact listenerAdd_other hn
  | _ => rfl

theorem kickListener_still {k : KickPc} (hn : n ≠ m) :
    (kickListener p b m c k).1.still n = b.still n := by
  cases k with
  | mark =>
    dsimp only [kickListener, Broadcast.modifyFlags]
    exact modify_still hn
  | event => exact enqueueEvent_still ..
  | hangup => exact hangupByUuid_still
  | _ => rfl

theorem speakerMainWait_still {k : MainWaitPc} {x : Broadcast × Progress MainWaitPc}
    (h : speakerMainWait p b m c k = some x) (hn : n ≠ m)
    (ht : ∀ κ, (n, κ) ∉ (SessionPc.wait k).touches b) : x.1.still n = b.still n := by
  cases k with
  | clear k =>
    obtain ⟨y, hy, rfl⟩ := Option.map_eq_some_iff.mp h
    exact setSpeaker_still hy (by simp) ht
  | enter | leave =>
    obtain rfl := Option.some.inj h
    dsimp only
    exact modify_still hn
  | loop =>
    simp only [speakerMainWait] at h
    split_ifs at h <;> obtain rfl := Option.some.inj h <;> rfl
  | dtmf =>
    simp only [speakerMainWait] at h
    split at h
    · split_ifs at h
      obtain rfl := Option.some.inj h
      exact still_of_member (dispatchControl_other _ hn)
    · obtain rfl := Option.some.inj h
      rfl
  | still | recheck =>
    obtain rfl := Option.some.inj h
    rfl

theorem joinSession_member {j : JoinParams} {pc pc' : SessionPc}
    (h : joinSession p b j pc = some (b', pc')) (n : ℕ) : b'.member n = b.member n := by
  cases pc with
  | outside =>
    obtain ⟨y, hy, he⟩ := Option.map_eq_some_iff.mp h
    obtain ⟨rfl, -⟩ := Prod.mk.inj he
    rw [(findBroadcast_eq hy).2]
  | created =>
    obtain ⟨rfl, -⟩ := Prod.mk.inj (Option.some.inj h)
    rfl
  | _ => cases h

theorem appFunction_still {pc pc' : SessionPc} (h : appFunction p b m c pc = some (b', pc'))
    (hn : n ≠ m) (ht : ∀ κ, (n, κ) ∉ pc.touches b) : b'.still n = b.still n := by
  cases pc with
  | outside | created | returned => cases h
  | record j k =>
    obtain ⟨rfl, -⟩ := Prod.mk.inj (Option.some.inj h)
    exact still_of_member (congrFun (recordStart_writes _ k).member n)
  | recordFailed j =>
    obtain ⟨rfl, -⟩ := Prod.mk.inj (Option.some.inj h)
    exact enqueueEvent_still ..
  | accept | check | prepare =>
    simp only [appFunction] at h
    split_ifs at h <;> obtain ⟨rfl, -⟩ := Prod.mk.inj (Option.some.inj h) <;>
      first | rfl | exact hangup_still | exact modify_still hn
  | nextId =>
    obtain ⟨rfl, -⟩ := Prod.mk.inj (Option.some.inj h)
    exact (modify_still hn).trans rfl
  | running | lower | clearFlag | raise =>
    obtain ⟨rfl, -⟩ := Prod.mk.inj (Option.some.inj h)
    exact modify_still hn
  | speak promoted k =>
    obtain ⟨x, hx, he⟩ := Option.map_eq_some_iff.mp h
    obtain ⟨rfl, -⟩ := Prod.mk.inj he
    exact setSpeaker_still hx (fun hm => hn (Option.some.inj hm).symm) ht
  | wait k =>
    obtain ⟨x, hx, he⟩ := Option.map_eq_some_iff.mp h
    obtain ⟨rfl, -⟩ := Prod.mk.inj he
    exact speakerMainWait_still hx hn ht
  | add k =>
    have hadd := still_of_member (listenerAdd_other (p := p) (b := b) (k := k) hn)
    simp only [appFunction] at h
    split at h <;> obtain ⟨rfl, -⟩ := Prod.mk.inj (Option.some.inj h)
    · exact hadd
    · exact hadd
    · exact hangup_still.trans hadd
  | listen k =>
    obtain ⟨rfl, -⟩ := Prod.mk.inj (Option.some.inj h)
    exact listenerRun_still hn
  | unlink =>
    obtain ⟨rfl, -⟩ := Prod.mk.inj (Option.some.inj h)
    exact still_of_member (congrFun listenerDel_member n)
  | clear k =>
    obtain ⟨x, hx, he⟩ := Option.map_eq_some_iff.mp h
    obtain ⟨rfl, -⟩ := Prod.mk.inj he
    cases k with
    | test =>
      simp only [clearSpeakerIfCurrent] at hx
      split_ifs at hx <;> obtain rfl := Option.some.inj hx <;> rfl
    | stop k =>
      obtain ⟨y, hy, h1, -⟩ := clearSpeakerIfCurrent_stop hx
      rw [h1]
      exact still_of_member (speakerStopInput_other hy hn)
  | _ =>
    obtain ⟨rfl, -⟩ := Prod.mk.inj (Option.some.inj h)
    rfl

theorem destroyRoom_still {grace announcement : Bool} {k : DestroyPc}
    {x : Broadcast × Progress DestroyPc} (h : destroyRoom p grace announcement b c k = some x)
    (ht : ∀ κ, (n, κ) ∉ k.touches b) : x.1.still n = b.still n := by
  cases k with
  | grace =>
    obtain rfl := Option.some.inj h
    exact enqueueEvent_still ..
  | announce =>
    obtain rfl := Option.some.inj h
    dsimp only [startPlay]
    split_ifs <;> rfl
  | stopRecords k =>
    obtain ⟨y, hy, rfl⟩ := Option.map_eq_some_iff.mp h
    exact still_of_member (congrFun (recordStop_writes hy).member n)
  | stop old k =>
    obtain ⟨y, hy, rfl⟩ := Option.map_eq_some_iff.mp h
    have hold : n ≠ old := by
      rintro rfl
      exact ht .bare (List.mem_singleton.mpr rfl)
    exact still_of_member (speakerStopInput_other hy hold)
  | snapshot old =>
    obtain rfl := Option.some.inj h
    apply markKicked_still
    unfold uuidSnapshot
    split_ifs
    · exact fun hmem => not_mem_walk.mpr ht (List.mem_of_mem_take hmem)
    · exact not_mem_walk.mpr ht
  | hangup old l =>
    cases l <;> obtain rfl := Option.some.inj h
    · rfl
    · exact hangupByUuid_still
  | slot | joinProducer | delete | waitCount =>
    simp only [destroyRoom] at h
    split_ifs at h <;> obtain rfl := Option.some.inj h <;> rfl
  | _ =>
    obtain rfl := Option.some.inj h
    rfl

theorem apiDispatch_still {pc pc' : ApiPc} (h : apiDispatch p b c pc = some (b', pc'))
    (ht : ∀ κ, (n, κ) ∉ pc.touches b) : b'.still n = b.still n := by
  cases pc with
  | idle => cases h
  | start k =>
    obtain ⟨rfl, -⟩ := Prod.mk.inj (Option.some.inj h)
    cases k with
    | kickAll =>
      apply kickAllMark_still
      unfold uuidSnapshot
      split_ifs
      · exact fun hmem => not_mem_walk.mpr ht (List.mem_of_mem_take hmem)
      · exact not_mem_walk.mpr ht
    | flag f => cases f <;> rfl
    | play =>
      dsimp only [startCommand, startPlay]
      split_ifs <;> rfl
    | _ => rfl
  | promote x m k =>
    obtain ⟨rfl, -⟩ := Prod.mk.inj (Option.some.inj h)
    apply still_of_member
    apply requestPromotion_other
    rintro rfl
    exact ht (.pin x) (List.mem_cons_self ..)
  | kick x m k =>
    obtain ⟨rfl, -⟩ := Prod.mk.inj (Option.some.inj h)
    apply kickListener_still
    rintro rfl
    exact ht (.pin x) (List.mem_singleton.mpr rfl)
  | clearSpeaker k =>
    obtain ⟨x, hx, he⟩ := Option.map_eq_some_iff.mp h
    obtain ⟨rfl, -⟩ := Prod.mk.inj he
    exact setSpeaker_still hx (by simp) ht
  | kickAll l =>
    cases l <;> obtain ⟨rfl, -⟩ := Prod.mk.inj (Option.some.inj h)
    · rfl
    · exact hangupByUuid_still
  | flagEvent f =>
    obtain ⟨rfl, -⟩ := Prod.mk.inj (Option.some.inj h)
    exact enqueueEvent_still ..
  | record target k =>
    obtain ⟨rfl, -⟩ := Prod.mk.inj (Option.some.inj h)
    exact still_of_member (congrFun (recordStart_writes target k).member n)
  | norecord k =>
    obtain ⟨x, hx, he⟩ := Option.map_eq_some_iff.mp h
    obtain ⟨rfl, -⟩ := Prod.mk.inj he
    exact still_of_member (congrFun (recordStop_writes hx).member n)
  | destroy grace announcement k =>
    obtain ⟨x, hx, he⟩ := Option.map_eq_some_iff.mp h
    obtain ⟨rfl, -⟩ := Prod.mk.inj he
    exact destroyRoom_still hx ht
  | _ =>
    obtain ⟨rfl, -⟩ := Prod.mk.inj (Option.some.inj h)
    rfl

theorem speakerInput_other {k k' : InputPc} (h : speakerInput p b m c k = some (b', k'))
    (hn : n ≠ m) : b'.member n = b.member n := by
  cases k with
  | absent | ended => cases h
  | start =>
    simp only [speakerInput] at h
    split_ifs at h <;> obtain ⟨rfl, -⟩ := Prod.mk.inj (Option.some.inj h)
    · exact modify_other hn
    · rfl
  | loop =>
    simp only [speakerInput] at h
    split_ifs at h
    · split at h <;> obtain ⟨rfl, -⟩ := Prod.mk.inj (Option.some.inj h) <;>
        first | rfl | exact congrFun (enqueueEvent_member ..) n
    · obtain ⟨rfl, -⟩ := Prod.mk.inj (Option.some.inj h)
      rfl
  | pinned | unflag | stop =>
    obtain ⟨rfl, -⟩ := Prod.mk.inj (Option.some.inj h)
    exact modify_other hn
  | unpin =>
    obtain ⟨rfl, -⟩ := Prod.mk.inj (Option.some.inj h)
    rfl

theorem producerRun_member {k k' : ProducerPc} (h : producerRun p b c k = some (b', k')) :
    b'.member = b.member := by
  cases k with
  | ended => cases h
  | top =>
    simp only [producerRun] at h
    split_ifs at h <;> obtain ⟨rfl, -⟩ := Prod.mk.inj (Option.some.inj h)
    · exact enqueueEvent_member ..
    all_goals rfl
  | play | silence =>
    simp only [producerRun] at h
    split_ifs at h <;> obtain ⟨rfl, -⟩ := Prod.mk.inj (Option.some.inj h) <;> rfl
  | locked got paused spk =>
    simp only [producerRun] at h
    split at h
    · obtain ⟨rfl, -⟩ := Prod.mk.inj (Option.some.inj h)
      rfl
    · split_ifs at h <;> obtain ⟨rfl, -⟩ := Prod.mk.inj (Option.some.inj h) <;> rfl
  | _ =>
    obtain ⟨rfl, -⟩ := Prod.mk.inj (Option.some.inj h)
    rfl

theorem eventEmitter_member {k k' : EmitterPc} (h : eventEmitter b k = some (b', k')) :
    b'.member = b.member := by
  cases k with
  | idle =>
    simp only [eventEmitter] at h
    split_ifs at h
    obtain ⟨rfl, -⟩ := Prod.mk.inj (Option.some.inj h)
    rfl
  | drain =>
    simp only [eventEmitter] at h
    split at h <;> obtain ⟨rfl, -⟩ := Prod.mk.inj (Option.some.inj h) <;> rfl
  | _ =>
    obtain ⟨rfl, -⟩ := Prod.mk.inj (Option.some.inj h)
    rfl

theorem runtimeHousekeeping_still {k k' : HousekeepingPc}
    (h : runtimeHousekeeping p b c k = some (b', k')) (ht : ∀ κ, (n, κ) ∉ k.touches b) :
    b'.still n = b.still n := by
  cases k with
  | idle =>
    simp only [runtimeHousekeeping] at h
    split_ifs at h
    obtain ⟨rfl, -⟩ := Prod.mk.inj (Option.some.inj h)
    rfl
  | heartbeat =>
    obtain ⟨rfl, -⟩ := Prod.mk.inj (Option.some.inj h)
    split_ifs
    · exact enqueueEvent_still ..
    · rfl
  | mark =>
    simp only [runtimeHousekeeping] at h
    split at h
    · obtain ⟨rfl, -⟩ := Prod.mk.inj (Option.some.inj h)
      exact markKicked_still fun hmem => not_mem_walk.mpr ht (List.mem_filter.mp hmem).1
    · cases h
  | hangup l =>
    cases l <;> obtain ⟨rfl, -⟩ := Prod.mk.inj (Option.some.inj h)
    · rfl
    · exact hangupByUuid_still

/-- A step leaves the members alone that it does not touch and that are not its own. -/
def WritesTouched (p : RoomProfile) (s : Room) (a : RoomAction) : Prop :=
  ∀ t n, roomStep p s a = some t → (∀ c, a ≠ .session n c) → (∀ κ, (n, κ) ∉ touches s a) →
    t.b.still n = s.b.still n

theorem writesTouched (p : RoomProfile) (s : Room) (a : RoomAction) : WritesTouched p s a := by
  intro t n hs hown ht
  cases a with
  | join m j =>
    obtain ⟨x, hx, rfl⟩ := Option.map_eq_some_iff.mp hs
    exact still_of_member (joinSession_member hx n)
  | session m c =>
    obtain ⟨x, hx, rfl⟩ := Option.map_eq_some_iff.mp hs
    have hn : n ≠ m := by
      rintro rfl
      exact hown c rfl
    exact appFunction_still hx hn fun κ hκ => ht κ (List.mem_filter.mpr ⟨hκ, by simpa using hn⟩)
  | call u k =>
    simp only [roomStep] at hs
    split_ifs at hs
    obtain ⟨x, hx, rfl⟩ := Option.map_eq_some_iff.mp hs
    rw [(findBroadcast_eq hx).2]
    rfl
  | shutdown u =>
    simp only [roomStep] at hs
    split_ifs at hs
    obtain rfl := Option.some.inj hs
    rfl
  | api u c =>
    obtain ⟨x, hx, rfl⟩ := Option.map_eq_some_iff.mp hs
    exact apiDispatch_still hx ht
  | producer c =>
    obtain ⟨x, hx, rfl⟩ := Option.map_eq_some_iff.mp hs
    exact still_of_member (congrFun (producerRun_member hx) n)
  | input m c =>
    obtain ⟨x, hx, rfl⟩ := Option.map_eq_some_iff.mp hs
    have hn : n ≠ m := by
      rintro rfl
      cases hpc : (s.b.member n).input with
      | absent | ended => rw [hpc] at hx; cases hx
      | start => exact ht .bare (by simp [touches, hpc, InputPc.touches])
      | _ => exact ht (.pin n) (by simp [touches, hpc, InputPc.touches])
    dsimp only
    exact (modify_still hn).trans (still_of_member (speakerInput_other hx hn))
  | writer i c =>
    obtain ⟨x, hx, rfl⟩ := Option.map_eq_some_iff.mp hs
    exact still_of_member (congrFun (recordWriter_writes hx).member n)
  | emitter =>
    obtain ⟨x, hx, rfl⟩ := Option.map_eq_some_iff.mp hs
    exact still_of_member (congrFun (eventEmitter_member hx) n)
  | housekeeping c =>
    obtain ⟨x, hx, rfl⟩ := Option.map_eq_some_iff.mp hs
    exact runtimeHousekeeping_still hx ht
  | hangup m =>
    obtain rfl := Option.some.inj hs
    exact hangup_still
  | elapse =>
    obtain rfl := Option.some.inj hs
    rfl

end ModBroadcast
