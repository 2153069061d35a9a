import ModBroadcast.Roster

namespace ModBroadcast

variable {p : RoomProfile} {b b' : Broadcast} {c : Choice} {m n : ℕ}

/-- A member with `MFLAG_GHOST` and `speaker_since_us` only. -/
def Member.figures (x : Member) : Member :=
  { Member.zero with
    mflags := { Member.zero.mflags with ghost := x.mflags.ghost }
    speaker_since_us := x.speaker_since_us }

def Broadcast.figures (b : Broadcast) : Broadcast :=
  { Broadcast.create with
    member := fun n => (b.member n).figures
    locked := b.locked
    paused := b.paused
    stat_listeners_joined := b.stat_listeners_joined
    stat_listeners_left := b.stat_listeners_left
    clock := b.clock }

def Broadcast.ghosts (b : Broadcast) (n : ℕ) : Bool := (b.member n).mflags.ghost

def Broadcast.since (b : Broadcast) (n : ℕ) : ℕ := (b.member n).speaker_since_us

theorem ghosts_of_figures (h : b'.figures = b.figures) : b'.ghosts = b.ghosts := by
  have hg : b'.figures.ghosts = b.figures.ghosts := by rw [h]
  exact hg

theorem since_of_figures (h : b'.figures = b.figures) : b'.since = b.since := by
  have hs : b'.figures.since = b.figures.since := by rw [h]
  exact hs

theorem locked_of_figures (h : b'.figures = b.figures) : b'.locked = b.locked := by
  have hl : b'.figures.locked = b.figures.locked := by rw [h]
  exact hl

theorem paused_of_figures (h : b'.figures = b.figures) : b'.paused = b.paused := by
  have hp : b'.figures.paused = b.figures.paused := by rw [h]
  exact hp

theorem clock_of_figures (h : b'.figures = b.figures) : b'.clock = b.clock := by
  have hc : b'.figures.clock = b.figures.clock := by rw [h]
  exact hc

theorem counters_of_figures (h : b'.figures = b.figures) :
    b'.stat_listeners_joined = b.stat_listeners_joined ∧
      b'.stat_listeners_left = b.stat_listeners_left := by
  have hj : b'.figures.stat_listeners_joined = b.figures.stat_listeners_joined := by rw [h]
  have hl : b'.figures.stat_listeners_left = b.figures.stat_listeners_left := by rw [h]
  exact ⟨hj, hl⟩

theorem modify_figures {f : Member → Member} (hf : ∀ x, (f x).figures = x.figures) :
    (b.modify m f).figures = b.figures := by
  have hm : (fun n => ((b.modify m f).member n).figures) = fun n => (b.member n).figures := by
    funext n
    by_cases hn : n = m
    · subst hn
      simp [Broadcast.modify, hf]
    · simp [Broadcast.modify, hn]
  unfold Broadcast.figures
  rw [hm]
  rfl

theorem modifyFlags_figures {f : Mflags → Mflags} (hf : ∀ x, (f x).ghost = x.ghost) :
    (b.modifyFlags m f).figures = b.figures :=
  modify_figures fun x => by simp [Member.figures, hf]

@[simp] theorem hangup_figures : (b.hangup m).figures = b.figures := modify_figures fun _ => rfl

@[simp] theorem enqueueEvent_figures (e : EventType) (i : ℕ) :
    (enqueueEvent p b e i).figures = b.figures := by
  unfold enqueueEvent
  split_ifs <;> rfl

@[simp] theorem dispatchControl_figures (act : ControlAction) :
    (dispatchControl p b m act).figures = b.figures := by
  cases act with
  | leave => exact modifyFlags_figures fun _ => rfl
  | muteToggle =>
    simp only [dispatchControl]
    split_ifs
    · exact modifyFlags_figures fun _ => rfl
    · rfl
  | _ => simp [dispatchControl]

@[simp] theorem hangupByUuid_figures : (hangupByUuid b m c).figures = b.figures := by
  unfold hangupByUuid
  split_ifs <;> simp

@[simp] theorem markKicked_figures (l : List ℕ) : (markKicked b l).figures = b.figures := by
  induction l generalizing b with
  | nil => rfl
  | cons m l ih =>
    rw [markKicked, ih]
    exact modifyFlags_figures fun _ => rfl

@[simp] theorem kickAllMark_figures (l : List ℕ) : (kickAllMark p b l).figures = b.figures := by
  induction l generalizing b with
  | nil => rfl
  | cons m l ih =>
    rw [kickAllMark, ih, enqueueEvent_figures]
    exact modifyFlags_figures fun _ => rfl

@[simp] theorem kickListener_figures (k : KickPc) :
    (kickListener p b m c k).1.figures = b.figures := by
  cases k with
  | mark => exact modifyFlags_figures fun _ => rfl
  | _ => simp [kickListener]

@[simp] theorem listenerRun_figures (k : ListenerRunPc) :
    (listenerRun p b m c k).1.figures = b.figures := by
  cases k with
  | enter | leave => exact modify_figures fun _ => rfl
  | stop => exact modifyFlags_figures fun _ => rfl
  | dtmf | tick =>
    simp only [listenerRun]
    split <;> simp
  | timer => rfl
  | loop | check =>
    simp only [listenerRun]
    split_ifs <;> rfl

theorem speakerInput_figures {k k' : InputPc} (h : speakerInput p b m c k = some (b', k')) :
    b'.figures = b.figures := by
  cases k with
  | absent | ended => cases h
  | start =>
    simp only [speakerInput] at h
    split_ifs at h <;> obtain ⟨rfl, -⟩ := Prod.mk.inj (Option.some.inj h)
    · exact modify_figures fun _ => rfl
    · rfl
  | loop =>
    simp only [speakerInput] at h
    split_ifs at h
    · split at h <;> obtain ⟨rfl, -⟩ := Prod.mk.inj (Option.some.inj h) <;> simp
    · obtain ⟨rfl, -⟩ := Prod.mk.inj (Option.some.inj h)
      rfl
  | pinned | unflag =>
    obtain ⟨rfl, -⟩ := Prod.mk.inj (Option.some.inj h)
    exact modifyFlags_figures fun _ => rfl
  | stop =>
    obtain ⟨rfl, -⟩ := Prod.mk.inj (Option.some.inj h)
    exact modify_figures fun _ => rfl
  | unpin =>
    obtain ⟨rfl, -⟩ := Prod.mk.inj (Option.some.inj h)
    rfl

theorem speakerStopInput_figures {k : StopInputPc} {x : Broadcast × Progress StopInputPc}
    (h : speakerStopInput b m k = some x) : x.1.figures = b.figures := by
  cases k with
  | clear =>
    obtain rfl := Option.some.inj h
    exact modify_figures fun _ => rfl
  | exchange =>
    simp only [speakerStopInput] at h
    split_ifs at h <;> obtain rfl := Option.some.inj h
    · exact modify_figures fun _ => rfl
    · rfl
  | join =>
    simp only [speakerStopInput] at h
    split_ifs at h
    obtain rfl := Option.some.inj h
    rfl

def SetSpeakerPc.Times : SetSpeakerPc → Prop
  | .install | .since _ => True
  | _ => False

theorem setSpeaker_figures {new : Option ℕ} {k : SetSpeakerPc}
    {x : Broadcast × Progress SetSpeakerPc} (h : setSpeaker b new c k = some x)
    (hk : ¬ k.Times) : x.1.figures = b.figures := by
  cases k with
  | install | since => exact absurd trivial hk
  | guard =>
    obtain ⟨m, -, rfl⟩ := Option.map_eq_some_iff.mp h
    rfl
  | audio =>
    obtain ⟨m, -, rfl⟩ := Option.map_eq_some_iff.mp h
    split_ifs
    · rfl
    · rfl
    · exact modify_figures fun _ => rfl
  | role =>
    obtain ⟨m, -, rfl⟩ := Option.map_eq_some_iff.mp h
    exact modify_figures fun _ => rfl
  | start =>
    obtain ⟨m, -, rfl⟩ := Option.map_eq_some_iff.mp h
    split_ifs
    · rfl
    all_goals exact modify_figures fun _ => rfl
  | fire old =>
    simp only [setSpeaker] at h
    split at h <;> obtain rfl := Option.some.inj h <;> cases new <;> rfl
  | stop old k =>
    obtain ⟨y, hy, rfl⟩ := Option.map_eq_some_iff.mp h
    exact speakerStopInput_figures hy

theorem setSpeaker_since {new : Option ℕ} {old : ℕ} {x : Broadcast × Progress SetSpeakerPc}
    (h : setSpeaker b new c (.since old) = some x) :
    x.1 = b.modify old fun x => { x with speaker_since_us := 0 } := by
  obtain rfl := Option.some.inj h
  rfl

theorem clearSpeakerIfCurrent_figures {k : ClearPc} {x : Broadcast × Progress ClearPc}
    (h : clearSpeakerIfCurrent b m k = some x) : x.1.figures = b.figures := by
  cases k with
  | test =>
    simp only [clearSpeakerIfCurrent] at h
    split_ifs at h <;> obtain rfl := Option.some.inj h <;> rfl
  | stop k =>
    obtain ⟨y, hy, hx, -⟩ := clearSpeakerIfCurrent_stop h
    rw [hx]
    exact speakerStopInput_figures hy

@[simp] theorem listenerLink_figures : (listenerLink b m).figures = b.figures := by
  have hm : (fun n => ((listenerLink b m).member n).figures) = fun n => (b.member n).figures := by
    rw [listenerLink_member]
    funext n
    by_cases hn : n = m
    · subst hn
      simp [Member.figures]
    · simp [hn]
  unfold Broadcast.figures
  rw [hm]
  unfold listenerLink
  split_ifs <;> rfl

theorem listenerAdd_figures {k : ListenerAddPc} (hk : k ≠ .stats) :
    (listenerAdd p b m k).1.figures = b.figures := by
  cases k with
  | stats => exact absurd rfl hk
  | link =>
    simp only [listenerAdd]
    split_ifs <;> simp
  | running => exact modifyFlags_figures fun _ => rfl
  | destroyed | locked => rfl

theorem listenerAdd_stats_member : (listenerAdd p b m .stats).1.member = b.member := by
  simp only [listenerAdd]
  split_ifs
  · rfl
  · exact enqueueEvent_member ..

theorem requestPromotion_figures {k : PromotionPc} (hk : k ≠ .add .stats) :
    (requestPromotion p b m c k).1.figures = b.figures := by
  cases k with
  | unlink =>
    simp only [requestPromotion, listenerUnlinkForPromotion]
    split_ifs <;> rfl
  | raise | drop | lower => exact modifyFlags_figures fun _ => rfl
  | add k =>
    refine listenerAdd_figures ?_
    rintro rfl
    exact hk rfl
  | bridge | poll | recheck => rfl

theorem RecordWrites.figures (h : RecordWrites p b b') : b'.figures = b.figures := by
  cases h with
  | fields _ _ _ _ hb =>
    rw [hb]
    rfl
  | event _ _ _ hb =>
    rw [hb]
    exact (enqueueEvent_figures ..).trans rfl

theorem producerRun_figures {k k' : ProducerPc} (h : producerRun p b c k = some (b', k')) :
    b'.figures = b.figures := by
  cases k with
  | top =>
    simp only [producerRun] at h
    split_ifs at h <;> obtain ⟨rfl, -⟩ := Prod.mk.inj (Option.some.inj h) <;> simp
  | play | silence =>
    simp only [producerRun] at h
    split_ifs at h <;> obtain ⟨rfl, -⟩ := Prod.mk.inj (Option.some.inj h) <;> rfl
  | locked =>
    simp only [producerRun] at h
    split at h
    · obtain ⟨rfl, -⟩ := Prod.mk.inj (Option.some.inj h)
      rfl
    · split_ifs at h <;> obtain ⟨rfl, -⟩ := Prod.mk.inj (Option.some.inj h) <;> rfl
  | ended => cases h
  | _ =>
    obtain ⟨rfl, -⟩ := Prod.mk.inj (Option.some.inj h)
    rfl

theorem destroyRoom_figures {grace announcement : Bool} {k : DestroyPc}
    {x : Broadcast × Progress DestroyPc} (h : destroyRoom p grace announcement b c k = some x) :
    x.1.figures = b.figures := by
  cases k with
  | stopRecords k =>
    obtain ⟨y, hy, rfl⟩ := Option.map_eq_some_iff.mp h
    exact (recordStop_writes hy).figures
  | stop old k =>
    obtain ⟨y, hy, rfl⟩ := Option.map_eq_some_iff.mp h
    exact speakerStopInput_figures hy
  | announce =>
    obtain rfl := Option.some.inj h
    simp only [startPlay]
    split_ifs <;> rfl
  | hangup old l =>
    cases l <;> obtain rfl := Option.some.inj h <;> simp
  | slot | joinProducer | delete =>
    simp only [destroyRoom] at h
    split_ifs at h
    obtain rfl := Option.some.inj h
    rfl
  | waitCount old =>
    simp only [destroyRoom] at h
    split_ifs at h <;> obtain rfl := Option.some.inj h <;> rfl
  | grace | snapshot =>
    obtain rfl := Option.some.inj h
    simp
  | _ =>
    obtain rfl := Option.some.inj h
    rfl

theorem eventEmitter_figures {k k' : EmitterPc} (h : eventEmitter b k = some (b', k')) :
    b'.figures = b.figures := by
  cases k with
  | idle =>
    simp only [eventEmitter] at h
    split_ifs at h
    obtain ⟨rfl, -⟩ := Prod.mk.inj (Option.some.inj h)
    rfl
  | drain =>
    simp only [eventEmitter] at h
    split at h <;> obtain ⟨rfl, -⟩ := Prod.mk.inj (Option.some.inj h) <;> rfl
  | _ =>
    obtain ⟨rfl, -⟩ := Prod.mk.inj (Option.some.inj h)
    rfl

theorem runtimeHousekeeping_figures {k k' : HousekeepingPc}
    (h : runtimeHousekeeping p b c k = some (b', k')) : b'.figures = b.figures := by
  cases k with
  | idle =>
    simp only [runtimeHousekeeping] at h
    split_ifs at h
    obtain ⟨rfl, -⟩ := Prod.mk.inj (Option.some.inj h)
    rfl
  | heartbeat =>
    obtain ⟨rfl, -⟩ := Prod.mk.inj (Option.some.inj h)
    split_ifs <;> simp
  | mark =>
    simp only [runtimeHousekeeping] at h
    split at h
    · obtain ⟨rfl, -⟩ := Prod.mk.inj (Option.some.inj h)
      simp
    · cases h
  | hangup l =>
    cases l <;> obtain ⟨rfl, -⟩ := Prod.mk.inj (Option.some.inj h) <;> first | rfl | simp

theorem joinSession_figures {j : JoinParams} {pc pc' : SessionPc}
    (h : joinSession p b j pc = some (b', pc')) : b'.figures = b.figures := by
  cases pc with
  | outside =>
    obtain ⟨y, hy, he⟩ := Option.map_eq_some_iff.mp h
    obtain ⟨rfl, -⟩ := Prod.mk.inj he
    rw [(findBroadcast_eq hy).2]
    rfl
  | created =>
    obtain ⟨rfl, -⟩ := Prod.mk.inj (Option.some.inj h)
    rfl
  | _ => cases h

/-- The places where a session counts its member. -/
def SessionPc.Counts : SessionPc → Prop
  | .add .stats | .unlink => True
  | _ => False

inductive SessionFigures (p : RoomProfile) (m : ℕ) (b b' : Broadcast) : SessionPc → Prop
  | prepare {j : JoinParams} (h : b' = memberPrepare b m j.role j.ghost) :
      SessionFigures p m b b' (.prepare j)
  | join (h : b' = (listenerAdd p b m .stats).1) : SessionFigures p m b b' (.add .stats)
  | leave (h : b' = listenerDel p b m) : SessionFigures p m b b' .unlink
  | install {promoted : Bool} (hc : b.current_speaker ≠ some m)
      (h : b' = installSpeaker b (some m)) :
      SessionFigures p m b b' (.speak promoted .install)
  | displace {promoted : Bool} {old : ℕ}
      (h : b' = b.modify old fun x => { x with speaker_since_us := 0 }) :
      SessionFigures p m b b' (.speak promoted (.since old))
  | displaceSelf {old : ℕ} (h : b' = b.modify old fun x => { x with speaker_since_us := 0 }) :
      SessionFigures p m b b' (.wait (.clear (.since old)))
  | keep {pc : SessionPc} (hk : ¬ pc.Counts) (h : b'.figures = b.figures) :
      SessionFigures p m b b' pc

theorem speakerMainWait_figures {k : MainWaitPc} {x : Broadcast × Progress MainWaitPc}
    (hx : speakerMainWait p b m c k = some x) : SessionFigures p m b x.1 (.wait k) := by
  cases k with
  | enter | leave =>
    obtain rfl := Option.some.inj hx
    exact .keep id (modify_figures fun _ => rfl)
  | loop =>
    simp only [speakerMainWait] at hx
    split_ifs at hx <;> obtain rfl := Option.some.inj hx <;> exact .keep id rfl
  | dtmf =>
    simp only [speakerMainWait] at hx
    split at hx
    · split_ifs at hx
      obtain rfl := Option.some.inj hx
      exact .keep id (dispatchControl_figures _)
    · obtain rfl := Option.some.inj hx
      exact .keep id rfl
  | still | recheck =>
    obtain rfl := Option.some.inj hx
    exact .keep id rfl
  | clear k =>
    obtain ⟨y, hy, rfl⟩ := Option.map_eq_some_iff.mp hx
    cases k with
    | install =>
      obtain ⟨-, ⟨-, rfl⟩ | ⟨-, rfl⟩⟩ := setSpeaker_install hy <;> exact .keep id rfl
    | since old => exact .displaceSelf (setSpeaker_since hy)
    | _ => exact .keep id (setSpeaker_figures hy id)

theorem appFunction_figures {pc pc' : SessionPc} (h : appFunction p b m c pc = some (b', pc')) :
    SessionFigures p m b b' pc := by
  cases pc with
  | outside | created | returned => cases h
  | record j k =>
    obtain ⟨rfl, -⟩ := Prod.mk.inj (Option.some.inj h)
    exact .keep id (recordStart_writes _ k).figures
  | recordFailed j =>
    obtain ⟨rfl, -⟩ := Prod.mk.inj (Option.some.inj h)
    exact .keep id (enqueueEvent_figures ..)
  | accept j =>
    simp only [appFunction] at h
    split_ifs at h <;> obtain ⟨rfl, -⟩ := Prod.mk.inj (Option.some.inj h)
    · exact .keep id hangup_figures
    · exact .keep id rfl
  | prepare j =>
    simp only [appFunction] at h
    split_ifs at h <;> obtain ⟨rfl, -⟩ := Prod.mk.inj (Option.some.inj h)
    · exact .keep id rfl
    all_goals exact .prepare rfl
  | check =>
    simp only [appFunction] at h
    split_ifs at h <;> obtain ⟨rfl, -⟩ := Prod.mk.inj (Option.some.inj h)
    · exact .keep id hangup_figures
    · exact .keep id rfl
  | nextId =>
    obtain ⟨rfl, -⟩ := Prod.mk.inj (Option.some.inj h)
    exact .keep id (modify_figures (b := (memberNextId b).1) fun _ => rfl)
  | running | lower | clearFlag | raise =>
    obtain ⟨rfl, -⟩ := Prod.mk.inj (Option.some.inj h)
    exact .keep id (modifyFlags_figures fun _ => rfl)
  | speak promoted k =>
    obtain ⟨x, hx, he⟩ := Option.map_eq_some_iff.mp h
    obtain ⟨rfl, -⟩ := Prod.mk.inj he
    cases k with
    | install =>
      obtain ⟨-, ⟨-, rfl⟩ | ⟨hc, rfl⟩⟩ := setSpeaker_install hx
      · exact .keep id rfl
      · exact .install hc rfl
    | since old => exact .displace (setSpeaker_since hx)
    | _ => exact .keep id (setSpeaker_figures hx id)
  | wait k =>
    obtain ⟨x, hx, he⟩ := Option.map_eq_some_iff.mp h
    obtain ⟨rfl, -⟩ := Prod.mk.inj he
    exact speakerMainWait_figures hx
  | add k =>
    have hb : b' = (listenerAdd p b m k).1 ∨ b' = (listenerAdd p b m k).1.hangup m := by
      simp only [appFunction] at h
      split at h <;> obtain ⟨rfl, -⟩ := Prod.mk.inj (Option.some.inj h) <;> simp
    by_cases hk : k = .stats
    · subst hk
      simp only [appFunction, listenerAdd] at h
      split_ifs at h with hg <;> obtain ⟨rfl, -⟩ := Prod.mk.inj (Option.some.inj h) <;>
        exact .join (by simp [listenerAdd, hg])
    · have hadd := listenerAdd_figures (p := p) (b := b) (m := m) hk
      have hno : ¬ (SessionPc.add k).Counts := by
        cases k <;> first | exact id | exact absurd rfl hk
      rcases hb with rfl | rfl
      · exact .keep hno hadd
      · exact .keep hno (hangup_figures.trans hadd)
  | listen k =>
    obtain ⟨rfl, -⟩ := Prod.mk.inj (Option.some.inj h)
    exact .keep id (listenerRun_figures k)
  | unlink =>
    obtain ⟨rfl, -⟩ := Prod.mk.inj (Option.some.inj h)
    exact .leave rfl
  | clear k =>
    obtain ⟨x, hx, he⟩ := Option.map_eq_some_iff.mp h
    obtain ⟨rfl, -⟩ := Prod.mk.inj he
    exact .keep id (clearSpeakerIfCurrent_figures hx)
  | _ =>
    obtain ⟨rfl, -⟩ := Prod.mk.inj (Option.some.inj h)
    exact .keep id rfl

/-- The place where a promotion that gives up counts the member. -/
def ApiPc.Counts : ApiPc → Prop
  | .promote _ _ (.add .stats) => True
  | _ => False

inductive ApiFigures (p : RoomProfile) (b b' : Broadcast) : ApiPc → Prop
  | flag {f : FlagCommand} (h : b' = f.apply b) : ApiFigures p b b' (.start (.flag f))
  | join {x m : ℕ} (h : b' = (listenerAdd p b m .stats).1) :
      ApiFigures p b b' (.promote x m (.add .stats))
  | displace {old : ℕ} (h : b' = b.modify old fun x => { x with speaker_since_us := 0 }) :
      ApiFigures p b b' (.clearSpeaker (.since old))
  | keep {pc : ApiPc} (hk : ¬ pc.Counts) (h : b'.figures = b.figures) : ApiFigures p b b' pc

theorem apiDispatch_figures {pc pc' : ApiPc} (h : apiDispatch p b c pc = some (b', pc')) :
    ApiFigures p b b' pc := by
  cases pc with
  | idle => cases h
  | start k =>
    obtain ⟨rfl, -⟩ := Prod.mk.inj (Option.some.inj h)
    cases k with
    | flag f => exact .flag rfl
    | kickAll => exact .keep id (kickAllMark_figures _)
    | play =>
      simp only [startPlay]
      split_ifs <;> exact .keep id rfl
    | _ => exact .keep id rfl
  | promote x m k =>
    obtain ⟨rfl, -⟩ := Prod.mk.inj (Option.some.inj h)
    by_cases hk : k = .add .stats
    · subst hk
      exact .join rfl
    · refine .keep (fun hc => ?_) (requestPromotion_figures hk)
      cases k with
      | add k => cases k <;> first | exact hc | exact hk rfl
      | _ => exact hc
  | kick x m k =>
    obtain ⟨rfl, -⟩ := Prod.mk.inj (Option.some.inj h)
    exact .keep id (kickListener_figures k)
  | clearSpeaker k =>
    obtain ⟨x, hx, he⟩ := Option.map_eq_some_iff.mp h
    obtain ⟨rfl, -⟩ := Prod.mk.inj he
    cases k with
    | install =>
      obtain ⟨-, ⟨-, rfl⟩ | ⟨-, rfl⟩⟩ := setSpeaker_install hx <;> exact .keep id rfl
    | since old => exact .displace (setSpeaker_since hx)
    | _ => exact .keep id (setSpeaker_figures hx id)
  | kickAll l =>
    cases l <;> obtain ⟨rfl, -⟩ := Prod.mk.inj (Option.some.inj h)
    · exact .keep id rfl
    · exact .keep id hangupByUuid_figures
  | flagEvent f =>
    obtain ⟨rfl, -⟩ := Prod.mk.inj (Option.some.inj h)
    exact .keep id (enqueueEvent_figures ..)
  | record target k =>
    obtain ⟨rfl, -⟩ := Prod.mk.inj (Option.some.inj h)
    exact .keep id (recordStart_writes _ k).figures
  | norecord k =>
    obtain ⟨x, hx, he⟩ := Option.map_eq_some_iff.mp h
    obtain ⟨rfl, -⟩ := Prod.mk.inj he
    exact .keep id (recordStop_writes hx).figures
  | destroy grace announcement k =>
    obtain ⟨x, hx, he⟩ := Option.map_eq_some_iff.mp h
    obtain ⟨rfl, -⟩ := Prod.mk.inj he
    exact .keep id (destroyRoom_figures hx)
  | _ =>
    obtain ⟨rfl, -⟩ := Prod.mk.inj (Option.some.inj h)
    exact .keep id rfl

inductive FiguresStep (p : RoomProfile) (s t : Room) : RoomAction → Prop
  | session {m : ℕ} {c : Choice} (h : SessionFigures p m s.b t.b (s.session m)) :
      FiguresStep p s t (.session m c)
  | api {u : ℕ} {c : Choice} (h : ApiFigures p s.b t.b (s.api u)) : FiguresStep p s t (.api u c)
  | elapse (h : t.b = { s.b with clock := s.b.clock + 1 }) : FiguresStep p s t .elapse
  | keep {a : RoomAction} (hk : ∀ m c, a ≠ .session m c) (hk' : ∀ u c, a ≠ .api u c)
      (h : t.b.figures = s.b.figures) : FiguresStep p s t a

theorem roomStep_figures {s t : Room} {a : RoomAction} (hs : roomStep p s a = some t) :
    FiguresStep p s t a := by
  cases a with
  | join m j =>
    obtain ⟨x, hx, rfl⟩ := Option.map_eq_some_iff.mp hs
    exact .keep (by simp) (by simp) (joinSession_figures hx)
  | session m c =>
    obtain ⟨x, hx, rfl⟩ := Option.map_eq_some_iff.mp hs
    exact .session (appFunction_figures hx)
  | call u k =>
    simp only [roomStep] at hs
    split_ifs at hs
    obtain ⟨x, hx, rfl⟩ := Option.map_eq_some_iff.mp hs
    refine .keep (by simp) (by simp) ?_
    rw [(findBroadcast_eq hx).2]
    rfl
  | shutdown u =>
    simp only [roomStep] at hs
    split_ifs at hs
    obtain rfl := Option.some.inj hs
    exact .keep (by simp) (by simp) rfl
  | api u c =>
    obtain ⟨x, hx, rfl⟩ := Option.map_eq_some_iff.mp hs
    exact .api (apiDispatch_figures hx)
  | producer c =>
    obtain ⟨x, hx, rfl⟩ := Option.map_eq_some_iff.mp hs
    exact .keep (by simp) (by simp) (producerRun_figures hx)
  | input m c =>
    obtain ⟨⟨b₁, k'⟩, hx, rfl⟩ := Option.map_eq_some_iff.mp hs
    refine .keep (by simp) (by simp) ?_
    rw [← speakerInput_figures hx]
    exact modify_figures fun _ => rfl
  | writer i c =>
    obtain ⟨x, hx, rfl⟩ := Option.map_eq_some_iff.mp hs
    exact .keep (by simp) (by simp) (recordWriter_writes hx).figures
  | emitter =>
    obtain ⟨x, hx, rfl⟩ := Option.map_eq_some_iff.mp hs
    exact .keep (by simp) (by simp) (eventEmitter_figures hx)
  | housekeeping c =>
    obtain ⟨x, hx, rfl⟩ := Option.map_eq_some_iff.mp hs
    exact .keep (by simp) (by simp) (runtimeHousekeeping_figures hx)
  | hangup m =>
    obtain rfl := Option.some.inj hs
    exact .keep (by simp) (by simp) hangup_figures
  | elapse =>
    obtain rfl := Option.some.inj hs
    exact .elapse rfl

def Broadcast.cflags (b : Broadcast) : Bool × Bool := (b.locked, b.paused)

theorem cflags_of_figures (h : b'.figures = b.figures) : b'.cflags = b.cflags :=
  Prod.ext (locked_of_figures h) (paused_of_figures h)

theorem listenerAdd_stats_cflags : (listenerAdd p b m .stats).1.cflags = b.cflags ∧
    (listenerAdd p b m .stats).1.clock = b.clock := by
  simp only [listenerAdd]
  split_ifs
  · exact ⟨rfl, rfl⟩
  · refine ⟨(cflags_of_figures (enqueueEvent_figures ..)).trans ?_,
      (clock_of_figures (enqueueEvent_figures ..)).trans ?_⟩ <;> rfl

theorem listenerDel_cflags : (listenerDel p b m).cflags = b.cflags ∧
    (listenerDel p b m).clock = b.clock := by
  simp only [listenerDel]
  split_ifs
  · exact ⟨rfl, rfl⟩
  · refine ⟨(cflags_of_figures (enqueueEvent_figures ..)).trans ?_,
      (clock_of_figures (enqueueEvent_figures ..)).trans ?_⟩ <;> rfl
  · exact ⟨rfl, rfl⟩

theorem SessionFigures.cflags {pc : SessionPc} (h : SessionFigures p m b b' pc) :
    b'.cflags = b.cflags ∧ b'.clock = b.clock := by
  cases h with
  | prepare h | install _ h | displace h | displaceSelf h =>
    rw [h]
    exact ⟨rfl, rfl⟩
  | join h =>
    rw [h]
    exact listenerAdd_stats_cflags
  | leave h =>
    rw [h]
    exact listenerDel_cflags
  | keep _ h => exact ⟨cflags_of_figures h, clock_of_figures h⟩

/-- The flags change in the first step of a flag command only. -/
theorem roomStep_cflags {s t : Room} {a : RoomAction} (hs : roomStep p s a = some t) :
    t.b.cflags = s.b.cflags ∨
      ∃ u c f, a = .api u c ∧ s.api u = .start (.flag f) ∧ t.b = f.apply s.b := by
  cases roomStep_figures hs with
  | session h => exact .inl h.cflags.1
  | elapse h =>
    rw [h]
    exact .inl rfl
  | keep _ _ h => exact .inl (cflags_of_figures h)
  | @api u c h =>
    generalize hpc : s.api u = pc at h
    cases h with
    | @flag f h => exact .inr ⟨u, c, f, rfl, hpc, h⟩
    | join h =>
      rw [h]
      exact .inl listenerAdd_stats_cflags.1
    | displace h =>
      rw [h]
      exact .inl rfl
    | keep _ h => exact .inl (cflags_of_figures h)

/-- The clock only goes forward. -/
theorem roomStep_clock {s t : Room} {a : RoomAction} (hs : roomStep p s a = some t) :
    s.b.clock ≤ t.b.clock := by
  cases roomStep_figures hs with
  | session h => exact Nat.le_of_eq h.cflags.2.symm
  | elapse h =>
    rw [h]
    exact Nat.le_succ _
  | keep _ _ h => exact Nat.le_of_eq (clock_of_figures h).symm
  | api h =>
    apply Nat.le_of_eq
    generalize s.api _ = pc at h
    cases h with
    | @flag f h =>
      rw [h]
      cases f <;> rfl
    | join h =>
      rw [h]
      exact listenerAdd_stats_cflags.2.symm
    | displace h =>
      rw [h]
      rfl
    | keep _ h => exact (clock_of_figures h).symm

end ModBroadcast
