import ModBroadcast.Threads
import ModBroadcast.Touches

namespace ModBroadcast

open Automaton

variable {p : RoomProfile} {b b' b₁ : Broadcast} {c : Choice} {m n : ℕ} {s t : Room}
  {a : RoomAction} {start start' : ℕ → Prop} {x : Member}

/-- What happens to the channels, to `destroyed` and to the input threads; `start` tells whose
session is about to prepare its member or to start its input thread. -/
structure Fades (start : ℕ → Prop) (b b' : Broadcast) : Prop where
  ready : ∀ n, (b'.member n).ready = true → (b.member n).ready = true
  destroyed : b.destroyed = true → b'.destroyed = true
  running : ∀ n, (b'.member n).input_running = true →
    (b.member n).input_running = true ∨ start n
  absent : ∀ n, (b'.member n).input = .absent → (b.member n).input = .absent ∨ start n

theorem Fades.mono (h : Fades start b b') (hs : ∀ n, start n → start' n) : Fades start' b b' :=
  ⟨h.ready, h.destroyed, fun n hn => (h.running n hn).imp_right (hs n),
    fun n hn => (h.absent n hn).imp_right (hs n)⟩

theorem Fades.of_member (hm : b'.member = b.member) (hd : b'.destroyed = b.destroyed) :
    Fades start b b' :=
  ⟨fun _ hn => hm ▸ hn, fun h => hd.trans h, fun _ hn => .inl (hm ▸ hn), fun _ hn => .inl (hm ▸ hn)⟩

theorem Fades.refl : Fades start b b := .of_member rfl rfl

theorem Fades.trans (h : Fades start b b₁) (h' : Fades start b₁ b') : Fades start b b' :=
  ⟨fun n hn => h.ready n (h'.ready n hn), fun hd => h'.destroyed (h.destroyed hd),
    fun n hn => (h'.running n hn).elim (h.running n) .inr,
    fun n hn => (h'.absent n hn).elim (h.absent n) .inr⟩

/-- A change of the member `m` alone. -/
theorem Fades.at (hm : b'.member = Function.update b.member m x) (hd : b'.destroyed = b.destroyed)
    (hready : x.ready = true → (b.member m).ready = true)
    (hrun : x.input_running = true → (b.member m).input_running = true ∨ start m)
    (habsent : x.input = .absent → (b.member m).input = .absent ∨ start m) :
    Fades start b b' := by
  refine ⟨fun n hn => ?_, fun h => hd.trans h, fun n hn => ?_, fun n hn => ?_⟩ <;>
    by_cases hnm : n = m
  · subst hnm
    rw [hm, Function.update_self] at hn
    exact hready hn
  · rwa [hm, Function.update_of_ne hnm] at hn
  · subst hnm
    rw [hm, Function.update_self] at hn
    exact hrun hn
  · rw [hm, Function.update_of_ne hnm] at hn
    exact .inl hn
  · subst hnm
    rw [hm, Function.update_self] at hn
    exact habsent hn
  · rw [hm, Function.update_of_ne hnm] at hn
    exact .inl hn

/-- A change of the member `m` that leaves its input thread where it is. -/
theorem fades_modify {f : Member → Member} (hready : ∀ x, (f x).ready = true → x.ready = true)
    (hrun : ∀ x, (f x).input_running = true → x.input_running = true)
    (hinput : ∀ x, (f x).input = x.input) :
    Fades start b (b.modify m f) :=
  .at rfl rfl (hready _) (fun h => .inl (hrun _ h)) fun h => .inl ((hinput _).symm.trans h)

theorem fades_modifyFlags {f : Mflags → Mflags} : Fades start b (b.modifyFlags m f) :=
  fades_modify (fun _ h => h) (fun _ h => h) fun _ => rfl

theorem fades_hangup : Fades start b (b.hangup m) :=
  fades_modify (fun _ h => absurd h Bool.false_ne_true) (fun _ h => h) fun _ => rfl

theorem destroyed_of_life (h : b'.life = b.life) : b'.destroyed = b.destroyed := by
  have hd : b'.life.destroyed = b.life.destroyed := by rw [h]
  exact hd

theorem enqueueEvent_fades (e : EventType) (i : ℕ) : Fades start b (enqueueEvent p b e i) :=
  .of_member (enqueueEvent_member e i) (destroyed_of_life (life_of_core (enqueueEvent_core e i)))

theorem hangupByUuid_fades : Fades start b (hangupByUuid b m c) := by
  unfold hangupByUuid
  split_ifs
  · exact .refl
  · exact fades_hangup

theorem markKicked_fades (l : List ℕ) : Fades start b (markKicked b l) := by
  induction l generalizing b with
  | nil => exact .refl
  | cons m l ih => exact fades_modifyFlags.trans ih

theorem kickAllMark_fades (l : List ℕ) : Fades start b (kickAllMark p b l) := by
  induction l generalizing b with
  | nil => exact .refl
  | cons m l ih => exact (fades_modifyFlags.trans (enqueueEvent_fades ..)).trans ih

theorem dispatchControl_fades (act : ControlAction) :
    Fades start b (dispatchControl p b m act) := by
  cases act with
  | hangup => exact fades_hangup
  | leave =>
    dsimp only [dispatchControl]
    exact fades_modifyFlags
  | requestSpeaker | event => exact enqueueEvent_fades ..
  | muteToggle =>
    simp only [dispatchControl]
    split_ifs
    · exact fades_modifyFlags
    · exact .refl
  | _ => exact .refl

theorem listenerAdd_fades (k : ListenerAddPc) : Fades start b (listenerAdd p b m k).1 := by
  cases k with
  | link =>
    simp only [listenerAdd]
    split_ifs
    · exact .refl
    · have hlife := life_of_rest (rest_of_apart (listenerLink_apart (b := b) (m := m)))
      exact .at listenerLink_member (destroyed_of_life hlife) (fun h => h) .inl .inl
  | stats =>
    simp only [listenerAdd]
    split_ifs
    · exact .refl
    · have hlife := life_of_core (enqueueEvent_core (p := p)
        (b := { b with stat_listeners_joined := b.stat_listeners_joined + 1 })
        .listenerJoin (b.member m).id)
      exact .of_member (enqueueEvent_member ..) (destroyed_of_life hlife)
  | running =>
    dsimp only [listenerAdd]
    exact fades_modifyFlags
  | _ => exact .refl

theorem listenerDel_fades : Fades start b (listenerDel p b m) :=
  .of_member listenerDel_member (destroyed_of_life (life_of_rest (rest_of_apart listenerDel_apart)))

theorem listenerRun_fades (k : ListenerRunPc) : Fades start b (listenerRun p b m c k).1 := by
  cases k with
  | enter | leave =>
    dsimp only [listenerRun]
    exact fades_modify (fun _ h => h) (fun _ h => h) fun _ => rfl
  | stop =>
    dsimp only [listenerRun]
    exact fades_modifyFlags
  | timer => exact .refl
  | loop | check =>
    simp only [listenerRun]
    split_ifs <;> exact .refl
  | dtmf =>
    simp only [listenerRun]
    split
    · exact dispatchControl_fades _
    · exact .refl
  | tick =>
    simp only [listenerRun]
    split
    · exact .refl
    · exact enqueueEvent_fades ..
    · exact .refl

theorem speakerStopInput_fades {k : StopInputPc} {z : Broadcast × Progress StopInputPc}
    (h : speakerStopInput b m k = some z) : Fades start b z.1 := by
  cases k with
  | clear =>
    obtain rfl := Option.some.inj h
    dsimp only
    exact fades_modify (fun _ h => h) (fun _ h => absurd h Bool.false_ne_true) fun _ => rfl
  | exchange =>
    simp only [speakerStopInput] at h
    split_ifs at h <;> obtain rfl := Option.some.inj h
    · dsimp only
      exact fades_modify (fun _ h => h) (fun _ h => h) fun _ => rfl
    · exact .refl
  | join =>
    simp only [speakerStopInput] at h
    split_ifs at h
    obtain rfl := Option.some.inj h
    exact .refl

theorem setSpeaker_fades {new : Option ℕ} {k : SetSpeakerPc}
    {z : Broadcast × Progress SetSpeakerPc} (h : setSpeaker b new c k = some z) :
    Fades (fun n => new = some n ∧ k = .start) b z.1 := by
  cases k with
  | guard =>
    obtain ⟨m, rfl, rfl⟩ := Option.map_eq_some_iff.mp h
    exact .refl
  | audio =>
    obtain ⟨m, rfl, rfl⟩ := Option.map_eq_some_iff.mp h
    split_ifs
    · exact .refl
    · exact .refl
    · dsimp only
      exact fades_modify (fun _ h => h) (fun _ h => h) fun _ => rfl
  | role =>
    obtain ⟨m, rfl, rfl⟩ := Option.map_eq_some_iff.mp h
    dsimp only
    exact fades_modify (fun _ h => h) (fun _ h => h) fun _ => rfl
  | start =>
    obtain ⟨m, rfl, rfl⟩ := Option.map_eq_some_iff.mp h
    split_ifs
    · exact .refl
    · dsimp only
      exact fades_modify (fun _ h => h) (fun _ h => absurd h Bool.false_ne_true) fun _ => rfl
    · exact .at rfl rfl (fun h => h) (fun _ => .inr ⟨rfl, rfl⟩) fun h => absurd h (by simp)
  | install =>
    obtain ⟨-, ⟨-, rfl⟩ | ⟨-, rfl⟩⟩ := setSpeaker_install h
    · exact .refl
    · cases new with
      | none => exact .of_member rfl rfl
      | some m => exact .at rfl rfl (fun h => h) .inl .inl
  | fire old =>
    cases old <;> obtain rfl := Option.some.inj h <;> cases new <;> exact .of_member rfl rfl
  | stop old k =>
    obtain ⟨y, hy, rfl⟩ := Option.map_eq_some_iff.mp h
    exact speakerStopInput_fades hy
  | since old =>
    obtain rfl := Option.some.inj h
    dsimp only
    exact fades_modify (fun _ h => h) (fun _ h => h) fun _ => rfl

theorem clearSpeakerIfCurrent_fades {k : ClearPc} {z : Broadcast × Progress ClearPc}
    (h : clearSpeakerIfCurrent b m k = some z) : Fades start b z.1 := by
  cases k with
  | test =>
    simp only [clearSpeakerIfCurrent] at h
    split_ifs at h <;> obtain rfl := Option.some.inj h
    · exact .of_member rfl rfl
    · exact .refl
  | stop k =>
    obtain ⟨y, hy, hz, -⟩ := clearSpeakerIfCurrent_stop h
    rw [hz]
    exact speakerStopInput_fades hy

theorem speakerMainWait_fades {k : MainWaitPc} {z : Broadcast × Progress MainWaitPc}
    (h : speakerMainWait p b m c k = some z) : Fades start b z.1 := by
  cases k with
  | enter | leave =>
    obtain rfl := Option.some.inj h
    dsimp only
    exact fades_modify (fun _ h => h) (fun _ h => h) fun _ => rfl
  | loop =>
    simp only [speakerMainWait] at h
    split_ifs at h <;> obtain rfl := Option.some.inj h <;> exact .refl
  | dtmf =>
    simp only [speakerMainWait] at h
    split at h
    · split_ifs at h
      obtain rfl := Option.some.inj h
      exact dispatchControl_fades _
    · obtain rfl := Option.some.inj h
      exact .refl
  | still | recheck =>
    obtain rfl := Option.some.inj h
    exact .refl
  | clear k =>
    obtain ⟨y, hy, rfl⟩ := Option.map_eq_some_iff.mp h
    exact (setSpeaker_fades hy).mono fun n hn => absurd hn.1.symm (Option.some_ne_none n)

theorem requestPromotion_fades (k : PromotionPc) :
    Fades start b (requestPromotion p b m c k).1 := by
  cases k with
  | unlink =>
    simp only [requestPromotion, listenerUnlinkForPromotion]
    split_ifs <;> exact .of_member rfl rfl
  | raise | lower | drop =>
    dsimp only [requestPromotion]
    exact fades_modifyFlags
  | add k => exact listenerAdd_fades k
  | _ => exact .refl

theorem kickListener_fades (k : KickPc) : Fades start b (kickListener p b m c k).1 := by
  cases k with
  | mark =>
    dsimp only [kickListener]
    exact fades_modifyFlags
  | event => exact enqueueEvent_fades ..
  | hangup => exact hangupByUuid_fades
  | _ => exact .refl

theorem destroyRoom_fades {grace announcement : Bool} {k : DestroyPc}
    {z : Broadcast × Progress DestroyPc} (h : destroyRoom p grace announcement b c k = some z) :
    Fades start b z.1 := by
  cases k with
  | grace =>
    obtain rfl := Option.some.inj h
    exact enqueueEvent_fades ..
  | announce =>
    obtain rfl := Option.some.inj h
    dsimp only [startPlay]
    split_ifs <;> exact .of_member rfl rfl
  | mark =>
    obtain rfl := Option.some.inj h
    exact ⟨fun _ hn => hn, fun _ => rfl, fun _ hn => .inl hn, fun _ hn => .inl hn⟩
  | stopRecords k =>
    obtain ⟨y, hy, rfl⟩ := Option.map_eq_some_iff.mp h
    exact .of_member (recordStop_writes hy).member (destroyed_of_life (recordStop_writes hy).life)
  | stop old k =>
    obtain ⟨y, hy, rfl⟩ := Option.map_eq_some_iff.mp h
    exact speakerStopInput_fades hy
  | snapshot old =>
    obtain rfl := Option.some.inj h
    exact markKicked_fades _
  | hangup old l =>
    cases l <;> obtain rfl := Option.some.inj h
    · exact .refl
    · exact hangupByUuid_fades
  | slot | joinProducer | delete | waitCount =>
    simp only [destroyRoom] at h
    split_ifs at h <;> obtain rfl := Option.some.inj h <;> exact .of_member rfl rfl
  | _ =>
    obtain rfl := Option.some.inj h
    exact .of_member rfl rfl

theorem apiDispatch_fades {pc pc' : ApiPc} (h : apiDispatch p b c pc = some (b', pc')) :
    Fades start b b' := by
  cases pc with
  | idle => cases h
  | start k =>
    obtain ⟨rfl, -⟩ := Prod.mk.inj (Option.some.inj h)
    cases k with
    | kickAll => exact kickAllMark_fades _
    | flag f => cases f <;> exact .of_member rfl rfl
    | play =>
      dsimp only [startCommand, startPlay]
      split_ifs <;> exact .of_member rfl rfl
    | _ => exact .of_member rfl rfl
  | promote x m k =>
    obtain ⟨rfl, -⟩ := Prod.mk.inj (Option.some.inj h)
    exact requestPromotion_fades k
  | kick x m k =>
    obtain ⟨rfl, -⟩ := Prod.mk.inj (Option.some.inj h)
    exact kickListener_fades k
  | clearSpeaker k =>
    obtain ⟨x, hx, he⟩ := Option.map_eq_some_iff.mp h
    obtain ⟨rfl, -⟩ := Prod.mk.inj he
    exact (setSpeaker_fades hx).mono fun n hn => absurd hn.1.symm (Option.some_ne_none n)
  | kickAll l =>
    cases l <;> obtain ⟨rfl, -⟩ := Prod.mk.inj (Option.some.inj h)
    · exact .refl
    · exact hangupByUuid_fades
  | flagEvent f =>
    obtain ⟨rfl, -⟩ := Prod.mk.inj (Option.some.inj h)
    exact enqueueEvent_fades ..
  | record target k =>
    obtain ⟨rfl, -⟩ := Prod.mk.inj (Option.some.inj h)
    exact .of_member (recordStart_writes target k).member (destroyed_of_life (recordStart_writes target k).life)
  | norecord k =>
    obtain ⟨x, hx, he⟩ := Option.map_eq_some_iff.mp h
    obtain ⟨rfl, -⟩ := Prod.mk.inj he
    exact .of_member (recordStop_writes hx).member (destroyed_of_life (recordStop_writes hx).life)
  | destroy grace announcement k =>
    obtain ⟨x, hx, he⟩ := Option.map_eq_some_iff.mp h
    obtain ⟨rfl, -⟩ := Prod.mk.inj he
    exact destroyRoom_fades hx
  | _ =>
    obtain ⟨rfl, -⟩ := Prod.mk.inj (Option.some.inj h)
    exact .of_member rfl rfl

theorem speakerInput_fades {k k' : InputPc} (h : speakerInput p b m c k = some (b', k')) :
    Fades start b b' := by
  cases k with
  | absent | ended => cases h
  | start =>
    simp only [speakerInput] at h
    split_ifs at h <;> obtain ⟨rfl, -⟩ := Prod.mk.inj (Option.some.inj h)
    · exact fades_modify (fun _ h => h) (fun _ h => absurd h Bool.false_ne_true) fun _ => rfl
    · exact .refl
  | loop =>
    simp only [speakerInput] at h
    split_ifs at h
    · split at h <;> obtain ⟨rfl, -⟩ := Prod.mk.inj (Option.some.inj h) <;>
        first | exact .refl | exact enqueueEvent_fades ..
    · obtain ⟨rfl, -⟩ := Prod.mk.inj (Option.some.inj h)
      exact .refl
  | pinned | unflag =>
    obtain ⟨rfl, -⟩ := Prod.mk.inj (Option.some.inj h)
    exact fades_modifyFlags
  | stop =>
    obtain ⟨rfl, -⟩ := Prod.mk.inj (Option.some.inj h)
    exact fades_modify (fun _ h => h) (fun _ h => absurd h Bool.false_ne_true) fun _ => rfl
  | unpin =>
    obtain ⟨rfl, -⟩ := Prod.mk.inj (Option.some.inj h)
    exact .refl

theorem speakerInput_ne_absent {k k' : InputPc} (h : speakerInput p b m c k = some (b', k')) :
    k' ≠ .absent := by
  cases k <;> simp only [speakerInput] at h <;> (try split_ifs at h) <;> (try split at h) <;>
    cases h <;> simp

theorem producerRun_destroyed {k k' : ProducerPc} (h : producerRun p b c k = some (b', k')) :
    b'.destroyed = b.destroyed := by
  obtain hl | ⟨-, rfl⟩ | ⟨-, -, -, rfl⟩ | ⟨-, -, rfl⟩ := producerRun_life h
  · exact destroyed_of_life hl
  all_goals rfl

theorem runtimeHousekeeping_fades {k k' : HousekeepingPc}
    (h : runtimeHousekeeping p b c k = some (b', k')) : Fades start b b' := by
  cases k with
  | idle =>
    simp only [runtimeHousekeeping] at h
    split_ifs at h
    obtain ⟨rfl, -⟩ := Prod.mk.inj (Option.some.inj h)
    exact .of_member rfl rfl
  | heartbeat =>
    obtain ⟨rfl, -⟩ := Prod.mk.inj (Option.some.inj h)
    split_ifs
    · exact enqueueEvent_fades ..
    · exact .refl
  | mark =>
    simp only [runtimeHousekeeping] at h
    split at h
    · obtain ⟨rfl, -⟩ := Prod.mk.inj (Option.some.inj h)
      exact markKicked_fades _
    · cases h
  | hangup l =>
    cases l <;> obtain ⟨rfl, -⟩ := Prod.mk.inj (Option.some.inj h)
    · exact .of_member rfl rfl
    · exact hangupByUuid_fades

def SessionPc.Begins : SessionPc → Prop
  | .prepare _ | .speak _ .start => True
  | _ => False

theorem appFunction_fades {pc pc' : SessionPc} (h : appFunction p b m c pc = some (b', pc')) :
    Fades (fun n => n = m ∧ pc.Begins) b b' := by
  cases pc with
  | outside | created | returned => cases h
  | record j k =>
    obtain ⟨rfl, -⟩ := Prod.mk.inj (Option.some.inj h)
    exact .of_member (recordStart_writes _ k).member (destroyed_of_life (recordStart_writes _ k).life)
  | recordFailed j =>
    obtain ⟨rfl, -⟩ := Prod.mk.inj (Option.some.inj h)
    exact enqueueEvent_fades ..
  | accept | check =>
    simp only [appFunction] at h
    split_ifs at h <;> obtain ⟨rfl, -⟩ := Prod.mk.inj (Option.some.inj h) <;>
      first | exact .refl | exact fades_hangup
  | prepare j =>
    simp only [appFunction] at h
    split_ifs at h <;> obtain ⟨rfl, -⟩ := Prod.mk.inj (Option.some.inj h)
    · exact .refl
    all_goals
      refine .at rfl rfl (fun h => h) (fun h => ?_) fun _ => .inr ⟨rfl, trivial⟩
      exact absurd h Bool.false_ne_true
  | nextId =>
    obtain ⟨rfl, -⟩ := Prod.mk.inj (Option.some.inj h)
    exact .at rfl rfl (fun h => h) .inl .inl
  | running | lower | clearFlag | raise =>
    obtain ⟨rfl, -⟩ := Prod.mk.inj (Option.some.inj h)
    exact fades_modifyFlags
  | speak promoted k =>
    obtain ⟨x, hx, he⟩ := Option.map_eq_some_iff.mp h
    obtain ⟨rfl, -⟩ := Prod.mk.inj he
    refine (setSpeaker_fades hx).mono ?_
    rintro n ⟨hn, rfl⟩
    exact ⟨(Option.some.inj hn).symm, trivial⟩
  | wait k =>
    obtain ⟨x, hx, he⟩ := Option.map_eq_some_iff.mp h
    obtain ⟨rfl, -⟩ := Prod.mk.inj he
    exact speakerMainWait_fades hx
  | add k =>
    have hadd : Fades (fun n => n = m ∧ (SessionPc.add k).Begins) b (listenerAdd p b m k).1 :=
      listenerAdd_fades k
    simp only [appFunction] at h
    split at h <;> obtain ⟨rfl, -⟩ := Prod.mk.inj (Option.some.inj h)
    · exact hadd
    · exact hadd
    · exact hadd.trans fades_hangup
  | listen k =>
    obtain ⟨rfl, -⟩ := Prod.mk.inj (Option.some.inj h)
    exact listenerRun_fades k
  | unlink =>
    obtain ⟨rfl, -⟩ := Prod.mk.inj (Option.some.inj h)
    exact listenerDel_fades
  | clear k =>
    obtain ⟨x, hx, he⟩ := Option.map_eq_some_iff.mp h
    obtain ⟨rfl, -⟩ := Prod.mk.inj he
    exact clearSpeakerIfCurrent_fades hx
  | _ =>
    obtain ⟨rfl, -⟩ := Prod.mk.inj (Option.some.inj h)
    exact .of_member rfl rfl

theorem joinSession_destroyed {j : JoinParams} {pc pc' : SessionPc}
    (h : joinSession p b j pc = some (b', pc')) : b'.destroyed = b.destroyed := by
  cases pc with
  | outside =>
    obtain ⟨y, hy, he⟩ := Option.map_eq_some_iff.mp h
    obtain ⟨rfl, -⟩ := Prod.mk.inj he
    rw [(findBroadcast_eq hy).2]
  | created =>
    obtain ⟨rfl, -⟩ := Prod.mk.inj (Option.some.inj h)
    rfl
  | _ => cases h

theorem roomStep_fades (hs : roomStep p s a = some t) :
    Fades (fun n => ∃ c, a = .session n c ∧ (s.session n).Begins) s.b t.b := by
  cases a with
  | join m j =>
    obtain ⟨x, hx, rfl⟩ := Option.map_eq_some_iff.mp hs
    exact .of_member (funext (joinSession_member hx)) (joinSession_destroyed hx)
  | session m c =>
    obtain ⟨x, hx, rfl⟩ := Option.map_eq_some_iff.mp hs
    refine (appFunction_fades hx).mono ?_
    rintro n ⟨rfl, hpc⟩
    exact ⟨c, rfl, hpc⟩
  | call u k =>
    simp only [roomStep] at hs
    split_ifs at hs
    obtain ⟨x, hx, rfl⟩ := Option.map_eq_some_iff.mp hs
    rw [(findBroadcast_eq hx).2]
    exact .of_member rfl rfl
  | shutdown u =>
    simp only [roomStep] at hs
    split_ifs at hs
    obtain rfl := Option.some.inj hs
    exact .of_member rfl rfl
  | api u c =>
    obtain ⟨x, hx, rfl⟩ := Option.map_eq_some_iff.mp hs
    exact apiDispatch_fades hx
  | producer c =>
    obtain ⟨x, hx, rfl⟩ := Option.map_eq_some_iff.mp hs
    exact .of_member (producerRun_member hx) (producerRun_destroyed hx)
  | input m c =>
    obtain ⟨x, hx, rfl⟩ := Option.map_eq_some_iff.mp hs
    exact (speakerInput_fades hx).trans (.at rfl rfl (fun h => h) .inl
      fun h => absurd h (speakerInput_ne_absent hx))
  | writer i c =>
    obtain ⟨x, hx, rfl⟩ := Option.map_eq_some_iff.mp hs
    exact .of_member (recordWriter_writes hx).member (destroyed_of_life (recordWriter_writes hx).life)
  | emitter =>
    obtain ⟨x, hx, rfl⟩ := Option.map_eq_some_iff.mp hs
    have hlife := life_of_core (eventEmitter_core hx)
    exact .of_member (eventEmitter_member hx) (destroyed_of_life hlife)
  | housekeeping c =>
    obtain ⟨x, hx, rfl⟩ := Option.map_eq_some_iff.mp hs
    exact runtimeHousekeeping_fades hx
  | hangup m =>
    obtain rfl := Option.some.inj hs
    exact fades_hangup
  | elapse =>
    obtain rfl := Option.some.inj hs
    exact .of_member rfl rfl

end ModBroadcast
