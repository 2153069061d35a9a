import ModBroadcast.SpeakerCalls

namespace ModBroadcast

variable {p : RoomProfile} {b b' b₁ : Broadcast} {c : Choice} {m n : ℕ} {s t : Room}
  {a : RoomAction}

def EventType.Controls : EventType → Prop
  | .speakerSet | .speakerClear | .lock | .unlock | .pause | .resume => True
  | _ => False

/-- Between the two broadcasts the speaker was kept and only other events were put out; nothing is
said of the events when one was dropped. -/
structure Silent (b b' : Broadcast) : Prop where
  current : b'.current_speaker = b.current_speaker
  dropped : b.stat_events_dropped ≤ b'.stat_events_dropped
  tape : b'.stat_events_dropped = b.stat_events_dropped → ∃ q f, b'.events = b.events ++ q ∧
    b'.fired = f ++ b.fired ∧ ∀ e ∈ q ++ f, ¬ e.1.Controls

/-- The queue, the number of events dropped, the events handed out, and the speaker. -/
def Broadcast.news (b : Broadcast) :
    List (EventType × ℕ) × ℕ × List (EventType × ℕ) × Option ℕ :=
  (b.events, b.stat_events_dropped, b.fired, b.current_speaker)

theorem Silent.of_news (h : b'.news = b.news) : Silent b b' := by
  obtain ⟨he, h⟩ := Prod.mk.inj h
  obtain ⟨hd, h⟩ := Prod.mk.inj h
  obtain ⟨hf, hc⟩ := Prod.mk.inj h
  exact ⟨hc, Nat.le_of_eq hd.symm, fun _ => ⟨[], [], by simp [he], by simp [hf], by simp⟩⟩

@[refl] theorem Silent.refl (b : Broadcast) : Silent b b := .of_news rfl

theorem Silent.trans (h : Silent b b₁) (h' : Silent b₁ b') : Silent b b' where
  current := h'.current.trans h.current
  dropped := Nat.le_trans h.dropped h'.dropped
  tape hd := by
    have hle := h.dropped
    have hle' := h'.dropped
    obtain ⟨q, f, he, hf, hq⟩ := h.tape (by omega)
    obtain ⟨q', f', he', hf', hq'⟩ := h'.tape (by omega)
    refine ⟨q ++ q', f' ++ f, by rw [he', he, List.append_assoc], by rw [hf', hf, List.append_assoc],
      fun e hm => ?_⟩
    simp only [List.mem_append] at hm hq hq'
    rcases hm with (hm | hm) | hm | hm
    · exact hq e (.inl hm)
    · exact hq' e (.inl hm)
    · exact hq' e (.inr hm)
    · exact hq e (.inr hm)

/-- The queue takes an event or drops one. -/
theorem enqueueEvent_tape (e : EventType) (i : ℕ) :
    (enqueueEvent p b e i).current_speaker = b.current_speaker ∧
      (enqueueEvent p b e i).fired = b.fired ∧
      ((enqueueEvent p b e i).stat_events_dropped = b.stat_events_dropped ∧
          ((enqueueEvent p b e i).events = b.events ∧ (b.destroyed = true ∨ p.event_ring_size = 0) ∨
            (enqueueEvent p b e i).events = b.events ++ [(e, i)]) ∨
        (enqueueEvent p b e i).stat_events_dropped = b.stat_events_dropped + 1) := by
  unfold enqueueEvent
  split_ifs with hoff
  · exact ⟨rfl, rfl, .inl ⟨rfl, .inl ⟨rfl, by simpa using hoff⟩⟩⟩
  · exact ⟨rfl, rfl, .inr rfl⟩
  · exact ⟨rfl, rfl, .inl ⟨rfl, .inr rfl⟩⟩

theorem enqueueEvent_silent {e : EventType} (he : ¬ e.Controls) (i : ℕ) :
    Silent b (enqueueEvent p b e i) := by
  obtain ⟨hc, hf, ⟨hd, hq⟩ | hd⟩ := enqueueEvent_tape (p := p) (b := b) e i
  · refine ⟨hc, Nat.le_of_eq hd.symm, fun _ => ?_⟩
    rcases hq with ⟨hq, -⟩ | hq
    · exact ⟨[], [], by simp [hq], by simp [hf], by simp⟩
    · refine ⟨[(e, i)], [], hq, by simp [hf], fun x hx => ?_⟩
      obtain rfl : x = (e, i) := by simpa using hx
      exact he
  · exact ⟨hc, by omega, fun h => by omega⟩

theorem enqueueEvent_after {e : EventType} {i : ℕ} (he : ¬ e.Controls)
    (h : b₁.news = b.news) : Silent b (enqueueEvent p b₁ e i) :=
  (Silent.of_news h).trans (enqueueEvent_silent he i)

theorem fireCriticalEvent_silent {e : EventType} (he : ¬ e.Controls) (i : ℕ) :
    Silent b (fireCriticalEvent b e i) := by
  refine ⟨rfl, Nat.le_refl _, fun _ => ⟨[], [(e, i)], by simp [fireCriticalEvent], rfl, fun x hx => ?_⟩⟩
  obtain rfl : x = (e, i) := by simpa using hx
  exact he

theorem dispatchControl_silent (act : ControlAction) : Silent b (dispatchControl p b m act) := by
  cases act with
  | requestSpeaker | event => exact enqueueEvent_silent id _
  | muteToggle =>
    simp only [dispatchControl]
    split_ifs <;> exact .of_news rfl
  | _ => exact .of_news rfl

theorem hangupByUuid_silent : Silent b (hangupByUuid b m c) := by
  unfold hangupByUuid
  split_ifs <;> exact .of_news rfl

theorem markKicked_news (l : List ℕ) : (markKicked b l).news = b.news := by
  induction l generalizing b with
  | nil => rfl
  | cons m l ih =>
    rw [markKicked, ih]
    rfl

theorem kickAllMark_silent (l : List ℕ) : Silent b (kickAllMark p b l) := by
  induction l generalizing b with
  | nil => exact .refl b
  | cons m l ih =>
    refine Silent.trans ?_ ih
    exact enqueueEvent_after id rfl

theorem kickListener_silent (k : KickPc) : Silent b (kickListener p b m c k).1 := by
  cases k with
  | event => exact enqueueEvent_silent id _
  | hangup => exact hangupByUuid_silent
  | _ => exact .of_news rfl

theorem listenerRun_silent (k : ListenerRunPc) : Silent b (listenerRun p b m c k).1 := by
  cases k with
  | dtmf =>
    simp only [listenerRun]
    split
    · exact dispatchControl_silent _
    · exact .of_news rfl
  | tick =>
    simp only [listenerRun]
    split
    · exact .of_news rfl
    · exact enqueueEvent_silent id _
    · exact .of_news rfl
  | loop | check =>
    simp only [listenerRun]
    split_ifs <;> exact .of_news rfl
  | _ => exact .of_news rfl

theorem speakerInput_silent {k k' : InputPc} (h : speakerInput p b m c k = some (b', k')) :
    Silent b b' := by
  cases k with
  | absent | ended => cases h
  | start =>
    simp only [speakerInput] at h
    split_ifs at h <;> obtain ⟨rfl, -⟩ := Prod.mk.inj (Option.some.inj h) <;> exact .of_news rfl
  | loop =>
    simp only [speakerInput] at h
    split_ifs at h
    · split at h <;> obtain ⟨rfl, -⟩ := Prod.mk.inj (Option.some.inj h)
      · exact enqueueEvent_silent id _
      · exact enqueueEvent_silent id _
      · exact .refl b
    · obtain ⟨rfl, -⟩ := Prod.mk.inj (Option.some.inj h)
      exact .refl b
  | _ =>
    obtain ⟨rfl, -⟩ := Prod.mk.inj (Option.some.inj h)
    exact .of_news rfl

theorem speakerStopInput_news {k : StopInputPc} {x : Broadcast × Progress StopInputPc}
    (h : speakerStopInput b m k = some x) : x.1.news = b.news := by
  cases k with
  | clear =>
    obtain rfl := Option.some.inj h
    rfl
  | exchange | join =>
    simp only [speakerStopInput] at h
    split_ifs at h <;> obtain rfl := Option.some.inj h <;> rfl

theorem setSpeaker_news {new : Option ℕ} {k : SetSpeakerPc} {x : Broadcast × Progress SetSpeakerPc}
    (h : setSpeaker b new c k = some x) (hi : k ≠ .install) (hk : ∀ old, k ≠ .fire old) :
    x.1.news = b.news := by
  cases k with
  | fire old => exact absurd rfl (hk old)
  | install => exact absurd rfl hi
  | guard | role =>
    obtain ⟨m, -, rfl⟩ := Option.map_eq_some_iff.mp h
    rfl
  | audio | start =>
    obtain ⟨m, -, rfl⟩ := Option.map_eq_some_iff.mp h
    split_ifs <;> rfl
  | stop old k =>
    obtain ⟨y, hy, rfl⟩ := Option.map_eq_some_iff.mp h
    exact speakerStopInput_news hy
  | since old =>
    obtain rfl := Option.some.inj h
    rfl

def speakerEvent (b : Broadcast) : Option ℕ → EventType × ℕ
  | some m => (.speakerSet, (b.member m).id)
  | none => (.speakerClear, 0)

theorem setSpeaker_fires {new old : Option ℕ} {x : Broadcast × Progress SetSpeakerPc}
    (h : setSpeaker b new c (.fire old) = some x) :
    x.1 = { b with fired := speakerEvent b new :: b.fired } := by
  simp only [setSpeaker] at h
  split at h <;> obtain rfl := Option.some.inj h <;> cases new <;> rfl

theorem clearSpeakerIfCurrent_news {k : ClearPc} {x : Broadcast × Progress ClearPc}
    (h : clearSpeakerIfCurrent b m k = some x) (hc : k = .test → b.current_speaker ≠ some m) :
    x.1.news = b.news := by
  cases k with
  | test =>
    simp only [clearSpeakerIfCurrent, if_neg (hc rfl)] at h
    split_ifs at h
    obtain rfl := Option.some.inj h
    rfl
  | stop k =>
    obtain ⟨y, hy, hx, -⟩ := clearSpeakerIfCurrent_stop h
    rw [hx]
    exact speakerStopInput_news hy

theorem listenerAdd_silent (k : ListenerAddPc) : Silent b (listenerAdd p b m k).1 := by
  cases k with
  | link =>
    simp only [listenerAdd]
    split_ifs
    · exact .refl b
    · refine .of_news ?_
      unfold listenerLink
      split_ifs <;> rfl
  | stats =>
    simp only [listenerAdd]
    split_ifs
    · exact .refl b
    · exact enqueueEvent_after id rfl
  | _ => exact .of_news rfl

theorem listenerDel_silent : Silent b (listenerDel p b m) := by
  simp only [listenerDel]
  split_ifs
  · exact .of_news rfl
  · exact enqueueEvent_after id rfl
  · exact .refl b

theorem requestPromotion_silent (k : PromotionPc) : Silent b (requestPromotion p b m c k).1 := by
  cases k with
  | unlink =>
    simp only [requestPromotion, listenerUnlinkForPromotion]
    split_ifs <;> exact .of_news rfl
  | add k => exact listenerAdd_silent k
  | _ => exact .of_news rfl

theorem RecordWrites.silent (h : RecordWrites p b b') : Silent b b' := by
  cases h with
  | fields _ _ _ _ hb =>
    rw [hb]
    exact .of_news rfl
  | event e he consumer hb =>
    rw [hb]
    rcases he with rfl | rfl <;> exact enqueueEvent_after id rfl

theorem producerRun_silent {k k' : ProducerPc} (h : producerRun p b c k = some (b', k')) :
    Silent b b' := by
  cases k with
  | top =>
    simp only [producerRun] at h
    split_ifs at h <;> obtain ⟨rfl, -⟩ := Prod.mk.inj (Option.some.inj h)
    · exact enqueueEvent_silent id _
    all_goals exact .refl b
  | play | silence =>
    simp only [producerRun] at h
    split_ifs at h <;> obtain ⟨rfl, -⟩ := Prod.mk.inj (Option.some.inj h) <;> exact .of_news rfl
  | locked =>
    simp only [producerRun] at h
    split at h
    · obtain ⟨rfl, -⟩ := Prod.mk.inj (Option.some.inj h)
      exact .refl b
    · split_ifs at h <;> obtain ⟨rfl, -⟩ := Prod.mk.inj (Option.some.inj h) <;> exact .refl b
  | ended => cases h
  | _ =>
    obtain ⟨rfl, -⟩ := Prod.mk.inj (Option.some.inj h)
    exact .of_news rfl

theorem destroyRoom_silent {grace announcement : Bool} {k : DestroyPc}
    {x : Broadcast × Progress DestroyPc} (h : destroyRoom p grace announcement b c k = some x)
    (hk : k ≠ .slot) : Silent b x.1 := by
  cases k with
  | slot => exact absurd rfl hk
  | stopRecords k =>
    obtain ⟨y, hy, rfl⟩ := Option.map_eq_some_iff.mp h
    exact (recordStop_writes hy).silent
  | stop old k =>
    obtain ⟨y, hy, rfl⟩ := Option.map_eq_some_iff.mp h
    exact .of_news (speakerStopInput_news hy)
  | announce =>
    obtain rfl := Option.some.inj h
    simp only [startPlay]
    split_ifs <;> exact .of_news rfl
  | hangup old l =>
    cases l <;> obtain rfl := Option.some.inj h
    · exact .refl b
    · exact hangupByUuid_silent
  | joinProducer | delete | waitCount =>
    simp only [destroyRoom] at h
    split_ifs at h <;> obtain rfl := Option.some.inj h <;> exact .of_news rfl
  | grace =>
    obtain rfl := Option.some.inj h
    exact enqueueEvent_silent id _
  | fire =>
    obtain rfl := Option.some.inj h
    exact fireCriticalEvent_silent id _
  | snapshot =>
    obtain rfl := Option.some.inj h
    exact .of_news (markKicked_news _)
  | _ =>
    obtain rfl := Option.some.inj h
    exact .of_news rfl

theorem runtimeHousekeeping_silent {k k' : HousekeepingPc}
    (h : runtimeHousekeeping p b c k = some (b', k')) : Silent b b' := by
  cases k with
  | idle =>
    simp only [runtimeHousekeeping] at h
    split_ifs at h
    obtain ⟨rfl, -⟩ := Prod.mk.inj (Option.some.inj h)
    exact .of_news rfl
  | heartbeat =>
    obtain ⟨rfl, -⟩ := Prod.mk.inj (Option.some.inj h)
    split_ifs
    · exact enqueueEvent_silent id _
    · exact .refl b
  | mark =>
    simp only [runtimeHousekeeping] at h
    split at h
    · obtain ⟨rfl, -⟩ := Prod.mk.inj (Option.some.inj h)
      exact .of_news (markKicked_news _)
    · cases h
  | hangup l =>
    cases l <;> obtain ⟨rfl, -⟩ := Prod.mk.inj (Option.some.inj h)
    · exact .of_news rfl
    · exact hangupByUuid_silent

theorem joinSession_silent {j : JoinParams} {pc pc' : SessionPc}
    (h : joinSession p b j pc = some (b', pc')) : Silent b b' := by
  cases pc with
  | outside =>
    obtain ⟨y, hy, he⟩ := Option.map_eq_some_iff.mp h
    obtain ⟨rfl, -⟩ := Prod.mk.inj he
    rw [(findBroadcast_eq hy).2]
    exact .of_news rfl
  | created =>
    obtain ⟨rfl, -⟩ := Prod.mk.inj (Option.some.inj h)
    exact .of_news rfl
  | _ => cases h

/-- The place of a `broadcast_set_speaker` call is neither the installation nor the event. -/
def SetSpeakerPc.Silent : SetSpeakerPc → Prop
  | .install | .fire _ => False
  | _ => True

theorem setSpeaker_silent {new : Option ℕ} {k : SetSpeakerPc} {x : Broadcast × Progress SetSpeakerPc}
    (h : setSpeaker b new c k = some x) (hk : k.Silent) : Silent b x.1 := by
  refine .of_news (setSpeaker_news h ?_ ?_)
  · rintro rfl
    exact hk
  · rintro old rfl
    exact hk

/-- The thread stands in a call of `broadcast_set_speaker`, and not where it installs or fires. -/
def Place.Silent (x : Place) : Prop := ∀ new k, x.calls = some (new, k) → k.Silent

theorem appFunction_silent {pc pc' : SessionPc} (h : appFunction p b m c pc = some (b', pc'))
    (hk : (Place.session m pc).Silent) (hc : pc = .clear .test → b.current_speaker ≠ some m) :
    Silent b b' := by
  cases pc with
  | outside | created | returned => cases h
  | record j k =>
    obtain ⟨rfl, -⟩ := Prod.mk.inj (Option.some.inj h)
    exact (recordStart_writes _ k).silent
  | recordFailed j =>
    obtain ⟨rfl, -⟩ := Prod.mk.inj (Option.some.inj h)
    exact enqueueEvent_silent id _
  | accept j | prepare j | check =>
    simp only [appFunction] at h
    split_ifs at h <;> obtain ⟨rfl, -⟩ := Prod.mk.inj (Option.some.inj h) <;> exact .of_news rfl
  | speak promoted k =>
    obtain ⟨x, hx, he⟩ := Option.map_eq_some_iff.mp h
    obtain ⟨rfl, -⟩ := Prod.mk.inj he
    exact setSpeaker_silent hx (hk _ _ rfl)
  | wait k =>
    obtain ⟨x, hx, he⟩ := Option.map_eq_some_iff.mp h
    obtain ⟨rfl, -⟩ := Prod.mk.inj he
    cases k with
    | clear k =>
      obtain ⟨y, hy, rfl⟩ := Option.map_eq_some_iff.mp hx
      exact setSpeaker_silent hy (hk _ _ rfl)
    | dtmf =>
      simp only [speakerMainWait] at hx
      split at hx
      · split_ifs at hx
        obtain rfl := Option.some.inj hx
        exact dispatchControl_silent _
      · obtain rfl := Option.some.inj hx
        exact .refl b
    | loop =>
      simp only [speakerMainWait] at hx
      split_ifs at hx <;> obtain rfl := Option.some.inj hx <;> exact .refl b
    | _ =>
      obtain rfl := Option.some.inj hx
      exact .of_news rfl
  | add k =>
    have hadd := listenerAdd_silent (p := p) (b := b) (m := m) k
    simp only [appFunction] at h
    split at h <;> obtain ⟨rfl, -⟩ := Prod.mk.inj (Option.some.inj h)
    · exact hadd
    · exact hadd
    · exact hadd.trans (.of_news rfl)
  | listen k =>
    obtain ⟨rfl, -⟩ := Prod.mk.inj (Option.some.inj h)
    exact listenerRun_silent k
  | unlink =>
    obtain ⟨rfl, -⟩ := Prod.mk.inj (Option.some.inj h)
    exact listenerDel_silent
  | clear k =>
    obtain ⟨x, hx, he⟩ := Option.map_eq_some_iff.mp h
    obtain ⟨rfl, -⟩ := Prod.mk.inj he
    refine .of_news (clearSpeakerIfCurrent_news hx ?_)
    rintro rfl
    exact hc rfl
  | _ =>
    obtain ⟨rfl, -⟩ := Prod.mk.inj (Option.some.inj h)
    exact .of_news rfl

theorem apiDispatch_silent {pc pc' : ApiPc} (h : apiDispatch p b c pc = some (b', pc'))
    (hk : (Place.api pc).Silent) (hf : ∀ f, pc ≠ .flagEvent f)
    (hd : ∀ g f, pc ≠ .destroy g f .slot) : Silent b b' := by
  cases pc with
  | idle => cases h
  | flagEvent f => exact absurd rfl (hf f)
  | start k =>
    obtain ⟨rfl, -⟩ := Prod.mk.inj (Option.some.inj h)
    cases k with
    | flag f => cases f <;> exact .of_news rfl
    | kickAll => exact kickAllMark_silent _
    | play =>
      simp only [startPlay]
      split_ifs <;> exact .of_news rfl
    | _ => exact .of_news rfl
  | promote x m k =>
    obtain ⟨rfl, -⟩ := Prod.mk.inj (Option.some.inj h)
    exact requestPromotion_silent k
  | kick x m k =>
    obtain ⟨rfl, -⟩ := Prod.mk.inj (Option.some.inj h)
    exact kickListener_silent k
  | clearSpeaker k =>
    obtain ⟨x, hx, he⟩ := Option.map_eq_some_iff.mp h
    obtain ⟨rfl, -⟩ := Prod.mk.inj he
    exact setSpeaker_silent hx (hk _ _ rfl)
  | kickAll l =>
    cases l <;> obtain ⟨rfl, -⟩ := Prod.mk.inj (Option.some.inj h)
    · exact .refl b
    · exact hangupByUuid_silent
  | record target k =>
    obtain ⟨rfl, -⟩ := Prod.mk.inj (Option.some.inj h)
    exact (recordStart_writes _ k).silent
  | norecord k =>
    obtain ⟨x, hx, he⟩ := Option.map_eq_some_iff.mp h
    obtain ⟨rfl, -⟩ := Prod.mk.inj he
    exact (recordStop_writes hx).silent
  | destroy g f k =>
    obtain ⟨x, hx, he⟩ := Option.map_eq_some_iff.mp h
    obtain ⟨rfl, -⟩ := Prod.mk.inj he
    refine destroyRoom_silent hx ?_
    rintro rfl
    exact hd g f rfl
  | _ =>
    obtain ⟨rfl, -⟩ := Prod.mk.inj (Option.some.inj h)
    exact .of_news rfl

end ModBroadcast
