import ModBroadcast.RoomSlot

namespace ModBroadcast

variable {p : RoomProfile} {b b' : Broadcast} {c : Choice} {m n : ℕ} {s t : Room} {a : RoomAction}

/-- The place of the input thread of every member and whether its pointer is set. -/
def Broadcast.inputs (b : Broadcast) (n : ℕ) : InputPc × Bool :=
  ((b.member n).input, (b.member n).input_thread)

/-- What happens to the input threads; `start` tells whose session is about to start
its thread. -/
inductive InputsChange (start : ℕ → Prop) (b b' : Broadcast) : Prop
  | keep (h : b'.inputs = b.inputs)
  | reset (m : ℕ) (h : b'.inputs = Function.update b.inputs m (.absent, false))
  | start (m : ℕ) (hm : start m) (h : b'.inputs = Function.update b.inputs m (.start, true))
  | exchange (m : ℕ) (hm : (b.inputs m).2 = true)
      (h : b'.inputs = Function.update b.inputs m ((b.inputs m).1, false))
  | run (m : ℕ) (k : InputPc) (hk : k ≠ .start) (hm : (b.inputs m).1 ≠ .absent ∧ (b.inputs m).1 ≠ .ended)
      (h : b'.inputs = Function.update b.inputs m (k, (b.inputs m).2))

theorem InputsChange.mono {start start' : ℕ → Prop} (h : InputsChange start b b')
    (hs : ∀ n, start n → start' n) : InputsChange start' b b' := by
  cases h with
  | keep h => exact .keep h
  | reset m h => exact .reset m h
  | start m hm h => exact .start m (hs m hm) h
  | exchange m hm h => exact .exchange m hm h
  | run m k hk hm h => exact .run m k hk hm h

/-- An input thread that is new has been started by its session. -/
theorem InputsChange.starts {start : ℕ → Prop} (h : InputsChange start b b')
    (hm : (b'.inputs m).1 = .start) : (b.inputs m).1 = .start ∨ start m := by
  cases h with
  | keep h => exact .inl (h ▸ hm)
  | reset n h =>
    by_cases hmn : m = n
    · subst hmn
      simp [h] at hm
    · rw [h, Function.update_of_ne hmn] at hm
      exact .inl hm
  | start n hn h =>
    by_cases hmn : m = n
    · subst hmn
      exact .inr hn
    · rw [h, Function.update_of_ne hmn] at hm
      exact .inl hm
  | exchange n hn h =>
    by_cases hmn : m = n
    · subst hmn
      rw [h, Function.update_self] at hm
      exact .inl hm
    · rw [h, Function.update_of_ne hmn] at hm
      exact .inl hm
  | run n k hk hn h =>
    by_cases hmn : m = n
    · subst hmn
      rw [h, Function.update_self] at hm
      exact absurd hm hk
    · rw [h, Function.update_of_ne hmn] at hm
      exact .inl hm

theorem inputs_of_people (h : b'.people = b.people) : b'.inputs = b.inputs := by
  have hi : b'.people.inputs = b.people.inputs := by rw [h]
  exact hi

theorem modify_inputs {f : Member → Member} {v : InputPc × Bool}
    (hf : ((f (b.member m)).input, (f (b.member m)).input_thread) = v) :
    (b.modify m f).inputs = Function.update b.inputs m v := by
  funext n
  by_cases hn : n = m
  · subst hn
    simp only [Broadcast.inputs, Broadcast.modify, Function.update_self]
    exact hf
  · simp [Broadcast.inputs, Broadcast.modify, hn]

theorem modify_inputs_same {f : Member → Member}
    (hf : ((f (b.member m)).input, (f (b.member m)).input_thread) = b.inputs m) :
    (b.modify m f).inputs = b.inputs := by
  rw [modify_inputs hf, Function.update_eq_self]

theorem speakerStopInput_inputs {k : StopInputPc} {x : Broadcast × Progress StopInputPc}
    (h : speakerStopInput b m k = some x) : InputsChange (fun _ => False) b x.1 := by
  cases k with
  | exchange =>
    simp only [speakerStopInput] at h
    split_ifs at h with hm <;> obtain rfl := Option.some.inj h
    · dsimp only
      exact .exchange m hm (modify_inputs rfl)
    · exact .keep rfl
  | clear | join =>
    exact .keep (inputs_of_people (people_of_core (speakerStopInput_core h (by simp))))

theorem setSpeaker_inputs {new : Option ℕ} {k : SetSpeakerPc}
    {x : Broadcast × Progress SetSpeakerPc} (h : setSpeaker b new c k = some x) :
    InputsChange (fun n => new = some n ∧ k = .start) b x.1 := by
  cases k with
  | start =>
    obtain ⟨m, rfl, rfl⟩ := Option.map_eq_some_iff.mp h
    split_ifs
    · exact .keep rfl
    · dsimp only
      exact .keep (modify_inputs_same rfl)
    · dsimp only
      exact .start m ⟨rfl, rfl⟩ (modify_inputs rfl)
  | install =>
    obtain ⟨-, ⟨-, rfl⟩ | ⟨-, rfl⟩⟩ := setSpeaker_install h
    · exact .keep rfl
    · cases new with
      | none => exact .keep rfl
      | some m =>
        dsimp only [installSpeaker]
        exact .keep ((modify_inputs_same rfl).trans rfl)
  | stop old k =>
    obtain ⟨y, hy, rfl⟩ := Option.map_eq_some_iff.mp h
    exact (speakerStopInput_inputs hy).mono fun _ => False.elim
  | _ => exact .keep (inputs_of_people (people_of_core (setSpeaker_core h trivial)))

theorem clearSpeakerIfCurrent_inputs {k : ClearPc} {x : Broadcast × Progress ClearPc}
    (h : clearSpeakerIfCurrent b m k = some x) : InputsChange (fun _ => False) b x.1 := by
  cases k with
  | test =>
    simp only [clearSpeakerIfCurrent] at h
    split_ifs at h <;> obtain rfl := Option.some.inj h <;> exact .keep rfl
  | stop k =>
    obtain ⟨y, hy, hx, -⟩ := clearSpeakerIfCurrent_stop h
    rw [hx]
    exact speakerStopInput_inputs hy

theorem destroyRoom_inputs {grace announcement : Bool} {k : DestroyPc}
    {x : Broadcast × Progress DestroyPc} (h : destroyRoom p grace announcement b c k = some x) :
    InputsChange (fun _ => False) b x.1 := by
  by_cases hk : k.Peopled
  · cases k with
    | slot =>
      simp only [destroyRoom] at h
      split_ifs at h
      obtain rfl := Option.some.inj h
      exact .keep rfl
    | stop old k =>
      obtain ⟨y, hy, rfl⟩ := Option.map_eq_some_iff.mp h
      exact speakerStopInput_inputs hy
    | _ => exact absurd hk id
  · exact .keep (inputs_of_people (destroyRoom_people h hk))

theorem speakerInput_inputs {k k' : InputPc} (h : speakerInput p b m c k = some (b', k')) :
    k' ≠ .start ∧ k ≠ .absent ∧ k ≠ .ended ∧ b'.inputs = b.inputs := by
  cases k with
  | absent | ended => cases h
  | start =>
    simp only [speakerInput] at h
    split_ifs at h <;> obtain ⟨rfl, rfl⟩ := Prod.mk.inj (Option.some.inj h)
    · exact ⟨by simp, by simp, by simp, modify_inputs_same rfl⟩
    · exact ⟨by simp, by simp, by simp, rfl⟩
  | loop =>
    simp only [speakerInput] at h
    split_ifs at h
    · split at h <;> obtain ⟨rfl, rfl⟩ := Prod.mk.inj (Option.some.inj h)
      · exact ⟨by simp, by simp, by simp, inputs_of_people (enqueueEvent_people ..)⟩
      · exact ⟨by simp, by simp, by simp, inputs_of_people (enqueueEvent_people ..)⟩
      · exact ⟨by simp, by simp, by simp, rfl⟩
    · obtain ⟨rfl, rfl⟩ := Prod.mk.inj (Option.some.inj h)
      exact ⟨by simp, by simp, by simp, rfl⟩
  | pinned | unflag | stop =>
    obtain ⟨rfl, rfl⟩ := Prod.mk.inj (Option.some.inj h)
    exact ⟨by simp, by simp, by simp, modify_inputs_same rfl⟩
  | unpin =>
    obtain ⟨rfl, rfl⟩ := Prod.mk.inj (Option.some.inj h)
    exact ⟨by simp, by simp, by simp, rfl⟩

theorem producerRun_inputs {k k' : ProducerPc} (h : producerRun p b c k = some (b', k')) :
    b'.inputs = b.inputs := by
  have hi : { b'.people with speaker_reader := b.speaker_reader }.inputs = b.people.inputs := by
    rw [producerRun_people h]
  exact hi

theorem listenerLink_inputs : (listenerLink b m).inputs = b.inputs := by
  funext n
  unfold Broadcast.inputs
  rw [listenerLink_member]
  by_cases hn : n = m
  · subst hn
    simp
  · simp [hn]

theorem listenerDel_inputs : (listenerDel p b m).inputs = b.inputs := by
  have hcore := listenerDel_core (p := p) (b := b) (m := m)
  split_ifs at hcore
  · exact (inputs_of_people (people_of_core hcore)).trans rfl
  · exact inputs_of_people (people_of_core hcore)

theorem appFunction_inputs {pc pc' : SessionPc} (h : appFunction p b m c pc = some (b', pc')) :
    InputsChange (fun n => n = m ∧ ∃ promoted, pc = .speak promoted .start) b b' := by
  by_cases hp : pc.Peopled
  · cases pc with
    | prepare j =>
      simp only [appFunction] at h
      split_ifs at h <;> obtain ⟨rfl, -⟩ := Prod.mk.inj (Option.some.inj h)
      · exact .keep rfl
      all_goals exact .reset m (modify_inputs rfl)
    | nextId =>
      obtain ⟨rfl, -⟩ := Prod.mk.inj (Option.some.inj h)
      exact .keep (modify_inputs_same (b := (memberNextId b).1) rfl)
    | add k =>
      cases k with
      | link =>
        simp only [appFunction, listenerAdd] at h
        split_ifs at h <;> obtain ⟨rfl, -⟩ := Prod.mk.inj (Option.some.inj h)
        · exact .keep (inputs_of_people (people_of_core hangup_core))
        · exact .keep listenerLink_inputs
      | _ => exact absurd hp id
    | clearFlag =>
      obtain ⟨rfl, -⟩ := Prod.mk.inj (Option.some.inj h)
      exact .keep (modify_inputs_same (b := b) rfl)
    | unlink =>
      obtain ⟨rfl, -⟩ := Prod.mk.inj (Option.some.inj h)
      exact .keep listenerDel_inputs
    | speak promoted k =>
      obtain ⟨x, hx, he⟩ := Option.map_eq_some_iff.mp h
      obtain ⟨rfl, -⟩ := Prod.mk.inj he
      exact (setSpeaker_inputs hx).mono fun n hn =>
        ⟨(Option.some.inj hn.1).symm, promoted, by rw [hn.2]⟩
    | wait k =>
      cases k with
      | clear k =>
        obtain ⟨x, hx, he⟩ := Option.map_eq_some_iff.mp h
        obtain ⟨rfl, -⟩ := Prod.mk.inj he
        obtain ⟨y, hy, rfl⟩ := Option.map_eq_some_iff.mp hx
        exact (setSpeaker_inputs hy).mono fun n hn => by cases hn.1
      | _ => exact absurd hp id
    | clear k =>
      obtain ⟨x, hx, he⟩ := Option.map_eq_some_iff.mp h
      obtain ⟨rfl, -⟩ := Prod.mk.inj he
      exact (clearSpeakerIfCurrent_inputs hx).mono fun _ => False.elim
    | _ => exact absurd hp id
  · exact .keep (inputs_of_people (appFunction_people h hp))

theorem requestPromotion_inputs {k : PromotionPc} :
    (requestPromotion p b m c k).1.inputs = b.inputs := by
  cases k with
  | unlink =>
    dsimp only [requestPromotion, listenerUnlinkForPromotion]
    split_ifs <;> rfl
  | raise | drop | lower =>
    dsimp only [requestPromotion, Broadcast.modifyFlags]
    exact modify_inputs_same rfl
  | bridge | poll | recheck => rfl
  | add k =>
    by_cases hk : k = .link
    · subst hk
      dsimp only [requestPromotion, listenerAdd]
      split_ifs
      · rfl
      · exact listenerLink_inputs
    · exact inputs_of_people (people_of_core (listenerAdd_core hk))

theorem apiDispatch_inputs {pc pc' : ApiPc} (h : apiDispatch p b c pc = some (b', pc')) :
    InputsChange (fun _ => False) b b' := by
  by_cases hp : pc.Peopled
  · cases pc with
    | promote x m k =>
      obtain ⟨rfl, -⟩ := Prod.mk.inj (Option.some.inj h)
      exact .keep requestPromotion_inputs
    | clearSpeaker k =>
      obtain ⟨x, hx, he⟩ := Option.map_eq_some_iff.mp h
      obtain ⟨rfl, -⟩ := Prod.mk.inj he
      exact (setSpeaker_inputs hx).mono fun n hn => by cases hn.1
    | destroy grace announcement k =>
      obtain ⟨x, hx, he⟩ := Option.map_eq_some_iff.mp h
      obtain ⟨rfl, -⟩ := Prod.mk.inj he
      exact destroyRoom_inputs hx
    | _ => exact absurd hp id
  · exact .keep (inputs_of_people (apiDispatch_people h hp))

def Room.StartsInput (s : Room) (a : RoomAction) (m : ℕ) : Prop :=
  ∃ c promoted, a = .session m c ∧ s.session m = .speak promoted .start

theorem roomStep_inputs (hs : roomStep p s a = some t) :
    InputsChange (s.StartsInput a) s.b t.b := by
  cases roomStep_people hs with
  | session h =>
    refine (appFunction_inputs h).mono ?_
    rintro n ⟨rfl, promoted, hpc⟩
    exact ⟨_, promoted, rfl, hpc⟩
  | api h => exact (apiDispatch_inputs h).mono fun _ => False.elim
  | @input m _ b₁ k' h hb =>
    obtain ⟨hk', habsent, hended, hsame⟩ := speakerInput_inputs h
    refine .run m k' hk' ⟨habsent, hended⟩ ?_
    rw [hb, modify_inputs (v := (k', (s.b.inputs m).2)), hsame]
    rw [← hsame]
    rfl
  | producer h => exact .keep (producerRun_inputs h)
  | keep h => exact .keep (inputs_of_people h)

end ModBroadcast
