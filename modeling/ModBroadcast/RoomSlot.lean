import ModBroadcast.People

namespace ModBroadcast

open Automaton

variable {p : RoomProfile} {b b' : Broadcast} {c : Choice} {m n : ℕ} {s t : Room} {a : RoomAction}
  {h : List (Room × RoomAction)}

def SetSpeakerPc.Published : SetSpeakerPc → Prop
  | .guard | .audio | .role | .start => False
  | _ => True

/-- The places from the installation of the member to the last test of the slot. -/
def SessionPc.Published : SessionPc → Prop
  | .speak _ k => k.Published
  | .wait _ | .lower | .exitVariables | .clear .test => True
  | _ => False

def ProducerPc.Inside : ProducerPc → Prop
  | .locked .. | .reading _ | .leave _ => True
  | _ => False

/-- The member whose `audio_buffer` and `audio_in_mutex` the producer looks at. -/
def ProducerPc.speaker : ProducerPc → Option ℕ
  | .locked _ _ spk => spk
  | .reading m => some m
  | _ => none

/-- What a thread that may publish the members in `own` does to the slot. -/
inductive SlotChange (own : ℕ → Prop) (b b' : Broadcast) : Prop
  | keep (h : b'.slot = b.slot)
  | publish (m : ℕ) (ho : own m) (hr : b.speaker_reader = false) (h : b'.slot = (some m, false))
  | clear (hr : b.speaker_reader = false) (h : b'.slot = (none, false))

theorem slot_of_apart (h : b'.apart = b.apart) : b'.slot = b.slot := by
  have hs : b'.apart.slot = b.apart.slot := by rw [h]
  exact hs

theorem slot_of_core (h : b'.core = b.core) : b'.slot = b.slot :=
  slot_of_apart (apart_of_core h)

@[simp] theorem installSpeaker_slot (new : Option ℕ) :
    (installSpeaker b new).slot = (new, b.speaker_reader) := by
  cases new <;> rfl

theorem setSpeaker_slot {new : Option ℕ} {k : SetSpeakerPc}
    {x : Broadcast × Progress SetSpeakerPc} (h : setSpeaker b new c k = some x) :
    SlotChange (fun n => new = some n ∧ k = .install) b x.1 := by
  by_cases hk : k = .install
  · subst hk
    obtain ⟨hr, ⟨-, rfl⟩ | ⟨-, rfl⟩⟩ := setSpeaker_install h
    · exact .keep rfl
    · cases new with
      | none => exact .clear hr (by simp [hr])
      | some m => exact .publish m ⟨rfl, rfl⟩ hr (by simp [hr])
  · exact .keep (slot_of_apart (apart_of_listed (setSpeaker_listed h hk)))

theorem clearSpeakerIfCurrent_slot {k : ClearPc} {x : Broadcast × Progress ClearPc}
    (h : clearSpeakerIfCurrent b m k = some x) : SlotChange (fun _ => False) b x.1 := by
  cases k with
  | test =>
    simp only [clearSpeakerIfCurrent] at h
    split_ifs at h with hr hc <;> obtain rfl := Option.some.inj h
    · have hr : b.speaker_reader = false := by simpa using hr
      exact .clear hr (by rw [Broadcast.slot, hr])
    · exact .keep rfl
  | stop k =>
    obtain ⟨y, hy, hx, -⟩ := clearSpeakerIfCurrent_stop h
    rw [hx]
    exact .keep (slot_of_apart (apart_of_listed (speakerStopInput_listed hy)))

theorem destroyRoom_slot {grace announcement : Bool} {k : DestroyPc}
    {x : Broadcast × Progress DestroyPc} (h : destroyRoom p grace announcement b c k = some x) :
    SlotChange (fun _ => False) b x.1 := by
  by_cases hk : k.Peopled
  · cases k with
    | slot =>
      simp only [destroyRoom] at h
      split_ifs at h with hr
      obtain rfl := Option.some.inj h
      have hr : b.speaker_reader = false := by simpa using hr
      exact .clear hr (by rw [Broadcast.slot, hr])
    | stop old k =>
      obtain ⟨y, hy, rfl⟩ := Option.map_eq_some_iff.mp h
      exact .keep (slot_of_apart (apart_of_listed (speakerStopInput_listed hy)))
    | _ => exact absurd hk id
  · exact .keep (slot_of_people (destroyRoom_people h hk))

theorem setSpeaker_published {new : Option ℕ} {k : SetSpeakerPc}
    {x : Broadcast × Progress SetSpeakerPc} (h : setSpeaker b new c k = some x)
    (hk : k.Published) : (∃ k', k'.Published ∧ x.2 = .run k') ∨ x.2 = .ret true := by
  cases k with
  | guard | audio | role | start => exact absurd hk id
  | install =>
    obtain ⟨-, ⟨-, rfl⟩ | ⟨-, rfl⟩⟩ := setSpeaker_install h
    · exact .inr rfl
    · exact .inl ⟨.fire _, trivial, rfl⟩
  | fire old =>
    cases old with
    | none =>
      obtain rfl := Option.some.inj h
      exact .inr rfl
    | some o =>
      obtain rfl := Option.some.inj h
      exact .inl ⟨.stop o .clear, trivial, rfl⟩
  | stop old k =>
    obtain ⟨y, -, rfl⟩ := Option.map_eq_some_iff.mp h
    obtain ⟨y₁, k' | ok⟩ := y
    · exact .inl ⟨.stop old k', trivial, rfl⟩
    · exact .inl ⟨.since old, trivial, rfl⟩
  | since old =>
    obtain rfl := Option.some.inj h
    exact .inr rfl

theorem SlotChange.mono {own own' : ℕ → Prop} (hs : SlotChange own b b')
    (ho : ∀ n, own n → own' n) : SlotChange own' b b' := by
  cases hs with
  | keep h => exact .keep h
  | publish n hn hr h => exact .publish n (ho n hn) hr h
  | clear hr h => exact .clear hr h

theorem appFunction_slot {pc pc' : SessionPc} (h : appFunction p b m c pc = some (b', pc')) :
    SlotChange (fun n => n = m ∧ ∃ promoted, pc = .speak promoted .install) b b' := by
  by_cases hp : pc.Peopled
  · cases pc with
    | speak promoted k =>
      obtain ⟨x, hx, he⟩ := Option.map_eq_some_iff.mp h
      obtain ⟨rfl, -⟩ := Prod.mk.inj he
      exact (setSpeaker_slot hx).mono fun n hn =>
        ⟨(Option.some.inj hn.1).symm, promoted, by rw [hn.2]⟩
    | wait k =>
      cases k with
      | clear k =>
        obtain ⟨x, hx, he⟩ := Option.map_eq_some_iff.mp h
        obtain ⟨rfl, -⟩ := Prod.mk.inj he
        obtain ⟨y, hy, rfl⟩ := Option.map_eq_some_iff.mp hx
        exact (setSpeaker_slot hy).mono fun n hn => by cases hn.1
      | _ => exact absurd hp id
    | add k =>
      refine .keep (slot_of_apart ?_)
      simp only [appFunction] at h
      split at h <;> obtain ⟨rfl, -⟩ := Prod.mk.inj (Option.some.inj h)
      · exact listenerAdd_apart k
      · exact listenerAdd_apart k
      · rw [apart_of_core hangup_core, listenerAdd_apart]
    | clear k =>
      obtain ⟨x, hx, he⟩ := Option.map_eq_some_iff.mp h
      obtain ⟨rfl, -⟩ := Prod.mk.inj he
      exact (clearSpeakerIfCurrent_slot hx).mono fun _ => False.elim
    | unlink =>
      obtain ⟨rfl, -⟩ := Prod.mk.inj (Option.some.inj h)
      exact .keep (slot_of_apart listenerDel_apart)
    | prepare j =>
      simp only [appFunction] at h
      split_ifs at h <;> obtain ⟨rfl, -⟩ := Prod.mk.inj (Option.some.inj h) <;> exact .keep rfl
    | nextId | clearFlag =>
      obtain ⟨rfl, -⟩ := Prod.mk.inj (Option.some.inj h)
      exact .keep rfl
    | _ => exact absurd hp id
  · exact .keep (slot_of_people (appFunction_people h hp))

/-- A session that still has to look at the slot looks at it before it returns. -/
theorem appFunction_published {pc pc' : SessionPc} (h : appFunction p b m c pc = some (b', pc'))
    (hp : pc.Published) (hm : b'.current_speaker = some m) : pc'.Published := by
  cases pc with
  | speak promoted k =>
    obtain ⟨x, hx, he⟩ := Option.map_eq_some_iff.mp h
    obtain ⟨-, rfl⟩ := Prod.mk.inj he
    obtain ⟨k', hk', hk⟩ | hk := setSpeaker_published hx hp <;> rw [hk]
    · exact hk'
    · trivial
  | wait k =>
    obtain ⟨x, hx, he⟩ := Option.map_eq_some_iff.mp h
    obtain ⟨-, rfl⟩ := Prod.mk.inj he
    rcases x.2 <;> trivial
  | lower | exitVariables =>
    obtain ⟨-, rfl⟩ := Prod.mk.inj (Option.some.inj h)
    trivial
  | clear k =>
    cases k with
    | stop k => exact absurd hp id
    | test =>
      obtain ⟨x, hx, he⟩ := Option.map_eq_some_iff.mp h
      obtain ⟨rfl, -⟩ := Prod.mk.inj he
      simp only [clearSpeakerIfCurrent] at hx
      split_ifs at hx with hr hc <;> obtain rfl := Option.some.inj hx
      · cases hm
      · exact absurd hm hc
  | _ => exact absurd hp id

theorem apiDispatch_slot {pc pc' : ApiPc} (h : apiDispatch p b c pc = some (b', pc')) :
    SlotChange (fun _ => False) b b' := by
  by_cases hp : pc.Peopled
  · cases pc with
    | promote s m k =>
      obtain ⟨rfl, -⟩ := Prod.mk.inj (Option.some.inj h)
      exact .keep (slot_of_apart (requestPromotion_apart k))
    | clearSpeaker k =>
      obtain ⟨x, hx, he⟩ := Option.map_eq_some_iff.mp h
      obtain ⟨rfl, -⟩ := Prod.mk.inj he
      exact (setSpeaker_slot hx).mono fun n hn => by cases hn.1
    | destroy grace announcement k =>
      obtain ⟨x, hx, he⟩ := Option.map_eq_some_iff.mp h
      obtain ⟨rfl, -⟩ := Prod.mk.inj he
      exact destroyRoom_slot hx
    | _ => exact absurd hp id
  · exact .keep (slot_of_people (apiDispatch_people h hp))

def ProducerPc.Fits (k : ProducerPc) (b : Broadcast) : Prop :=
  (k.Inside → b.speaker_reader = true) ∧ ∀ m, k.speaker = some m → b.current_speaker = some m

theorem producerRun_slot {k k' : ProducerPc} (h : producerRun p b c k = some (b', k')) :
    b'.current_speaker = b.current_speaker ∧ (k.Fits b → k'.Fits b') := by
  have outside : ∀ {k k' : ProducerPc} {b b' : Broadcast}, ¬ k'.Inside → k'.speaker = none →
      (k.Fits b → k'.Fits b') :=
    fun hi hn _ => ⟨fun h => absurd h hi, fun m hm => by simp [hn] at hm⟩
  cases k with
  | top =>
    simp only [producerRun] at h
    split_ifs at h <;> obtain ⟨rfl, rfl⟩ := Prod.mk.inj (Option.some.inj h)
    · exact ⟨congrArg Prod.fst (slot_of_core (enqueueEvent_core ..)), outside id rfl⟩
    all_goals exact ⟨rfl, outside id rfl⟩
  | play | silence =>
    simp only [producerRun] at h
    split_ifs at h <;> obtain ⟨rfl, rfl⟩ := Prod.mk.inj (Option.some.inj h) <;>
      exact ⟨rfl, outside id rfl⟩
  | enter got paused =>
    obtain ⟨rfl, rfl⟩ := Prod.mk.inj (Option.some.inj h)
    exact ⟨rfl, fun _ => ⟨fun _ => rfl, fun m hm => hm⟩⟩
  | locked got paused spk =>
    simp only [producerRun] at h
    split at h
    · obtain ⟨rfl, rfl⟩ := Prod.mk.inj (Option.some.inj h)
      exact ⟨rfl, fun hk => ⟨fun _ => hk.1 trivial, fun m hm => by cases hm⟩⟩
    · split_ifs at h <;> obtain ⟨rfl, rfl⟩ := Prod.mk.inj (Option.some.inj h)
      · exact ⟨rfl, fun hk => ⟨fun _ => hk.1 trivial, fun m hm => hk.2 m hm⟩⟩
      · exact ⟨rfl, fun hk => ⟨fun _ => hk.1 trivial, fun m hm => by cases hm⟩⟩
  | reading n =>
    obtain ⟨rfl, rfl⟩ := Prod.mk.inj (Option.some.inj h)
    exact ⟨rfl, fun hk => ⟨fun _ => hk.1 trivial, fun m hm => by cases hm⟩⟩
  | init | leave =>
    simp only [producerRun] at h
    obtain ⟨rfl, rfl⟩ := Prod.mk.inj (Option.some.inj h)
    split_ifs <;> exact ⟨rfl, outside id rfl⟩
  | ended => cases h
  | _ =>
    obtain ⟨rfl, rfl⟩ := Prod.mk.inj (Option.some.inj h)
    exact ⟨rfl, outside id rfl⟩

/-- Nobody replaces the speaker while the producer is inside the lock. -/
theorem ProducerPc.Fits.change {own : ℕ → Prop} {k : ProducerPc} (hk : k.Fits b)
    (hs : SlotChange own b b') : k.Fits b' := by
  have hin : ∀ {m}, k.speaker = some m → k.Inside := by
    intro m hm
    cases k <;> simp_all [ProducerPc.speaker, ProducerPc.Inside]
  -- whoever stores into the slot has waited for the producer to be outside
  have away : b.speaker_reader = false → k.Fits b' := fun hr =>
    ⟨fun hi => by simp [hk.1 hi] at hr, fun m hm => by simp [hk.1 (hin hm)] at hr⟩
  cases hs with
  | keep h =>
    obtain ⟨hc, hr⟩ := Prod.mk.inj h
    exact ⟨fun hi => hr.trans (hk.1 hi), fun m hm => hc.trans (hk.2 m hm)⟩
  | publish n hn hr h => exact away hr
  | clear hr h => exact away hr

def Room.Publishes (s : Room) (a : RoomAction) (m : ℕ) : Prop :=
  ∃ c promoted, a = .session m c ∧ s.session m = .speak promoted .install

theorem roomStep_slot (hs : roomStep p s a = some t) (ha : ∀ c, a ≠ .producer c) :
    SlotChange (s.Publishes a) s.b t.b := by
  cases roomStep_people hs with
  | session h =>
    refine (appFunction_slot h).mono ?_
    rintro n ⟨rfl, promoted, hpc⟩
    exact ⟨_, promoted, rfl, hpc⟩
  | api h => exact (apiDispatch_slot h).mono fun _ => False.elim
  | input h hb =>
    have hslot := slot_of_apart (apart_of_listed (speakerInput_listed h))
    exact .keep (by rw [hb, ← hslot]; rfl)
  | producer h => exact absurd rfl (ha _)
  | keep h => exact .keep (slot_of_people h)

/-- A member that is in the slot was there before or has just been stored. -/
theorem roomStep_current (hs : roomStep p s a = some t) (hm : t.b.current_speaker = some m) :
    s.b.current_speaker = some m ∨ s.Publishes a m := by
  by_cases ha : ∃ c, a = .producer c
  · obtain ⟨c, rfl⟩ := ha
    obtain ⟨x, hx, rfl⟩ := Option.map_eq_some_iff.mp hs
    exact .inl ((producerRun_slot hx).1 ▸ hm)
  · cases roomStep_slot hs fun c hc => ha ⟨c, hc⟩ with
    | keep h => exact .inl ((congrArg Prod.fst h).symm.trans hm)
    | publish n hn hr h =>
      obtain rfl : n = m := Option.some.inj ((congrArg Prod.fst h).symm.trans hm)
      exact .inr hn
    | clear hr h => exact nomatch (congrArg Prod.fst h).symm.trans hm

/-- The slot, the places of the sessions and the producer agree. -/
structure Room.SlotSound (s : Room) : Prop where
  published : ∀ m, s.b.current_speaker = some m → (s.session m).Published
  producer : s.producer.Fits s.b

theorem Room.SlotSound.init : Room.init.SlotSound where
  published m hm := by cases hm
  producer := ⟨False.elim, fun m hm => by cases hm⟩

theorem Room.SlotSound.step (hi : s.SlotSound) (hs : roomStep p s a = some t) : t.SlotSound where
  published m hm := by
    -- a member that has just been stored is stored by its own session
    have before : (s.session m).Published := by
      rcases roomStep_current hs hm with h | ⟨c, promoted, -, h⟩
      · exact hi.published m h
      · rw [h]
        trivial
    rcases roomStep_session hs m with h | ⟨c, -, h⟩ | ⟨j, -, h⟩
    · rwa [h]
    · exact appFunction_published h before hm
    · cases hpc : s.session m <;> simp [hpc, joinSession, SessionPc.Published] at h before
  producer := by
    rcases roomStep_producer hs with h | ⟨c, rfl, h⟩
    · rw [h]
      by_cases ha : ∃ c, a = .producer c
      · obtain ⟨c, rfl⟩ := ha
        obtain ⟨x, hx, rfl⟩ := Option.map_eq_some_iff.mp hs
        have hfit := (producerRun_slot hx).2 hi.producer
        rwa [show x.2 = s.producer from h] at hfit
      · exact hi.producer.change (roomStep_slot hs fun c hc => ha ⟨c, hc⟩)
    · exact (producerRun_slot h).2 hi.producer

theorem slotSound_of_run (hr : Run (roomStep p) Room.init h s) : s.SlotSound :=
  hr.invariant (g := fun _ _ => True) (fun _ _ _ hi _ hs => hi.step hs) (fun _ _ => trivial) .init

/-- The step stores no member but the one whose session takes it. -/
def StoresOwn (p : RoomProfile) (s : Room) (a : RoomAction) : Prop :=
  ∀ t m, roomStep p s a = some t → t.b.current_speaker = some m →
    s.b.current_speaker = some m ∨ ∃ c, a = .session m c

/-- If the step is one of the producer on the audio of a member, its call has not
returned. -/
def ReadsLiving (s : Room) (a : RoomAction) : Prop :=
  ∀ c m, a = .producer c → s.producer.speaker = some m → s.session m ≠ .returned

theorem Room.SlotSound.not_returned (hi : s.SlotSound) (hm : s.b.current_speaker = some m) :
    s.session m ≠ .returned := by
  intro hret
  have hp := hi.published m hm
  rw [hret] at hp
  exact hp

/-- A member is stored in `current_speaker` by its own session, is not there any more
when its call has returned, and has its audio read only before. -/
theorem speaker_slot_lifetime (hr : Run (roomStep p) Room.init h s) :
    Meets (fun s a => StoresOwn p s a ∧ ReadsLiving s a) h ∧
      ∀ m, s.session m = .returned → s.b.current_speaker ≠ some m := by
  have always : Meets (fun _ _ => True) h := fun _ _ => trivial
  constructor
  · refine hr.meets_of_invariant (I := Room.SlotSound) (fun _ _ _ hi _ hs => hi.step hs) ?_ always .init
    intro s a t hi _ hs
    refine ⟨fun u m hu hm => ?_, fun c m ha hspk => hi.not_returned (hi.producer.2 m hspk)⟩
    exact (roomStep_current hu hm).imp_right fun ⟨c, _, ha, _⟩ => ⟨c, ha⟩
  · intro m hret hm
    exact (slotSound_of_run hr).not_returned hm hret

/-- A speaker that joins, is read by the producer, hangs up and returns. -/
theorem speaker_slot_lifetime_returned : ∃ (h : List (Room × RoomAction)) (s : Room),
    Run (roomStep ⟨8, false, 16, false, false⟩) Room.init h s ∧
      (∃ x ∈ h, x.2 = .producer .ok ∧ x.1.producer.speaker = some 0) ∧ s.session 0 = .returned ∧
      Meets (fun s a => StoresOwn ⟨8, false, 16, false, false⟩ s a ∧ ReadsLiving s a) h ∧
      s.b.current_speaker ≠ some 0 := by
  obtain ⟨h, s, hr, -, hv⟩ := exists_run_observing (roomStep ⟨8, false, 16, false, false⟩)
    (fun _ _ => true) Room.init
    (List.flatten [[.join 0 ⟨.speaker, false, false⟩], List.replicate 10 (.session 0 .ok),
      List.replicate 8 (.producer .ok), [.hangup 0], List.replicate 5 (.session 0 .ok),
      List.replicate 6 (.input 0 .ok), List.replicate 10 (.session 0 .ok)])
    (fun h s => (h.any fun x => x.2 = .producer .ok ∧ x.1.producer.speaker = some 0, s.session 0))
    (v := (true, .returned)) (by decide)
  obtain ⟨hread, h0⟩ := Prod.mk.inj hv
  have hlife := speaker_slot_lifetime hr
  refine ⟨h, s, hr, ?_, h0, hlife.1, hlife.2 0 h0⟩
  simpa using hread

end ModBroadcast
