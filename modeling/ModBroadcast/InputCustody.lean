import ModBroadcast.Inputs
import ModBroadcast.Threads

namespace ModBroadcast

open Automaton

variable {p : RoomProfile} {b b' : Broadcast} {c : Choice} {m n : ℕ} {s t : Room}
  {a : RoomAction} {x y : Place} {h : List (Room × RoomAction)}

/-- The member whose input thread `broadcast_set_speaker` is about to stop, and how far
it has come. -/
def SetSpeakerPc.stopper : SetSpeakerPc → Option (ℕ × StopInputPc)
  | .fire old => old.map (·, .clear)
  | .stop old k => some (old, k)
  | _ => none

/-- The member that the thread has taken out of the slot and whose input thread it has
not stopped yet. -/
def Place.stopper : Place → Option (ℕ × StopInputPc)
  | .session _ (.speak _ k) | .session _ (.wait (.clear k)) | .api (.clearSpeaker k) => k.stopper
  | .session m (.clear (.stop k)) => some (m, k)
  | .api (.destroy _ _ (.stop old k)) => some (old, k)
  | _ => none

def Place.Stops (x : Place) (m : ℕ) : Prop := ∃ k, x.stopper = some (m, k) ∧ k ≠ .join

def Place.Joins (x : Place) (m : ℕ) : Prop := x.stopper = some (m, .join)

def Place.Installs (x : Place) (m : ℕ) : Prop := ∃ promoted, x = .session m (.speak promoted .install)

def InputPc.Alive (k : InputPc) : Prop := k ≠ .absent ∧ k ≠ .ended

/-- What a step of a thread from the place `x` to `y` does to the input threads and to
the slot. -/
inductive InputStep (b b' : Broadcast) (x y : Place) : Prop
  | same (hin : b'.inputs = b.inputs) (hcur : b'.current_speaker = b.current_speaker)
      (hst : y.stopper = x.stopper)
      (hi : ∀ m, x.Installs m → b.current_speaker = some m ∨ y.Installs m)
  | start (m : ℕ) (hin : b'.inputs = Function.update b.inputs m (.start, true))
      (hcur : b'.current_speaker = b.current_speaker) (hx : x.stopper = none)
      (hxi : ∀ n, ¬ x.Installs n) (hy : y.Installs m)
  | reset (m : ℕ) (hin : b'.inputs = Function.update b.inputs m (.absent, false))
      (hcur : b'.current_speaker = b.current_speaker) (hx : x.stopper = none)
      (hxi : ∀ n, ¬ x.Installs n)
  | move (hin : b'.inputs = b.inputs) (hx : x.stopper = none)
      (hxi : ∀ m, x.Installs m → b'.current_speaker = some m)
      (hy : y.stopper = b.current_speaker.map (·, .clear))
  | advance (n : ℕ) (hin : b'.inputs = b.inputs) (hcur : b'.current_speaker = b.current_speaker)
      (hx : x.stopper = some (n, .clear)) (hy : y.stopper = some (n, .exchange))
  | exchange (n : ℕ) (hin : b'.inputs = Function.update b.inputs n ((b.inputs n).1, false))
      (hcur : b'.current_speaker = b.current_speaker)
      (hx : x.stopper = some (n, .exchange)) (hy : y.stopper = some (n, .join))
  | leave (n : ℕ) (k : StopInputPc) (hin : b'.inputs = b.inputs)
      (hcur : b'.current_speaker = b.current_speaker) (hx : x.stopper = some (n, k))
      (hdone : (b.inputs n).2 = false ∧ k ≠ .join ∨ (b.inputs n).1 = .ended ∧ k = .join)

theorem Place.Installs.stopper (hx : x.Installs m) : x.stopper = none := by
  obtain ⟨promoted, rfl⟩ := hx
  rfl

theorem not_installs {k : StopInputPc} (hx : x.stopper = some (n, k)) : ¬ x.Installs m := by
  intro hi
  rw [hi.stopper] at hx
  cases hx

theorem current_of_slot (h : b'.slot = b.slot) : b'.current_speaker = b.current_speaker :=
  (Prod.mk.inj h).1

theorem InputStep.of_people (h : b'.people = b.people) (hst : y.stopper = x.stopper)
    (hi : ∀ m, ¬ x.Installs m) : InputStep b b' x y :=
  .same (inputs_of_people h) (current_of_slot (slot_of_people h)) hst fun m hm => absurd hm (hi m)

theorem InputStep.of_core (h : b'.core = b.core) (hst : y.stopper = x.stopper)
    (hi : ∀ m, ¬ x.Installs m) : InputStep b b' x y := .of_people (people_of_core h) hst hi

/-- `broadcast_speaker_stop_input`, in whatever thread. -/
theorem speakerStopInput_step {k : StopInputPc} {z : Broadcast × Progress StopInputPc}
    (h : speakerStopInput b n k = some z) (hx : x.stopper = some (n, k))
    (hy : ∀ k', z.2 = .run k' → y.stopper = some (n, k')) : InputStep b z.1 x y := by
  have hcur : z.1.current_speaker = b.current_speaker :=
    current_of_slot (slot_of_apart (apart_of_listed (speakerStopInput_listed h)))
  cases k with
  | clear =>
    obtain rfl := Option.some.inj h
    dsimp only at hy ⊢
    exact .advance n (modify_inputs_same rfl) hcur hx (hy _ rfl)
  | exchange =>
    simp only [speakerStopInput] at h
    split_ifs at h with ht <;> obtain rfl := Option.some.inj h
    · dsimp only at hy ⊢
      exact .exchange n (modify_inputs rfl) hcur hx (hy _ rfl)
    · exact .leave n _ rfl hcur hx (.inl ⟨by simpa [Broadcast.inputs] using ht, by simp⟩)
  | join =>
    simp only [speakerStopInput] at h
    split_ifs at h with he
    obtain rfl := Option.some.inj h
    exact .leave n _ rfl hcur hx (.inr ⟨he, rfl⟩)

/-- `broadcast_set_speaker`, in whatever thread. -/
theorem setSpeaker_step {new : Option ℕ} {k : SetSpeakerPc}
    {z : Broadcast × Progress SetSpeakerPc} (h : setSpeaker b new c k = some z)
    (hx : x.stopper = k.stopper) (hxi : ∀ m, x.Installs m ↔ k = .install ∧ new = some m)
    (hy : ∀ k', z.2 = .run k' → y.stopper = k'.stopper ∧
      ∀ m, y.Installs m ↔ k' = .install ∧ new = some m)
    (hret : ∀ ok, z.2 = .ret ok → y.stopper = none) : InputStep b z.1 x y := by
  cases k with
  | start =>
    have hno : ∀ m, ¬ x.Installs m := fun m hm => by cases ((hxi m).mp hm).1
    obtain ⟨m, rfl, rfl⟩ := Option.map_eq_some_iff.mp h
    split_ifs at hy hret ⊢
    · exact .same rfl rfl ((hy _ rfl).1.trans hx.symm) fun m hm => absurd hm (hno m)
    · dsimp only at hret ⊢
      exact .same (modify_inputs_same rfl) rfl ((hret _ rfl).trans hx.symm)
        fun m hm => absurd hm (hno m)
    · dsimp only at hy ⊢
      exact .start m (modify_inputs rfl) rfl hx hno (((hy _ rfl).2 m).mpr ⟨rfl, rfl⟩)
  | install =>
    obtain ⟨-, ⟨heq, rfl⟩ | ⟨-, rfl⟩⟩ := setSpeaker_install h
    · exact .same rfl rfl ((hret _ rfl).trans hx.symm) fun m hm =>
        .inl (heq.trans ((hxi m).mp hm).2)
    · refine .move ?_ hx (fun m hm => ?_) (hy _ rfl).1
      · cases new with
        | none => rfl
        | some m =>
          dsimp only [installSpeaker]
          exact (modify_inputs_same rfl).trans rfl
      · rw [((hxi m).mp hm).2]
        rfl
  | stop old k =>
    obtain ⟨w, hw, rfl⟩ := Option.map_eq_some_iff.mp h
    refine speakerStopInput_step hw hx fun k' hk' => ?_
    exact (hy (.stop old k') (by simp [hk', Progress.resume])).1
  | fire old =>
    have hno : ∀ m, ¬ x.Installs m := fun m hm => by cases ((hxi m).mp hm).1
    have hcore := setSpeaker_core h trivial
    simp only [setSpeaker] at h
    cases old with
    | none =>
      obtain rfl := Option.some.inj h
      exact .of_core hcore ((hret _ rfl).trans hx.symm) hno
    | some o =>
      obtain rfl := Option.some.inj h
      exact .of_core hcore ((hy _ rfl).1.trans hx.symm) hno
  | guard | audio | role =>
    have hno : ∀ m, ¬ x.Installs m := fun m hm => by cases ((hxi m).mp hm).1
    have hcore := setSpeaker_core h trivial
    obtain ⟨m, rfl, rfl⟩ := Option.map_eq_some_iff.mp h
    (try split_ifs at hy hret hcore ⊢) <;> refine .of_core hcore (.trans ?_ hx.symm) hno <;>
      first | exact (hy _ rfl).1 | exact hret _ rfl
  | since old =>
    have hno : ∀ m, ¬ x.Installs m := fun m hm => by cases ((hxi m).mp hm).1
    have hcore := setSpeaker_core h trivial
    obtain rfl := Option.some.inj h
    exact .of_core hcore ((hret _ rfl).trans hx.symm) hno

theorem clearSpeakerIfCurrent_step {k : ClearPc} {z : Broadcast × Progress ClearPc}
    (h : clearSpeakerIfCurrent b m k = some z) (hx : x = .session m (.clear k))
    (hy : ∀ k', z.2 = .run k' → y = .session m (.clear k'))
    (hret : ∀ ok, z.2 = .ret ok → y.stopper = none) : InputStep b z.1 x y := by
  subst hx
  cases k with
  | test =>
    have hno : ∀ n, ¬ (Place.session m (.clear .test)).Installs n := by
      rintro n ⟨promoted, he⟩
      cases he
    simp only [clearSpeakerIfCurrent] at h
    split_ifs at h with hr hcur <;> obtain rfl := Option.some.inj h
    · refine .move rfl rfl (fun n hn => absurd hn (hno n)) ?_
      rw [hy _ rfl, hcur]
      rfl
    · exact .same rfl rfl (hret _ rfl) fun n hn => absurd hn (hno n)
  | stop k =>
    obtain ⟨w, hw, rfl⟩ := Option.map_eq_some_iff.mp h
    refine speakerStopInput_step hw rfl fun k' hk' => ?_
    rw [hy (.stop k') (by simp [hk', Progress.resume])]
    rfl

/-- How `broadcast_destroy_ex` comes to stop an input thread. -/
theorem destroyRoom_stop {g f : Bool} {k : DestroyPc} {z : Broadcast × Progress DestroyPc} {old : ℕ}
    {k' : StopInputPc} (h : destroyRoom p g f b c k = some z) (hz : z.2 = .run (.stop old k')) :
    k = .slot ∨ ∃ k₀, k = .stop old k₀ := by
  obtain ⟨-, hret⟩ | ⟨k₁, hrun, hn⟩ := destroyRoom_next h
  · rw [hz] at hret
    cases hret
  · obtain rfl : DestroyPc.stop old k' = k₁ := Progress.run.inj (hz.symm.trans hrun)
    cases k with
    | slot => exact .inl rfl
    | stop o k₀ =>
      obtain ⟨k₂, he⟩ | he := hn
      · obtain ⟨rfl, -⟩ := DestroyPc.stop.inj he
        exact .inr ⟨k₀, rfl⟩
      · cases he
    | _ => simp [DestroyPc.Next] at hn

theorem destroyRoom_step {g f g' f' : Bool} {k : DestroyPc} {z : Broadcast × Progress DestroyPc}
    (h : destroyRoom p g f b c k = some z) (hx : x = .api (.destroy g' f' k))
    (hy : ∀ k', z.2 = .run k' → y = .api (.destroy g' f' k'))
    (hret : ∀ ok, z.2 = .ret ok → y.stopper = none) : InputStep b z.1 x y := by
  subst hx
  have hno : ∀ n, ¬ (Place.api (.destroy g' f' k)).Installs n := by
    rintro n ⟨promoted, he⟩
    cases he
  cases k with
  | slot =>
    simp only [destroyRoom] at h
    split_ifs at h
    obtain rfl := Option.some.inj h
    refine .move rfl rfl (fun n hn => absurd hn (hno n)) ?_
    rw [hy _ rfl]
    cases b.current_speaker <;> rfl
  | stop old k =>
    obtain ⟨w, hw, rfl⟩ := Option.map_eq_some_iff.mp h
    refine speakerStopInput_step hw rfl fun k' hk' => ?_
    rw [hy (.stop old k') (by simp [hk', Progress.resume])]
    rfl
  | _ =>
    refine .of_people (destroyRoom_people h (by simp [DestroyPc.Peopled])) ?_ hno
    cases hz : z.2 with
    | ret ok => exact hret ok hz
    | run k' =>
      rw [hy k' hz]
      cases k' with
      | stop old k' =>
        obtain hk | ⟨k₀, hk⟩ := destroyRoom_stop h hz <;> cases hk
      | _ => rfl

theorem installs_speak {promoted : Bool} {k : SetSpeakerPc} :
    (Place.session m (.speak promoted k)).Installs n ↔ k = .install ∧ some m = some n := by
  constructor
  · rintro ⟨promoted', he⟩
    cases he
    exact ⟨rfl, rfl⟩
  · rintro ⟨rfl, hmn⟩
    exact ⟨promoted, by rw [Option.some.inj hmn]⟩

def SessionPc.Holds : SessionPc → Prop
  | .speak .. | .wait _ | .clear _ => True
  | _ => False

theorem stopper_of_next {pc pc' : SessionPc} (h : pc.Next pc') (hpc : ¬ pc.Holds) :
    (Place.session m pc').stopper = none := by
  cases pc' with
  | speak promoted k =>
    obtain ⟨k', rfl, -⟩ | ⟨-, rfl⟩ := h.follows
    · exact absurd trivial hpc
    · rfl
  | wait k =>
    obtain ⟨k', rfl⟩ | ⟨⟨promoted, k', rfl⟩, -⟩ := h.follows
    · exact absurd trivial hpc
    · exact absurd trivial hpc
  | clear k =>
    obtain ⟨k', rfl⟩ | ⟨-, rfl⟩ := h.follows
    · exact absurd trivial hpc
    · rfl
  | _ => rfl

theorem stopper_of_not_holds (pc : SessionPc) (hpc : ¬ pc.Holds) :
    (Place.session m pc).stopper = none ∧ ∀ n, ¬ (Place.session m pc).Installs n := by
  constructor
  · cases pc with
    | speak | wait | clear => exact absurd trivial hpc
    | _ => rfl
  · rintro n ⟨promoted, he⟩
    obtain ⟨-, rfl⟩ := Place.session.inj he
    exact hpc trivial

theorem speakerMainWait_step {k : MainWaitPc} {pc' : SessionPc}
    (h : appFunction p b m c (.wait k) = some (b', pc')) :
    InputStep b b' (.session m (.wait k)) (.session m pc') := by
  have hno : ∀ n, ¬ (Place.session m (.wait k)).Installs n := by
    rintro n ⟨promoted, he⟩
    cases he
  have hmap : (speakerMainWait p b m c k).map (fun x =>
    (x.1, x.2.resume SessionPc.wait fun _ => .lower)) = some (b', pc') := h
  cases k with
  | clear k =>
    obtain ⟨x, hx, he⟩ := Option.map_eq_some_iff.mp h
    obtain ⟨⟨z, k' | ok⟩, hz, rfl⟩ := Option.map_eq_some_iff.mp hx
    · obtain ⟨rfl, rfl⟩ := Prod.mk.inj he
      refine setSpeaker_step hz rfl (fun n => ⟨fun hn => absurd hn (hno n), fun hn => nomatch hn.2⟩)
        ?_ (by simp)
      rintro k'' hk''
      obtain rfl := Progress.run.inj hk''
      refine ⟨rfl, fun n => ⟨?_, fun hn => nomatch hn.2⟩⟩
      rintro ⟨promoted, he⟩
      cases he
    · obtain ⟨rfl, rfl⟩ := Prod.mk.inj he
      exact setSpeaker_step hz rfl (fun n => ⟨fun hn => absurd hn (hno n), fun hn => nomatch hn.2⟩)
        (by simp) fun _ _ => rfl
  | _ =>
    refine .of_core (appFunction_core h trivial) ?_ hno
    obtain ⟨⟨z, k' | ok⟩, hz, he⟩ := Option.map_eq_some_iff.mp hmap <;>
      obtain ⟨-, rfl⟩ := Prod.mk.inj he
    · cases k' with
      | clear k₁ =>
        obtain ⟨-, rfl⟩ | ⟨k₀, hk, -⟩ := speakerMainWait_clear hz rfl
        · rfl
        · cases hk
      | _ => rfl
    · rfl

theorem appFunction_step {pc pc' : SessionPc} (h : appFunction p b m c pc = some (b', pc')) :
    InputStep b b' (.session m pc) (.session m pc') := by
  by_cases hpc : pc.Holds
  · cases pc with
    | speak promoted k =>
      obtain ⟨⟨z, k' | ok⟩, hz, he⟩ := Option.map_eq_some_iff.mp h
      · obtain ⟨rfl, rfl⟩ := Prod.mk.inj he
        refine setSpeaker_step hz rfl (fun _ => installs_speak) ?_ (by simp)
        rintro k'' hk''
        obtain rfl := Progress.run.inj hk''
        exact ⟨rfl, fun _ => installs_speak⟩
      · obtain ⟨rfl, rfl⟩ := Prod.mk.inj he
        refine setSpeaker_step hz rfl (fun _ => installs_speak) (by simp) fun _ _ => ?_
        dsimp only [Progress.resume]
        split_ifs <;> rfl
    | wait k => exact speakerMainWait_step h
    | clear k =>
      obtain ⟨⟨z, k' | ok⟩, hz, he⟩ := Option.map_eq_some_iff.mp h
      · obtain ⟨rfl, rfl⟩ := Prod.mk.inj he
        refine clearSpeakerIfCurrent_step hz rfl ?_ (by simp)
        rintro k'' hk''
        rw [Progress.run.inj hk'']
        rfl
      · obtain ⟨rfl, rfl⟩ := Prod.mk.inj he
        exact clearSpeakerIfCurrent_step hz rfl (by simp) fun _ _ => rfl
    | _ => exact hpc.elim
  · have hy := stopper_of_next (m := m) (appFunction_next h) hpc
    obtain ⟨hx, hno⟩ := stopper_of_not_holds (m := m) _ hpc
    have hst := hy.trans hx.symm
    by_cases hp : pc.Peopled
    · cases pc with
      | prepare j =>
        simp only [appFunction] at h
        split_ifs at h <;> obtain ⟨rfl, rfl⟩ := Prod.mk.inj (Option.some.inj h)
        · exact .of_people rfl hst hno
        all_goals exact .reset m (modify_inputs rfl) rfl hx hno
      | nextId =>
        obtain ⟨rfl, -⟩ := Prod.mk.inj (Option.some.inj h)
        exact .same (modify_inputs_same (b := (memberNextId b).1) rfl) rfl hst
          fun n hn => absurd hn (hno n)
      | add k =>
        cases k with
        | link =>
          simp only [appFunction, listenerAdd] at h
          split_ifs at h <;> obtain ⟨rfl, -⟩ := Prod.mk.inj (Option.some.inj h)
          · exact .of_core hangup_core hst hno
          · exact .same listenerLink_inputs (current_of_slot (slot_of_apart listenerLink_apart)) hst
              fun n hn => absurd hn (hno n)
        | _ => exact absurd hp id
      | clearFlag =>
        obtain ⟨rfl, -⟩ := Prod.mk.inj (Option.some.inj h)
        exact .same (modify_inputs_same (b := b) rfl) rfl hst fun n hn => absurd hn (hno n)
      | unlink =>
        obtain ⟨rfl, -⟩ := Prod.mk.inj (Option.some.inj h)
        exact .same listenerDel_inputs (current_of_slot (slot_of_apart listenerDel_apart)) hst
          fun n hn => absurd hn (hno n)
      | _ => first | exact hp.elim | exact absurd trivial hpc
    · exact .of_people (appFunction_people h hp) hst hno

def ApiPc.Holds : ApiPc → Prop
  | .clearSpeaker _ | .destroy .. => True
  | _ => False

theorem apiDispatch_stopper {pc pc' : ApiPc} (h : apiDispatch p b c pc = some (b', pc'))
    (hpc : ¬ pc.Holds) : (Place.api pc').stopper = none := by
  cases apiDispatch_cases h with
  | clearSpeaker | destroy | gone => exact absurd trivial hpc
  | @resolve k _ _ _ _ _ he | @resolveSpeaker k _ _ _ _ _ he =>
    rw [he]
    cases k <;> rfl
  | _ => rfl

theorem not_installs_api {pc : ApiPc} : ¬ (Place.api pc).Installs m := by
  rintro ⟨promoted, he⟩
  cases he

theorem apiDispatch_step {pc pc' : ApiPc} (h : apiDispatch p b c pc = some (b', pc')) :
    InputStep b b' (.api pc) (.api pc') := by
  by_cases hpc : pc.Holds
  · cases pc with
    | clearSpeaker k =>
      obtain ⟨⟨z, k' | ok⟩, hz, he⟩ := Option.map_eq_some_iff.mp h <;>
        obtain ⟨rfl, rfl⟩ := Prod.mk.inj he
      · refine setSpeaker_step hz rfl
          (fun n => ⟨fun hn => absurd hn not_installs_api, fun hn => nomatch hn.2⟩) ?_ (by simp)
        rintro k'' hk''
        obtain rfl := Progress.run.inj hk''
        exact ⟨rfl, fun n => ⟨fun hn => absurd hn not_installs_api, fun hn => nomatch hn.2⟩⟩
      · exact setSpeaker_step hz rfl
          (fun n => ⟨fun hn => absurd hn not_installs_api, fun hn => nomatch hn.2⟩) (by simp)
          fun _ _ => rfl
    | destroy g f k =>
      obtain ⟨⟨z, k' | ok⟩, hz, he⟩ := Option.map_eq_some_iff.mp h <;>
        obtain ⟨rfl, rfl⟩ := Prod.mk.inj he
      · refine destroyRoom_step hz rfl ?_ (by simp)
        rintro k'' hk''
        rw [Progress.run.inj hk'']
        rfl
      · exact destroyRoom_step hz rfl (by simp) fun _ _ => rfl
    | _ => exact hpc.elim
  · have hst : (Place.api pc').stopper = (Place.api pc).stopper := by
      rw [apiDispatch_stopper h hpc]
      cases pc with
      | clearSpeaker | destroy => exact absurd trivial hpc
      | _ => rfl
    by_cases hp : pc.Peopled
    · cases pc with
      | promote x m k =>
        obtain ⟨rfl, rfl⟩ := Prod.mk.inj (Option.some.inj h)
        exact .same requestPromotion_inputs
          (current_of_slot (slot_of_apart (requestPromotion_apart k))) hst
          fun n hn => absurd hn not_installs_api
      | clearSpeaker | destroy => exact absurd trivial hpc
      | _ => exact hp.elim
    · exact .of_people (apiDispatch_people h hp) hst fun n => not_installs_api

theorem ThreadStep.input (h : ThreadStep p b b' c x y) : InputStep b b' x y := by
  cases h with
  | @join m j pc pc' h =>
    have hcore := joinSession_core h
    cases pc with
    | outside =>
      obtain ⟨b₁, -, he⟩ := Option.map_eq_some_iff.mp h
      obtain ⟨-, rfl⟩ := Prod.mk.inj he
      exact .of_core hcore rfl (stopper_of_not_holds .outside id).2
    | created =>
      obtain ⟨-, rfl⟩ := Prod.mk.inj (Option.some.inj h)
      refine .of_core hcore ?_ (stopper_of_not_holds .created id).2
      split_ifs <;> rfl
    | _ => cases h
  | session h => exact appFunction_step h
  | call k h =>
    rw [(findBroadcast_eq h).2]
    exact .of_core rfl rfl fun n => not_installs_api
  | shutdown _ h =>
    rw [h]
    exact .of_people rfl rfl fun n => not_installs_api
  | api h => exact apiDispatch_step h

/-- Every input thread that has not returned has somebody who will stop it. -/
structure InputSound (s : Room) : Prop where
  owned : ∀ m, (s.b.inputs m).2 = true → s.b.current_speaker = some m ∨
    ∃ th, (s.place th).Installs m ∨ (s.place th).Stops m
  alive : ∀ m, (s.b.inputs m).1.Alive → (s.b.inputs m).2 = true ∨ ∃ th, (s.place th).Joins m

theorem InputSound.init : InputSound Room.init where
  owned m hm := by cases hm
  alive m hm := absurd rfl hm.1

theorem not_stops (hx : x.stopper = none) : ¬ x.Stops m := by
  rintro ⟨k, hk, -⟩
  rw [hx] at hk
  cases hk

theorem not_joins (hx : x.stopper = none) : ¬ x.Joins m := by
  intro hj
  rw [Place.Joins, hx] at hj
  cases hj

theorem stops_iff {k : StopInputPc} (hx : x.stopper = some (n, k)) :
    x.Stops m ↔ m = n ∧ k ≠ .join := by
  simp [Place.Stops, hx, eq_comm]

theorem joins_iff {k : StopInputPc} (hx : x.stopper = some (n, k)) :
    x.Joins m ↔ m = n ∧ k = .join := by
  simp [Place.Joins, hx, eq_comm]

/-- A pointer that is set after the step has been set before, or just now, and its member
has not left the hands of the slot or of the thread. -/
theorem InputStep.owned (h : InputStep b b' x y) (ht : (b'.inputs m).2 = true) :
    ((b.inputs m).2 = true ∨ y.Installs m) ∧
      (b.current_speaker = some m → b'.current_speaker = some m ∨ y.Stops m) ∧
        (x.Installs m ∨ x.Stops m → b'.current_speaker = some m ∨ y.Installs m ∨ y.Stops m) := by
  cases h with
  | same hin hcur hst hi =>
    refine ⟨.inl (hin ▸ ht), fun hm => .inl (hcur ▸ hm), ?_⟩
    rintro (hx | hx)
    · obtain hm | hy := hi m hx
      · exact .inl (hcur.trans hm)
      · exact .inr (.inl hy)
    · refine .inr (.inr ?_)
      rw [Place.Stops, hst]
      exact hx
  | start n hin hcur hx hxi hy =>
    refine ⟨?_, fun hm => .inl (hcur ▸ hm), ?_⟩
    · by_cases hmn : m = n
      · exact .inr (hmn ▸ hy)
      · rw [hin, Function.update_of_ne hmn] at ht
        exact .inl ht
    · rintro (hi | hs)
      · exact absurd hi (hxi m)
      · exact absurd hs (not_stops hx)
  | reset n hin hcur hx hxi =>
    refine ⟨?_, fun hm => .inl (hcur ▸ hm), ?_⟩
    · by_cases hmn : m = n
      · simp [hin, hmn] at ht
      · rw [hin, Function.update_of_ne hmn] at ht
        exact .inl ht
    · rintro (hi | hs)
      · exact absurd hi (hxi m)
      · exact absurd hs (not_stops hx)
  -- the old speaker passes from the slot to the thread that has displaced it
  | move hin hx hxi hy =>
    refine ⟨.inl (hin ▸ ht), fun hm => .inr ?_, ?_⟩
    · rw [hm] at hy
      exact (stops_iff hy).mpr ⟨rfl, by simp⟩
    · rintro (hi | hs)
      · exact .inl (hxi m hi)
      · exact absurd hs (not_stops hx)
  | advance n hin hcur hx hy =>
    refine ⟨.inl (hin ▸ ht), fun hm => .inl (hcur ▸ hm), ?_⟩
    rintro (hi | hs)
    · exact absurd hi (not_installs hx)
    · exact .inr (.inr ((stops_iff hy).mpr ⟨((stops_iff hx).mp hs).1, by simp⟩))
  -- after the exchange the pointer of `n` is null, so `m` is another member
  | exchange n hin hcur hx hy =>
    have hmn : m ≠ n := by
      rintro rfl
      simp [hin] at ht
    rw [hin, Function.update_of_ne hmn] at ht
    refine ⟨.inl ht, fun hm => .inl (hcur ▸ hm), ?_⟩
    rintro (hi | hs)
    · exact absurd hi (not_installs hx)
    · exact absurd ((stops_iff hx).mp hs).1 hmn
  -- the thread leaves when the pointer is gone or the input thread has ended
  | leave n k hin hcur hx hdone =>
    rw [hin] at ht
    refine ⟨.inl ht, fun hm => .inl (hcur ▸ hm), ?_⟩
    rintro (hi | hs)
    · exact absurd hi (not_installs hx)
    · obtain ⟨rfl, hk⟩ := (stops_iff hx).mp hs
      obtain ⟨hf, -⟩ | ⟨-, hj⟩ := hdone
      · rw [hf] at ht
        cases ht
      · exact absurd hj hk

/-- A thread that runs after the step has run before, or just been started, and whoever
takes its pointer waits for it. -/
theorem InputStep.alive (h : InputStep b b' x y) (ha : (b'.inputs m).1.Alive) :
    ((b.inputs m).1.Alive ∨ (b'.inputs m).2 = true) ∧
      ((b.inputs m).2 = true → (b'.inputs m).2 = true ∨ y.Joins m) ∧ (x.Joins m → y.Joins m) := by
  cases h with
  | same hin hcur hst hi =>
    refine ⟨.inl (hin ▸ ha), fun ht => .inl (hin ▸ ht), fun hx => ?_⟩
    rw [Place.Joins, hst]
    exact hx
  | start n hin hcur hx hxi hy =>
    by_cases hmn : m = n
    · subst hmn
      have ht : (b'.inputs m).2 = true := by simp [hin]
      exact ⟨.inr ht, fun _ => .inl ht, fun hj => absurd hj (not_joins hx)⟩
    · rw [hin, Function.update_of_ne hmn] at ha ⊢
      exact ⟨.inl ha, .inl, fun hj => absurd hj (not_joins hx)⟩
  | reset n hin hcur hx hxi =>
    have hmn : m ≠ n := by
      rintro rfl
      simp [hin, InputPc.Alive] at ha
    rw [hin, Function.update_of_ne hmn] at ha ⊢
    exact ⟨.inl ha, .inl, fun hj => absurd hj (not_joins hx)⟩
  | move hin hx hxi hy =>
    exact ⟨.inl (hin ▸ ha), fun ht => .inl (hin ▸ ht), fun hj => absurd hj (not_joins hx)⟩
  | advance n hin hcur hx hy =>
    refine ⟨.inl (hin ▸ ha), fun ht => .inl (hin ▸ ht), fun hj => ?_⟩
    cases ((joins_iff hx).mp hj).2
  | exchange n hin hcur hx hy =>
    by_cases hmn : m = n
    -- whoever takes the pointer is the one that joins
    · subst hmn
      refine ⟨.inl (by simpa [hin] using ha), fun _ => .inr hy, fun hj => ?_⟩
      cases ((joins_iff hx).mp hj).2
    · rw [hin, Function.update_of_ne hmn] at ha ⊢
      exact ⟨.inl ha, .inl, fun hj => absurd ((joins_iff hx).mp hj).1 hmn⟩
  | leave n k hin hcur hx hdone =>
    rw [hin] at ha ⊢
    refine ⟨.inl ha, .inl, fun hj => ?_⟩
    obtain ⟨rfl, hk⟩ := (joins_iff hx).mp hj
    obtain ⟨-, hne⟩ | ⟨hended, -⟩ := hdone
    · exact absurd hk hne
    · exact absurd hended ha.2

theorem backgroundStep_inputs (h : BackgroundStep p s t a) :
    t.b.current_speaker = s.b.current_speaker ∧ ∀ m, (t.b.inputs m).2 = (s.b.inputs m).2 ∧
      ((t.b.inputs m).1.Alive → (s.b.inputs m).1.Alive) := by
  cases h with
  | producer h =>
    refine ⟨(producerRun_slot h).1, fun m => ?_⟩
    rw [producerRun_inputs h]
    exact ⟨rfl, id⟩
  | @input n c b₁ k' h hb hp =>
    obtain ⟨-, habsent, hended, hsame⟩ := speakerInput_inputs h
    have hslot := slot_of_apart (apart_of_listed (speakerInput_listed h))
    have hin : t.b.inputs = Function.update s.b.inputs n (k', (s.b.inputs n).2) := by
      rw [hb, modify_inputs (v := (k', (s.b.inputs n).2)), hsame]
      rw [← hsame]
      rfl
    refine ⟨by rw [hb]; exact current_of_slot hslot, fun m => ?_⟩
    by_cases hmn : m = n
    · subst hmn
      rw [hin, Function.update_self]
      exact ⟨rfl, fun _ => ⟨habsent, hended⟩⟩
    · rw [hin, Function.update_of_ne hmn]
      exact ⟨rfl, id⟩
  | writer h _ =>
    have hpeople := (recordWriter_writes h).people
    refine ⟨current_of_slot (slot_of_people hpeople), fun m => ?_⟩
    rw [inputs_of_people hpeople]
    exact ⟨rfl, id⟩
  | quiet h _ =>
    have hpeople := people_of_core h
    refine ⟨current_of_slot (slot_of_people hpeople), fun m => ?_⟩
    rw [inputs_of_people hpeople]
    exact ⟨rfl, id⟩

theorem InputSound.step (hi : InputSound s) (hs : roomStep p s a = some t) : InputSound t := by
  cases roomStep_move hs with
  | @thread th c _ _ h ho _ =>
    have hstep := h.input
    -- what another thread was about to do, it still is
    have hkeep : ∀ {P : Place → Prop} {th'}, th' ≠ th → P (s.place th') → P (t.place th') :=
      fun hne hP => (ho _ hne).symm ▸ hP
    constructor
    · intro m ht
      obtain ⟨hset, hcur, hxy⟩ := hstep.owned ht
      obtain ht₀ | hy := hset
      · obtain hm | ⟨th', hth⟩ := hi.owned m ht₀
        · obtain hm | hy := hcur hm
          · exact .inl hm
          · exact .inr ⟨th, .inr hy⟩
        · by_cases hne : th' = th
          · subst hne
            obtain hm | hy := hxy hth
            · exact .inl hm
            · exact .inr ⟨th', hy⟩
          · exact .inr ⟨th', hkeep (P := fun x => x.Installs m ∨ x.Stops m) hne hth⟩
      · exact .inr ⟨th, .inl hy⟩
    · intro m ha
      obtain ⟨hrun, htake, hxy⟩ := hstep.alive ha
      obtain ha₀ | ht := hrun
      · obtain ht₀ | ⟨th', hth⟩ := hi.alive m ha₀
        · obtain ht | hy := htake ht₀
          · exact .inl ht
          · exact .inr ⟨th, hy⟩
        · by_cases hne : th' = th
          · subst hne
            exact .inr ⟨th', hxy hth⟩
          · exact .inr ⟨th', hkeep (P := fun x => x.Joins m) hne hth⟩
      · exact .inl ht
  | background ha h hpl =>
    obtain ⟨hcur, hin⟩ := backgroundStep_inputs h
    constructor
    · intro m ht
      rw [hcur, hpl]
      exact hi.owned m ((hin m).1 ▸ ht)
    · intro m ha
      rw [(hin m).1, hpl]
      exact hi.alive m ((hin m).2 ha)

/-- If the step is `broadcast_member_cleanup_codecs`, no input thread of the member runs. -/
def CodecsUnused (s : Room) (a : RoomAction) : Prop :=
  ∀ m c, a = .session m c → s.session m = .cleanup → ¬ (s.b.inputs m).1.Alive

/-- If the step is `broadcast_member_cleanup_codecs`, nobody who has taken the member out
of the slot still has its input thread to stop. -/
def StopsFinished (s : Room) (a : RoomAction) : Prop :=
  ∀ m c, a = .session m c → s.session m = .cleanup →
    ∀ th, (s.place th).Stops m ∨ (s.place th).Joins m → ¬ (s.b.inputs m).1.Alive

/-- The codecs of a member are destroyed only when no input thread of it runs, exactly
when no other thread is still to stop one at that moment. -/
theorem codecs_unused_iff (hr : Run (roomStep p) Room.init h s) :
    Meets CodecsUnused h ↔ Meets StopsFinished h := by
  constructor
  · exact fun hm => hm.mono fun s a hu m c ha hpc _ _ => hu m c ha hpc
  · intro hm
    refine hr.meets_of_invariant (I := fun s => s.SlotSound ∧ InputSound s)
      (fun _ _ _ hi _ hs => ⟨hi.1.step hs, hi.2.step hs⟩) ?_ hm ⟨.init, .init⟩
    rintro s a t ⟨hslot, hi⟩ hg - m c ha hpc halive
    have hcur : s.b.current_speaker ≠ some m := fun hm => by
      have hp := hslot.published m hm
      rw [hpc] at hp
      exact hp
    -- a running thread has its pointer set, or somebody waits for it
    obtain ht | ⟨th, hth⟩ := hi.alive m halive
    · obtain hm | ⟨th, ⟨promoted, hx⟩ | hx⟩ := hi.owned m ht
      · exact hcur hm
      · -- the member's own session stands at the codecs, not at the installation
        cases th with
        | session n =>
          obtain ⟨rfl, hn⟩ := Place.session.inj hx
          rw [hpc] at hn
          cases hn
        | api u => cases hx
      · exact hg m c ha hpc th (.inl hx) halive
    · exact hg m c ha hpc th (.inr hth) halive

def stopsFinishedTest (n : ℕ) (s : Room) (a : RoomAction) : Bool :=
  match a with
  | .session m _ => decide (s.session m = .cleanup → (∀ k < n,
      (Place.session k (s.session k)).stopper.map Prod.fst ≠ some m) ∧
        ∀ u < n, (Place.api (s.api u)).stopper.map Prod.fst ≠ some m)
  | _ => true

theorem stopsFinished_of_test (hm : s.Small n) (ht : stopsFinishedTest n s a = true) :
    StopsFinished s a := by
  rintro m c rfl hpc th hth -
  obtain ⟨hsession, hapi⟩ := of_decide_eq_true ht hpc
  have hst : (s.place th).stopper.map Prod.fst = some m := by
    obtain ⟨k, hk, -⟩ | hj := hth
    · rw [hk]
      rfl
    · rw [hj]
      rfl
  cases th with
  | session k =>
    exact hm.session (P := fun k pc => (Place.session k pc).stopper.map Prod.fst ≠ some m)
      (fun _ => nofun) hsession k hst
  | api u =>
    exact hm.api (P := fun _ pc => (Place.api pc).stopper.map Prod.fst ≠ some m)
      (fun _ => nofun) hapi u hst

/-- A speaker that has been replaced and whose input thread has been joined. -/
theorem codecs_unused_iff_override : ∃ (h : List (Room × RoomAction)) (s : Room),
    Run (roomStep ⟨8, true, 16, false, false⟩) Room.init h s ∧ s.session 0 = .returned ∧
      s.b.current_speaker = some 1 ∧ (s.b.member 0).input = .ended ∧ Meets CodecsUnused h := by
  obtain ⟨h, s, hr, hm, hv⟩ := exists_run_observing (roomStep ⟨8, true, 16, false, false⟩)
    (fun s a => a.within 2 && stopsFinishedTest 2 s a) Room.init
    (List.flatten [[.join 0 ⟨.speaker, false, false⟩], List.replicate 12 (.session 0 .ok),
      List.replicate 3 (.input 0 .ok), [.join 1 ⟨.speaker, false, false⟩],
      List.replicate 14 (.session 1 .ok), List.replicate 4 (.input 0 .ok), [.session 1 .ok],
      List.replicate 9 (.session 0 .ok)])
    (fun _ s => (s.session 0, s.b.current_speaker, (s.b.member 0).input))
    (v := (.returned, some 1, .ended)) (by decide)
  simp only [Prod.mk.injEq] at hv
  obtain ⟨h0, hcur, hended⟩ := hv
  exact ⟨h, s, hr, h0, hcur, hended, (codecs_unused_iff hr).mpr
    (meets_of_test (by decide) hr hm fun _ _ => stopsFinished_of_test)⟩

/-- A replaced speaker leaves while the session that has replaced it is still on its way
to stop the input thread. -/
theorem codecs_destroyed_under_input : ¬ ∀ (h : List (Room × RoomAction)) (s : Room),
    Run (roomStep ⟨8, true, 16, false, false⟩) Room.init h s → Meets CodecsUnused h := by
  refine not_forall_run (fun _ _ => true)
    (List.flatten [[.join 0 ⟨.speaker, false, false⟩], List.replicate 12 (.session 0 .ok),
      List.replicate 3 (.input 0 .ok), [.join 1 ⟨.speaker, false, false⟩],
      List.replicate 11 (.session 1 .ok), List.replicate 8 (.session 0 .ok)])
    (fun h _ => h.head?.map fun x => (x.2, x.1.session 0, (x.1.b.member 0).input))
    (v := some (.session 0 .ok, .cleanup, .loop)) (by decide) ?_
  intro h s hr _ hv hall
  cases hr with
  | nil => cases hv
  | snoc hrun hstep =>
    obtain ⟨ha, hpc, hin⟩ : _ ∧ _ ∧ _ := by simpa using hv
    refine (meets_cons.mp hall).1 0 .ok ha hpc ?_
    rw [Broadcast.inputs, hin]
    exact ⟨by simp, by simp⟩

end ModBroadcast
