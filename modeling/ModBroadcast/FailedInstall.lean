import ModBroadcast.Channel
import ModBroadcast.Places

namespace ModBroadcast

variable {b b' : Broadcast} {m : ℕ} {ok : Bool}

/-- `broadcast_set_speaker` returns `ok` from its place `k`, with the core answering `o` at each
place, and no other thread on the broadcast meanwhile. -/
inductive SetSpeakerReturns (new : Option ℕ) (o : SetSpeakerPc → Choice) :
    Broadcast → SetSpeakerPc → Broadcast → Bool → Prop
  | step {b b₁ b' : Broadcast} {k k' : SetSpeakerPc} {ok : Bool}
      (h : setSpeaker b new (o k) k = some (b₁, .run k'))
      (rest : SetSpeakerReturns new o b₁ k' b' ok) : SetSpeakerReturns new o b k b' ok
  | ret {b b' : Broadcast} {k : SetSpeakerPc} {ok : Bool}
      (h : setSpeaker b new (o k) k = some (b', .ret ok)) : SetSpeakerReturns new o b k b' ok

/-- The call has left the speaker, the role of the member and its time alone, and the exit of the
member reports the role it had before. -/
structure NoRoleEffect (b b' : Broadcast) (m : ℕ) : Prop where
  current_speaker : b'.current_speaker = b.current_speaker
  speaker_active_since : b'.speaker_active_since = b.speaker_active_since
  role : (b'.member m).role = (b.member m).role
  speaker_since_us : (b'.member m).speaker_since_us = (b.member m).speaker_since_us
  final_role : ∀ join_us v, (memberSetExitVariables b' m join_us v).broadcast_final_role =
    (memberSetExitVariables b m join_us v).broadcast_final_role

def SetSpeakerPc.installed : SetSpeakerPc → Bool
  | .guard | .audio | .role | .start => false
  | .install | .fire _ | .stop _ _ | .since _ => true

theorem SetSpeakerPc.Next.installed {k k' : SetSpeakerPc} (h : k.Next k')
    (hk : k.installed = true) : k'.installed = true := by
  cases k <;> cases k' <;> simp_all [SetSpeakerPc.Next, SetSpeakerPc.installed]

/-- From the installation on the call cannot fail. -/
theorem SetSpeakerReturns.of_installed {new : Option ℕ} {o : SetSpeakerPc → Choice}
    {k : SetSpeakerPc} (h : SetSpeakerReturns new o b k b' ok) (hk : k.installed = true) :
    ok = true := by
  induction h with
  | step h _ ih =>
    rcases setSpeaker_next h with ⟨k', hnext, hrun⟩ | hret | ⟨-, hret⟩
    · obtain rfl := Progress.run.inj hrun
      exact ih (hnext.installed hk)
    · cases hret
    · cases hret
  | ret h =>
    rcases setSpeaker_next h with ⟨k', -, hrun⟩ | hret | ⟨hearly, -⟩
    · cases hrun
    · exact Progress.ret.inj hret
    · rcases hearly with rfl | rfl | rfl <;> cases hk

variable {o : SetSpeakerPc → Choice}

theorem modify_of_eq {g : Member → Member} (h : g (b.member m) = b.member m) :
    b.modify m g = b := by
  rw [Broadcast.modify, h, Function.update_eq_self]

def storedRole (b : Broadcast) (m : ℕ) : Broadcast :=
  b.modify m fun x => { x with audio := true, role := .speaker }

theorem SetSpeakerReturns.guard (h : SetSpeakerReturns (some m) o b .guard b' ok) :
    (b.member m).in_listener_bridge = true ∧ b' = b ∨
      (b.member m).in_listener_bridge = false ∧ SetSpeakerReturns (some m) o b .audio b' ok := by
  cases hb : (b.member m).in_listener_bridge with
  | true =>
    cases h with
    | step h => simp [setSpeaker, hb] at h
    | ret h =>
      simp only [setSpeaker, hb, Option.map_some, if_true, Option.some.injEq, Prod.mk.injEq] at h
      exact .inl ⟨rfl, h.1.symm⟩
  | false =>
    cases h with
    | step h rest =>
      simp only [setSpeaker, hb, Option.map_some, Bool.false_eq_true, if_false, Option.some.injEq,
        Prod.mk.injEq, Progress.run.injEq] at h
      obtain ⟨rfl, rfl⟩ := h
      exact .inr ⟨rfl, rest⟩
    | ret h => simp [setSpeaker, hb] at h

theorem SetSpeakerReturns.audio (h : SetSpeakerReturns (some m) o b .audio b' ok) :
    (b.member m).audio = false ∧ o .audio = .fail ∧ b' = b ∨
      ((b.member m).audio = true ∨ o .audio ≠ .fail) ∧
        SetSpeakerReturns (some m) o (b.modify m fun x => { x with audio := true }) .role b'
          ok := by
  by_cases ha : (b.member m).audio = true
  · have hsame : (b.modify m fun x => { x with audio := true }) = b :=
      modify_of_eq (by rw [← ha])
    cases h with
    | step h rest =>
      simp only [setSpeaker, ha, Option.map_some, if_true, Option.some.injEq, Prod.mk.injEq,
        Progress.run.injEq] at h
      obtain ⟨rfl, rfl⟩ := h
      rw [hsame]
      exact .inr ⟨.inl ha, rest⟩
    | ret h => simp [setSpeaker, ha] at h
  · by_cases hf : o .audio = .fail
    · cases h with
      | step h => simp [setSpeaker, ha, hf] at h
      | ret h =>
        simp only [setSpeaker, ha, hf, Option.map_some, Bool.false_eq_true, if_false, if_true,
          Option.some.injEq, Prod.mk.injEq] at h
        exact .inl ⟨by simpa using ha, hf, h.1.symm⟩
    · cases h with
      | step h rest =>
        simp only [setSpeaker, ha, hf, Option.map_some, Bool.false_eq_true, if_false,
          Option.some.injEq, Prod.mk.injEq, Progress.run.injEq] at h
        obtain ⟨rfl, rfl⟩ := h
        exact .inr ⟨.inr hf, rest⟩
      | ret h => simp [setSpeaker, ha, hf] at h

theorem SetSpeakerReturns.role
    (h : SetSpeakerReturns (some m) o (b.modify m fun x => { x with audio := true }) .role b' ok) :
    SetSpeakerReturns (some m) o (storedRole b m) .start b' ok := by
  cases h with
  | @step _ b₁ _ _ _ _ h rest =>
    simp only [setSpeaker, Option.map_some, Option.some.injEq, Prod.mk.injEq,
      Progress.run.injEq] at h
    obtain ⟨hb, rfl⟩ := h
    have hstored : b₁ = storedRole b m := by
      rw [← hb]
      simp [storedRole, Broadcast.modify]
    rwa [← hstored]
  | ret h => simp [setSpeaker] at h

theorem SetSpeakerReturns.start (h : SetSpeakerReturns (some m) o b .start b' false) :
    b' = b.modify m fun x => { x with input_running := false } := by
  cases h with
  | @step _ _ _ _ k' _ h rest =>
    -- with a thread the call goes on to the installation
    rcases setSpeaker_next h with ⟨k₁, hnext, hrun⟩ | hret | ⟨-, hret⟩
    · obtain rfl := Progress.run.inj hrun
      cases k' with
      | install => exact absurd (rest.of_installed rfl) Bool.false_ne_true
      | _ => cases hnext
    · cases hret
    · cases hret
  | ret h =>
    simp only [setSpeaker, Option.map_some, Option.some.injEq] at h
    split_ifs at h
    · cases (Prod.mk.inj h).2
    · exact (Prod.mk.inj h).1.symm
    · cases (Prod.mk.inj h).2

inductive FailedInstall (b b' : Broadcast) (m : ℕ) (o : SetSpeakerPc → Choice) : Prop
  | bridge (h : (b.member m).in_listener_bridge = true) (hb : b' = b)
  | audio (h : (b.member m).in_listener_bridge = false)
      (ha : (b.member m).audio = false ∧ o .audio = .fail) (hb : b' = b)
  | start (h : (b.member m).in_listener_bridge = false)
      (ha : ¬ ((b.member m).audio = false ∧ o .audio = .fail))
      (hb : b' = (storedRole b m).modify m fun x => { x with input_running := false })

theorem SetSpeakerReturns.failed (h : SetSpeakerReturns (some m) o b .guard b' false) :
    FailedInstall b b' m o := by
  rcases h.guard with ⟨hbridge, rfl⟩ | ⟨hbridge, h⟩
  · exact .bridge hbridge rfl
  · rcases h.audio with ⟨ha, hf, rfl⟩ | ⟨ha, h⟩
    · exact .audio hbridge ⟨ha, hf⟩ rfl
    · refine .start hbridge ?_ h.role.start
      rintro ⟨hnone, hf⟩
      rcases ha with ha | ha
      · rw [hnone] at ha
        cases ha
      · exact ha hf

theorem NoRoleEffect.refl (b : Broadcast) (m : ℕ) : NoRoleEffect b b m :=
  ⟨rfl, rfl, rfl, rfl, fun _ _ => rfl⟩

/-- A member whose role has been stored is reported as the speaker from then on. -/
theorem noRoleEffect_stored_iff (b : Broadcast) (m : ℕ) :
    NoRoleEffect b ((storedRole b m).modify m fun x => { x with input_running := false }) m ↔
      (b.member m).role = .speaker := by
  constructor
  · intro h
    have hrole := h.role
    simp only [storedRole, Broadcast.modify, Function.update_self] at hrole
    exact hrole.symm
  · intro hrole
    refine ⟨rfl, rfl, ?_, ?_, fun join_us v => ?_⟩
    · simp [storedRole, Broadcast.modify, hrole]
    · simp [storedRole, Broadcast.modify]
    · simp [memberSetExitVariables, storedRole, Broadcast.modify, hrole]

/-- A call that fails leaves the roles alone exactly when it fails before it stores one, or the
member had that role already. -/
theorem failed_install_iff (h : SetSpeakerReturns (some m) o b .guard b' false) :
    NoRoleEffect b b' m ↔ (b.member m).in_listener_bridge = true ∨
      (b.member m).audio = false ∧ o .audio = .fail ∨ (b.member m).role = .speaker := by
  cases h.failed with
  | bridge hb he =>
    rw [he]
    exact iff_of_true (.refl b m) (.inl hb)
  | audio _ ha he =>
    rw [he]
    exact iff_of_true (.refl b m) (.inr (.inl ha))
  | start hb ha he =>
    rw [he, noRoleEffect_stored_iff]
    simp [hb, ha]

/-- Without an audio path nothing is stored. -/
theorem failed_install_audio :
    SetSpeakerReturns (some 0) (fun _ => .fail) .create .guard .create false ∧
      NoRoleEffect .create .create 0 := by
  have h : SetSpeakerReturns (some 0) (fun _ => .fail) .create .guard .create false :=
    .step rfl (.ret rfl)
  exact ⟨h, (failed_install_iff h).mpr (.inr (.inl ⟨rfl, rfl⟩))⟩

/-- A promoted listener without an input thread leaves as a speaker that there never was. -/
theorem failed_install_speaker : ∃ b', SetSpeakerReturns (some 0)
      (fun k => if k = .start then .fail else .ok) .create .guard b' false ∧
    ¬ NoRoleEffect .create b' 0 ∧ b'.current_speaker = none ∧
    (memberSetExitVariables b' 0 0 .unset).broadcast_final_role = "speaker" := by
  refine ⟨_, .step rfl (.step rfl (.step rfl (.ret rfl))), fun h => ?_, rfl, rfl⟩
  exact absurd h.role (by decide)

end ModBroadcast
