import ModBroadcast.Promotion

namespace ModBroadcast

open Automaton

variable {p : RoomProfile} {b b' : Broadcast} {c : Choice} {m : ℕ} {s t u : Room} {a : RoomAction}
  {h h' : List (Room × RoomAction)}

def SessionPc.Left : SessionPc → Prop
  | .listen k => k = .dtmf ∨ k = .check ∨ k = .stop ∨ k = .leave
  | .decide | .listenerVariables | .unlink | .clear _ | .cleanup | .release | .returned => True
  | _ => False

/-- The session of `m` finds its transition flag clear when it tests it, and no rollback
for `m` ends before that session has returned. -/
def NotPromoted (m : ℕ) (s : Room) (a : RoomAction) : Prop :=
  (∀ c, a = .session m c → s.session m = .decide →
    (s.b.member m).mflags.roleTransitionToSpeaker = false) ∧
  ∀ v c x, a = .api v c → s.api v = .promote x m (.add .running) → s.session m = .returned

structure HasLeft (m : ℕ) (s : Room) : Prop where
  place : (s.session m).Left
  running : s.session m ≠ .returned → (s.b.member m).mflags.running = false
  slot : s.b.current_speaker ≠ some m

theorem SessionPc.Left.not_published {pc : SessionPc} (hl : pc.Left) {promoted : Bool}
    {k : SetSpeakerPc} : pc ≠ .speak promoted k := by
  rintro rfl
  exact hl

theorem SessionPc.Left.not_setsRunning {pc : SessionPc} (hl : pc.Left) : ¬ pc.SetsRunning := by
  cases pc with
  | running | raise => exact hl.elim
  | add k => exact hl.elim
  | _ => exact id

/-- A session whose loop has been told to end goes out of the listener branch. -/
theorem appFunction_left {pc pc' : SessionPc} (h : appFunction p b m c pc = some (b', pc'))
    (hl : pc.Left) (hrun : (b.member m).mflags.running = false)
    (hflag : pc = .decide → (b.member m).mflags.roleTransitionToSpeaker = false) : pc'.Left := by
  have hn := appFunction_next h
  cases pc with
  | listen k =>
    obtain ⟨-, rfl⟩ := Prod.mk.inj (Option.some.inj h)
    obtain rfl | rfl | rfl | rfl := hl
    · dsimp only [listenerRun]
      split
      · exact .inl rfl
      · exact .inr (.inl rfl)
    · simp [listenerRun, hrun, Progress.resume, SessionPc.Left]
    · exact .inr (.inr (.inr rfl))
    · trivial
  | decide =>
    obtain ⟨-, rfl⟩ := Prod.mk.inj (Option.some.inj h)
    rw [hflag rfl]
    trivial
  | clear k => obtain ⟨k', rfl⟩ | rfl := hn <;> trivial
  | listenerVariables | unlink | cleanup | release =>
    obtain rfl := hn
    trivial
  | returned => cases h
  | _ => exact hl.elim

theorem HasLeft.dispatch (hi : s.SlotSound) (hpc : s.session m = .listen .dtmf)
    (hs : roomStep p s (.session m (.dtmf .leave)) = some t) : HasLeft m t := by
  have hx := roomStep_own hs
  rw [hpc] at hx
  obtain ⟨hb, hpc'⟩ := Prod.mk.inj (Option.some.inj hx)
  refine ⟨?_, fun _ => ?_, fun hcur => ?_⟩
  · rw [← hpc']
    exact .inl rfl
  · rw [← hb]
    simp [listenerRun, dispatchControl, Broadcast.modifyFlags, Broadcast.modify]
  -- a session in its listener loop is not the speaker
  · obtain hcur | ⟨_, promoted, -, hpub⟩ := roomStep_current hs hcur
    · have hp := hi.published m hcur
      rw [hpc] at hp
      exact hp
    · rw [hpc] at hpub
      cases hpub

theorem HasLeft.step (hi : HasLeft m s) (hg : NotPromoted m s a) (hs : roomStep p s a = some t) :
    HasLeft m t where
  place := by
    obtain h | ⟨c, rfl, h⟩ | ⟨j, -, h⟩ := roomStep_session hs m
    · rw [h]
      exact hi.place
    · refine appFunction_left h hi.place (hi.running fun hret => ?_) (hg.1 c rfl)
      rw [hret] at h
      cases h
    · have hl := hi.place
      cases hpc : s.session m <;> simp [hpc, joinSession, SessionPc.Left] at h hl
  running hret := by
    have hlast : s.session m ≠ .returned := by
      intro hpc
      obtain h | ⟨c, -, h⟩ | ⟨j, -, h⟩ := roomStep_session hs m
      · exact hret (h.trans hpc)
      · rw [hpc] at h
        cases h
      · rw [hpc] at h
        cases h
    rw [← Bool.not_eq_true]
    intro ht
    -- `MFLAG_RUNNING` is raised by the own session or by a rollback
    obtain hrun | ⟨c, rfl, hsets⟩ | ⟨v, c, x, rfl, hback⟩ := roomStep_running (m := m) hs ht
    · have := hi.running hlast
      rw [show (s.b.member m).mflags.running = true from hrun] at this
      cases this
    · exact hi.place.not_setsRunning hsets
    · exact hlast (hg.2 v c x rfl hback)
  slot hcur := by
    obtain hcur | ⟨_, promoted, -, hpub⟩ := roomStep_current hs hcur
    · exact hi.slot hcur
    · exact hi.place.not_published hpub

/-- A self-leave is final: after the dispatch of LEAVE the member is never published, and
its `MFLAG_RUNNING` stays clear until its call returns, as long as no promotion of it
interferes. -/
theorem self_leave_final (hr : Run (roomStep p) Room.init h s)
    (hpc : s.session m = .listen .dtmf)
    (hs : roomStep p s (.session m (.dtmf .leave)) = some t) (hr' : Run (roomStep p) t h' u)
    (hg : Meets (NotPromoted m) h') :
    u.b.current_speaker ≠ some m ∧
      (u.session m ≠ .returned → (u.b.member m).mflags.running = false) := by
  have hi : HasLeft m u := hr'.invariant (fun _ _ _ hi hg hs => hi.step hg hs) hg
    (.dispatch (slotSound_of_run hr) hpc hs)
  exact ⟨hi.slot, hi.running⟩

def notPromotedTest (m : ℕ) (s : Room) : RoomAction → Bool
  | .session n _ => n = m → s.session m = .decide →
    (s.b.member m).mflags.roleTransitionToSpeaker = false
  | .api v _ =>
    match s.api v with
    | .promote _ n (.add .running) => n = m → s.session m = .returned
    | _ => true
  | _ => true

theorem notPromoted_of_test (ht : notPromotedTest m s a = true) : NotPromoted m s a := by
  constructor
  · rintro c rfl hpc
    exact of_decide_eq_true ht rfl hpc
  · rintro v c x rfl hpc
    simpa [notPromotedTest, hpc] using ht

/-- The listener leaves while a request that has unlinked it still has to raise the flag. -/
theorem self_leave_final_late_request : ∃ (h : List (Room × RoomAction)) (s t : Room)
    (h' : List (Room × RoomAction)) (u : Room),
    Run (roomStep ⟨8, true, 16, false, false⟩) Room.init h s ∧ s.api 0 = .promote 0 0 .raise ∧
      roomStep ⟨8, true, 16, false, false⟩ s (.session 0 (.dtmf .leave)) = some t ∧
      Run (roomStep ⟨8, true, 16, false, false⟩) t h' u ∧ u.session 0 = .cleanup ∧
      (u.b.member 0).mflags.roleTransitionToSpeaker = true ∧ u.b.current_speaker ≠ some 0 ∧
      (u.session 0 ≠ .returned → (u.b.member 0).mflags.running = false) := by
  obtain ⟨h, s, t, h', u, hr, hs, hr', hm, hv⟩ :=
    exists_runs_observing (roomStep ⟨8, true, 16, false, false⟩) (notPromotedTest 0) Room.init
      (List.flatten [[.join 0 ⟨.listener, false, false⟩], List.replicate 9 (.session 0 .ok),
        [.call 0 (.member .promote 1)], List.replicate 7 (.api 0 .ok)])
      (.session 0 (.dtmf .leave))
      (List.flatten [List.replicate 5 (.session 0 .ok), List.replicate 3 (.api 0 .ok),
        List.replicate 3 (.session 0 .ok)])
      (fun s _ u => (s.session 0, s.api 0, u.session 0,
        (u.b.member 0).mflags.roleTransitionToSpeaker))
      (v := (.listen .dtmf, .promote 0 0 .raise, .cleanup, true)) (by decide)
  simp only [Prod.mk.injEq] at hv
  obtain ⟨hpc, hreq, hend, hflag⟩ := hv
  exact ⟨h, s, t, h', u, hr, hreq, hs, hr', hend, hflag,
    self_leave_final hr hpc hs hr' (hm.mono fun _ _ => notPromoted_of_test)⟩

/-- A request has raised the flag before LEAVE is dispatched: the session that has been
told to leave publishes its member. -/
theorem left_listener_published : ¬ ∀ (h : List (Room × RoomAction)) (s t : Room)
    (h' : List (Room × RoomAction)) (u : Room),
    Run (roomStep ⟨8, true, 16, false, false⟩) Room.init h s → s.session 0 = .listen .dtmf →
      roomStep ⟨8, true, 16, false, false⟩ s (.session 0 (.dtmf .leave)) = some t →
      Run (roomStep ⟨8, true, 16, false, false⟩) t h' u →
      u.b.current_speaker ≠ some 0 ∧
        (u.session 0 ≠ .returned → (u.b.member 0).mflags.running = false) := by
  obtain ⟨h, s, t, h', u, hr, hs, hr', -, hv⟩ :=
    exists_runs_observing (roomStep ⟨8, true, 16, false, false⟩) (fun _ _ => true) Room.init
      (List.flatten [[.join 0 ⟨.listener, false, false⟩], List.replicate 9 (.session 0 .ok),
        [.call 0 (.member .promote 1)], List.replicate 8 (.api 0 .ok)])
      (.session 0 (.dtmf .leave)) (List.replicate 12 (.session 0 .ok))
      (fun s _ u => (s.session 0, u.b.current_speaker))
      (v := (.listen .dtmf, some 0)) (by decide)
  simp only [Prod.mk.injEq] at hv
  obtain ⟨hpc, hcur⟩ := hv
  intro hall
  exact (hall h s t h' u hr hpc hs hr').1 hcur

end ModBroadcast
