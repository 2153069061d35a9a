import ModBroadcast.Channel
import ModBroadcast.SpeakerCalls

namespace ModBroadcast

open Automaton

variable {p : RoomProfile} {b b' : Broadcast} {c : Choice} {m n : ℕ} {s t : Room} {a : RoomAction}
  {h : List (Room × RoomAction)}

def Room.Displaces (s : Room) (a : RoomAction) (m : ℕ) : Prop :=
  ∃ th new, a.thread = some th ∧ (s.place th).calls = some (new, .since m)

theorem roomStep_displaces (hs : roomStep p s a = some t) (hd : s.Displaces a m) :
    t.b = s.b.modify m fun x => { x with speaker_since_us := 0 } := by
  obtain ⟨th, new, ha, hcall⟩ := hd
  cases roomStep_move hs with
  | background hnone =>
    rw [hnone] at ha
    cases ha
  | thread ha' _ hth =>
    obtain rfl := Option.some.inj (ha'.symm.trans ha)
    obtain ⟨z, hz, -⟩ := hth.calls.1 new _ hcall
    exact setSpeaker_since hz

theorem modify_since {f : Member → Member} :
    (b.modify m f).since = Function.update b.since m (f (b.member m)).speaker_since_us := by
  funext n
  by_cases hn : n = m
  · subst hn
    simp [Broadcast.since, Broadcast.modify]
  · simp [Broadcast.since, Broadcast.modify, hn]

theorem installSpeaker_since : (installSpeaker b (some m)).since =
    Function.update b.since m b.clock := by
  funext n
  by_cases hn : n = m
  · subst hn
    simp [Broadcast.since, installSpeaker, Broadcast.modify]
  · simp [Broadcast.since, installSpeaker, Broadcast.modify, hn]

inductive SinceStep (s t : Room) (a : RoomAction) (m : ℕ) : Prop
  | keep (h : t.b.since m = s.b.since m)
  | publish (hp : s.Publishes a m) (h : t.b.since m = s.b.clock)
  | displace (hd : s.Displaces a m)
  | prepare {c : Choice} {j : JoinParams} (ha : a = .session m c) (hpc : s.session m = .prepare j)

theorem roomStep_since (hs : roomStep p s a = some t) (m : ℕ) : SinceStep s t a m := by
  have other : ∀ {k w : ℕ}, k ≠ m → t.b.since = Function.update s.b.since k w →
      SinceStep s t a m := by
    intro k w hk hw
    refine .keep ?_
    rw [hw, Function.update_of_ne (Ne.symm hk)]
  have displace : ∀ th new, ∀ {old : ℕ}, a.thread = some th →
      (s.place th).calls = some (new, .since old) →
      t.b = s.b.modify old (fun x => { x with speaker_since_us := 0 }) → SinceStep s t a m := by
    intro th new old ha hcall hb
    by_cases ho : old = m
    · subst ho
      exact .displace ⟨th, new, ha, hcall⟩
    · exact other ho (by rw [hb, modify_since])
  cases roomStep_figures hs with
  | keep _ _ h => exact .keep (by rw [since_of_figures h])
  | elapse h => exact .keep (by rw [h]; rfl)
  | @api u c h =>
    generalize hpc : s.api u = pc at h
    cases h with
    | keep _ h => exact .keep (by rw [since_of_figures h])
    | flag h => exact .keep (by rw [h]; cases ‹FlagCommand› <;> rfl)
    | join h =>
      refine .keep ?_
      rw [h]
      exact congrArg Member.speaker_since_us (congrFun listenerAdd_stats_member m)
    | displace h => exact displace (.api u) none rfl (by simp [Room.place, hpc, Place.calls]) h
  | @session n c h =>
    generalize hpc : s.session n = pc at h
    cases h with
    | keep _ h => exact .keep (by rw [since_of_figures h])
    | @prepare j h =>
      by_cases hn : n = m
      · subst hn
        exact .prepare rfl hpc
      · exact other hn (by rw [h, memberPrepare, modify_since])
    | join h =>
      refine .keep ?_
      rw [h]
      exact congrArg Member.speaker_since_us (congrFun listenerAdd_stats_member m)
    | leave h =>
      refine .keep ?_
      rw [h]
      exact congrArg Member.speaker_since_us (congrFun listenerDel_member m)
    | @install promoted hc h =>
      have hw : t.b.since = Function.update s.b.since n s.b.clock := by
        rw [h, installSpeaker_since]
      by_cases hn : n = m
      · subst hn
        exact .publish ⟨c, promoted, rfl, hpc⟩ (by rw [hw, Function.update_self])
      · exact other hn hw
    | displace h => exact displace (.session n) _ rfl (by simp [Room.place, hpc, Place.calls]; rfl) h
    | displaceSelf h =>
      exact displace (.session n) none rfl (by simp [Room.place, hpc, Place.calls]) h

def SessionPc.Installed : SessionPc → Prop
  | .speak _ (.fire _) | .speak _ (.stop _ _) | .speak _ (.since _) | .wait _ | .lower
  | .exitVariables | .clear _ | .cleanup | .release | .returned => True
  | _ => False

theorem SessionPc.Next.installed {pc pc' : SessionPc} (hn : pc.Next pc') (hi : pc.Installed) :
    pc'.Installed := by
  cases pc with
  | speak promoted k =>
    rcases hn with ⟨k', rfl, hk⟩ | rfl | ⟨rfl | rfl | rfl, rfl⟩
    · cases k <;> cases k' <;> trivial
    · trivial
    all_goals exact absurd hi id
  | wait | clear =>
    rcases hn with ⟨k, rfl⟩ | rfl <;> trivial
  | lower | exitVariables | cleanup | release =>
    obtain rfl := hn
    trivial
  | returned => exact absurd hn id
  | _ => exact absurd hi id

theorem roomStep_installed (hs : roomStep p s a = some t) (hi : (s.session m).Installed) :
    (t.session m).Installed := by
  rcases roomStep_session hs m with h | ⟨c, -, h⟩ | ⟨j, -, h⟩
  · rwa [h]
  · exact (appFunction_next h).installed hi
  · cases hpc : s.session m <;> simp [hpc, joinSession, SessionPc.Installed] at h hi

theorem roomStep_publishes (hs : roomStep p s a = some t) (hp : s.Publishes a m) :
    (t.session m).Installed ∧ (t.b.current_speaker = some m → s.b.current_speaker = some m ∨
      t.b.since m = s.b.clock) := by
  obtain ⟨c, promoted, rfl, hpc⟩ := hp
  have h := roomStep_own hs
  rw [hpc] at h
  obtain ⟨x, hx, he⟩ := Option.map_eq_some_iff.mp h
  obtain ⟨hb, hpc'⟩ := Prod.mk.inj he
  rw [← hpc', ← hb]
  obtain ⟨-, ⟨hc, rfl⟩ | ⟨-, rfl⟩⟩ := setSpeaker_install hx
  · exact ⟨trivial, fun _ => .inl hc⟩
  · exact ⟨trivial, fun _ => .inr (by rw [installSpeaker_since, Function.update_self])⟩

def WasDisplaced (h : List (Room × RoomAction)) (m : ℕ) : Prop := ∃ x ∈ h, x.1.Displaces x.2 m

/-- What `speaker_since_us` says about the past. -/
structure TimeSound (h : List (Room × RoomAction)) (s : Room) : Prop where
  clock : 0 < s.b.clock
  displaces : DisplacesSpeakers h s
  installed : ∀ m, WasSpeaker h s m → (s.session m).Installed
  running : ∀ m, WasSpeaker h s m → ¬ WasDisplaced h m → 0 < s.b.since m
  stopped : ∀ m, WasDisplaced h m → WasSpeaker h s m ∧ s.b.since m = 0

theorem TimeSound.init : TimeSound [] Room.init := by
  have never : ∀ m, ¬ WasSpeaker [] Room.init m := by
    rintro m (hc | ⟨x, hx, -⟩)
    · cases hc
    · cases hx
  refine ⟨Nat.zero_lt_one, .init, fun m hw => absurd hw (never m), fun m hw => absurd hw (never m), ?_⟩
  rintro m ⟨x, hx, -⟩
  cases hx

theorem WasSpeaker.before (hw : WasSpeaker ((s, a) :: h) t m) :
    WasSpeaker h s m ∨ t.b.current_speaker = some m ∧ s.b.current_speaker ≠ some m := by
  by_cases hc : s.b.current_speaker = some m
  · exact .inl (.inl hc)
  · rcases hw with hc' | ⟨x, hx, hc'⟩
    · exact .inr ⟨hc', hc⟩
    · rcases List.mem_cons.mp hx with rfl | hx
      · exact absurd hc' hc
      · exact .inl (.inr ⟨x, hx, hc'⟩)

theorem TimeSound.step (hi : TimeSound h s) (hs : roomStep p s a = some t) :
    TimeSound ((s, a) :: h) t := by
  -- a member that enters the slot is stored there with the time on the clock
  have entered : ∀ m, t.b.current_speaker = some m → s.b.current_speaker ≠ some m →
      (t.session m).Installed ∧ 0 < t.b.since m := by
    intro m hc hne
    obtain hcur | hpub := roomStep_current hs hc
    · exact absurd hcur hne
    · obtain ⟨hinst, hsince⟩ := roomStep_publishes hs hpub
      refine ⟨hinst, ?_⟩
      rw [(hsince hc).resolve_left hne]
      exact hi.clock
  have displaced : ∀ m, s.Displaces a m → WasSpeaker h s m := by
    rintro m ⟨th, new, -, hcall⟩
    exact hi.displaces th m (by simp [Place.displaced, hcall, SetSpeakerPc.old])
  have zero : ∀ m, s.Displaces a m → t.b.since m = 0 := by
    intro m hd
    rw [roomStep_displaces hs hd, modify_since, Function.update_self]
  refine ⟨Nat.lt_of_lt_of_le hi.clock (roomStep_clock hs), hi.displaces.step hs, fun m hw => ?_,
    fun m hw hnot => ?_, ?_⟩
  · rcases hw.before with hw | ⟨hc, hne⟩
    · exact roomStep_installed hs (hi.installed m hw)
    · exact (entered m hc hne).1
  · rcases hw.before with hw | ⟨hc, hne⟩
    · cases roomStep_since hs m with
      | keep h =>
        rw [h]
        refine hi.running m hw ?_
        rintro ⟨x, hx, hd⟩
        exact hnot ⟨x, List.mem_cons_of_mem _ hx, hd⟩
      | publish _ h => exact h ▸ hi.clock
      | displace hd => exact absurd ⟨(s, a), List.mem_cons_self, hd⟩ hnot
      | prepare _ hpc =>
        have hinst := hi.installed m hw
        rw [hpc] at hinst
        exact hinst.elim
    · exact (entered m hc hne).2
  · rintro m ⟨x, hx, hd⟩
    rcases List.mem_cons.mp hx with rfl | hx
    · exact ⟨(displaced m hd).step, zero m hd⟩
    · obtain ⟨hw, h0⟩ := hi.stopped m ⟨x, hx, hd⟩
      have hinst := hi.installed m hw
      refine ⟨hw.step, ?_⟩
      cases roomStep_since hs m with
      | keep h => exact h.trans h0
      | publish hp =>
        obtain ⟨c, promoted, -, hpc⟩ := hp
        rw [hpc] at hinst
        exact hinst.elim
      | displace hd => exact zero m hd
      | prepare _ hpc =>
        rw [hpc] at hinst
        exact hinst.elim

def Room.SetsExitVariables (s : Room) (a : RoomAction) (m : ℕ) : Prop :=
  ∃ c, a = .session m c ∧ (s.session m = .exitVariables ∨ s.session m = .listenerVariables)

def SetsSpeakerTime (b : Broadcast) (m : ℕ) : Prop :=
  ∀ join_us v, (memberSetExitVariables b m join_us v).broadcast_was_speaker_for_ms =
    some ((b.clock - b.since m) / 1000)

theorem setsSpeakerTime_iff : SetsSpeakerTime b m ↔ 0 < b.since m := by
  constructor
  · intro hset
    by_contra hzero
    have hnone : (memberSetExitVariables b m 0 .unset).broadcast_was_speaker_for_ms = none :=
      if_neg hzero
    rw [hset] at hnone
    cases hnone
  · intro hpos join_us v
    exact if_pos hpos

/-- A member that has been the speaker leaves with its time. -/
def ReportsSpeakerTime (h : List (Room × RoomAction)) (s : Room) (a : RoomAction) : Prop :=
  ∀ m, s.SetsExitVariables a m → WasSpeaker h s m → SetsSpeakerTime s.b m

/-- A member comes to its exit helper before anyone has taken its time back. -/
def LeavesInTime (h : List (Room × RoomAction)) (s : Room) (a : RoomAction) : Prop :=
  ∀ m, s.SetsExitVariables a m → ¬ WasDisplaced h m

theorem TimeSound.reports_iff (hi : TimeSound h s) : ReportsSpeakerTime h s a ↔ LeavesInTime h s a := by
  constructor
  · intro hrep m hexit hd
    obtain ⟨hw, h0⟩ := hi.stopped m hd
    have hpos := setsSpeakerTime_iff.mp (hrep m hexit hw)
    omega
  · intro hin m hexit hw
    exact setsSpeakerTime_iff.mpr (hi.running m hw (hin m hexit))

/-- Every member that has been the speaker leaves with its time exactly when every member
comes to its exit helper before the store that ends a displacement. -/
theorem speaker_time_reported_iff (hr : Run (roomStep p) Room.init h s) :
    MeetsPast ReportsSpeakerTime h ↔ MeetsPast LeavesInTime h :=
  hr.meetsPast_iff (I := TimeSound) (fun _ _ _ _ hi hs => hi.step hs)
    (fun _ _ _ _ hi _ => hi.reports_iff) .init

def displacesTest (s : Room) (a : RoomAction) : Bool :=
  match a.thread.bind fun th => (s.place th).calls with
  | some (_, .since _) => false
  | _ => true

theorem not_displaces_of_test (ht : displacesTest s a = true) : ¬ s.Displaces a m := by
  rintro ⟨th, new, ha, hcall⟩
  simp [displacesTest, ha, hcall] at ht

theorem leavesInTime_of_test (hm : Meets (fun s a => displacesTest s a = true) h) :
    MeetsPast LeavesInTime h := by
  induction h with
  | nil => trivial
  | cons x h ih =>
    obtain ⟨-, hm⟩ := meets_cons.mp hm
    refine ⟨?_, ih hm⟩
    rintro m - ⟨y, hy, hd⟩
    exact not_displaces_of_test (hm y hy) hd

/-- A speaker whose turn is ended by the teardown leaves with its time. -/
theorem speaker_time_reported_iff_destroyed : ∃ (h : List (Room × RoomAction)) (s : Room),
    Run (roomStep ⟨8, false, 16, false, false⟩) Room.init h s ∧
      (∃ x ∈ h, x.1.SetsExitVariables x.2 0 ∧ x.1.b.since 0 = 1) ∧
        MeetsPast ReportsSpeakerTime h := by
  obtain ⟨h, s, hr, hm, hv⟩ := exists_run_observing (roomStep ⟨8, false, 16, false, false⟩)
    displacesTest Room.init
    (List.flatten [[.join 0 ⟨.speaker, false, false⟩], List.replicate 10 (.session 0 .ok),
      [.call 0 (.destroy false false)], List.replicate 9 (.api 0 .ok),
      List.replicate 8 (.session 0 .ok)])
    (fun h _ => h.any fun x => x.2 = .session 0 .ok ∧ x.1.session 0 = .exitVariables ∧
      x.1.b.since 0 = 1)
    (v := true) (by decide)
  obtain ⟨x, hx, hat⟩ := List.any_eq_true.mp hv
  obtain ⟨ha, hpc, h1⟩ := of_decide_eq_true hat
  exact ⟨h, s, hr, ⟨x, hx, ⟨.ok, ha, .inl hpc⟩, h1⟩,
    (speaker_time_reported_iff hr).mpr (leavesInTime_of_test hm)⟩

/-- A speaker that hangs up leaves without its time. -/
theorem speaker_time_lost : ¬ ∀ (h : List (Room × RoomAction)) (s : Room),
    Run (roomStep ⟨8, false, 16, false, false⟩) Room.init h s → MeetsPast ReportsSpeakerTime h := by
  refine not_forall_run (fun _ _ => true)
    (List.flatten [[.join 0 ⟨.speaker, false, false⟩], List.replicate 10 (.session 0 .ok),
      [.hangup 0], List.replicate 5 (.session 0 .ok), List.replicate 6 (.input 0 .ok),
      List.replicate 7 (.session 0 .ok)])
    (fun h _ => (h.head?.map fun x => (x.2, x.1.session 0, x.1.b.since 0),
      h.tail.any fun x => x.1.b.current_speaker = some 0))
    (v := (some (.session 0 .ok, .exitVariables, 0), true)) (by decide) ?_
  intro h s hr _ hv hall
  obtain ⟨hlast, hwas⟩ := Prod.mk.inj hv
  cases hr with
  | nil => cases hlast
  | @snoc h t a _ hrun hstep =>
    obtain ⟨ha, hpc, h0⟩ : a = _ ∧ t.session 0 = _ ∧ t.b.since 0 = 0 := by simpa using hlast
    obtain ⟨x, hx, hcur⟩ := List.any_eq_true.mp hwas
    have hpos := setsSpeakerTime_iff.mp
      (hall.1 0 ⟨.ok, ha, .inl hpc⟩ (.inr ⟨x, hx, of_decide_eq_true hcur⟩))
    omega

end ModBroadcast
