import ModBroadcast.Inputs
import ModBroadcast.MemberIds
import ModBroadcast.Touches

namespace ModBroadcast

open Automaton

variable {p : RoomProfile} {b b' : Broadcast} {c : Choice} {m n u : ℕ} {s t : Room}
  {a : RoomAction} {h : List (Room × RoomAction)}

/-- An access is safe under a pin of the member's session, under a lock that still
leads to the member, or before the member's call has returned. -/
def SafeAccess (s : Room) (m : ℕ) (κ : Cover) : Prop :=
  κ = .pin m ∨ κ = .listenerLock ∧ m ∈ s.b.listeners ∨
    κ = .speakerLock ∧ s.b.current_speaker = some m ∨ s.session m ≠ .returned

/-- Every access of the step to another thread's member is safe. -/
def TouchesSafely (s : Room) (a : RoomAction) : Prop := ∀ x ∈ touches s a, SafeAccess s x.1 x.2

def SetSpeakerPc.Needs (m : ℕ) : SetSpeakerPc → Prop
  | .fire old => old = some m
  | .stop old _ | .since old => old = m
  | _ => False

def DestroyPc.Needs (m : ℕ) : DestroyPc → Prop
  | .stop old _ => old = m
  | .snapshot old | .hangup old _ | .waitCount old | .waitSlot old _ | .waitOld old _ _ => old = some m
  | _ => False

def SessionPc.Needs (m : ℕ) : SessionPc → Prop
  | .speak _ k | .wait (.clear k) => k.Needs m
  | _ => False

/-- A command on a member has no pin of the member's own session when its second lookup
has found another member than the first. -/
def ApiPc.Needs (m : ℕ) : ApiPc → Prop
  | .promote x n _ | .kick x n _ | .dtmf x n => n = m ∧ x ≠ m
  | .clearSpeaker k => k.Needs m
  | .destroy _ _ k => k.Needs m
  | _ => False

def EmitterPc.Needs (m : ℕ) : EmitterPc → Prop
  | .use _ _ n => n = m
  | _ => False

def Room.Needed (s : Room) (m : ℕ) : Prop :=
  (∃ n, n ≠ m ∧ (s.session n).Needs m) ∨ (∃ u, (s.api u).Needs m) ∨ s.emitter.Needs m ∨
    (s.b.member m).input = .start

def ApiPc.LooksUp (b : Broadcast) (m : ℕ) : ApiPc → Prop
  | .resolve _ id x => findListener b id = some m ∧ x ≠ m
  | _ => False

def EmitterPc.LooksUp (b : Broadcast) (m : ℕ) : EmitterPc → Prop
  | .find _ id => findListener b id = some m
  | _ => False

def Room.LooksUp (s : Room) (a : RoomAction) (m : ℕ) : Prop :=
  (∃ u c, a = .api u c ∧ (s.api u).LooksUp s.b m) ∨ a = .emitter ∧ s.emitter.LooksUp s.b m

/-- No lookup on the list finds a member whose call has returned. -/
def LooksUpLiving (s : Room) (a : RoomAction) : Prop := ∀ m, s.LooksUp a m → s.session m ≠ .returned

def ReturnsUnneeded (s : Room) (a : RoomAction) : Prop :=
  ∀ m c, a = .session m c → s.session m = .release → ¬ s.Needed m

theorem setSpeaker_needs {new : Option ℕ} {k k' : SetSpeakerPc}
    {x : Broadcast × Progress SetSpeakerPc} (h : setSpeaker b new c k = some x) (hx : x.2 = .run k')
    (hm : k'.Needs m) : k.Needs m ∨ b.current_speaker = some m := by
  cases k with
  | guard | audio | role | start =>
    obtain ⟨n, -, rfl⟩ := Option.map_eq_some_iff.mp h
    (try split_ifs at hx) <;> cases hx <;> exact hm.elim
  | install =>
    obtain ⟨-, ⟨-, rfl⟩ | ⟨-, rfl⟩⟩ := setSpeaker_install h <;> cases hx
    exact .inr hm
  | fire old =>
    cases old <;> obtain rfl := Option.some.inj h <;> cases hx
    exact .inl (congrArg some hm)
  | stop old k =>
    obtain ⟨⟨y, k₁ | ok⟩, -, rfl⟩ := Option.map_eq_some_iff.mp h <;> cases hx <;> exact .inl hm
  | since old =>
    obtain rfl := Option.some.inj h
    cases hx

/-- A session needs a member of another only inside `broadcast_set_speaker`. -/
theorem SessionPc.Next.needs {pc pc' : SessionPc} (hn : pc.Next pc') (hm : pc'.Needs m) :
    (∃ promoted k k', pc = .speak promoted k ∧ pc' = .speak promoted k') ∨
      ∃ k k', pc = .wait k ∧ pc' = .wait (.clear k') := by
  cases pc' with
  | speak promoted k' =>
    obtain ⟨k, rfl, -⟩ | ⟨-, rfl⟩ := hn.follows
    · exact .inl ⟨promoted, k, k', rfl, rfl⟩
    · exact hm.elim
  | wait k' =>
    cases k' with
    | clear k' =>
      obtain ⟨k, rfl⟩ | ⟨-, he⟩ := hn.follows
      · exact .inr ⟨k, k', rfl, rfl⟩
      · cases he
    | _ => exact hm.elim
  | _ => exact hm.elim

theorem appFunction_needs {pc pc' : SessionPc} (h : appFunction p b n c pc = some (b', pc'))
    (hm : pc'.Needs m) : pc.Needs m ∨ b.current_speaker = some m := by
  rcases (appFunction_next h).needs hm with ⟨promoted, k, k', rfl, rfl⟩ | ⟨k, k', rfl, rfl⟩
  · obtain ⟨⟨x, k₁ | ok⟩, hx, he⟩ := Option.map_eq_some_iff.mp h
    · cases he
      exact setSpeaker_needs hx rfl hm
    · cases ok <;> cases promoted <;> cases he
  · obtain ⟨⟨x, k₁ | ok⟩, hx, he⟩ := Option.map_eq_some_iff.mp h <;> cases he
    rcases speakerMainWait_clear hx rfl with ⟨-, rfl⟩ | ⟨k₀, rfl, hy⟩
    · exact hm.elim
    · exact setSpeaker_needs hy rfl hm

theorem destroyRoom_needs {grace announcement : Bool} {k k' : DestroyPc}
    {x : Broadcast × Progress DestroyPc} (h : destroyRoom p grace announcement b c k = some x)
    (hx : x.2 = .run k') (hm : k'.Needs m) : k.Needs m ∨ b.current_speaker = some m := by
  obtain ⟨-, hret⟩ | ⟨k₁, hrun, hn⟩ := destroyRoom_next h
  · rw [hx] at hret
    cases hret
  obtain rfl := Progress.run.inj (hx.symm.trans hrun)
  cases k with
  | slot =>
    -- the only step that takes a pointer, out of the slot
    simp only [destroyRoom] at h
    split_ifs at h
    obtain rfl := Option.some.inj h
    cases hx
    split at hm
    · exact .inr (hm ▸ ‹_›)
    · cases hm
  | stop =>
    obtain ⟨_, rfl⟩ | rfl := hn
    · exact .inl hm
    · exact .inl (Option.some.inj hm)
  | hangup =>
    obtain ⟨_, rfl⟩ | rfl := hn <;> exact .inl hm
  | snapshot | waitSlot =>
    obtain ⟨_, rfl⟩ := hn
    exact .inl hm
  | waitCount =>
    obtain rfl | ⟨_, rfl⟩ := hn
    · exact hm.elim
    · exact .inl hm
  | waitOld =>
    obtain ⟨-, rfl⟩ | rfl := hn
    · exact hm.elim
    · exact .inl hm
  | stopRecords =>
    obtain ⟨_, -, rfl⟩ | rfl := hn <;> exact hm.elim
  | flag | refs =>
    obtain rfl | rfl := hn <;> exact hm.elim
  | pool => exact hn.elim
  | _ =>
    obtain rfl := hn
    exact hm.elim

theorem MemberCommand.begin_needs {k : MemberCommand} {x n : ℕ} (hm : (k.begin x n).Needs m) :
    n = m ∧ x ≠ m := by
  cases k <;> exact hm

/-- An API thread takes a pointer to a member in `broadcast_set_speaker`, in
`broadcast_destroy_ex` and in the second lookup of a command on a member. -/
theorem apiDispatch_needs {pc pc' : ApiPc} (h : apiDispatch p b c pc = some (b', pc'))
    (hm : pc'.Needs m) : pc.Needs m ∨ b.current_speaker = some m ∨ pc.LooksUp b m := by
  cases apiDispatch_cases h with
  -- the member found second need not be the one whose session is pinned
  | resolve hn hpc =>
    rw [hpc] at hm
    obtain ⟨rfl, hx⟩ := MemberCommand.begin_needs hm
    exact .inr (.inr ⟨hn, hx⟩)
  | resolveSpeaker hn hpc =>
    rw [hpc] at hm
    obtain ⟨rfl, -⟩ := MemberCommand.begin_needs hm
    exact .inr (.inl (findSpeaker_id hn).2)
  | promote | kick => exact .inl hm
  | clearSpeaker hk => exact (setSpeaker_needs hk rfl hm).imp_right .inl
  | destroy hk => exact (destroyRoom_needs hk rfl hm).imp_right .inl
  | _ => exact hm.elim

theorem eventEmitter_needs {k k' : EmitterPc} (h : eventEmitter b k = some (b', k'))
    (hm : k'.Needs m) : b.current_speaker = some m ∨ k.LooksUp b m := by
  cases k with
  | idle =>
    simp only [eventEmitter] at h
    split_ifs at h
    obtain ⟨-, rfl⟩ := Prod.mk.inj (Option.some.inj h)
    exact hm.elim
  | drain =>
    simp only [eventEmitter] at h
    split at h <;> obtain ⟨-, rfl⟩ := Prod.mk.inj (Option.some.inj h)
    · exact hm.elim
    · split_ifs at hm <;> exact hm.elim
  | find type id =>
    obtain ⟨-, rfl⟩ := Prod.mk.inj (Option.some.inj h)
    split at hm
    · obtain rfl := hm
      exact .inr ‹_›
    · exact hm.elim
  | findSpeaker type id =>
    obtain ⟨-, rfl⟩ := Prod.mk.inj (Option.some.inj h)
    split at hm
    · obtain rfl := hm
      exact .inl (findSpeaker_id ‹_›).2
    · exact hm.elim
  | use | fire =>
    obtain ⟨-, rfl⟩ := Prod.mk.inj (Option.some.inj h)
    exact hm.elim

theorem roomStep_emitter (hs : roomStep p s a = some t) : t.emitter = s.emitter ∨
    a = .emitter ∧ eventEmitter s.b s.emitter = some (t.b, t.emitter) := by
  cases a with
  | emitter =>
    obtain ⟨x, hx, rfl⟩ := Option.map_eq_some_iff.mp hs
    exact .inr ⟨rfl, hx⟩
  | _ => exact .inl ((roomStep_background hs).2.1 RoomAction.noConfusion)

/-- How a member comes to be needed. -/
theorem roomStep_needed (hs : roomStep p s a = some t) (hm : t.Needed m) :
    s.Needed m ∨ s.b.current_speaker = some m ∨ s.LooksUp a m ∨ s.StartsInput a m := by
  rcases hm with ⟨n, hn, hm⟩ | ⟨u, hm⟩ | hm | hm
  · rcases roomStep_session hs n with h | ⟨c, -, h⟩ | ⟨j, -, h⟩
    · exact .inl (.inl ⟨n, hn, h ▸ hm⟩)
    · rcases appFunction_needs h hm with h | h
      · exact .inl (.inl ⟨n, hn, h⟩)
      · exact .inr (.inl h)
    · cases hpc : s.session n <;> rw [hpc] at h <;> simp only [joinSession] at h <;> try cases h
      · obtain ⟨y, -, he⟩ := Option.map_eq_some_iff.mp h
        rw [← (Prod.mk.inj he).2] at hm
        exact hm.elim
      · rw [← (Prod.mk.inj (Option.some.inj h)).2] at hm
        split_ifs at hm <;> exact hm.elim
  · rcases roomStep_api hs u with h | ⟨c, ha, h⟩ | ⟨-, ⟨k, -, h⟩ | ⟨-, h⟩⟩
    · exact .inl (.inr (.inl ⟨u, h ▸ hm⟩))
    · rcases apiDispatch_needs h hm with h | h | h
      · exact .inl (.inr (.inl ⟨u, h⟩))
      · exact .inr (.inl h)
      · exact .inr (.inr (.inl (.inl ⟨u, c, ha, h⟩)))
    all_goals
      rw [h] at hm
      exact hm.elim
  · rcases roomStep_emitter hs with h | ⟨ha, h⟩
    · exact .inl (.inr (.inr (.inl (h ▸ hm))))
    · rcases eventEmitter_needs h hm with h | h
      · exact .inr (.inl h)
      · exact .inr (.inr (.inl (.inr ⟨ha, h⟩)))
  · rcases (roomStep_inputs hs).starts hm with h | h
    · exact .inl (.inr (.inr (.inr h)))
    · exact .inr (.inr (.inr h))

def Room.NeededLive (s : Room) : Prop := ∀ m, s.Needed m → s.session m ≠ .returned

theorem Room.NeededLive.init : Room.init.NeededLive := by
  intro m hm
  by_cases h0 : m = 0
  · subst h0
    simp [Room.init]
  · simp [Room.init, h0]

theorem roomStep_returned (hs : roomStep p s a = some t) (hm : t.session m = .returned) :
    s.session m = .returned ∨ ∃ c, a = .session m c ∧ s.session m = .release := by
  rcases roomStep_session hs m with h | ⟨c, ha, h⟩ | ⟨j, -, h⟩
  · exact .inl (h ▸ hm)
  · refine .inr ⟨c, ha, ?_⟩
    rw [hm] at h
    exact (appFunction_next h).follows
  · cases hpc : s.session m <;> rw [hpc] at h <;> simp only [joinSession] at h <;> try cases h
    · obtain ⟨y, -, he⟩ := Option.map_eq_some_iff.mp h
      cases (Prod.mk.inj he).2.trans hm
    · have hret := (Prod.mk.inj (Option.some.inj h)).2.trans hm
      split_ifs at hret

theorem Room.NeededLive.step (hi : s.NeededLive) (hslot : s.SlotSound) (hret : ReturnsUnneeded s a)
    (hlook : LooksUpLiving s a) (hs : roomStep p s a = some t) : t.NeededLive := by
  intro m hm hback
  have hcause := roomStep_needed hs hm
  rcases roomStep_returned hs hback with hgone | ⟨c, rfl, hrel⟩
  · rcases hcause with h | h | h | ⟨c, promoted, -, h⟩
    · exact hi m h hgone
    · exact hslot.not_returned h hgone
    · exact hlook m h hgone
    · cases h.symm.trans hgone
  · rcases hcause with h | h | (⟨u, c, h, -⟩ | ⟨h, -⟩) | ⟨c, promoted, -, h⟩
    · exact hret m c rfl hrel h
    · have hpub := hslot.published m h
      rw [hrel] at hpub
      exact hpub
    · cases h
    · cases h
    · cases h.symm.trans hrel

theorem SetSpeakerPc.needs_of_touches {k : SetSpeakerPc} {x : ℕ × Cover} (hx : x ∈ k.touches) :
    k.Needs x.1 := by
  cases k with
  | stop | since =>
    obtain rfl := List.mem_singleton.mp hx
    rfl
  | _ => cases hx

theorem SessionPc.needs_of_touches {pc : SessionPc} {x : ℕ × Cover} (hx : x ∈ pc.touches b) :
    pc.Needs x.1 ∨ x ∈ b.walk := by
  cases pc with
  | speak promoted k => exact .inl (SetSpeakerPc.needs_of_touches hx)
  | wait k =>
    cases k with
    | clear k => exact .inl (SetSpeakerPc.needs_of_touches hx)
    | _ => cases hx
  | add k =>
    cases k with
    | link => exact .inr hx
    | _ => cases hx
  | unlink => exact .inr hx
  | _ => cases hx

theorem DestroyPc.needs_of_touches {k : DestroyPc} {x : ℕ × Cover} (hx : x ∈ k.touches b) :
    k.Needs x.1 ∨ x ∈ b.walk := by
  cases k with
  | stop old k =>
    obtain rfl := List.mem_singleton.mp hx
    exact .inl rfl
  | snapshot => exact .inr hx
  | waitOld old lc has_sp =>
    obtain ⟨m, hm, rfl⟩ := List.mem_map.mp hx
    exact .inl (Option.mem_toList.mp hm)
  | _ => cases hx

theorem ApiPc.needs_of_touches {pc : ApiPc} {x : ℕ × Cover} (hx : x ∈ pc.touches b) :
    pc.Needs x.1 ∨ x ∈ b.walk ∨ x ∈ b.look ∨ x.2 = .pin x.1 := by
  have member : ∀ {y m : ℕ}, x = (m, .pin y) → (m = x.1 ∧ y ≠ x.1) ∨ x.2 = .pin x.1 := by
    rintro y m rfl
    by_cases hy : y = m
    · exact .inr (by rw [hy])
    · exact .inl ⟨rfl, hy⟩
  cases pc with
  | start k =>
    cases k with
    | info => exact .inr ((List.mem_append.mp hx).imp_right .inl)
    | kickAll => exact .inr (.inl hx)
    | _ => cases hx
  | find | resolve => exact .inr (.inl hx)
  | findSpeaker | resolveSpeaker => exact .inr (.inr (.inl hx))
  | promote y m k =>
    rcases List.mem_cons.mp hx with hx | hx
    · exact (member hx).imp_right fun h => .inr (.inr h)
    · split_ifs at hx
      · exact .inr (.inl hx)
      · cases hx
  | kick y m | dtmf y m =>
    exact (member (List.mem_singleton.mp hx)).imp_right fun h => .inr (.inr h)
  | clearSpeaker k => exact .inl (SetSpeakerPc.needs_of_touches hx)
  | destroy grace announcement k => exact (DestroyPc.needs_of_touches hx).imp_right .inl
  | _ => cases hx

theorem EmitterPc.needs_of_touches {k : EmitterPc} {x : ℕ × Cover} (hx : x ∈ k.touches b) :
    k.Needs x.1 ∨ x ∈ b.walk ∨ x ∈ b.look := by
  cases k with
  | find => exact .inr (.inl hx)
  | findSpeaker => exact .inr (.inr hx)
  | use type id m =>
    obtain rfl := List.mem_singleton.mp hx
    exact .inl rfl
  | _ => cases hx

theorem SafeAccess.walk {x : ℕ × Cover} (hx : x ∈ s.b.walk) : SafeAccess s x.1 x.2 := by
  obtain ⟨m, hm, rfl⟩ := List.mem_map.mp hx
  exact .inr (.inl ⟨rfl, hm⟩)

theorem SafeAccess.look {x : ℕ × Cover} (hx : x ∈ s.b.look) : SafeAccess s x.1 x.2 := by
  obtain ⟨m, hm, rfl⟩ := List.mem_map.mp hx
  exact .inr (.inr (.inl ⟨rfl, Option.mem_toList.mp hm⟩))

theorem Room.NeededLive.touchesSafely (hi : s.NeededLive) (hslot : s.SlotSound) :
    TouchesSafely s a := by
  have live : ∀ {m κ}, s.Needed m → SafeAccess s m κ := fun hm => .inr (.inr (.inr (hi _ hm)))
  intro x hx
  cases a with
  | session m c =>
    obtain ⟨hx, hne⟩ := List.mem_filter.mp hx
    have hne : m ≠ x.1 := fun h => by simp [h] at hne
    rcases SessionPc.needs_of_touches hx with h | h
    · exact live (.inl ⟨m, hne, h⟩)
    · exact .walk h
  | api u c =>
    rcases ApiPc.needs_of_touches hx with h | h | h | h
    · exact live (.inr (.inl ⟨u, h⟩))
    · exact .walk h
    · exact .look h
    · exact .inl h
  | producer c =>
    -- the producer holds `speaker_lock` as long as it uses the speaker
    have hlock : ∀ {m}, s.producer.speaker = some m → SafeAccess s m .speakerLock := fun hm =>
      .inr (.inr (.inl ⟨rfl, hslot.producer.2 _ hm⟩))
    cases hpc : s.producer with
    | locked got paused spk =>
      simp only [touches, hpc, ProducerPc.touches] at hx
      obtain ⟨m, hm, rfl⟩ := List.mem_map.mp hx
      apply hlock
      rw [hpc]
      exact Option.mem_toList.mp hm
    | reading m =>
      simp only [touches, hpc, ProducerPc.touches] at hx
      obtain rfl := List.mem_singleton.mp hx
      apply hlock
      rw [hpc]
      rfl
    | _ => simp [touches, hpc, ProducerPc.touches] at hx
  | input m c =>
    cases hpc : (s.b.member m).input with
    | start =>
      simp only [touches, hpc, InputPc.touches] at hx
      obtain rfl := List.mem_singleton.mp hx
      -- before it has the session's read lock the input thread has only the pointer
      exact live (.inr (.inr (.inr hpc)))
    | absent | ended => simp [touches, hpc, InputPc.touches] at hx
    | _ =>
      simp only [touches, hpc, InputPc.touches] at hx
      obtain rfl := List.mem_singleton.mp hx
      exact .inl rfl
  | emitter =>
    rcases EmitterPc.needs_of_touches hx with h | h | h
    · exact live (.inr (.inr (.inl h)))
    · exact .walk h
    · exact .look h
  | housekeeping c =>
    cases hpc : s.housekeeping with
    | heartbeat =>
      simp only [touches, hpc, HousekeepingPc.touches] at hx
      exact .look hx
    | mark =>
      simp only [touches, hpc, HousekeepingPc.touches] at hx
      exact .walk hx
    | _ => simp [touches, hpc, HousekeepingPc.touches] at hx
  | _ => cases hx

/-- Whoever touches a member of another session has its session pinned, holds the lock
under which it has found the member, or comes before the member's call has returned, as
long as no call returns while a bare pointer to its member is kept; and nobody changes a member
of another session that it is not said to touch. -/
theorem foreign_access_safe (hr : Run (roomStep p) Room.init h s)
    (hg : Meets (fun s a => ReturnsUnneeded s a ∧ LooksUpLiving s a) h) :
    Meets TouchesSafely h ∧ Meets (WritesTouched p) h := by
  constructor
  · refine hr.meets_of_invariant (I := fun s => s.NeededLive ∧ s.SlotSound) ?_ ?_ hg ⟨.init, .init⟩
    · rintro s a t ⟨hi, hslot⟩ ⟨hret, hlook⟩ hs
      exact ⟨hi.step hslot hret hlook hs, hslot.step hs⟩
    · rintro s a t ⟨hi, hslot⟩ - -
      exact hi.touchesSafely hslot
  · exact hg.mono fun _ _ _ => writesTouched _ _ _

instance : DecidablePred (SetSpeakerPc.Needs m) := fun k => by
  unfold SetSpeakerPc.Needs
  split <;> infer_instance

instance : DecidablePred (DestroyPc.Needs m) := fun k => by
  unfold DestroyPc.Needs
  split <;> infer_instance

instance : DecidablePred (SessionPc.Needs m) := fun pc => by
  unfold SessionPc.Needs
  split <;> infer_instance

instance : DecidablePred (ApiPc.Needs m) := fun pc => by
  unfold ApiPc.Needs
  split <;> infer_instance

instance : DecidablePred (EmitterPc.Needs m) := fun k => by
  unfold EmitterPc.Needs
  split <;> infer_instance

def foreignAccessTest (n : ℕ) (s : Room) : RoomAction → Bool
  | .session m _ => s.session m ≠ .release ∨ (∀ k < n, ¬ (s.session k).Needs m) ∧
      (∀ u < n, ¬ (s.api u).Needs m) ∧ ¬ s.emitter.Needs m ∧ (s.b.member m).input ≠ .start
  | .api _ _ | .emitter => ∀ m ∈ s.b.listeners, s.session m ≠ .returned
  | _ => true

theorem returnsUnneeded_of_test (hs : s.Small n) (ht : foreignAccessTest n s a = true) :
    ReturnsUnneeded s a := by
  rintro m c rfl hrel (⟨k, -, hk⟩ | ⟨u, hu⟩ | he | hi)
  all_goals
    obtain ⟨hsession, hapi, hemitter, hinput⟩ := (of_decide_eq_true ht).resolve_left (not_not.mpr hrel)
  · exact hs.session (P := fun _ pc => ¬ pc.Needs m) (fun _ => id) hsession k hk
  · exact hs.api (P := fun _ pc => ¬ pc.Needs m) (fun _ => id) hapi u hu
  · exact hemitter he
  · exact hinput hi

theorem ApiPc.LooksUp.mem {pc : ApiPc} (h : pc.LooksUp b m) : m ∈ b.listeners := by
  cases pc with
  | resolve k id x => exact (findListener_id h.1).2
  | _ => exact h.elim

theorem EmitterPc.LooksUp.mem {k : EmitterPc} (h : k.LooksUp b m) : m ∈ b.listeners := by
  cases k with
  | find type id => exact (findListener_id h).2
  | _ => exact h.elim

theorem Room.LooksUp.mem (h : s.LooksUp a m) : m ∈ s.b.listeners := by
  rcases h with ⟨u, c, -, h⟩ | ⟨-, h⟩
  · exact h.mem
  · exact h.mem

theorem looksUpLiving_of_test (ht : foreignAccessTest n s a = true) : LooksUpLiving s a := by
  intro m hm
  have hmem := hm.mem
  rcases hm with ⟨u, c, rfl, -⟩ | ⟨rfl, -⟩
  · exact of_decide_eq_true ht m hmem
  · exact of_decide_eq_true ht m hmem

/-- The second speaker stops the input thread of the first, which returns afterwards. -/
theorem foreign_access_safe_override : ∃ (h : List (Room × RoomAction)) (s : Room),
    Run (roomStep ⟨8, true, 16, false, false⟩) Room.init h s ∧ s.session 0 = .returned ∧
      (∃ x ∈ h, touches x.1 x.2 = [(0, .bare)]) ∧ Meets TouchesSafely h := by
  obtain ⟨h, s, hr, hm, hv⟩ := exists_run_observing (roomStep ⟨8, true, 16, false, false⟩)
    (fun s a => a.within 2 && foreignAccessTest 2 s a) Room.init
    (List.flatten [[.join 0 ⟨.speaker, false, false⟩], List.replicate 10 (.session 0 .ok),
      [.join 1 ⟨.speaker, false, false⟩], List.replicate 14 (.session 1 .ok),
      List.replicate 6 (.input 0 .ok), List.replicate 2 (.session 1 .ok),
      List.replicate 11 (.session 0 .ok)])
    (fun h s => (s.session 0, h.any fun x => touches x.1 x.2 = [(0, .bare)]))
    (v := (.returned, true)) (by decide)
  obtain ⟨h0, htouch⟩ := Prod.mk.inj hv
  refine ⟨h, s, hr, h0, by simpa using htouch, (foreign_access_safe hr ?_).1⟩
  exact meets_of_test (by decide) hr hm fun s a hs ht =>
    ⟨returnsUnneeded_of_test hs ht, looksUpLiving_of_test ht⟩

/-- The first speaker returns before the second has stopped its input thread. -/
theorem displaced_speaker_touched : ¬ ∀ (h : List (Room × RoomAction)) (s : Room),
    Run (roomStep ⟨8, true, 16, false, false⟩) Room.init h s → Meets TouchesSafely h := by
  refine not_forall_run (fun _ _ => true)
    (List.flatten [[.join 0 ⟨.speaker, false, false⟩], List.replicate 10 (.session 0 .ok),
      List.replicate 2 (.input 0 .ok), [.join 1 ⟨.speaker, false, false⟩],
      List.replicate 12 (.session 1 .ok), [.hangup 0], List.replicate 4 (.input 0 .ok),
      List.replicate 9 (.session 0 .ok), [.session 1 .ok]])
    (fun h _ => h.head?.map fun x => (touches x.1 x.2, x.1.session 0))
    (v := some ([(0, .bare)], .returned)) (by decide) ?_
  intro h s hr _ hv hall
  cases h with
  | nil => cases hv
  | cons x h =>
    obtain ⟨htouch, h0⟩ := Prod.mk.inj (Option.some.inj hv)
    have hsafe := (meets_cons.mp hall).1 (0, .bare) (by rw [htouch]; exact List.mem_singleton.mpr rfl)
    rcases hsafe with hsafe | ⟨hsafe, -⟩ | ⟨hsafe, -⟩ | hsafe
    · cases hsafe
    · cases hsafe
    · cases hsafe
    · exact hsafe h0

end ModBroadcast
