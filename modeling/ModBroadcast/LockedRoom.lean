import ModBroadcast.Figures
import ModBroadcast.ListenerList

namespace ModBroadcast

open Automaton

variable {p : RoomProfile} {b b' : Broadcast} {c : Choice} {m n : ℕ} {s t : Room} {a : RoomAction}
  {h : List (Room × RoomAction)}

def Room.Inside (s : Room) (m : ℕ) : Prop := m ∈ s.b.listeners ∨ s.b.current_speaker = some m

def WasInside (h : List (Room × RoomAction)) (s : Room) (m : ℕ) : Prop :=
  s.Inside m ∨ ∃ x ∈ h, x.1.Inside m

theorem WasInside.step (hw : WasInside h s m) : WasInside ((s, a) :: h) t m := by
  rcases hw with hin | ⟨x, hx, hin⟩
  · exact .inr ⟨(s, a), List.mem_cons_self, hin⟩
  · exact .inr ⟨x, List.mem_cons_of_mem _ hx, hin⟩

def SessionPc.Linked : SessionPc → Prop
  | .add .stats | .add .running | .listen _ | .decide | .clearFlag | .raise | .speak true _ => True
  | _ => False

theorem SessionPc.Next.linkedBefore {pc pc' : SessionPc} (hn : pc.Next pc') (hl : pc'.Linked) :
    pc.Linked ∨ pc = .add .link ∧ pc' = .add .stats := by
  cases pc with
  | add k =>
    cases k with
    | link =>
      rcases hn with rfl | rfl
      · exact .inr ⟨rfl, rfl⟩
      · exact absurd hl id
    | stats | running => exact .inl trivial
    | destroyed | locked => rcases hn with rfl | rfl <;> exact absurd hl id
  | listen | decide | clearFlag | raise => exact .inl trivial
  | speak promoted k =>
    cases promoted with
    | true => exact .inl trivial
    | false =>
      rcases hn with ⟨k', rfl, -⟩ | rfl | ⟨-, rfl⟩ <;> exact absurd hl id
  | outside | created | returned => exact absurd hn id
  | record => rcases hn with ⟨k, rfl⟩ | rfl | rfl <;> exact absurd hl id
  | prepare => rcases hn with rfl | rfl | rfl <;> exact absurd hl id
  | accept | check => rcases hn with rfl | rfl <;> exact absurd hl id
  | wait | clear => rcases hn with ⟨k, rfl⟩ | rfl <;> exact absurd hl id
  | _ =>
    obtain rfl := hn
    exact absurd hl id

theorem appFunction_link (h : appFunction p b m c (.add .link) = some (b', .add .stats)) :
    b' = listenerLink b m := by
  simp only [appFunction, listenerAdd] at h
  split_ifs at h <;> cases h
  rfl

/-- Who is linked, or taken out for a promotion, has been in the broadcast. -/
structure MembersWereInside (h : List (Room × RoomAction)) (s : Room) : Prop where
  linked : ∀ m, (s.session m).Linked → WasInside h s m
  moved : ∀ u m, (s.api u).Moves m → WasInside h s m

theorem MembersWereInside.init : MembersWereInside [] Room.init := by
  refine ⟨fun m hl => ?_, fun u m hm => hm.elim⟩
  by_cases hm : m = 0 <;> simp [Room.init, hm, SessionPc.Linked] at hl

theorem MembersWereInside.step (hi : MembersWereInside h s) (hs : roomStep p s a = some t) :
    MembersWereInside ((s, a) :: h) t := by
  refine ⟨fun m hl => ?_, fun u m hm => ?_⟩
  · rcases roomStep_session hs m with hsame | ⟨c, rfl, hown⟩ | ⟨j, -, hjoin⟩
    · rw [hsame] at hl
      exact (hi.linked m hl).step
    · rcases (appFunction_next hown).linkedBefore hl with hl | ⟨hpc, hpc'⟩
      · exact (hi.linked m hl).step
      · rw [hpc, hpc'] at hown
        refine .inl (.inl ?_)
        rw [appFunction_link hown, listenerLink_listeners]
        exact List.mem_cons_self
    · cases hpc : s.session m with
      | outside =>
        rw [hpc] at hjoin
        obtain ⟨x, -, he⟩ := Option.map_eq_some_iff.mp hjoin
        rw [← (Prod.mk.inj he).2] at hl
        exact hl.elim
      | created =>
        rw [hpc] at hjoin
        rw [← (Prod.mk.inj (Option.some.inj hjoin)).2] at hl
        split_ifs at hl <;> exact hl.elim
      | _ => simp [hpc, joinSession] at hjoin
  · rcases roomStep_api hs u with hsame | ⟨c, rfl, hown⟩ | ⟨-, ⟨k, -, hpc⟩ | ⟨-, hpc⟩⟩
    · rw [hsame] at hm
      exact (hi.moved u m hm).step
    · generalize hpc : s.api u = pc at hown
      have hroster := apiDispatch_roster hown
      generalize t.api u = pc' at hroster hm
      cases hroster with
      | unlink hmem _ =>
        obtain rfl := hm.1
        exact WasInside.step (.inl (.inl hmem))
      | raise | drop => exact (hi.moved u m (hpc ▸ ⟨hm.1, trivial⟩)).step
      | link => exact hm.2.elim
      | keep hk => exact (hi.moved u m (hpc ▸ hk m hm)).step
    · rw [hpc] at hm
      exact hm.elim
    · rw [hpc] at hm
      exact hm.elim

def Room.RepliesLocked (s : Room) : RoomAction → Prop
  | .api u _ => s.api u = .flagEvent .lock
  | _ => False

def Room.Unlocks (s : Room) : RoomAction → Prop
  | .api u _ => s.api u = .start (.flag .unlock)
  | _ => False

def LockedOut : List (Room × RoomAction) → Prop
  | [] => False
  | (s, a) :: h => s.RepliesLocked a ∨ LockedOut h ∧ ¬ s.Unlocks a

instance (s : Room) : DecidablePred s.RepliesLocked
  | .api u _ => inferInstanceAs (Decidable (s.api u = .flagEvent .lock))
  | .join .. | .session .. | .call .. | .shutdown _ | .producer _ | .input .. | .writer ..
  | .emitter | .housekeeping _ | .hangup _ | .elapse => .isFalse id

instance (s : Room) : DecidablePred s.Unlocks
  | .api u _ => inferInstanceAs (Decidable (s.api u = .start (.flag .unlock)))
  | .join .. | .session .. | .call .. | .shutdown _ | .producer _ | .input .. | .writer ..
  | .emitter | .housekeeping _ | .hangup _ | .elapse => .isFalse id

instance decidableLockedOut : DecidablePred LockedOut
  | [] => .isFalse id
  | (s, a) :: h =>
    have := decidableLockedOut h
    inferInstanceAs (Decidable (s.RepliesLocked a ∨ LockedOut h ∧ ¬ s.Unlocks a))

/-- Nobody who has not been in the broadcast comes in after the reply to `lock`. -/
def AdmitsNobody (p : RoomProfile) (h : List (Room × RoomAction)) (s : Room) (a : RoomAction) :
    Prop :=
  LockedOut h → ∀ t m, roomStep p s a = some t → ¬ WasInside h s m → ¬ t.Inside m

/-- When a `lock` replies, the flag is still up and no join stands between its test of the
flag and the linking; and no speaker joins a locked room. -/
structure LockRespected (s : Room) (a : RoomAction) : Prop where
  reply : s.RepliesLocked a → s.b.locked = true ∧ ∀ m, s.session m ≠ .add .link
  speaker : ∀ m c, a = .session m c → s.session m = .speak false .install → s.b.locked = false

/-- The flag is up and no listener is past the test of it. -/
def LockSound (h : List (Room × RoomAction)) (s : Room) : Prop :=
  LockedOut h → s.b.locked = true ∧ ∀ m, s.session m ≠ .add .link

theorem appFunction_locked {pc : SessionPc} (h : appFunction p b m c pc = some (b', .add .link)) :
    b.locked = false := by
  obtain rfl : pc = .add .locked := (appFunction_next h).follows
  simp only [appFunction, listenerAdd] at h
  split_ifs at h with hl
  · cases h
  · simpa using hl

theorem joinSession_not_link {j : JoinParams} {pc : SessionPc} :
    joinSession p b j pc ≠ some (b', .add .link) := by
  intro h
  cases pc with
  | outside =>
    obtain ⟨x, -, he⟩ := Option.map_eq_some_iff.mp h
    cases he
  | created =>
    obtain ⟨-, he⟩ := Prod.mk.inj (Option.some.inj h)
    split_ifs at he
  | _ => cases h

theorem LockSound.step (hi : LockSound h s) (hg : LockRespected s a) (hs : roomStep p s a = some t) :
    LockSound ((s, a) :: h) t := by
  -- with the flag up no join comes to the linking
  have still : s.b.locked = true → (∀ m, s.session m ≠ .add .link) → ∀ m, t.session m ≠ .add .link := by
    intro hl hno m hpc
    rcases roomStep_session hs m with hsame | ⟨c, -, hown⟩ | ⟨j, -, hjoin⟩
    · exact hno m (hsame ▸ hpc)
    · rw [hpc] at hown
      rw [appFunction_locked hown] at hl
      cases hl
    · rw [hpc] at hjoin
      exact joinSession_not_link hjoin
  rintro (hreply | ⟨hout, hnot⟩)
  · obtain ⟨hl, hno⟩ := hg.reply hreply
    refine ⟨?_, still hl hno⟩
    rcases roomStep_cflags hs with hsw | ⟨u, c, f, rfl, hpc, -⟩
    · exact (congrArg Prod.fst hsw).trans hl
    · cases hpc.symm.trans hreply
  · obtain ⟨hl, hno⟩ := hi hout
    refine ⟨?_, still hl hno⟩
    rcases roomStep_cflags hs with hsw | ⟨u, c, f, rfl, hpc, hb⟩
    · exact (congrArg Prod.fst hsw).trans hl
    · rw [hb]
      cases f with
      | unlock => exact absurd hpc hnot
      | lock => rfl
      | pause | resume => exact hl

theorem listenerDel_subset (hm : m ∈ (listenerDel p b n).listeners) : m ∈ b.listeners := by
  have hdel := listenerDel_roster (p := p) (b := b) (m := n)
  split_ifs at hdel
  · rw [listeners_of_roster hdel] at hm
    exact List.mem_of_mem_erase hm
  · rwa [listeners_of_roster hdel] at hm

/-- Who comes into the broadcast for the first time comes in by its own session: it is linked
or published by its join. -/
theorem MembersWereInside.enters (hi : MembersWereInside h s) (hs : roomStep p s a = some t)
    (hw : ¬ WasInside h s m) (hin : t.Inside m) : s.session m = .add .link ∨
      ∃ c, a = .session m c ∧ s.session m = .speak false .install := by
  have hout : m ∉ s.b.listeners := fun hm => hw (.inl (.inl hm))
  rcases hin with hm | hcur
  · cases roomStep_roster hs with
    | @session n c h hn hsess ha =>
      left
      generalize hpc : s.session n = pc at h
      generalize t.session n = pc' at h
      cases h with
      | prepare hb | number hb | lower hb =>
        rw [hb] at hm
        exact absurd hm hout
      | link hb =>
        rw [hb, listenerLink_listeners] at hm
        rcases List.mem_cons.mp hm with rfl | hm
        · exact hpc
        · exact absurd hm hout
      | unlink hb => exact absurd (listenerDel_subset (hb ▸ hm)) hout
      | commit _ hr | keep _ hr => exact absurd (listeners_of_roster hr ▸ hm) hout
    | @api u c h hsess ha =>
      generalize hpc : s.api u = pc at h
      generalize t.api u = pc' at h
      cases h with
      | unlink _ hb =>
        rw [hb] at hm
        exact absurd (List.mem_of_mem_erase hm) hout
      | raise hb | drop hb =>
        rw [hb] at hm
        exact absurd hm hout
      | link _ hb =>
        rw [hb, listenerLink_listeners] at hm
        rcases List.mem_cons.mp hm with rfl | hm
        · exact absurd (hi.moved u m (hpc ▸ ⟨rfl, trivial⟩)) hw
        · exact absurd hm hout
      | keep _ _ hr => exact absurd (listeners_of_roster hr ▸ hm) hout
    | join hr | enter hr | keep hr => exact absurd (listeners_of_roster hr ▸ hm) hout
  · rcases roomStep_current hs hcur with hcur | ⟨c, promoted, ha, hpc⟩
    · exact absurd (.inl (.inr hcur)) hw
    · cases promoted with
      | false => exact .inr ⟨c, ha, hpc⟩
      | true => exact absurd (hi.linked m (by rw [hpc]; trivial)) hw

/-- After the reply to `lock` and until an `unlock` nobody comes in, as long as no join stands
between its test of the flag and the linking at the reply, nobody unlocks the room between
the lock and its reply, and no speaker joins a locked room. -/
theorem locked_room_admits_nobody (hr : Run (roomStep p) Room.init h s)
    (hg : Meets LockRespected h) : MeetsPast (AdmitsNobody p) h := by
  refine hr.meetsPast (I := fun h s => MembersWereInside h s ∧ LockSound h s)
    (fun _ _ _ _ hi hg hs => ⟨hi.1.step hs, hi.2.step hg hs⟩) ?_ hg ⟨.init, False.elim⟩
  rintro h s a - ⟨hin, hlock⟩ hg - hout t m hs hnew hm
  obtain ⟨hl, hno⟩ := hlock hout
  rcases hin.enters hs hnew hm with hpc | ⟨c, ha, hpc⟩
  · exact hno m hpc
  · rw [hg.speaker m c ha hpc] at hl
    cases hl

def lockRespectedTest (n : ℕ) (s : Room) (a : RoomAction) : Bool :=
  match a with
  | .api u _ => decide (s.api u = .flagEvent .lock →
      s.b.locked = true ∧ ∀ m < n, s.session m ≠ .add .link)
  | .session m _ => decide (s.session m = .speak false .install → s.b.locked = false)
  | _ => true

theorem lockRespected_of_test (hm : s.Small n) (ht : lockRespectedTest n s a = true) :
    LockRespected s a := by
  constructor
  · intro hreply
    cases a with
    | api u c =>
      obtain ⟨hl, hno⟩ := of_decide_eq_true ht hreply
      exact ⟨hl, hm.session (P := fun _ pc => pc ≠ .add .link) (fun _ => by decide) hno⟩
    | _ => exact hreply.elim
  · rintro m c rfl hpc
    exact of_decide_eq_true ht hpc

/-- A listener that comes after the lock is refused. -/
theorem locked_room_admits_nobody_refused : ∃ (h : List (Room × RoomAction)) (s : Room),
    Run (roomStep ⟨8, false, 16, false, false⟩) Room.init h s ∧ s.session 0 = .returned ∧
      LockedOut h ∧ MeetsPast (AdmitsNobody ⟨8, false, 16, false, false⟩) h := by
  obtain ⟨h, s, hr, hm, hv⟩ := exists_run_observing (roomStep ⟨8, false, 16, false, false⟩)
    (fun s a => a.within 1 && lockRespectedTest 1 s a) Room.init
    (List.flatten [[.call 0 (.flag .lock)], List.replicate 4 (.api 0 .ok),
      [.join 0 ⟨.listener, false, false⟩], List.replicate 5 (.session 0 .ok)])
    (fun h s => (s.session 0, decide (LockedOut h))) (v := (.returned, true)) (by decide)
  obtain ⟨h0, hout⟩ := Prod.mk.inj hv
  exact ⟨h, s, hr, h0, of_decide_eq_true hout, locked_room_admits_nobody hr
    (meets_of_test (by decide) hr hm fun _ _ => lockRespected_of_test)⟩

/-- A speaker joins the locked room. -/
theorem locked_room_entered : ¬ ∀ (h : List (Room × RoomAction)) (s : Room),
    Run (roomStep ⟨8, false, 16, false, false⟩) Room.init h s →
      MeetsPast (AdmitsNobody ⟨8, false, 16, false, false⟩) h := by
  refine not_forall_run (fun _ _ => true)
    (List.flatten [[.call 0 (.flag .lock)], List.replicate 4 (.api 0 .ok),
      [.join 0 ⟨.speaker, false, false⟩], List.replicate 9 (.session 0 .ok)])
    (fun h s => (decide (LockedOut h.tail), s.b.current_speaker,
      h.any fun x => x.1.b.current_speaker = some 0 ∨ 0 ∈ x.1.b.listeners))
    (v := (true, some 0, false)) (by decide) ?_
  intro h s hr _ hv hall
  obtain ⟨hout, hv⟩ := Prod.mk.inj hv
  obtain ⟨hcur, hnew⟩ := Prod.mk.inj hv
  have hnot : ∀ x ∈ h, ¬ (x.1.b.current_speaker = some 0 ∨ 0 ∈ x.1.b.listeners) :=
    fun x hx hin => List.any_eq_false.mp hnew x hx (decide_eq_true hin)
  cases hr with
  | nil => cases hcur
  | @snoc h t a _ hrun hstep =>
    refine hall.1 (of_decide_eq_true hout) s 0 hstep ?_ (.inr hcur)
    rintro ((hm | hc) | ⟨x, hx, hm | hc⟩)
    · exact hnot (t, a) List.mem_cons_self (.inr hm)
    · exact hnot (t, a) List.mem_cons_self (.inl hc)
    · exact hnot x (List.mem_cons_of_mem _ hx) (.inr hm)
    · exact hnot x (List.mem_cons_of_mem _ hx) (.inl hc)

end ModBroadcast
