import ModBroadcast.JsonReplies
import ModBroadcast.MemberIds

namespace ModBroadcast

open Automaton Locks

/-- The sessions of the core: which of them runs a call of `broadcast_app_function`, and their
uuids, which are short enough for the buffer of the search. A session may make several calls. -/
structure SessionTable (Session : Type*) where
  session : ℕ → Session
  uuid : Session → JsonText.Text
  unique : Function.Injective uuid
  fits : ∀ σ, uuid σ ≠ [] ∧ (uuid σ).length < 64

variable {Session : Type*}

/-- `switch_core_session_locate` answers `σ` for the copy of the uuid of the member `x`. -/
def SessionTable.Locates (core : SessionTable Session) (x : ℕ) (σ : Session) : Prop :=
  core.uuid σ = copyString 64 (core.uuid (core.session x))

/-- In this step `b_find_member_pinned` returns the member `m`, and the session `σ` that it has
pinned for the member found first. -/
def PinReturns (core : SessionTable Session) (s : Room) (a : RoomAction) (sid : String)
    (m : ℕ) (σ : Session) : Prop :=
  ∃ u c k x, a = .api u c ∧ core.Locates x σ ∧
    (s.api u = .resolve k (parseMemberId sid) x ∧
        findListener s.b (parseMemberId sid) = some m ∨
      s.api u = .resolveSpeaker k (parseMemberId sid) x ∧
        findSpeaker s.b (parseMemberId sid) = some m)

def handsOut (p : RoomProfile) (x : Room × RoomAction) : Bool :=
  (roomStep p x.1 x.2).any fun t => t.b.next_member_id ≠ x.1.b.next_member_id

def idsHanded (p : RoomProfile) (h : List (Room × RoomAction)) : ℕ := h.countP (handsOut p)

def Room.Occurs (w : Room) (h : List (Room × RoomAction)) (t : Room) : Prop :=
  w = t ∨ ∃ a, (w, a) ∈ h

variable {p : RoomProfile} {core : SessionTable Session} {h : List (Room × RoomAction)}
  {s t w : Room} {a : RoomAction} {sid : String} {m n x : ℕ} {σ : Session}

theorem SessionTable.Locates.eq (hl : core.Locates x σ) : core.session x = σ := by
  have hcopy : copyString 64 (core.uuid (core.session x)) = core.uuid (core.session x) :=
    List.take_of_length_le (Nat.le_of_lt_succ (core.fits _).2)
  exact (core.unique (Eq.trans hl hcopy)).symm

theorem handsOut_iff (hs : roomStep p s a = some t) :
    handsOut p (s, a) ↔ t.b.next_member_id ≠ s.b.next_member_id := by
  simp [handsOut, hs]

theorem idsHanded_cons : idsHanded p ((s, a) :: h) =
    idsHanded p h + if handsOut p (s, a) then 1 else 0 := List.countP_cons ..

/-- Fewer ids than the counter has values leave it one for each step that takes one. -/
theorem idsLeft_of_handed (hnext : s.b.next_member_id = idsHanded p h)
    (hlt : idsHanded p ((s, a) :: h) < 2 ^ 32) (hs : roomStep p s a = some t) :
    t.b.next_member_id ≠ s.b.next_member_id → IdsLeft s := by
  intro hne
  rw [idsHanded_cons, if_pos ((handsOut_iff hs).mpr hne), ← hnext] at hlt
  exact hlt

/-- As long as ids are left, the counter is the number of those handed out. -/
theorem idSound_of_handed (hr : Run (roomStep p) Room.init h t) (hlt : idsHanded p h < 2 ^ 32) :
    t.IdSound ∧ t.b.next_member_id = idsHanded p h := by
  induction hr with
  | nil => exact ⟨.init, rfl⟩
  | @snoc h s a t _ hs ih =>
    obtain ⟨hi, hnext⟩ := ih (by rw [idsHanded_cons] at hlt; omega)
    have hleft := idsLeft_of_handed hnext hlt hs
    refine ⟨hi.step hleft hs, ?_⟩
    by_cases hne : t.b.next_member_id = s.b.next_member_id
    · rw [idsHanded_cons, if_neg fun hh => (handsOut_iff hs).mp hh hne, hne, hnext]
      rfl
    · rw [idsHanded_cons, if_pos ((handsOut_iff hs).mpr hne), ← hnext]
      cases (hi.of_step hleft hs).1 with
      | keep _ hn => exact absurd hn hne
      | number _ _ _ hn => exact hn

/-- In every state of such a run the ids are sound, and a member that has one keeps it. -/
theorem idSound_of_occurs (hr : Run (roomStep p) Room.init h t) (hlt : idsHanded p h < 2 ^ 32)
    (hw : w.Occurs h t) :
    w.IdSound ∧ ∀ n, w.b.ids n ≠ 0 → t.b.ids n = w.b.ids n := by
  induction hr with
  | nil =>
    obtain rfl | ⟨a, ha⟩ := hw
    · exact ⟨.init, fun n _ => rfl⟩
    · cases ha
  | @snoc h s a t run hs ih =>
    have hlt' : idsHanded p h < 2 ^ 32 := by rw [idsHanded_cons] at hlt; omega
    obtain rfl | ⟨a', ha'⟩ := hw
    · exact ⟨(idSound_of_handed (run.snoc hs) hlt).1, fun n _ => rfl⟩
    · have hbefore : w.Occurs h s := by
        rcases List.mem_cons.mp ha' with heq | hmem
        · exact .inl (congrArg Prod.fst heq)
        · exact .inr ⟨a', hmem⟩
      obtain ⟨hi, hkept⟩ := ih hlt' hbefore
      obtain ⟨hsound, hnext⟩ := idSound_of_handed run hlt'
      have hchange := (hsound.of_step (idsLeft_of_handed hnext hlt hs) hs).1
      refine ⟨hi, fun n hn => ?_⟩
      have hs' := hkept n hn
      exact (hchange.stays (by rwa [hs'])).trans hs'

/-- Both searches have found the same member. -/
theorem Room.IdSound.pinReturns (hi : s.IdSound) (hp : PinReturns core s a sid m σ) :
    s.b.ids m = parseMemberId sid ∧ parseMemberId sid ≠ 0 ∧ core.session m = σ := by
  obtain ⟨u, c, k, x, -, hl, hfound⟩ := hp
  have hres := hi.resolved u
  have hfirst : (parseMemberId sid ≠ 0 ∧ s.b.ids x = parseMemberId sid) ∧
      s.b.ids m = parseMemberId sid := by
    rcases hfound with ⟨hpc, hm⟩ | ⟨hpc, hm⟩ <;> rw [hpc] at hres
    · exact ⟨hres, (findListener_id hm).1⟩
    · exact ⟨hres, (findSpeaker_id hm).1⟩
  obtain ⟨⟨hid, hx⟩, hm⟩ := hfirst
  have hxm : x = m := hi.unique x m (hx.trans hm.symm) (hx ▸ hid)
  exact ⟨hm, hid, hxm ▸ hl.eq⟩

/-- The member that `b_find_member_pinned` returns has the id that was asked for, the pinned
session is its own, and no other member has this id at any time of the run. -/
theorem pinned_member_session (core : SessionTable Session) (hr : Run (roomStep p) Room.init h t)
    (hlt : idsHanded p h < 2 ^ 32) (ha : (s, a) ∈ h) (hp : PinReturns core s a sid m σ) :
    (s.b.member m).id = parseMemberId sid ∧ core.session m = σ ∧
      ∀ (w : Room) (n : ℕ), w.Occurs h t → (w.b.member n).id = parseMemberId sid → n = m := by
  obtain ⟨hi, hkept⟩ := idSound_of_occurs hr hlt (.inr ⟨a, ha⟩)
  obtain ⟨hm, hid, hσ⟩ := hi.pinReturns hp
  refine ⟨hm, hσ, fun w n hw hn => ?_⟩
  obtain ⟨-, hkept'⟩ := idSound_of_occurs hr hlt hw
  have hn : w.b.ids n = parseMemberId sid := hn
  have hm' := (hkept m (by rwa [hm])).trans hm
  have hn' := (hkept' n (by rwa [hn])).trans hn
  have hunique := (idSound_of_handed hr hlt).1.unique n m (hn'.trans hm'.symm)
  exact hunique (by rwa [hn'])

/-- A session has left and joined again, and is kicked under its second id. -/
theorem pinned_member_rejoined : ∃ (h : List (Room × RoomAction)) (s t : Room),
    Run (roomStep ⟨8, true, 16, false, false⟩) Room.init h t ∧
      idsHanded ⟨8, true, 16, false, false⟩ h = 2 ∧ t.session 0 = .returned ∧
      (s.b.member 1).id = parseMemberId "m_2" ∧
      ∀ (w : Room) (n : ℕ), w.Occurs h t → (w.b.member n).id = parseMemberId "m_2" → n = 1 := by
  let core : SessionTable Unit := ⟨fun _ => (), fun _ => "a1".toList, fun _ _ _ => rfl,
    fun _ => by decide⟩
  obtain ⟨h, t, hr, -, hv⟩ := exists_run_observing (roomStep ⟨8, true, 16, false, false⟩)
    (fun _ _ => true) Room.init
    (List.flatten [[.join 0 ⟨.listener, false, false⟩], List.replicate 6 (.session 0 .ok),
      [.hangup 0], List.replicate 11 (.session 0 .ok), [.join 1 ⟨.listener, false, false⟩],
      List.replicate 6 (.session 1 .ok), [.call 0 (.member .kick 2)],
      List.replicate 5 (.api 0 .ok)])
    (fun h t => (h.head?.map fun x => (x.2, x.1.api 0, findListener x.1.b 2),
      idsHanded ⟨8, true, 16, false, false⟩ h, t.session 0))
    (v := (some (.api 0 .ok, .resolve .kick 2 1, some 1), 2, .returned)) (by decide)
  obtain ⟨hhead, hv⟩ := Prod.mk.inj hv
  obtain ⟨hcount, h0⟩ := Prod.mk.inj hv
  cases h with
  | nil => cases hhead
  | cons x h =>
    obtain ⟨s, a⟩ := x
    obtain ⟨ha, hx⟩ := Prod.mk.inj (Option.some.inj hhead)
    obtain ⟨hpc, hfound⟩ := Prod.mk.inj hx
    have hp : PinReturns core s a "m_2" 1 () := by
      refine ⟨0, .ok, .kick, 1, ha, rfl, .inl ⟨?_, ?_⟩⟩
      · exact hpc
      · exact hfound
    obtain ⟨hid, -, halone⟩ := pinned_member_session core hr (by rw [hcount]; decide)
      (List.mem_cons_self ..) hp
    exact ⟨_, s, t, hr, hcount, h0, hid, halone⟩

end ModBroadcast
