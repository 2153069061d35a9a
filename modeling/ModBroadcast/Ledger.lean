import ModBroadcast.Accounting
import ModBroadcast.Promotion

namespace ModBroadcast

open Automaton Counting

variable {p : RoomProfile} {m n u : ℕ} {c : Choice} {s t : Room} {a : RoomAction}
  {h : List (Room × RoomAction)}

/-- The step runs the counting part of `broadcast_listener_add` for the member `m`. -/
def Room.Adds (s : Room) (m : ℕ) : RoomAction → Bool
  | .session n _ => n = m ∧ s.session n = .add .stats
  | .api u _ =>
    match s.api u with
    | .promote _ n (.add .stats) => n = m
    | _ => false
  | _ => false

/-- The step runs `broadcast_listener_del` for the member `m`, and finds it on the list. -/
def Room.Deletes (s : Room) (m : ℕ) : RoomAction → Bool
  | .session n _ => n = m ∧ s.session n = .unlink ∧ m ∈ s.b.listeners
  | _ => false

/-- The joins of `m` that were counted and announced by a `LISTENER_JOIN`: those of no ghost. -/
def joinsCounted (h : List (Room × RoomAction)) (m : ℕ) : ℕ :=
  h.countP fun x => !x.1.b.ghosts m && x.1.Adds m x.2

def leavesCounted (h : List (Room × RoomAction)) (m : ℕ) : ℕ :=
  h.countP fun x => !x.1.b.ghosts m && x.1.Deletes m x.2

theorem joinsCounted_cons : joinsCounted ((s, a) :: h) m =
    joinsCounted h m + if s.b.ghosts m = false ∧ s.Adds m a = true then 1 else 0 := by
  simp [joinsCounted, List.countP_cons]

theorem leavesCounted_cons : leavesCounted ((s, a) :: h) m =
    leavesCounted h m + if s.b.ghosts m = false ∧ s.Deletes m a = true then 1 else 0 := by
  simp [leavesCounted, List.countP_cons]

theorem adds_iff : s.Adds m a = true ↔ (∃ c, a = .session m c ∧ s.session m = .add .stats) ∨
    ∃ u c x, a = .api u c ∧ s.api u = .promote x m (.add .stats) := by
  constructor
  · intro ha
    cases a with
    | session n c =>
      obtain ⟨rfl, hpc⟩ := of_decide_eq_true ha
      exact .inl ⟨c, rfl, hpc⟩
    | api u c =>
      simp only [Room.Adds] at ha
      split at ha
      · next x n hpc => exact .inr ⟨u, c, x, rfl, of_decide_eq_true ha ▸ hpc⟩
      · cases ha
    | _ => cases ha
  · rintro (⟨c, rfl, hpc⟩ | ⟨u, c, x, rfl, hpc⟩) <;> simp [Room.Adds, hpc]

theorem deletes_iff : s.Deletes m a = true ↔
    ∃ c, a = .session m c ∧ s.session m = .unlink ∧ m ∈ s.b.listeners := by
  cases a with
  | session n c =>
    simp only [Room.Deletes, decide_eq_true_eq]
    constructor
    · rintro ⟨rfl, hpc⟩
      exact ⟨c, rfl, hpc⟩
    · rintro ⟨_, ⟨⟩, hpc⟩
      exact ⟨rfl, hpc⟩
  | _ => simp [Room.Deletes]

/-- A member in its listener loop, or under a promotion, has been counted. -/
structure PromotesListeners (h : List (Room × RoomAction)) (s : Room) : Prop where
  fits : StandingSound h s
  bridge : ∀ m, (s.b.loops m).2 = true → standing h m ≠ .before
  promoting : ∀ u x m k, s.api u = .promote x m k → k ≠ .bridge → standing h m ≠ .before

theorem PromotesListeners.init : PromotesListeners [] Room.init where
  fits := .init
  bridge m hm := by cases hm
  promoting u x m k hpc := by cases hpc

theorem standing_kept (hw : standing h m ≠ .before) : standing ((s, a) :: h) m ≠ .before := by
  by_cases ha : ∃ c, a = .session m c
  · obtain ⟨c, rfl⟩ := ha
    rw [standing_session]
    generalize s.session m = pc
    generalize standing h m = w at hw
    cases pc with
    | add k => cases k <;> first | exact hw | simp [Standing.next]
    | raise | unlink => simp [Standing.next]
    | _ => exact hw
  · rwa [standing_other (not_exists.mp ha)]

theorem PromotesListeners.step (hi : PromotesListeners h s) (hs : roomStep p s a = some t) :
    PromotesListeners ((s, a) :: h) t where
  fits := hi.fits.step hs
  bridge m hm := by
    obtain h | ⟨c, rfl, ⟨hpc, -⟩ | ⟨-, h⟩⟩ := roomStep_bridge hs m
    · exact standing_kept (hi.bridge m (h ▸ hm))
    · have hfit := hi.fits m
      rw [hpc] at hfit
      refine standing_kept fun hw => ?_
      rw [hw] at hfit
      exact hfit
    · rw [h] at hm
      cases hm
  promoting u x m k' hpc hk' := by
    obtain ⟨hsame, -⟩ | rfl | ⟨c, k, rfl, hpc₀, hreq⟩ := promote_step hs hpc
    · exact standing_kept (hi.promoting u x m k' hsame hk')
    · exact absurd rfl hk'
    · by_cases hk : k = .bridge
      · subst hk
        by_cases hbridge : (s.b.member m).in_listener_bridge
        · exact standing_kept (hi.bridge m hbridge)
        · have hret := (Prod.mk.inj hreq).2
          rw [if_neg hbridge] at hret
          cases hret
      · exact standing_kept (hi.promoting u x m k hpc₀ hk)

theorem ghosts_kept (hs : roomStep p s a = some t)
    (hno : ∀ c j, a = .session m c → s.session m ≠ .prepare j) :
    t.b.ghosts m = s.b.ghosts m := by
  cases roomStep_balance hs with
  | join _ _ hg _ | rejoin _ _ hg _ | leave _ _ hg _ | keep _ _ hg _ => rw [hg]
  | @prepare n c j ha hpc hg _ =>
    refine hg m ?_
    rintro rfl
    exact hno c j ha hpc

theorem ghosts_standing (hfit : StandingSound h s) (hs : roomStep p s a = some t)
    (hw : standing h m ≠ .before) : t.b.ghosts m = s.b.ghosts m := by
  refine ghosts_kept hs fun c j _ hpc => ?_
  have hf := hfit m
  rw [hpc] at hf
  generalize standing h m = w at hf hw
  cases w with
  | before => exact hw rfl
  | _ => exact hf

theorem ghosts_at {w : Standing} (hfit : StandingSound h s) (hs : roomStep p s a = some t)
    (hw : standing h m = w) (hne : w ≠ .before) : t.b.ghosts m = s.b.ghosts m :=
  ghosts_standing hfit hs (hw ▸ hne)

theorem standing_left (hfit : StandingSound h s) (hw : standing h m = .left) :
    standing ((s, a) :: h) m = .left := by
  by_cases ha : ∃ c, a = .session m c
  · obtain ⟨c, rfl⟩ := ha
    have hf := hfit m
    rw [standing_session, hw]
    rw [hw] at hf
    generalize s.session m = pc at hf
    cases pc with
    | clear | cleanup | release | returned => rfl
    | _ => exact hf.elim
  · rwa [standing_other (not_exists.mp ha)]

theorem adds_standing (hi : PromotesListeners h s) (ha : s.Adds m a = true) :
    (∃ c, a = .session m c ∧ s.session m = .add .stats ∧ standing h m = .before) ∨
      (∃ u c x, a = .api u c ∧ s.api u = .promote x m (.add .stats)) ∧ standing h m ≠ .before := by
  obtain ⟨c, rfl, hpc⟩ | ⟨u, c, x, rfl, hpc⟩ := adds_iff.mp ha
  · refine .inl ⟨c, rfl, hpc, ?_⟩
    have hf := hi.fits m
    rw [hpc] at hf
    generalize standing h m = w at hf
    cases w with
    | before => rfl
    | _ => exact hf.elim
  · exact .inr ⟨⟨u, c, x, rfl, hpc⟩, hi.promoting u x m _ hpc (by simp)⟩

theorem standing_unlink (hfit : StandingSound h s) (hpc : s.session m = .unlink) :
    standing h m = .listening := by
  have hf := hfit m
  rw [hpc] at hf
  generalize standing h m = w at hf
  cases w with
  | listening => rfl
  | _ => exact hf.elim

structure LedgerSound (h : List (Room × RoomAction)) (s : Room) (m : ℕ) : Prop where
  before : standing h m = .before → joinsCounted h m = 0
  joined : s.b.ghosts m = false → standing h m ≠ .before → 1 ≤ joinsCounted h m
  present : standing h m ≠ .left → leavesCounted h m = 0
  left : leavesCounted h m ≤ 1

theorem LedgerSound.init : LedgerSound [] Room.init m where
  before _ := rfl
  joined _ hw := absurd rfl hw
  present _ := rfl
  left := Nat.zero_le _

theorem LedgerSound.step (hl : LedgerSound h s m) (hi : PromotesListeners h s)
    (hs : roomStep p s a = some t) : LedgerSound ((s, a) :: h) t m where
  before hw := by
    have hw' : standing h m = .before := not_not.mp fun hne => standing_kept hne hw
    rw [joinsCounted_cons, hl.before hw', if_neg]
    rintro ⟨-, ha⟩
    obtain ⟨c, rfl, hpc, -⟩ | ⟨-, hne⟩ := adds_standing hi ha
    · rw [standing_session, hpc] at hw
      cases hw
    · exact hne hw'
  joined hg hw := by
    rw [joinsCounted_cons]
    by_cases hw' : standing h m = .before
    · -- a member comes out of `before` only by being counted
      obtain ⟨c, rfl⟩ : ∃ c, a = .session m c := by
        by_contra hno
        rw [standing_other (not_exists.mp hno)] at hw
        exact hw hw'
      rw [standing_session, Standing.next_before (hi.fits m)] at hw
      have hpc := hw.resolve_right (not_not.mpr hw')
      have hghost := ghosts_kept hs (m := m) (fun _ _ _ => by simp [hpc])
      rw [if_pos ⟨hghost ▸ hg, adds_iff.mpr (.inl ⟨c, rfl, hpc⟩)⟩]
      omega
    · have := hl.joined (ghosts_standing hi.fits hs hw' ▸ hg) hw'
      omega
  present hw := by
    rw [leavesCounted_cons, hl.present fun hleft => hw (standing_left hi.fits hleft), if_neg]
    rintro ⟨-, hd⟩
    obtain ⟨c, rfl, hpc, -⟩ := deletes_iff.mp hd
    rw [standing_session, hpc] at hw
    exact hw rfl
  left := by
    rw [leavesCounted_cons]
    split_ifs with hd
    · obtain ⟨c, rfl, hpc, -⟩ := deletes_iff.mp hd.2
      rw [hl.present (by simp [standing_unlink hi.fits hpc])]
    · exact hl.left

/-- The ledger of `m` is in order: no join counted again, the leave counted when it has left, and
no return after the promotion. -/
structure InOrder (h : List (Room × RoomAction)) (s : Room) (m : ℕ) : Prop where
  joined : joinsCounted h m ≤ 1
  left : standing h m = .left → leavesCounted h m = 1
  returned : s.session m = .returned → standing h m ≠ .promoted

theorem standing_to_left (hw : standing ((s, a) :: h) m = .left) : standing h m = .left ∨
    ∃ c, a = .session m c ∧ s.session m = .unlink := by
  by_cases ha : ∃ c, a = .session m c
  · obtain ⟨c, rfl⟩ := ha
    rw [standing_session] at hw
    generalize hpc : s.session m = pc at hw
    cases pc with
    | add k => cases k <;> first | exact .inl hw | cases hw
    | raise => cases hw
    | unlink => exact .inr ⟨c, rfl, rfl⟩
    | _ => exact .inl hw
  · rw [standing_other (not_exists.mp ha)] at hw
    exact .inl hw

theorem returned_kept (hs : roomStep p s a = some t) (hret : s.session m = .returned) :
    t.session m = .returned ∧ standing ((s, a) :: h) m = standing h m := by
  have hno : ∀ c, a ≠ .session m c := by
    rintro c rfl
    have hx := roomStep_own hs
    rw [hret] at hx
    cases hx
  exact ⟨(roomStep_returned_iff hs fun c ha => absurd ha (hno c)).mpr hret, standing_other hno⟩

/-- A step that counts every member once keeps the ledgers in order. -/
theorem InOrder.step (hi : PromotesListeners h s) (hl : LedgerSound h s m)
    (hs : roomStep p s a = some t) (hg : CountsOnce h s a)
    (ho : s.b.ghosts m = false → InOrder h s m) (hghost : t.b.ghosts m = false) :
    InOrder ((s, a) :: h) t m where
  joined := by
    rw [joinsCounted_cons]
    split_ifs with hd
    · obtain ⟨c, -, -, hw⟩ | ⟨⟨u, c, x, ha, hpc⟩, -⟩ := adds_standing hi hd.2
      · rw [hl.before hw]
      · have htrue := hg.join u c x m ha hpc
        rw [hd.1] at htrue
        cases htrue
    · by_cases hw : standing h m = .before
      · simp [hl.before hw]
      · exact (ho (ghosts_standing hi.fits hs hw ▸ hghost)).joined
  left hw := by
    have hnew := (hl.step hi hs).left
    obtain hold | ⟨c, ha, hpc⟩ := standing_to_left hw
    · have := (ho (ghosts_at hi.fits hs hold (by decide) ▸ hghost)).left hold
      rw [leavesCounted_cons] at hnew ⊢
      omega
    · have hlist := standing_unlink hi.fits hpc
      have hfalse : s.b.ghosts m = false := ghosts_at hi.fits hs hlist (by decide) ▸ hghost
      rw [leavesCounted_cons, hl.present (by simp [hlist]),
        if_pos ⟨hfalse, deletes_iff.mpr ⟨c, ha, hpc, hg.leave m c ha hpc hfalse⟩⟩]
  returned hret hw := by
    by_cases hold : s.session m = .returned
    · rw [(returned_kept hs hold).2] at hw
      exact (ho (ghosts_at hi.fits hs hw (by decide) ▸ hghost)).returned hold hw
    · obtain ⟨c, rfl, hpc⟩ : ∃ c, a = .session m c ∧ s.session m = .release := by
        by_contra hno
        refine hold ((roomStep_returned_iff hs fun c ha hpc => hno ⟨c, ha, hpc⟩).mp hret)
      rw [standing_session, hpc] at hw
      have hold' : standing h m = .promoted := hw
      exact hg.promoted m c rfl hpc (ghosts_at hi.fits hs hold' (by decide) ▸ hghost) hw

/-- Ledgers that are in order after a step were in order before it, and the step has counted every
member once. -/
theorem InOrder.back (hi : PromotesListeners h s) (hl : LedgerSound h s m)
    (hs : roomStep p s a = some t) (ho : t.b.ghosts m = false → InOrder ((s, a) :: h) t m)
    (hghost : s.b.ghosts m = false) : InOrder h s m := by
  by_cases hw : standing h m = .before
  · exact ⟨by simp [hl.before hw], by simp [hw], by simp [hw]⟩
  · obtain ⟨hjoined, hleft, hreturned⟩ := ho (ghosts_standing hi.fits hs hw ▸ hghost)
    refine ⟨?_, fun hold => ?_, fun hret hold => ?_⟩
    · rw [joinsCounted_cons] at hjoined
      omega
    · have hnew := hleft (standing_left hi.fits hold)
      rw [leavesCounted_cons, if_neg] at hnew
      · exact hnew
      · rintro ⟨-, hd⟩
        obtain ⟨c, -, hpc, -⟩ := deletes_iff.mp hd
        cases hold.symm.trans (standing_unlink hi.fits hpc)
    · obtain ⟨hret', hsame⟩ := returned_kept (h := h) hs hret
      exact hreturned hret' (hsame ▸ hold)

theorem countsOnce_of_inOrder (hi : PromotesListeners h s) (hl : ∀ m, LedgerSound h s m)
    (hs : roomStep p s a = some t)
    (ho : ∀ m, t.b.ghosts m = false → InOrder ((s, a) :: h) t m) : CountsOnce h s a where
  join u c x m ha hpc := by
    by_contra hghost
    rw [Bool.not_eq_true] at hghost
    have hw := hi.promoting u x m _ hpc (by simp)
    have hnew := (ho m (ghosts_standing hi.fits hs hw ▸ hghost)).joined
    rw [joinsCounted_cons, if_pos ⟨hghost, adds_iff.mpr (.inr ⟨u, c, x, ha, hpc⟩)⟩] at hnew
    have := (hl m).joined hghost hw
    omega
  leave m c ha hpc hghost := by
    by_contra hm
    have hlist := standing_unlink hi.fits hpc
    have hnew := (ho m (ghosts_at hi.fits hs hlist (by decide) ▸ hghost)).left (by
      rw [ha, standing_session, hpc]
      rfl)
    rw [leavesCounted_cons, (hl m).present (by simp [hlist]), if_neg] at hnew
    · cases hnew
    · rintro ⟨-, hd⟩
      obtain ⟨_, -, -, hmem⟩ := deletes_iff.mp hd
      exact hm hmem
  promoted m c ha hpc hghost hw := by
    subst ha
    have hnext := appFunction_next (roomStep_own hs)
    rw [hpc] at hnext
    refine (ho m (ghosts_at hi.fits hs hw (by decide) ▸ hghost)).returned hnext ?_
    rw [standing_session, hpc]
    exact hw

/-- Every ledger is in order just when every member was counted once. -/
structure LedgersSound (h : List (Room × RoomAction)) (s : Room) : Prop where
  listeners : PromotesListeners h s
  ledger : ∀ m, LedgerSound h s m
  inOrder : MeetsPast CountsOnce h ↔ ∀ m, s.b.ghosts m = false → InOrder h s m

theorem LedgersSound.init : LedgersSound [] Room.init where
  listeners := .init
  ledger _ := .init
  inOrder := by
    refine iff_of_true trivial fun m _ => ⟨Nat.zero_le _, fun hw => ?_, fun _ => ?_⟩
    · cases hw
    · simp [standing]

theorem LedgersSound.step (hi : LedgersSound h s) (hs : roomStep p s a = some t) :
    LedgersSound ((s, a) :: h) t where
  listeners := hi.listeners.step hs
  ledger m := (hi.ledger m).step hi.listeners hs
  inOrder := by
    constructor
    · rintro ⟨hg, hpast⟩ m
      exact InOrder.step hi.listeners (hi.ledger m) hs hg (hi.inOrder.mp hpast m)
    · intro hall
      exact ⟨countsOnce_of_inOrder hi.listeners hi.ledger hs hall,
        hi.inOrder.mpr fun m => InOrder.back hi.listeners (hi.ledger m) hs (hall m)⟩

end ModBroadcast
