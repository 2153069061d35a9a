import ModBroadcast.Counting
import ModBroadcast.Figures
import ModBroadcast.ListenerList

namespace ModBroadcast

open Automaton Counting

variable {p : RoomProfile} {b b' : Broadcast} {c : Choice} {m n : ℕ} {s t : Room} {a : RoomAction}
  {h : List (Room × RoomAction)}

/-- `stat_listeners_joined - stat_listeners_left`. -/
def Broadcast.balance (b : Broadcast) : ℤ :=
  (b.stat_listeners_joined : ℤ) - (b.stat_listeners_left : ℤ)

theorem balance_of_figures (h : b'.figures = b.figures) : b'.balance = b.balance := by
  obtain ⟨hj, hl⟩ := counters_of_figures h
  unfold Broadcast.balance
  rw [hj, hl]

theorem listenerAdd_stats_balance : (listenerAdd p b m .stats).1.balance =
    b.balance + if b.ghosts m then 0 else 1 := by
  by_cases hg : (b.member m).mflags.ghost
  · simp [listenerAdd, Broadcast.ghosts, hg]
  · have hb : (listenerAdd p b m .stats).1.balance =
        { b with stat_listeners_joined := b.stat_listeners_joined + 1 }.balance := by
      simp only [listenerAdd, if_neg hg]
      exact balance_of_figures (enqueueEvent_figures ..)
    rw [hb, Broadcast.ghosts, if_neg hg]
    simp only [Broadcast.balance, Nat.cast_add, Nat.cast_one]
    omega

theorem listenerDel_balance : (listenerDel p b m).balance =
    b.balance - if m ∈ b.listeners ∧ b.ghosts m = false then 1 else 0 := by
  by_cases hm : m ∈ b.listeners
  · by_cases hg : (b.member m).mflags.ghost
    · simp [listenerDel, hm, hg, Broadcast.balance, Broadcast.ghosts, listenerUnlink]
    · have hb : (listenerDel p b m).balance =
          { b with stat_listeners_left := b.stat_listeners_left + 1 }.balance := by
        have hg' : ¬ ((listenerUnlink b m).member m).mflags.ghost := hg
        simp only [listenerDel, if_pos hm, if_neg hg']
        exact (balance_of_figures (enqueueEvent_figures ..)).trans rfl
      rw [hb, if_pos ⟨hm, by simpa [Broadcast.ghosts] using hg⟩]
      simp only [Broadcast.balance, Nat.cast_add, Nat.cast_one]
      omega
  · simp [listenerDel, hm]

theorem modify_ghosts {f : Member → Member} (hf : ∀ x, (f x).mflags.ghost = x.mflags.ghost) :
    (b.modify m f).ghosts = b.ghosts := by
  funext n
  by_cases hn : n = m
  · subst hn
    simp [Broadcast.ghosts, Broadcast.modify, hf]
  · simp [Broadcast.ghosts, Broadcast.modify, hn]

theorem installSpeaker_ghosts (new : Option ℕ) : (installSpeaker b new).ghosts = b.ghosts := by
  cases new with
  | none => rfl
  | some m =>
    funext n
    by_cases hn : n = m
    · subst hn
      simp [Broadcast.ghosts, installSpeaker, Broadcast.modify]
    · simp [Broadcast.ghosts, installSpeaker, Broadcast.modify, hn]

inductive BalanceStep (s t : Room) (a : RoomAction) : Prop
  | join {m : ℕ} {c : Choice} (ha : a = .session m c) (hpc : s.session m = .add .stats)
      (hg : t.b.ghosts = s.b.ghosts)
      (h : t.b.balance = s.b.balance + if s.b.ghosts m then 0 else 1) : BalanceStep s t a
  | rejoin {u x m : ℕ} {c : Choice} (ha : a = .api u c) (hpc : s.api u = .promote x m (.add .stats))
      (hg : t.b.ghosts = s.b.ghosts)
      (h : t.b.balance = s.b.balance + if s.b.ghosts m then 0 else 1) : BalanceStep s t a
  | leave {m : ℕ} {c : Choice} (ha : a = .session m c) (hpc : s.session m = .unlink)
      (hg : t.b.ghosts = s.b.ghosts)
      (h : t.b.balance = s.b.balance -
        if m ∈ s.b.listeners ∧ s.b.ghosts m = false then 1 else 0) : BalanceStep s t a
  | prepare {m : ℕ} {c : Choice} {j : JoinParams} (ha : a = .session m c)
      (hpc : s.session m = .prepare j) (hg : ∀ n, n ≠ m → t.b.ghosts n = s.b.ghosts n)
      (h : t.b.balance = s.b.balance) : BalanceStep s t a
  | keep (hk : ∀ m c, a = .session m c → ¬ (s.session m).Counts)
      (hk' : ∀ u c, a = .api u c → ¬ (s.api u).Counts) (hg : t.b.ghosts = s.b.ghosts)
      (h : t.b.balance = s.b.balance) : BalanceStep s t a

theorem roomStep_balance (hs : roomStep p s a = some t) : BalanceStep s t a := by
  cases roomStep_figures hs with
  | keep hk hk' h =>
    exact .keep (fun m c ha => absurd ha (hk m c)) (fun u c ha => absurd ha (hk' u c))
      (ghosts_of_figures h) (balance_of_figures h)
  | elapse h => exact .keep (by simp) (by simp) (by rw [h]; rfl) (by rw [h]; rfl)
  | @session m c h =>
    have quiet : ∀ {pc : SessionPc}, s.session m = pc → ¬ pc.Counts →
        (t.b.ghosts = s.b.ghosts ∧ t.b.balance = s.b.balance) → BalanceStep s t (.session m c) := by
      intro pc hpc hno hb
      refine .keep ?_ (by simp) hb.1 hb.2
      rintro _ _ ⟨⟩
      rwa [hpc]
    generalize hpc : s.session m = pc at h
    cases h with
    | prepare h =>
      refine .prepare rfl hpc (fun n hn => ?_) (by rw [h]; rfl)
      rw [h]
      simp [Broadcast.ghosts, memberPrepare, Broadcast.modify, hn]
    | join h =>
      refine .join rfl hpc ?_ (by rw [h, listenerAdd_stats_balance])
      rw [h]
      unfold Broadcast.ghosts
      rw [listenerAdd_stats_member]
    | leave h =>
      refine .leave rfl hpc ?_ (by rw [h, listenerDel_balance])
      rw [h]
      unfold Broadcast.ghosts
      rw [listenerDel_member]
    | install _ h =>
      refine quiet hpc id ?_
      rw [h]
      exact ⟨installSpeaker_ghosts _, rfl⟩
    | displace h | displaceSelf h =>
      refine quiet hpc id ?_
      rw [h]
      exact ⟨modify_ghosts fun _ => rfl, rfl⟩
    | keep hno h => exact quiet hpc hno ⟨ghosts_of_figures h, balance_of_figures h⟩
  | @api u c h =>
    have quiet : ∀ {pc : ApiPc}, s.api u = pc → ¬ pc.Counts →
        (t.b.ghosts = s.b.ghosts ∧ t.b.balance = s.b.balance) → BalanceStep s t (.api u c) := by
      intro pc hpc hno hb
      refine .keep (by simp) ?_ hb.1 hb.2
      rintro _ _ ⟨⟩
      rwa [hpc]
    generalize hpc : s.api u = pc at h
    cases h with
    | @flag f h =>
      refine quiet hpc id ?_
      rw [h]
      cases f <;> exact ⟨rfl, rfl⟩
    | join h =>
      refine .rejoin rfl hpc ?_ (by rw [h, listenerAdd_stats_balance])
      rw [h]
      unfold Broadcast.ghosts
      rw [listenerAdd_stats_member]
    | displace h =>
      refine quiet hpc id ?_
      rw [h]
      exact ⟨modify_ghosts fun _ => rfl, rfl⟩
    | keep hno h => exact quiet hpc hno ⟨ghosts_of_figures h, balance_of_figures h⟩

/-- How far a member has come: before its join is counted, as a listener, in its promotion
and after it, or past `broadcast_listener_del`. -/
inductive Standing
  | before | listening | promoted | left
  deriving DecidableEq

/-- What a step of the own session makes of the standing. -/
def Standing.next (w : Standing) : SessionPc → Standing
  | .add .stats => .listening
  | .raise => .promoted
  | .unlink => .left
  | _ => w

def standing : List (Room × RoomAction) → ℕ → Standing
  | [], _ => .before
  | (s, .session n _) :: h, m => if n = m then (standing h m).next (s.session m) else standing h m
  | _ :: h, m => standing h m

def Standing.Fits : Standing → SessionPc → Prop
  | .before, pc =>
    match pc with
    | .add .running | .listen _ | .decide | .clearFlag | .raise | .listenerVariables | .unlink
    | .speak true _ => False
    | _ => True
  | .listening, pc =>
    match pc with
    | .add .running | .listen _ | .decide | .clearFlag | .raise | .listenerVariables
    | .unlink => True
    | _ => False
  | .promoted, pc =>
    match pc with
    | .speak true _ | .wait _ | .lower | .exitVariables | .clear _ | .cleanup | .release
    | .returned => True
    | _ => False
  | .left, pc =>
    match pc with
    | .clear _ | .cleanup | .release | .returned => True
    | _ => False

/-- A step of the own session moves the standing on. -/
theorem Standing.Fits.next {pc pc' : SessionPc} {w : Standing} (hf : w.Fits pc) (hn : pc.Next pc') :
    (w.next pc).Fits pc' := by
  cases pc with
  | outside | created => exact hn.elim
  | returned => exact hn.elim
  | add k =>
    cases k with
    | stats | running =>
      obtain rfl := hn
      cases w <;> trivial
    | destroyed | locked | link =>
      rcases hn with rfl | rfl <;> cases w <;> trivial
  | speak promoted k =>
    cases promoted <;> rcases hn with ⟨k', rfl, -⟩ | rfl | ⟨-, rfl⟩ <;> cases w <;>
      trivial
  | record => rcases hn with ⟨k, rfl⟩ | rfl | rfl <;> cases w <;> trivial
  | prepare => rcases hn with rfl | rfl | rfl <;> cases w <;> trivial
  | accept | check | decide =>
    rcases hn with rfl | rfl <;> cases w <;> trivial
  | wait | clear | listen =>
    rcases hn with ⟨k, rfl⟩ | rfl <;> cases w <;> trivial
  | _ =>
    obtain rfl := hn
    cases w <;> trivial

/-- Every standing fits the place of its session. -/
def StandingSound (h : List (Room × RoomAction)) (s : Room) : Prop :=
  ∀ m, (standing h m).Fits (s.session m)

theorem StandingSound.init : StandingSound [] Room.init := by
  intro m
  by_cases hm : m = 0 <;> simp [Room.init, hm, standing, Standing.Fits]

theorem standing_session :
    standing ((s, .session m c) :: h) m = (standing h m).next (s.session m) :=
  if_pos rfl

theorem standing_other (hno : ∀ c, a ≠ .session m c) : standing ((s, a) :: h) m = standing h m := by
  cases a with
  | session n c =>
    refine if_neg ?_
    rintro rfl
    exact hno c rfl
  | _ => rfl

theorem StandingSound.step (hi : StandingSound h s) (hs : roomStep p s a = some t) :
    StandingSound ((s, a) :: h) t := by
  intro m
  by_cases ha : ∃ c, a = .session m c
  · obtain ⟨c, rfl⟩ := ha
    rw [standing_session]
    exact (hi m).next (appFunction_next (roomStep_own hs))
  · rw [standing_other (not_exists.mp ha)]
    rcases roomStep_session hs m with hsame | ⟨c, hc, -⟩ | ⟨j, -, hjoin⟩
    · rw [hsame]
      exact hi m
    · exact absurd ⟨c, hc⟩ ha
    · have hf := hi m
      cases hpc : s.session m with
      | outside =>
        rw [hpc] at hjoin hf
        obtain ⟨x, -, he⟩ := Option.map_eq_some_iff.mp hjoin
        rw [← (Prod.mk.inj he).2]
        cases hw : standing h m <;> first | trivial | exact (hw ▸ hf).elim
      | created =>
        rw [hpc] at hjoin hf
        rw [← (Prod.mk.inj (Option.some.inj hjoin)).2]
        cases hw : standing h m <;> rw [hw] at hf <;> split_ifs <;> trivial
      | _ => simp [hpc, joinSession] at hjoin

def Standing.Open : Standing → Prop
  | .listening | .promoted => True
  | _ => False

/-- The members that count: no ghosts, their join counted and their leave not, their call not
returned. -/
def Open (h : List (Room × RoomAction)) (s : Room) : Set ℕ :=
  {m | s.b.ghosts m = false ∧ (standing h m).Open ∧ s.session m ≠ .returned}

/-- Every member that is not a ghost is counted once on its way in and once on its way out: it
is not put back by a promotion, is on the list when it leaves it, and does not return after
its promotion. -/
structure CountsOnce (h : List (Room × RoomAction)) (s : Room) (a : RoomAction) : Prop where
  join : ∀ u c x m, a = .api u c → s.api u = .promote x m (.add .stats) → s.b.ghosts m = true
  leave : ∀ m c, a = .session m c → s.session m = .unlink → s.b.ghosts m = false →
    m ∈ s.b.listeners
  promoted : ∀ m c, a = .session m c → s.session m = .release → s.b.ghosts m = false →
    standing h m ≠ .promoted

/-- The balance is ahead of the members that count by the members that were not counted once. -/
structure BalanceSound (h : List (Room × RoomAction)) (s : Room) : Prop where
  fits : StandingSound h s
  counts : ∃ d : ℕ, Counts (s.b.balance - d) (Open h s) ∧ (d = 0 ↔ MeetsPast CountsOnce h)

theorem BalanceSound.init : BalanceSound [] Room.init := by
  have hempty : Open [] Room.init = ∅ := by
    ext m
    simp [Open, standing, Standing.Open]
  refine ⟨.init, 0, ?_, fun _ => trivial, fun _ => rfl⟩
  rw [hempty]
  exact ⟨Set.finite_empty, by simp [Room.init, Broadcast.create, Broadcast.balance]⟩

/-- A step that counts nobody twice and misses nobody keeps the error. -/
theorem BalanceSound.follow (hi : BalanceSound h s) (hs : roomStep p s a = some t)
    (hf : Follows (m ∈ Open h s) (m ∈ Open ((s, a) :: h) t) s.b.balance t.b.balance)
    (hother : ∀ n, n ≠ m → (n ∈ Open ((s, a) :: h) t ↔ n ∈ Open h s)) (hg : CountsOnce h s a) :
    BalanceSound ((s, a) :: h) t := by
  obtain ⟨d, hd, hiff⟩ := hi.counts
  refine ⟨hi.fits.step hs, d, ?_, ?_⟩
  · rw [Int.sub_eq_add_neg] at hd ⊢
    exact hd.follow hf hother
  · rw [hiff]
    exact ⟨fun hm => ⟨hg, hm⟩, fun hm => hm.2⟩

/-- A step that counts somebody again or misses somebody adds to the error. -/
theorem BalanceSound.miss (hi : BalanceSound h s) (hs : roomStep p s a = some t)
    (hc : ∀ d : ℕ, Counts (s.b.balance - d) (Open h s) →
      Counts (t.b.balance - (d + 1 : ℕ)) (Open ((s, a) :: h) t)) (hg : ¬ CountsOnce h s a) :
    BalanceSound ((s, a) :: h) t := by
  obtain ⟨d, hd, -⟩ := hi.counts
  refine ⟨hi.fits.step hs, d + 1, hc d hd, ?_⟩
  exact ⟨fun hz => absurd hz (Nat.succ_ne_zero d), fun hm => absurd hm.1 hg⟩

theorem roomStep_returned_iff (hs : roomStep p s a = some t)
    (hno : ∀ c, a = .session m c → s.session m ≠ .release) :
    t.session m = .returned ↔ s.session m = .returned := by
  rcases roomStep_session hs m with hsame | ⟨c, ha, hown⟩ | ⟨j, -, hjoin⟩
  · rw [hsame]
  · constructor
    · intro hret
      rw [hret] at hown
      exact absurd (appFunction_next hown).follows (hno c ha)
    · intro hret
      rw [hret] at hown
      cases hown
  · cases hpc : s.session m with
    | outside =>
      rw [hpc] at hjoin
      obtain ⟨x, -, he⟩ := Option.map_eq_some_iff.mp hjoin
      rw [← (Prod.mk.inj he).2]
      simp
    | created =>
      rw [hpc] at hjoin
      rw [← (Prod.mk.inj (Option.some.inj hjoin)).2]
      split_ifs <;> simp
    | _ => simp [hpc, joinSession] at hjoin

theorem open_iff (hs : roomStep p s a = some t) (hg : t.b.ghosts n = s.b.ghosts n)
    (hp : ∀ c, a = .session n c → s.session n ≠ .release ∧
      (((standing h n).next (s.session n)).Open ↔ (standing h n).Open)) :
    n ∈ Open ((s, a) :: h) t ↔ n ∈ Open h s := by
  have hpass : (standing ((s, a) :: h) n).Open ↔ (standing h n).Open := by
    by_cases ha : ∃ c, a = .session n c
    · obtain ⟨c, rfl⟩ := ha
      rw [standing_session]
      exact (hp c rfl).2
    · rw [standing_other (not_exists.mp ha)]
  have hret := roomStep_returned_iff (m := n) hs fun c ha => (hp c ha).1
  unfold Open
  simp only [Set.mem_ofPred_eq, hg, hpass, ne_eq, hret]

theorem Standing.next_open {w : Standing} {pc : SessionPc} (hf : w.Fits pc) (hno : ¬ pc.Counts) :
    (w.next pc).Open ↔ w.Open := by
  cases pc with
  | add k => cases k <;> first | exact Iff.rfl | exact absurd trivial hno
  | raise => cases w <;> first | exact Iff.rfl | exact hf.elim
  | unlink => exact absurd trivial hno
  | _ => exact Iff.rfl

theorem countsOnce_session
    (hu : s.session m = .unlink → s.b.ghosts m = false → m ∈ s.b.listeners)
    (hr : s.session m = .release → s.b.ghosts m = false → standing h m ≠ .promoted) :
    CountsOnce h s (.session m c) := by
  refine ⟨by simp, ?_, ?_⟩
  · rintro _ _ ⟨⟩
    exact hu
  · rintro _ _ ⟨⟩
    exact hr

/-- A member that counted and was not counted out is missing from now on. -/
theorem BalanceSound.lose (hi : BalanceSound h s) (hs : roomStep p s a = some t)
    (hin : m ∈ Open h s) (hnot : m ∉ Open ((s, a) :: h) t)
    (hother : ∀ n, n ≠ m → (n ∈ Open ((s, a) :: h) t ↔ n ∈ Open h s))
    (hb : t.b.balance = s.b.balance) (hg : ¬ CountsOnce h s a) : BalanceSound ((s, a) :: h) t := by
  refine hi.miss hs (fun d hd => ?_) hg
  have hbal : t.b.balance - (d + 1 : ℕ) = s.b.balance - d - 1 := by
    simp only [hb, Nat.cast_add, Nat.cast_one]
    omega
  rw [hbal]
  refine hd.lose hin fun n => ?_
  by_cases hn : n = m
  · subst hn
    simp [hnot]
  · simp [hn, hother n hn]

/-- The steps of a session at another place do not concern the member `n`. -/
theorem open_other (hs : roomStep p s (.session m c) = some t) (hn : n ≠ m)
    (hg : t.b.ghosts n = s.b.ghosts n) :
    n ∈ Open ((s, .session m c) :: h) t ↔ n ∈ Open h s :=
  open_iff hs hg (by simp [Ne.symm hn])

theorem BalanceSound.join (hi : BalanceSound h s) (hs : roomStep p s (.session m c) = some t)
    (hpc : s.session m = .add .stats) (hg : t.b.ghosts = s.b.ghosts)
    (hb : t.b.balance = s.b.balance + if s.b.ghosts m then 0 else 1) :
    BalanceSound ((s, .session m c) :: h) t := by
  have hfit := hi.fits m
  have hnext := appFunction_next (roomStep_own hs)
  rw [hpc] at hfit hnext
  have hnot : m ∉ Open h s := by
    rintro ⟨-, hopen, -⟩
    cases hw : standing h m <;> rw [hw] at hfit hopen <;> trivial
  refine hi.follow (m := m) hs ?_ (fun n hn => open_other hs hn (by rw [hg]))
    (countsOnce_session (by simp [hpc]) (by simp [hpc]))
  by_cases hghost : s.b.ghosts m = true
  · refine .stays ?_ (by simp [hb, hghost])
    refine iff_of_false ?_ hnot
    rintro ⟨hfalse, -⟩
    rw [hg, hghost] at hfalse
    cases hfalse
  · refine .enters hnot ⟨?_, ?_, ?_⟩ (by simp [hb, hghost])
    · rw [hg]
      simpa using hghost
    · rw [standing_session, hpc]
      trivial
    · rw [hnext]
      simp

/-- A promotion puts the member back, which counts it again. -/
theorem BalanceSound.rejoin {u x : ℕ} (hi : BalanceSound h s)
    (hs : roomStep p s (.api u c) = some t) (hpc : s.api u = .promote x m (.add .stats))
    (hg : t.b.ghosts = s.b.ghosts)
    (hb : t.b.balance = s.b.balance + if s.b.ghosts m then 0 else 1) :
    BalanceSound ((s, .api u c) :: h) t := by
  have hsame : ∀ n, n ∈ Open ((s, .api u c) :: h) t ↔ n ∈ Open h s := fun n =>
    open_iff hs (by rw [hg]) (by simp)
  by_cases hghost : s.b.ghosts m = true
  · refine hi.follow (m := m) hs (.stays (hsame m) (by simp [hb, hghost])) (fun n _ => hsame n)
      ⟨?_, by simp, by simp⟩
    rintro _ _ _ _ ⟨⟩ hpc'
    cases hpc.symm.trans hpc'
    exact hghost
  · refine hi.miss hs (fun d hd => ?_) fun hg => hghost (hg.join u c x m rfl hpc)
    have hbal : t.b.balance - (d + 1 : ℕ) = s.b.balance - d := by
      simp only [hb, hghost, Nat.cast_add, Nat.cast_one]
      simp
    rw [hbal]
    exact hd.congr hsame

/-- The leave is counted if the member is on the list. -/
theorem BalanceSound.leave (hi : BalanceSound h s) (hs : roomStep p s (.session m c) = some t)
    (hpc : s.session m = .unlink) (hg : t.b.ghosts = s.b.ghosts)
    (hb : t.b.balance = s.b.balance -
      if m ∈ s.b.listeners ∧ s.b.ghosts m = false then 1 else 0) :
    BalanceSound ((s, .session m c) :: h) t := by
  have hfit := hi.fits m
  rw [hpc] at hfit
  have hopen : (standing h m).Open := by
    cases hw : standing h m <;> rw [hw] at hfit <;> trivial
  have hnot : m ∉ Open ((s, .session m c) :: h) t := by
    rintro ⟨-, hleft, -⟩
    rw [standing_session, hpc] at hleft
    exact hleft
  have hother : ∀ n, n ≠ m → (n ∈ Open ((s, .session m c) :: h) t ↔ n ∈ Open h s) := fun n hn =>
    open_other hs hn (by rw [hg])
  by_cases hghost : s.b.ghosts m = true
  · refine hi.follow (m := m) hs (.stays (iff_of_false hnot ?_) (by simp [hb, hghost])) hother
      (countsOnce_session ?_ (by simp [hpc]))
    · rintro ⟨hfalse, -⟩
      rw [hghost] at hfalse
      cases hfalse
    · intro _ hfalse
      rw [hghost] at hfalse
      cases hfalse
  · have hfalse : s.b.ghosts m = false := by simpa using hghost
    have hin : m ∈ Open h s := ⟨hfalse, hopen, by rw [hpc]; simp⟩
    by_cases hm : m ∈ s.b.listeners
    · exact hi.follow (m := m) hs (.leaves hin hnot (by simp [hb, hfalse, hm])) hother
        (countsOnce_session (fun _ _ => hm) (by simp [hpc]))
    · exact hi.lose hs hin hnot hother (by simp [hb, hm]) fun hg => hm (hg.leave m c rfl hpc hfalse)

theorem BalanceSound.prepare {j : JoinParams} (hi : BalanceSound h s)
    (hs : roomStep p s (.session m c) = some t) (hpc : s.session m = .prepare j)
    (hg : ∀ n, n ≠ m → t.b.ghosts n = s.b.ghosts n) (hb : t.b.balance = s.b.balance) :
    BalanceSound ((s, .session m c) :: h) t := by
  have hfit := hi.fits m
  rw [hpc] at hfit
  have hbefore : ¬ (standing h m).Open := by
    cases hw : standing h m <;> rw [hw] at hfit <;> first | exact id | exact hfit.elim
  refine hi.follow (m := m) hs (.stays (iff_of_false ?_ fun hm => hbefore hm.2.1) hb)
    (fun n hn => open_other hs hn (hg n hn)) (countsOnce_session (by simp [hpc]) (by simp [hpc]))
  rintro ⟨-, hopen, -⟩
  rw [standing_session, hpc] at hopen
  exact hbefore hopen

/-- A call that returns after a promotion has not been counted out. -/
theorem BalanceSound.release (hi : BalanceSound h s) (hs : roomStep p s (.session m c) = some t)
    (hpc : s.session m = .release) (hg : t.b.ghosts = s.b.ghosts)
    (hb : t.b.balance = s.b.balance) : BalanceSound ((s, .session m c) :: h) t := by
  have hnext := appFunction_next (roomStep_own hs)
  rw [hpc] at hnext
  have hnot : m ∉ Open ((s, .session m c) :: h) t := fun hm => hm.2.2 hnext
  have hother : ∀ n, n ≠ m → (n ∈ Open ((s, .session m c) :: h) t ↔ n ∈ Open h s) := fun n hn =>
    open_other hs hn (by rw [hg])
  by_cases hin : s.b.ghosts m = false ∧ standing h m = .promoted
  · have hopen : m ∈ Open h s := ⟨hin.1, by rw [hin.2]; trivial, by rw [hpc]; simp⟩
    exact hi.lose hs hopen hnot hother hb fun hg => hg.promoted m c rfl hpc hin.1 hin.2
  · have hout : m ∉ Open h s := by
      rintro ⟨hghost, hopen, -⟩
      have hfit := hi.fits m
      rw [hpc] at hfit
      refine hin ⟨hghost, ?_⟩
      cases hw : standing h m <;> rw [hw] at hfit hopen <;> trivial
    exact hi.follow (m := m) hs (.stays (iff_of_false hnot hout) hb) hother
      (countsOnce_session (by simp [hpc]) fun _ hghost hw => hin ⟨hghost, hw⟩)

/-- A step that neither counts nor returns. -/
theorem BalanceSound.still (hi : BalanceSound h s) (hs : roomStep p s a = some t)
    (hk : ∀ m c, a = .session m c → ¬ (s.session m).Counts)
    (hk' : ∀ u c, a = .api u c → ¬ (s.api u).Counts)
    (hrel : ∀ m c, a = .session m c → s.session m ≠ .release) (hg : t.b.ghosts = s.b.ghosts)
    (hb : t.b.balance = s.b.balance) : BalanceSound ((s, a) :: h) t := by
  have hsame : ∀ n, n ∈ Open ((s, a) :: h) t ↔ n ∈ Open h s := by
    intro n
    refine open_iff hs (by rw [hg]) fun d ha => ⟨hrel n d ha, ?_⟩
    have hfit := hi.fits n
    have hno := hk n d ha
    generalize standing h n = w at hfit
    generalize s.session n = pc at hfit hno
    exact Standing.next_open hfit hno
  refine hi.follow (m := 0) hs (.stays (hsame 0) hb) (fun n _ => hsame n) ⟨?_, ?_, ?_⟩
  · intro u d x m ha hpc
    have hno := hk' u d ha
    rw [hpc] at hno
    exact absurd trivial hno
  · intro m d ha hpc
    have hno := hk m d ha
    rw [hpc] at hno
    exact absurd trivial hno
  · intro m d ha hpc
    exact absurd hpc (hrel m d ha)

theorem BalanceSound.step (hi : BalanceSound h s) (hs : roomStep p s a = some t) :
    BalanceSound ((s, a) :: h) t := by
  cases roomStep_balance hs with
  | join ha hpc hg hb =>
    subst ha
    exact hi.join hs hpc hg hb
  | rejoin ha hpc hg hb =>
    subst ha
    exact hi.rejoin hs hpc hg hb
  | leave ha hpc hg hb =>
    subst ha
    exact hi.leave hs hpc hg hb
  | prepare ha hpc hg hb =>
    subst ha
    exact hi.prepare hs hpc hg hb
  | keep hk hk' hg hb =>
    by_cases hrel : ∃ m c, a = .session m c ∧ s.session m = .release
    · obtain ⟨m, c, rfl, hpc⟩ := hrel
      exact hi.release hs hpc hg hb
    · exact hi.still hs hk hk' (fun m c ha hpc => hrel ⟨m, c, ha, hpc⟩) hg hb

/-- The places of a session between its join and its exit, before and after its call. -/
def SessionPc.quiet : SessionPc → Bool
  | .outside | .created | .listen _ | .wait _ | .returned => true
  | _ => false

theorem Standing.next_before {w : Standing} {pc : SessionPc} (hf : w.Fits pc) :
    w.next pc ≠ .before ↔ pc = .add .stats ∨ w ≠ .before := by
  cases pc with
  | add k => cases k <;> simp [Standing.next]
  | raise | unlink => cases w <;> first | exact hf.elim | simp [Standing.next]
  | _ => simp [Standing.next]

end ModBroadcast
