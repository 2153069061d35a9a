import ModBroadcast.ListenerList
import ModBroadcast.Loops

namespace ModBroadcast

open Automaton

variable {p : RoomProfile} {b b' : Broadcast} {c : Choice} {m n u : ℕ} {s t : Room}
  {a : RoomAction} {h : List (Room × RoomAction)}

def SessionPc.Undecided : SessionPc → Prop
  | .add .stats | .add .running | .listen _ | .decide => True
  | _ => False

instance : DecidablePred SessionPc.Undecided
  | .add .stats | .add .running | .listen _ | .decide => .isTrue trivial
  | .outside | .created | .record .. | .recordFailed _ | .pin _ | .accept _ | .prepare _
  | .check | .nextId | .running | .speak .. | .wait _ | .lower | .exitVariables
  | .add .destroyed | .add .locked | .add .link | .clearFlag | .raise | .listenerVariables
  | .unlink | .clear _ | .cleanup | .release | .returned => .isFalse id

/-- The places of a session after it has entered its listener loop, and after its speaker
branch. -/
def SessionPc.Entered : SessionPc → Prop
  | .listen k => k ≠ .enter
  | .decide | .clearFlag | .raise | .speak true _ | .wait _ | .lower | .exitVariables
  | .listenerVariables | .unlink | .clear _ | .cleanup | .release | .returned => True
  | _ => False

theorem listenerRun_next {k k' : ListenerRunPc} (h : (listenerRun p b m c k).2 = .run k') :
    k' ≠ .enter ∧ k ≠ .leave := by
  cases k with
  | enter | stop =>
    obtain rfl := Progress.run.inj h
    exact ⟨by simp, by simp⟩
  | leave => cases h
  | timer | loop | check =>
    dsimp only [listenerRun] at h
    split_ifs at h <;> obtain rfl := Progress.run.inj h <;> exact ⟨by simp, by simp⟩
  | dtmf | tick =>
    dsimp only [listenerRun] at h
    split at h <;> obtain rfl := Progress.run.inj h <;> exact ⟨by simp, by simp⟩

/-- A session in its listener loop stays in it, or comes to the test of the flag. -/
theorem appFunction_listen {k : ListenerRunPc} {pc' : SessionPc}
    (h : appFunction p b m c (.listen k) = some (b', pc')) :
    (∃ k', pc' = .listen k' ∧ k' ≠ .enter ∧ k ≠ .leave) ∨ pc' = .decide := by
  obtain ⟨-, rfl⟩ := Prod.mk.inj (Option.some.inj h)
  cases hk : (listenerRun p b m c k).2 with
  | run k' => exact .inl ⟨k', rfl, listenerRun_next hk⟩
  | ret ok => exact .inr rfl

theorem before_listen {pc : SessionPc} {k : ListenerRunPc} (h : pc.Next (.listen k))
    (hk : k ≠ .enter) : ∃ k₀, pc = .listen k₀ := by
  obtain hlisten | ⟨-, he⟩ := h.follows
  · exact hlisten
  · exact absurd he hk

theorem appFunction_entered {pc pc' : SessionPc} (h : appFunction p b m c pc = some (b', pc'))
    (he : pc.Entered) : pc'.Entered := by
  have hn := appFunction_next h
  cases pc with
  | listen k =>
    obtain ⟨k', rfl, hk, -⟩ | rfl := appFunction_listen h
    · exact hk
    · trivial
  | speak promoted k =>
    cases promoted with
    | false => exact he.elim
    | true => obtain ⟨k', rfl, -⟩ | rfl | ⟨-, rfl⟩ := hn <;> trivial
  | wait k => obtain ⟨k', rfl⟩ | rfl := hn <;> trivial
  | clear k => obtain ⟨k', rfl⟩ | rfl := hn <;> trivial
  | decide => obtain rfl | rfl := hn <;> trivial
  | clearFlag | raise | lower | exitVariables | listenerVariables | unlink | cleanup | release =>
    obtain rfl := hn
    trivial
  | returned => cases h
  | _ => exact he.elim

/-- Until the test of the flag a session stays in the listener branch. -/
theorem appFunction_undecided {pc pc' : SessionPc} (h : appFunction p b m c pc = some (b', pc'))
    (hu : pc.Undecided) (hd : pc ≠ .decide) : pc'.Undecided := by
  have hn := appFunction_next h
  cases pc with
  | add k =>
    cases k with
    | stats | running =>
      obtain rfl := hn
      trivial
    | _ => exact hu.elim
  | listen k => obtain ⟨k', rfl⟩ | rfl := hn <;> trivial
  | decide => exact absurd rfl hd
  | _ => exact hu.elim

def PromotionPc.Next : PromotionPc → PromotionPc → Prop
  | .bridge, .unlink | .unlink, .raise | .raise, .lower | .lower, .poll | .poll, .poll
  | .poll, .recheck | .recheck, .drop | .drop, .add .destroyed | .add .destroyed, .add .locked
  | .add .locked, .add .link | .add .link, .add .stats | .add .stats, .add .running => True
  | _, _ => False

theorem requestPromotion_next {k k' : PromotionPc}
    (h : (requestPromotion p b m c k).2 = .run k') : k.Next k' := by
  cases k with
  | raise | lower | drop =>
    obtain rfl := Progress.run.inj h
    trivial
  | bridge | poll | recheck =>
    dsimp only [requestPromotion] at h
    split_ifs at h <;> obtain rfl := Progress.run.inj h <;> trivial
  | unlink =>
    dsimp only [requestPromotion, listenerUnlinkForPromotion] at h
    split_ifs at h
    obtain rfl := Progress.run.inj h
    trivial
  | add k =>
    cases k with
    | running => cases h
    | destroyed | locked | link | stats =>
      dsimp only [requestPromotion, listenerAdd] at h
      split_ifs at h <;> cases h <;> trivial

/-- `in_listener_bridge` and the place of the session agree. -/
structure BridgeSound (s : Room) : Prop where
  entered : ∀ m, (s.b.loops m).2 = true → (s.session m).Entered
  bridge : ∀ m k, s.session m = .listen k → k ≠ .enter → (s.b.loops m).2 = true

theorem BridgeSound.init : BridgeSound Room.init where
  entered m hm := by cases hm
  bridge m k hm _ := by
    by_cases h0 : m = 0
    · subst h0
      simp [Room.init] at hm
    · simp [Room.init, h0] at hm

/-- The session that enters its listener loop sets `in_listener_bridge`. -/
theorem roomStep_enter (hs : roomStep p s (.session m c) = some t)
    (hpc : s.session m = .listen .enter) :
    (t.b.loops m).2 = true ∧ t.session m = .listen .timer := by
  have hx := roomStep_own hs
  rw [hpc] at hx
  obtain ⟨hb, hpc'⟩ := Prod.mk.inj (Option.some.inj hx)
  rw [← hb, ← hpc']
  simp [listenerRun, Progress.resume, Broadcast.loops, Broadcast.modify]

/-- What a session has entered, it stays in or leaves for good. -/
theorem entered_step (hs : roomStep p s a = some t) (he : (s.session m).Entered) :
    (t.session m).Entered := by
  obtain h | ⟨c, -, h⟩ | ⟨j, -, h⟩ := roomStep_session hs m
  · rwa [h]
  · exact appFunction_entered h he
  · cases hpc : s.session m <;> simp [hpc, joinSession, SessionPc.Entered] at h he

theorem BridgeSound.step (hi : BridgeSound s) (hs : roomStep p s a = some t) : BridgeSound t where
  entered m hm := by
    obtain h | ⟨c, rfl, ⟨hpc, -⟩ | ⟨-, h⟩⟩ := roomStep_bridge hs m
    · exact entered_step hs (hi.entered m (h ▸ hm))
    · rw [(roomStep_enter hs hpc).2]
      exact nofun
    · rw [h] at hm
      cases hm
  bridge m k' hpc' hk' := by
    by_cases hown : ∃ c, a = .session m c
    · obtain ⟨c, rfl⟩ := hown
      obtain ⟨k, hpc⟩ : ∃ k, s.session m = .listen k := by
        have hx := roomStep_own hs
        rw [hpc'] at hx
        exact before_listen (appFunction_next hx) hk'
      by_cases hk : k = .enter
      · exact (roomStep_enter hs (hk ▸ hpc)).1
      · obtain h | ⟨c', -, ⟨hpc₁, -⟩ | ⟨hpc₁ | ⟨j, hpc₁⟩, -⟩⟩ := roomStep_bridge hs m
        · exact h ▸ hi.bridge m k hpc hk
        · exact absurd (SessionPc.listen.inj (hpc.symm.trans hpc₁)) hk
        · obtain rfl := SessionPc.listen.inj (hpc.symm.trans hpc₁)
          have hx := roomStep_own hs
          rw [hpc, hpc'] at hx
          obtain ⟨k₁, -, -, hleave⟩ | hd := appFunction_listen hx
          · exact absurd rfl hleave
          · cases hd
        · cases hpc.symm.trans hpc₁
    · have hsame : t.session m = s.session m := by
        obtain h | ⟨c, ha, -⟩ | ⟨j, rfl, h⟩ := roomStep_session hs m
        · exact h
        · exact absurd ⟨c, ha⟩ hown
        · rw [hpc'] at h
          cases hpc : s.session m <;> simp [hpc, joinSession] at h
          split_ifs at h <;> simp at h
      obtain h | ⟨c, ha, -⟩ := roomStep_bridge hs m
      · exact h ▸ hi.bridge m k' (hsame ▸ hpc') hk'
      · exact absurd ⟨c, ha⟩ hown

def TookBranch (h : List (Room × RoomAction)) (m : ℕ) : Prop :=
  ∃ s c, (s, .session m c) ∈ h ∧ s.session m = .decide ∧
    (s.b.member m).mflags.roleTransitionToSpeaker = true

/-- The session of `m` has taken the speaker branch, or stands before its test of the flag
and will find it set. -/
def TakesBranch (h : List (Room × RoomAction)) (s : Room) (m : ℕ) : Prop :=
  TookBranch h m ∨
    s.session m = .decide ∧ (s.b.member m).mflags.roleTransitionToSpeaker = true

/-- A request for the promotion of `m` has returned SUCCESS. -/
def Promoted (h : List (Room × RoomAction)) (m : ℕ) : Prop :=
  ∃ s u c x, (s, .api u c) ∈ h ∧ s.api u = .promote x m .recheck ∧
    (s.b.member m).in_listener_bridge = false

/-- If the step ends the rollback of a request, its member is an ordinary listener again. -/
def RestoresListener (p : RoomProfile) (s : Room) (a : RoomAction) : Prop :=
  ∀ u c x m k t, a = .api u c → s.api u = .promote x m (.add k) → roomStep p s a = some t →
    t.api u = .unpin x → t.b.listeners.count m = 1 ∧ (t.b.member m).mflags.running = true ∧
      (t.b.member m).mflags.roleTransitionToSpeaker = false

/-- A request raises the flag before the session has tested it. -/
def RaisesInTime (s : Room) (a : RoomAction) : Prop :=
  ∀ u c x m, a = .api u c → s.api u = .promote x m .raise → (s.session m).Undecided

/-- The rollback finds the broadcast neither destroyed nor locked nor full. -/
def RollbackAccepted (p : RoomProfile) (s : Room) (a : RoomAction) : Prop :=
  ∀ u c x m k, a = .api u c → s.api u = .promote x m (.add k) →
    (k = .destroyed → s.b.destroyed = false) ∧ (k = .locked → s.b.locked = false) ∧
      (k = .link → s.b.listener_count < p.max_listeners)

def Unlinks (s : Room) (a : RoomAction) (m : ℕ) : Prop :=
  (∃ c, a = .session m c ∧ s.session m = .unlink) ∨
    ∃ u c x, a = .api u c ∧ s.api u = .promote x m .unlink

/-- Nobody takes the member out again while a rollback that has linked it goes on. -/
def RollbackUndisturbed (s : Room) (a : RoomAction) : Prop :=
  ∀ u x m k, s.api u = .promote x m (.add k) → k = .stats ∨ k = .running → ¬ Unlinks s a m

theorem SessionRoster.transitions_other {pc pc' : SessionPc} (h : SessionRoster p n b b' pc pc')
    (hmn : m ≠ n) : b'.transitions m = b.transitions m := by
  cases h with
  | prepare hb => rw [hb, memberPrepare_transitions, Function.update_of_ne hmn]
  | number hb => simp [hb, Broadcast.transitions, Broadcast.modify, memberNextId, hmn]
  | link hb => rw [hb, listenerLink_transitions]
  | lower hb => rw [hb, modifyFlags_transitions, Function.update_of_ne hmn]
  | unlink hb =>
    have hdel := listenerDel_roster (p := p) (b := b) (m := n)
    rw [hb]
    split_ifs at hdel <;> exact congrFun (transitions_of_roster hdel) m
  | commit _ hr | keep _ hr => exact congrFun (transitions_of_roster hr) m

/-- The flag stays up until its session tests it or a rollback takes it down. -/
theorem transitions_step (hs : roomStep p s a = some t) (hflag : s.b.transitions m = true)
    (hund : (s.session m).Undecided) (hd : ∀ c, a = .session m c → s.session m ≠ .decide)
    (hdrop : ∀ u c x, a = .api u c → s.api u ≠ .promote x m .drop) :
    t.b.transitions m = true ∧ (t.session m).Undecided := by
  cases roomStep_roster hs with
  | @session n c h hn hsess ha =>
    by_cases hmn : m = n
    · subst hmn
      refine ⟨?_, appFunction_undecided (roomStep_own hs) hund (hd c rfl)⟩
      generalize hpc : s.session m = pc at h hund
      generalize t.session m = pc' at h
      cases h with
      -- of the steps of an undecided session only the test takes the flag down
      | commit => exact absurd hpc (hd c rfl)
      | keep _ hr => exact (congrFun (transitions_of_roster hr) m).trans hflag
      | _ => exact hund.elim
    · rw [h.transitions_other hmn, hsess m hmn]
      exact ⟨hflag, hund⟩
  | @api u c h hsess ha =>
    rw [hsess]
    refine ⟨?_, hund⟩
    generalize hpc : s.api u = pc at h
    generalize t.api u = pc' at h
    cases h with
    | unlink _ hb =>
      rw [hb]
      exact hflag
    | @raise x n hb =>
      rw [hb, modifyFlags_transitions]
      by_cases hmn : m = n
      · rw [hmn, Function.update_self]
      · rw [Function.update_of_ne hmn]
        exact hflag
    | @drop x n hb =>
      -- a request takes the flag down in its rollback only
      have hmn : m ≠ n := by
        rintro rfl
        exact hdrop u c x rfl hpc
      rw [hb, modifyFlags_transitions, Function.update_of_ne hmn]
      exact hflag
    | link _ hb =>
      rw [hb, listenerLink_transitions]
      exact hflag
    | keep _ _ hr => exact (congrFun (transitions_of_roster hr) m).trans hflag
  | @join n j hr hn _ hsess ha =>
    refine ⟨(congrFun (transitions_of_roster hr) m).trans hflag, ?_⟩
    have hmn : m ≠ n := by
      rintro rfl
      obtain hn | hn := hn <;> rw [hn] at hund <;> exact hund
    rwa [hsess m hmn]
  | enter hr hsess =>
    rw [hsess]
    exact ⟨(congrFun (transitions_of_roster hr) m).trans hflag, hund⟩
  | keep hr hsess =>
    rw [hsess]
    exact ⟨(congrFun (transitions_of_roster hr) m).trans hflag, hund⟩

/-- A request takes a member out only when it finds it on the list. -/
theorem moves_step (hs : roomStep p s a = some t) (hm : (t.api u).Moves m) :
    (s.api u).Moves m ∨ m ∈ s.b.listeners := by
  cases roomStep_roster hs with
  | @api v c h hsess ha =>
    by_cases hu : u = v
    · subst hu
      generalize s.api u = pc at h ⊢
      generalize t.api u = pc' at h hm
      cases h with
      | unlink hmem _ => exact .inr (hm.1 ▸ hmem)
      | raise | drop => exact .inl ⟨hm.1, trivial⟩
      | link => exact hm.2.elim
      | keep hkeep _ _ => exact .inl (hkeep m hm)
    · exact .inl (ha u hu ▸ hm)
  | session _ _ _ ha | join _ _ _ _ ha | keep _ _ ha => exact .inl (ha ▸ hm)
  | @enter _ v _ _ _ hv ha =>
    by_cases hu : u = v
    · subst hu
      obtain ⟨k, hk⟩ | hk := hv <;> rw [hk] at hm <;> exact hm.elim
    · exact .inl (ha u hu ▸ hm)

/-- A member on the list stays there unless the step takes it out. -/
theorem listeners_step (hnodup : s.b.listeners.Nodup) (hs : roomStep p s a = some t)
    (hm : m ∈ s.b.listeners) (ha : ¬ Unlinks s a m) : m ∈ t.b.listeners := by
  cases roomStep_roster hs with
  | @session n c h _ _ _ =>
    generalize hpc : s.session n = pc at h
    generalize t.session n = pc' at h
    cases h with
    | prepare hb | number hb | lower hb =>
      rw [hb]
      exact hm
    | link hb =>
      rw [hb, listenerLink_listeners]
      exact List.mem_cons_of_mem n hm
    | unlink hb =>
      have hmn : m ≠ n := by
        rintro rfl
        exact ha (.inl ⟨c, rfl, hpc⟩)
      rw [hb]
      exact ((listenerDel_list hnodup).1 m).mpr ⟨hmn, hm⟩
    | commit _ hr | keep _ hr => exact (listeners_of_roster hr).symm ▸ hm
  | @api u c h _ _ =>
    generalize hpc : s.api u = pc at h
    generalize t.api u = pc' at h
    cases h with
    | @unlink x n _ hb =>
      have hmn : m ≠ n := by
        rintro rfl
        exact ha (.inr ⟨u, c, x, rfl, hpc⟩)
      rw [hb]
      exact (List.mem_erase_of_ne hmn).mpr hm
    | raise hb | drop hb =>
      rw [hb]
      exact hm
    | link _ hb =>
      rw [hb, listenerLink_listeners]
      exact List.mem_cons_of_mem _ hm
    | keep _ _ hr => exact (listeners_of_roster hr).symm ▸ hm
  | join hr | enter hr | keep hr => exact (listeners_of_roster hr).symm ▸ hm

def PromotionPc.Raised : PromotionPc → Prop
  | .lower | .poll | .recheck | .drop => True
  | _ => False

/-- What every request knows about its member. -/
structure HandshakeSound (h : List (Room × RoomAction)) (s : Room) : Prop where
  link : s.LinkSound
  bridge : BridgeSound s
  asked : ∀ u x m k, s.api u = .promote x m k → k ≠ .bridge → (s.session m).Entered
  raised : ∀ u x m k, s.api u = .promote x m k → k.Raised →
    TookBranch h m ∨ s.b.transitions m = true ∧ (s.session m).Undecided
  promoted : ∀ m, Promoted h m → TookBranch h m ∨
    s.b.transitions m = true ∧ s.session m = .decide ∧ ∀ u, ¬ (s.api u).Moves m
  relinked : ∀ u x m k, s.api u = .promote x m (.add k) → k = .stats ∨ k = .running →
    m ∈ s.b.listeners

theorem HandshakeSound.init : HandshakeSound [] Room.init where
  link := .init
  bridge := .init
  asked u x m k hpc := by cases hpc
  raised u x m k hpc := by cases hpc
  promoted m hm := by
    obtain ⟨s, u, c, x, hmem, -⟩ := hm
    cases hmem
  relinked u x m k hpc := by cases hpc

theorem TookBranch.cons (hm : TookBranch h m) (x : Room × RoomAction) : TookBranch (x :: h) m := by
  obtain ⟨s, c, hmem, hrest⟩ := hm
  exact ⟨s, c, List.mem_cons_of_mem x hmem, hrest⟩

theorem PromotionPc.Raised.holds {k : PromotionPc} (hk : k.Raised) : k.Holds := by
  cases k with
  | lower | poll | recheck | drop => trivial
  | _ => exact hk.elim

/-- The place of a request after a step: it stands still, has gone on or just begun. -/
theorem promote_step {x : ℕ} {k' : PromotionPc} (hs : roomStep p s a = some t)
    (hpc : t.api u = .promote x m k') :
    (s.api u = .promote x m k' ∧ ∀ c, a = .api u c → k' = .poll) ∨ k' = .bridge ∨
      ∃ c k, a = .api u c ∧ s.api u = .promote x m k ∧
        requestPromotion p s.b m c k = (t.b, .run k') := by
  by_cases hown : ∃ c, a = .api u c
  · obtain ⟨c, rfl⟩ := hown
    have hx := (roomStep_dispatch hs).1
    rw [hpc] at hx
    obtain hk | ⟨k, hpc₀, hk⟩ := apiDispatch_promote hx
    · exact .inr (.inl hk)
    · exact .inr (.inr ⟨c, k, rfl, hpc₀, hk⟩)
  · obtain h | ⟨c, ha, -⟩ | ⟨hidle, ⟨k, -, h⟩ | ⟨-, h⟩⟩ := roomStep_api hs u
    · exact .inl ⟨h ▸ hpc, fun c ha => absurd ⟨c, ha⟩ hown⟩
    · exact absurd ⟨c, ha⟩ hown
    · cases h.symm.trans hpc
    · cases h.symm.trans hpc

/-- While a request stands between the raising of the flag and its decision, the session
finds the flag, or has found it. -/
theorem HandshakeSound.raised_kept (hi : HandshakeSound h s) (hs : roomStep p s a = some t)
    {x : ℕ} {k : PromotionPc} (hpc : s.api u = .promote x m k) (hk : k.Raised)
    (hown : ∀ c, a = .api u c → k ≠ .drop) :
    TookBranch ((s, a) :: h) m ∨ t.b.transitions m = true ∧ (t.session m).Undecided := by
  obtain hbranch | ⟨hflag, hund⟩ := hi.raised u x m k hpc hk
  · exact .inl (hbranch.cons _)
  · by_cases hd : ∃ c, a = .session m c ∧ s.session m = .decide
    · obtain ⟨c, rfl, hd⟩ := hd
      exact .inl ⟨s, c, List.mem_cons_self, hd, hflag⟩
    · refine .inr (transitions_step hs hflag hund (fun c ha hd' => hd ⟨c, ha, hd'⟩) ?_)
      -- another request cannot hold the member at the same time
      intro v c y ha hdrop
      have hmoves : (s.api v).Moves m := by
        rw [hdrop]
        exact ⟨rfl, trivial⟩
      obtain rfl := hi.link.alone v u m hmoves (by rw [hpc]; exact ⟨rfl, hk.holds⟩)
      obtain ⟨-, -, rfl⟩ := ApiPc.promote.inj (hpc.symm.trans hdrop)
      exact hown c ha rfl

/-- A request that returns SUCCESS leaves its session before the test, or behind it. -/
theorem HandshakeSound.success (hi : HandshakeSound h s) (hs : roomStep p s (.api u c) = some t)
    {x : ℕ} (hpc : s.api u = .promote x m .recheck)
    (hleft : (s.b.member m).in_listener_bridge = false) : TookBranch h m ∨
      t.b.transitions m = true ∧ t.session m = .decide ∧ ∀ v, ¬ (t.api v).Moves m := by
  refine (hi.raised u x m _ hpc trivial).imp_right fun ⟨hflag, hund⟩ => ?_
  -- it has left the bridge and has not tested the flag: nothing else is between
  have hdecide : s.session m = .decide := by
    have hentered := hi.asked u x m _ hpc (by simp)
    cases hs' : s.session m with
    | listen k =>
      rw [hs'] at hentered
      exact nomatch (hi.bridge.bridge m k hs' hentered).symm.trans hleft
    | decide => rfl
    | _ =>
      rw [hs'] at hentered hund
      first | exact hentered.elim | exact hund.elim
  obtain ⟨hx, hsess, hother⟩ := roomStep_dispatch hs
  rw [hpc] at hx
  obtain ⟨hb, hpc'⟩ := Prod.mk.inj (Option.some.inj hx)
  refine ⟨by rw [← hb]; exact hflag, by rw [hsess, hdecide], fun v hv => ?_⟩
  by_cases hvu : v = u
  · subst hvu
    rw [← hpc'] at hv
    simp only [requestPromotion, hleft, Bool.false_eq_true, if_false, Progress.resume] at hv
    exact hv
  · rw [hother v hvu] at hv
    exact hvu (hi.link.alone v u m hv (by rw [hpc]; exact ⟨rfl, trivial⟩))

/-- A promotion that has succeeded stays decided. -/
theorem HandshakeSound.promoted_kept (hi : HandshakeSound h s) (hs : roomStep p s a = some t)
    (hm : Promoted ((s, a) :: h) m) : TookBranch ((s, a) :: h) m ∨
      t.b.transitions m = true ∧ t.session m = .decide ∧ ∀ u, ¬ (t.api u).Moves m := by
  obtain ⟨s', u, c, x, hmem, hpc, hleft⟩ := hm
  obtain hnow | hold := List.mem_cons.mp hmem
  · obtain ⟨rfl, rfl⟩ := Prod.mk.inj hnow
    exact (hi.success hs hpc hleft).imp_left fun hb => hb.cons _
  · obtain hb | ⟨hflag, hdecide, hfree⟩ := hi.promoted m ⟨s', u, c, x, hold, hpc, hleft⟩
    · exact .inl (hb.cons _)
    · by_cases hd : ∃ c, a = .session m c
      · obtain ⟨c, rfl⟩ := hd
        exact .inl ⟨s, c, List.mem_cons_self, hdecide, hflag⟩
      · have hdrop : ∀ v c y, a = .api v c → s.api v ≠ .promote y m .drop := fun v c y _ hv =>
          hfree v (by rw [hv]; exact ⟨rfl, trivial⟩)
        have hkept := transitions_step hs hflag (by rw [hdecide]; trivial)
          (fun c ha => absurd ⟨c, ha⟩ hd) hdrop
        refine .inr ⟨hkept.1, ?_, fun v hv => ?_⟩
        · obtain hsame | ⟨c, ha, -⟩ | ⟨j, -, hj⟩ := roomStep_session hs m
          · rw [hsame, hdecide]
          · exact absurd ⟨c, ha⟩ hd
          · rw [hdecide] at hj
            cases hj
        -- a new request would have to find the member on the list
        · obtain hv | hlisted := moves_step hs hv
          · exact hfree v hv
          · exact (hi.link.flagged m hflag).1 hlisted

theorem HandshakeSound.step (hi : HandshakeSound h s) (hraise : RaisesInTime s a)
    (hstay : RollbackUndisturbed s a) (hs : roomStep p s a = some t) :
    HandshakeSound ((s, a) :: h) t where
  link := hi.link.step hs
  bridge := hi.bridge.step hs
  asked u x m k' hpc hk' := by
    obtain ⟨hsame, -⟩ | hk | ⟨c, k, rfl, hpc₀, hk⟩ := promote_step hs hpc
    · exact entered_step hs (hi.asked u x m k' hsame hk')
    · exact absurd hk hk'
    · refine entered_step hs ?_
      by_cases hbridge : k = .bridge
      · subst hbridge
        -- the request has gone on because it has seen the member in its bridge
        have hin : (s.b.member m).in_listener_bridge = true := by
          by_contra hno
          simp [requestPromotion, hno] at hk
        exact hi.bridge.entered m hin
      · exact hi.asked u x m k hpc₀ hbridge
  raised u x m k' hpc hk' := by
    obtain ⟨hsame, hpoll⟩ | rfl | ⟨c, k, rfl, hpc₀, hk⟩ := promote_step hs hpc
    · refine hi.raised_kept hs hsame hk' fun c ha => ?_
      rw [hpoll c ha]
      simp
    · exact hk'.elim
    · by_cases hr : k = .raise
      · subst hr
        obtain ⟨hb, -⟩ := Prod.mk.inj hk
        refine .inr ⟨?_, ?_⟩
        · rw [← hb, modifyFlags_transitions, Function.update_self]
        · rw [(roomStep_dispatch hs).2.1]
          exact hraise u c x m rfl hpc₀
      · have hn := requestPromotion_next (p := p) (congrArg Prod.snd hk)
        have hold : k.Raised ∧ k ≠ .drop := by
          cases k with
          | lower | poll | recheck => exact ⟨trivial, by simp⟩
          | raise => exact absurd rfl hr
          | add k₀ => cases k₀ <;> cases k' <;> first | exact hn.elim | exact hk'.elim
          | _ => cases k' <;> first | exact hn.elim | exact hk'.elim
        exact hi.raised_kept hs hpc₀ hold.1 fun _ _ => hold.2
  promoted m hm := hi.promoted_kept hs hm
  relinked u x m k' hpc hk' := by
    obtain ⟨hsame, -⟩ | hk | ⟨c, k, rfl, hpc₀, hk⟩ := promote_step hs hpc
    · exact listeners_step hi.link.nodup hs (hi.relinked u x m k' hsame hk')
        (hstay u x m k' hsame hk')
    · cases hk
    · have hn := requestPromotion_next (p := p) (congrArg Prod.snd hk)
      obtain rfl | rfl := hk'
      · -- the linking itself
        obtain rfl : k = .add .link := by
          cases k with
          | add k₀ => cases k₀ <;> first | rfl | exact hn.elim
          | _ => exact hn.elim
        simp only [requestPromotion, listenerAdd] at hk
        split_ifs at hk
        · cases (Prod.mk.inj hk).2
        · rw [← (Prod.mk.inj hk).1]
          simp
      · obtain rfl : k = .add .stats := by
          cases k with
          | add k₀ => cases k₀ <;> first | rfl | exact hn.elim
          | _ => exact hn.elim
        exact listeners_step hi.link.nodup hs (hi.relinked u x m _ hpc₀ (.inl rfl))
          (hstay u x m _ hpc₀ (.inl rfl))

/-- The last step of a rollback finds its member on the list and sets its flag. -/
theorem HandshakeSound.restores (hi : HandshakeSound h s) (hacc : RollbackAccepted p s a)
    (hstay : RollbackUndisturbed s a) : RestoresListener p s a := by
  rintro u c x m k t rfl hpc hs hret
  obtain ⟨hdestroyed, hlocked, hroom⟩ := hacc u c x m k rfl hpc
  have hx := (roomStep_dispatch hs).1
  rw [hpc] at hx
  obtain ⟨hb, hpc'⟩ := Prod.mk.inj (Option.some.inj hx)
  rw [hret] at hpc'
  cases k with
  | destroyed => simp [requestPromotion, listenerAdd, Progress.resume, hdestroyed] at hpc'
  | locked => simp [requestPromotion, listenerAdd, Progress.resume, hlocked] at hpc'
  | link =>
    simp only [requestPromotion, listenerAdd, if_neg (Nat.not_le.mpr (hroom rfl))] at hpc'
    cases hpc'
  | stats =>
    simp only [requestPromotion, listenerAdd] at hpc'
    split_ifs at hpc' <;> cases hpc'
  | running =>
    have hm : m ∈ t.b.listeners := listeners_step hi.link.nodup hs
      (hi.relinked u x m _ hpc (.inr rfl)) (hstay u x m _ hpc (.inr rfl))
    have hl := hi.link.step hs
    refine ⟨hl.nodup.count.trans (if_pos hm), ?_, ?_⟩
    · rw [← hb]
      simp [requestPromotion, listenerAdd, Broadcast.modifyFlags, Broadcast.modify]
    · by_contra hflag
      exact (hl.flagged m (by simpa [Broadcast.transitions] using hflag)).1 hm

/-- A request returns SUCCESS only if the session of its member takes the speaker branch,
and a request that gives up leaves an ordinary listener, as long as requests raise the flag
in time and their rollbacks are neither refused nor undone. -/
theorem promotion_agreement (hr : Run (roomStep p) Room.init h s)
    (hraise : Meets RaisesInTime h) (hacc : Meets (RollbackAccepted p) h)
    (hstay : Meets RollbackUndisturbed h) :
    (∀ m, Promoted h m → TakesBranch h s m) ∧ Meets (RestoresListener p) h := by
  have hguard := (hraise.and hstay).and hacc
  constructor
  · have hi : HandshakeSound h s := hr.history_invariant
      (fun _ _ _ _ hi hg hs => hi.step hg.1.1 hg.1.2 hs) hguard .init
    exact fun m hm => (hi.promoted m hm).imp_right fun hd => ⟨hd.2.1, hd.1⟩
  · exact hr.meets_of_history_invariant (I := HandshakeSound)
      (fun _ _ _ _ hi hg hs => hi.step hg.1.1 hg.1.2 hs)
      (fun _ _ _ _ hi hg _ => hi.restores hg.2 hg.1.2) hguard .init

def ApiPc.relinks (m : ℕ) : ApiPc → Bool
  | .promote _ n (.add .stats) | .promote _ n (.add .running) => n = m
  | _ => false

def promotionTest (p : RoomProfile) (n : ℕ) (s : Room) (a : RoomAction) : Bool :=
  match a with
  | .api u _ =>
    match s.api u with
    | .promote _ m .raise => decide (s.session m).Undecided
    | .promote _ _ (.add .destroyed) => !s.b.destroyed
    | .promote _ _ (.add .locked) => !s.b.locked
    | .promote _ _ (.add .link) => s.b.listener_count < p.max_listeners
    | .promote _ m .unlink => decide (∀ v < n, (s.api v).relinks m = false)
    | _ => true
  | .session m _ => decide (s.session m = .unlink → ∀ v < n, (s.api v).relinks m = false)
  | _ => true

theorem raisesInTime_of_test (ht : promotionTest p n s a = true) : RaisesInTime s a := by
  rintro u c x m rfl hpc
  simpa [promotionTest, hpc] using ht

theorem rollbackAccepted_of_test (ht : promotionTest p n s a = true) : RollbackAccepted p s a := by
  rintro u c x m k rfl hpc
  refine ⟨?_, ?_, ?_⟩ <;> rintro rfl <;> simpa [promotionTest, hpc] using ht

theorem rollbackUndisturbed_of_test (hm : s.Small n) (ht : promotionTest p n s a = true) :
    RollbackUndisturbed s a := by
  intro u x m k hpc hk hun
  have hlinked : (s.api u).relinks m = true := by
    obtain rfl | rfl := hk <;> simp [hpc, ApiPc.relinks]
  have hnone : ∀ v < n, (s.api v).relinks m = false := by
    obtain ⟨c, rfl, hs'⟩ | ⟨v, c, y, rfl, hv⟩ := hun
    · exact of_decide_eq_true ht hs'
    · simpa [promotionTest, hv] using ht
  have hu := hm.api (P := fun _ pc => pc.relinks m = false) (fun _ => rfl) hnone u
  rw [hu] at hlinked
  cases hlinked

/-- A request that gives up, and a second one that succeeds. -/
theorem promotion_agreement_second : ∃ (h : List (Room × RoomAction)) (s : Room),
    Run (roomStep ⟨8, true, 16, false, false⟩) Room.init h s ∧ Promoted h 0 ∧
      s.session 0 = .raise ∧ (∃ x ∈ h, x.1.api 0 = .promote 0 0 (.add .running)) ∧
      TakesBranch h s 0 ∧ Meets (RestoresListener ⟨8, true, 16, false, false⟩) h := by
  obtain ⟨h, s, hr, hm, hv⟩ := exists_run_observing (roomStep ⟨8, true, 16, false, false⟩)
    (fun s a => a.within 1 && promotionTest ⟨8, true, 16, false, false⟩ 1 s a) Room.init
    (List.flatten [[.join 0 ⟨.listener, false, false⟩], List.replicate 9 (.session 0 .ok),
      [.call 0 (.member .promote 1)], List.replicate 9 (.api 0 .ok), [.api 0 .timeout],
      List.replicate 9 (.api 0 .ok), [.call 0 (.member .promote 1)], List.replicate 9 (.api 0 .ok),
      List.replicate 4 (.session 0 .ok), List.replicate 3 (.api 0 .ok),
      List.replicate 2 (.session 0 .ok)])
    (fun h s => (h.any fun x => x.2 = .api 0 .ok ∧ x.1.api 0 = .promote 0 0 .recheck ∧
      (x.1.b.member 0).in_listener_bridge = false, s.session 0,
      h.any fun x => x.1.api 0 = .promote 0 0 (.add .running)))
    (v := (true, .raise, true)) (by decide)
  simp only [Prod.mk.injEq, List.any_eq_true, decide_eq_true_eq] at hv
  obtain ⟨⟨x, hx, ha, hpc, hleft⟩, h0, hback⟩ := hv
  have hpromoted : Promoted h 0 := ⟨x.1, 0, .ok, 0, ha ▸ hx, hpc, hleft⟩
  have hmeets : ∀ {g : Room → RoomAction → Prop}, (∀ s a, s.Small 1 →
      promotionTest ⟨8, true, 16, false, false⟩ 1 s a = true → g s a) → Meets g h :=
    fun hg => meets_of_test (by decide) hr hm hg
  have hagree := promotion_agreement hr (hmeets fun _ _ _ => raisesInTime_of_test)
    (hmeets fun _ _ _ => rollbackAccepted_of_test) (hmeets fun _ _ => rollbackUndisturbed_of_test)
  exact ⟨h, s, hr, hpromoted, h0, hback, hagree.1 0 hpromoted, hagree.2⟩

/-- A listener hangs up between the unlinking and the raising of its flag: the request
returns SUCCESS, the session has taken the listener branch. -/
theorem promoted_listener_gone : ¬ ∀ (h : List (Room × RoomAction)) (s : Room),
    Run (roomStep ⟨8, true, 16, false, false⟩) Room.init h s →
      (∀ m, Promoted h m → TakesBranch h s m) ∧
        Meets (RestoresListener ⟨8, true, 16, false, false⟩) h := by
  refine not_forall_run (fun _ _ => true)
    (List.flatten [[.join 0 ⟨.listener, false, false⟩], List.replicate 9 (.session 0 .ok),
      [.call 0 (.member .promote 1)], List.replicate 7 (.api 0 .ok), [.hangup 0],
      List.replicate 5 (.session 0 .ok), List.replicate 4 (.api 0 .ok)])
    (fun h s => (h.any fun x => x.2 = .api 0 .ok ∧ x.1.api 0 = .promote 0 0 .recheck ∧
      (x.1.b.member 0).in_listener_bridge = false, s.session 0,
      h.any fun x => x.1.session 0 = .decide ∧
        (x.1.b.member 0).mflags.roleTransitionToSpeaker = true))
    (v := (true, .listenerVariables, false)) (by decide) ?_
  intro h s _ _ hv hall
  simp only [Prod.mk.injEq, List.any_eq_true, decide_eq_true_eq] at hv
  obtain ⟨⟨x, hx, ha, hpc, hleft⟩, h0, hnever⟩ := hv
  obtain ⟨s', c, hmem, hd, hflag⟩ | ⟨hd, -⟩ := hall.1 0 ⟨x.1, 0, .ok, 0, ha ▸ hx, hpc, hleft⟩
  · have := List.any_eq_false.mp hnever _ hmem
    simp [hd, hflag] at this
  · rw [h0] at hd
    cases hd

end ModBroadcast
