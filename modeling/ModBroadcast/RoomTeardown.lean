import ModBroadcast.Counting
import ModBroadcast.InputCustody
import ModBroadcast.ListenerList
import ModBroadcast.Recordings

namespace ModBroadcast

open Automaton Counting

variable {p : RoomProfile} {b b' : Broadcast} {c : Choice} {m n u v : ℕ} {s t : Room}
  {a : RoomAction} {x y : Place} {h : List (Room × RoomAction)}

theorem refs_of_rest (h : b'.rest = b.rest) : b'.live_refs = b.live_refs := by
  have hr : b'.rest.live_refs = b.rest.live_refs := by rw [h]
  exact hr

theorem RecordWrites.refs (h : RecordWrites p b b') : b'.live_refs = b.live_refs := by
  cases h with
  | fields _ _ _ _ hb =>
    rw [hb]
  | event _ _ _ hb =>
    rw [hb]
    exact (refs_of_rest (rest_of_core (enqueueEvent_core ..))).trans rfl

theorem destroyRoom_refs {g f : Bool} {k : DestroyPc} {z : Broadcast × Progress DestroyPc}
    (h : destroyRoom p g f b c k = some z) : z.1.live_refs = b.live_refs := by
  by_cases hr : k.Rest
  · cases k with
    | stopRecords k' =>
      obtain ⟨w, hw, rfl⟩ := Option.map_eq_some_iff.mp h
      exact (recordStop_writes hw).refs
    | announce =>
      obtain rfl := Option.some.inj h
      dsimp only [startPlay]
      split_ifs <;> rfl
    | delete =>
      simp only [destroyRoom] at h
      split_ifs at h
      obtain rfl := Option.some.inj h
      rfl
    | flag | ungrace | mark | stopPlay | closeMoh | stopProducer | pool =>
      obtain rfl := Option.some.inj h
      rfl
    | _ => exact hr.elim
  · exact refs_of_rest (destroyRoom_rest h hr)

theorem producerRun_refs {k k' : ProducerPc} (h : producerRun p b c k = some (b', k')) :
    b'.live_refs = b.live_refs := by
  cases k with
  | top =>
    simp only [producerRun] at h
    split_ifs at h <;> obtain ⟨rfl, -⟩ := Prod.mk.inj (Option.some.inj h)
    · exact refs_of_rest (rest_of_core (enqueueEvent_core ..))
    all_goals rfl
  | play =>
    simp only [producerRun] at h
    split_ifs at h <;> obtain ⟨rfl, -⟩ := Prod.mk.inj (Option.some.inj h) <;> rfl
  | locked got paused spk =>
    simp only [producerRun] at h
    split at h
    · obtain ⟨rfl, -⟩ := Prod.mk.inj (Option.some.inj h)
      rfl
    · split_ifs at h <;> obtain ⟨rfl, -⟩ := Prod.mk.inj (Option.some.inj h) <;> rfl
  | silence =>
    obtain ⟨rfl, -⟩ := Prod.mk.inj (Option.some.inj h)
    split_ifs <;> rfl
  | ended => cases h
  | _ =>
    obtain ⟨rfl, -⟩ := Prod.mk.inj (Option.some.inj h)
    rfl

theorem hasRef_of_next {pc pc' : SessionPc} (h : pc.Next pc') (hpc : pc ≠ .release) :
    (Place.session m pc').HasRef := by
  cases pc' with
  | outside | pin => exact h.follows.elim
  | returned => exact absurd h.follows hpc
  | _ => trivial

/-- A session counts itself when it has found the broadcast and leaves at its end. -/
theorem appFunction_refs {pc pc' : SessionPc} (h : appFunction p b m c pc = some (b', pc')) :
    Follows (Place.session m pc).HasRef (Place.session m pc').HasRef b.live_refs b'.live_refs := by
  have hy : pc ≠ .release → (Place.session m pc').HasRef := hasRef_of_next (appFunction_next h)
  cases pc with
  | outside | created | returned => cases h
  | pin j =>
    obtain ⟨rfl, rfl⟩ := Prod.mk.inj (Option.some.inj h)
    exact .enters id trivial rfl
  | release =>
    obtain ⟨rfl, rfl⟩ := Prod.mk.inj (Option.some.inj h)
    exact .leaves trivial id rfl
  | record j k =>
    obtain ⟨rfl, -⟩ := Prod.mk.inj (Option.some.inj h)
    exact .stays ⟨fun _ => trivial, fun _ => hy nofun⟩ (recordStart_writes _ k).refs
  | _ =>
    exact .stays ⟨fun _ => trivial, fun _ => hy nofun⟩ (refs_of_rest (appFunction_rest h id))

theorem apiDispatch_refs {pc pc' : ApiPc} (h : apiDispatch p b c pc = some (b', pc'))
    (hpool : ∀ g f, pc ≠ .destroy g f .pool) :
    Follows (Place.api pc).HasRef (Place.api pc').HasRef b.live_refs b'.live_refs := by
  cases pc with
  | idle => cases h
  | pin k =>
    obtain ⟨rfl, rfl⟩ := Prod.mk.inj (Option.some.inj h)
    exact .enters id trivial rfl
  | release =>
    obtain ⟨rfl, rfl⟩ := Prod.mk.inj (Option.some.inj h)
    exact .leaves trivial id rfl
  | record target k =>
    obtain ⟨rfl, rfl⟩ := Prod.mk.inj (Option.some.inj h)
    refine .stays ⟨fun _ => trivial, fun _ => ?_⟩ (recordStart_writes _ k).refs
    cases (recordStart p b target c k).2 <;> trivial
  | norecord k =>
    obtain ⟨⟨z, k' | ok⟩, hz, he⟩ := Option.map_eq_some_iff.mp h <;>
      obtain ⟨rfl, rfl⟩ := Prod.mk.inj he <;>
      exact .stays ⟨fun _ => trivial, fun _ => trivial⟩ (recordStop_writes hz).refs
  | destroy g f k =>
    obtain ⟨⟨z, k' | ok⟩, hz, he⟩ := Option.map_eq_some_iff.mp h <;>
      obtain ⟨rfl, rfl⟩ := Prod.mk.inj he
    · exact .stays ⟨fun _ => trivial, fun _ => trivial⟩ (destroyRoom_refs hz :)
    · obtain ⟨rfl, -⟩ | ⟨k', hrun, -⟩ := destroyRoom_next hz
      · exact absurd rfl (hpool g f)
      · cases hrun
  | start k =>
    refine .stays ⟨fun _ => trivial, fun _ => (apiDispatch_plain h trivial).1⟩ ?_
    cases k with
    | play =>
      obtain ⟨rfl, -⟩ := Prod.mk.inj (Option.some.inj h)
      dsimp only [startPlay]
      split_ifs <;> rfl
    | stopPlay =>
      obtain ⟨rfl, -⟩ := Prod.mk.inj (Option.some.inj h)
      rfl
    | _ => exact refs_of_rest (apiDispatch_rest h id)
  | _ =>
    exact .stays ⟨fun _ => trivial, fun _ => (apiDispatch_plain h trivial).1⟩
      (refs_of_rest (apiDispatch_rest h id))

theorem ThreadStep.refs (h : ThreadStep p b b' c x y)
    (hpool : ∀ g f, x ≠ .api (.destroy g f .pool)) :
    Follows x.HasRef y.HasRef b.live_refs b'.live_refs := by
  cases h with
  | @join m j pc pc' h =>
    have hrefs := refs_of_rest (rest_of_core (joinSession_core h))
    cases pc with
    | outside =>
      obtain ⟨b₁, -, he⟩ := Option.map_eq_some_iff.mp h
      obtain ⟨-, rfl⟩ := Prod.mk.inj he
      exact .stays Iff.rfl hrefs
    | created =>
      obtain ⟨-, rfl⟩ := Prod.mk.inj (Option.some.inj h)
      refine .stays ⟨fun _ => trivial, fun _ => ?_⟩ hrefs
      split_ifs <;> trivial
    | _ => cases h
  | session h => exact appFunction_refs h
  | call k h =>
    rw [(findBroadcast_eq h).2]
    exact .stays Iff.rfl rfl
  | shutdown _ h =>
    rw [h]
    exact .enters id trivial rfl
  | api h => exact apiDispatch_refs h fun g f he => hpool g f (congrArg Place.api he)

theorem BackgroundStep.refs (h : BackgroundStep p s t a) : t.b.live_refs = s.b.live_refs := by
  cases h with
  | producer h => exact producerRun_refs h
  | input h hb =>
    rw [hb]
    exact (refs_of_rest (rest_of_apart (apart_of_listed (speakerInput_listed h))) :)
  | writer h => exact (recordWriter_writes h).refs
  | quiet h => exact refs_of_rest (rest_of_core h)

def DestroyPc.rank : DestroyPc → ℕ
  | .flag => 0
  | .grace | .announce | .ungrace | .mark => 1
  | .stopPlay => 2
  | .closeMoh => 3
  | .stopRecords .unlink => 4
  | .stopRecords _ | .slot | .stop .. | .snapshot _ | .hangup .. | .waitCount _
  | .waitSlot .. | .waitOld .. => 5
  | .refs => 6
  | .stopProducer => 7
  | .joinProducer => 8
  | .delete | .fire | .pool => 9

def Room.Past (s : Room) (u : ℕ) (k : DestroyPc) : Prop :=
  ∃ g f k', s.api u = .destroy g f k' ∧ k.rank < k'.rank

def DestroyPc.Counted : DestroyPc → Prop
  | .waitSlot _ lc | .waitOld _ lc _ => lc = 0
  | .refs | .stopProducer | .joinProducer | .delete | .fire | .pool => True
  | _ => False

theorem DestroyPc.Next.rank {k k' : DestroyPc} (h : k.Next k') :
    k'.rank ≤ k.rank + 1 := by
  cases k with
  | stopRecords k₀ =>
    have hlow : 4 ≤ (DestroyPc.stopRecords k₀).rank := by cases k₀ <;> simp [DestroyPc.rank]
    obtain ⟨k', -, rfl⟩ | rfl := h
    · have hhigh : (DestroyPc.stopRecords k').rank ≤ 5 := by cases k' <;> simp [DestroyPc.rank]
      exact Nat.le_trans hhigh (Nat.succ_le_succ hlow)
    · exact Nat.succ_le_succ hlow
  | flag | refs =>
    obtain rfl | rfl := h <;> decide
  | slot | stop | hangup =>
    obtain ⟨_, rfl⟩ | rfl := h <;> simp [DestroyPc.rank]
  | snapshot | waitSlot =>
    obtain ⟨_, rfl⟩ := h
    simp [DestroyPc.rank]
  | waitCount =>
    obtain rfl | ⟨_, rfl⟩ := h <;> simp [DestroyPc.rank]
  | waitOld =>
    obtain ⟨-, rfl⟩ | rfl := h <;> simp [DestroyPc.rank]
  | pool => exact h.elim
  | _ =>
    obtain rfl := h
    decide

/-- A thread that destroys has started to or goes on. -/
theorem apiDispatch_destroy {pc : ApiPc} {g f : Bool} {k : DestroyPc}
    (h : apiDispatch p b c pc = some (b', .destroy g f k)) :
    pc = .start (.destroy g f) ∧ k = .flag ∨
      ∃ k₀, pc = .destroy g f k₀ ∧ destroyRoom p g f b c k₀ = some (b', .run k) := by
  cases apiDispatch_cases h with
  | startDestroy => exact .inl ⟨rfl, rfl⟩
  | @resolve j _ _ _ _ _ hpc | @resolveSpeaker j _ _ _ _ _ hpc => cases j <;> cases hpc
  | destroy hk => exact .inr ⟨_, rfl, hk⟩

def DestroyPc.Once : DestroyPc → Prop
  | .flag | .stopPlay | .closeMoh | .stopRecords .unlink | .refs | .joinProducer => True
  | _ => False

theorem DestroyPc.Once.eq {k k' : DestroyPc} (h : k.Once) (hr : k'.rank = k.rank) : k' = k := by
  cases k with
  | flag | stopPlay | closeMoh | refs | joinProducer =>
    cases k' with
    | stopRecords k₀ => cases k₀ <;> simp [DestroyPc.rank] at hr
    | _ => first | rfl | simp [DestroyPc.rank] at hr
  | stopRecords k =>
    cases k with
    | unlink =>
      cases k' with
      | stopRecords k₀ => cases k₀ <;> first | rfl | simp [DestroyPc.rank] at hr
      | _ => simp [DestroyPc.rank] at hr
    | _ => exact h.elim
  | _ => exact h.elim

/-- Whoever is beyond `k` after a step has been so before or has just taken it. -/
theorem roomStep_past {k : DestroyPc} (hk : k.Once) (hs : roomStep p s a = some t)
    (h : t.Past u k) : s.Past u k ∨ ∃ c g f k', a = .api u c ∧ s.api u = .destroy g f k ∧
      t.api u = .destroy g f k' ∧ k.rank < k'.rank ∧
        destroyRoom p g f s.b c k = some (t.b, .run k') := by
  obtain ⟨g, f, k', hpc, hlt⟩ := h
  obtain hu | ⟨c, rfl, hx⟩ | ⟨-, ⟨_, -, hu⟩ | ⟨-, hu⟩⟩ := roomStep_api hs u
  · exact .inl ⟨g, f, k', hu ▸ hpc, hlt⟩
  · rw [hpc] at hx
    obtain ⟨-, rfl⟩ | ⟨k₀, hk₀, hd⟩ := apiDispatch_destroy hx
    · exact absurd hlt (Nat.not_lt_zero _)
    · by_cases hle : k.rank < k₀.rank
      · exact .inl ⟨g, f, k₀, hk₀, hle⟩
      · obtain ⟨-, hret⟩ | ⟨k₁, hrun, hn⟩ := destroyRoom_next hd
        · cases hret
        · obtain rfl := Progress.run.inj hrun
          have hrank := hn.rank
          have hk₀k : k₀.rank = k.rank := by omega
          obtain rfl := hk.eq hk₀k
          exact .inr ⟨c, g, f, k', rfl, hk₀, hpc, hlt, hd⟩
  · rw [hpc] at hu
    cases hu
  · rw [hpc] at hu
    obtain ⟨-, -, rfl⟩ := ApiPc.destroy.inj hu
    exact absurd hlt (Nat.not_lt_zero _)

theorem Room.Past.mono {k k' : DestroyPc} (h : s.Past u k') (hk : k.rank ≤ k'.rank) :
    s.Past u k := by
  obtain ⟨g, f, k₀, hpc, hlt⟩ := h
  exact ⟨g, f, k₀, hpc, by omega⟩

structure SwitchStep (p : RoomProfile) (s t : Room) (a : RoomAction) : Prop where
  destruct : s.b.destruct = true → t.b.destruct = true
  kept : s.b.pool_destroyed = true → t.b.pool_destroyed = true
  pool : t.b.pool_destroyed = true → s.b.pool_destroyed = true ∨
    ∃ u c g f, a = .api u c ∧ s.api u = .destroy g f .pool
  ended : t.b.producer_ended = s.b.producer_ended ∧ (s.producer = .ended → t.producer = .ended) ∨
    t.b.producer_ended = true ∧ t.producer = .ended
  play : t.b.play_fh = .opened → s.b.play_fh = .opened ∨ ∃ u c, a = .api u c ∧
    (s.api u = .start .play ∧ c ≠ .fail ∨ ∃ g f, s.api u = .destroy g f .announce)
  moh : t.b.moh_open = true → s.b.moh_open = true ∨
    ∃ c, a = .producer c ∧ s.producer = .silence ∧ p.moh = true ∧ c ≠ .fail

theorem startPlay_switches (keep : Bool) : (startPlay b keep c).destruct = b.destruct ∧
    (startPlay b keep c).pool_destroyed = b.pool_destroyed ∧
      (startPlay b keep c).producer_ended = b.producer_ended ∧
        (startPlay b keep c).moh_open = b.moh_open ∧
          ((startPlay b keep c).play_fh = .opened → c ≠ .fail) := by
  by_cases hc : c = .fail
  · subst hc
    refine ⟨rfl, rfl, rfl, rfl, fun h => ?_⟩
    cases keep <;> cases h
  · simp [startPlay, hc]

theorem destroyRoom_switches {g f : Bool} {k : DestroyPc} {z : Broadcast × Progress DestroyPc}
    (h : destroyRoom p g f b c k = some z) (hk : k.Rest ∧ ∀ k', k ≠ .stopRecords k') :
    (b.destruct = true → z.1.destruct = true) ∧
      (b.pool_destroyed = true → z.1.pool_destroyed = true) ∧
      (z.1.pool_destroyed = true → b.pool_destroyed = true ∨ k = .pool) ∧
        z.1.producer_ended = b.producer_ended ∧
          (z.1.play_fh = .opened → b.play_fh = .opened ∨ k = .announce) ∧
            (z.1.moh_open = true → b.moh_open = true) := by
  cases k with
  | stopRecords k' => exact absurd rfl (hk.2 k')
  | announce =>
    obtain rfl := Option.some.inj h
    obtain ⟨hd, hp, he, hm, -⟩ := startPlay_switches (b := b) (c := c) false
    cases f
    · exact ⟨id, id, .inl, rfl, .inl, id⟩
    · exact ⟨fun h => hd.trans h, fun h => hp.trans h, fun h => .inl (hp ▸ h), he,
        fun _ => .inr rfl, fun h => hm ▸ h⟩
  | delete =>
    simp only [destroyRoom] at h
    split_ifs at h
    obtain rfl := Option.some.inj h
    exact ⟨id, id, .inl, rfl, .inl, id⟩
  | flag =>
    obtain rfl := Option.some.inj h
    exact ⟨fun _ => rfl, id, .inl, rfl, .inl, id⟩
  | ungrace | stopPlay =>
    obtain rfl := Option.some.inj h
    exact ⟨id, id, .inl, rfl, (by rintro ⟨⟩), id⟩
  | closeMoh =>
    obtain rfl := Option.some.inj h
    exact ⟨id, id, .inl, rfl, .inl, (absurd · Bool.false_ne_true)⟩
  | pool =>
    obtain rfl := Option.some.inj h
    exact ⟨id, fun _ => rfl, fun _ => .inr rfl, rfl, .inl, id⟩
  | mark | stopProducer =>
    obtain rfl := Option.some.inj h
    exact ⟨id, id, .inl, rfl, .inl, id⟩
  | _ => exact hk.1.elim

theorem roomStep_switches (hs : roomStep p s a = some t) : SwitchStep p s t a := by
  have hprod : s.producer = .ended → t.producer = .ended := fun h => by
    obtain ht | ⟨c, -, hx⟩ := roomStep_producer hs
    · exact ht.trans h
    · rw [h] at hx
      cases hx
  have same : t.b.life = s.b.life → SwitchStep p s t a := fun h => by
    have hfield : ∀ {α : Type} (f : Broadcast → α), (∀ b, f b.life = f b) → f t.b = f s.b :=
      fun f hf => by rw [← hf, h, hf]
    exact ⟨fun hd => (hfield Broadcast.destruct fun _ => rfl).trans hd,
      fun hp => (hfield Broadcast.pool_destroyed fun _ => rfl).trans hp,
      fun hp => .inl ((hfield Broadcast.pool_destroyed fun _ => rfl).symm.trans hp),
      .inl ⟨hfield Broadcast.producer_ended fun _ => rfl, hprod⟩,
      fun hp => .inl ((hfield Broadcast.play_fh fun _ => rfl).symm.trans hp),
      fun hm => .inl ((hfield Broadcast.moh_open fun _ => rfl).symm.trans hm)⟩
  have closed : t.b = stopPlay s.b → SwitchStep p s t a := fun h => by
    refine ⟨?_, ?_, ?_, .inl ⟨?_, hprod⟩, ?_, ?_⟩ <;> rw [h]
    · exact id
    · exact id
    · exact .inl
    · rfl
    · exact nofun
    · exact .inl
  cases roomStep_lifeStep hs with
  | keep _ h => exact same h
  | @play u c hpc h =>
    obtain ⟨hd, hp, he, hm, ho⟩ := startPlay_switches (b := s.b) (c := c) true
    rw [← h] at hd hp he hm ho
    exact ⟨fun h => hd.trans h, fun h => hp.trans h, fun h => .inl (hp ▸ h), .inl ⟨he, hprod⟩,
      fun h => .inr ⟨u, c, rfl, .inl ⟨hpc, ho h⟩⟩, fun h => .inl (hm ▸ h)⟩
  | stopPlay _ h => exact closed h
  | @destroy u c g f k z hpc hk h =>
    obtain ⟨hd, hk, hp, he, ho, hm⟩ := destroyRoom_switches h hk
    refine ⟨hd, hk, fun h => (hp h).imp_right ?_, .inl ⟨he, hprod⟩, fun h => (ho h).imp_right ?_,
      fun h => .inl (hm h)⟩
    · rintro rfl
      exact ⟨u, c, g, f, rfl, hpc⟩
    · rintro rfl
      exact ⟨u, c, rfl, .inr ⟨g, f, hpc⟩⟩
  | @producer c h =>
    obtain hb | ⟨-, hb⟩ | ⟨hk, hm, hc, hb⟩ | ⟨-, hk', hb⟩ := producerRun_life h
    · exact same hb
    · exact closed hb
    · refine ⟨?_, ?_, ?_, .inl ⟨?_, hprod⟩, ?_, fun _ => .inr ⟨c, rfl, hk, hm, hc⟩⟩ <;> rw [hb]
      · exact id
      · exact id
      · exact .inl
      · exact .inl
    · refine ⟨?_, ?_, ?_, .inr ⟨?_, hk'⟩, ?_, ?_⟩ <;> rw [hb]
      · exact id
      · exact id
      · exact .inl
      · exact .inl
      · exact .inl

/-- The thread `u` destroys the broadcast, nobody else does, and only once; nobody pins it
after `BFLAG_DESTRUCT`, and the waits of `u` do not run into their deadlines. -/
structure DestroyedBy (u : ℕ) (s : Room) (a : RoomAction) : Prop where
  alone : ∀ v, (a = .shutdown v ∨ ∃ c g f, a = .api v c ∧ s.api v = .start (.destroy g f)) →
    v = u ∧ s.b.destruct = false
  session_pin : ∀ m c j, a = .session m c → s.session m = .pin j → s.b.destruct = false
  api_pin : ∀ v c k, a = .api v c → s.api v = .pin k → s.b.destruct = false
  deadline : ∀ g f k, a = .api u .timeout → s.api u = .destroy g f k →
    k ≠ .refs ∧ ∀ old, k ≠ .waitCount old

/-- The references are counted, and beyond the wait for them `u` holds the last one. -/
structure Room.DestroySound (u : ℕ) (s : Room) : Prop where
  only : ∀ v g f k, s.api v = .destroy g f k → v = u
  flagged : s.Past u .flag → s.b.destruct = true
  standing : ∀ g f k, s.api u = .destroy g f k → s.b.pool_destroyed = false
  gone : s.b.pool_destroyed = true → s.b.destruct = true
  counted : s.b.pool_destroyed = false → Counts s.b.live_refs {th | (s.place th).HasRef}
  last : s.Past u .refs → ∀ th, (s.place th).HasRef → th = .api u
  joined : s.Past u .joinProducer → s.b.producer_ended = true
  ended : s.b.producer_ended = true → s.producer = .ended

theorem Room.DestroySound.init : Room.init.DestroySound u where
  only := nofun
  flagged h := by
    obtain ⟨g, f, k, hk, -⟩ := h
    cases hk
  standing := nofun
  gone := nofun
  counted _ := by
    refine (counts_singleton (.session 0)).congr fun th => ?_
    cases th with
    | session m =>
      by_cases hm : m = 0
      · subst hm
        exact ⟨fun _ => rfl, fun _ => trivial⟩
      · simp [Room.place, Room.init, hm, Place.HasRef]
    | api u => simp [Room.place, Room.init, Place.HasRef]
  last h := by
    obtain ⟨g, f, k, hk, -⟩ := h
    cases hk
  joined h := by
    obtain ⟨g, f, k, hk, -⟩ := h
    cases hk
  ended := nofun

/-- Who destroys after a step has done so before or begins with it. -/
theorem roomStep_destroying (hg : DestroyedBy u s a) (hs : roomStep p s a = some t) {g f : Bool}
    {k : DestroyPc} (ht : t.api v = .destroy g f k) :
    (∃ k₀, s.api v = .destroy g f k₀) ∨ v = u ∧ s.b.destruct = false := by
  obtain hv | ⟨c, rfl, hx⟩ | ⟨-, ⟨_, -, hv⟩ | ⟨rfl, hv⟩⟩ := roomStep_api hs v
  · exact .inl ⟨k, hv ▸ ht⟩
  · rw [ht] at hx
    obtain ⟨hpc, -⟩ | ⟨k₀, hpc, -⟩ := apiDispatch_destroy hx
    · exact .inr (hg.alone v (.inr ⟨c, g, f, rfl, hpc⟩))
    · exact .inl ⟨k₀, hpc⟩
  · rw [ht] at hv
    cases hv
  · exact .inr (hg.alone v (.inl rfl))

/-- A new reference comes from a thread that pins or from `broadcast_destroy_all`. -/
theorem roomStep_gains (hg : DestroyedBy u s a) (hs : roomStep p s a = some t) {th : Thread}
    (hx : ¬ (s.place th).HasRef) (hy : (t.place th).HasRef) : s.b.destruct = false := by
  cases th with
  | session m =>
    obtain hm | ⟨c, rfl, h⟩ | ⟨j, -, h⟩ := roomStep_session hs m
    · simp only [Room.place] at hx hy
      exact absurd (hm ▸ hy) hx
    · cases hpc : s.session m with
      | pin j => exact hg.session_pin m c j rfl hpc
      | outside | returned =>
        rw [hpc] at h
        cases h
      | _ => simp [Room.place, hpc, Place.HasRef] at hx
    · cases hpc : s.session m with
      | outside =>
        rw [hpc] at h
        obtain ⟨b₁, -, he⟩ := Option.map_eq_some_iff.mp h
        obtain ⟨-, hm⟩ := Prod.mk.inj he
        simp [Room.place, ← hm, Place.HasRef] at hy
      | created => simp [Room.place, hpc, Place.HasRef] at hx
      | _ =>
        rw [hpc] at h
        cases h
  | api v =>
    obtain hv | ⟨c, rfl, h⟩ | ⟨-, ⟨k, -, hv⟩ | ⟨rfl, -⟩⟩ := roomStep_api hs v
    · simp only [Room.place] at hx hy
      exact absurd (hv ▸ hy) hx
    · cases hpc : s.api v with
      | pin k => exact hg.api_pin v c k rfl hpc
      | idle =>
        rw [hpc] at h
        cases h
      | _ => simp [Room.place, hpc, Place.HasRef] at hx
    · simp [Room.place, hv, Place.HasRef] at hy
    · exact (hg.alone v (.inl rfl)).2

theorem Room.DestroySound.counted_step (hi : s.DestroySound u) (hs : roomStep p s a = some t)
    (hpool : t.b.pool_destroyed = false) : Counts t.b.live_refs {th | (t.place th).HasRef} := by
  have hsw := roomStep_switches hs
  have hs₀ : s.b.pool_destroyed = false := by
    by_contra hne
    rw [hsw.kept (by simpa using hne)] at hpool
    cases hpool
  have hc := hi.counted hs₀
  cases roomStep_move hs with
  | @thread th c ha _ h ho _ =>
    have hlast : ∀ g f, s.place th ≠ .api (.destroy g f .pool) := by
      intro g f hpc
      rw [hpc] at h
      generalize t.place th = y at h
      cases h with
      | api h =>
        obtain ⟨hb, -⟩ := Prod.mk.inj (Option.some.inj h)
        rw [← hb] at hpool
        cases hpool
    refine hc.moves (i := th) (h.refs hlast) fun th' hne => ?_
    simp [ho th' hne]
  | background _ h hpl =>
    rw [h.refs, hpl]
    exact hc

theorem Room.DestroySound.last_step (hi : s.DestroySound u) (hg : DestroyedBy u s a)
    (hs : roomStep p s a = some t) (hpast : t.Past u .refs) {th : Thread}
    (hth : (t.place th).HasRef) : th = .api u := by
  obtain hpast | ⟨c, g, f, k, rfl, hpc, hpc', hlt, hd⟩ :=
    roomStep_past (k := .refs) trivial hs hpast
  · by_cases hx : (s.place th).HasRef
    · exact hi.last hpast th hx
    · have hdes := hi.flagged (hpast.mono (by decide))
      rw [roomStep_gains hg hs hx hth] at hdes
      cases hdes
  · -- the count has been read as at most one, and `u` holds a reference itself
    obtain ⟨hb, hk⟩ := Prod.mk.inj (Option.some.inj hd)
    obtain rfl := Progress.run.inj hk
    have hc : c ≠ .timeout := fun hc => (hg.deadline g f .refs (by rw [hc]) hpc).1 rfl
    have hle : s.b.live_refs ≤ 1 := by
      by_contra hgt
      simp [hc, hgt] at hlt
    by_contra hne
    have hplace : s.place th = t.place th := by
      obtain ⟨-, hsess, hapi⟩ := roomStep_dispatch hs
      cases th with
      | session m => simp [Room.place, hsess]
      | api v => simp [Room.place, hapi v fun hv => hne (congrArg Thread.api hv)]
    have hu : Thread.api u ∈ {th | (s.place th).HasRef} := by
      simp [Room.place, hpc, Place.HasRef]
    have hth₀ : (s.place th).HasRef := by rwa [hplace]
    exact hne ((hi.counted (hi.standing g f _ hpc)).eq_of_le_one hle hu hth₀)

theorem Room.DestroySound.step (hi : s.DestroySound u) (hg : DestroyedBy u s a)
    (hs : roomStep p s a = some t) : t.DestroySound u := by
  have hsw := roomStep_switches hs
  refine ⟨fun v g f k hk => ?_, fun hpast => ?_, fun g f k hk => ?_, fun hpool => ?_,
    hi.counted_step hs, fun hpast th hth => hi.last_step hg hs hpast hth, fun hpast => ?_,
    fun hend => ?_⟩
  · obtain ⟨k₀, hk₀⟩ | ⟨rfl, -⟩ := roomStep_destroying hg hs hk
    · exact hi.only v g f k₀ hk₀
    · rfl
  · obtain hpast | ⟨c, g, f, k, -, -, -, -, hd⟩ := roomStep_past (k := .flag) trivial hs hpast
    · exact hsw.destruct (hi.flagged hpast)
    · obtain ⟨hb, -⟩ := Prod.mk.inj (Option.some.inj hd)
      rw [← hb]
  · by_contra hne
    obtain hpool | ⟨v, c, g', f', rfl, hpc⟩ := hsw.pool (by simpa using hne)
    · obtain ⟨k₀, hk₀⟩ | ⟨-, hdes⟩ := roomStep_destroying hg hs hk
      · rw [hi.standing g f k₀ hk₀] at hpool
        cases hpool
      · rw [hi.gone hpool] at hdes
        cases hdes
    · obtain rfl := hi.only v g' f' _ hpc
      have hx := (roomStep_dispatch hs).1
      rw [hpc, hk] at hx
      cases (Prod.mk.inj (Option.some.inj hx)).2
  -- the pool is gone, or `u` destroys it in this step
  · obtain hpool | ⟨v, c, g, f, rfl, hpc⟩ := hsw.pool hpool
    · exact hsw.destruct (hi.gone hpool)
    · obtain rfl := hi.only v g f _ hpc
      exact hsw.destruct (hi.flagged ⟨g, f, _, hpc, by decide⟩)
  -- the join of the producer waits for its end
  · obtain hpast | ⟨c, g, f, k, -, -, -, -, hd⟩ :=
      roomStep_past (k := .joinProducer) trivial hs hpast
    · obtain ⟨he, -⟩ | ⟨he, -⟩ := hsw.ended
      · exact he.trans (hi.joined hpast)
      · exact he
    · simp only [destroyRoom] at hd
      split_ifs at hd with he
      obtain ⟨hb, -⟩ := Prod.mk.inj (Option.some.inj hd)
      rw [← hb]
      exact he
  · obtain ⟨he, hp⟩ | ⟨-, hp⟩ := hsw.ended
    · exact hp (hi.ended (he.symm.trans hend))
    · exact hp

def Room.Counted (s : Room) (u : ℕ) : Prop := ∃ g f k, s.api u = .destroy g f k ∧ k.Counted

/-- Nothing that `u` has closed or emptied is opened or filled again, and the recordings
do not disturb each other. -/
structure StaysClosed (p : RoomProfile) (u : ℕ) (s : Room) (a : RoomAction) : Prop where
  play : ∀ v c, a = .api v c → s.api v = .start .play → s.Past u .stopPlay → c = .fail
  moh : ∀ c, a = .producer c → s.producer = .silence → s.Past u .closeMoh → p.moh = true →
    c = .fail
  link : ∀ th r, a.thread = some th → (s.place th).record = some (.link r) →
    ¬ s.Past u (.stopRecords .unlink)
  rollback : s.Counted u → RollbackInTime p s a
  records : RecordsUndisturbed s a

structure Room.Cleared (u : ℕ) (s : Room) : Prop where
  play : s.Past u .stopPlay → s.b.play_fh ≠ .opened
  moh : s.Past u .closeMoh → s.b.moh_open = false
  recordings : s.Past u (.stopRecords .unlink) → s.b.recordings = []
  listed : s.Counted u → ∀ m ∈ s.b.listeners, (s.session m).MayBeListed

theorem not_past_init {k : DestroyPc} : ¬ Room.init.Past u k := by
  rintro ⟨g, f, k, hk, -⟩
  cases hk

theorem Room.Cleared.init : Room.init.Cleared u where
  play h := absurd h not_past_init
  moh h := absurd h not_past_init
  recordings h := absurd h not_past_init
  listed _ m hm := by cases hm

/-- `listener_count` is the length of the list. -/
theorem roomStep_count (hi : s.b.listener_count = s.b.listeners.length)
    (hs : roomStep p s a = some t) : t.b.listener_count = t.b.listeners.length := by
  have same : t.b.roster = s.b.roster → t.b.listener_count = t.b.listeners.length := fun hr => by
    rw [count_of_roster hr, listeners_of_roster hr, hi]
  have link : ∀ {m}, t.b = listenerLink s.b m → t.b.listener_count = t.b.listeners.length := by
    intro m hb
    have hc : (listenerLink s.b m).listener_count = s.b.listener_count + 1 := by
      unfold listenerLink
      split_ifs <;> rfl
    rw [hb, hc, hi, listenerLink_listeners, List.length_cons]
  have unlink : ∀ {m}, m ∈ s.b.listeners → t.b.roster = (listenerUnlink s.b m).roster →
      t.b.listener_count = t.b.listeners.length := by
    intro m hm hr
    rw [count_of_roster hr, listeners_of_roster hr]
    simp [listenerUnlink, hi, List.length_erase_of_mem hm]
  cases roomStep_roster hs with
  | @session m _ h =>
    generalize s.session _ = pc, t.session _ = pc' at h
    cases h with
    | prepare hb | number hb | lower hb =>
      rw [hb]
      exact hi
    | link hb => exact link hb
    | commit _ hr | keep _ hr => exact same hr
    | unlink hb =>
      have hdel := listenerDel_roster (p := p) (b := s.b) (m := m)
      rw [← hb] at hdel
      split_ifs at hdel with hm
      · exact unlink hm hdel
      · exact same hdel
  | api h =>
    generalize s.api _ = pc, t.api _ = pc' at h
    cases h with
    | unlink hm hb => exact unlink hm (by rw [hb])
    | raise hb | drop hb =>
      rw [hb]
      exact hi
    | link _ hb => exact link hb
    | keep _ _ hr => exact same hr
  | join hr | enter hr | keep hr => exact same hr

/-- Whoever has counted the listeners after a step has done so before or has just found
none. -/
theorem roomStep_counted (hg : DestroyedBy u s a) (hs : roomStep p s a = some t)
    (h : t.Counted u) : s.Counted u ∨ s.b.listener_count = 0 ∧ t.b = s.b := by
  obtain ⟨g, f, k', hpc, hk'⟩ := h
  obtain hu | ⟨c, rfl, hx⟩ | ⟨-, ⟨_, -, hu⟩ | ⟨-, hu⟩⟩ := roomStep_api hs u
  · exact .inl ⟨g, f, k', hu ▸ hpc, hk'⟩
  · rw [hpc] at hx
    obtain ⟨-, rfl⟩ | ⟨k, hk, hd⟩ := apiDispatch_destroy hx
    · exact hk'.elim
    · by_cases hc : k.Counted
      · exact .inl ⟨g, f, k, hk, hc⟩
      · refine .inr ?_
        obtain ⟨-, hret⟩ | ⟨k₁, hrun, hn⟩ := destroyRoom_next hd
        · cases hret
        obtain rfl := Progress.run.inj hrun
        cases k with
        -- the count is read here; `waitSlot` and `waitOld` only carry it
        | waitCount old =>
          have htime : c ≠ .timeout := fun hc =>
            (hg.deadline g f _ (by rw [hc]) hk).2 old rfl
          simp only [destroyRoom, if_neg htime, Option.some.injEq, Prod.mk.injEq,
            Progress.run.injEq] at hd
          obtain ⟨hb, rfl⟩ := hd
          exact ⟨hk', hb.symm⟩
        | waitSlot old lc =>
          obtain ⟨sp, rfl⟩ := hn
          exact absurd hk' hc
        | waitOld old lc sp =>
          obtain ⟨hlc, -⟩ | rfl := hn
          · exact absurd hlc hc
          · exact hk'.elim
        | flag =>
          obtain rfl | rfl := hn <;> exact hk'.elim
        | stopRecords =>
          obtain ⟨_, -, rfl⟩ | rfl := hn <;> exact hk'.elim
        | slot | stop | hangup =>
          obtain ⟨_, rfl⟩ | rfl := hn <;> exact hk'.elim
        | snapshot =>
          obtain ⟨_, rfl⟩ := hn
          exact hk'.elim
        | refs | stopProducer | joinProducer | delete | fire | pool => exact absurd trivial hc
        | _ =>
          obtain rfl := hn
          exact hk'.elim
  · rw [hpc] at hu
    cases hu
  · rw [hpc] at hu
    obtain ⟨-, -, rfl⟩ := ApiPc.destroy.inj hu
    exact hk'.elim

theorem Room.Cleared.step (hi : s.Cleared u) (hd : s.DestroySound u) (hl : s.LinkSound)
    (ht : TapeSound s) (hn : s.b.listener_count = s.b.listeners.length) (hg : DestroyedBy u s a)
    (hc : StaysClosed p u s a) (hs : roomStep p s a = some t) : t.Cleared u where
  play hpast hopen := by
    obtain hpast | ⟨c, g, f, k, rfl, hpc, -, -, hx⟩ :=
      roomStep_past (k := .stopPlay) trivial hs hpast
    -- opened by a play command, or by the announcement of a destroy that is not this far
    · obtain hopen | ⟨v, c, rfl, ⟨hpc, hok⟩ | ⟨g, f, hpc⟩⟩ := (roomStep_switches hs).play hopen
      · exact hi.play hpast hopen
      · exact hok (hc.play v c rfl hpc hpast)
      · obtain rfl := hd.only v g f _ hpc
        obtain ⟨g', f', k, hpc', hlt⟩ := hpast
        rw [hpc] at hpc'
        obtain ⟨-, -, rfl⟩ := ApiPc.destroy.inj hpc'
        exact absurd hlt (by decide)
    · obtain ⟨hb, -⟩ := Prod.mk.inj (Option.some.inj hx)
      rw [← hb] at hopen
      cases hopen
  moh hpast := by
    obtain hpast | ⟨c, g, f, k, rfl, hpc, -, -, hx⟩ :=
      roomStep_past (k := .closeMoh) trivial hs hpast
    · by_contra hopen
      obtain hopen | ⟨c, rfl, hpc, hm, hok⟩ := (roomStep_switches hs).moh (by simpa using hopen)
      · rw [hi.moh hpast] at hopen
        cases hopen
      · exact hok (hc.moh c rfl hpc hpast hm)
    · obtain ⟨hb, -⟩ := Prod.mk.inj (Option.some.inj hx)
      rw [← hb]
  recordings hpast := by
    have hpast' := roomStep_past (k := .stopRecords .unlink) trivial hs hpast
    cases roomStep_move hs with
    | @thread th _ ha _ h =>
      rw [ht.recordings hc.records ha h]
      obtain hpast | ⟨c, g, f, k, rfl, hpc, -⟩ := hpast'
      · refine RecordCall.listed_nil (hi.recordings hpast) (fun target r hx => ?_)
          fun target r hx => hc.records.rollsBack ha hx
        exact hc.link th r ha (record_of_recordCall hx) hpast
      · obtain rfl : Thread.api u = th := Option.some.inj ha
        have hx : (s.place (.api u)).recordCall = .stop none .unlink :=
          congrArg (fun pc => (Place.api pc).recordCall) hpc
        rw [hx]
        simp [RecordCall.listed, recordMatches, stopMatches]
    | background ha h =>
      rw [h.recordings]
      obtain hpast | ⟨c, g, f, k, rfl, -⟩ := hpast'
      · exact hi.recordings hpast
      · cases ha
  listed hcounted m hm := by
    obtain hcounted | ⟨hzero, hb⟩ := roomStep_counted hg hs hcounted
    · exact hl.listed_step (hi.listed hcounted) (hc.rollback hcounted) hs hm
    · rw [hb] at hm
      rw [hzero, eq_comm, List.length_eq_zero_iff] at hn
      rw [hn] at hm
      cases hm

/-- What is known about a broadcast that `u` destroys. -/
structure Room.EndSound (u : ℕ) (s : Room) : Prop where
  slot : s.SlotSound
  input : InputSound s
  link : s.LinkSound
  count : s.b.listener_count = s.b.listeners.length
  tape : TapeSound s
  destroy : s.DestroySound u
  cleared : s.Cleared u

theorem Room.EndSound.init : Room.init.EndSound u :=
  ⟨.init, .init, .init, rfl, .init, .init, .init⟩

theorem Room.EndSound.step (hi : s.EndSound u) (hg : DestroyedBy u s a) (hc : StaysClosed p u s a)
    (hs : roomStep p s a = some t) : t.EndSound u where
  slot := hi.slot.step hs
  input := hi.input.step hs
  link := hi.link.step hs
  count := roomStep_count hi.count hs
  tape := hi.tape.step hc.records hs
  destroy := hi.destroy.step hg hs
  cleared := hi.cleared.step hi.destroy hi.link hi.tape hi.count hg hc hs

end ModBroadcast
