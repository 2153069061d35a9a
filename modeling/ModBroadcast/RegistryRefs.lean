import ModBroadcast.Counting
import ModBroadcast.RegistryLife

namespace ModBroadcast

open Automaton Counting

variable {ν : Type}

theorem LifeStep.not_seeding {starts expires : Prop} {x : Obj ν} {o : Option (Obj ν)}
    {s s' : Stance} (h : LifeStep starts expires (some x) s o s') (hs : s ≠ .seeding) :
    s' ≠ .seeding := by
  cases h with
  | stay => exact hs
  | _ => simp

/-- The counter of a living object moves with the holders, except at the
creator's store. -/
theorem LifeStep.count {starts expires : Prop} {x x' : Obj ν} {s s' : Stance}
    (h : LifeStep starts expires (some x) s (some x') s') (hs : s ≠ .seeding)
    (hp : x'.pool_destroyed = false) :
    x.pool_destroyed = false ∧ Follows s.Holds s'.Holds x.live_refs x'.live_refs := by
  cases h with
  | stay => exact ⟨hp, .stays Iff.rfl rfl⟩
  | bump | sweep => exact ⟨hp, .enters (by simp [Stance.Holds]) trivial rfl⟩
  | release => exact ⟨hp, .leaves trivial (by simp [Stance.Holds]) rfl⟩
  | seed => exact absurd rfl hs
  | pool => cases hp
  | _ => exact ⟨hp, .stays (by simp [Stance.Holds]) rfl⟩

variable [DecidableEq ν] {r r' : Registry ν} {a : RegistryAction ν} {M : ℕ} {b : ℕ}
  {h : List (Registry ν × RegistryAction ν)}

omit [DecidableEq ν] in
theorem Registry.mem_holders {t : ℕ} : t ∈ r.holders b ↔ ((r.thread t).stance b).Holds :=
  RegistryPc.holds_iff_stance

/-- The creator's store into `live_refs` of `b` was made when no other thread
held `b`. -/
def SeededAlone (b : ℕ) (h : List (Registry ν × RegistryAction ν)) : Prop :=
  ∃ p ∈ h, p.1.thread p.2.thread = .seed b ∧ p.1.holders b = {p.2.thread}

omit [DecidableEq ν] in
theorem RegistryPc.stance_seeding_iff {pc : RegistryPc ν} :
    pc.stance b = .seeding ↔ pc = .seed b := by
  cases pc <;> simp only [RegistryPc.stance] <;> (try split_ifs with hb) <;> simp [*]

/-- The counter is off by a constant `d` from the creator's store on; until then
the creator's own reference is missing from it. -/
structure Tally (b : ℕ) (h : List (Registry ν × RegistryAction ν)) (r : Registry ν) : Prop where
  known : r.Known
  one_creator : ∀ t u, r.thread t = .seed b → r.thread u = .seed b → t = u
  unseeded : (r.g.obj b = none ∨ ∃ t, r.thread t = .seed b) →
    ∀ p ∈ h, p.1.thread p.2.thread ≠ .seed b
  count : ∀ o, r.g.obj b = some o → o.pool_destroyed = false → ∃ d,
    Counts (o.live_refs + d) (r.holders b) ∧ (d = 0 ↔ SeededAlone b h) ∧
      ((∃ t, r.thread t = .seed b) → d = 1)

omit [DecidableEq ν] in
theorem Tally.init : Tally b [] (Registry.init : Registry ν) where
  known := .init
  one_creator := by simp [Registry.init]
  unseeded := by simp
  count := by simp [Registry.init]

omit [DecidableEq ν] in
theorem seededAlone_cons : SeededAlone b ((r, a) :: h) ↔
    (r.thread a.thread = .seed b ∧ r.holders b = {a.thread}) ∨ SeededAlone b h := by
  simp [SeededAlone]

omit [DecidableEq ν] in
/-- The creator's store fixes the error: it counts one holder, whatever their number. -/
theorem Tally.seed {x x' : Obj ν} (ht : Tally b h r) (hr' : r'.Known)
    (hother : ∀ t, t ≠ a.thread → r'.thread t = r.thread t)
    (hpc : r.thread a.thread = .seed b) (hpc' : (r'.thread a.thread).stance b = .holding)
    (hx : r.g.obj b = some x) (hx' : r'.g.obj b = some x') (hone : x'.live_refs = 1)
    (hp : x'.pool_destroyed = x.pool_destroyed) : Tally b ((r, a) :: h) r' := by
  have hnone : ∀ t, r'.thread t ≠ .seed b := by
    intro t hseed
    by_cases hmov : t = a.thread
    · rw [hmov, ← RegistryPc.stance_seeding_iff, hpc'] at hseed
      cases hseed
    · rw [hother t hmov] at hseed
      exact hmov (ht.one_creator _ _ hseed hpc)
  have hmem : a.thread ∈ r.holders b := by
    rw [Registry.mem_holders, RegistryPc.stance_seeding_iff.mpr hpc]
    trivial
  refine ⟨hr', fun t u hseed => absurd hseed (hnone t), ?_, ?_⟩
  · rintro (hfree | ⟨t, hseed⟩)
    · rw [hx'] at hfree
      cases hfree
    · exact absurd hseed (hnone t)
  · intro o ho hpool
    obtain rfl : x' = o := Option.some.inj (hx'.symm.trans ho)
    obtain ⟨d, hcount, -, hd⟩ := ht.count x hx (hp ▸ hpool)
    -- until the store the counter is one short of the holders
    obtain rfl : d = 1 := hd ⟨_, hpc⟩
    have hsame : ∀ t, t ∈ r'.holders b ↔ t ∈ r.holders b := by
      intro t
      by_cases hmov : t = a.thread
      · rw [hmov, Registry.mem_holders, hpc']
        exact iff_of_true trivial hmem
      · rw [Registry.mem_holders, Registry.mem_holders, hother t hmov]
    refine ⟨x.live_refs, ?_, ?_, fun ⟨t, hseed⟩ => absurd hseed (hnone t)⟩
    · rw [hone, add_comm]
      exact hcount.congr hsame
    · rw [seededAlone_cons]
      constructor
      · intro hzero
        refine .inl ⟨hpc, Set.eq_singleton_iff_unique_mem.mpr ⟨hmem, fun t hmt => ?_⟩⟩
        exact hcount.eq_of_le_one (by omega) hmem hmt
      · rintro (⟨-, hsingle⟩ | ⟨p, hp, hseed, -⟩)
        · rw [hsingle] at hcount
          have := hcount.unique (counts_singleton _)
          omega
        · exact absurd hseed (ht.unseeded (.inr ⟨_, hpc⟩) p hp)

omit [DecidableEq ν] in
/-- At the insertion the creator holds `b` and the counter is zero. -/
theorem Tally.create {n : ν} (ht : Tally b h r) (hr' : r'.Known)
    (hother : ∀ t, t ≠ a.thread → r'.thread t = r.thread t)
    (haway : ∀ t, (r.thread t).stance b = .away)
    (hpc' : (r'.thread a.thread).stance b = .seeding)
    (ho : r.g.obj b = none) (ho' : r'.g.obj b = some (.create n)) : Tally b ((r, a) :: h) r' := by
  have hseed : ∀ t, r'.thread t = .seed b ↔ t = a.thread := by
    intro t
    rw [← RegistryPc.stance_seeding_iff]
    by_cases hmov : t = a.thread
    · simp [hmov, hpc']
    · simp [hmov, hother t hmov, haway]
  have hold : ∀ p ∈ (r, a) :: h, p.1.thread p.2.thread ≠ .seed b := by
    intro p hp
    rcases List.mem_cons.mp hp with rfl | hp
    · rw [ne_eq, ← RegistryPc.stance_seeding_iff, haway]
      simp
    · exact ht.unseeded (.inl ho) p hp
  refine ⟨hr', fun t u h1 h2 => ?_, fun _ => hold, ?_⟩
  · rw [(hseed t).mp h1, (hseed u).mp h2]
  · intro o hx _
    obtain rfl : Obj.create n = o := Option.some.inj (ho'.symm.trans hx)
    -- the creator holds the object and has not counted itself yet
    refine ⟨1, ?_, ?_, fun _ => rfl⟩
    · refine (counts_singleton a.thread).congr fun t => ?_
      by_cases hmov : t = a.thread
      · simp [hmov, Registry.mem_holders, hpc', Stance.Holds]
      · simp [hmov, Registry.mem_holders, hother t hmov, haway, Stance.Holds]
    · refine iff_of_false (by decide) ?_
      rintro ⟨p, hp, hs, -⟩
      exact hold p hp hs

theorem Tally.step (ht : Tally b h r) (hs : registryStep M r a = some r') :
    Tally b ((r, a) :: h) r' := by
  have hr' := ht.known.step hs
  have hlife := registryStep_life (b := b) ht.known hs
  have hother : ∀ t, t ≠ a.thread → r'.thread t = r.thread t := fun t => registryStep_other hs
  by_cases hpc : r.thread a.thread = .seed b
  · rw [RegistryPc.stance_seeding_iff.mpr hpc] at hlife
    generalize ho : r.g.obj b = o at hlife
    generalize ho' : r'.g.obj b = o' at hlife
    generalize hs' : (r'.thread a.thread).stance b = s' at hlife
    cases hlife with
    | stay hne => simp at hne
    | seed => exact ht.seed hr' hother hpc hs' ho ho' rfl rfl
  have hne : (r.thread a.thread).stance b ≠ .seeding :=
    fun he => hpc (RegistryPc.stance_seeding_iff.mp he)
  -- no store of a creator in this step, so the error stays what it was
  have hkeep : SeededAlone b ((r, a) :: h) ↔ SeededAlone b h := by
    simp [seededAlone_cons, hpc]
  have hpast : (∀ p ∈ h, p.1.thread p.2.thread ≠ .seed b) →
      ∀ p ∈ (r, a) :: h, p.1.thread p.2.thread ≠ .seed b := by
    intro hh p hp
    rcases List.mem_cons.mp hp with rfl | hp
    · exact hpc
    · exact hh p hp
  cases ho : r.g.obj b with
  | none =>
    -- nobody has heard of an object that does not exist yet
    have haway : ∀ t, (r.thread t).stance b = .away := by
      intro t
      by_contra hs
      have := ht.known.thread t b hs
      simp [ho] at this
    rw [ho, haway] at hlife
    generalize ho' : r'.g.obj b = o' at hlife
    generalize hs' : (r'.thread a.thread).stance b = s' at hlife
    cases hlife with
    | create => exact ht.create hr' hother haway hs' ho ho'
    | stay =>
      have hseed : ∀ t, r'.thread t ≠ .seed b := by
        intro t hseed
        have hk := hr'.thread t b (by simp [RegistryPc.stance_seeding_iff.mpr hseed])
        simp [ho'] at hk
      refine ⟨hr', fun t u h1 => absurd h1 (hseed t), fun _ => hpast (ht.unseeded (.inl ho)), ?_⟩
      simp [ho']
  | some x =>
    obtain ⟨x', ho'⟩ := Option.isSome_iff_exists.mp (hlife.isSome (by simp [ho]))
    rw [ho, ho'] at hlife
    have hseed : ∀ t, r'.thread t = .seed b → r.thread t = .seed b := by
      intro t ht'
      by_cases hmov : t = a.thread
      · rw [← RegistryPc.stance_seeding_iff, hmov] at ht'
        exact absurd ht' (hlife.not_seeding hne)
      · rwa [hother t hmov] at ht'
    refine ⟨hr', fun t u h1 h2 => ht.one_creator t u (hseed t h1) (hseed u h2), ?_, ?_⟩
    · rintro (hfree | ⟨t, h1⟩)
      · simp [ho'] at hfree
      · exact hpast (ht.unseeded (.inr ⟨t, hseed t h1⟩))
    · intro o hx hp
      obtain rfl : x' = o := Option.some.inj (ho'.symm.trans hx)
      obtain ⟨hpool, hfollows⟩ := hlife.count hne hp
      obtain ⟨d, hcount, hd, hone⟩ := ht.count x ho hpool
      rw [← Registry.mem_holders, ← Registry.mem_holders] at hfollows
      refine ⟨d, hcount.follow hfollows fun t hmov => ?_, by rw [hkeep, hd], ?_⟩
      · rw [Registry.mem_holders, Registry.mem_holders, hother t hmov]
      · rintro ⟨t, h1⟩
        exact hone ⟨t, hseed t h1⟩

theorem Tally.of_run (hr : Run (registryStep M) Registry.init h r) : Tally b h r :=
  hr.history_invariant (g := fun _ _ => True) (fun _ _ _ _ ht _ hs => ht.step hs)
    (fun _ _ => trivial) .init

/-- In every reachable state the count of a living object is exact if and only if
the creator has stored its reference, at a moment when it was the only holder. -/
theorem live_refs_exact_iff {o : Obj ν} (hr : Run (registryStep M) Registry.init h r)
    (ho : r.g.obj b = some o) (hp : o.pool_destroyed = false) :
    Counts o.live_refs (r.holders b) ↔ SeededAlone b h := by
  obtain ⟨d, hcount, hd, -⟩ := (Tally.of_run hr).count o ho hp
  rw [← hd]
  constructor
  · intro hexact
    have := hcount.unique hexact
    omega
  · rintro rfl
    simpa using hcount

/-- The creator is back from `broadcast_create` and one more session has joined:
two holders, counted as two. -/
theorem live_refs_exact_iff_two : ∃ (h : List (Registry ℕ × RegistryAction ℕ)) (r : Registry ℕ)
    (o : Obj ℕ), Run (registryStep 1) Registry.init h r ∧ r.g.obj 0 = some o ∧ o.live_refs = 2 ∧
      (Counts o.live_refs (r.holders 0) ↔ SeededAlone 0 h) := by
  obtain ⟨h, r, hr, -, hv⟩ := exists_run_observing (registryStep (ν := ℕ) 1) (fun _ _ => true)
    Registry.init
    [.join 0 0, .step 0 .go, .step 0 (.alloc 0), .step 0 .go, .join 1 0, .step 1 .go, .step 1 .go,
      .step 1 .go, .step 1 .go, .step 1 .go]
    (fun _ r => (r.g.obj 0).map fun o => (o.live_refs, o.pool_destroyed)) (v := some (2, false))
    (by decide)
  obtain ⟨o, ho, hv⟩ := Option.map_eq_some_iff.mp hv
  obtain ⟨htwo, hpool⟩ := Prod.mk.inj hv
  exact ⟨h, r, o, hr, ho, htwo, live_refs_exact_iff hr ho hpool⟩

/-- A session that finds the new object before the creator's store loses its
reference: one counted, two held. -/
theorem live_refs_lost : ¬ ∀ (h : List (Registry ℕ × RegistryAction ℕ)) (r : Registry ℕ),
    Run (registryStep 1) Registry.init h r → ∀ b o, r.g.obj b = some o →
      o.pool_destroyed = false → Counts o.live_refs (r.holders b) := by
  refine not_forall_run (fun _ _ => true)
    [.join 0 0, .step 0 .go, .step 0 (.alloc 0), .join 1 0, .step 1 .go, .step 1 .go, .step 1 .go,
      .step 1 .go, .step 0 .go]
    (fun _ r => ((r.g.obj 0).map fun o => (o.live_refs, o.pool_destroyed), r.thread 0, r.thread 1))
    (v := (some (1, false), .hold 0 false, .bumped 0 false)) (by decide) ?_
  intro h r _ _ hv hall
  obtain ⟨ho, h0, h1⟩ : _ ∧ _ ∧ _ := by simpa using hv
  obtain ⟨o, ho, hone, hpool⟩ := ho
  have hcount := hall 0 o ho hpool
  have hmem : ∀ t, r.thread t = .hold 0 false ∨ r.thread t = .bumped 0 false → t ∈ r.holders 0 := by
    rintro t (ht | ht) <;> simp [Registry.holders, ht, RegistryPc.holds]
  exact absurd (hcount.eq_of_le_one (by omega) (hmem 0 (.inl h0)) (hmem 1 (.inr h1))) (by decide)

end ModBroadcast
