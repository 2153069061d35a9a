import ModBroadcast.RegistryRefs

namespace ModBroadcast

open Automaton Counting

variable {ν : Type}

/-- An object with at most one destroyer, which is alone once its wait is over. -/
structure Sheltered (o : Option (Obj ν)) (st : ℕ → Stance) : Prop where
  one : ∀ t u k m, st t = .destroying k → st u = .destroying m → t = u
  flag : ∀ t k, st t = .destroying k → k ≠ .destruct → ∀ x, o = some x → x.destruct = true
  left : ∀ t k, st t = .destroying k → k.Final → ∀ u, st u ≠ .passed ∧ ((st u).Holds → u = t)
  gone : ∀ x, o = some x → x.pool_destroyed = true →
    x.destruct = true ∧ ∀ u, st u ≠ .passed ∧ ¬ (st u).Holds

theorem Sheltered.step {starts expires : Prop} {o o' : Option (Obj ν)} {st st' : ℕ → Stance} {t : ℕ}
    (h : Sheltered o st) (hk : ∀ u, st u ≠ .away → ∃ x, o = some x)
    (hlife : LifeStep starts expires o (st t) o' (st' t)) (hother : ∀ u, u ≠ t → st' u = st u)
    (hstart : starts → (∀ x, o = some x → x.destruct = false) ∧ ∀ u k, st u ≠ .destroying k)
    (hpass : st t = .destroying .refs → st' t = .destroying .join →
      ∀ u, st u ≠ .passed ∧ ((st u).Holds → u = t)) :
    Sheltered o' st' := by
  -- whoever destroys afterwards destroyed before, or is the first to begin
  have before : ∀ u k, st' u = .destroying k →
      (∃ m, st u = .destroying m) ∨ u = t ∧ starts ∧ k = .destruct := by
    intro u k hu
    by_cases hut : u = t
    · subst hut
      exact (hlife.of_destroying hu).imp_right fun hs => ⟨rfl, hs⟩
    · exact .inl ⟨k, hother u hut ▸ hu⟩
  -- with the flag set and nobody past its test, no other thread gets hold of the object
  have shut : ∀ x (P : ℕ → Prop), o = some x → x.destruct = true → ¬ starts →
      (∀ v, st v ≠ .passed ∧ ((st v).Holds → P v)) →
      ∀ v, st' v ≠ .passed ∧ ((st' v).Holds → P v) := by
    intro x P hx hflag hns hv v
    by_cases hvt : v = t
    · subst hvt
      subst hx
      obtain ⟨hp, hh⟩ := hlife.closed hflag (hv v).1 hns
      exact ⟨hp, fun hv' => (hv v).2 (hh hv')⟩
    · rw [hother v hvt]
      exact hv v
  have busy : ∀ u k, st u = .destroying k → (∃ x, o = some x) ∧ ¬ starts := by
    intro u k hu
    exact ⟨hk u (by simp [hu]), fun hs => (hstart hs).2 u k hu⟩
  constructor
  -- two calls afterwards are two before, or one of them has just begun
  · intro u v k m hu hv
    rcases before u k hu with ⟨k', hu'⟩ | ⟨rfl, hs, -⟩ <;>
      rcases before v m hv with ⟨m', hv'⟩ | ⟨rfl, hs', -⟩
    · exact h.one u v k' m' hu' hv'
    · exact absurd hu' ((hstart hs').2 u k')
    · exact absurd hv' ((hstart hs).2 v m')
    · rfl
  -- the flag is stored by the first step of a call and never taken back
  · intro u k hu hkd x' hx'
    rcases before u k hu with ⟨m, hu'⟩ | ⟨-, -, rfl⟩
    · obtain ⟨⟨x, rfl⟩, -⟩ := busy u m hu'
      subst hx'
      by_cases hm : m = .destruct
      · have hut : u = t := by
          by_contra hne
          rw [hother u hne, hu', hm] at hu
          exact hkd (Stance.destroying.inj hu).symm
        subst hut
        subst hm
        refine hlife.destruct_of (.inr ⟨hu', ?_⟩)
        rw [hu, hu']
        simpa using hkd
      · exact hlife.destruct_of (.inl (h.flag u m hu' hm x rfl))
    · exact absurd rfl hkd
  -- the final part begins when the count has been read with nobody else inside
  · intro u k hu hfin
    have hleft : (∃ m, st u = .destroying m ∧ m ≠ .destruct) ∧
        ∀ v, st v ≠ .passed ∧ ((st v).Holds → v = u) := by
      have ofFinal : ∀ m, st u = .destroying m → m.Final →
          (∃ m, st u = .destroying m ∧ m ≠ .destruct) ∧
            ∀ v, st v ≠ .passed ∧ ((st v).Holds → v = u) := by
        intro m hu' hm
        exact ⟨⟨m, hu', fun he => by rw [he] at hm; exact hm⟩, h.left u m hu' hm⟩
      by_cases hut : u = t
      · subst hut
        rcases hlife.of_final hu hfin with ⟨m, hu', hm⟩ | ⟨hu', rfl⟩
        · exact ofFinal m hu' hm
        · exact ⟨⟨_, hu', by simp⟩, hpass hu' hu⟩
      · exact ofFinal k (hother u hut ▸ hu) hfin
    obtain ⟨⟨m, hu', hm⟩, hv⟩ := hleft
    obtain ⟨⟨x, hx⟩, hns⟩ := busy u m hu'
    exact shut x _ hx (h.flag u m hu' hm x hx) hns hv
  -- the pool is destroyed by the call that has been alone since
  · intro x' hx' hp
    subst hx'
    rcases hlife.of_pool_destroyed hp with ⟨x, rfl, hx⟩ | ⟨hpool, haway⟩
    · obtain ⟨hflag, hnone⟩ := h.gone x rfl hx
      refine ⟨hlife.destruct_of (.inl hflag), shut x (fun _ => False) rfl hflag (fun hs => ?_) hnone⟩
      simp [(hstart hs).1 x rfl] at hflag
    · obtain ⟨⟨x, rfl⟩, hns⟩ := busy t _ hpool
      have hflag := h.flag t _ hpool (by simp) x rfl
      refine ⟨hlife.destruct_of (.inl hflag), fun v => ?_⟩
      obtain ⟨hp', hh⟩ := shut x _ rfl hflag hns (h.left t _ hpool trivial) v
      refine ⟨hp', fun hv => ?_⟩
      obtain rfl := hh hv
      rw [haway] at hv
      exact hv

variable [DecidableEq ν] {r r' : Registry ν} {a : RegistryAction ν} {M : ℕ} {b : ℕ}
  {h : List (Registry ν × RegistryAction ν)}

/-- At most one call of `broadcast_destroy_ex` on `b`, made when its creation is
complete, and no deadline of it expires. -/
structure OneDestroy (b : ℕ) (r : Registry ν) (a : RegistryAction ν) : Prop where
  single : r.StartsDestroy b a →
    (∀ o, r.g.obj b = some o → o.destruct = false) ∧ ∀ t k, (r.thread t).stance b ≠ .destroying k
  created : r.StartsDestroy b a → ∀ t, (r.thread t).stance b ≠ .seeding
  seeded : r.thread a.thread = .seed b → r.holders b = {a.thread}
  no_timeout : (r.thread a.thread).stance b = .destroying .refs → a.choice ≠ .timeout

/-- When the destroyer's sample of `live_refs` lets it pass, no thread stands between
the tests and the increment of `broadcast_find_and_ref`. -/
def SampleAfterPins (b : ℕ) (r : Registry ν) (a : RegistryAction ν) : Prop :=
  (r.thread a.thread).stance b = .destroying .refs →
    (∃ o, r.g.obj b = some o ∧ o.live_refs ≤ 1) → ∀ t, (r.thread t).stance b ≠ .passed

structure Kept (b : ℕ) (h : List (Registry ν × RegistryAction ν)) (r : Registry ν) : Prop where
  tally : Tally b h r
  seeded : ∀ o, r.g.obj b = some o → (∃ t, (r.thread t).stance b = .seeding) ∨ SeededAlone b h
  created : ∀ t k, (r.thread t).stance b = .destroying k → ∀ u, (r.thread u).stance b ≠ .seeding
  shelter : Sheltered (r.g.obj b) fun t => (r.thread t).stance b

omit [DecidableEq ν] in
/-- The wait ends at an exact count, so nobody else is left. -/
theorem Kept.alone {x : Obj ν} (hk : Kept b h r) (hx : r.g.obj b = some x) {t : ℕ}
    (ht : (r.thread t).stance b = .destroying .refs) (hle : x.live_refs ≤ 1) :
    ∀ u, ((r.thread u).stance b).Holds → u = t := by
  have hmem : t ∈ r.holders b := by
    rw [Registry.mem_holders, ht]
    trivial
  have hpool : x.pool_destroyed = false := by
    by_contra hp
    exact ((hk.shelter.gone x hx (by simpa using hp)).2 t).2 (Registry.mem_holders.mp hmem)
  have hseeded : SeededAlone b h := by
    rcases hk.seeded x hx with ⟨u, hu⟩ | hs
    · exact absurd hu (hk.created t _ ht u)
    · exact hs
  obtain ⟨d, hcount, hd, -⟩ := hk.tally.count x hx hpool
  obtain rfl : d = 0 := hd.mpr hseeded
  intro u hu
  exact hcount.eq_of_le_one (by omega) hmem (Registry.mem_holders.mpr hu)

theorem Kept.step (hk : Kept b h r) (hd : OneDestroy b r a) (hp : SampleAfterPins b r a)
    (hs : registryStep M r a = some r') : Kept b ((r, a) :: h) r' := by
  have hlife := registryStep_life (b := b) hk.tally.known hs
  have hother : ∀ t, t ≠ a.thread → r'.thread t = r.thread t := fun t => registryStep_other hs
  have hexists : ∀ u, (r.thread u).stance b ≠ .away → ∃ x, r.g.obj b = some x := fun u hu =>
    Option.isSome_iff_exists.mp (hk.tally.known.thread u b hu)
  -- only the insertion of a new object makes a thread its creator
  have seeding : ∀ u, (r'.thread u).stance b = .seeding →
      (r.thread u).stance b = .seeding ∨ u = a.thread ∧ r.g.obj b = none := by
    intro u hu
    by_cases hmov : u = a.thread
    · subst hmov
      exact .inr ⟨rfl, hlife.of_seeding hu⟩
    · exact .inl (by rwa [hother u hmov] at hu)
  refine ⟨hk.tally.step hs, ?_, ?_, ?_⟩
  · intro o' ho'
    rw [ho'] at hlife
    rw [seededAlone_cons]
    cases ho : r.g.obj b with
    | none =>
      rw [ho] at hlife
      exact .inl ⟨a.thread, hlife.seeding_of_new⟩
    | some x =>
      rcases hk.seeded x ho with ⟨t, ht⟩ | halone
      · by_cases hmov : t = a.thread
        · have hpc := RegistryPc.stance_seeding_iff.mp (hmov ▸ ht)
          exact .inr (.inl ⟨hpc, hd.seeded hpc⟩)
        · exact .inl ⟨t, by rw [hother t hmov, ht]⟩
      · exact .inr (.inr halone)
  · intro t k ht u hu
    have htbefore : (∃ m, (r.thread t).stance b = .destroying m) ∨
        t = a.thread ∧ r.StartsDestroy b a := by
      by_cases hmov : t = a.thread
      · subst hmov
        exact (hlife.of_destroying ht).imp_right fun hst => ⟨rfl, hst.1⟩
      · exact .inl ⟨k, by rwa [hother t hmov] at ht⟩
    rcases seeding u hu with hu' | ⟨rfl, hnone⟩ <;> rcases htbefore with ⟨m, ht'⟩ | ⟨rfl, hst⟩
    · exact hk.created t m ht' u hu'
    · exact hd.created hst u hu'
    · obtain ⟨x, hx⟩ := hexists t (by simp [ht'])
      simp [hnone] at hx
    · simp [ht] at hu
  · refine hk.shelter.step hexists hlife (fun u hu => by rw [hother u hu]) hd.single ?_
    intro hrefs hjoin
    simp only [hrefs, hjoin] at hlife
    obtain ⟨x, hx, hle⟩ := hlife.sampled.resolve_right (hd.no_timeout hrefs)
    exact fun u => ⟨hp hrefs ⟨x, hx, hle⟩ u, hk.alone hx hrefs hle u⟩

omit [DecidableEq ν] in
theorem Kept.init : Kept b [] (Registry.init : Registry ν) where
  tally := .init
  seeded := by simp [Registry.init]
  created := by simp [Registry.init, RegistryPc.stance]
  shelter := by
    constructor <;> simp [Registry.init, RegistryPc.stance]

omit [DecidableEq ν] in
/-- With all other threads idle, what holds of the first `n` threads holds of all. -/
theorem Registry.forall_of_lt {n : ℕ} {P : ℕ → RegistryPc ν → Prop}
    (hidle : ∀ t, n ≤ t → r.thread t = .idle) (hP : ∀ t, n ≤ t → P t .idle)
    (hlt : ∀ t < n, P t (r.thread t)) (t : ℕ) : P t (r.thread t) := by
  by_cases ht : t < n
  · exact hlt t ht
  · rw [hidle t (by omega)]
    exact hP t (by omega)

theorem registryStep_idle {n : ℕ} (hidle : ∀ t, n ≤ t → r.thread t = .idle) (ha : a.thread < n)
    (hs : registryStep M r a = some r') : ∀ t, n ≤ t → r'.thread t = .idle := by
  intro t ht
  rw [registryStep_other hs (by omega), hidle t ht]

/-- `OneDestroy` and, with `pins`, `SampleAfterPins` as a test of the first `n` threads. -/
def oneDestroyTest (n : ℕ) (pins : Bool) (b : ℕ) (r : Registry ν) (a : RegistryAction ν) : Bool :=
  decide (a.thread < n ∧
    (r.StartsDestroy b a → (∀ o ∈ r.g.obj b, o.destruct = false) ∧
      ∀ t < n, ¬ ((r.thread t).stance b).Destroys ∧ (r.thread t).stance b ≠ .seeding) ∧
    (r.thread a.thread = .seed b → ∀ t < n, ((r.thread t).stance b).Holds ↔ t = a.thread) ∧
    ((r.thread a.thread).stance b = .destroying .refs → a.choice ≠ .timeout ∧
      (pins → ∀ t < n, (r.thread t).stance b ≠ .passed)))

theorem oneDestroy_of_test {n : ℕ} {pins : Bool} (hidle : ∀ t, n ≤ t → r.thread t = .idle)
    (ht : oneDestroyTest n pins b r a) :
    OneDestroy b r a ∧ (pins → SampleAfterPins b r a) := by
  obtain ⟨ha, hstart, hseed, hrefs⟩ := of_decide_eq_true ht
  have start : r.StartsDestroy b a → ∀ t, ¬ ((r.thread t).stance b).Destroys ∧
      (r.thread t).stance b ≠ .seeding := fun hs =>
    Registry.forall_of_lt (P := fun _ pc => ¬ (pc.stance b).Destroys ∧ pc.stance b ≠ .seeding)
      hidle (by simp [RegistryPc.stance, Stance.Destroys]) (hstart hs).2
  refine ⟨⟨fun hs => ⟨fun o ho => (hstart hs).1 o ho, fun t k hk => ?_⟩, fun hs t => (start hs t).2,
    fun hs => ?_, fun hr => (hrefs hr).1⟩, fun hpins hr _ => ?_⟩
  · exact (start hs t).1 (by rw [hk]; trivial)
  · ext t
    rw [Registry.mem_holders, Set.mem_singleton_iff]
    exact Registry.forall_of_lt (P := fun t pc => (pc.stance b).Holds ↔ t = a.thread) hidle
      (fun t ht => by simp [RegistryPc.stance, Stance.Holds]; omega) (hseed hs) t
  · exact Registry.forall_of_lt (P := fun _ pc => pc.stance b ≠ .passed) hidle
      (by simp [RegistryPc.stance]) ((hrefs hr).2 hpins)

theorem meets_oneDestroy {n : ℕ} {pins : Bool} (hr : Run (registryStep M) Registry.init h r)
    (ht : Meets (fun r a => oneDestroyTest n pins b r a) h) :
    Meets (fun r a => OneDestroy b r a ∧ (pins → SampleAfterPins b r a)) h :=
  hr.meets_of_invariant (I := fun r => ∀ t, n ≤ t → r.thread t = .idle)
    (fun _ _ _ hidle ht hs => registryStep_idle hidle (of_decide_eq_true ht).1 hs)
    (fun _ _ _ hidle ht _ => oneDestroy_of_test hidle ht) ht (by simp [Registry.init])

/-- A reference keeps the broadcast as long as no thread is overtaken by the
destroyer's sample between its test of the flag and its increment. -/
theorem pin_keeps_alive {t : ℕ} {o : Obj ν} (hr : Run (registryStep M) Registry.init h r)
    (hd : Meets (OneDestroy b) h) (hp : Meets (SampleAfterPins b) h) (ho : r.g.obj b = some o)
    (ht : t ∈ r.holders b) : o.pool_destroyed = false := by
  have hk : Kept b h r := hr.history_invariant
    (fun _ _ _ _ hk hg hs => hk.step hg.1 hg.2 hs) (hd.and hp) .init
  by_contra hpool
  exact ((hk.shelter.gone o ho (by simpa using hpool)).2 t).2 (Registry.mem_holders.mp ht)

/-- A session of a broadcast whose destroyer is waiting for it. -/
theorem pin_keeps_alive_waiting : ∃ (h : List (Registry ℕ × RegistryAction ℕ)) (r : Registry ℕ)
    (o : Obj ℕ), Run (registryStep 1) Registry.init h r ∧ r.g.obj 0 = some o ∧
      r.thread 1 = .destroy 0 false .refs ∧ 2 ∈ r.holders 0 ∧ o.pool_destroyed = false := by
  obtain ⟨h, r, hr, hm, hv⟩ := exists_run_observing (registryStep (ν := ℕ) 1)
    (oneDestroyTest 3 true 0) Registry.init
    [.join 0 0, .step 0 .go, .step 0 (.alloc 0), .step 0 .go, .step 0 .go,
      .command 1 0, .step 1 .go, .step 1 .go, .step 1 .go, .step 1 .go, .step 1 .go,
      .join 2 0, .step 2 .go, .step 2 .go, .step 2 .go, .step 2 .go,
      .step 1 .destroy, .step 1 .go, .step 1 .go, .step 1 .go, .step 1 .go, .step 1 .go,
      .step 2 .go]
    (fun _ r => ((r.g.obj 0).isSome, r.thread 1, r.thread 2))
    (v := (true, .destroy 0 false .refs, .hold 0 false)) (by decide)
  obtain ⟨ho, h1, h2⟩ : _ ∧ _ ∧ _ := by simpa using hv
  obtain ⟨o, ho⟩ := Option.isSome_iff_exists.mp ho
  have hguard := meets_oneDestroy hr hm
  have hmem : 2 ∈ r.holders 0 := by
    simp [Registry.holders, h2, RegistryPc.holds]
  exact ⟨h, r, o, hr, ho, h1, hmem, pin_keeps_alive hr (hguard.mono fun _ _ hg => hg.1)
    (hguard.mono fun _ _ hg => hg.2 rfl) ho hmem⟩

/-- A session that tests the flags before the destroyer raises them and increments
after the destroyer's sample is left with a reference to a destroyed pool. -/
theorem pin_outlived : ¬ ∀ (h : List (Registry ℕ × RegistryAction ℕ)) (r : Registry ℕ),
    Run (registryStep 1) Registry.init h r → Meets (OneDestroy 0) h →
      ∀ t api o, r.g.obj 0 = some o → r.thread t = .hold 0 api → o.pool_destroyed = false := by
  refine not_forall_run (oneDestroyTest 3 false 0)
    [.join 0 0, .step 0 .go, .step 0 (.alloc 0), .step 0 .go, .step 0 .go,
      .command 1 0, .step 1 .go, .step 1 .go, .step 1 .go, .step 1 .go, .step 1 .go,
      .join 2 0, .step 2 .go, .step 2 .go, .step 2 .go,
      .step 1 .destroy, .step 1 .go, .step 1 .go, .step 1 .go, .step 1 .go, .step 1 .go, .step 1 .go,
      .step 2 .go, .step 2 .go, .step 1 .go, .step 1 .go, .step 1 .go]
    (fun _ r => ((r.g.obj 0).map (·.pool_destroyed), r.thread 2))
    (v := (some true, .hold 0 false)) (by decide) ?_
  intro h r hr hm hv hall
  obtain ⟨ho, h2⟩ : _ ∧ _ := by simpa using hv
  obtain ⟨o, ho, hpool⟩ := ho
  have hguard := (meets_oneDestroy hr hm).mono fun _ _ hg => hg.1
  simp [hall hguard 2 false o ho h2] at hpool

end ModBroadcast
