import ModBroadcast.RegistryPins

namespace ModBroadcast

open Automaton KeyedList

variable {ν : Type} [DecidableEq ν] {r r' : Registry ν} {a : RegistryAction ν} {M : ℕ} {b : ℕ}
  {h : List (Registry ν × RegistryAction ν)}

/-- A call of `broadcast_destroy_ex` leaves its wait for the references only as the
only call on its broadcast, and no further call begins after that. -/
structure FinishesAlone (b : ℕ) (r : Registry ν) (a : RegistryAction ν) : Prop where
  start : r.StartsDestroy b a → (∀ o, r.g.obj b = some o → o.pool_destroyed = false) ∧
    ∀ t k, (r.thread t).stance b = .destroying k → ¬ k.Final
  finish : (r.thread a.thread).stance b = .destroying .refs →
    (∃ o, r.g.obj b = some o ∧ (o.live_refs ≤ 1 ∨ a.choice = .timeout)) →
      ∀ t, ((r.thread t).stance b).Destroys → t = a.thread

/-- The number of times that phase `k` of `broadcast_destroy_ex` was executed on `b`. -/
def executions (b : ℕ) (k : DestroyPhase) (h : List (Registry ν × RegistryAction ν)) : ℕ :=
  h.countP fun p => (p.1.thread p.2.thread).stance b = .destroying k

structure Retiring (b : ℕ) (h : List (Registry ν × RegistryAction ν)) (r : Registry ν) : Prop where
  alone : ∀ t k, (r.thread t).stance b = .destroying k → k.Final →
    ∀ u, ((r.thread u).stance b).Destroys → u = t
  gone : ∀ o, r.g.obj b = some o → o.pool_destroyed = true →
    ∀ t, ¬ ((r.thread t).stance b).Destroys
  past : ∀ k, k.Final → 0 < executions b k h →
    (∃ t m, (r.thread t).stance b = .destroying m ∧ k.rank < m.rank) ∨
      ∃ o, r.g.obj b = some o ∧ o.pool_destroyed = true
  once : ∀ k, k.Final → executions b k h ≤ 1

omit [DecidableEq ν] in
theorem executions_cons (k : DestroyPhase) : executions b k ((r, a) :: h) =
    executions b k h + if (r.thread a.thread).stance b = .destroying k then 1 else 0 := by
  simp [executions, List.countP_cons]

/-- Whoever destroys after a step destroyed before it, or begins in it. -/
theorem destroys_before {t : ℕ} (hk : r.Known) (hs : registryStep M r a = some r')
    (hd : ((r'.thread t).stance b).Destroys) :
    ((r.thread t).stance b).Destroys ∨ t = a.thread ∧ r.StartsDestroy b a := by
  by_cases hmov : t = a.thread
  · subst hmov
    obtain ⟨k, hd⟩ := Stance.destroys_iff.mp hd
    exact ((registryStep_life (b := b) hk hs).of_destroying hd).imp Stance.destroys_iff.mpr
      fun hst => ⟨rfl, hst.1⟩
  · exact .inl (by rwa [registryStep_other hs hmov] at hd)

omit [DecidableEq ν] in
theorem isSome_of_destroying {t : ℕ} {k : DestroyPhase} (hk : r.Known)
    (hd : (r.thread t).stance b = .destroying k) : (r.g.obj b).isSome := hk.thread t b (by simp [hd])

/-- A call in its final part goes on, or has destroyed the pool. -/
theorem destroying_onward {k m : DestroyPhase} {t : ℕ} (hk : r.Known)
    (hs : registryStep M r a = some r') (hfin : k.Final)
    (hd : (r.thread t).stance b = .destroying m) (hle : k.rank ≤ m.rank)
    (hlt : k.rank < m.rank ∨ t = a.thread) :
    (∃ t m, (r'.thread t).stance b = .destroying m ∧ k.rank < m.rank) ∨
      ∃ o, r'.g.obj b = some o ∧ o.pool_destroyed = true := by
  by_cases hmov : t = a.thread
  · subst hmov
    have hlife := registryStep_life (b := b) hk hs
    rw [hd] at hlife
    have hm : m.Final := DestroyPhase.final_iff.mpr ((DestroyPhase.final_iff.mp hfin).trans hle)
    exact (hlife.advance hm (isSome_of_destroying hk hd)).imp_left
      fun ⟨n, hn, hrank⟩ => ⟨_, n, hn, hle.trans_lt hrank⟩
  · exact .inl ⟨t, m, by rw [registryStep_other hs hmov, hd], hlt.resolve_right hmov⟩

omit [DecidableEq ν] in
/-- A call that has run `k` is past it, so another call would have to run it twice. -/
theorem Retiring.not_yet {k : DestroyPhase} {t : ℕ} (ht : Retiring b h r) (hfin : k.Final)
    (hd : (r.thread t).stance b = .destroying k) : executions b k h = 0 := by
  by_contra hran
  have hdes : ((r.thread t).stance b).Destroys := Stance.destroys_iff.mpr ⟨k, hd⟩
  rcases ht.past k hfin (by omega) with ⟨u, m, hm, hrank⟩ | ⟨o, ho, hpool⟩
  · have hmfin : m.Final :=
      DestroyPhase.final_iff.mpr ((DestroyPhase.final_iff.mp hfin).trans hrank.le)
    rw [← ht.alone u m hm hmfin _ hdes, hd] at hm
    obtain rfl := Stance.destroying.inj hm
    exact lt_irrefl _ hrank
  · exact ht.gone o ho hpool _ hdes

theorem Retiring.step (ht : Retiring b h r) (hk : r.Known) (hg : FinishesAlone b r a)
    (hs : registryStep M r a = some r') : Retiring b ((r, a) :: h) r' := by
  have hlife := registryStep_life (b := b) hk hs
  have hother : ∀ t, t ≠ a.thread → r'.thread t = r.thread t := fun t => registryStep_other hs
  refine ⟨?_, ?_, ?_, ?_⟩
  · intro t k hd hfin u hu
    have hall : (∃ m, (r.thread t).stance b = .destroying m ∧ (m.Final ∨ t = a.thread)) ∧
        ∀ u, ((r.thread u).stance b).Destroys → u = t := by
      by_cases hmov : t = a.thread
      · subst hmov
        rcases hlife.of_final hd hfin with ⟨m, hm, hmfin⟩ | ⟨hrefs, rfl⟩
        · exact ⟨⟨m, hm, .inl hmfin⟩, ht.alone _ m hm hmfin⟩
        · refine ⟨⟨_, hrefs, .inr rfl⟩, hg.finish hrefs ?_⟩
          rw [hrefs, hd] at hlife
          obtain ⟨x, hx⟩ := Option.isSome_iff_exists.mp (isSome_of_destroying hk hrefs)
          rcases hlife.sampled with ⟨x, hx, hle⟩ | hexp
          · exact ⟨x, hx, .inl hle⟩
          · exact ⟨x, hx, .inr hexp⟩
      · rw [hother t hmov] at hd
        exact ⟨⟨k, hd, .inl hfin⟩, ht.alone t k hd hfin⟩
    obtain ⟨⟨m, hm, hmfin⟩, hall⟩ := hall
    rcases destroys_before hk hs hu with hu' | ⟨rfl, hst⟩
    · exact hall u hu'
    · rcases hmfin with hmfin | rfl
      · exact absurd hmfin ((hg.start hst).2 t m hm)
      · rfl
  -- whoever destroys after the pool is gone has been alone before that step
  · intro o' ho' hpool t hd
    rw [ho'] at hlife
    rcases hlife.of_pool_destroyed hpool with ⟨x, hx, hp⟩ | ⟨hlast, haway⟩
    · rcases destroys_before hk hs hd with hd' | ⟨-, hst⟩
      · exact ht.gone x hx hp t hd'
      · simp [(hg.start hst).1 x hx] at hp
    · by_cases hmov : t = a.thread
      · subst hmov
        rw [haway] at hd
        exact hd
      · rw [hother t hmov] at hd
        exact hmov (ht.alone _ _ hlast trivial t hd)
  · intro k hfin hran
    rw [executions_cons] at hran
    by_cases hnow : (r.thread a.thread).stance b = .destroying k
    · exact destroying_onward hk hs hfin hnow le_rfl (.inr rfl)
    · rw [if_neg hnow] at hran
      rcases ht.past k hfin hran with ⟨t, m, hm, hrank⟩ | ⟨o, ho, hpool⟩
      · exact destroying_onward hk hs hfin hm hrank.le (.inl hrank)
      · obtain ⟨o', ho'⟩ := Option.isSome_iff_exists.mp (hlife.isSome (by simp [ho]))
        rw [ho, ho'] at hlife
        exact .inr ⟨o', ho', hlife.keep_pool_destroyed hpool⟩
  · intro k hfin
    rw [executions_cons]
    split_ifs with hnow
    · rw [ht.not_yet hfin hnow]
    · exact ht.once k hfin

omit [DecidableEq ν] in
theorem Retiring.init : Retiring b [] (Registry.init : Registry ν) := by
  constructor <;> simp [Registry.init, RegistryPc.stance, Stance.Destroys, executions]

/-- A broadcast is listed under its own name until its own deletion, and
`active_broadcasts` is the number of entries. -/
structure Listing (r : Registry ν) : Prop where
  known : r.Known
  keyed : Keyed r.g.broadcast_hash
  named : ∀ n b, (n, b) ∈ r.g.broadcast_hash → ∃ o, r.g.obj b = some o ∧ o.name = n
  listed : ∀ b o, r.g.obj b = some o → o.pool_destroyed = false →
    (∀ t k, (r.thread t).stance b = .destroying k → k.rank ≤ 6) → (o.name, b) ∈ r.g.broadcast_hash
  active : r.g.active_broadcasts = BitVec.ofNat 32 r.g.broadcast_hash.length

omit [DecidableEq ν] in
theorem Listing.init : Listing (Registry.init : Registry ν) where
  known := .init
  keyed := keyed_nil
  named := by simp [Registry.init]
  listed := by simp [Registry.init]
  active := rfl

omit [DecidableEq ν] in
/-- A thread about to delete finds its broadcast in the hash under its name. -/
theorem Listing.at_delete {o : Obj ν} {t : ℕ} (hl : Listing r) (ht : Retiring b h r)
    (hd : (r.thread t).stance b = .destroying .delete) (ho : r.g.obj b = some o) :
    (o.name, b) ∈ r.g.broadcast_hash := by
  have hdes : ((r.thread t).stance b).Destroys := Stance.destroys_iff.mpr ⟨_, hd⟩
  refine hl.listed b o ho ?_ fun u k hu => ?_
  · by_contra hp
    exact ht.gone o ho (by simpa using hp) t hdes
  · obtain rfl := ht.alone t _ hd trivial u (Stance.destroys_iff.mpr ⟨k, hu⟩)
    obtain rfl := Stance.destroying.inj (hd.symm.trans hu)
    exact le_rfl

/-- No step gives a broadcast another name. -/
theorem Listing.name_kept {o : Obj ν} (hl : Listing r) (hs : registryStep M r a = some r')
    (ho : r.g.obj b = some o) : ∃ o', r'.g.obj b = some o' ∧ o'.name = o.name := by
  have hlife := registryStep_life (b := b) hl.known hs
  obtain ⟨o', ho'⟩ := Option.isSome_iff_exists.mp (hlife.isSome (by simp [ho]))
  rw [ho, ho'] at hlife
  exact ⟨o', ho', hlife.name⟩

/-- A broadcast in the hash afterwards was listed before, unless it is new. -/
theorem Listing.listed_before {o o' : Obj ν} (hl : Listing r) (hs : registryStep M r a = some r')
    (ho : r.g.obj b = some o) (ho' : r'.g.obj b = some o') (hpool : o'.pool_destroyed = false)
    (hrank : ∀ t k, (r'.thread t).stance b = .destroying k → k.rank ≤ 6) :
    (o.name, b) ∈ r.g.broadcast_hash ∧ (r.thread a.thread).stance b ≠ .destroying .delete := by
  have hlife := registryStep_life (b := b) hl.known hs
  have final : ∀ k, (r.thread a.thread).stance b = .destroying k → k.rank < 6 := by
    intro k hk
    by_contra hge
    rw [hk] at hlife
    rcases hlife.advance (DestroyPhase.final_iff.mpr (by omega)) (by simp [ho]) with
      ⟨m, hm, hlt⟩ | ⟨x, hx, hp⟩
    · have := hrank _ m hm
      omega
    · obtain rfl := Option.some.inj (ho'.symm.trans hx)
      simp [hp] at hpool
  refine ⟨hl.listed b o ho ?_ fun t k hk => ?_, fun hd => absurd (final _ hd) (by decide)⟩
  · rw [ho, ho'] at hlife
    by_contra hp
    simp [hlife.keep_pool_destroyed (by simpa using hp)] at hpool
  · by_cases hmov : t = a.thread
    · exact (final k (hmov ▸ hk)).le
    · exact hrank t k (by rw [registryStep_other hs hmov, hk])

theorem Listing.same (hl : Listing r) (hs : registryStep M r a = some r')
    (hh : r'.g.broadcast_hash = r.g.broadcast_hash)
    (ha : r'.g.active_broadcasts = r.g.active_broadcasts)
    (hobj : ∀ b, (r'.g.obj b).isSome = (r.g.obj b).isSome) : Listing r' := by
  refine ⟨hl.known.step hs, hh ▸ hl.keyed, ?_, ?_, ?_⟩
  · intro n b hmem
    rw [hh] at hmem
    obtain ⟨o, ho, rfl⟩ := hl.named n b hmem
    exact hl.name_kept hs ho
  -- no object is new in this step
  · intro b o' ho' hpool hrank
    obtain ⟨o, ho⟩ := Option.isSome_iff_exists.mp (by rw [← hobj b, ho']; rfl)
    obtain ⟨o'', ho'', hn⟩ := hl.name_kept hs ho
    obtain rfl := Option.some.inj (ho'.symm.trans ho'')
    rw [hh, hn]
    exact (hl.listed_before hs ho ho' hpool hrank).1
  · rw [ha, hh]
    exact hl.active

theorem Listing.insert {n : ν} (hl : Listing r) (hs : registryStep M r a = some r')
    (hnew : r.g.find n = none)
    (hobj : r'.g.obj = Function.update r.g.obj b (some (.create n)))
    (hh : r'.g.broadcast_hash = (n, b) :: r.g.broadcast_hash)
    (ha : r'.g.active_broadcasts = r.g.active_broadcasts + 1) : Listing r' := by
  refine ⟨hl.known.step hs, ?_, ?_, ?_, ?_⟩
  · rw [hh]
    exact hl.keyed.cons (notMem_of_lookup hnew)
  · intro n' b' hmem
    rw [hh] at hmem
    rcases List.mem_cons.mp hmem with heq | hmem
    · obtain ⟨rfl, rfl⟩ := Prod.mk.inj heq
      exact ⟨.create n', by simp [hobj], rfl⟩
    · obtain ⟨o, ho, rfl⟩ := hl.named n' b' hmem
      exact hl.name_kept hs ho
  · intro b' o' ho' hpool hrank
    rw [hh]
    by_cases hb : b' = b
    · subst hb
      obtain rfl : Obj.create n = o' := by simpa [hobj] using ho'
      exact List.mem_cons_self ..
    · have ho : r.g.obj b' = some o' := by simpa [hobj, hb] using ho'
      exact List.mem_cons_of_mem _ (hl.listed_before hs ho ho' hpool hrank).1
  · rw [ha, hh, hl.active, List.length_cons, BitVec.ofNat_add]
    rfl

theorem Listing.delete {o : Obj ν} (hl : Listing r) (hs : registryStep M r a = some r')
    (hdel : (r.thread a.thread).stance b = .destroying .delete)
    (hmem : (o.name, b) ∈ r.g.broadcast_hash) (hobj : r'.g.obj = r.g.obj)
    (hh : r'.g.broadcast_hash = r.g.broadcast_hash.filter fun e => e.1 ≠ o.name)
    (ha : r'.g.active_broadcasts = r.g.active_broadcasts - 1) : Listing r' := by
  refine ⟨hl.known.step hs, ?_, ?_, ?_, ?_⟩
  · rw [hh]
    exact hl.keyed.filter _
  · intro n' b' hmem'
    rw [hh] at hmem'
    obtain ⟨o', ho', rfl⟩ := hl.named n' b' (List.mem_filter.mp hmem').1
    exact hl.name_kept hs ho'
  · intro b' o' ho' hpool hrank
    have hold : r.g.obj b' = some o' := by rw [← hobj, ho']
    obtain ⟨hmem', hnot⟩ := hl.listed_before hs hold ho' hpool hrank
    rw [hh]
    refine List.mem_filter.mpr ⟨hmem', ?_⟩
    -- two entries of one name are one entry, and that one is being deleted
    have hname : o'.name ≠ o.name := by
      intro hn
      rw [hn] at hmem'
      obtain rfl := hl.keyed.eq_of_mem hmem hmem'
      exact hnot hdel
    simpa using hname
  · have hlen := hl.keyed.length_remove hmem
    rw [ha, hh, hl.active, ← hlen, BitVec.ofNat_add]
    exact BitVec.add_sub_cancel ..

theorem Listing.step (hl : Listing r) (ht : ∀ b, Retiring b h r)
    (hs : registryStep M r a = some r') : Listing r' := by
  cases registryStep_hash hs with
  | same hh ha hobj => exact hl.same hs hh ha hobj
  | insert hnew _ hobj hh ha => exact hl.insert hs hnew hobj hh ha
  | @delete b all o hpc ho hobj hh ha =>
    have hdel : (r.thread a.thread).stance b = .destroying .delete := by
      simp [hpc, RegistryPc.stance]
    exact hl.delete hs hdel (hl.at_delete (ht b) hdel ho) hobj hh ha

/-- The broadcast that a step of `broadcast_destroy_ex`, or a call of it, is about. -/
def Registry.subject (r : Registry ν) (a : RegistryAction ν) : Option ℕ :=
  match r.thread a.thread, a.choice with
  | .hold b _, _ | .destroy b _ _, _ => some b
  | .sweep, .pick n => r.g.find n
  | _, _ => none

theorem Registry.StartsDestroy.subject (hs : r.StartsDestroy b a) : r.subject a = some b := by
  unfold Registry.StartsDestroy at hs
  unfold Registry.subject
  split at hs
  · next hpc _ => rw [hpc, hs]
  · next hpc hc =>
    rw [hpc, hc]
    exact hs
  · exact hs.elim

theorem Registry.subject_of_refs (hs : (r.thread a.thread).stance b = .destroying .refs) :
    r.subject a = some b := by
  unfold Registry.subject
  cases hpc : r.thread a.thread <;> rw [hpc] at hs <;> simp only [RegistryPc.stance] at hs <;>
    (try split_ifs at hs with hb) <;> simp_all

def finishesAloneTest (n : ℕ) (r : Registry ν) (a : RegistryAction ν) : Bool :=
  decide (a.thread < n ∧ ∀ b ∈ r.subject a,
    (r.StartsDestroy b a → (∀ o ∈ r.g.obj b, o.pool_destroyed = false) ∧
      ∀ t < n, ¬ ((r.thread t).stance b).Destroys) ∧
    ((r.thread a.thread).stance b = .destroying .refs →
      ∀ t < n, ((r.thread t).stance b).Destroys → t = a.thread))

theorem finishesAlone_of_test {n : ℕ} (hidle : ∀ t, n ≤ t → r.thread t = .idle)
    (ht : finishesAloneTest n r a) (b : ℕ) : FinishesAlone b r a := by
  obtain ⟨-, htest⟩ := of_decide_eq_true ht
  constructor
  · intro hs
    obtain ⟨hpool, hlt⟩ := (htest b hs.subject).1 hs
    refine ⟨fun o ho => hpool o ho, fun t k hk => absurd (Stance.destroys_iff.mpr ⟨k, hk⟩) ?_⟩
    exact Registry.forall_of_lt (P := fun _ pc => ¬ (pc.stance b).Destroys) hidle
      (by simp [RegistryPc.stance, Stance.Destroys]) hlt t
  · intro hs _
    exact Registry.forall_of_lt (P := fun t pc => (pc.stance b).Destroys → t = a.thread) hidle
      (by simp [RegistryPc.stance, Stance.Destroys]) ((htest b (Registry.subject_of_refs hs)).2 hs)

theorem meets_finishesAlone {n : ℕ} (hr : Run (registryStep M) Registry.init h r)
    (ht : Meets (fun r a => finishesAloneTest n r a) h) :
    Meets (fun r a => ∀ b, FinishesAlone b r a) h :=
  hr.meets_of_invariant (I := fun r => ∀ t, n ≤ t → r.thread t = .idle)
    (fun _ _ _ hidle ht hs => registryStep_idle hidle (of_decide_eq_true ht).1 hs)
    (fun _ _ _ hidle ht _ => finishesAlone_of_test hidle ht) ht (by simp [Registry.init])

/-- As long as no call of `broadcast_destroy_ex` leaves its wait while another one is
inside, every broadcast is torn down at most once: each part of its final phase is
executed at most once, a deletion by name removes its own entry, and
`active_broadcasts` is the number of broadcasts in the hash. -/
theorem single_teardown (hr : Run (registryStep M) Registry.init h r)
    (hg : Meets (fun r a => ∀ b, FinishesAlone b r a) h) :
    (∀ b k, k.Final → executions b k h ≤ 1) ∧
    Meets (fun r a => ∀ b o, (r.thread a.thread).stance b = .destroying .delete →
      r.g.obj b = some o → r.g.find o.name = some b) h ∧
    r.g.active_broadcasts = BitVec.ofNat 32 r.g.broadcast_hash.length := by
  have hstep : ∀ (h : List (Registry ν × RegistryAction ν)) s a t,
      (Listing s ∧ ∀ b, Retiring b h s) → (∀ b, FinishesAlone b s a) →
      registryStep M s a = some t → Listing t ∧ ∀ b, Retiring b ((s, a) :: h) t := by
    intro h s a t hi hga hs
    exact ⟨hi.1.step hi.2 hs, fun b => (hi.2 b).step hi.1.known (hga b) hs⟩
  have hinit : Listing (Registry.init : Registry ν) ∧
      ∀ b, Retiring b [] (Registry.init : Registry ν) :=
    ⟨.init, fun _ => .init⟩
  obtain ⟨hl, ht⟩ := hr.history_invariant (I := fun h r => Listing r ∧ ∀ b, Retiring b h r)
    hstep hg hinit
  refine ⟨fun b k hk => (ht b).once k hk, ?_, hl.active⟩
  refine hr.meets_of_history_invariant (I := fun h r => Listing r ∧ ∀ b, Retiring b h r)
    hstep ?_ hg hinit
  intro h s a t hi _ _ b o hd ho
  exact hi.1.keyed.lookup (hi.1.at_delete (hi.2 b) hd ho)

/-- A broadcast is destroyed and another one takes its name. -/
theorem single_teardown_reuse : ∃ (h : List (Registry ℕ × RegistryAction ℕ)) (r : Registry ℕ),
    Run (registryStep 1) Registry.init h r ∧ executions 0 .delete h = 1 ∧ r.g.find 0 = some 1 ∧
      (∀ b k, k.Final → executions b k h ≤ 1) ∧ r.g.active_broadcasts = 1 := by
  obtain ⟨h, r, hr, hm, hv⟩ := exists_run_observing (registryStep (ν := ℕ) 1) (finishesAloneTest 2)
    Registry.init
    [.join 0 0, .step 0 .go, .step 0 (.alloc 0), .step 0 .go, .step 0 .go,
      .command 1 0, .step 1 .go, .step 1 .go, .step 1 .go, .step 1 .go, .step 1 .go,
      .step 1 .destroy, .step 1 .go, .step 1 .go, .step 1 .go, .step 1 .go, .step 1 .go,
      .step 1 .go, .step 1 .go, .step 1 .go, .step 1 .go, .join 0 0, .step 0 .go, .step 0 (.alloc 1)]
    (fun h r => (executions 0 .delete h, r.g.find 0, r.g.broadcast_hash.length)) (v := (1, some 1, 1))
    (by decide)
  obtain ⟨hdel, hfind, hlen⟩ : _ ∧ _ ∧ _ := by simpa using hv
  obtain ⟨honce, -, hactive⟩ := single_teardown hr (meets_finishesAlone hr hm)
  exact ⟨h, r, hr, hdel, hfind, honce, by rw [hactive, hlen]; rfl⟩

/-- Two API threads destroy the same broadcast; both outwait the other.  The first
deletes it, its name is taken again, and the second deletes the successor. -/
theorem torn_down_twice : ¬ ∀ (h : List (Registry ℕ × RegistryAction ℕ)) (r : Registry ℕ),
    Run (registryStep 1) Registry.init h r → (∀ b k, k.Final → executions b k h ≤ 1) ∧
      Meets (fun r a => ∀ b o, (r.thread a.thread).stance b = .destroying .delete →
        r.g.obj b = some o → r.g.find o.name = some b) h ∧
      r.g.active_broadcasts = BitVec.ofNat 32 r.g.broadcast_hash.length := by
  refine not_forall_run (fun _ _ => true)
    [.join 0 0, .step 0 .go, .step 0 (.alloc 0), .step 0 .go, .step 0 .go,
      .command 1 0, .step 1 .go, .step 1 .go, .step 1 .go, .step 1 .go, .step 1 .go,
      .command 2 0, .step 2 .go, .step 2 .go, .step 2 .go, .step 2 .go, .step 2 .go,
      .step 1 .destroy, .step 1 .go, .step 1 .go, .step 1 .go, .step 1 .go,
      .step 2 .destroy, .step 2 .go, .step 2 .go, .step 2 .go, .step 2 .go,
      .step 1 .timeout, .step 1 .go, .step 1 .go,
      .join 0 0, .step 0 .go, .step 0 (.alloc 1), .step 0 .go,
      .step 1 .go, .step 1 .go, .step 2 .timeout, .step 2 .go, .step 2 .go]
    (fun h r => (executions 0 .delete h, r.g.find 0,
      (r.g.obj 1).map fun o => (o.name, o.destruct)))
    (v := (2, none, some (0, false))) (by decide) ?_
  intro h r _ _ hv hall
  obtain ⟨hdel, -⟩ := Prod.mk.inj hv
  have := hall.1 0 .delete trivial
  omega

end ModBroadcast
