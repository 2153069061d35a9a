import ModBroadcast.KeyedList
import ModBroadcast.Registry

namespace ModBroadcast

variable {ν : Type}

inductive Stance
  | away | testing | passed | bumped | seeding | holding
  | destroying (k : DestroyPhase)
  deriving DecidableEq

/-- The stance towards `b` of a thread at this place. -/
def RegistryPc.stance (b : ℕ) : RegistryPc ν → Stance
  | .found _ b' _ | .alive _ b' _ => if b' = b then .testing else .away
  | .passed b' _ => if b' = b then .passed else .away
  | .bumped b' _ => if b' = b then .bumped else .away
  | .seed b' => if b' = b then .seeding else .away
  | .hold b' _ => if b' = b then .holding else .away
  | .destroy b' _ k => if b' = b then .destroying k else .away
  | .idle | .lookup _ _ | .insert _ | .sweep => .away

def Stance.Holds : Stance → Prop
  | .bumped | .seeding | .holding | .destroying _ => True
  | .away | .testing | .passed => False

def Stance.Destroys : Stance → Prop
  | .destroying _ => True
  | _ => False

instance : DecidablePred Stance.Holds := by
  intro s
  cases s <;> unfold Stance.Holds <;> infer_instance

instance : DecidablePred Stance.Destroys := by
  intro s
  cases s <;> unfold Stance.Destroys <;> infer_instance

theorem Stance.destroys_iff {s : Stance} : s.Destroys ↔ ∃ k, s = .destroying k := by
  cases s <;> simp [Stance.Destroys]

theorem RegistryPc.holds_iff_stance {b : ℕ} {pc : RegistryPc ν} :
    pc.holds b ↔ (pc.stance b).Holds := by
  cases pc <;> simp only [RegistryPc.holds, RegistryPc.stance] <;> (try split_ifs with hb) <;>
    simp [Stance.Holds, *]

/-- One step as the object sees it: the object and the stance of the moving
thread, before and after.  `starts` holds when the step is a call of
`broadcast_destroy_ex`, `expires` when it is the expiry of a deadline. -/
inductive LifeStep (starts expires : Prop) :
    Option (Obj ν) → Stance → Option (Obj ν) → Stance → Prop
  | stay {o s} (hs : s = .away ∨ s = .testing ∨ s = .destroying .refs) :
      LifeStep starts expires o s o s
  | look {x} : LifeStep starts expires (some x) .away (some x) .testing
  | refuse {o} : LifeStep starts expires o .testing o .away
  | pass {x} (hd : x.destruct = false) :
      LifeStep starts expires (some x) .testing (some x) .passed
  | bump {x} : LifeStep starts expires (some x) .passed
      (some { x with live_refs := x.live_refs + 1 }) .bumped
  | pinned {o} : LifeStep starts expires o .bumped o .holding
  | create {n} : LifeStep starts expires none .away (some (.create n)) .seeding
  | seed {x} : LifeStep starts expires (some x) .seeding
      (some { x with live_refs := 1 }) .holding
  | release {x} : LifeStep starts expires (some x) .holding
      (some { x with live_refs := x.live_refs - 1 }) .away
  | start {o} (h : starts) : LifeStep starts expires o .holding o (.destroying .destruct)
  | sweep {x} (h : starts) : LifeStep starts expires (some x) .away
      (some { x with live_refs := x.live_refs + 1 }) (.destroying .destruct)
  | destruct {x} : LifeStep starts expires (some x) (.destroying .destruct)
      (some { x with destruct := true }) (.destroying .grace)
  | grace {o} : LifeStep starts expires o (.destroying .grace) o (.destroying .mark)
  | mark {x} : LifeStep starts expires (some x) (.destroying .mark)
      (some { x with destroyed := true }) (.destroying .members)
  | members {o} : LifeStep starts expires o (.destroying .members) o (.destroying .refs)
  | sample {x} (hx : x.live_refs ≤ 1) :
      LifeStep starts expires (some x) (.destroying .refs) (some x) (.destroying .join)
  | timeout {o} (h : expires) : LifeStep starts expires o (.destroying .refs) o (.destroying .join)
  | join {x} : LifeStep starts expires (some x) (.destroying .join)
      (some { x with producer_thread := false }) (.destroying .delete)
  | delete {o} : LifeStep starts expires o (.destroying .delete) o (.destroying .fire)
  | fire {o} : LifeStep starts expires o (.destroying .fire) o (.destroying .pool)
  | pool {x} : LifeStep starts expires (some x) (.destroying .pool)
      (some { x with pool_destroyed := true }) .away

theorem LifeStep.isSome {starts expires : Prop} {o o' : Option (Obj ν)} {s s' : Stance}
    (h : LifeStep starts expires o s o' s') (ho : o.isSome) : o'.isSome := by
  cases h <;> first | exact ho | rfl

theorem LifeStep.isSome_of_stance {starts expires : Prop} {o o' : Option (Obj ν)} {s s' : Stance}
    (h : LifeStep starts expires o s o' s') (hs : s ≠ .away → o.isSome) (hs' : s' ≠ .away) :
    o'.isSome := by
  by_cases haway : s = .away
  · cases h <;> simp_all
  · exact h.isSome (hs haway)

/-- The phases of `broadcast_destroy_ex` after its wait for the references. -/
def DestroyPhase.Final : DestroyPhase → Prop
  | .join | .delete | .fire | .pool => True
  | _ => False

def DestroyPhase.rank : DestroyPhase → ℕ
  | .destruct => 0
  | .grace => 1
  | .mark => 2
  | .members => 3
  | .refs => 4
  | .join => 5
  | .delete => 6
  | .fire => 7
  | .pool => 8

theorem DestroyPhase.final_iff {k : DestroyPhase} : k.Final ↔ 5 ≤ k.rank := by
  cases k <;> simp [DestroyPhase.Final, DestroyPhase.rank]

section Spec

variable {starts expires : Prop} {o o' : Option (Obj ν)} {x x' : Obj ν} {s s' : Stance}
  {k : DestroyPhase}

theorem LifeStep.of_destroying (h : LifeStep starts expires o s o' s')
    (hs : s' = .destroying k) : (∃ m, s = .destroying m) ∨ starts ∧ k = .destruct := by
  subst hs
  cases h with
  | start hst | sweep hst => exact .inr ⟨hst, rfl⟩
  | _ => exact .inl ⟨_, rfl⟩

theorem LifeStep.of_final (h : LifeStep starts expires o s o' s') (hs : s' = .destroying k)
    (hk : k.Final) : (∃ m, s = .destroying m ∧ m.Final) ∨ s = .destroying .refs ∧ k = .join := by
  subst hs
  cases h with
  | stay => exact .inl ⟨_, rfl, hk⟩
  | sample | timeout => exact .inr ⟨rfl, rfl⟩
  | join | delete | fire => exact .inl ⟨_, rfl, trivial⟩
  | _ => cases hk

/-- Once the flag is set, a reference is taken only by a thread that has passed the
test of the flag, or by `broadcast_destroy_all`. -/
theorem LifeStep.closed (h : LifeStep starts expires (some x) s o' s') (hx : x.destruct = true)
    (hs : s ≠ .passed) (hstart : ¬ starts) : s' ≠ .passed ∧ (s'.Holds → s.Holds) := by
  cases h with
  | stay => exact ⟨hs, id⟩
  | pass hd => simp [hx] at hd
  | bump => exact absurd rfl hs
  | sweep hst => exact absurd hst hstart
  | look | refuse | release | pool => exact ⟨by simp, fun hh => hh.elim⟩
  | _ => exact ⟨by simp, fun _ => trivial⟩

/-- The flag is set behind the first phase and never cleared. -/
theorem LifeStep.destruct_of (h : LifeStep starts expires (some x) s (some x') s')
    (hx : x.destruct = true ∨ s = .destroying .destruct ∧ s' ≠ s) : x'.destruct = true := by
  cases h with
  | destruct => rfl
  | _ => simp_all

theorem LifeStep.of_pool_destroyed (h : LifeStep starts expires o s (some x') s')
    (hx : x'.pool_destroyed = true) :
    (∃ x, o = some x ∧ x.pool_destroyed = true) ∨ s = .destroying .pool ∧ s' = .away := by
  cases h with
  | create => cases hx
  | pool => exact .inr ⟨rfl, rfl⟩
  | _ => exact .inl ⟨_, rfl, hx⟩

theorem LifeStep.of_seeding (h : LifeStep starts expires o s o' s') (hs : s' = .seeding) :
    o = none := by
  subst hs
  cases h with
  | stay hne => simp at hne
  | create => rfl

theorem LifeStep.seeding_of_new (h : LifeStep starts expires none s (some x') s') :
    s' = .seeding := by
  cases h
  rfl

theorem LifeStep.sampled
    (h : LifeStep starts expires o (.destroying .refs) o' (.destroying .join)) :
    (∃ x, o = some x ∧ x.live_refs ≤ 1) ∨ expires := by
  cases h with
  | sample hx => exact .inl ⟨_, rfl, hx⟩
  | timeout he => exact .inr he

/-- Every phase of the final part goes on to a later one, or destroys the pool. -/
theorem LifeStep.advance (h : LifeStep starts expires o (.destroying k) o' s') (hk : k.Final)
    (ho : o.isSome) :
    (∃ m, s' = .destroying m ∧ k.rank < m.rank) ∨
      ∃ x', o' = some x' ∧ x'.pool_destroyed = true := by
  cases h with
  | stay hs =>
    obtain rfl : k = .refs := by simpa using hs
    cases hk
  | join | delete | fire => exact .inl ⟨_, rfl, by decide⟩
  | pool => exact .inr ⟨_, rfl, rfl⟩
  | _ => cases hk

theorem LifeStep.name (h : LifeStep starts expires (some x) s (some x') s') : x'.name = x.name := by
  cases h <;> rfl

theorem LifeStep.keep_pool_destroyed (h : LifeStep starts expires (some x) s (some x') s')
    (hx : x.pool_destroyed = true) : x'.pool_destroyed = true := by
  cases h <;> first | exact hx | rfl

end Spec

section

variable {g g' : Globals ν} {pc pc' : RegistryPc ν} {b : ℕ} {M : ℕ}

@[simp] theorem Globals.modify_self (g : Globals ν) (b : ℕ) (f : Obj ν → Obj ν) :
    (g.modify b f).obj b = (g.obj b).map f := by
  simp [Globals.modify]

@[simp] theorem Globals.modify_ne (g : Globals ν) {b b' : ℕ} (h : b' ≠ b) (f : Obj ν → Obj ν) :
    (g.modify b f).obj b' = g.obj b' := by
  simp [Globals.modify, h]

theorem Globals.isSome_modify (g : Globals ν) (b b' : ℕ) (f : Obj ν → Obj ν) :
    ((g.modify b f).obj b').isSome = (g.obj b').isSome := by
  by_cases h : b' = b
  · simp [h]
  · rw [g.modify_ne h]

@[simp] theorem Globals.miss_obj (g : Globals ν) (n : ν) (api : Bool) :
    (g.miss n api).1.obj = g.obj := rfl

@[simp] theorem Globals.miss_stance (g : Globals ν) (n : ν) (api : Bool) (b : ℕ) :
    (g.miss n api).2.stance b = .away := by
  cases api <;> rfl

/-- Every object that the hash or a thread names has been created. -/
structure Registry.Known (r : Registry ν) : Prop where
  hash : ∀ e ∈ r.g.broadcast_hash, (r.g.obj e.2).isSome
  thread : ∀ t b, (r.thread t).stance b ≠ .away → (r.g.obj b).isSome

theorem Registry.Known.init : (Registry.init : Registry ν).Known where
  hash := by simp [Registry.init]
  thread := by simp [Registry.init, RegistryPc.stance]

/-- A step that applies `f` to one object is a life step for every object as soon
as it is one for that object. -/
theorem LifeStep.of_modify {starts expires : Prop} {b' : ℕ} {f : Obj ν → Obj ν}
    (hself : ∀ x, b = b' →
      LifeStep starts expires (some x) (pc.stance b') (some (f x)) (pc'.stance b'))
    (hk : (g.obj b').isSome)
    (hne : b ≠ b' → pc.stance b = .away ∧ pc'.stance b = .away) :
    LifeStep starts expires (g.obj b) (pc.stance b) ((g.modify b' f).obj b) (pc'.stance b) := by
  by_cases hb : b = b'
  · subst hb
    obtain ⟨x, hx⟩ := Option.isSome_iff_exists.mp hk
    rw [Globals.modify_self, hx]
    exact hself x rfl
  · obtain ⟨h, h'⟩ := hne hb
    rw [Globals.modify_ne g hb, h, h']
    exact .stay (by simp)

variable [DecidableEq ν]

theorem findAndRef_life {starts expires : Prop}
    (hhash : ∀ e ∈ g.broadcast_hash, (g.obj e.2).isSome)
    (hk : ∀ b, pc.stance b ≠ .away → (g.obj b).isSome) (h : findAndRef g pc = some (g', pc')) :
    LifeStep starts expires (g.obj b) (pc.stance b) (g'.obj b) (pc'.stance b) := by
  cases pc with
  | lookup n api =>
    simp only [findAndRef] at h
    split at h <;> obtain ⟨rfl, rfl⟩ := Prod.mk.inj (Option.some.inj h)
    · cases api <;> exact .stay (by simp [RegistryPc.stance])
    · next b' hb' =>
      simp only [RegistryPc.stance]
      split_ifs with hb
      · subst hb
        obtain ⟨x, hx⟩ := Option.isSome_iff_exists.mp (hhash _ (KeyedList.lookup_mem hb'))
        rw [hx]
        exact .look
      · exact .stay (by simp)
  | found n b' api =>
    obtain ⟨o, ho, hres⟩ := Option.map_eq_some_iff.mp h
    split at hres <;> obtain rfl := congrArg Prod.fst hres <;> obtain rfl := congrArg Prod.snd hres
    · simp only [Globals.miss_obj, Globals.miss_stance]
      simp only [RegistryPc.stance]
      split_ifs
      · exact .refuse
      · exact .stay (by simp)
    · simp only [RegistryPc.stance]
      split_ifs <;> exact .stay (by simp)
  | alive n b' api =>
    obtain ⟨o, ho, hres⟩ := Option.map_eq_some_iff.mp h
    split at hres <;> obtain rfl := congrArg Prod.fst hres <;> obtain rfl := congrArg Prod.snd hres
    · simp only [Globals.miss_obj, Globals.miss_stance]
      simp only [RegistryPc.stance]
      split_ifs
      · exact .refuse
      · exact .stay (by simp)
    · next hd =>
      simp only [RegistryPc.stance]
      split_ifs with hb
      · subst hb
        rw [ho]
        exact .pass (by simpa using hd)
      · exact .stay (by simp)
  | passed b' api =>
    obtain ⟨rfl, rfl⟩ : _ ∧ _ := by simpa [findAndRef] using h
    refine .of_modify (fun x _ => ?_) (hk b' (by simp [RegistryPc.stance])) fun hb => ?_
    · simpa [RegistryPc.stance] using LifeStep.bump
    · simp [RegistryPc.stance, Ne.symm hb]
  | bumped b' api =>
    obtain ⟨rfl, rfl⟩ : _ ∧ _ := by simpa [findAndRef] using h
    simp only [RegistryPc.stance]
    split_ifs
    · exact .pinned
    · exact .stay (by simp)
  | _ => simp [findAndRef] at h

theorem createInsert_life {starts expires : Prop} {n : ν} {b' : ℕ}
    (h : createInsert M g n b' = some (g', pc')) :
    LifeStep starts expires (g.obj b) .away (g'.obj b) (pc'.stance b) := by
  simp only [createInsert] at h
  split_ifs at h with hfree hfull <;> obtain ⟨rfl, rfl⟩ := Prod.mk.inj (Option.some.inj h)
  · exact .stay (by simp)
  · by_cases hb : b = b'
    · subst hb
      have hnew : g.obj b = none := by
        simpa using fun hs => hfree (.inr hs)
      simp only [hnew, Function.update_self, RegistryPc.stance, if_true]
      exact .create
    · simp only [Function.update_of_ne hb, RegistryPc.stance, if_neg (Ne.symm hb)]
      exact .stay (by simp)

theorem destroyEx_life {starts expires : Prop} {b' : ℕ} {all : Bool} {c : RegistryChoice ν}
    {k : DestroyPhase} (hk : (g.obj b').isSome) (hexp : c = .timeout → expires)
    (h : destroyEx g b' all c k = some (g', pc')) :
    LifeStep starts expires (g.obj b) ((RegistryPc.destroy b' all k : RegistryPc ν).stance b)
      (g'.obj b) (pc'.stance b) := by
  have away : b ≠ b' → ∀ k, ((RegistryPc.destroy b' all k : RegistryPc ν).stance b) = .away := by
    intro hb k
    simp [RegistryPc.stance, Ne.symm hb]
  have self : ∀ k, ((RegistryPc.destroy b' all k : RegistryPc ν).stance b') = .destroying k := by
    intro k
    simp [RegistryPc.stance]
  have hidle : ∀ b, (if all then RegistryPc.sweep else RegistryPc.idle : RegistryPc ν).stance b =
      .away := by
    cases all <;> exact fun _ => rfl
  -- a phase that leaves the object alone: only its own stance changes
  have quiet : ∀ {k k'}, LifeStep starts expires (g.obj b') (.destroying k) (g.obj b')
      (.destroying k') → LifeStep starts expires (g.obj b)
        ((RegistryPc.destroy b' all k : RegistryPc ν).stance b) (g.obj b)
        ((RegistryPc.destroy b' all k' : RegistryPc ν).stance b) := by
    intro k k' hlife
    by_cases hb : b = b'
    · subst hb
      rwa [self, self]
    · rw [away hb, away hb]
      exact .stay (by simp)
  cases k with
  | destruct =>
    obtain ⟨rfl, rfl⟩ : _ ∧ _ := by simpa [destroyEx] using h
    exact .of_modify (fun x _ => by rw [self, self]; exact .destruct) hk
      fun hb => ⟨away hb _, away hb _⟩
  | grace =>
    obtain ⟨rfl, rfl⟩ : _ ∧ _ := by simpa [destroyEx] using h
    exact quiet .grace
  | mark =>
    obtain ⟨rfl, rfl⟩ : _ ∧ _ := by simpa [destroyEx] using h
    exact .of_modify (fun x _ => by rw [self, self]; exact .mark) hk
      fun hb => ⟨away hb _, away hb _⟩
  | members =>
    obtain ⟨rfl, rfl⟩ : _ ∧ _ := by simpa [destroyEx] using h
    exact quiet .members
  | refs =>
    obtain ⟨x, hx⟩ := Option.isSome_iff_exists.mp hk
    simp only [destroyEx, hx] at h
    split_ifs at h with hpass <;> obtain ⟨rfl, rfl⟩ := Prod.mk.inj (Option.some.inj h)
    · apply quiet
      rcases hpass with hle | htime
      · rw [hx]
        exact .sample hle
      · exact .timeout (hexp htime)
    · exact quiet (.stay (by simp))
  | join =>
    obtain ⟨rfl, rfl⟩ : _ ∧ _ := by simpa [destroyEx] using h
    exact .of_modify (fun x _ => by rw [self, self]; exact .join) hk
      fun hb => ⟨away hb _, away hb _⟩
  | delete =>
    obtain ⟨x, hx⟩ := Option.isSome_iff_exists.mp hk
    simp only [destroyEx, hx] at h
    split_ifs at h
    obtain ⟨rfl, rfl⟩ := Prod.mk.inj (Option.some.inj h)
    exact quiet .delete
  | fire =>
    obtain ⟨rfl, rfl⟩ : _ ∧ _ := by simpa [destroyEx] using h
    exact quiet .fire
  | pool =>
    obtain ⟨rfl, rfl⟩ : _ ∧ _ := by simpa [destroyEx] using h
    exact .of_modify (fun x _ => by rw [self, hidle]; exact .pool) hk
      fun hb => ⟨away hb _, hidle b⟩

end

def RegistryAction.thread : RegistryAction ν → ℕ
  | .join t _ | .command t _ | .shutdown t | .step t _ => t

def RegistryAction.choice : RegistryAction ν → RegistryChoice ν
  | .step _ c => c
  | _ => .go

variable [DecidableEq ν] {r r' : Registry ν} {a : RegistryAction ν} {M : ℕ} {b : ℕ}

/-- The step calls `broadcast_destroy_ex` on `b`: an API command that holds `b`,
or the next round of `broadcast_destroy_all`. -/
def Registry.StartsDestroy (b : ℕ) (r : Registry ν) (a : RegistryAction ν) : Prop :=
  match r.thread a.thread, a.choice with
  | .hold b' true, .destroy => b' = b
  | .sweep, .pick n => r.g.find n = some b
  | _, _ => False

instance (b : ℕ) (r : Registry ν) (a : RegistryAction ν) : Decidable (r.StartsDestroy b a) := by
  unfold Registry.StartsDestroy
  split <;> infer_instance

theorem registryThread_life {x : Globals ν × RegistryPc ν} {t : ℕ} {c : RegistryChoice ν}
    (hr : r.Known) (h : registryThread M r.g c (r.thread t) = some x) :
    LifeStep (r.StartsDestroy b (.step t c)) (c = .timeout) (r.g.obj b) ((r.thread t).stance b)
      (x.1.obj b) (x.2.stance b) := by
  have hk := hr.thread t
  have hstart : ∀ b', r.thread t = .hold b' true ∧ c = .destroy →
      r.StartsDestroy b' (.step t c) := by
    rintro b' ⟨hb, rfl⟩
    simp [Registry.StartsDestroy, RegistryAction.thread, RegistryAction.choice, hb]
  have hsweep : ∀ n b', r.thread t = .sweep ∧ c = .pick n ∧ r.g.find n = some b' →
      r.StartsDestroy b' (.step t c) := by
    rintro n b' ⟨hb, rfl, hf⟩
    simp [Registry.StartsDestroy, RegistryAction.thread, RegistryAction.choice, hb, hf]
  obtain ⟨g', pc'⟩ := x
  generalize r.thread t = pc at *
  cases pc with
  | idle => simp [registryThread] at h
  | insert n =>
    cases c with
    | fail =>
      obtain ⟨rfl, rfl⟩ : _ ∧ _ := by simpa [registryThread] using h
      exact .stay (by simp [RegistryPc.stance])
    | alloc b' => exact createInsert_life h
    | _ => simp [registryThread] at h
  | seed b' =>
    obtain ⟨rfl, rfl⟩ : _ ∧ _ := by simpa [registryThread] using h
    refine .of_modify (fun x _ => ?_) (hk b' (by simp [RegistryPc.stance])) fun hb => ?_
    · simpa [RegistryPc.stance] using LifeStep.seed
    · simp [RegistryPc.stance, Ne.symm hb]
  | hold b' api =>
    simp only [registryThread] at h
    split_ifs at h with hd <;> obtain ⟨rfl, rfl⟩ := Prod.mk.inj (Option.some.inj h)
    · simp only [RegistryPc.stance]
      split_ifs with hb
      · subst hb
        exact .start (hstart b' ⟨by rw [hd.2], hd.1⟩)
      · exact .stay (by simp)
    · refine .of_modify (fun x _ => ?_) (hk b' (by simp [RegistryPc.stance])) fun hb => ?_
      · simpa [RegistryPc.stance] using LifeStep.release
      · simp [RegistryPc.stance, Ne.symm hb]
  | destroy b' all k =>
    exact destroyEx_life (hk b' (by simp [RegistryPc.stance])) id h
  | sweep =>
    cases c with
    | pick n =>
      simp only [registryThread] at h
      split_ifs at h
      obtain ⟨b', hb', hres⟩ := Option.map_eq_some_iff.mp h
      obtain ⟨rfl, rfl⟩ := Prod.mk.inj hres
      refine .of_modify (fun x hb => ?_) (hr.hash _ (KeyedList.lookup_mem hb')) fun hb => ?_
      · subst hb
        have hs : r.StartsDestroy b (.step t (.pick n)) := hsweep n b ⟨rfl, rfl, hb'⟩
        simpa [RegistryPc.stance] using LifeStep.sweep hs
      · simp [RegistryPc.stance, Ne.symm hb]
    | _ =>
      simp only [registryThread] at h
      split_ifs at h
      obtain ⟨rfl, rfl⟩ := Prod.mk.inj (Option.some.inj h)
      exact .stay (by simp [RegistryPc.stance])
  | _ => exact findAndRef_life hr.hash hk h

theorem registryStep_other {t : ℕ} (h : registryStep M r a = some r') (ht : t ≠ a.thread) :
    r'.thread t = r.thread t := by
  have enter : ∀ u pc, t ≠ u → r.enter u pc = some r' → r'.thread t = r.thread t := by
    intro u pc hu h
    simp only [Registry.enter] at h
    split_ifs at h
    obtain rfl := Option.some.inj h
    exact Function.update_of_ne hu _ _
  cases a with
  | join u n => exact enter u _ ht h
  | command u n => exact enter u _ ht h
  | shutdown u => exact enter u _ ht h
  | step u c =>
    obtain ⟨x, hx, rfl⟩ := Option.map_eq_some_iff.mp h
    exact Function.update_of_ne ht _ _

/-- A step of the registry, seen from `b`. -/
theorem registryStep_life (hr : r.Known) (h : registryStep M r a = some r') :
    LifeStep (r.StartsDestroy b a) (a.choice = .timeout) (r.g.obj b)
      ((r.thread a.thread).stance b) (r'.g.obj b) ((r'.thread a.thread).stance b) := by
  have enter : ∀ t pc, pc.stance b = .away → r.enter t pc = some r' →
      LifeStep (r.StartsDestroy b a) (a.choice = .timeout) (r.g.obj b) ((r.thread t).stance b)
        (r'.g.obj b) ((r'.thread t).stance b) := by
    intro t pc hpc h
    simp only [Registry.enter] at h
    split_ifs at h with hidle
    obtain rfl := Option.some.inj h
    simp only [hidle, Function.update_self, hpc]
    exact .stay (by simp [RegistryPc.stance])
  cases a with
  | join t n => exact enter t _ rfl h
  | command t n => exact enter t _ rfl h
  | shutdown t => exact enter t _ rfl h
  | step t c =>
    obtain ⟨x, hx, rfl⟩ := Option.map_eq_some_iff.mp h
    simp only [RegistryAction.thread, Function.update_self]
    exact registryThread_life hr hx

/-- What a step does to `broadcast_hash` and to `active_broadcasts`. -/
inductive HashStep (g : Globals ν) (pc : RegistryPc ν) (g' : Globals ν) : Prop
  | same (hh : g'.broadcast_hash = g.broadcast_hash)
      (ha : g'.active_broadcasts = g.active_broadcasts)
      (hobj : ∀ b, (g'.obj b).isSome = (g.obj b).isSome) : HashStep g pc g'
  | insert {n : ν} {b : ℕ} (hnew : g.find n = none) (hfree : g.obj b = none)
      (hobj : g'.obj = Function.update g.obj b (some (.create n)))
      (hh : g'.broadcast_hash = (n, b) :: g.broadcast_hash)
      (ha : g'.active_broadcasts = g.active_broadcasts + 1) : HashStep g pc g'
  | delete {b : ℕ} {all : Bool} {o : Obj ν} (hpc : pc = .destroy b all .delete)
      (ho : g.obj b = some o) (hobj : g'.obj = g.obj)
      (hh : g'.broadcast_hash = g.broadcast_hash.filter fun e => e.1 ≠ o.name)
      (ha : g'.active_broadcasts = g.active_broadcasts - 1) : HashStep g pc g'

theorem HashStep.modify (g : Globals ν) (pc : RegistryPc ν) (b : ℕ) (f : Obj ν → Obj ν) :
    HashStep g pc (g.modify b f) := .same rfl rfl fun b' => g.isSome_modify b b' f

theorem findAndRef_hash {g g' : Globals ν} {pc pc' : RegistryPc ν}
    (h : findAndRef g pc = some (g', pc')) : HashStep g pc g' := by
  have miss : ∀ n api, HashStep g pc (g.miss n api).1 := fun n api => .same rfl rfl fun _ => rfl
  cases pc with
  | lookup n api =>
    simp only [findAndRef] at h
    split at h <;> obtain ⟨rfl, rfl⟩ := Prod.mk.inj (Option.some.inj h) <;> exact .same rfl rfl fun _ => rfl
  | found n b api =>
    obtain ⟨o, -, hres⟩ := Option.map_eq_some_iff.mp h
    split at hres <;> obtain rfl := congrArg Prod.fst hres
    · exact miss n api
    · exact .same rfl rfl fun _ => rfl
  | alive n b api =>
    obtain ⟨o, -, hres⟩ := Option.map_eq_some_iff.mp h
    split at hres <;> obtain rfl := congrArg Prod.fst hres
    · exact miss n api
    · exact .same rfl rfl fun _ => rfl
  | passed b api =>
    obtain ⟨rfl, -⟩ : _ ∧ _ := by simpa [findAndRef] using h
    exact .modify ..
  | bumped b api =>
    obtain ⟨rfl, -⟩ : _ ∧ _ := by simpa [findAndRef] using h
    exact .same rfl rfl fun _ => rfl
  | _ => simp [findAndRef] at h

theorem createInsert_hash {g g' : Globals ν} {pc' : RegistryPc ν} {n : ν} {b : ℕ}
    (pc : RegistryPc ν) (h : createInsert M g n b = some (g', pc')) : HashStep g pc g' := by
  simp only [createInsert] at h
  split_ifs at h with hfree hfull <;> obtain ⟨rfl, rfl⟩ := Prod.mk.inj (Option.some.inj h)
  · exact .same rfl rfl fun _ => rfl
  · have hnew : g.find n = none := by
      simpa using fun hs => hfull (.inl hs)
    have hobj : g.obj b = none := by
      simpa using fun hs => hfree (.inr hs)
    exact .insert hnew hobj rfl rfl rfl

theorem destroyEx_hash {g g' : Globals ν} {pc' : RegistryPc ν} {b : ℕ} {all : Bool}
    {c : RegistryChoice ν} {k : DestroyPhase} (h : destroyEx g b all c k = some (g', pc')) :
    HashStep g (.destroy b all k) g' := by
  cases k with
  | delete =>
    cases ho : g.obj b with
    | none => simp [destroyEx, ho] at h
    | some o =>
      simp only [destroyEx, ho] at h
      split_ifs at h
      obtain ⟨rfl, rfl⟩ := Prod.mk.inj (Option.some.inj h)
      exact .delete rfl ho rfl rfl rfl
  | refs =>
    cases ho : g.obj b with
    | none => simp [destroyEx, ho] at h
    | some o =>
      simp only [destroyEx, ho] at h
      split_ifs at h <;> obtain ⟨rfl, rfl⟩ := Prod.mk.inj (Option.some.inj h) <;>
        exact .same rfl rfl fun _ => rfl
  | destruct | mark | join | pool =>
    obtain ⟨rfl, -⟩ : _ ∧ _ := by simpa [destroyEx] using h
    exact .modify ..
  | grace | members | fire =>
    obtain ⟨rfl, -⟩ : _ ∧ _ := by simpa [destroyEx] using h
    exact .same rfl rfl fun _ => rfl

theorem registryThread_hash {g g' : Globals ν} {pc pc' : RegistryPc ν} {c : RegistryChoice ν}
    (h : registryThread M g c pc = some (g', pc')) : HashStep g pc g' := by
  cases pc with
  | idle => simp [registryThread] at h
  | insert n =>
    cases c with
    | fail =>
      obtain ⟨rfl, -⟩ : _ ∧ _ := by simpa [registryThread] using h
      exact .same rfl rfl fun _ => rfl
    | alloc b => exact createInsert_hash _ h
    | _ => simp [registryThread] at h
  | seed b =>
    obtain ⟨rfl, -⟩ : _ ∧ _ := by simpa [registryThread] using h
    exact .modify ..
  | hold b api =>
    simp only [registryThread] at h
    split_ifs at h <;> obtain ⟨rfl, rfl⟩ := Prod.mk.inj (Option.some.inj h)
    · exact .same rfl rfl fun _ => rfl
    · exact .modify ..
  | destroy b all k => exact destroyEx_hash h
  | sweep =>
    cases c with
    | pick n =>
      simp only [registryThread] at h
      split_ifs at h
      obtain ⟨b, -, hres⟩ := Option.map_eq_some_iff.mp h
      obtain ⟨rfl, rfl⟩ := Prod.mk.inj hres
      exact .modify ..
    | _ =>
      simp only [registryThread] at h
      split_ifs at h
      obtain ⟨rfl, rfl⟩ := Prod.mk.inj (Option.some.inj h)
      exact .same rfl rfl fun _ => rfl
  | _ => exact findAndRef_hash h

theorem registryStep_hash (h : registryStep M r a = some r') :
    HashStep r.g (r.thread a.thread) r'.g := by
  have enter : ∀ t pc, r.enter t pc = some r' → HashStep r.g (r.thread a.thread) r'.g := by
    intro t pc h
    simp only [Registry.enter] at h
    split_ifs at h
    obtain rfl := Option.some.inj h
    exact .same rfl rfl fun _ => rfl
  cases a with
  | join t n => exact enter t _ h
  | command t n => exact enter t _ h
  | shutdown t => exact enter t _ h
  | step t c =>
    obtain ⟨⟨g', pc'⟩, hx, rfl⟩ := Option.map_eq_some_iff.mp h
    exact registryThread_hash hx

theorem Registry.Known.step (hr : r.Known) (h : registryStep M r a = some r') : r'.Known where
  hash e he := by
    have keep : ∀ e ∈ r.g.broadcast_hash, (r'.g.obj e.2).isSome := fun e he =>
      (registryStep_life hr h).isSome (hr.hash e he)
    cases registryStep_hash h with
    | same hh =>
      rw [hh] at he
      exact keep e he
    | insert hnew hfree hobj hh =>
      rw [hh] at he
      rcases List.mem_cons.mp he with rfl | he
      · simp [hobj]
      · exact keep e he
    | delete hpc ho hobj hh =>
      rw [hh] at he
      exact keep e (List.mem_filter.mp he).1
  thread t b hs := by
    have hlife := registryStep_life (b := b) hr h
    by_cases ht : t = a.thread
    · subst ht
      exact hlife.isSome_of_stance (hr.thread _ b) hs
    · rw [registryStep_other h ht] at hs
      exact hlife.isSome (hr.thread t b hs)

end ModBroadcast
