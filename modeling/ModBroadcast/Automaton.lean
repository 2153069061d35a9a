import Mathlib.Data.List.Basic
import Mathlib.Tactic.SplitIfs

namespace Automaton

variable {σ τ α β : Type*} {step : σ → α → Option σ} {s t : σ} {h : List (σ × α)}

/-- `Run step s h t`: the steps of `h` lead from `s` to `t`.  The history lists
each action with the state it was taken in, the latest first. -/
inductive Run (step : σ → α → Option σ) (s : σ) : List (σ × α) → σ → Prop
  | nil : Run step s [] s
  | snoc {h t a u} (run : Run step s h t) (enabled : step t a = some u) :
      Run step s ((t, a) :: h) u

def Meets (g : σ → α → Prop) (h : List (σ × α)) : Prop := ∀ p ∈ h, g p.1 p.2

@[simp] theorem meets_nil (g : σ → α → Prop) : Meets g [] := by
  intro p hp
  cases hp

@[simp] theorem meets_cons {g : σ → α → Prop} {a : α} :
    Meets g ((s, a) :: h) ↔ g s a ∧ Meets g h := by
  simp [Meets]

theorem meets_append {g : σ → α → Prop} {h h' : List (σ × α)} :
    Meets g (h ++ h') ↔ Meets g h ∧ Meets g h' := List.forall_mem_append

theorem Meets.mono {g g' : σ → α → Prop} (hg : ∀ s a, g s a → g' s a) (hm : Meets g h) :
    Meets g' h := fun p hp => hg p.1 p.2 (hm p hp)

theorem Meets.and {g g' : σ → α → Prop} (hm : Meets g h) (hm' : Meets g' h) :
    Meets (fun s a => g s a ∧ g' s a) h := fun p hp => ⟨hm p hp, hm' p hp⟩

/-- An invariant that also speaks about the steps taken so far. -/
theorem Run.history_invariant {I : List (σ × α) → σ → Prop} {g : σ → α → Prop}
    (hstep : ∀ h s a t, I h s → g s a → step s a = some t → I ((s, a) :: h) t)
    (hr : Run step s h t) (hm : Meets g h) (hs : I [] s) : I h t := by
  induction hr with
  | nil => exact hs
  | snoc run enabled ih =>
    rw [meets_cons] at hm
    exact hstep _ _ _ _ (ih hm.2) hm.1 enabled

/-- What the initial state satisfies and every step meeting `g` keeps holds in
every state that a run of such steps reaches. -/
theorem Run.invariant {I : σ → Prop} {g : σ → α → Prop}
    (hstep : ∀ s a t, I s → g s a → step s a = some t → I t)
    (hr : Run step s h t) (hm : Meets g h) (hs : I s) : I t :=
  hr.history_invariant (fun _ _ _ _ => hstep _ _ _) hm hs

/-- A property of single steps that follows from an invariant holds of every
step of the run. -/
theorem Run.meets_of_history_invariant {I : List (σ × α) → σ → Prop} {g P : σ → α → Prop}
    (hstep : ∀ h s a t, I h s → g s a → step s a = some t → I ((s, a) :: h) t)
    (hP : ∀ h s a t, I h s → g s a → step s a = some t → P s a)
    (hr : Run step s h t) (hm : Meets g h) (hs : I [] s) : Meets P h := by
  induction hr with
  | nil => exact meets_nil P
  | snoc run enabled ih =>
    rw [meets_cons] at hm ⊢
    exact ⟨hP _ _ _ _ (run.history_invariant hstep hm.2 hs) hm.1 enabled, ih hm.2⟩

theorem Run.meets_of_invariant {I : σ → Prop} {g P : σ → α → Prop}
    (hstep : ∀ s a t, I s → g s a → step s a = some t → I t)
    (hP : ∀ s a t, I s → g s a → step s a = some t → P s a)
    (hr : Run step s h t) (hm : Meets g h) (hs : I s) : Meets P h :=
  hr.meets_of_history_invariant (I := fun _ => I) (fun _ _ _ _ => hstep _ _ _)
    (fun _ _ _ _ => hP _ _ _) hm hs

/-- `I` holds at the beginning of the history and after each of its steps. -/
def AllAlong (I : List (σ × α) → σ → Prop) : List (σ × α) → σ → Prop
  | [], s => I [] s
  | (s, a) :: h, t => I ((s, a) :: h) t ∧ AllAlong I h s

theorem Run.allAlong {I J : List (σ × α) → σ → Prop} {g : σ → α → Prop}
    (hstep : ∀ h s a t, I h s → g s a → step s a = some t → I ((s, a) :: h) t)
    (hJ : ∀ h s, I h s → J h s) (hr : Run step s h t) (hm : Meets g h) (hs : I [] s) :
    AllAlong J h t := by
  induction hr with
  | nil => exact hJ _ _ hs
  | snoc run enabled ih =>
    rw [meets_cons] at hm
    have hI := run.history_invariant hstep hm.2 hs
    exact ⟨hJ _ _ (hstep _ _ _ _ hI hm.1 enabled), ih hm.2⟩

theorem AllAlong.last {I : List (σ × α) → σ → Prop} (ha : AllAlong I h t) : I h t := by
  cases h with
  | nil => exact ha
  | cons x h => exact ha.1

theorem AllAlong.and {I J : List (σ × α) → σ → Prop} (hI : AllAlong I h t)
    (hJ : AllAlong J h t) : AllAlong (fun h t => I h t ∧ J h t) h t := by
  induction h generalizing t with
  | nil => exact ⟨hI, hJ⟩
  | cons x h ih => exact ⟨⟨hI.1, hJ.1⟩, ih hI.2 hJ.2⟩

/-- What holds before and after every step of a run holds of each of its steps. -/
theorem Run.meets_of_allAlong {I : List (σ × α) → σ → Prop} {P : σ → α → Prop}
    (hP : ∀ h s a t, I h s → step s a = some t → I ((s, a) :: h) t → P s a)
    (hr : Run step s h t) (ha : AllAlong I h t) : Meets P h := by
  induction hr with
  | nil => exact meets_nil P
  | snoc run enabled ih =>
    rw [meets_cons]
    exact ⟨hP _ _ _ _ ha.2.last enabled ha.1, ih ha.2⟩

/-- Every step meets `g` with the steps taken before it. -/
def MeetsPast (g : List (σ × α) → σ → α → Prop) : List (σ × α) → Prop
  | [] => True
  | (s, a) :: h => g h s a ∧ MeetsPast g h

theorem Run.meetsPast {I : List (σ × α) → σ → Prop} {g : σ → α → Prop}
    {P : List (σ × α) → σ → α → Prop}
    (hstep : ∀ h s a t, I h s → g s a → step s a = some t → I ((s, a) :: h) t)
    (hP : ∀ h s a t, I h s → g s a → step s a = some t → P h s a)
    (hr : Run step s h t) (hm : Meets g h) (hs : I [] s) : MeetsPast P h := by
  induction hr with
  | nil => trivial
  | snoc run enabled ih =>
    rw [meets_cons] at hm
    exact ⟨hP _ _ _ _ (run.history_invariant hstep hm.2 hs) hm.1 enabled, ih hm.2⟩

theorem MeetsPast.mono {P Q : List (σ × α) → σ → α → Prop} (hPQ : ∀ h s a, P h s a → Q h s a)
    (hm : MeetsPast P h) : MeetsPast Q h := by
  induction h with
  | nil => trivial
  | cons x h ih => exact ⟨hPQ _ _ _ hm.1, ih hm.2⟩

instance MeetsPast.decidable (P : List (σ × α) → σ → α → Prop) [∀ h s a, Decidable (P h s a)] :
    DecidablePred (MeetsPast P)
  | [] => .isTrue trivial
  | (s, a) :: h =>
    have := decidable P h
    inferInstanceAs (Decidable (P h s a ∧ MeetsPast P h))

/-- Two properties of the steps that an invariant makes the same. -/
theorem Run.meetsPast_iff {I : List (σ × α) → σ → Prop} {P Q : List (σ × α) → σ → α → Prop}
    (hstep : ∀ h s a t, I h s → step s a = some t → I ((s, a) :: h) t)
    (hPQ : ∀ h s a t, I h s → step s a = some t → (P h s a ↔ Q h s a))
    (hr : Run step s h t) (hs : I [] s) : MeetsPast P h ↔ MeetsPast Q h := by
  induction hr with
  | nil => exact Iff.rfl
  | snoc run enabled ih =>
    have hI := run.history_invariant (g := fun _ _ => True) (fun h s a t hi _ => hstep h s a t hi)
      (fun _ _ => trivial) hs
    exact and_congr (hPQ _ _ _ _ hI enabled) ih

/-- Steps that each take something from a measure that no step raises are at most as many as the
measure has to give. -/
theorem Run.count_le (μ : σ → ℕ) {I : σ → Prop} {P : σ → α → Bool}
    (hstep : ∀ s a t, I s → step s a = some t → I t ∧ μ t + (if P s a then 1 else 0) ≤ μ s)
    (hr : Run step s h t) (hs : I s) : h.countP (fun x => P x.1 x.2) + μ t ≤ μ s := by
  have hboth : I t ∧ h.countP (fun x => P x.1 x.2) + μ t ≤ μ s := by
    induction hr with
    | nil => exact ⟨hs, by simp⟩
    | snoc run enabled ih =>
      obtain ⟨hI, hle⟩ := hstep _ _ _ ih.1 enabled
      refine ⟨hI, ?_⟩
      have := ih.2
      simp only [List.countP_cons]
      omega
  exact hboth.2

theorem Run.trans {h' : List (σ × α)} {u : σ} (hr : Run step s h t) (hr' : Run step t h' u) :
    Run step s (h' ++ h) u := by
  induction hr' with
  | nil => exact hr
  | snoc run enabled ih => exact ih.snoc enabled

/-- While `P` does not hold, some steps that meet `ok` keep `I` and lower the measure; so such steps
lead to `P`. -/
theorem exists_run_of_measure (μ : σ → ℕ) {I P : σ → Prop} {ok : σ → α → Prop}
    (hstep : ∀ s, I s → ¬ P s → ∃ h t, Run step s h t ∧ Meets ok h ∧ I t ∧ μ t < μ s) (hs : I s) :
    ∃ h t, Run step s h t ∧ Meets ok h ∧ I t ∧ P t := by
  induction hμ : μ s using Nat.strongRecOn generalizing s with
  | ind k ih =>
    by_cases hP : P s
    · exact ⟨[], s, .nil, meets_nil _, hs, hP⟩
    · obtain ⟨h₁, t, hr₁, hm₁, ht, hlt⟩ := hstep s hs hP
      obtain ⟨h₂, u, hr₂, hm₂, hu⟩ := ih _ (hμ ▸ hlt) ht rfl
      exact ⟨h₂ ++ h₁, u, hr₁.trans hr₂, meets_append.mpr ⟨hm₂, hm₁⟩, hu⟩

/-- A relation that every step keeps, where the other system takes any number of steps.  The steps
of both that meet the conditions of the family are the same. -/
theorem Run.simulation {κ : Type*} {step' : τ → β → Option τ} {R : σ → τ → Prop}
    {g : κ → σ → α → Prop} {f : κ → τ → β → Prop} {u : τ}
    (hstep : ∀ s a t u, R s u → step s a = some t →
      ∃ h v, Run step' u h v ∧ (∀ c, Meets (f c) h ↔ g c s a) ∧ R t v)
    (hr : Run step s h t) (hs : R s u) :
    ∃ h' v, Run step' u h' v ∧ (∀ c, Meets (f c) h' ↔ Meets (g c) h) ∧ R t v := by
  induction hr with
  | nil => exact ⟨[], u, .nil, fun c => by simp, hs⟩
  | snoc run enabled ih =>
    obtain ⟨h₁, v₁, hr₁, hm₁, hR₁⟩ := ih
    obtain ⟨h₂, v₂, hr₂, hm₂, hR₂⟩ := hstep _ _ _ _ hR₁ enabled
    refine ⟨h₂ ++ h₁, v₂, hr₁.trans hr₂, fun c => ?_, hR₂⟩
    rw [meets_append, meets_cons, hm₁, hm₂]

/-- A relation that every step keeps, where the other system takes the step that `c` names, or none.
The steps of the other one are those calls. -/
theorem Run.follow {step' : τ → β → Option τ} {R : σ → τ → Prop} {c : σ → α → Option β}
    {f : τ → β → Prop} {u : τ}
    (hidle : ∀ s a t u, R s u → step s a = some t → c s a = none → R t u)
    (hcall : ∀ s a t u b, R s u → step s a = some t → c s a = some b →
      f u b ∧ ∃ v, step' u b = some v ∧ R t v)
    (hr : Run step s h t) (hs : R s u) :
    ∃ h' v, Run step' u h' v ∧ Meets f h' ∧
      h'.map Prod.snd = h.filterMap (fun x => c x.1 x.2) ∧ R t v := by
  induction hr with
  | nil => exact ⟨[], u, .nil, meets_nil f, rfl, hs⟩
  | @snoc h t a w run enabled ih =>
    obtain ⟨h', v, hr', hm, hcalls, hR⟩ := ih
    cases hc : c t a with
    | none =>
      exact ⟨h', v, hr', hm, by simp [hcalls, hc], hidle _ _ _ _ hR enabled hc⟩
    | some b =>
      obtain ⟨hf, x, hx, hR'⟩ := hcall _ _ _ _ _ hR enabled hc
      exact ⟨(v, b) :: h', x, hr'.snoc hx, meets_cons.mpr ⟨hf, hm⟩, by simp [hcalls, hc], hR'⟩

/-- The history and the state after the actions `as`, `none` when one of them is
not enabled or is taken in a state that `ok` refuses. -/
def exec (step : σ → α → Option σ) (ok : σ → α → Bool) :
    List (σ × α) → σ → List α → Option (List (σ × α) × σ)
  | h, s, [] => some (h, s)
  | h, s, a :: as => if ok s a then (step s a).bind fun t => exec step ok ((s, a) :: h) t as else none

theorem run_of_exec {ok : σ → α → Bool} {as : List α} {x : List (σ × α) × σ}
    (hr : Run step s h t) (hm : Meets (fun s a => ok s a) h) (hx : exec step ok h t as = some x) :
    Run step s x.1 x.2 ∧ Meets (fun s a => ok s a) x.1 := by
  induction as generalizing h t with
  | nil =>
    obtain rfl : (h, t) = x := Option.some.inj hx
    exact ⟨hr, hm⟩
  | cons a as ih =>
    unfold exec at hx
    split_ifs at hx with hok
    obtain ⟨u, hu, hrest⟩ := Option.bind_eq_some_iff.mp hx
    exact ih (hr.snoc hu) (meets_cons.mpr ⟨hok, hm⟩) hrest

/-- Executing some actions shows that a run with the observed outcome `v` exists. -/
theorem exists_run_observing {ω : Type*} (step : σ → α → Option σ) (ok : σ → α → Bool) (s : σ)
    (as : List α) (f : List (σ × α) → σ → ω) {v : ω}
    (h : (exec step ok [] s as).map (fun x => f x.1 x.2) = some v) :
    ∃ h t, Run step s h t ∧ Meets (fun s a => ok s a) h ∧ f h t = v := by
  obtain ⟨x, hx, hv⟩ := Option.map_eq_some_iff.mp h
  obtain ⟨hr, hm⟩ := run_of_exec .nil (meets_nil _) hx
  exact ⟨x.1, x.2, hr, hm, hv⟩

/-- Two lists of actions with the step `a` between them. -/
theorem exists_runs_observing {ω : Type*} (step : σ → α → Option σ) (ok : σ → α → Bool) (s : σ)
    (as : List α) (a : α) (as' : List α) (f : σ → List (σ × α) → σ → ω) {v : ω}
    (h : ((exec step (fun _ _ => true) [] s as).bind fun x => (step x.2 a).bind fun t =>
      (exec step ok [] t as').map fun y => f x.2 y.1 y.2) = some v) :
    ∃ h t u h' w, Run step s h t ∧ step t a = some u ∧ Run step u h' w ∧
      Meets (fun s a => ok s a) h' ∧ f t h' w = v := by
  obtain ⟨x, hx, h⟩ := Option.bind_eq_some_iff.mp h
  obtain ⟨u, hu, h⟩ := Option.bind_eq_some_iff.mp h
  obtain ⟨y, hy, hv⟩ := Option.map_eq_some_iff.mp h
  obtain ⟨hr, -⟩ := run_of_exec .nil (meets_nil _) hx
  obtain ⟨hr', hm⟩ := run_of_exec .nil (meets_nil _) hy
  exact ⟨x.1, x.2, u, y.1, y.2, hr, hu, hr', hm, hv⟩

/-- A run refutes a statement about all runs as soon as its outcome excludes it. -/
theorem not_forall_run {ω : Type*} {P : List (σ × α) → σ → Prop} (ok : σ → α → Bool) (as : List α)
    (f : List (σ × α) → σ → ω) {v : ω}
    (h : (exec step ok [] s as).map (fun x => f x.1 x.2) = some v)
    (hP : ∀ h t, Run step s h t → Meets (fun s a => ok s a) h → f h t = v → ¬ P h t) :
    ¬ ∀ h t, Run step s h t → P h t := by
  intro hall
  obtain ⟨h', t, hr, hm, hv⟩ := exists_run_observing step ok s as f h
  exact hP h' t hr hm hv (hall h' t hr)

end Automaton
