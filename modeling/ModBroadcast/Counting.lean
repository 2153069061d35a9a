import Mathlib.Data.Set.Card

namespace Counting

variable {ι : Type*} {n m : ℤ} {S T : Set ι} {i : ι}

/-- `n` is the number of elements of the finite set `S`. -/
def Counts (n : ℤ) (S : Set ι) : Prop := S.Finite ∧ n = S.ncard

theorem Counts.unique (h : Counts n S) (h' : Counts m S) : n = m := h.2.trans h'.2.symm

theorem counts_singleton (i : ι) : Counts 1 ({i} : Set ι) := by
  simp [Counts]

/-- The set gains the one new element `i`. -/
theorem Counts.gain (h : Counts n S) (hi : i ∉ S) (hT : ∀ j, j ∈ T ↔ j = i ∨ j ∈ S) :
    Counts (n + 1) T := by
  obtain rfl : T = insert i S := Set.ext hT
  refine ⟨h.1.insert i, ?_⟩
  rw [Set.ncard_insert_of_notMem hi h.1, h.2]
  exact (Nat.cast_succ _).symm

/-- The set loses the element `i`. -/
theorem Counts.lose (h : Counts n S) (hi : i ∈ S) (hT : ∀ j, j ∈ T ↔ j ≠ i ∧ j ∈ S) :
    Counts (n - 1) T := by
  have hT' : T = S \ {i} := by
    ext j
    rw [hT, Set.mem_sdiff_singleton, and_comm]
  subst hT'
  refine ⟨h.1.subset Set.sdiff_subset, ?_⟩
  rw [Set.ncard_sdiff_singleton_of_mem hi, h.2]
  have := (Set.ncard_pos h.1).mpr ⟨i, hi⟩
  omega

theorem Counts.congr (h : Counts n S) (hT : ∀ j, j ∈ T ↔ j ∈ S) : Counts n T := by
  obtain rfl : T = S := Set.ext hT
  exact h

/-- A counter that moves with one element: it changes by one when the element
enters or leaves. -/
inductive Follows (before after : Prop) (n m : ℤ) : Prop
  | stays (h : after ↔ before) (hm : m = n) : Follows before after n m
  | enters (h : ¬ before) (h' : after) (hm : m = n + 1) : Follows before after n m
  | leaves (h : before) (h' : ¬ after) (hm : m = n - 1) : Follows before after n m

/-- A constant error `d` of the counter is kept by every step that moves with
the set. -/
theorem Counts.follow {d : ℤ} (h : Counts (n + d) S) (hf : Follows (i ∈ S) (i ∈ T) n m)
    (hother : ∀ j, j ≠ i → (j ∈ T ↔ j ∈ S)) : Counts (m + d) T := by
  cases hf with
  | stays hi hm =>
    subst hm
    refine h.congr fun j => ?_
    by_cases hj : j = i
    · rw [hj]
      exact hi
    · exact hother j hj
  | enters hi hi' hm =>
    rw [show m + d = n + d + 1 by omega]
    refine h.gain hi fun j => ?_
    by_cases hj : j = i
    · simp [hj, hi']
    · simp [hj, hother j hj]
  | leaves hi hi' hm =>
    rw [show m + d = n + d - 1 by omega]
    refine h.lose hi fun j => ?_
    by_cases hj : j = i
    · simp [hj, hi']
    · simp [hj, hother j hj]

theorem Counts.moves (h : Counts n S) (hf : Follows (i ∈ S) (i ∈ T) n m)
    (hother : ∀ j, j ≠ i → (j ∈ T ↔ j ∈ S)) : Counts m T := by
  rw [← add_zero m]
  exact Counts.follow (by rwa [add_zero]) hf hother

/-- A count of at most one leaves room for one element only. -/
theorem Counts.eq_of_le_one (h : Counts n S) (hn : n ≤ 1) (hi : i ∈ S) {j : ι} (hj : j ∈ S) :
    j = i := by
  have hle : S.ncard ≤ 1 := by
    have := h.2
    omega
  exact (Set.ncard_le_one h.1).mp hle j hj i hi

end Counting
