import Mathlib.Data.List.Basic
import Mathlib.Data.Nat.ModEq
import Mathlib.Logic.Function.Basic

namespace StampedRing

variable {β : Type*} {N : ℕ} {cells : ℕ → ℕ × β} {log : List β}

def write (N : ℕ) (cells : ℕ → ℕ × β) (n : ℕ) (x : β) : ℕ → ℕ × β :=
  Function.update cells (n % N) (n, x)

/-- The cells of a ring into which the values of `log` have been written in order. -/
structure Records (N : ℕ) (cells : ℕ → ℕ × β) (log : List β) : Prop where
  stamp_iff : ∀ k < log.length, (cells (k % N)).1 = k ↔ log.length ≤ k + N
  value : ∀ k < log.length, (cells (k % N)).1 = k → log[k]? = some (cells (k % N)).2

theorem Records.nil (cells : ℕ → ℕ × β) : Records N cells [] := by
  constructor <;> intro k hk <;> simp at hk

/-- Two numbers less than `N` apart with the same remainder are equal. -/
theorem eq_of_mod_eq {k n : ℕ} (hkn : k ≤ n) (hn : n < k + N) (h : n % N = k % N) : k = n := by
  have hd : N ∣ n - k := (Nat.modEq_iff_dvd' hkn).mp h.symm
  have := Nat.eq_zero_of_dvd_of_lt hd (by omega)
  omega

theorem Records.write (hN : 0 < N) (hr : Records N cells log) (x : β) :
    Records N (write N cells log.length x) (log ++ [x]) := by
  constructor
  · intro k hk
    rw [List.length_append, List.length_singleton] at hk ⊢
    by_cases hmod : k % N = log.length % N
    · -- the written cell: only the newest value can be found there
      simp only [StampedRing.write, hmod, Function.update_self]
      constructor
      · intro he
        omega
      · intro hle
        by_contra hne
        exact hne (eq_of_mod_eq (by omega) (by omega) hmod.symm).symm
    · have hlt : k < log.length := by
        have : k ≠ log.length := fun he => hmod (by rw [he])
        omega
      simp only [StampedRing.write, Function.update_of_ne hmod]
      rw [hr.stamp_iff k hlt]
      have : log.length ≠ k + N := fun he => hmod (by rw [he, Nat.add_mod_right])
      omega
  · intro k hk hs
    rw [List.length_append, List.length_singleton] at hk
    by_cases hmod : k % N = log.length % N
    · simp only [StampedRing.write, hmod, Function.update_self] at hs ⊢
      subst hs
      simp
    · have hlt : k < log.length := by
        have : k ≠ log.length := fun he => hmod (by rw [he])
        omega
      simp only [StampedRing.write, Function.update_of_ne hmod] at hs ⊢
      rw [List.getElem?_append_left hlt]
      exact hr.value k hlt hs

end StampedRing
