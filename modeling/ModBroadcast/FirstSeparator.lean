import Mathlib.Data.List.TakeDrop

namespace FirstSeparator

variable {α : Type*} [DecidableEq α] {c : α} {l s t : List α}

def cut (c : α) : List α → List α × Option (List α)
  | [] => ([], none)
  | x :: l => if x = c then ([], some l) else ((x :: (cut c l).1), (cut c l).2)

@[simp] theorem cut_nil (c : α) : cut c [] = ([], none) := rfl

theorem cut_append (hs : c ∉ s) (t : List α) : cut c (s ++ c :: t) = (s, some t) := by
  induction s with
  | nil => exact if_pos rfl
  | cons x s ih =>
    rw [List.mem_cons, not_or] at hs
    rw [List.cons_append, cut, if_neg (Ne.symm hs.1), ih hs.2]

/-- A text is cut where it is put together, and nowhere else. -/
theorem cut_eq_some_iff : cut c l = (s, some t) ↔ l = s ++ c :: t ∧ c ∉ s := by
  constructor
  · intro h
    induction l generalizing s with
    | nil => simp at h
    | cons x l ih =>
      rw [cut] at h
      split_ifs at h with hx
      · obtain ⟨rfl, ht⟩ := Prod.mk.inj h
        rw [← Option.some.inj ht, hx]
        exact ⟨rfl, List.not_mem_nil⟩
      · obtain ⟨rfl, ht⟩ := Prod.mk.inj h
        obtain ⟨hl, hc⟩ := ih (Prod.ext rfl ht)
        refine ⟨?_, ?_⟩
        · rw [List.cons_append, ← hl]
        · rw [List.mem_cons, not_or]
          exact ⟨Ne.symm hx, hc⟩
  · rintro ⟨rfl, hs⟩
    exact cut_append hs t

/-- A text of two parts survives being cut to `n` exactly when it has the room. -/
theorem cut_take_iff (hs : c ∉ s) (n : ℕ) :
    cut c ((s ++ c :: t).take n) = (s, some t) ↔ s.length + 1 + t.length ≤ n := by
  have hlen : (s ++ c :: t).length = s.length + 1 + t.length := by
    rw [List.length_append, List.length_cons]
    omega
  rw [cut_eq_some_iff, List.take_eq_self_iff, hlen]
  exact and_iff_left hs

def find (c : α) (l : List α) : Option ℕ := l.idxOf? c

theorem find_of_not_mem (hl : c ∉ l) : find c l = none := List.idxOf?_eq_none_iff.mpr hl

theorem find_append (hs : c ∉ s) (t : List α) : find c (s ++ c :: t) = some s.length := by
  rw [find, List.idxOf?, List.findIdx?_append, List.findIdx?_eq_none_iff.mpr]
  · simp [List.findIdx?_cons]
  · intro x hx
    exact beq_false_of_ne fun he => hs (he ▸ hx)

/-- A separator that does not stand in `s` is found behind it. -/
theorem find_append_ge (hs : c ∉ s) (t : List α) : ∀ i ∈ find c (s ++ t), s.length ≤ i := by
  intro i hi
  rw [find, List.idxOf?, List.findIdx?_append, List.findIdx?_eq_none_iff.mpr] at hi
  · simp only [Option.none_or, Option.mem_def, Option.map_eq_some_iff] at hi
    obtain ⟨j, -, rfl⟩ := hi
    exact Nat.le_add_left _ _
  · intro x hx
    exact beq_false_of_ne fun he => hs (he ▸ hx)

end FirstSeparator
