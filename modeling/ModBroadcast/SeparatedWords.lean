import Mathlib.Data.List.TakeWhile

namespace SeparatedWords

variable {α : Type*} [DecidableEq α] {c : α} {l w : List α}

def wordsOf (c : α) (l : List α) : List (List α) := (l.splitOn c).filter (· ≠ [])

/-- `strtok_r` on a text: the word it returns, and the text at which it leaves its pointer. -/
def strtok (c : α) (l : List α) : Option (List α) × List α :=
  let s := l.dropWhile (· == c)
  if s = [] then (none, [])
  else (some (s.takeWhile (· != c)), (s.dropWhile (· != c)).tail)

theorem wordsOf_cons (c : α) (l : List α) : wordsOf c (c :: l) = wordsOf c l := by
  rw [wordsOf, List.splitOn_cons_eq_if_modifyHead, if_pos (beq_self_eq_true c)]
  rfl

theorem wordsOf_word (hw : w ≠ []) (hc : c ∉ w) : wordsOf c w = [w] := by
  rw [wordsOf, List.splitOn_eq_singleton hc]
  exact List.filter_cons_of_pos (decide_eq_true hw)

theorem wordsOf_append (hw : w ≠ []) (hc : c ∉ w) (l : List α) :
    wordsOf c (w ++ c :: l) = w :: wordsOf c l := by
  rw [wordsOf, List.splitOn_append_cons_self_of_not_mem hc]
  exact List.filter_cons_of_pos (decide_eq_true hw)

theorem wordsOf_dropWhile (c : α) (l : List α) :
    wordsOf c (l.dropWhile (· == c)) = wordsOf c l := by
  induction l with
  | nil => rfl
  | cons x l ih =>
    by_cases hx : x = c
    · subst hx
      rw [List.dropWhile_cons_of_pos (by simp), ih, wordsOf_cons]
    · rw [List.dropWhile_cons_of_neg (by simpa using hx)]

/-- A text that does not begin with a separator is a word, or a word and a separator before the
rest. -/
theorem wordsOf_takeWhile {x : α} (hx : x ≠ c) (l : List α) :
    wordsOf c (x :: l) = (x :: l).takeWhile (· != c) ::
      wordsOf c ((x :: l).dropWhile (· != c)).tail := by
  have hne : (x :: l).takeWhile (· != c) ≠ [] := by
    rw [List.takeWhile_cons_of_pos (by simpa using hx)]
    exact List.cons_ne_nil _ _
  have hc : c ∉ (x :: l).takeWhile (· != c) := by
    intro h
    simpa using List.mem_takeWhile_imp h
  have happ := List.takeWhile_append_dropWhile (p := (· != c)) (l := x :: l)
  cases hd : (x :: l).dropWhile (· != c) with
  | nil =>
    rw [hd, List.append_nil] at happ
    rw [happ] at hne hc ⊢
    exact wordsOf_word hne hc
  | cons y r =>
    have hy : y = c := by
      have := List.dropWhile_get_zero_not (· != c) (x :: l) (by rw [hd]; exact Nat.succ_pos _)
      simpa [hd] using this
    have hwords := wordsOf_append hne hc r
    rw [hd, hy] at happ
    rw [happ] at hwords
    exact hwords

/-- `strtok_r` returns the first word and leaves the others. -/
theorem strtok_wordsOf (c : α) (l : List α) :
    (strtok c l).1 = (wordsOf c l).head? ∧
      wordsOf c (strtok c l).2 = (wordsOf c l).tail := by
  rw [← wordsOf_dropWhile c l, strtok]
  cases hs : l.dropWhile (· == c) with
  | nil => exact ⟨rfl, rfl⟩
  | cons x s =>
    have hx : x ≠ c := by
      have := List.dropWhile_get_zero_not (· == c) l (by rw [hs]; exact Nat.succ_pos _)
      simpa [hs] using this
    rw [if_neg (List.cons_ne_nil _ _), wordsOf_takeWhile hx]
    exact ⟨rfl, rfl⟩

theorem ne_nil_of_mem_wordsOf (hw : w ∈ wordsOf c l) : w ≠ [] :=
  of_decide_eq_true (List.mem_filter.mp hw).2

end SeparatedWords
