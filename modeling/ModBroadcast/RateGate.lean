import Mathlib.Data.List.Chain
import Mathlib.Algebra.Order.Group.Int
import Mathlib.Tactic.Linarith

namespace RateGate

variable {gap last now wait : ℤ} {l : List ℤ}

/-- The times of those who come at the times `l` and get through; the gate starts as if it had let
somebody through at `last`. -/
def passed (gap last : ℤ) : List ℤ → List ℤ
  | [] => []
  | now :: l =>
    if gap ≤ now - (passed gap last l).headD last then now :: passed gap last l
    else passed gap last l

def latest (gap last : ℤ) (l : List ℤ) : ℤ := (passed gap last l).headD last

@[simp] theorem passed_nil : passed gap last [] = [] := rfl

@[simp] theorem latest_nil : latest gap last [] = last := rfl

theorem passed_of_le (h : gap ≤ now - latest gap last l) :
    passed gap last (now :: l) = now :: passed gap last l := if_pos h

theorem passed_of_lt (h : now - latest gap last l < gap) :
    passed gap last (now :: l) = passed gap last l := if_neg (not_le.mpr h)

theorem latest_of_le (h : gap ≤ now - latest gap last l) : latest gap last (now :: l) = now := by
  rw [latest, passed_of_le h]
  rfl

theorem latest_of_lt (h : now - latest gap last l < gap) :
    latest gap last (now :: l) = latest gap last l := by
  rw [latest, passed_of_lt h]
  rfl

theorem passed_sublist (gap last : ℤ) (l : List ℤ) : (passed gap last l).Sublist l := by
  induction l with
  | nil => exact .slnil
  | cons now l ih =>
    rcases le_or_gt gap (now - latest gap last l) with h | h
    · rw [passed_of_le h]
      exact ih.cons_cons now
    · rw [passed_of_lt h]
      exact ih.cons now

/-- Whoever gets through does so at least `gap` after the one before. -/
theorem passed_spaced (gap last : ℤ) (l : List ℤ) :
    (passed gap last l ++ [last]).IsChain fun a b => b + gap ≤ a := by
  induction l with
  | nil => exact .singleton last
  | cons now l ih =>
    rcases le_or_gt gap (now - latest gap last l) with h | h
    · rw [passed_of_le h, List.cons_append]
      refine ih.cons fun y hy => ?_
      obtain rfl : latest gap last l = y := by
        cases hp : passed gap last l <;> simp_all [latest]
      omega
    · rw [passed_of_lt h]
      exact ih

/-- Whoever does not get through comes less than `gap` after one who did. -/
theorem recent (hg : 0 < gap) (last now : ℤ) (l : List ℤ) :
    now - latest gap last (now :: l) < gap := by
  rcases le_or_gt gap (now - latest gap last l) with h | h
  · rw [latest_of_le h]
    omega
  · rwa [latest_of_lt h]

theorem passed_isChain (gap last : ℤ) (l : List ℤ) :
    (passed gap last l).IsChain fun a b => b + gap ≤ a :=
  (passed_spaced gap last l).left_of_append

/-- When somebody comes, somebody gets through then or has less than `gap` before. -/
theorem exists_passed (hg : 0 < gap) (hnow : now ∈ l.head?) (hlast : last + gap ≤ now) :
    ∃ t ∈ passed gap last l, now < t + gap := by
  cases l with
  | nil => cases hnow
  | cons now' l =>
    obtain rfl := Option.some.inj hnow
    have hrecent := recent hg last now' l
    rw [latest] at hrecent
    cases hp : passed gap last (now' :: l) with
    | nil =>
      rw [hp, List.headD_nil] at hrecent
      omega
    | cons t times =>
      rw [hp, List.headD_cons] at hrecent
      exact ⟨t, List.mem_cons_self, by omega⟩

/-- When somebody comes every `wait`, somebody gets through every `gap + wait`. -/
theorem passed_dense (hg : 0 < gap) (hl : (l ++ [last]).IsChain fun a b => a - b ≤ wait) :
    (passed gap last l ++ [last]).IsChain (fun a b => a < b + gap + wait) ∧
      ∀ now ∈ l.head?, now < latest gap last l + gap := by
  induction l with
  | nil => exact ⟨.singleton last, by simp⟩
  | cons now l ih =>
    obtain ⟨hnow, htail⟩ := List.isChain_cons.mp hl
    obtain ⟨hchain, hhead⟩ := ih htail
    have hwait : now < latest gap last l + gap + wait := by
      cases l with
      | nil =>
        have := hnow last (by simp)
        simp only [latest_nil]
        omega
      | cons prev l =>
        have h₁ := hnow prev (by simp)
        have h₂ := hhead prev (by simp)
        omega
    rcases le_or_gt gap (now - latest gap last l) with h | h
    · rw [passed_of_le h, latest_of_le h, List.cons_append]
      refine ⟨hchain.cons fun y hy => ?_, fun x hx => ?_⟩
      · obtain rfl : latest gap last l = y := by
          cases hp : passed gap last l <;> simp_all [latest]
        exact hwait
      · obtain rfl : now = x := by simpa using hx
        omega
    · rw [passed_of_lt h, latest_of_lt h]
      refine ⟨hchain, fun x hx => ?_⟩
      obtain rfl : now = x := by simpa using hx
      omega

end RateGate
