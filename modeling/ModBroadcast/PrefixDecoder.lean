import Mathlib.Data.List.Basic

namespace PrefixDecoder

variable {α β γ : Type*} (find : List α → Option β)

/-- The symbols collected after `x`, and the meaning of the word that it completes. -/
def push (buf : List α) (x : α) : List α × Option β :=
  match find (buf ++ [x]) with
  | some b => ([], some b)
  | none => (buf ++ [x], none)

structure Spells (w : List α) (b : β) : Prop where
  ne_nil : w ≠ []
  word : find w = some b
  first : ∀ u, u <+: w → u ≠ [] → u ≠ w → find u = none

variable {find} {w u : List α} {b : β} {x : α}

theorem Spells.push_last (h : Spells find w b) (hu : u ++ [x] = w) :
    push find u x = ([], some b) := by
  simp [push, hu, h.word]

theorem Spells.push_inner (h : Spells find w b) {v : List α} (hv : v ≠ [])
    (hu : u ++ x :: v = w) : push find u x = (u ++ [x], none) := by
  have hpre : u ++ [x] <+: w := ⟨v, by rw [← hu]; simp⟩
  have hne : u ++ [x] ≠ w := by
    rw [← hu]
    simpa using hv.symm
  simp [push, h.first _ hpre (by simp) hne]

section

variable {σ : Type*}

def outputs (step : σ → γ → σ × Option β) (s : σ) : List γ → σ × List β
  | [] => (s, [])
  | x :: l =>
    let z := outputs step (step s x).1 l
    (z.1, (step s x).2.toList ++ z.2)

variable {step : σ → γ → σ × Option β} {s : σ}

theorem outputs_append (s : σ) (l l' : List γ) : outputs step s (l ++ l') =
    ((outputs step (outputs step s l).1 l').1,
      (outputs step s l).2 ++ (outputs step (outputs step s l).1 l').2) := by
  induction l generalizing s with
  | nil => rfl
  | cons x l ih => simp [outputs, ih]

/-- Words read one after the other, each from an empty buffer to an empty buffer. -/
theorem outputs_flatten {P : σ → Prop} {l : List (β × List γ)} (hs : P s)
    (hl : ∀ e ∈ l, ∀ s, P s → P (outputs step s e.2).1 ∧ (outputs step s e.2).2 = [e.1]) :
    P (outputs step s (l.map Prod.snd).flatten).1 ∧
      (outputs step s (l.map Prod.snd).flatten).2 = l.map Prod.fst := by
  induction l generalizing s with
  | nil => exact ⟨hs, rfl⟩
  | cons e l ih =>
    obtain ⟨hempty, hout⟩ := hl e List.mem_cons_self s hs
    have hrest := ih hempty fun e' he' => hl e' (List.mem_cons_of_mem _ he')
    rw [List.map_cons, List.flatten_cons, outputs_append]
    refine ⟨hrest.1, ?_⟩
    rw [hout, hrest.2]
    rfl

end

end PrefixDecoder
