import Mathlib.Data.List.Nodup
import Mathlib.Logic.Function.Basic
import Mathlib.Tactic.SplitIfs

namespace SinglyLinked

variable {α β : Type*} (next : β → Option α)

/-- From the pointer `p` the nodes of `l` follow each other, and the last of them leads to `q`. -/
def Segment (heap : α → Option β) : Option α → List α → Option α → Prop
  | p, [], q => p = q
  | p, a :: l, q => p = some a ∧ ∃ x, heap a = some x ∧ Segment heap (next x) l q

/-- From the pointer `p` the nodes of `l` follow each other to the null pointer. -/
def Chain (heap : α → Option β) (p : Option α) (l : List α) : Prop := Segment next heap p l none

def trail (heap : α → Option β) : ℕ → Option α → List α
  | 0, _ => []
  | _ + 1, none => []
  | n + 1, some a => a :: (heap a).elim [] fun x => trail heap n (next x)

variable {next} {heap heap' : α → Option β} {p q q' : Option α} {a : α} {x : β} {l l' : List α}

theorem Segment.append (h : Segment next heap p l q) (h' : Segment next heap q l' q') :
    Segment next heap p (l ++ l') q' := by
  induction l generalizing p with
  | nil =>
    obtain rfl : p = q := h
    exact h'
  | cons a l ih =>
    obtain ⟨hp, x, hx, hrest⟩ := h
    exact ⟨hp, x, hx, ih hrest⟩

theorem segment_singleton (ha : heap a = some x) : Segment next heap (some a) [a] (next x) :=
  ⟨rfl, x, ha, rfl⟩

/-- Only the pointers of the nodes on the way matter. -/
theorem Segment.congr_next (h : Segment next heap p l q)
    (hl : ∀ a ∈ l, (heap' a).map next = (heap a).map next) : Segment next heap' p l q := by
  induction l generalizing p with
  | nil => exact h
  | cons a l ih =>
    obtain ⟨hp, x, hx, hrest⟩ := h
    have ha := hl a List.mem_cons_self
    rw [hx, Option.map_some, Option.map_eq_some_iff] at ha
    obtain ⟨y, hy, hxy⟩ := ha
    rw [← hxy] at hrest
    exact ⟨hp, y, hy, ih hrest fun b hb => hl b (List.mem_cons_of_mem a hb)⟩

/-- Only the nodes on the way matter. -/
theorem Segment.congr (h : Segment next heap p l q) (hl : ∀ a ∈ l, heap' a = heap a) :
    Segment next heap' p l q :=
  h.congr_next fun a ha => by rw [hl a ha]

/-- The nodes on the way are allocated. -/
theorem Segment.allocated (h : Segment next heap p l q) (ha : a ∈ l) : ∃ x, heap a = some x := by
  induction l generalizing p with
  | nil => cases ha
  | cons b l ih =>
    obtain ⟨-, x, hx, hrest⟩ := h
    rcases List.mem_cons.mp ha with rfl | ha
    · exact ⟨x, hx⟩
    · exact ih hrest ha

theorem trail_congr (h : ∀ a, (heap' a).map next = (heap a).map next) (n : ℕ) (p : Option α) :
    trail next heap' n p = trail next heap n p := by
  induction n generalizing p with
  | zero => rfl
  | succ n ih =>
    cases p with
    | none => rfl
    | some a =>
      have ha := h a
      cases hx : heap a with
      | none =>
        rw [hx, Option.map_none, Option.map_eq_none_iff] at ha
        rw [trail, trail, hx, ha]
        rfl
      | some x =>
        rw [hx, Option.map_some, Option.map_eq_some_iff] at ha
        obtain ⟨y, hy, hxy⟩ := ha
        rw [trail, trail, hx, hy, Option.elim_some, Option.elim_some, hxy, ih]

theorem Chain.trail_eq (h : Chain next heap p l) {n : ℕ} (hn : l.length ≤ n) :
    trail next heap n p = l := by
  induction l generalizing p n with
  | nil =>
    obtain rfl : p = none := h
    cases n <;> rfl
  | cons a l ih =>
    obtain ⟨rfl, x, hx, hrest⟩ := h
    cases n with
    | zero => exact absurd hn (Nat.not_succ_le_zero _)
    | succ n => rw [trail, hx, Option.elim_some, ih hrest (Nat.le_of_succ_le_succ hn)]

/-- The nodes that come after the first one of a chain are those of the pointer in it. -/
theorem Chain.tail (h : Chain next heap (some a) l) :
    ∃ x l', heap a = some x ∧ l = a :: l' ∧ Chain next heap (next x) l' := by
  cases l with
  | nil => cases h
  | cons b l' =>
    obtain ⟨hb, x, hx, hrest⟩ := h
    obtain rfl : a = b := Option.some.inj hb
    exact ⟨x, l', hx, rfl, hrest⟩

/-- Behind a node of a chain comes the chain of the pointer in it. -/
theorem Chain.after (h : Chain next heap p l) (ha : a ∈ l) :
    ∃ x l₁ l₂, heap a = some x ∧ l = l₁ ++ a :: l₂ ∧ Chain next heap (next x) l₂ := by
  induction l generalizing p with
  | nil => cases ha
  | cons b l ih =>
    obtain ⟨-, x, hx, hrest⟩ := h
    rcases List.mem_cons.mp ha with rfl | ha
    · exact ⟨x, [], l, hx, rfl, hrest⟩
    · obtain ⟨y, l₁, l₂, hy, rfl, hc⟩ := ih hrest ha
      exact ⟨y, b :: l₁, l₂, hy, rfl, hc⟩

section Write

variable [DecidableEq α]

/-- A node outside the way may be written. -/
theorem Segment.update (h : Segment next heap p l q) (ha : a ∉ l) (y : Option β) :
    Segment next (Function.update heap a y) p l q := by
  apply h.congr
  intro b hb
  have hne : b ≠ a := fun he => ha (he ▸ hb)
  exact Function.update_of_ne hne y heap

/-- A new successor of the last node redirects the way. -/
theorem Segment.redirect (h : Segment next heap p (l ++ [a]) q) (hl : (l ++ [a]).Nodup)
    (hx : next x = q') : Segment next (Function.update heap a (some x)) p (l ++ [a]) q' := by
  induction l generalizing p with
  | nil =>
    obtain ⟨rfl, -⟩ := h
    exact ⟨rfl, x, Function.update_self a (some x) heap, hx⟩
  | cons b l ih =>
    obtain ⟨hp, y, hy, hrest⟩ := h
    obtain ⟨hb, hnodup⟩ := List.nodup_cons.mp hl
    have hne : b ≠ a := fun he => hb (by simp [he])
    refine ⟨hp, y, ?_, ih hrest hnodup⟩
    rw [Function.update_of_ne hne]
    exact hy

/-- A node outside the chain is put in front of it. -/
theorem Chain.push (h : Chain next heap p l) (ha : a ∉ l) (hx : next x = p) :
    Chain next (Function.update heap a (some x)) (some a) (a :: l) := by
  refine ⟨rfl, x, Function.update_self a (some x) heap, ?_⟩
  rw [hx]
  exact Segment.update h ha (some x)

end Write

end SinglyLinked
