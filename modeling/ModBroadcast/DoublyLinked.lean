import Mathlib.Data.List.Nodup
import Mathlib.Logic.Function.Basic
import Mathlib.Tactic.SplitIfs

namespace DoublyLinked

variable {α : Type*}

structure Links (α : Type*) where
  head : Option α
  next : α → Option α
  prev : α → Option α

def Links.empty : Links α := ⟨none, fun _ => none, fun _ => none⟩

/-- The pointer `p` leads along the nodes of the list in their order, and back to
`before`. -/
def Chain (s : Links α) : Option α → Option α → List α → Prop
  | _, p, [] => p = none
  | before, p, a :: l => p = some a ∧ s.prev a = before ∧ Chain s (some a) (s.next a) l

/-- The pointers are a doubly linked list of the nodes of `l`, each of them once. -/
structure Represents (s : Links α) (l : List α) : Prop where
  chain : Chain s none s.head l
  nodup : l.Nodup

section Operations

variable [DecidableEq α]

def insertHead (s : Links α) (a : α) : Links α :=
  let s := { s with next := Function.update s.next a s.head, prev := Function.update s.prev a none }
  let s := match s.head with
    | some b => { s with prev := Function.update s.prev b (some a) }
    | none => s
  { s with head := some a }

def unlink (s : Links α) (a : α) : Links α :=
  let s := match s.prev a with
    | some b => { s with next := Function.update s.next b (s.next a) }
    | none => { s with head := s.next a }
  let s := match s.next a with
    | some b => { s with prev := Function.update s.prev b (s.prev a) }
    | none => s
  { s with next := Function.update s.next a none, prev := Function.update s.prev a none }

/-- Look for `a` along the pointer `p`; `none` when the fuel does not suffice. -/
def search (s : Links α) (a : α) : ℕ → Option α → Option Bool
  | _, none => some false
  | 0, some _ => none
  | n + 1, some b => if b = a then some true else search s a n (s.next b)

end Operations

variable {s t : Links α} {a b c : α} {l l' : List α} {p before : Option α} {n : ℕ}

theorem represents_empty : Represents (Links.empty : Links α) [] := ⟨rfl, List.nodup_nil⟩

/-- A chain depends on the fields of its own nodes only. -/
theorem Chain.congr (h : Chain s before p l) (hn : ∀ x ∈ l, t.next x = s.next x)
    (hp : ∀ x ∈ l, t.prev x = s.prev x) : Chain t before p l := by
  induction l generalizing before p with
  | nil => exact h
  | cons a l ih =>
    obtain ⟨hhead, hprev, htail⟩ := h
    refine ⟨hhead, (hp a (List.mem_cons_self ..)).trans hprev, ?_⟩
    rw [hn a (List.mem_cons_self ..)]
    exact ih htail (fun x hx => hn x (List.mem_cons_of_mem a hx))
      fun x hx => hp x (List.mem_cons_of_mem a hx)

/-- The list that a pointer leads along is determined by the heap. -/
theorem Chain.unique (h : Chain s before p l) (h' : Chain s before p l') : l = l' := by
  induction l generalizing before p l' with
  | nil =>
    cases l' with
    | nil => rfl
    | cons b l' =>
      obtain rfl : p = none := h
      cases h'.1
  | cons a l ih =>
    cases l' with
    | nil =>
      obtain rfl : p = none := h'
      cases h.1
    | cons b l' =>
      obtain rfl : a = b := Option.some.inj (h.1.symm.trans h'.1)
      rw [ih h.2.2 h'.2.2]

theorem Represents.unique (h : Represents s l) (h' : Represents s l') : l = l' :=
  h.chain.unique h'.chain

theorem getLast?_cons_or (l : List α) : (b :: l).getLast?.or p = l.getLast?.or (some b) := by
  cases l with
  | nil => rfl
  | cons c l =>
    rw [List.getLast?_cons_cons, List.getLast?_eq_some_getLast (List.cons_ne_nil c l)]
    rfl

/-- In a chain the fields of a node name its neighbours. -/
theorem Chain.split {front back : List α} (h : Chain s before p (front ++ a :: back)) :
    s.prev a = (front.getLast?.or before) ∧ s.next a = back.head? ∧
      Chain s (some a) (s.next a) back := by
  induction front generalizing before p with
  | nil =>
    obtain ⟨-, hprev, htail⟩ := h
    refine ⟨hprev, ?_, htail⟩
    cases back with
    | nil => exact htail
    | cons b back => exact htail.1
  | cons b front ih =>
    obtain ⟨hprev, hnext, hback⟩ := ih h.2.2
    exact ⟨by rw [hprev, getLast?_cons_or], hnext, hback⟩

variable [DecidableEq α]

/-- With enough fuel the search along a chain ends and tells whether the node is in it. -/
theorem Chain.search (h : Chain s before p l) (a : α) (hn : l.length ≤ n) :
    search s a n p = some (decide (a ∈ l)) := by
  induction l generalizing before p n with
  | nil =>
    obtain rfl : p = none := h
    cases n <;> rfl
  | cons b l ih =>
    obtain ⟨rfl, -, htail⟩ := h
    cases n with
    | zero => exact absurd hn (by simp)
    | succ n =>
      simp only [DoublyLinked.search]
      split_ifs with hb
      · simp [hb]
      · rw [ih htail (Nat.le_of_succ_le_succ hn)]
        simp [Ne.symm hb]

/-- However much fuel it takes, a search that ends tells whether the node is there. -/
theorem Chain.of_search (h : Chain s before p l) {r : Bool} (hr : DoublyLinked.search s a n p = some r) :
    r = decide (a ∈ l) := by
  induction l generalizing before p n with
  | nil =>
    obtain rfl : p = none := h
    cases n <;> exact (Option.some.inj hr).symm
  | cons b l ih =>
    obtain ⟨rfl, -, htail⟩ := h
    cases n with
    | zero => cases hr
    | succ n =>
      simp only [DoublyLinked.search] at hr
      split_ifs at hr with hb
      · rw [← Option.some.inj hr]
        simp [hb]
      · rw [ih htail hr]
        simp [Ne.symm hb]

theorem insertHead_represents (h : Represents s l) (ha : a ∉ l) :
    Represents (insertHead s a) (a :: l) := by
  refine ⟨?_, List.nodup_cons.mpr ⟨ha, h.nodup⟩⟩
  have hne : ∀ x ∈ l, x ≠ a := fun x hx he => ha (he ▸ hx)
  cases l with
  | nil =>
    have hhead : s.head = none := h.chain
    simp [insertHead, hhead, Chain]
  | cons b l =>
    obtain ⟨hhead, -, htail⟩ := h.chain
    have hba : b ≠ a := hne b (List.mem_cons_self ..)
    have hbl : b ∉ l := (List.nodup_cons.mp h.nodup).1
    refine ⟨by simp [insertHead, hhead], by simp [insertHead, hhead, Ne.symm hba], ?_⟩
    have hnext : (insertHead s a).next a = some b := by simp [insertHead, hhead]
    have hkeep : (insertHead s a).next b = s.next b := by simp [insertHead, hhead, hba]
    rw [hnext]
    refine ⟨rfl, by simp [insertHead, hhead], ?_⟩
    rw [hkeep]
    refine htail.congr (fun x hx => ?_) fun x hx => ?_
    · simp [insertHead, hhead, hne x (List.mem_cons_of_mem b hx)]
    · have hxb : x ≠ b := fun he => hbl (he ▸ hx)
      simp [insertHead, hhead, hxb, hne x (List.mem_cons_of_mem b hx)]

/-- The fields that `unlink` writes belong to the node and its two neighbours. -/
theorem unlink_next (hc : c ≠ a) (hp : s.prev a ≠ some a) :
    (unlink s a).next c = if s.prev a = some c then s.next a else s.next c := by
  unfold unlink
  cases hprev : s.prev a with
  | none => cases hnext : s.next a <;> simp [hnext, hc]
  | some b =>
    have hba : a ≠ b := fun he => hp (hprev.trans (congrArg some he.symm))
    by_cases hcb : c = b
    · subst hcb
      cases hnext : s.next a <;> simp [hnext, hba, hc]
    · cases hnext : s.next a <;> simp [hnext, hba, hc, hcb, Ne.symm hcb]

theorem unlink_prev (hc : c ≠ a) (hp : s.prev a ≠ some a) :
    (unlink s a).prev c = if s.next a = some c then s.prev a else s.prev c := by
  unfold unlink
  cases hprev : s.prev a with
  | none =>
    cases hnext : s.next a with
    | none => simp [hc, hnext]
    | some b =>
      by_cases hcb : c = b
      · subst hcb
        simp [hc, hnext, hprev]
      · simp [hc, hnext, hcb, Ne.symm hcb]
  | some b' =>
    have hba : a ≠ b' := fun he => hp (hprev.trans (congrArg some he.symm))
    cases hnext : s.next a with
    | none => simp [hc, hnext, hba]
    | some b =>
      by_cases hcb : c = b
      · subst hcb
        simp [hc, hnext, hprev, hba]
      · simp [hc, hnext, hba, hcb, Ne.symm hcb]

theorem unlink_head (hp : s.prev a ≠ some a) :
    (unlink s a).head = if s.prev a = none then s.next a else s.head := by
  unfold unlink
  cases hprev : s.prev a with
  | none => cases hnext : s.next a <;> simp [hnext]
  | some b =>
    have hba : a ≠ b := fun he => hp (hprev.trans (congrArg some he.symm))
    cases hnext : s.next a <;> simp [hnext, hba]

/-- The pointers around the removed node lead past it. -/
theorem Chain.unlink {front back : List α} (h : Chain s before p (front ++ a :: back))
    (hnodup : (front ++ a :: back).Nodup) (hbefore : ∀ b, before = some b → b ∉ front ++ a :: back) :
    Chain (unlink s a) before (if front = [] then s.next a else p) (front ++ back) := by
  obtain ⟨hprev, hnext, hback⟩ := h.split
  have hself : s.prev a ≠ some a := by
    intro he
    rw [hprev] at he
    rcases Option.or_eq_some_iff.mp he with hlast | ⟨-, hb⟩
    · exact (List.nodup_append.mp hnodup).2.2 a (List.mem_of_getLast? hlast) a (by simp) rfl
    · exact hbefore a hb (by simp)
  induction front generalizing before p with
  | nil =>
    rw [if_pos rfl]
    -- the node itself: what is before it now leads to what is behind it
    obtain rfl : before = s.prev a := by simpa using hprev.symm
    rw [List.nil_append] at hnodup hbefore ⊢
    cases back with
    | nil => exact hnext
    | cons b back =>
      have hba : b ≠ a := by
        rintro rfl
        simp at hnodup
      have hbb : s.prev a ≠ some b := fun he => hbefore b he (by simp)
      rw [List.head?_cons] at hnext
      refine ⟨hnext, ?_, ?_⟩
      · rw [unlink_prev hba hself, if_pos hnext]
      · rw [unlink_next hba hself, if_neg hbb]
        -- the nodes further behind keep their pointers
        refine hback.2.2.congr (fun x hx => ?_) fun x hx => ?_
        · have hxa : x ≠ a := fun he => (List.nodup_cons.mp hnodup).1 (by simp [← he, hx])
          rw [unlink_next hxa hself, if_neg fun he => hbefore x he (by simp [hx])]
        · have hxa : x ≠ a := fun he => (List.nodup_cons.mp hnodup).1 (by simp [← he, hx])
          have hxb : x ≠ b := by
            rintro rfl
            simp [hx] at hnodup
          have hnx : s.next a ≠ some x := fun he => hxb (Option.some.inj (he.symm.trans hnext))
          rw [unlink_prev hxa hself, if_neg hnx]
  | cons c front ih =>
    obtain ⟨hhead, hcprev, htail⟩ := h
    rw [List.cons_append] at hnodup
    obtain ⟨hc, hnodup'⟩ := List.nodup_cons.mp hnodup
    have hca : c ≠ a := fun he => hc (by simp [he])
    have hbefore' : ∀ b, some c = some b → b ∉ front ++ a :: back := by
      rintro b hb
      rwa [← Option.some.inj hb]
    have hprev' : s.prev a = front.getLast?.or (some c) := by rw [hprev, getLast?_cons_or]
    -- a node in front: its `next` changes only when the removed one follows it
    have hrest := ih htail hnodup' hbefore' hprev'
    refine ⟨by simpa using hhead, ?_, ?_⟩
    · have hnc : s.next a ≠ some c := by
        intro he
        rw [hnext] at he
        exact hc (List.mem_append_right _ (List.mem_cons_of_mem a (List.mem_of_head? he)))
      rw [unlink_prev hca hself, if_neg hnc, hcprev]
    · rw [unlink_next hca hself]
      cases front with
      | nil =>
        rw [if_pos (by simpa using hprev')]
        simpa using hrest
      | cons d front =>
        have hpc : s.prev a ≠ some c := by
          intro he
          rw [hprev'] at he
          rcases Option.or_eq_some_iff.mp he with hlast | ⟨hlast, -⟩
          · exact hc (List.mem_append_left _ (List.mem_of_getLast? hlast))
          · simp at hlast
        rw [if_neg hpc]
        simpa using hrest

/-- The list after the removal of a node. -/
theorem unlink_represents (h : Represents s l) (ha : a ∈ l) : Represents (unlink s a) (l.erase a) := by
  obtain ⟨front, back, rfl⟩ := List.append_of_mem ha
  have hfront : a ∉ front := fun hmem => (List.nodup_append.mp h.nodup).2.2 a hmem a (by simp) rfl
  -- a node that is its own neighbour would stand twice in the list
  have hself : s.prev a ≠ some a := by
    intro he
    rw [h.chain.split.1, Option.or_none] at he
    exact hfront (List.mem_of_getLast? he)
  refine ⟨?_, h.nodup.erase a⟩
  rw [List.erase_append_right _ hfront, List.erase_cons_head]
  have hchain := h.chain.unlink h.nodup (by simp)
  rw [unlink_head hself]
  convert hchain using 2
  rw [h.chain.split.1, Option.or_none, List.getLast?_eq_none_iff]

end DoublyLinked
