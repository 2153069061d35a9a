import Mathlib.Data.List.Nodup
import Mathlib.Logic.Function.Basic

namespace Custody

variable {ι κ : Type*}

inductive Event
  | put | take | drop

structure Fate where
  put : ℕ
  taken : ℕ
  dropped : ℕ
  deriving DecidableEq

def Fate.add (n : Fate) : Option Event → Fate
  | none => n
  | some .put => { n with put := n.put + 1 }
  | some .take => { n with taken := n.taken + 1 }
  | some .drop => { n with dropped := n.dropped + 1 }

structure Store (ι κ : Type*) where
  shelf : List ι
  hand : κ → List ι

/-- The fate of every item is that of its place. -/
structure Store.Sound (x : Store ι κ) (f : ι → Fate) : Prop where
  shelfNodup : x.shelf.Nodup
  handNodup : ∀ k, (x.hand k).Nodup
  alone : ∀ k k' i, i ∈ x.hand k → i ∈ x.hand k' → k = k'
  shelved : ∀ i ∈ x.shelf, f i = ⟨1, 0, 0⟩
  held : ∀ k, ∀ i ∈ x.hand k, f i = ⟨1, 1, 0⟩
  apart : ∀ i, i ∉ x.shelf → (∀ k, i ∉ x.hand k) → f i = ⟨0, 0, 0⟩ ∨ f i = ⟨1, 1, 1⟩

variable {x : Store ι κ} {f g : ι → Fate} {i : ι} {k : κ}

theorem Store.Sound.cases (h : x.Sound f) (i : ι) :
    i ∈ x.shelf ∧ f i = ⟨1, 0, 0⟩ ∨ i ∉ x.shelf ∧ (∃ k, i ∈ x.hand k) ∧ f i = ⟨1, 1, 0⟩ ∨
      i ∉ x.shelf ∧ (f i = ⟨0, 0, 0⟩ ∨ f i = ⟨1, 1, 1⟩) := by
  by_cases hs : i ∈ x.shelf
  · exact .inl ⟨hs, h.shelved i hs⟩
  · by_cases hk : ∃ k, i ∈ x.hand k
    · obtain ⟨k, hk'⟩ := hk
      exact .inr (.inl ⟨hs, ⟨k, hk'⟩, h.held k i hk'⟩)
    · exact .inr (.inr ⟨hs, h.apart i hs (not_exists.mp hk)⟩)

theorem Store.Sound.put_le (h : x.Sound f) (i : ι) : (f i).put ≤ 1 := by
  rcases h.cases i with ⟨-, hf⟩ | ⟨-, -, hf⟩ | ⟨-, hf | hf⟩ <;> simp [hf]

theorem Store.Sound.put_eq (h : x.Sound f) (i : ι) [Decidable (i ∈ x.shelf)] :
    (f i).put = (f i).taken + if i ∈ x.shelf then 1 else 0 := by
  rcases h.cases i with ⟨hs, hf⟩ | ⟨hs, -, hf⟩ | ⟨hs, hf | hf⟩ <;> simp [hs, hf]

theorem Store.Sound.dropped_le (h : x.Sound f) (i : ι) : (f i).dropped ≤ (f i).taken := by
  rcases h.cases i with ⟨-, hf⟩ | ⟨-, -, hf⟩ | ⟨-, hf | hf⟩ <;> simp [hf]

/-- With empty hands everything taken has been dropped. -/
theorem Store.Sound.dropped_eq (h : x.Sound f) (hk : ∀ k, x.hand k = []) (i : ι) :
    (f i).dropped = (f i).taken := by
  rcases h.cases i with ⟨-, hf⟩ | ⟨-, ⟨k, hi⟩, -⟩ | ⟨-, hf | hf⟩
  · simp [hf]
  · simp [hk k] at hi
  · simp [hf]
  · simp [hf]

theorem Store.Sound.init (k : κ → List ι) (hk : ∀ n, k n = []) :
    Store.Sound ⟨[], k⟩ fun _ => ⟨0, 0, 0⟩ := by
  refine ⟨List.nodup_nil, fun n => ?_, fun n n' i hi => ?_, fun i hi => ?_, fun n i hi => ?_,
    fun _ _ _ => .inl rfl⟩
  · simp [hk n]
  · simp [hk n] at hi
  · simp at hi
  · simp [hk n] at hi

theorem Store.Sound.put (h : x.Sound f) (hi : f i = ⟨0, 0, 0⟩) (hgi : g i = ⟨1, 0, 0⟩)
    (hg : ∀ j, j ≠ i → g j = f j) : Store.Sound ⟨i :: x.shelf, x.hand⟩ g := by
  have hshelf : i ∉ x.shelf := fun hm => by
    have := h.shelved i hm
    simp [hi] at this
  have hhand : ∀ k, i ∉ x.hand k := fun k hm => by
    have := h.held k i hm
    simp [hi] at this
  refine ⟨List.nodup_cons.mpr ⟨hshelf, h.shelfNodup⟩, h.handNodup, h.alone, fun j hj => ?_,
    fun k j hj => ?_, fun j hj hk => ?_⟩
  · rcases List.mem_cons.mp hj with rfl | hj'
    · exact hgi
    · rw [hg j fun he => hshelf (he ▸ hj')]
      exact h.shelved j hj'
  · rw [hg j fun he => hhand k (he ▸ hj)]
    exact h.held k j hj
  · obtain ⟨hne, hj'⟩ := not_or.mp (mt List.mem_cons.mpr hj)
    rw [hg j hne]
    exact h.apart j hj' hk

variable [DecidableEq κ]

/-- An empty hand takes every item that `keep` refuses. -/
theorem Store.Sound.take {keep : ι → Bool} {l : List ι} (h : x.Sound f) (hk : x.hand k = [])
    (hl : l.Nodup) (hm : ∀ i, i ∈ l ↔ i ∈ x.shelf ∧ keep i = false)
    (hgl : ∀ i ∈ l, g i = ⟨1, 1, 0⟩) (hg : ∀ i ∉ l, g i = f i) :
    Store.Sound ⟨x.shelf.filter keep, Function.update x.hand k l⟩ g := by
  have hold : ∀ {n i}, i ∈ x.hand n → i ∉ l := fun {n i} hi hil => by
    have hs := h.shelved i ((hm i).mp hil).1
    rw [h.held n i hi] at hs
    simp at hs
  have hand : ∀ {n i}, i ∈ Function.update x.hand k l n → n = k ∧ i ∈ l ∨ n ≠ k ∧ i ∈ x.hand n := by
    intro n i hi
    by_cases hn : n = k
    · subst hn
      exact .inl ⟨rfl, by simpa using hi⟩
    · exact .inr ⟨hn, by simpa [hn] using hi⟩
  refine ⟨h.shelfNodup.filter _, fun n => ?_, fun n n' i hi hi' => ?_, fun i hi => ?_,
    fun n i hi => ?_, fun i hi hn => ?_⟩
  · by_cases hn : n = k
    · subst hn
      simpa using hl
    · simpa [hn] using h.handNodup n
  · rcases hand hi with ⟨rfl, hil⟩ | ⟨hn, hx⟩ <;> rcases hand hi' with ⟨rfl, hil'⟩ | ⟨hn', hx'⟩
    · rfl
    · exact absurd hil (hold hx')
    · exact absurd hil' (hold hx)
    · exact h.alone n n' i hx hx'
  · obtain ⟨hs, hkeep⟩ := List.mem_filter.mp hi
    rw [hg i fun hil => by simp [((hm i).mp hil).2] at hkeep]
    exact h.shelved i hs
  · rcases hand hi with ⟨rfl, hil⟩ | ⟨hn, hx⟩
    · exact hgl i hil
    · rw [hg i (hold hx)]
      exact h.held n i hx
  · have hil : i ∉ l := by simpa using hn k
    have hs : i ∉ x.shelf := fun hs => by
      have hf : keep i ≠ false := fun hf => hil ((hm i).mpr ⟨hs, hf⟩)
      exact hi (List.mem_filter.mpr ⟨hs, by simpa using hf⟩)
    rw [hg i hil]
    refine h.apart i hs fun n hx => ?_
    by_cases hnk : n = k
    · subst hnk
      simp [hk] at hx
    · exact hn n (by simpa [hnk] using hx)

/-- A hand drops the first of its items. -/
theorem Store.Sound.drop {l : List ι} (h : x.Sound f) (hk : x.hand k = i :: l)
    (hgi : g i = ⟨1, 1, 1⟩) (hg : ∀ j, j ≠ i → g j = f j) :
    Store.Sound ⟨x.shelf, Function.update x.hand k l⟩ g := by
  have hnd := h.handNodup k
  rw [hk, List.nodup_cons] at hnd
  have hik : i ∈ x.hand k := by simp [hk]
  have hand : ∀ {n j}, j ∈ Function.update x.hand k l n → j ≠ i ∧ j ∈ x.hand n := by
    intro n j hj
    by_cases hn : n = k
    · subst hn
      have hjl : j ∈ l := by simpa using hj
      exact ⟨fun he => hnd.1 (he ▸ hjl), by simp [hk, hjl]⟩
    · have hj' : j ∈ x.hand n := by simpa [hn] using hj
      exact ⟨fun he => hn (h.alone n k i (he ▸ hj') hik), hj'⟩
  refine ⟨h.shelfNodup, fun n => ?_, fun n n' j hj hj' => h.alone n n' j (hand hj).2 (hand hj').2,
    fun j hj => ?_, fun n j hj => ?_, fun j hj hn => ?_⟩
  · by_cases hn : n = k
    · subst hn
      simpa using hnd.2
    · simpa [hn] using h.handNodup n
  · have hne : j ≠ i := fun he => by
      have := h.shelved j hj
      rw [he, h.held k i hik] at this
      simp at this
    rw [hg j hne]
    exact h.shelved j hj
  · rw [hg j (hand hj).1]
    exact h.held n j (hand hj).2
  · by_cases hne : j = i
    · rw [hne]
      exact .inr hgi
    · rw [hg j hne]
      refine h.apart j hj fun n hx => hn n ?_
      by_cases hnk : n = k
      · subst hnk
        simp only [hk, List.mem_cons] at hx
        simpa using hx.resolve_left hne
      · simpa [hnk] using hx

end Custody
