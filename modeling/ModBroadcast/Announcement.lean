import Mathlib.Logic.Function.Basic

namespace Announcement

/-- The value, what the announcements made so far say of it, and for every thread what it has
stored and still has to announce. -/
structure News (ι V : Type*) where
  value : V
  announced : V
  pending : ι → Option V

variable {ι V : Type*} {x y : News ι V} {i j : ι} {who : Option ι} {v : V}

/-- The last announcement is of the value, or one of the value is still to come. -/
def News.Covered (x : News ι V) : Prop := x.announced = x.value ∨ ∃ i, x.pending i = some x.value

/-- What the thread announces is the value, or another thread has yet to announce that. -/
def News.InTime (x : News ι V) (i : ι) : Prop :=
  ∀ v, x.pending i = some v → v = x.value ∨ ∃ j, j ≠ i ∧ x.pending j = some x.value

inductive News.Step (who : Option ι) (x y : News ι V) : Prop
  | change (i : ι) (h : y.pending i = some y.value)
  | announce (i : ι) (hi : who = some i) (ha : x.pending i = some y.announced)
      (h : y.value = x.value) (ho : ∀ j, j ≠ i → y.pending j = x.pending j)
  | keep (h : y.value = x.value) (ha : y.announced = x.announced) (ho : y.pending = x.pending)

theorem News.Covered.step (hc : x.Covered) (hs : News.Step who x y)
    (ht : ∀ i, who = some i → x.InTime i) : y.Covered := by
  cases hs with
  | change i h => exact .inr ⟨i, h⟩
  | announce i hi ha h ho =>
    rcases ht i hi _ ha with hv | ⟨j, hj, hp⟩
    · exact .inl (hv.trans h.symm)
    · exact .inr ⟨j, by rw [ho j hj, hp, h]⟩
  | keep h ha ho =>
    rcases hc with hv | ⟨i, hp⟩
    · exact .inl (by rw [ha, hv, h])
    · exact .inr ⟨i, by rw [ho, hp, h]⟩

/-- When nobody has anything left to announce, the announcements tell the value. -/
theorem News.Covered.told (hc : x.Covered) (hq : ∀ i, x.pending i = none) :
    x.announced = x.value := by
  rcases hc with hv | ⟨i, hp⟩
  · exact hv
  · rw [hq i] at hp
    cases hp

variable {ε : Type*} {reads : ε → Option V} {l l' : List ε} {e : ε}

/-- What the latest event that tells the value says of it; the latest event comes first. -/
def replay (reads : ε → Option V) (d : V) (l : List ε) : V := (l.findSome? reads).getD d

theorem replay_cons (he : reads e = some v) (d : V) : replay reads d (e :: l) = v := by
  simp [replay, he]

theorem replay_append (hl : ∀ e ∈ l, reads e = none) (d : V) :
    replay reads d (l ++ l') = replay reads d l' := by
  have hnone : l.findSome? reads = none := List.findSome?_eq_none_iff.mpr hl
  simp [replay, hnone]

/-- Events that tell nothing of the value do not change what the tape says of it. -/
theorem replay_insert (hl : ∀ e ∈ l, reads e = none) (k : List ε) (d : V) :
    replay reads d (k ++ (l ++ l')) = replay reads d (k ++ l') := by
  have hnone : l.findSome? reads = none := List.findSome?_eq_none_iff.mpr hl
  simp [replay, hnone]

end Announcement
