import Mathlib.Data.List.Nodup

namespace KeyedList

variable {κ β : Type*} {l : List (κ × β)} {k : κ} {v v' : β}

def Keyed (l : List (κ × β)) : Prop := (l.map Prod.fst).Nodup

theorem keyed_nil : Keyed ([] : List (κ × β)) := List.nodup_nil

theorem Keyed.cons (hl : Keyed l) (hk : ∀ w, (k, w) ∉ l) : Keyed ((k, v) :: l) := by
  refine List.nodup_cons.mpr ⟨fun hmem => ?_, hl⟩
  obtain ⟨⟨k', w⟩, he, rfl⟩ := List.mem_map.mp hmem
  exact hk w he

theorem Keyed.filter (hl : Keyed l) (p : κ × β → Bool) : Keyed (l.filter p) :=
  (List.filter_sublist.map Prod.fst).nodup hl

theorem Keyed.eq_of_mem (hl : Keyed l) (h : (k, v) ∈ l) (h' : (k, v') ∈ l) : v = v' := by
  have := List.inj_on_of_nodup_map hl h h' rfl
  exact (Prod.mk.inj this).2

variable [DecidableEq κ]

theorem lookup_mem (h : l.lookup k = some v) : (k, v) ∈ l := by
  obtain ⟨l', l'', rfl, -⟩ := List.lookup_eq_some_iff.mp h
  exact List.mem_append_right _ (List.mem_cons_self ..)

theorem Keyed.lookup (hl : Keyed l) (h : (k, v) ∈ l) : l.lookup k = some v := by
  cases hf : l.lookup k with
  | none =>
    have := List.lookup_eq_none_iff.mp hf _ h
    simp at this
  | some w => rw [hl.eq_of_mem h (lookup_mem hf)]

theorem notMem_of_lookup (h : l.lookup k = none) (w : β) : (k, w) ∉ l := by
  intro hmem
  have := List.lookup_eq_none_iff.mp h _ hmem
  simp at this

/-- Removing a key that is present takes one entry away. -/
theorem Keyed.length_remove (hl : Keyed l) (h : (k, v) ∈ l) :
    (l.filter fun e => e.1 ≠ k).length + 1 = l.length := by
  induction l with
  | nil => cases h
  | cons e l ih =>
    obtain ⟨hnot, hl'⟩ := List.nodup_cons.mp hl
    by_cases he : e.1 = k
    · have hall : l.filter (fun e => e.1 ≠ k) = l := by
        refine List.filter_eq_self.mpr fun d hd => ?_
        have : d.1 ≠ k := fun hdk => hnot (he.trans hdk.symm ▸ List.mem_map_of_mem hd)
        simpa using this
      rw [List.filter_cons_of_neg (by simpa using he), hall, List.length_cons]
    · have hmem : (k, v) ∈ l := by
        rcases List.mem_cons.mp h with rfl | h
        · exact absurd rfl he
        · exact h
      rw [List.filter_cons_of_pos (by simpa using he), List.length_cons, List.length_cons,
        ih hl' hmem]

end KeyedList
