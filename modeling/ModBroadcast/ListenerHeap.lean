import ModBroadcast.Automaton
import ModBroadcast.DoublyLinked
import ModBroadcast.Members

namespace ModBroadcast

open Automaton DoublyLinked

/-- The fields of `broadcast_obj_t` and of the members that make up the list. -/
structure ListenerHeap where
  links : Links ℕ
  listener_count : ℕ
  stat_peak_listeners : ℕ

/-- `broadcast_create` starts with the list empty. -/
def ListenerHeap.create : ListenerHeap := ⟨.empty, 0, 0⟩

/-- `broadcast_listener_add`, with what its tests of `destroyed` and `BFLAG_LOCKED` have
found. -/
def ListenerHeap.add (max_listeners : ℕ) (destroyed locked : Bool) (s : ListenerHeap) (m : ℕ) :
    ListenerHeap × Bool :=
  if destroyed then (s, false)
  else if locked then (s, false)
  else if max_listeners ≤ s.listener_count then (s, false)
  else
    ({ links := insertHead s.links m
       listener_count := s.listener_count + 1
       stat_peak_listeners :=
        if s.stat_peak_listeners < s.listener_count + 1 then s.listener_count + 1
        else s.stat_peak_listeners }, true)

/-- The loop and the unlinking that both removals share; `none` when the loop has not come
to its end within `fuel` rounds. -/
def ListenerHeap.remove (fuel : ℕ) (s : ListenerHeap) (m : ℕ) : Option (ListenerHeap × Bool) :=
  (search s.links m fuel s.links.head).map fun found =>
    if found then
      ({ s with
         links := unlink s.links m
         listener_count := if s.listener_count ≠ 0 then s.listener_count - 1 else s.listener_count },
        true)
    else (s, false)

def ListenerHeap.unlinkForPromotion (fuel : ℕ) (s : ListenerHeap) (m : ℕ) :
    Option (ListenerHeap × Bool) := s.remove fuel m

def ListenerHeap.del (fuel : ℕ) (s : ListenerHeap) (m : ℕ) : Option (ListenerHeap × Bool) :=
  (s.remove fuel m).map fun x => (x.1, true)

inductive HeapAction
  | add (m : ℕ) (destroyed locked : Bool)
  | unlinkForPromotion (m fuel : ℕ)
  | del (m fuel : ℕ)
  deriving DecidableEq

def heapStep (max_listeners : ℕ) (s : ListenerHeap) : HeapAction → Option ListenerHeap
  | .add m destroyed locked => some (s.add max_listeners destroyed locked m).1
  | .unlinkForPromotion m fuel => (s.unlinkForPromotion fuel m).map Prod.fst
  | .del m fuel => (s.del fuel m).map Prod.fst

variable {M m n fuel : ℕ} {s t : ListenerHeap} {a : HeapAction} {h : List (ListenerHeap × HeapAction)}
  {l : List ℕ}

def ListenerHeap.Admits (M : ℕ) (s : ListenerHeap) (destroyed locked : Bool) : Prop :=
  destroyed = false ∧ locked = false ∧ s.listener_count < M

instance (destroyed locked : Bool) : Decidable (s.Admits M destroyed locked) :=
  inferInstanceAs (Decidable (_ ∧ _ ∧ _))

def AddedSince (M : ℕ) : List (ListenerHeap × HeapAction) → ℕ → Prop
  | [], _ => False
  | (s, .add n destroyed locked) :: h, m =>
    m = n ∧ s.Admits M destroyed locked ∨ AddedSince M h m
  | (_, .unlinkForPromotion n _) :: h, m | (_, .del n _) :: h, m => m ≠ n ∧ AddedSince M h m

/-- A member is added only when it is not on the list. -/
def AddsUnlinked (s : ListenerHeap) (a : HeapAction) : Prop :=
  ∀ m destroyed locked l, a = .add m destroyed locked → Represents s.links l → m ∉ l

def peakCount (h : List (ListenerHeap × HeapAction)) (s : ListenerHeap) : ℕ :=
  h.foldr (fun x n => max x.1.listener_count n) s.listener_count

structure HeapSound (M : ℕ) (h : List (ListenerHeap × HeapAction)) (s : ListenerHeap)
    (l : List ℕ) : Prop where
  represents : Represents s.links l
  members : ∀ m, m ∈ l ↔ AddedSince M h m
  count : s.listener_count = l.length
  bound : s.listener_count ≤ M
  peak : s.stat_peak_listeners = peakCount h s

theorem HeapSound.create : HeapSound M [] .create [] where
  represents := represents_empty
  members m := by simp [AddedSince]
  count := rfl
  bound := Nat.zero_le M
  peak := rfl

theorem add_admitted {destroyed locked : Bool} (ha : s.Admits M destroyed locked) :
    s.add M destroyed locked m =
      (⟨insertHead s.links m, s.listener_count + 1,
        if s.stat_peak_listeners < s.listener_count + 1 then s.listener_count + 1
        else s.stat_peak_listeners⟩, true) := by
  obtain ⟨hd, hl, hc⟩ := ha
  simp [ListenerHeap.add, hd, hl, Nat.not_le.mpr hc]

theorem add_refused {destroyed locked : Bool} (ha : ¬ s.Admits M destroyed locked) :
    s.add M destroyed locked m = (s, false) := by
  by_cases hd : destroyed = true
  · simp [ListenerHeap.add, hd]
  · by_cases hl : locked = true
    · simp [ListenerHeap.add, hl]
    · have hc : M ≤ s.listener_count := by
        by_contra hc
        exact ha ⟨by simpa using hd, by simpa using hl, Nat.lt_of_not_le hc⟩
      simp [ListenerHeap.add, hd, hl, hc]

/-- A removal that ends has taken the member out if it was there. -/
theorem remove_eq {x : ListenerHeap × Bool} (hr : Represents s.links l)
    (hc : s.listener_count = l.length) (hx : s.remove fuel m = some x) :
    x = if m ∈ l then ({ s with links := unlink s.links m, listener_count := s.listener_count - 1 }, true)
      else (s, false) := by
  obtain ⟨found, hfound, rfl⟩ := Option.map_eq_some_iff.mp hx
  rw [hr.chain.of_search hfound]
  by_cases hm : m ∈ l
  · have hpos := List.length_pos_of_mem hm
    have hne : s.listener_count ≠ 0 := by omega
    simp [hm, hne]
  · simp [hm]

/-- The loop of a removal ends. -/
theorem remove_ends (hr : Represents s.links l) (hfuel : l.length ≤ fuel) :
    (s.remove fuel m).isSome := by
  simp [ListenerHeap.remove, hr.chain.search m hfuel]

theorem peakCount_cons (a : HeapAction) : peakCount ((s, a) :: h) t =
    max s.listener_count (peakCount h t) := rfl

theorem le_peakCount : s.listener_count ≤ peakCount h s := by
  induction h with
  | nil => exact Nat.le_refl _
  | cons x h ih => exact Nat.le_trans ih (Nat.le_max_right ..)

/-- The history before `t` has the peak of `s`, or `t` itself is higher. -/
theorem peakCount_step (a : HeapAction) :
    peakCount ((s, a) :: h) t = max (peakCount h s) t.listener_count := by
  rw [peakCount_cons]
  induction h with
  | nil => rfl
  | cons x h ih =>
    have hs : peakCount (x :: h) s = max x.1.listener_count (peakCount h s) := rfl
    have ht : peakCount (x :: h) t = max x.1.listener_count (peakCount h t) := rfl
    rw [hs, ht]
    omega

theorem HeapSound.add (hi : HeapSound M h s l) {destroyed locked : Bool} (hm : m ∉ l)
    (ha : s.Admits M destroyed locked) :
    HeapSound M ((s, .add m destroyed locked) :: h) (s.add M destroyed locked m).1 (m :: l) := by
  rw [add_admitted ha]
  constructor
  · exact insertHead_represents hi.represents hm
  · intro n
    simp [AddedSince, ha, hi.members n]
  · simp [hi.count]
  · exact ha.2.2
  · rw [peakCount_step, ← hi.peak]
    dsimp only
    split_ifs <;> omega

theorem HeapSound.peak_same (hi : HeapSound M h s l) (a : HeapAction) (ht : t.listener_count ≤ s.listener_count)
    (hp : t.stat_peak_listeners = s.stat_peak_listeners) :
    t.stat_peak_listeners = peakCount ((s, a) :: h) t := by
  have hle : s.listener_count ≤ peakCount h s := le_peakCount
  rw [peakCount_step, hp, hi.peak]
  omega

theorem HeapSound.refuse (hi : HeapSound M h s l) {destroyed locked : Bool}
    (ha : ¬ s.Admits M destroyed locked) :
    HeapSound M ((s, .add m destroyed locked) :: h) (s.add M destroyed locked m).1 l := by
  rw [add_refused ha]
  refine ⟨hi.represents, fun n => ?_, hi.count, hi.bound, hi.peak_same _ (Nat.le_refl _) rfl⟩
  simp [AddedSince, ha, hi.members n]

theorem HeapSound.remove (hi : HeapSound M h s l) {x : ListenerHeap × Bool}
    (hx : s.remove fuel m = some x)
    (ha : ∀ n, AddedSince M ((s, a) :: h) n ↔ n ≠ m ∧ AddedSince M h n) :
    HeapSound M ((s, a) :: h) x.1 (l.erase m) := by
  have hmem : ∀ n, n ∈ l.erase m ↔ AddedSince M ((s, a) :: h) n := fun n => by
    rw [hi.represents.nodup.mem_erase_iff, ha n, hi.members n]
  -- the search finds `m` exactly when it is on the list
  rw [remove_eq hi.represents hi.count hx]
  have hbound := hi.bound
  by_cases hm : m ∈ l
  · rw [if_pos hm]
    refine ⟨unlink_represents hi.represents hm, hmem, ?_, ?_, hi.peak_same _ ?_ rfl⟩
    · rw [List.length_erase_of_mem hm, ← hi.count]
    · dsimp only
      omega
    · dsimp only
      omega
  · rw [if_neg hm]
    rw [List.erase_of_not_mem hm] at hmem ⊢
    exact ⟨hi.represents, hmem, hi.count, hbound, hi.peak_same _ (Nat.le_refl _) rfl⟩

/-- Every operation keeps the list in order. -/
theorem HeapSound.step (hi : HeapSound M h s l) (hg : AddsUnlinked s a)
    (hs : heapStep M s a = some t) : ∃ l', HeapSound M ((s, a) :: h) t l' := by
  cases a with
  | add m destroyed locked =>
    obtain rfl := Option.some.inj hs
    by_cases ha : s.Admits M destroyed locked
    · exact ⟨m :: l, hi.add (hg m destroyed locked l rfl hi.represents) ha⟩
    · exact ⟨l, hi.refuse ha⟩
  | unlinkForPromotion m fuel =>
    obtain ⟨x, hx, rfl⟩ := Option.map_eq_some_iff.mp hs
    exact ⟨l.erase m, hi.remove hx fun n => Iff.rfl⟩
  | del m fuel =>
    obtain ⟨y, hy, rfl⟩ := Option.map_eq_some_iff.mp hs
    obtain ⟨x, hx, rfl⟩ := Option.map_eq_some_iff.mp hy
    exact ⟨l.erase m, hi.remove (x := x) hx fun n => Iff.rfl⟩

end ModBroadcast
