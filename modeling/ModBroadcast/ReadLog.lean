import Mathlib.Data.List.Sort
import Mathlib.Logic.Function.Basic
import ModBroadcast.Automaton

namespace ReadLog

open Automaton

variable {ι α : Type*}

/-- The place where a reader has entered and the one it has come to. -/
structure Reader where
  first : ℕ
  next : ℕ
  deriving DecidableEq

/-- `taken` has what each reader has taken, with its numbers, the latest first. -/
structure Log (ι α : Type*) where
  entries : List α
  reader : ι → Option Reader
  taken : ι → List (ℕ × α)

def Log.empty : Log ι α := ⟨[], fun _ => none, fun _ => []⟩

inductive LogAction (ι α : Type*)
  | append (x : α)
  | enter (i : ι) (k : ℕ)
  | pass (i : ι) (k : ℕ)
  | take (i : ι)

def logStep [DecidableEq ι] (l : Log ι α) : LogAction ι α → Option (Log ι α)
  | .append x => some { l with entries := l.entries ++ [x] }
  | .enter i k =>
    match l.reader i with
    | some _ => none
    | none =>
      if k ≤ l.entries.length then
        some { l with reader := Function.update l.reader i (some ⟨k, k⟩) }
      else none
  | .pass i k =>
    match l.reader i with
    | none => none
    | some r =>
      if r.next ≤ k ∧ k ≤ l.entries.length then
        some { l with reader := Function.update l.reader i (some ⟨r.first, k⟩) }
      else none
  | .take i =>
    match l.reader i with
    | none => none
    | some r => l.entries[r.next]?.map fun x =>
      { l with
        reader := Function.update l.reader i (some ⟨r.first, r.next + 1⟩)
        taken := Function.update l.taken i ((r.next, x) :: l.taken i) }

def numbered (l : List α) : List (ℕ × α) := l.zipIdx.map Prod.swap

/-- The entries from the number `a` to the one before `b`. -/
def between (l : List α) (a b : ℕ) : List (ℕ × α) := ((numbered l).take b).drop a

variable {l : List α} {x : ℕ × α} {a b : ℕ}

@[simp] theorem length_numbered (l : List α) : (numbered l).length = l.length := by
  simp [numbered]

theorem getElem?_numbered (l : List α) (k : ℕ) :
    (numbered l)[k]? = l[k]?.map fun x => (k, x) := by
  simp [numbered, Function.comp_def]

theorem mem_numbered : x ∈ numbered l ↔ l[x.1]? = some x.2 := by
  constructor
  · intro hx
    obtain ⟨k, hk⟩ := List.mem_iff_getElem?.mp hx
    rw [getElem?_numbered] at hk
    obtain ⟨y, hy, rfl⟩ := Option.map_eq_some_iff.mp hk
    exact hy
  · intro hx
    refine List.mem_iff_getElem?.mpr ⟨x.1, ?_⟩
    rw [getElem?_numbered, hx]
    rfl

theorem numbered_increasing (l : List α) : (numbered l).Pairwise fun x y => x.1 < y.1 := by
  rw [List.pairwise_iff_getElem]
  intro i j hi hj hij
  simpa [numbered] using hij

theorem between_self (l : List α) (a : ℕ) : between l a a = [] := by
  refine List.drop_eq_nil_of_le ?_
  rw [List.length_take]
  exact min_le_left _ _

theorem between_snoc (y : α) (hb : b ≤ l.length) : between (l ++ [y]) a b = between l a b := by
  have hn : numbered (l ++ [y]) = numbered l ++ [(l.length, y)] := by
    simp [numbered, List.zipIdx_append]
  rw [between, hn, List.take_append_of_le_length (by rwa [length_numbered]), between]

theorem between_succ {y : α} (hab : a ≤ b) (hy : l[b]? = some y) :
    between l a (b + 1) = between l a b ++ [(b, y)] := by
  have hb : b < l.length := (List.getElem?_eq_some_iff.mp hy).1
  have hlen : a ≤ ((numbered l).take b).length := by
    rw [List.length_take, length_numbered]
    omega
  rw [between, List.take_add_one, getElem?_numbered, hy, List.drop_append_of_le_length hlen]
  rfl

theorem mem_between : x ∈ between l a b ↔ a ≤ x.1 ∧ x.1 < b ∧ l[x.1]? = some x.2 := by
  constructor
  · intro hx
    obtain ⟨k, hk⟩ := List.mem_iff_getElem?.mp hx
    rw [between, List.getElem?_drop, List.getElem?_take, getElem?_numbered] at hk
    split_ifs at hk with hlt
    obtain ⟨y, hy, rfl⟩ := Option.map_eq_some_iff.mp hk
    exact ⟨Nat.le_add_right a k, hlt, hy⟩
  · rintro ⟨ha, hb, hx⟩
    refine List.mem_iff_getElem?.mpr ⟨x.1 - a, ?_⟩
    rw [between, List.getElem?_drop, List.getElem?_take, getElem?_numbered,
      Nat.add_sub_cancel' ha, if_pos hb, hx]
    rfl

/-- Entries with increasing numbers are a part of the log in its order. -/
theorem sublist_numbered {m : List (ℕ × α)} (hm : m.Pairwise fun x y => x.1 < y.1)
    (he : ∀ x ∈ m, l[x.1]? = some x.2) : m.Sublist (numbered l) := by
  let lt (x y : ℕ × α) : Prop := x.1 < y.1
  have : Std.Irrefl lt := ⟨fun _ => Nat.lt_irrefl _⟩
  have : Std.Antisymm lt := ⟨fun _ _ h h' => absurd h (Nat.lt_asymm h')⟩
  have hsub : m ⊆ numbered l := fun x hx => mem_numbered.mpr (he x hx)
  exact List.sublist_of_subperm_of_pairwise
    (List.subperm_of_subset (List.Pairwise.nodup (r := lt) hm) hsub) hm (numbered_increasing l)

/-- The numbers say which entries they are. -/
theorem eq_of_numbers {m m' : List (ℕ × α)} (hm : ∀ x ∈ m, l[x.1]? = some x.2)
    (hm' : ∀ x ∈ m', l[x.1]? = some x.2) (h : m.map Prod.fst = m'.map Prod.fst) : m = m' := by
  have hread : ∀ n : List (ℕ × α), (∀ x ∈ n, l[x.1]? = some x.2) →
      n.map some = (n.map Prod.fst).map fun k => l[k]?.map fun x => (k, x) := by
    intro n hn
    rw [List.map_map]
    refine List.map_congr_left fun x hx => ?_
    simp [hn x hx]
  have hsome : m.map some = m'.map some := by rw [hread m hm, hread m' hm', h]
  exact List.map_injective_iff.mpr (Option.some_injective _) hsome

section Steps

variable [DecidableEq ι] {s t : Log ι α} {act : LogAction ι α}

def Log.move (s : Log ι α) (i : ι) (r : Reader) (out : List (ℕ × α)) : Log ι α :=
  { s with
    reader := Function.update s.reader i (some r)
    taken := Function.update s.taken i (out ++ s.taken i) }

@[simp] theorem move_entries (s : Log ι α) (i : ι) (r : Reader) (out : List (ℕ × α)) :
    (s.move i r out).entries = s.entries := rfl

/-- What a reader takes has the number of its place, and it does not go back. -/
inductive Moved (s : Log ι α) : LogAction ι α → Log ι α → Prop
  | append (x : α) : Moved s (.append x) { s with entries := s.entries ++ [x] }
  | enter {i : ι} {k : ℕ} (hi : s.reader i = none) (hk : k ≤ s.entries.length) :
      Moved s (.enter i k) (s.move i ⟨k, k⟩ [])
  | pass {i : ι} {k : ℕ} {r : Reader} (hi : s.reader i = some r) (hle : r.next ≤ k)
      (hk : k ≤ s.entries.length) : Moved s (.pass i k) (s.move i ⟨r.first, k⟩ [])
  | take {i : ι} {r : Reader} {x : α} (hi : s.reader i = some r)
      (hx : s.entries[r.next]? = some x) :
      Moved s (.take i) (s.move i ⟨r.first, r.next + 1⟩ [(r.next, x)])

theorem logStep_moved (hs : logStep s act = some t) : Moved s act t := by
  have hstill : ∀ i, Function.update s.taken i (s.taken i) = s.taken := fun i =>
    Function.update_eq_self i _
  cases act with
  | append x =>
    obtain rfl := Option.some.inj hs
    exact .append x
  | enter i k =>
    cases hi : s.reader i with
    | some r => simp [logStep, hi] at hs
    | none =>
      simp only [logStep, hi] at hs
      split_ifs at hs with hk
      obtain rfl := Option.some.inj hs
      have := Moved.enter hi hk
      rwa [Log.move, List.nil_append, hstill] at this
  | pass i k =>
    cases hi : s.reader i with
    | none => simp [logStep, hi] at hs
    | some r =>
      simp only [logStep, hi] at hs
      split_ifs at hs with hk
      obtain rfl := Option.some.inj hs
      have := Moved.pass hi hk.1 hk.2
      rwa [Log.move, List.nil_append, hstill] at this
  | take i =>
    cases hi : s.reader i with
    | none => simp [logStep, hi] at hs
    | some r =>
      simp only [logStep, hi] at hs
      obtain ⟨x, hx, rfl⟩ := Option.map_eq_some_iff.mp hs
      exact .take hi hx

end Steps

variable {s t : Log ι α} {i : ι}

/-- What the readers and what they have taken satisfy after any run. -/
structure Reads (s : Log ι α) : Prop where
  first_le : ∀ i r, s.reader i = some r → r.first ≤ r.next
  next_le : ∀ i r, s.reader i = some r → r.next ≤ s.entries.length
  nothing : ∀ i, s.reader i = none → s.taken i = []
  below : ∀ i r, s.reader i = some r → ∀ x ∈ s.taken i, r.first ≤ x.1 ∧ x.1 < r.next
  increasing : ∀ i, (s.taken i).Pairwise fun x y => y.1 < x.1
  entry : ∀ i, ∀ x ∈ s.taken i, s.entries[x.1]? = some x.2

theorem Reads.empty : Reads (Log.empty : Log ι α) where
  first_le := by simp [Log.empty]
  next_le := by simp [Log.empty]
  nothing := by simp [Log.empty]
  below := by simp [Log.empty]
  increasing := by simp [Log.empty]
  entry := by simp [Log.empty]

theorem Reads.append (hi : Reads s) (x : α) : Reads { s with entries := s.entries ++ [x] } where
  first_le := hi.first_le
  next_le i r hr := (hi.next_le i r hr).trans (by simp)
  nothing := hi.nothing
  below := hi.below
  increasing := hi.increasing
  entry i y hy := by
    have hold := hi.entry i y hy
    have hlt : y.1 < s.entries.length := (List.getElem?_eq_some_iff.mp hold).1
    rw [List.getElem?_append_left hlt, hold]

/-- What a reader has taken is a part of the log, in the order of the log. -/
theorem Reads.taken_sublist (hi : Reads s) (i : ι) :
    (s.taken i).reverse.Sublist (numbered s.entries) :=
  sublist_numbered (List.pairwise_reverse.mpr (hi.increasing i))
    fun x hx => hi.entry i x (List.mem_reverse.mp hx)

section Runs

variable [DecidableEq ι] {act : LogAction ι α} {h : List (Log ι α × LogAction ι α)}

/-- The reader `i` moves from its place `n` or comes there. -/
theorem Reads.move {first n next : ℕ} {out : List (ℕ × α)} (hi : Reads s)
    (hold : ∀ x ∈ s.taken i, first ≤ x.1 ∧ x.1 < n) (hfirst : first ≤ n) (hn : n ≤ next)
    (hnext : next ≤ s.entries.length) (hout : out.Pairwise fun x y => y.1 < x.1)
    (hnew : ∀ x ∈ out, n ≤ x.1 ∧ x.1 < next ∧ s.entries[x.1]? = some x.2) :
    Reads (s.move i ⟨first, next⟩ out) := by
  have hreader : ∀ j q, (s.move i ⟨first, next⟩ out).reader j = some q →
      j = i ∧ q = ⟨first, next⟩ ∨ j ≠ i ∧ s.reader j = some q := by
    intro j q hq
    by_cases hj : j = i
    · subst hj
      exact .inl ⟨rfl, by simpa [Log.move, eq_comm] using hq⟩
    · exact .inr ⟨hj, by simpa [Log.move, hj] using hq⟩
  have htaken : ∀ j, j = i ∧ (s.move i ⟨first, next⟩ out).taken j = out ++ s.taken i ∨
      j ≠ i ∧ (s.move i ⟨first, next⟩ out).taken j = s.taken j := by
    intro j
    by_cases hj : j = i
    · subst hj
      exact .inl ⟨rfl, by simp [Log.move]⟩
    · exact .inr ⟨hj, by simp [Log.move, hj]⟩
  refine ⟨fun j q hq => ?_, fun j q hq => ?_, fun j hj => ?_, fun j q hq x hx => ?_, fun j => ?_,
    fun j x hx => ?_⟩
  · obtain ⟨-, rfl⟩ | ⟨-, hq⟩ := hreader j q hq
    · exact hfirst.trans hn
    · exact hi.first_le j q hq
  · obtain ⟨-, rfl⟩ | ⟨-, hq⟩ := hreader j q hq
    · exact hnext
    · exact hi.next_le j q hq
  · have hne : j ≠ i := by
      rintro rfl
      simp [Log.move] at hj
    obtain ⟨h, -⟩ | ⟨-, ht⟩ := htaken j
    · exact absurd h hne
    · rw [ht]
      exact hi.nothing j (by simpa [Log.move, hne] using hj)
  · obtain ⟨rfl, rfl⟩ | ⟨hne, hq⟩ := hreader j q hq
    · obtain ⟨-, ht⟩ | ⟨h, -⟩ := htaken j
      · obtain hx | hx := List.mem_append.mp (ht ▸ hx)
        · exact ⟨hfirst.trans (hnew x hx).1, (hnew x hx).2.1⟩
        · exact ⟨(hold x hx).1, (hold x hx).2.trans_le hn⟩
      · exact absurd rfl h
    · obtain ⟨h, -⟩ | ⟨-, ht⟩ := htaken j
      · exact absurd h hne
      · exact hi.below j q hq x (ht ▸ hx)
  · obtain ⟨-, ht⟩ | ⟨-, ht⟩ := htaken j <;> rw [ht]
    · exact List.pairwise_append.mpr ⟨hout, hi.increasing i, fun x hx y hy =>
        (hold y hy).2.trans_le (hnew x hx).1⟩
    · exact hi.increasing j
  · obtain ⟨-, ht⟩ | ⟨-, ht⟩ := htaken j <;> rw [ht] at hx
    · obtain hx | hx := List.mem_append.mp hx
      · exact (hnew x hx).2.2
      · exact hi.entry i x hx
    · exact hi.entry j x hx

theorem Reads.step (hi : Reads s) (hs : logStep s act = some t) : Reads t := by
  cases logStep_moved hs with
  | append x => exact hi.append x
  | enter hnone hk =>
    refine hi.move (fun x hx => ?_) le_rfl le_rfl hk .nil (by simp)
    simp [hi.nothing _ hnone] at hx
  | pass hr hle hk =>
    exact hi.move (hi.below _ _ hr) (hi.first_le _ _ hr) hle hk .nil (by simp)
  | take hr hx =>
    have hlt := (List.getElem?_eq_some_iff.mp hx).1
    refine hi.move (hi.below _ _ hr) (hi.first_le _ _ hr) (Nat.le_succ _) hlt
      (List.pairwise_singleton ..) ?_
    intro x hmem
    obtain rfl := List.mem_singleton.mp hmem
    exact ⟨le_rfl, Nat.lt_succ_self _, hx⟩

theorem Reads.of_run {s₀ : Log ι α} (hr : Run logStep s₀ h s) (hi : Reads s₀) : Reads s :=
  hr.invariant (g := fun _ _ => True) (fun _ _ _ hi _ hs => hi.step hs) (fun _ _ => trivial) hi

end Runs

variable {s₀ : Log ι α} {r : Reader} {act : LogAction ι α} {h : List (Log ι α × LogAction ι α)}

/-- The step passes no entry over that the reader `i` has come to. -/
def Forward (i : ι) (s : Log ι α) (act : LogAction ι α) : Prop :=
  ∀ k, act = .pass i k → ∀ r, s.reader i = some r → r.next = k

def Log.since (s₀ : Log ι α) (i : ι) (r : Reader) : ℕ := ((s₀.reader i).map Reader.next).getD r.first

def TakesAll (s₀ s : Log ι α) (i : ι) (r : Reader) : Prop :=
  (s.taken i).reverse = (s₀.taken i).reverse ++ between s.entries (s₀.since i r) r.next

structure Followed (s₀ : Log ι α) (i : ι) (h : List (Log ι α × LogAction ι α)) (s : Log ι α) :
    Prop where
  reads : Reads s
  outside : s.reader i = none →
    s₀.reader i = none ∧ s₀.taken i = [] ∧ Meets (Forward i) h
  since_le : ∀ r, s.reader i = some r → s₀.since i r ≤ r.next
  all : ∀ r, s.reader i = some r → (TakesAll s₀ s i r ↔ Meets (Forward i) h)

theorem Followed.init (hi : Reads s₀) : Followed s₀ i [] s₀ where
  reads := hi
  outside hnone := ⟨hnone, hi.nothing i hnone, meets_nil _⟩
  since_le r hr := by simp [Log.since, hr]
  all r hr := by simp [TakesAll, Log.since, hr, between_self]

/-- A step that `i` does not take. -/
theorem Followed.other (hi : Followed s₀ i h s) (ht : Reads t) (hr : t.reader i = s.reader i)
    (htaken : t.taken i = s.taken i)
    (he : ∀ a b, b ≤ s.entries.length → between t.entries a b = between s.entries a b)
    (hf : Forward i s act) : Followed s₀ i ((s, act) :: h) t where
  reads := ht
  outside hnone := by
    obtain ⟨h₁, h₂, h₃⟩ := hi.outside (hr ▸ hnone)
    exact ⟨h₁, h₂, meets_cons.mpr ⟨hf, h₃⟩⟩
  since_le r hr' := hi.since_le r (hr ▸ hr')
  all r hr' := by
    rw [hr] at hr'
    rw [meets_cons, ← hi.all r hr', TakesAll, TakesAll, htaken,
      he _ _ (hi.reads.next_le i r hr')]
    exact ⟨fun hall => ⟨hf, hall⟩, fun hall => hall.2⟩

variable [DecidableEq ι]

theorem Followed.step (hi : Followed s₀ i h s) (hs : logStep s act = some t) :
    Followed s₀ i ((s, act) :: h) t := by
  have ht := hi.reads.step hs
  have hmove : ∀ j r (out : List (ℕ × α)), j ≠ i →
      (s.move j r out).reader i = s.reader i ∧ (s.move j r out).taken i = s.taken i :=
    fun j r out hj => ⟨Function.update_of_ne hj.symm .., Function.update_of_ne hj.symm ..⟩
  cases logStep_moved hs with
  | append x =>
    exact hi.other ht rfl rfl (fun a b hb => between_snoc x hb) (by rintro k ⟨⟩)
  | @enter j k hnone hk =>
    by_cases hj : j = i
    · subst hj
      obtain ⟨h₁, h₂, h₃⟩ := hi.outside hnone
      have hsince : s₀.since j ⟨k, k⟩ = k := by simp [Log.since, h₁]
      have hmeets : Meets (Forward j) ((s, .enter j k) :: h) :=
        meets_cons.mpr ⟨(by rintro k ⟨⟩), h₃⟩
      refine ⟨ht, fun hn => ?_, fun r hr => ?_, fun r hr => ?_⟩
      · simp [Log.move] at hn
      · obtain rfl : r = ⟨k, k⟩ := by simpa [Log.move, eq_comm] using hr
        exact hsince.le
      · obtain rfl : r = ⟨k, k⟩ := by simpa [Log.move, eq_comm] using hr
        refine iff_of_true ?_ hmeets
        simp [TakesAll, hsince, between_self, h₂, Log.move, hi.reads.nothing j hnone]
    · obtain ⟨h₁, h₂⟩ := hmove j ⟨k, k⟩ [] hj
      exact hi.other ht h₁ h₂ (fun _ _ _ => rfl) (by rintro k ⟨⟩)
  | @pass j k r hr hle hk =>
    by_cases hj : j = i
    · subst hj
      refine ⟨ht, fun hn => ?_, fun q hq => ?_, fun q hq => ?_⟩
      · simp [Log.move] at hn
      · obtain rfl : q = ⟨r.first, k⟩ := by simpa [Log.move, eq_comm] using hq
        exact (hi.since_le r hr).trans hle
      · obtain rfl : q = ⟨r.first, k⟩ := by simpa [Log.move, eq_comm] using hq
        have htaken : (s.move j ⟨r.first, k⟩ []).taken j = s.taken j := by simp [Log.move]
        obtain rfl | hlt := hle.eq_or_lt
        · -- nothing is passed over
          have hf : Forward j s (.pass j r.next) := by
            rintro k ⟨⟩ q hq
            rw [hr] at hq
            rw [Option.some.inj hq]
          rw [meets_cons, ← hi.all r hr, TakesAll, TakesAll, htaken]
          exact ⟨fun hall => ⟨hf, hall⟩, fun hall => hall.2⟩
        · refine iff_of_false (fun hall => ?_) fun hf => ?_
          · -- the entry at the place has not been taken
            obtain ⟨y, hy⟩ : ∃ y, s.entries[r.next]? = some y :=
              ⟨_, List.getElem?_eq_getElem (by omega)⟩
            have hmem : (r.next, y) ∈ (s.taken j).reverse := by
              rw [← htaken, hall]
              exact List.mem_append_right _ (mem_between.mpr ⟨hi.since_le r hr, hlt, hy⟩)
            have := (hi.reads.below j r hr _ (List.mem_reverse.mp hmem)).2
            exact Nat.lt_irrefl _ this
          · have := (meets_cons.mp hf).1 k rfl r hr
            omega
    · obtain ⟨h₁, h₂⟩ := hmove j ⟨r.first, k⟩ [] hj
      refine hi.other ht h₁ h₂ (fun _ _ _ => rfl) ?_
      rintro k' ⟨⟩
      exact absurd rfl hj
  | @take j r x hr hx =>
    by_cases hj : j = i
    · subst hj
      have hle := hi.since_le r hr
      refine ⟨ht, fun hn => ?_, fun q hq => ?_, fun q hq => ?_⟩
      · simp [Log.move] at hn
      · obtain rfl : q = ⟨r.first, r.next + 1⟩ := by simpa [Log.move, eq_comm] using hq
        exact hle.trans (Nat.le_succ _)
      · obtain rfl : q = ⟨r.first, r.next + 1⟩ := by simpa [Log.move, eq_comm] using hq
        have htaken : (s.move j ⟨r.first, r.next + 1⟩ [(r.next, x)]).taken j =
            (r.next, x) :: s.taken j := by simp [Log.move]
        have hsucc : between s.entries (s₀.since j ⟨r.first, r.next + 1⟩) (r.next + 1) =
            between s.entries (s₀.since j r) r.next ++ [(r.next, x)] := between_succ hle hx
        have hf : Forward j s (.take j) := by rintro k ⟨⟩
        rw [meets_cons, ← hi.all r hr, TakesAll, TakesAll, htaken, move_entries, hsucc,
          List.reverse_cons, ← List.append_assoc, List.append_cancel_right_eq]
        exact ⟨fun hall => ⟨hf, hall⟩, fun hall => hall.2⟩
    · obtain ⟨h₁, h₂⟩ := hmove j ⟨r.first, r.next + 1⟩ [(r.next, x)] hj
      exact hi.other ht h₁ h₂ (fun _ _ _ => rfl) (by rintro k ⟨⟩)

/-- A reader goes on to `k`. -/
theorem exists_run_pass {k : ℕ} (hr : s.reader i = some r) (hle : r.next ≤ k)
    (hk : k ≤ s.entries.length) :
    ∃ h, Run logStep s h (s.move i ⟨r.first, k⟩ []) ∧
      ∀ j, Meets (Forward j) h ↔ (j = i → r.next = k) := by
  have hstep : logStep s (.pass i k) = some (s.move i ⟨r.first, k⟩ []) := by
    simp [logStep, hr, hle, hk, Log.move]
  refine ⟨_, .snoc .nil hstep, fun j => ?_⟩
  rw [meets_cons, and_iff_left (meets_nil _)]
  constructor
  · rintro hf rfl
    exact hf k rfl r hr
  · rintro hf k' ⟨⟩ q hq
    obtain rfl : r = q := Option.some.inj (hr.symm.trans hq)
    exact hf rfl

/-- A reader goes on to `k` and takes the entry there. -/
theorem exists_run_take {k : ℕ} {x : α} (hr : s.reader i = some r) (hle : r.next ≤ k)
    (hx : s.entries[k]? = some x) :
    ∃ h, Run logStep s h (s.move i ⟨r.first, k + 1⟩ [(k, x)]) ∧
      ∀ j, Meets (Forward j) h ↔ (j = i → r.next = k) := by
  have hk : k ≤ s.entries.length := (List.getElem?_eq_some_iff.mp hx).1.le
  obtain ⟨h, hrun, hf⟩ := exists_run_pass hr hle hk
  have hstep : logStep (s.move i ⟨r.first, k⟩ []) (.take i) =
      some (s.move i ⟨r.first, k + 1⟩ [(k, x)]) := by
    simp [logStep, Log.move, hx]
  refine ⟨_, hrun.snoc hstep, fun j => ?_⟩
  rw [meets_cons, ← hf j, and_iff_right]
  rintro k' ⟨⟩

/-- An entry stays where it is. -/
theorem entry_of_run {k : ℕ} {x : α} (hr : Run logStep s₀ h s) (hx : s₀.entries[k]? = some x) :
    s.entries[k]? = some x := by
  refine hr.invariant (I := fun s => s.entries[k]? = some x) (g := fun _ _ => True)
    (fun s a t hx _ hs => ?_) (fun _ _ => trivial) hx
  cases logStep_moved hs with
  | append y =>
    have hlt := (List.getElem?_eq_some_iff.mp hx).1
    rw [List.getElem?_append_left hlt, hx]
  | _ => exact hx

/-- A reader has taken all the entries from one place to the other if and only if it has passed
none over. -/
theorem takesAll_iff (hi : Reads s₀) (hr : Run logStep s₀ h s) (hreader : s.reader i = some r) :
    TakesAll s₀ s i r ↔ Meets (Forward i) h :=
  (hr.history_invariant (g := fun _ _ => True) (fun _ _ _ _ hi _ hs => hi.step hs)
    (fun _ _ => trivial) (Followed.init hi)).all r hreader

end ReadLog
