import ModBroadcast.JsonText

namespace JsonText

def IsElement (t v : Text) : Prop :=
  ∃ u w l, Blank u ∧ Reads .value v l ∧ Blank w ∧ t = u ++ (v ++ w)

/-- The text is the elements of an array with commas between them. -/
inductive IsElements : Text → List Text → Prop
  | last {t v : Text} (h : IsElement t v) : IsElements t [v]
  | cons {t v u : Text} {vs : List Text} (h : IsElement t v) (hu : IsElements u vs) :
      IsElements (t ++ ',' :: u) (v :: vs)

def IsArray (t : Text) (vs : List Text) : Prop :=
  ∃ u, t = '[' :: (u ++ [']']) ∧ (Blank u ∧ vs = [] ∨ IsElements u vs)

def IsMember (t : Text) (m : Text × Text) : Prop :=
  ∃ u w x, Blank u ∧ Body m.1 ∧ Blank w ∧ IsElement x m.2 ∧
    t = u ++ (quote m.1 ++ (w ++ ':' :: x))

/-- The text is the members of an object with commas between them. -/
inductive IsMembers : Text → List (Text × Text) → Prop
  | last {t : Text} {m : Text × Text} (h : IsMember t m) : IsMembers t [m]
  | cons {t u : Text} {m : Text × Text} {ms : List (Text × Text)} (h : IsMember t m)
      (hu : IsMembers u ms) : IsMembers (t ++ ',' :: u) (m :: ms)

def IsRecord (t : Text) (ms : List (Text × Text)) : Prop :=
  ∃ u, t = '\x7b' :: (u ++ ['\x7d']) ∧ (Blank u ∧ ms = [] ∨ IsMembers u ms)

variable {t u v : Text} {vs : List Text} {m : Text × Text} {ms : List (Text × Text)}
  {l : List Text}

theorem IsElement.of_reads (h : Reads .value v l) : IsElement v v :=
  ⟨[], [], l, List.forall_mem_nil _, h, List.forall_mem_nil _, (List.append_nil v).symm⟩

theorem IsElement.reads (h : IsElement t v) : ∃ l, Reads .element t l := by
  obtain ⟨u, w, l, hu, hv, hw, rfl⟩ := h
  exact ⟨l, .element hu hv hw⟩

theorem IsElements.reads (h : IsElements t vs) : ∃ l, Reads .elements t l := by
  induction h with
  | last h =>
    obtain ⟨l, hl⟩ := h.reads
    exact ⟨l, .lastElement hl⟩
  | cons h _ ih =>
    obtain ⟨l, hl⟩ := h.reads
    obtain ⟨l', hl'⟩ := ih
    exact ⟨l ++ l', .consElement hl hl'⟩

theorem IsArray.reads (h : IsArray t vs) : ∃ l, Reads .value t l := by
  obtain ⟨u, rfl, ⟨hu, -⟩ | hu⟩ := h
  · exact ⟨[], .emptyArray hu⟩
  · obtain ⟨l, hl⟩ := hu.reads
    exact ⟨l, .array hl⟩

theorem IsMember.reads (h : IsMember t m) : ∃ l, Reads .member t l := by
  obtain ⟨u, w, x, hu, hm, hw, hx, rfl⟩ := h
  obtain ⟨l, hl⟩ := hx.reads
  exact ⟨m.1 :: l, .member hu hm hw hl⟩

theorem IsMembers.reads (h : IsMembers t ms) : ∃ l, Reads .members t l := by
  induction h with
  | last h =>
    obtain ⟨l, hl⟩ := h.reads
    exact ⟨l, .lastMember hl⟩
  | cons h _ ih =>
    obtain ⟨l, hl⟩ := h.reads
    obtain ⟨l', hl'⟩ := ih
    exact ⟨l ++ l', .consMember hl hl'⟩

theorem IsRecord.reads (h : IsRecord t ms) : ∃ l, Reads .value t l := by
  obtain ⟨u, rfl, ⟨hu, -⟩ | hu⟩ := h
  · exact ⟨[], .emptyObject hu⟩
  · obtain ⟨l, hl⟩ := hu.reads
    exact ⟨l, .object hl⟩

theorem isElements_intercalate (hv : ∀ v ∈ vs, ∃ l, Reads .value v l) (hne : vs ≠ []) :
    IsElements ([','].intercalate vs) vs := by
  induction vs with
  | nil => exact absurd rfl hne
  | cons v vs ih =>
    obtain ⟨⟨l, hl⟩, hvs⟩ := List.forall_mem_cons.mp hv
    cases vs with
    | nil =>
      rw [List.intercalate_singleton]
      exact .last (.of_reads hl)
    | cons v' vs =>
      rw [List.intercalate_cons_cons, List.append_assoc]
      exact .cons (.of_reads hl) (ih hvs (List.cons_ne_nil v' vs))

/-- Values with commas between them and nothing else. -/
theorem isArray_intercalate (hv : ∀ v ∈ vs, ∃ l, Reads .value v l) :
    IsArray ('[' :: ([','].intercalate vs ++ [']'])) vs := by
  refine ⟨[','].intercalate vs, rfl, ?_⟩
  cases vs with
  | nil => exact .inl ⟨List.forall_mem_nil _, rfl⟩
  | cons v vs => exact .inr (isElements_intercalate hv (List.cons_ne_nil v vs))

/-- A member without blanks. -/
theorem isMember_colon (hm : Body t) (hv : Reads .value v l) :
    IsMember (quote t ++ ':' :: v) (t, v) :=
  ⟨[], [], v, List.forall_mem_nil _, hm, List.forall_mem_nil _, .of_reads hv, rfl⟩

end JsonText
