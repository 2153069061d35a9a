import ModBroadcast.JsonReader

namespace JsonText

/-- An octet of the format, a text put in for `%s`, or the text of a number. -/
inductive Piece
  | lit (c : Char)
  | text (t : Text)
  | number (t : Text)

def Piece.render : Piece → Text
  | .lit c => [c]
  | .text t | .number t => t

def render (ps : List Piece) : Text := ps.flatMap Piece.render

def lits (t : Text) : List Piece := t.map .lit

/-- The conversions of the format are replaced one after the other; `conversion` says that the
letter that ends one is still to come, `l` being a modifier. -/
def format (conversion : Bool) : Text → List (List Piece) → List Piece
  | [], _ => []
  | c :: f, args =>
    if conversion then format (!c.isAlpha || c = 'l') f args
    else if c = '%' then args.headD [] ++ format true f args.tail
    else .lit c :: format false f args

def separates : List Piece → Bool
  | .lit c :: _ => c = ',' || c = ']' || c = '\x7d'
  | _ => false

def letterFirst : List Piece → Bool
  | .lit c :: _ => c.isAlpha
  | _ => false

/-- A quotation mark, and after the next one a letter: no reader that is inside an escape comes
past this. -/
def quotes (again : Bool) : List Piece → Bool
  | .lit c :: ps =>
    if c = '"' then if again then letterFirst ps else quotes true ps
    else again && plain c && quotes true ps
  | _ => false

/-- Reading a template: a text stands in a string, a number where a value is awaited. -/
def scan : Reader → List Piece → Option Reader
  | s, [] => some s
  | s, .lit c :: ps => (step s c).bind fun s => scan s ps
  | ⟨.string key .plain b, n, l⟩, .text t :: ps =>
    if quotes false ps then scan ⟨.string key .plain (b ++ t), n, l⟩ ps else none
  | ⟨.value _, n, l⟩, .number _ :: ps => if separates ps then scan ⟨.after, n, l⟩ ps else none
  | _, _ :: _ => none

variable {n : List Nest} {k l : List Text} {t : Text} {c : Char} {s s' s'' : Reader}
  {p : Piece} {ps qs : List Piece}

def Piece.Fits : Piece → Prop
  | .lit _ => True
  | .text t => Body t
  | .number t => IsNumber t

theorem render_cons : render (p :: ps) = p.render ++ render ps := List.flatMap_cons

theorem render_append : render (ps ++ qs) = render ps ++ render qs := List.flatMap_append

@[simp] theorem render_lits : render (lits t) = t := by
  simp [render, lits, List.flatMap_map, Piece.render]

theorem separates_append (h : separates ps) : separates (ps ++ qs) := by
  cases ps with
  | nil => cases h
  | cons p ps => cases p <;> exact h

theorem letterFirst_append (h : letterFirst ps) : letterFirst (ps ++ qs) := by
  cases ps with
  | nil => cases h
  | cons p ps => cases p <;> exact h

theorem quotes_append {again : Bool} (h : quotes again ps) : quotes again (ps ++ qs) := by
  induction ps generalizing again with
  | nil => cases h
  | cons p ps ih =>
    cases p with
    | text | number => cases h
    | lit c =>
      simp only [quotes, List.cons_append] at h ⊢
      split_ifs at h ⊢
      · exact letterFirst_append h
      · exact ih h
      · simp only [Bool.and_eq_true] at h ⊢
        exact ⟨h.1, ih h.2⟩

theorem forall_mem_format {P : Piece → Prop} {f : Text} {args : List (List Piece)}
    (conversion : Bool) (hl : ∀ c, P (.lit c)) (h : ∀ a ∈ args, ∀ p ∈ a, P p) :
    ∀ p ∈ format conversion f args, P p := by
  induction f generalizing conversion args with
  | nil => exact fun _ hp => by cases hp
  | cons c f ih =>
    rw [format]
    split_ifs with hconversion hpercent
    · exact ih _ h
    · refine List.forall_mem_append.mpr ⟨?_, ih true fun a ha => h a (List.mem_of_mem_tail ha)⟩
      cases args with
      | nil => exact fun _ hp => by cases hp
      | cons a args => exact h a List.mem_cons_self
    · exact List.forall_mem_cons.mpr ⟨hl c, ih false h⟩

inductive ScanStep (s : Reader) (ps : List Piece) : Piece → Reader → Prop
  | lit {c : Char} {s' : Reader} (hs : step s c = some s') : ScanStep s ps (.lit c) s'
  | text {key : Bool} {b t : Text} {n : List Nest} {l : List Text} (hq : quotes false ps)
      (hs : s = ⟨.string key .plain b, n, l⟩) :
      ScanStep s ps (.text t) ⟨.string key .plain (b ++ t), n, l⟩
  | number {close : Bool} {t : Text} {n : List Nest} {l : List Text} (hp : separates ps)
      (hs : s = ⟨.value close, n, l⟩) : ScanStep s ps (.number t) ⟨.after, n, l⟩

theorem scan_cons (h : scan s (p :: ps) = some s'') :
    ∃ s', ScanStep s ps p s' ∧ scan s' ps = some s'' := by
  unfold scan at h
  split at h
  · next heq => cases heq
  · next s c ps' heq =>
    obtain ⟨rfl, rfl⟩ := List.cons.inj heq
    obtain ⟨s', hs, hr⟩ := Option.bind_eq_some_iff.mp h
    exact ⟨s', .lit hs, hr⟩
  · next key b n l t ps' heq =>
    obtain ⟨rfl, rfl⟩ := List.cons.inj heq
    split_ifs at h with hq
    exact ⟨_, .text hq rfl, h⟩
  · next close n l t ps' heq =>
    obtain ⟨rfl, rfl⟩ := List.cons.inj heq
    split_ifs at h with hp
    exact ⟨_, .number hp rfl, h⟩
  · cases h

theorem ScanStep.scan (h : ScanStep s ps p s') : scan s (p :: ps) = JsonText.scan s' ps := by
  cases h with
  | lit hs => rw [JsonText.scan, hs]; rfl
  | text hq hs => rw [hs, JsonText.scan, if_pos hq]
  | number hp hs => rw [hs, JsonText.scan, if_pos hp]

theorem ScanStep.append (h : ScanStep s ps p s') (qs : List Piece) :
    ScanStep s (ps ++ qs) p s' := by
  cases h with
  | lit hs => exact .lit hs
  | text hq hs => exact .text (quotes_append hq) hs
  | number hp hs => exact .number (separates_append hp) hs

/-- Templates are scanned one after the other. -/
theorem scan_append (h : scan s ps = some s') : scan s (ps ++ qs) = scan s' qs := by
  induction ps generalizing s with
  | nil => rw [Option.some.inj h]; rfl
  | cons p ps ih =>
    obtain ⟨s₁, hp, hr⟩ := scan_cons h
    exact (hp.append qs).scan.trans (ih hr)

def Reader.behind (k : List Text) (s : Reader) : Reader := { s with strings := k ++ s.strings }

theorem afterStep_behind : afterStep n (k ++ l) c = (afterStep n l c).map (.behind k) := by
  unfold afterStep
  split_ifs
  · rfl
  · cases n with
    | nil => rfl
    | cons x n => cases x <;> rfl
  · cases n with
    | nil => rfl
    | cons x n => cases x <;> rfl
  · cases n with
    | nil => rfl
    | cons x n => cases x <;> rfl
  · rfl

theorem valueStep_behind : valueStep n (k ++ l) c = (valueStep n l c).map (.behind k) := by
  unfold valueStep
  split_ifs
  all_goals first
    | rfl
    | rw [Option.map_map]
      rfl

/-- A step does not look at the strings. -/
theorem step_behind : step (s.behind k) c = (step s c).map (.behind k) := by
  obtain ⟨m, n, l⟩ := s
  cases m with
  | top | colon =>
    simp only [Reader.behind, step]
    split_ifs <;> rfl
  | value close =>
    simp only [Reader.behind, step]
    split_ifs
    · rfl
    · exact afterStep_behind
    · exact valueStep_behind
  | key close =>
    simp only [Reader.behind, step]
    split_ifs
    · rfl
    · exact afterStep_behind
    · rfl
    · rfl
  | after => exact afterStep_behind
  | string key m b =>
    simp only [Reader.behind, step]
    split_ifs
    · simp [Reader.behind]
    · simp [Reader.behind]
    · rw [Option.map_map]
      rfl
  | number m =>
    simp only [Reader.behind, step]
    cases numberStep m c with
    | some m => rfl
    | none =>
      split_ifs
      · exact afterStep_behind
      · rfl
  | word w =>
    cases w with
    | nil => rfl
    | cons x w =>
      simp only [Reader.behind, step]
      split_ifs <;> rfl

theorem scan_behind (h : scan s ps = some s') : scan (s.behind k) ps = some (s'.behind k) := by
  induction ps generalizing s with
  | nil => rw [Option.some.inj h]; rfl
  | cons p ps ih =>
    obtain ⟨s₁, hp, hr⟩ := scan_cons h
    refine Eq.trans (ScanStep.scan ?_) (ih hr)
    cases hp with
    | lit hs => exact .lit (by rw [step_behind, hs]; rfl)
    | text hq hs => exact .text hq (by rw [hs]; rfl)
    | number hp hs => exact .number hp (by rw [hs]; rfl)

theorem scan_from {m m' : Mode} {n' : List Nest}
    (h : scan ⟨m, n, []⟩ ps = some ⟨m', n', l⟩) :
    scan ⟨m, n, k⟩ ps = some ⟨m', n', k ++ l⟩ := by
  have hk := scan_behind (k := k) h
  rwa [Reader.behind, Reader.behind, List.append_nil] at hk

/-- In front of a separator it does not matter whether a value was a number. -/
theorem exists_of_separates (hs : s.Settled n l) (hp : separates ps) :
    ∃ c qs, ps = .lit c :: qs ∧ step s c = step ⟨.after, n, l⟩ c := by
  cases ps with
  | nil => cases hp
  | cons p ps =>
    cases p with
    | text | number => cases hp
    | lit c =>
      have hc : blank c ∨ c = ',' ∨ c = ']' ∨ c = '\x7d' :=
        .inr (by simpa [separates, or_assoc] using hp)
      exact ⟨c, ps, rfl, hs.step hc⟩

theorem settled_separates (hs : s.Settled n l) (hp : separates ps) :
    run s (render ps) = run ⟨.after, n, l⟩ (render ps) := by
  obtain ⟨c, qs, rfl, hc⟩ := exists_of_separates hs hp
  change (step s c).bind _ = (step ⟨.after, n, l⟩ c).bind _
  rw [hc]

/-- A template whose pieces fit reads as it was scanned. -/
theorem run_render (h : scan s ps = some s') (hf : ∀ p ∈ ps, p.Fits) :
    run s (render ps) = some s' := by
  induction ps generalizing s with
  | nil => exact h
  | cons p ps ih =>
    obtain ⟨s₁, hp, hr⟩ := scan_cons h
    have hrest := ih hr fun q hq => hf q (List.mem_cons_of_mem p hq)
    have hfit := hf p List.mem_cons_self
    rw [render_cons, run_append]
    cases hp with
    | lit hs =>
      rw [Piece.render, run, hs]
      exact hrest
    | text _ hs =>
      rw [hs, Piece.render, run_string (bodyRun_of_body hfit)]
      exact hrest
    | @number close t n l hp hs =>
      obtain ⟨s₂, hnumber, hsettled⟩ := reading_number hfit close n l
      rw [List.append_nil] at hsettled
      rw [hs, Piece.render, hnumber, Option.bind_some, settled_separates hsettled hp]
      exact hrest

/-- Without a quotation mark the reader cannot leave the string. -/
theorem run_string_eq {key : Bool} {m : BodyMode} {b : Text} (ht : '"' ∉ t) :
    run ⟨.string key m b, n, l⟩ t =
      (bodyRun m t).map fun m => ⟨.string key m (b ++ t), n, l⟩ := by
  induction t generalizing m b with
  | nil => simp [run, bodyRun]
  | cons c t ih =>
    obtain ⟨hc, ht⟩ := not_or.mp (mt List.mem_cons.mpr ht)
    have hquote : ¬ (m = .plain ∧ c = '"') := fun h => hc h.2.symm
    rw [run, step, if_neg hquote, bodyRun]
    cases hm : bodyStep m c with
    | none => rfl
    | some m' =>
      rw [Option.map_some, Option.bind_some, ih ht, List.append_assoc]
      rfl

def BodyMode.High : BodyMode → Prop
  | .tail lo _ _ => 0x80 ≤ lo
  | _ => True

theorem lead_high {x : ℕ × ℕ × ℕ} (h : lead c = some x) : 0x80 ≤ x.1 := by
  unfold lead at h
  split_ifs at h <;> cases h <;> decide

theorem bodyStep_high {m m' : BodyMode} (h : bodyStep m c = some m') : m'.High := by
  cases m with
  | plain =>
    simp only [bodyStep] at h
    split_ifs at h
    · obtain rfl := Option.some.inj h
      trivial
    · obtain rfl := Option.some.inj h
      trivial
    · obtain ⟨x, hx, rfl⟩ := Option.map_eq_some_iff.mp h
      exact lead_high hx
  | escape =>
    simp only [bodyStep] at h
    split_ifs at h <;> obtain rfl := Option.some.inj h <;> trivial
  | hex k =>
    simp only [bodyStep] at h
    split_ifs at h
    obtain rfl := Option.some.inj h
    cases k <;> trivial
  | tail lo hi k =>
    simp only [bodyStep] at h
    split_ifs at h
    obtain rfl := Option.some.inj h
    cases k with
    | zero => trivial
    | succ k => exact Nat.le_refl 0x80

theorem bodyRun_high {m m' : BodyMode} (hm : m.High) (h : bodyRun m t = some m') : m'.High := by
  induction t generalizing m with
  | nil => exact Option.some.inj h ▸ hm
  | cons c t ih =>
    obtain ⟨m₁, hstep, hrun⟩ := Option.bind_eq_some_iff.mp h
    exact ih (bodyStep_high hstep) hrun

/-- No letter comes after a string. -/
theorem step_letter {key : Bool} (hc : c.isAlpha) :
    step ⟨if key then .colon else .after, n, l⟩ c = none := by
  have hnot : ∀ x ∈ [' ', '\t', '\n', '\r', ',', ']', '\x7d', ':'], c ≠ x := by
    rintro x hx rfl
    have hnone : [' ', '\t', '\n', '\r', ',', ']', '\x7d', ':'].all fun x => !x.isAlpha := rfl
    have hletter := List.all_eq_true.mp hnone c hx
    rw [hc] at hletter
    cases hletter
  simp only [List.mem_cons, List.not_mem_nil, or_false, forall_eq_or_imp, forall_eq] at hnot
  cases key <;> simp [step, afterStep, blank, hnot]

theorem run_letterFirst {key : Bool} (h : letterFirst ps) :
    run ⟨if key then .colon else .after, n, l⟩ (render ps) = none := by
  cases ps with
  | nil => cases h
  | cons p ps =>
    cases p with
    | text | number => cases h
    | lit c =>
      rw [render_cons, Piece.render, run_append, run, step_letter h]
      rfl

/-- A reader inside an escape takes the quotation mark for a part of the string, and fails behind
the next one. -/
theorem run_quotes {key : Bool} {b : Text} (h : quotes true ps) :
    run ⟨.string key .plain b, n, l⟩ (render ps) = none := by
  induction ps generalizing b with
  | nil => cases h
  | cons p ps ih =>
    cases p with
    | text | number => cases h
    | lit c =>
      rw [quotes] at h
      rw [render_cons, run_append]
      by_cases hc : c = '"'
      · rw [if_pos hc, if_pos rfl] at h
        subst hc
        exact run_letterFirst h
      · rw [if_neg hc, Bool.and_eq_true, Bool.and_eq_true] at h
        obtain ⟨⟨-, hplain⟩, hq⟩ := h
        have hm : bodyStep .plain c = some .plain := if_pos hplain
        rw [Piece.render, run, step, if_neg fun h => hc h.2, hm]
        exact ih hq

theorem exists_of_quotes (h : quotes false ps) :
    ∃ qs, ps = .lit '"' :: qs ∧ quotes true qs := by
  cases ps with
  | nil => cases h
  | cons p ps =>
    cases p with
    | text | number => cases h
    | lit c =>
      rw [quotes] at h
      by_cases hc : c = '"'
      · rw [if_pos hc] at h
        exact ⟨ps, by rw [hc], h⟩
      · rw [if_neg hc] at h
        cases h

/-- A quotation mark that does not come between two characters is escaped, or it is an error. -/
theorem step_unfinished {key : Bool} {m : BodyMode} {b : Text} (hm : m.High) (hp : m ≠ .plain)
    (hs : step ⟨.string key m b, n, l⟩ '"' = some s') :
    s' = ⟨.string key .plain (b ++ ['"']), n, l⟩ := by
  rw [step, if_neg fun h => hp h.1] at hs
  cases m with
  | plain => exact absurd rfl hp
  | escape => exact (Option.some.inj hs).symm
  | hex k => cases hs
  | tail lo hi k =>
    have hlow : between lo hi '"' = false := by
      have hlo : 0x80 ≤ lo := hm
      have hq : '"'.toNat = 34 := rfl
      simp only [between, hq, Bool.and_eq_false_iff, decide_eq_false_iff_not]
      omega
    simp [bodyStep, hlow] at hs

/-- A string that is not between two characters cannot be closed. -/
theorem run_unfinished {key : Bool} {m : BodyMode} {b : Text} (hm : m.High) (hp : m ≠ .plain)
    (h : quotes false ps) : run ⟨.string key m b, n, l⟩ (render ps) = none := by
  obtain ⟨qs, rfl, hq⟩ := exists_of_quotes h
  change (step _ '"').bind _ = none
  cases hs : step ⟨.string key m b, n, l⟩ '"' with
  | none => rfl
  | some s' =>
    rw [step_unfinished hm hp hs]
    exact run_quotes hq

def Piece.Sealed : Piece → Prop
  | .lit _ => True
  | .text t => '"' ∉ t ∨ Body t
  | .number t => IsNumber t

theorem run_sealed {key : Bool} {b : Text} (ht : '"' ∉ t ∨ Body t) :
    run ⟨.string key .plain b, n, l⟩ t =
      (bodyRun .plain t).map fun m => ⟨.string key m (b ++ t), n, l⟩ := by
  rcases ht with ht | ht
  · exact run_string_eq ht
  · rw [bodyRun_of_body ht, run_string (bodyRun_of_body ht)]
    rfl

/-- A template filled with what is sealed is read only when all of it fits. -/
theorem fits_of_run (h : scan s ps = some s') (hr : run s (render ps) = some s'')
    (hp : ∀ p ∈ ps, p.Sealed) : ∀ p ∈ ps, p.Fits := by
  induction ps generalizing s with
  | nil => exact fun _ hp => by cases hp
  | cons p ps ih =>
    obtain ⟨s₁, hstep, hscan⟩ := scan_cons h
    obtain ⟨hsealed, hps⟩ := List.forall_mem_cons.mp hp
    rw [render_cons, run_append] at hr
    refine List.forall_mem_cons.mpr ?_
    cases hstep with
    | lit hs =>
      rw [Piece.render, run, hs] at hr
      exact ⟨trivial, ih hscan hr hps⟩
    | @text key b t n l hquotes hs =>
      rw [hs, Piece.render, run_sealed hsealed] at hr
      cases hm : bodyRun .plain t with
      | none =>
        rw [hm] at hr
        cases hr
      | some m =>
        rw [hm] at hr
        by_cases hplain : m = .plain
        · subst hplain
          exact ⟨body_iff.mpr hm, ih hscan hr hps⟩
        · have hhigh : m.High := bodyRun_high (m := .plain) trivial hm
          cases (run_unfinished hhigh hplain hquotes).symm.trans hr
    | @number close t n l hsep hs =>
      obtain ⟨s₂, hnumber, hsettled⟩ := reading_number hsealed close n l
      rw [List.append_nil] at hsettled
      rw [hs, Piece.render, hnumber, Option.bind_some, settled_separates hsettled hsep] at hr
      exact ⟨hsealed, ih hscan hr hps⟩

/-- All that a sealed template can be read as is what it was scanned as. -/
theorem eq_of_run (h : scan s ps = some s') (hr : run s (render ps) = some s'')
    (hp : ∀ p ∈ ps, p.Sealed) : s'' = s' :=
  Option.some.inj (hr.symm.trans (run_render h (fits_of_run h hr hp)))

variable {α : Type*} {item : Bool → α → List Piece} {strings : α → List Text}

/-- The elements of an array; `first` tells an element that there is none in front of it. -/
def items (item : Bool → α → List Piece) : Bool → List α → List Piece
  | _, [] => []
  | first, a :: as => item first a ++ items item false as

def itemMode (first : Bool) : Mode := if first then .value true else .after

theorem scan_items (h : ∀ first a, scan ⟨itemMode first, n, []⟩ (item first a) =
      some ⟨.after, n, strings a⟩) (first : Bool) (as : List α) :
    scan ⟨itemMode first, n, l⟩ (items item first as) =
      some ⟨itemMode (first && as.isEmpty), n, l ++ as.flatMap strings⟩ := by
  induction as generalizing first l with
  | nil => simp [items, scan]
  | cons a as ih =>
    have hrest := ih (l := l ++ strings a) false
    rw [items, scan_append (scan_from (h first a)), List.flatMap_cons, ← List.append_assoc,
      List.isEmpty_cons, Bool.and_false]
    exact hrest

/-- The array that a member of the outermost object has for its value. -/
theorem scan_array {m : Mode} {l' : List Text} {pre post : List Piece} (as : List α)
    (hpre : scan .start pre = some ⟨.value true, [.array, .object], l⟩)
    (h : ∀ first a, scan ⟨itemMode first, [.array, .object], []⟩ (item first a) =
      some ⟨.after, [.array, .object], strings a⟩)
    (hpost : ∀ first, scan ⟨itemMode first, [.array, .object], []⟩ post = some ⟨m, n, l'⟩) :
    scan .start (pre ++ (items item true as ++ post)) =
      some ⟨m, n, l ++ as.flatMap strings ++ l'⟩ := by
  rw [scan_append hpre]
  exact (scan_append (scan_items h true as)).trans (scan_from (hpost _))

theorem forall_mem_items {P : Piece → Prop} {first : Bool} {as : List α}
    (h : ∀ first, ∀ a ∈ as, ∀ p ∈ item first a, P p) : ∀ p ∈ items item first as, P p := by
  induction as generalizing first with
  | nil => exact fun _ hp => by cases hp
  | cons a as ih =>
    refine List.forall_mem_append.mpr ⟨h first a List.mem_cons_self, ih fun first b hb => ?_⟩
    exact h first b (List.mem_cons_of_mem a hb)

theorem items_append_singleton (first : Bool) (as : List α) (a : α) :
    items item first (as ++ [a]) = items item first as ++ item (first && as.isEmpty) a := by
  induction as generalizing first with
  | nil => simp [items]
  | cons b as ih => simp [items, ih]

/-- The arrays and objects that are open satisfy `d` as long as the text is read. -/
def keeps (d : List Nest → Bool) : Reader → Text → Bool
  | s, [] => d s.nest
  | s, c :: t => d s.nest && match step s c with
    | some s => keeps d s t
    | none => true

variable {d : List Nest → Bool} {u : Text}

theorem keeps_cons (hd : d s.nest) (h : ∀ s', step s c = some s' → keeps d s' t) :
    keeps d s (c :: t) := by
  simp only [keeps, Bool.and_eq_true]
  refine ⟨hd, ?_⟩
  cases hs : step s c with
  | none => rfl
  | some s' => exact h s' hs

theorem keeps_append (h : keeps d s t) (h' : ∀ s', run s t = some s' → keeps d s' u) :
    keeps d s (t ++ u) := by
  induction t generalizing s with
  | nil => exact h' s rfl
  | cons c t ih =>
    simp only [keeps, Bool.and_eq_true] at h
    refine keeps_cons h.1 fun s' hs => ih ?_ fun s'' hr => h' s'' ?_
    · simpa [hs] using h.2
    · rw [run, hs]
      exact hr

theorem keeps_of_append (h : keeps d s (t ++ u)) : keeps d s t := by
  induction t generalizing s with
  | nil =>
    cases u with
    | nil => exact h
    | cons c u => exact (Bool.and_eq_true _ _ ▸ h).1
  | cons c t ih =>
    simp only [List.cons_append, keeps, Bool.and_eq_true] at h
    refine keeps_cons h.1 fun s' hs => ih ?_
    simpa [hs] using h.2

theorem nest_of_keeps (h : keeps d s t) (hr : run s t = some s') : d s'.nest := by
  induction t generalizing s with
  | nil => exact Option.some.inj hr ▸ h
  | cons c t ih =>
    obtain ⟨s₁, hs, hr⟩ := Option.bind_eq_some_iff.mp hr
    simp only [keeps, hs, Bool.and_eq_true] at h
    exact ih h.2 hr

theorem keeps_string {key : Bool} {m : BodyMode} {b : Text} (hd : d n)
    (ht : '"' ∉ t ∨ ∃ m', bodyRun m t = some m') : keeps d ⟨.string key m b, n, l⟩ t := by
  induction t generalizing m b with
  | nil => exact hd
  | cons c t ih =>
    refine keeps_cons hd fun s' hs => ?_
    have hquote : ¬ (m = .plain ∧ c = '"') := by
      rintro ⟨rfl, rfl⟩
      rcases ht with ht | ⟨m', hm⟩
      · exact ht List.mem_cons_self
      · cases hm
    rw [step, if_neg hquote] at hs
    obtain ⟨m₁, hm₁, rfl⟩ := Option.map_eq_some_iff.mp hs
    refine ih (ht.imp (fun ht h => ht (List.mem_cons_of_mem c h)) ?_)
    rintro ⟨m', hm⟩
    rw [bodyRun, hm₁] at hm
    exact ⟨m', hm⟩

theorem keeps_number {close : Bool} (hd : d n) (ht : IsNumber t) :
    keeps d ⟨.value close, n, l⟩ t := by
  obtain ⟨c, u, m, rfl, hc, m', hu, -⟩ := numberStart_of_isNumber ht
  obtain ⟨hb, hbracket, hvalue⟩ := valueStep_of_numberStart (n := n) (l := l) hc
  refine keeps_cons hd fun s' hs => ?_
  rw [step_value hb hbracket, hvalue] at hs
  obtain rfl := Option.some.inj hs
  clear ht hc hvalue hs
  induction u generalizing m with
  | nil => exact hd
  | cons c u ih =>
    obtain ⟨m₁, hm₁, hrun⟩ := Option.bind_eq_some_iff.mp hu
    refine keeps_cons hd fun s' hs => ?_
    simp only [step, hm₁] at hs
    obtain rfl := Option.some.inj hs
    exact ih m₁ hrun

/-- Past the end of a string the reader fails at once. -/
theorem keeps_quotes {key : Bool} {b : Text} (hd : d n) (h : quotes true ps) :
    keeps d ⟨.string key .plain b, n, l⟩ (render ps) := by
  induction ps generalizing b with
  | nil => cases h
  | cons p ps ih =>
    cases p with
    | text | number => cases h
    | lit c =>
      rw [quotes] at h
      by_cases hc : c = '"'
      · rw [if_pos hc, if_pos rfl] at h
        subst hc
        refine keeps_cons hd fun s' hs => ?_
        obtain rfl := Option.some.inj hs
        cases ps with
        | nil => cases h
        | cons p ps =>
          cases p with
          | text | number => cases h
          | lit c =>
            refine keeps_cons hd fun s' hs => ?_
            cases (step_letter h).symm.trans hs
      · rw [if_neg hc, Bool.and_eq_true, Bool.and_eq_true] at h
        obtain ⟨⟨-, hplain⟩, hq⟩ := h
        refine keeps_cons hd fun s' hs => ?_
        rw [step, if_neg fun h => hc h.2, bodyStep, if_pos hplain] at hs
        obtain rfl := Option.some.inj hs
        exact ih hq

theorem Reader.Settled.nest (hs : s.Settled n l) : s.nest = n := by
  rcases hs with rfl | ⟨m, -, rfl⟩ <;> rfl

theorem keeps_unfinished {key : Bool} {m : BodyMode} {b : Text} (hd : d n) (hm : m.High)
    (hp : m ≠ .plain) (h : quotes false ps) :
    keeps d ⟨.string key m b, n, l⟩ (render ps) := by
  obtain ⟨qs, rfl, hq⟩ := exists_of_quotes h
  refine keeps_cons hd fun s' hs => ?_
  rw [step_unfinished hm hp hs]
  exact keeps_quotes hd hq

def scanKeeps (d : List Nest → Bool) : Reader → List Piece → Bool
  | s, [] => d s.nest
  | s, .lit c :: ps => d s.nest && match step s c with
    | some s => scanKeeps d s ps
    | none => false
  | ⟨.string key .plain b, n, l⟩, .text t :: ps =>
    d n && quotes false ps && scanKeeps d ⟨.string key .plain (b ++ t), n, l⟩ ps
  | ⟨.value _, n, l⟩, .number _ :: ps => d n && separates ps && scanKeeps d ⟨.after, n, l⟩ ps
  | _, _ :: _ => false

/-- Whatever is put in for its pieces, a template keeps to what it was scanned with. -/
theorem keeps_render (h : scanKeeps d s ps) (hp : ∀ p ∈ ps, p.Sealed) : keeps d s (render ps) := by
  induction ps generalizing s with
  | nil => exact h
  | cons p ps ih =>
    obtain ⟨hsealed, hps⟩ := List.forall_mem_cons.mp hp
    unfold scanKeeps at h
    split at h
    · next heq => cases heq
    · next s c ps' heq =>
      obtain ⟨rfl, rfl⟩ := List.cons.inj heq
      rw [Bool.and_eq_true] at h
      refine keeps_cons h.1 fun s' hs => ih ?_ hps
      rw [hs] at h
      exact h.2
    · next key b n l t ps' heq =>
      obtain ⟨rfl, rfl⟩ := List.cons.inj heq
      rw [Bool.and_eq_true, Bool.and_eq_true] at h
      obtain ⟨⟨hd, hq⟩, hrest⟩ := h
      have hbody : '"' ∉ t ∨ ∃ m', bodyRun .plain t = some m' :=
        hsealed.imp_right fun ht => ⟨_, bodyRun_of_body ht⟩
      rw [render_cons]
      refine keeps_append (keeps_string hd hbody) fun s' hs => ?_
      rw [Piece.render, run_sealed hsealed] at hs
      obtain ⟨m, hm, rfl⟩ := Option.map_eq_some_iff.mp hs
      by_cases hplain : m = .plain
      · rw [hplain]
        exact ih hrest hps
      · exact keeps_unfinished hd (bodyRun_high (m := .plain) trivial hm) hplain hq
    · next close n l t ps' heq =>
      obtain ⟨rfl, rfl⟩ := List.cons.inj heq
      rw [Bool.and_eq_true, Bool.and_eq_true] at h
      obtain ⟨⟨hd, hsep⟩, hrest⟩ := h
      rw [render_cons]
      refine keeps_append (keeps_number hd hsealed) fun s' hs => ?_
      obtain ⟨s₂, hnumber, hsettled⟩ := reading_number hsealed close n l
      obtain rfl : s₂ = s' := Option.some.inj (hnumber.symm.trans hs)
      rw [List.append_nil] at hsettled
      have hafter := ih hrest hps
      obtain ⟨c, qs, rfl, hc⟩ := exists_of_separates hsettled hsep
      change (d s₂.nest && match step s₂ c with | some s => keeps d s (render qs) | none => true) =
        true
      rw [hc, hsettled.nest]
      exact hafter
    · cases h

theorem keeps_items (hd : d n)
    (hk : ∀ first a l, scanKeeps d ⟨itemMode first, n, l⟩ (item first a))
    (h : ∀ first a, scan ⟨itemMode first, n, []⟩ (item first a) = some ⟨.after, n, strings a⟩)
    (first : Bool) (as : List α) (hp : ∀ p ∈ items item first as, p.Sealed) :
    keeps d ⟨itemMode first, n, l⟩ (render (items item first as)) := by
  induction as generalizing first l with
  | nil => exact hd
  | cons a as ih =>
    obtain ⟨ha, has⟩ := List.forall_mem_append.mp hp
    rw [items, render_append]
    refine keeps_append (keeps_render (hk first a l) ha) fun s' hs => ?_
    rw [eq_of_run (scan_from (h first a)) hs ha]
    exact ih false has

theorem afterStep_nest (h : afterStep n l c = some s') : n.length ≤ s'.nest.length + 1 := by
  unfold afterStep at h
  split_ifs at h
  · obtain rfl := Option.some.inj h
    exact Nat.le_succ _
  all_goals
    cases n with
    | nil => exact Nat.zero_le _
    | cons x n => cases x <;> cases h <;> simp

theorem valueStep_nest (h : valueStep n l c = some s') : n.length ≤ s'.nest.length := by
  unfold valueStep at h
  split_ifs at h
  case neg =>
    obtain ⟨m, -, rfl⟩ := Option.map_eq_some_iff.mp h
    exact Nat.le_refl _
  all_goals
    obtain rfl := Option.some.inj h
    simp

/-- A step closes one array or object at most, and a blank none. -/
theorem step_nest (h : step s c = some s') :
    s.nest.length ≤ s'.nest.length + 1 ∧ (blank c → s'.nest = s.nest) := by
  obtain ⟨m, n, l⟩ := s
  have hafter (ha : afterStep n l c = some s') :
      n.length ≤ s'.nest.length + 1 ∧ (blank c → s'.nest = n) := by
    refine ⟨afterStep_nest ha, fun hc => ?_⟩
    unfold afterStep at ha
    rw [if_pos hc] at ha
    exact Option.some.inj ha ▸ rfl
  have hsame (hs : s'.nest = n) : n.length ≤ s'.nest.length + 1 ∧ (blank c → s'.nest = n) :=
    ⟨by rw [hs]; omega, fun _ => hs⟩
  cases m with
  | top =>
    simp only [step] at h
    split_ifs at h with hb
    · exact hsame (Option.some.inj h ▸ rfl)
    · obtain rfl := Option.some.inj h
      exact ⟨by simp; omega, fun hc => absurd hc hb⟩
  | colon =>
    simp only [step] at h
    split_ifs at h <;> exact hsame (Option.some.inj h ▸ rfl)
  | value close =>
    simp only [step] at h
    split_ifs at h with hb
    · exact hsame (Option.some.inj h ▸ rfl)
    · exact hafter h
    · exact ⟨Nat.le_succ_of_le (valueStep_nest h), fun hc => absurd hc hb⟩
  | key close =>
    simp only [step] at h
    split_ifs at h
    · exact hsame (Option.some.inj h ▸ rfl)
    · exact hafter h
    · exact hsame (Option.some.inj h ▸ rfl)
  | after => exact hafter h
  | string key m b =>
    simp only [step] at h
    split_ifs at h
    · exact hsame (Option.some.inj h ▸ rfl)
    · exact hsame (Option.some.inj h ▸ rfl)
    · obtain ⟨m', -, rfl⟩ := Option.map_eq_some_iff.mp h
      exact hsame rfl
  | number m =>
    simp only [step] at h
    cases hm : numberStep m c with
    | some m' =>
      rw [hm] at h
      exact hsame (Option.some.inj h ▸ rfl)
    | none =>
      rw [hm] at h
      dsimp only at h
      split_ifs at h
      exact hafter h
  | word w =>
    cases w with
    | nil => cases h
    | cons x w =>
      simp only [step] at h
      split_ifs at h <;> exact hsame (Option.some.inj h ▸ rfl)

end JsonText
