import Mathlib.Tactic.SplitIfs
import ModBroadcast.JsonText

namespace JsonText

/-- The place of a reader in the body of a string; `hex` and `tail` count what comes after the
next octet. -/
inductive BodyMode
  | plain
  | escape
  | hex (n : ℕ)
  | tail (lo hi n : ℕ)
  deriving DecidableEq

def bodyStep : BodyMode → Char → Option BodyMode
  | .plain, c =>
    if plain c then some .plain
    else if c = '\\' then some .escape
    else (lead c).map fun l => .tail l.1 l.2.1 l.2.2
  | .escape, c => if escapes c then some .plain else if c = 'u' then some (.hex 3) else none
  | .hex n, c =>
    if hexDigit c then some (match n with | 0 => .plain | n + 1 => .hex n) else none
  | .tail lo hi n, c =>
    if between lo hi c then some (match n with | 0 => .plain | n + 1 => .tail 0x80 0xBF n)
    else none

def bodyRun : BodyMode → Text → Option BodyMode
  | m, [] => some m
  | m, c :: t => (bodyStep m c).bind fun m => bodyRun m t

theorem bodyRun_append (m : BodyMode) (t u : Text) :
    bodyRun m (t ++ u) = (bodyRun m t).bind fun m => bodyRun m u := by
  induction t generalizing m with
  | nil => rfl
  | cons c t ih => cases h : bodyStep m c <;> simp [bodyRun, h, ih]

theorem bodyRun_hex {n : ℕ} {h : Text} (hl : h.length = n + 1) (hh : ∀ c ∈ h, hexDigit c) :
    bodyRun (.hex n) h = some .plain := by
  induction n generalizing h with
  | zero =>
    obtain ⟨c, rfl⟩ := List.length_eq_one_iff.mp hl
    simp [bodyRun, bodyStep, hh c]
  | succ n ih =>
    obtain ⟨c, t, rfl⟩ := List.exists_cons_of_length_eq_add_one hl
    have hc : hexDigit c := hh c List.mem_cons_self
    have ht : ∀ x ∈ t, hexDigit x := fun x hx => hh x (List.mem_cons_of_mem c hx)
    simpa [bodyRun, bodyStep, hc] using ih (Nat.succ.inj hl) ht

theorem bodyRun_tail {lo hi n : ℕ} {d : Char} {t : Text} (hd : between lo hi d)
    (hl : t.length = n) (ht : ∀ x ∈ t, between 0x80 0xBF x) :
    bodyRun (.tail lo hi n) (d :: t) = some .plain := by
  induction n generalizing lo hi d t with
  | zero =>
    obtain rfl := List.length_eq_zero_iff.mp hl
    simp [bodyRun, bodyStep, hd]
  | succ n ih =>
    obtain ⟨c, u, rfl⟩ := List.exists_cons_of_length_eq_add_one hl
    have hc := ht c List.mem_cons_self
    have hu : ∀ x ∈ u, between 0x80 0xBF x := fun x hx => ht x (List.mem_cons_of_mem c hx)
    have hrest := ih hc (Nat.succ.inj hl) hu
    rw [bodyRun, bodyStep, if_pos hd]
    exact hrest

theorem between_iff {lo hi : ℕ} {c : Char} : between lo hi c ↔ lo ≤ c.toNat ∧ c.toNat ≤ hi := by
  simp [between]

/-- A character of more than one octet begins above the plain ones. -/
theorem le_of_lead {c : Char} {l : ℕ × ℕ × ℕ} (hl : lead c = some l) : 0xC2 ≤ c.toNat := by
  unfold lead at hl
  simp only [between_iff] at hl
  split_ifs at hl <;> omega

theorem bodyStep_of_lead {c : Char} {l : ℕ × ℕ × ℕ} (hl : lead c = some l) :
    bodyStep .plain c = some (.tail l.1 l.2.1 l.2.2) := by
  have hbig := le_of_lead hl
  have hplain : plain c = false := by
    rw [plain, decide_eq_false (by omega : ¬ c.toNat < 0x80)]
    simp
  have hslash : c ≠ '\\' := by
    rintro rfl
    exact absurd hbig (by decide)
  simp [bodyStep, hplain, hslash, hl]

theorem bodyRun_of_body {b : Text} (hb : Body b) : bodyRun .plain b = some .plain := by
  induction hb with
  | nil => rfl
  | plain hc _ ih => simpa [bodyRun, bodyStep, hc] using ih
  | @escape c b hc _ ih =>
    have hslash : bodyStep .plain '\\' = some .escape := by decide
    rw [bodyRun, hslash, Option.bind_some, bodyRun]
    simpa [bodyStep, hc] using ih
  | @unicode h b hl hh _ ih =>
    have hslash : bodyStep .plain '\\' = some .escape := by decide
    have hu : bodyStep .escape 'u' = some (.hex 3) := by decide
    rw [bodyRun, hslash, Option.bind_some, bodyRun, hu, Option.bind_some, bodyRun_append,
      bodyRun_hex hl hh]
    exact ih
  | @utf8 c d t b lo hi n hc hd hl ht _ ih =>
    rw [bodyRun, bodyStep_of_lead hc, Option.bind_some, ← List.cons_append, bodyRun_append,
      bodyRun_tail hd hl ht]
    exact ih

/-- What a text must be to bring a reader of a string back between two characters. -/
def BodyMode.Rest : BodyMode → Text → Prop
  | .plain, t => Body t
  | .escape, t => Body ('\\' :: t)
  | .hex n, t => ∃ h b, t = h ++ b ∧ h.length = n + 1 ∧ (∀ c ∈ h, hexDigit c) ∧ Body b
  | .tail lo hi n, t => ∃ d u b, t = d :: (u ++ b) ∧ between lo hi d ∧ u.length = n ∧
      (∀ c ∈ u, between 0x80 0xBF c) ∧ Body b

theorem rest_of_bodyRun {m : BodyMode} {t : Text} (h : bodyRun m t = some .plain) : m.Rest t := by
  induction t generalizing m with
  | nil =>
    obtain rfl := Option.some.inj h
    exact .nil
  | cons c t ih =>
    obtain ⟨m', hstep, hrun⟩ := Option.bind_eq_some_iff.mp h
    have hrest := ih hrun
    cases m with
    | plain =>
      simp only [bodyStep] at hstep
      split_ifs at hstep with hc hslash
      · obtain rfl := Option.some.inj hstep
        exact .plain hc hrest
      · obtain rfl := Option.some.inj hstep
        exact hslash ▸ hrest
      · obtain ⟨⟨lo, hi, n⟩, hl, rfl⟩ := Option.map_eq_some_iff.mp hstep
        obtain ⟨d, u, b, rfl, hd, hlen, hu, hb⟩ := hrest
        exact .utf8 hl hd hlen hu hb
    | escape =>
      simp only [bodyStep] at hstep
      split_ifs at hstep with hc hu
      · obtain rfl := Option.some.inj hstep
        exact .escape hc hrest
      · obtain rfl := Option.some.inj hstep
        obtain ⟨w, b, rfl, hlen, hw, hb⟩ := hrest
        exact hu ▸ .unicode hlen hw hb
    | hex n =>
      simp only [bodyStep] at hstep
      split_ifs at hstep with hc
      obtain rfl := Option.some.inj hstep
      cases n with
      | zero => exact ⟨[c], t, rfl, rfl, by simpa using hc, hrest⟩
      | succ n =>
        obtain ⟨w, b, rfl, hlen, hw, hb⟩ := hrest
        exact ⟨c :: w, b, rfl, congrArg (· + 1) hlen, by simpa using ⟨hc, hw⟩, hb⟩
    | tail lo hi n =>
      simp only [bodyStep] at hstep
      split_ifs at hstep with hc
      obtain rfl := Option.some.inj hstep
      cases n with
      | zero => exact ⟨c, [], t, rfl, hc, rfl, fun _ hx => (by cases hx), hrest⟩
      | succ n =>
        obtain ⟨d, u, b, rfl, hd, hlen, hu, hb⟩ := hrest
        exact ⟨c, d :: u, b, rfl, hc, congrArg (· + 1) hlen, by simpa using ⟨hd, hu⟩, hb⟩

theorem body_iff {b : Text} : Body b ↔ bodyRun .plain b = some .plain :=
  ⟨bodyRun_of_body, rest_of_bodyRun⟩

inductive NumberMode
  | minus | zero | int | point | frac | exp | sign | expDigits
  deriving DecidableEq

def NumberMode.complete : NumberMode → Bool
  | .zero | .int | .frac | .expDigits => true
  | .minus | .point | .exp | .sign => false

def numberStart (c : Char) : Option NumberMode :=
  if c = '-' then some .minus
  else if c = '0' then some .zero
  else if c.isDigit then some .int
  else none

def numberStep : NumberMode → Char → Option NumberMode
  | .minus, c => if c = '0' then some .zero else if c.isDigit then some .int else none
  | .zero, c =>
    if c = '.' then some .point else if c = 'e' ∨ c = 'E' then some .exp else none
  | .int, c =>
    if c.isDigit then some .int
    else if c = '.' then some .point
    else if c = 'e' ∨ c = 'E' then some .exp
    else none
  | .point, c => if c.isDigit then some .frac else none
  | .frac, c =>
    if c.isDigit then some .frac else if c = 'e' ∨ c = 'E' then some .exp else none
  | .exp, c =>
    if c = '+' ∨ c = '-' then some .sign else if c.isDigit then some .expDigits else none
  | .sign, c | .expDigits, c => if c.isDigit then some .expDigits else none

def numberRun : NumberMode → Text → Option NumberMode
  | m, [] => some m
  | m, c :: t => (numberStep m c).bind fun m => numberRun m t

def NumberMode.Accepts (m : NumberMode) (t : Text) : Prop :=
  ∃ m', numberRun m t = some m' ∧ m'.complete

theorem accepts_nil {m : NumberMode} : m.Accepts [] ↔ m.complete :=
  ⟨fun ⟨_, hr, hc⟩ => Option.some.inj hr ▸ hc, fun hc => ⟨m, rfl, hc⟩⟩

theorem accepts_cons {m : NumberMode} {c : Char} {t : Text} :
    m.Accepts (c :: t) ↔ ∃ m', numberStep m c = some m' ∧ m'.Accepts t := by
  constructor
  · rintro ⟨m₂, hr, hc⟩
    obtain ⟨m₁, hs, hr⟩ := Option.bind_eq_some_iff.mp hr
    exact ⟨m₁, hs, m₂, hr, hc⟩
  · rintro ⟨m₁, hs, m₂, hr, hc⟩
    exact ⟨m₂, Option.bind_eq_some_iff.mpr ⟨m₁, hs, hr⟩, hc⟩

/-- A mode that stays where it is while there are digits. -/
theorem accepts_digits {m : NumberMode} {d t : Text}
    (hm : ∀ c : Char, c.isDigit → numberStep m c = some m) (hd : ∀ c ∈ d, c.isDigit)
    (ht : m.Accepts t) : m.Accepts (d ++ t) := by
  induction d with
  | nil => exact ht
  | cons c d ih =>
    have hrest := ih fun x hx => hd x (List.mem_cons_of_mem c hx)
    exact accepts_cons.mpr ⟨m, hm c (hd c List.mem_cons_self), hrest⟩

theorem accepts_expDigits {d : Text} (hd : ∀ c ∈ d, c.isDigit) :
    NumberMode.expDigits.Accepts d := by
  have h := accepts_digits (m := .expDigits) (fun c hc => by simp [numberStep, hc]) hd
    (accepts_nil.mpr rfl)
  rwa [List.append_nil] at h

theorem accepts_sign {d : Text} (hd : Digits d) : NumberMode.sign.Accepts d := by
  cases d with
  | nil => exact absurd rfl hd.1
  | cons c d =>
    refine accepts_cons.mpr ⟨.expDigits, by simp [numberStep, hd.2 c], ?_⟩
    exact accepts_expDigits fun x hx => hd.2 x (List.mem_cons_of_mem c hx)

theorem not_isDigit_of_eq {c : Char} (hc : c.isDigit) : c ≠ '.' ∧ c ≠ '+' ∧ c ≠ '-' := by
  refine ⟨?_, ?_, ?_⟩ <;> rintro rfl <;> cases hc

theorem accepts_exp {s d : Text} (hs : s = [] ∨ s = ['+'] ∨ s = ['-']) (hd : Digits d) :
    NumberMode.exp.Accepts (s ++ d) := by
  rcases hs with rfl | rfl | rfl
  · cases d with
    | nil => exact absurd rfl hd.1
    | cons c d =>
      have hc := hd.2 c List.mem_cons_self
      obtain ⟨-, hplus, hminus⟩ := not_isDigit_of_eq hc
      refine accepts_cons.mpr ⟨.expDigits, by simp [numberStep, hc, hplus, hminus], ?_⟩
      exact accepts_expDigits fun x hx => hd.2 x (List.mem_cons_of_mem c hx)
  · exact accepts_cons.mpr ⟨.sign, rfl, accepts_sign hd⟩
  · exact accepts_cons.mpr ⟨.sign, rfl, accepts_sign hd⟩

/-- The number may end here or go on with an exponent. -/
theorem accepts_expPart {m : NumberMode} {x : Text} (hm : m.complete)
    (he : numberStep m 'e' = some .exp) (hE : numberStep m 'E' = some .exp) (hx : ExpPart x) :
    m.Accepts x := by
  rcases hx with rfl | ⟨e, s, d, rfl | rfl, hs, hd, rfl⟩
  · exact accepts_nil.mpr hm
  · exact accepts_cons.mpr ⟨.exp, he, accepts_exp hs hd⟩
  · exact accepts_cons.mpr ⟨.exp, hE, accepts_exp hs hd⟩

theorem accepts_frac {d x : Text} (hd : ∀ c ∈ d, c.isDigit) (hx : ExpPart x) :
    NumberMode.frac.Accepts (d ++ x) :=
  accepts_digits (fun c hc => by simp [numberStep, hc]) hd (accepts_expPart rfl rfl rfl hx)

theorem accepts_fracPart {m : NumberMode} {f x : Text} (hm : m.complete)
    (hdot : numberStep m '.' = some .point) (he : numberStep m 'e' = some .exp)
    (hE : numberStep m 'E' = some .exp) (hf : FracPart f) (hx : ExpPart x) :
    m.Accepts (f ++ x) := by
  rcases hf with rfl | ⟨d, hd, rfl⟩
  · exact accepts_expPart hm he hE hx
  · refine accepts_cons.mpr ⟨.point, hdot, ?_⟩
    cases d with
    | nil => exact absurd rfl hd.1
    | cons c d =>
      refine accepts_cons.mpr ⟨.frac, by simp [numberStep, hd.2 c], ?_⟩
      exact accepts_frac (fun x hx => hd.2 x (List.mem_cons_of_mem c hx)) hx

theorem accepts_int {d f x : Text} (hd : ∀ c ∈ d, c.isDigit) (hf : FracPart f) (hx : ExpPart x) :
    NumberMode.int.Accepts (d ++ (f ++ x)) :=
  accepts_digits (fun c hc => by simp [numberStep, hc]) hd
    (accepts_fracPart rfl rfl rfl rfl hf hx)

theorem accepts_minus {i f x : Text} (hi : IntPart i) (hf : FracPart f) (hx : ExpPart x) :
    NumberMode.minus.Accepts (i ++ (f ++ x)) := by
  rcases hi with rfl | ⟨c, d, hc, hzero, hd, rfl⟩
  · have hrest : NumberMode.zero.Accepts (f ++ x) := accepts_fracPart rfl rfl rfl rfl hf hx
    exact accepts_cons.mpr ⟨.zero, rfl, hrest⟩
  · exact accepts_cons.mpr ⟨.int, by simp [numberStep, hc, hzero], accepts_int hd hf hx⟩

/-- The machine reads every number. -/
theorem numberStart_of_isNumber {t : Text} (ht : IsNumber t) :
    ∃ c u m, t = c :: u ∧ numberStart c = some m ∧ m.Accepts u := by
  obtain ⟨s, i, f, x, rfl | rfl, hi, hf, hx, rfl⟩ := ht
  · rcases hi with rfl | ⟨c, d, hc, hzero, hd, rfl⟩
    · have hrest : NumberMode.zero.Accepts (f ++ x) := accepts_fracPart rfl rfl rfl rfl hf hx
      exact ⟨'0', f ++ x, .zero, rfl, rfl, hrest⟩
    · refine ⟨c, d ++ (f ++ x), .int, rfl, ?_, accepts_int hd hf hx⟩
      simp [numberStart, hc, hzero, (not_isDigit_of_eq hc).2.2]
  · exact ⟨'-', i ++ (f ++ x), .minus, rfl, rfl, accepts_minus hi hf hx⟩

def NumberMode.Rest : NumberMode → Text → Prop
  | .minus, t => ∃ i f x, IntPart i ∧ FracPart f ∧ ExpPart x ∧ t = i ++ (f ++ x)
  | .zero, t => ∃ f x, FracPart f ∧ ExpPart x ∧ t = f ++ x
  | .int, t => ∃ d f x, (∀ c ∈ d, c.isDigit) ∧ FracPart f ∧ ExpPart x ∧ t = d ++ (f ++ x)
  | .point, t => ∃ d x, Digits d ∧ ExpPart x ∧ t = d ++ x
  | .frac, t => ∃ d x, (∀ c ∈ d, c.isDigit) ∧ ExpPart x ∧ t = d ++ x
  | .exp, t => ∃ s d, (s = [] ∨ s = ['+'] ∨ s = ['-']) ∧ Digits d ∧ t = s ++ d
  | .sign, t => Digits t
  | .expDigits, t => ∀ c ∈ t, c.isDigit

theorem digits_cons {c : Char} {d : Text} (hc : c.isDigit) (hd : ∀ x ∈ d, x.isDigit) :
    Digits (c :: d) :=
  ⟨List.cons_ne_nil c d, by simpa using ⟨hc, hd⟩⟩

theorem rest_of_accepts {m : NumberMode} {t : Text} (h : m.Accepts t) : m.Rest t := by
  induction t generalizing m with
  | nil =>
    have hm := accepts_nil.mp h
    cases m with
    | minus | point | exp | sign => cases hm
    | zero => exact ⟨[], [], .inl rfl, .inl rfl, rfl⟩
    | int => exact ⟨[], [], [], by simp, .inl rfl, .inl rfl, rfl⟩
    | frac => exact ⟨[], [], by simp, .inl rfl, rfl⟩
    | expDigits => exact fun _ hc => by cases hc
  | cons c t ih =>
    obtain ⟨m', hstep, hrun⟩ := accepts_cons.mp h
    have hrest := ih hrun
    have hexp : NumberMode.exp.Rest t → (c = 'e' ∨ c = 'E') → ExpPart (c :: t) := by
      rintro ⟨s, d, hs, hd, rfl⟩ hc
      exact .inr ⟨c, s, d, hc, hs, hd, rfl⟩
    have hpoint : NumberMode.point.Rest t → c = '.' →
        ∃ f x, FracPart f ∧ ExpPart x ∧ c :: t = f ++ x := by
      rintro ⟨d, x, hd, hx, rfl⟩ rfl
      exact ⟨'.' :: d, x, .inr ⟨d, hd, rfl⟩, hx, rfl⟩
    cases m with
    | minus =>
      simp only [numberStep] at hstep
      split_ifs at hstep with hzero hc <;> obtain rfl := Option.some.inj hstep
      · obtain ⟨f, x, hf, hx, rfl⟩ := hrest
        exact ⟨['0'], f, x, .inl rfl, hf, hx, by rw [hzero]; rfl⟩
      · obtain ⟨d, f, x, hd, hf, hx, rfl⟩ := hrest
        exact ⟨c :: d, f, x, .inr ⟨c, d, hc, hzero, hd, rfl⟩, hf, hx, rfl⟩
    | zero =>
      simp only [numberStep] at hstep
      split_ifs at hstep with hdot he <;> obtain rfl := Option.some.inj hstep
      · exact hpoint hrest hdot
      · exact ⟨[], c :: t, .inl rfl, hexp hrest he, rfl⟩
    | int =>
      simp only [numberStep] at hstep
      split_ifs at hstep with hc hdot he <;> obtain rfl := Option.some.inj hstep
      · obtain ⟨d, f, x, hd, hf, hx, rfl⟩ := hrest
        exact ⟨c :: d, f, x, by simpa using ⟨hc, hd⟩, hf, hx, rfl⟩
      · obtain ⟨f, x, hf, hx, ht⟩ := hpoint hrest hdot
        exact ⟨[], f, x, by simp, hf, hx, ht⟩
      · exact ⟨[], [], c :: t, by simp, .inl rfl, hexp hrest he, rfl⟩
    | point =>
      simp only [numberStep] at hstep
      split_ifs at hstep with hc
      obtain rfl := Option.some.inj hstep
      obtain ⟨d, x, hd, hx, rfl⟩ := hrest
      exact ⟨c :: d, x, digits_cons hc hd, hx, rfl⟩
    | frac =>
      simp only [numberStep] at hstep
      split_ifs at hstep with hc he <;> obtain rfl := Option.some.inj hstep
      · obtain ⟨d, x, hd, hx, rfl⟩ := hrest
        exact ⟨c :: d, x, by simpa using ⟨hc, hd⟩, hx, rfl⟩
      · exact ⟨[], c :: t, by simp, hexp hrest he, rfl⟩
    | exp =>
      simp only [numberStep] at hstep
      split_ifs at hstep with hsign hc <;> obtain rfl := Option.some.inj hstep
      · exact ⟨[c], t, .inr (by simpa using hsign), hrest, rfl⟩
      · exact ⟨[], c :: t, .inl rfl, digits_cons hc hrest, rfl⟩
    | sign =>
      simp only [numberStep] at hstep
      split_ifs at hstep with hc
      obtain rfl := Option.some.inj hstep
      exact digits_cons hc hrest
    | expDigits =>
      simp only [numberStep] at hstep
      split_ifs at hstep with hc
      obtain rfl := Option.some.inj hstep
      exact fun x hx => (List.mem_cons.mp hx).elim (fun h => h ▸ hc) (hrest x)

/-- What the machine reads is a number. -/
theorem isNumber_of_accepts {c : Char} {t : Text} {m : NumberMode} (hc : numberStart c = some m)
    (ht : m.Accepts t) : IsNumber (c :: t) := by
  have hrest := rest_of_accepts ht
  simp only [numberStart] at hc
  split_ifs at hc with hminus hzero hd <;> obtain rfl := Option.some.inj hc
  · obtain ⟨i, f, x, hi, hf, hx, rfl⟩ := hrest
    exact ⟨['-'], i, f, x, .inr rfl, hi, hf, hx, by rw [hminus]; rfl⟩
  · obtain ⟨f, x, hf, hx, rfl⟩ := hrest
    exact ⟨[], ['0'], f, x, .inl rfl, .inl rfl, hf, hx, by rw [hzero]; rfl⟩
  · obtain ⟨d, f, x, hdigits, hf, hx, rfl⟩ := hrest
    exact ⟨[], c :: d, f, x, .inl rfl, .inr ⟨c, d, hd, hzero, hdigits, rfl⟩, hf, hx, rfl⟩

inductive Nest
  | array | object
  deriving DecidableEq

/-- What a reader waits for.  `value` and `key` say whether the array or the object may also close
here; `top` waits for the object that the text is. -/
inductive Mode
  | top
  | value (close : Bool)
  | key (close : Bool)
  | colon
  | after
  | string (key : Bool) (m : BodyMode) (b : Text)
  | number (m : NumberMode)
  | word (w : Text)
  deriving DecidableEq

/-- A reader with the open arrays and objects, innermost first, and the strings it has read. -/
structure Reader where
  mode : Mode
  nest : List Nest
  strings : List Text
  deriving DecidableEq

def Reader.start : Reader := ⟨.top, [], []⟩

def afterStep (n : List Nest) (l : List Text) (c : Char) : Option Reader :=
  if blank c then some ⟨.after, n, l⟩
  else if c = ',' then
    match n with
    | .array :: _ => some ⟨.value false, n, l⟩
    | .object :: _ => some ⟨.key false, n, l⟩
    | [] => none
  else if c = ']' then
    match n with
    | .array :: n => some ⟨.after, n, l⟩
    | _ => none
  else if c = '\x7d' then
    match n with
    | .object :: n => some ⟨.after, n, l⟩
    | _ => none
  else none

def valueStep (n : List Nest) (l : List Text) (c : Char) : Option Reader :=
  if c = '"' then some ⟨.string false .plain [], n, l⟩
  else if c = '[' then some ⟨.value true, .array :: n, l⟩
  else if c = '\x7b' then some ⟨.key true, .object :: n, l⟩
  else if c = 't' then some ⟨.word "rue".toList, n, l⟩
  else if c = 'f' then some ⟨.word "alse".toList, n, l⟩
  else if c = 'n' then some ⟨.word "ull".toList, n, l⟩
  else (numberStart c).map fun m => ⟨.number m, n, l⟩

def step : Reader → Char → Option Reader
  | ⟨.top, n, l⟩, c =>
    if blank c then some ⟨.top, n, l⟩
    else if c = '\x7b' then some ⟨.key true, .object :: n, l⟩
    else none
  | ⟨.value close, n, l⟩, c =>
    if blank c then some ⟨.value close, n, l⟩
    else if c = ']' ∧ close then afterStep n l c
    else valueStep n l c
  | ⟨.key close, n, l⟩, c =>
    if blank c then some ⟨.key close, n, l⟩
    else if c = '\x7d' ∧ close then afterStep n l c
    else if c = '"' then some ⟨.string true .plain [], n, l⟩
    else none
  | ⟨.colon, n, l⟩, c =>
    if blank c then some ⟨.colon, n, l⟩
    else if c = ':' then some ⟨.value false, n, l⟩
    else none
  | ⟨.after, n, l⟩, c => afterStep n l c
  | ⟨.string key m b, n, l⟩, c =>
    if m = .plain ∧ c = '"' then some ⟨if key then .colon else .after, n, l ++ [b]⟩
    else (bodyStep m c).map fun m => ⟨.string key m (b ++ [c]), n, l⟩
  | ⟨.number m, n, l⟩, c =>
    match numberStep m c with
    | some m => some ⟨.number m, n, l⟩
    | none => if m.complete then afterStep n l c else none
  | ⟨.word w, n, l⟩, c =>
    match w with
    | x :: w => if c = x then some ⟨if w = [] then .after else .word w, n, l⟩ else none
    | [] => none

def run : Reader → Text → Option Reader
  | s, [] => some s
  | s, c :: t => (step s c).bind fun s => run s t

theorem run_append (s : Reader) (t u : Text) :
    run s (t ++ u) = (run s t).bind fun s => run s u := by
  induction t generalizing s with
  | nil => rfl
  | cons c t ih => cases h : step s c <;> simp [run, h, ih]

variable {n : List Nest} {l l' : List Text} {t u w b : Text} {c : Char} {s s' : Reader}

/-- A reader that skips blanks. -/
theorem run_blank (hs : ∀ c, blank c → step s c = some s) (hw : Blank w) : run s w = some s := by
  induction w with
  | nil => rfl
  | cons c w ih =>
    rw [run, hs c (hw c List.mem_cons_self)]
    exact ih fun x hx => hw x (List.mem_cons_of_mem c hx)

theorem run_blank_append (hs : ∀ c, blank c → step s c = some s) (hw : Blank w) :
    run s (w ++ t) = run s t := by
  rw [run_append, run_blank hs hw]
  rfl

theorem step_blank_value {close : Bool} :
    ∀ c, blank c → step ⟨.value close, n, l⟩ c = some ⟨.value close, n, l⟩ :=
  fun _ hc => if_pos hc

theorem step_blank_key {close : Bool} :
    ∀ c, blank c → step ⟨.key close, n, l⟩ c = some ⟨.key close, n, l⟩ :=
  fun _ hc => if_pos hc

theorem step_blank_colon : ∀ c, blank c → step ⟨.colon, n, l⟩ c = some ⟨.colon, n, l⟩ :=
  fun _ hc => if_pos hc

theorem step_blank_after : ∀ c, blank c → step ⟨.after, n, l⟩ c = some ⟨.after, n, l⟩ :=
  fun _ hc => if_pos hc

/-- In a string the reader does what the machine of its body does. -/
theorem run_string {key : Bool} {m m' : BodyMode} {b : Text} (ht : bodyRun m t = some m') :
    run ⟨.string key m b, n, l⟩ t = some ⟨.string key m' (b ++ t), n, l⟩ := by
  induction t generalizing m b with
  | nil =>
    obtain rfl := Option.some.inj ht
    rw [List.append_nil]
    rfl
  | cons c t ih =>
    obtain ⟨m₁, hstep, hrun⟩ := Option.bind_eq_some_iff.mp ht
    have hquote : ¬ (m = .plain ∧ c = '"') := by
      rintro ⟨rfl, rfl⟩
      cases hstep
    rw [run, step, if_neg hquote, hstep, Option.map_some, Option.bind_some, ih hrun,
      List.append_assoc]
    rfl

theorem run_body {key : Bool} (hb : Body b) :
    run ⟨.string key .plain [], n, l⟩ (b ++ ['"']) =
      some ⟨if key then .colon else .after, n, l ++ [b]⟩ := by
  rw [run_append, run_string (bodyRun_of_body hb)]
  rfl

theorem run_number {m m' : NumberMode} (ht : numberRun m t = some m') :
    run ⟨.number m, n, l⟩ t = some ⟨.number m', n, l⟩ := by
  induction t generalizing m with
  | nil => exact congrArg some (by rw [Option.some.inj ht])
  | cons c t ih =>
    obtain ⟨m₁, hstep, hrun⟩ := Option.bind_eq_some_iff.mp ht
    simp only [run, step, hstep, Option.bind_some]
    exact ih hrun

/-- The reader has a value behind it; the last octet of a number does not tell. -/
def Reader.Settled (s : Reader) (n : List Nest) (l : List Text) : Prop :=
  s = ⟨.after, n, l⟩ ∨ ∃ m : NumberMode, m.complete ∧ s = ⟨.number m, n, l⟩

/-- No number goes on with an octet that separates or closes. -/
theorem numberStep_separator {m : NumberMode} (hm : m.complete)
    (hc : blank c ∨ c = ',' ∨ c = ']' ∨ c = '\x7d') : numberStep m c = none := by
  have hnone : [' ', '\t', '\n', '\r', ',', ']', '\x7d'].all fun x => (numberStep m x).isNone := by
    cases m with
    | minus | point | exp | sign => cases hm
    | zero | int | frac | expDigits => rfl
  have hmem : c ∈ [' ', '\t', '\n', '\r', ',', ']', '\x7d'] := by
    simpa [blank, or_assoc] using hc
  exact Option.isNone_iff_eq_none.mp (List.all_eq_true.mp hnone c hmem)

theorem Reader.Settled.step (hs : s.Settled n l)
    (hc : blank c ∨ c = ',' ∨ c = ']' ∨ c = '\x7d') : step s c = afterStep n l c := by
  rcases hs with rfl | ⟨m, hm, rfl⟩
  · rfl
  · simp [JsonText.step, numberStep_separator hm hc, hm]

theorem Reader.Settled.blank (hs : s.Settled n l) (hw : Blank w) :
    ∃ s', run s w = some s' ∧ s'.Settled n l := by
  cases w with
  | nil => exact ⟨s, rfl, hs⟩
  | cons c w =>
    have hc := hw c List.mem_cons_self
    refine ⟨⟨.after, n, l⟩, ?_, .inl rfl⟩
    have hafter : afterStep n l c = some ⟨.after, n, l⟩ := step_blank_after c hc
    rw [run, hs.step (.inl hc), hafter]
    exact run_blank step_blank_after fun x hx => hw x (List.mem_cons_of_mem c hx)

def Part.Reading : Part → Text → List Text → Prop
  | .value, t, l | .element, t, l => ∀ close n l₀,
    ∃ s, run ⟨.value close, n, l₀⟩ t = some s ∧ s.Settled n (l₀ ++ l)
  | .elements, t, l => ∀ close n l₀,
    ∃ s, run ⟨.value close, .array :: n, l₀⟩ t = some s ∧ s.Settled (.array :: n) (l₀ ++ l)
  | .member, t, l | .members, t, l => ∀ close n l₀,
    ∃ s, run ⟨.key close, .object :: n, l₀⟩ t = some s ∧ s.Settled (.object :: n) (l₀ ++ l)

/-- What begins no value but may stand where one is awaited. -/
theorem step_value {close : Bool} (hb : blank c = false) (hc : c ≠ ']') :
    step ⟨.value close, n, l⟩ c = valueStep n l c := by
  simp [step, hb, hc]

theorem reading_word (hw : w ∈ words) : Part.value.Reading w [] := by
  intro close n l₀
  rw [List.append_nil]
  refine ⟨⟨.after, n, l₀⟩, ?_, .inl rfl⟩
  simp only [words, List.mem_cons, List.not_mem_nil, or_false] at hw
  rcases hw with rfl | rfl | rfl <;> rfl

/-- The first octet of a number begins nothing else. -/
theorem valueStep_of_numberStart {m : NumberMode} (hc : numberStart c = some m) :
    blank c = false ∧ c ≠ ']' ∧ valueStep n l c = some ⟨.number m, n, l⟩ := by
  have hnot : ∀ x ∈ [' ', '\t', '\n', '\r', ']', '"', '[', '\x7b', 't', 'f', 'n'], c ≠ x := by
    rintro x hx rfl
    have hnone : [' ', '\t', '\n', '\r', ']', '"', '[', '\x7b', 't', 'f', 'n'].all
        fun x => (numberStart x).isNone := rfl
    have hstart := List.all_eq_true.mp hnone c hx
    rw [hc] at hstart
    cases hstart
  simp only [List.mem_cons, List.not_mem_nil, or_false, forall_eq_or_imp, forall_eq] at hnot
  refine ⟨by simp [blank, hnot], hnot.2.2.2.2.1, ?_⟩
  simp [valueStep, hnot, hc]

theorem reading_number (hw : IsNumber w) : Part.value.Reading w [] := by
  intro close n l₀
  obtain ⟨c, u, m, rfl, hc, m', hu, hm'⟩ := numberStart_of_isNumber hw
  obtain ⟨hb, hbracket, hvalue⟩ := valueStep_of_numberStart (n := n) (l := l₀) hc
  rw [List.append_nil, run, step_value hb hbracket, hvalue]
  exact ⟨⟨.number m', n, l₀⟩, run_number hu, .inr ⟨m', hm', rfl⟩⟩

theorem reading_of_reads {p : Part} (h : Reads p t l) : p.Reading t l := by
  induction h with
  | word hw => exact reading_word hw
  | number hw => exact reading_number hw
  | string hb => exact fun close n l₀ => ⟨_, run_body hb, .inl rfl⟩
  | @emptyArray w hw =>
    intro close n l₀
    refine ⟨⟨.after, n, l₀⟩, ?_, .inl (by rw [List.append_nil])⟩
    change run ⟨.value true, .array :: n, l₀⟩ (w ++ [']']) = _
    rw [run_blank_append step_blank_value hw]
    rfl
  | @array w l _ ih =>
    intro close n l₀
    obtain ⟨s, hr, hs⟩ := ih true n l₀
    refine ⟨⟨.after, n, l₀ ++ l⟩, ?_, .inl rfl⟩
    change run ⟨.value true, .array :: n, l₀⟩ (w ++ [']']) = _
    rw [run_append, hr, Option.bind_some, run, hs.step (by simp)]
    rfl
  | @emptyObject w hw =>
    intro close n l₀
    refine ⟨⟨.after, n, l₀⟩, ?_, .inl (by rw [List.append_nil])⟩
    change run ⟨.key true, .object :: n, l₀⟩ (w ++ ['\x7d']) = _
    rw [run_blank_append step_blank_key hw]
    rfl
  | @object w l _ ih =>
    intro close n l₀
    obtain ⟨s, hr, hs⟩ := ih true n l₀
    refine ⟨⟨.after, n, l₀ ++ l⟩, ?_, .inl rfl⟩
    change run ⟨.key true, .object :: n, l₀⟩ (w ++ ['\x7d']) = _
    rw [run_append, hr, Option.bind_some, run, hs.step (by simp)]
    rfl
  | @element u v w l hu _ hw ih =>
    intro close n l₀
    obtain ⟨s, hr, hs⟩ := ih close n l₀
    rw [run_blank_append step_blank_value hu, run_append, hr]
    exact hs.blank hw
  | lastElement _ ih => exact fun close n l₀ => ih close (.array :: n) l₀
  | lastMember _ ih => exact ih
  | @consElement v w l l' _ _ ihv ihw =>
    intro close n l₀
    obtain ⟨s, hr, hs⟩ := ihv close (.array :: n) l₀
    rw [run_append, hr, Option.bind_some, run, hs.step (by simp), ← List.append_assoc]
    exact ihw false n (l₀ ++ l)
  | @member u b v w l hu hb hv _ ih =>
    intro close n l₀
    rw [run_blank_append step_blank_key hu, run_append]
    change ∃ s, ((run ⟨.string true .plain [], .object :: n, l₀⟩ (b ++ ['"'])).bind _) = some s ∧ _
    rw [run_body hb]
    change ∃ s, run ⟨.colon, .object :: n, l₀ ++ [b]⟩ (v ++ ':' :: w) = some s ∧ _
    rw [run_blank_append step_blank_colon hv, List.append_cons l₀ b l]
    exact ih false (.object :: n) (l₀ ++ [b])
  | @consMember v w l l' _ _ ihv ihw =>
    intro close n l₀
    obtain ⟨s, hr, hs⟩ := ihv close n l₀
    rw [run_append, hr, Option.bind_some, run, hs.step (by simp), ← List.append_assoc]
    exact ihw false n (l₀ ++ l)

theorem step_blank_top : ∀ c, blank c → step ⟨.top, n, l⟩ c = some ⟨.top, n, l⟩ :=
  fun _ hc => if_pos hc

theorem run_of_isObject (ht : IsObject t l) : run .start t = some ⟨.after, [], l⟩ := by
  obtain ⟨u, v, w, hu, hv, hw, rfl⟩ := ht
  rw [Reader.start, run_blank_append step_blank_top hu]
  change run ⟨.key true, [.object], []⟩ (v ++ '\x7d' :: w) = _
  rcases hv with ⟨hv, rfl⟩ | hv
  · rw [run_blank_append step_blank_key hv]
    exact run_blank step_blank_after hw
  · obtain ⟨s, hr, hs⟩ := reading_of_reads hv true [] []
    rw [run_append, hr, Option.bind_some, run, hs.step (by simp)]
    exact run_blank step_blank_after hw

def Ends (s : Reader) (t : Text) (l : List Text) : Prop := run s t = some ⟨.after, [], l⟩

theorem ends_cons (h : Ends s (c :: t) l) : ∃ s', step s c = some s' ∧ Ends s' t l :=
  Option.bind_eq_some_iff.mp h

variable {L : List Text}

/-- What a reader that skips blanks leaves. -/
theorem exists_blank (hs : ∀ c, blank c → step s c = some s) (h : Ends s t L)
    (hmode : s ≠ ⟨.after, [], L⟩) :
    ∃ w c u s', t = w ++ c :: u ∧ Blank w ∧ blank c = false ∧ step s c = some s' ∧ Ends s' u L := by
  induction t with
  | nil => exact absurd (Option.some.inj h) hmode
  | cons c t ih =>
    obtain ⟨s', hstep, hrest⟩ := ends_cons h
    cases hc : blank c with
    | true =>
      obtain rfl : s = s' := Option.some.inj ((hs c hc).symm.trans hstep)
      obtain ⟨w, d, u, s', rfl, hw, hd⟩ := ih hrest
      exact ⟨c :: w, d, u, s', rfl, List.forall_mem_cons.mpr ⟨hc, hw⟩, hd⟩
    | false => exact ⟨[], c, t, s', rfl, List.forall_mem_nil _, hc, hstep, hrest⟩

theorem exists_body {key : Bool} {m : BodyMode} {b : Text}
    (h : Ends ⟨.string key m b, n, l⟩ t L) :
    ∃ w u, t = w ++ '"' :: u ∧ bodyRun m w = some .plain ∧
      Ends ⟨if key then .colon else .after, n, l ++ [b ++ w]⟩ u L := by
  induction t generalizing m b with
  | nil => cases h
  | cons c t ih =>
    obtain ⟨s', hstep, hrest⟩ := ends_cons h
    by_cases hquote : m = .plain ∧ c = '"'
    · rw [step, if_pos hquote] at hstep
      obtain ⟨rfl, rfl⟩ := hquote
      obtain rfl := Option.some.inj hstep
      exact ⟨[], t, rfl, rfl, by rwa [List.append_nil]⟩
    · rw [step, if_neg hquote] at hstep
      obtain ⟨m', hm, rfl⟩ := Option.map_eq_some_iff.mp hstep
      obtain ⟨w, u, rfl, hw, hu⟩ := ih hrest
      refine ⟨c :: w, u, rfl, by rw [bodyRun, hm]; exact hw, ?_⟩
      rwa [List.append_assoc] at hu

theorem exists_number {m : NumberMode} (h : Ends ⟨.number m, n, l⟩ t L) :
    ∃ w u, t = w ++ u ∧ m.Accepts w ∧ Ends ⟨.after, n, l⟩ u L := by
  induction t generalizing m with
  | nil => cases h
  | cons c t ih =>
    obtain ⟨s', hstep, hrest⟩ := ends_cons h
    simp only [step] at hstep
    split at hstep
    · next m' hm =>
      obtain rfl := Option.some.inj hstep
      obtain ⟨w, u, rfl, hw, hu⟩ := ih hrest
      exact ⟨c :: w, u, rfl, accepts_cons.mpr ⟨m', hm, hw⟩, hu⟩
    · split_ifs at hstep with hm
      refine ⟨[], c :: t, rfl, accepts_nil.mpr hm, ?_⟩
      exact Option.bind_eq_some_iff.mpr ⟨s', hstep, hrest⟩

theorem exists_word {w : Text} (hw : w ≠ []) (h : Ends ⟨.word w, n, l⟩ t L) :
    ∃ u, t = w ++ u ∧ Ends ⟨.after, n, l⟩ u L := by
  induction w generalizing t with
  | nil => exact absurd rfl hw
  | cons x w ih =>
    cases t with
    | nil => cases h
    | cons c t =>
      obtain ⟨s', hstep, hrest⟩ := ends_cons h
      simp only [step] at hstep
      split_ifs at hstep with hc hnil <;> obtain rfl := Option.some.inj hstep
      · exact ⟨t, by rw [hc, hnil]; rfl, hrest⟩
      · obtain ⟨u, rfl, hu⟩ := ih hnil hrest
        exact ⟨u, by rw [hc]; rfl, hu⟩

def ValueFirst (t : Text) : Prop := ∀ n l L, Ends ⟨.value false, n, l⟩ t L →
  ∃ w v u l', t = w ++ (v ++ u) ∧ Blank w ∧ Reads .value v l' ∧ Ends ⟨.after, n, l ++ l'⟩ u L

def ElementsFirst (t : Text) : Prop := ∀ n l L, Ends ⟨.value false, .array :: n, l⟩ t L →
  ∃ v u l', t = v ++ ']' :: u ∧ Reads .elements v l' ∧ Ends ⟨.after, n, l ++ l'⟩ u L

def MembersFirst (t : Text) : Prop := ∀ n l L, Ends ⟨.key false, .object :: n, l⟩ t L →
  ∃ v u l', t = v ++ '\x7d' :: u ∧ Reads .members v l' ∧ Ends ⟨.after, n, l ++ l'⟩ u L

/-- After a value in an array or an object comes a separator or the end. -/
theorem exists_separator {x : Nest} (h : Ends ⟨.after, x :: n, l⟩ t L) :
    ∃ w c u s', t = w ++ c :: u ∧ Blank w ∧ blank c = false ∧
      afterStep (x :: n) l c = some s' ∧ Ends s' u L :=
  exists_blank step_blank_after h (by simp)

theorem exists_empty_array (h : Ends ⟨.value true, .array :: n, l⟩ t L) :
    (∃ w u, t = w ++ ']' :: u ∧ Blank w ∧ Ends ⟨.after, n, l⟩ u L) ∨
      Ends ⟨.value false, .array :: n, l⟩ t L := by
  obtain ⟨w, c, u, s', rfl, hw, hb, hstep, hu⟩ := exists_blank step_blank_value h (by simp)
  by_cases hc : c = ']'
  · subst hc
    obtain rfl := Option.some.inj hstep
    exact .inl ⟨w, u, rfl, hw, hu⟩
  · rw [step_value hb hc] at hstep
    refine .inr ?_
    rw [Ends, run_blank_append step_blank_value hw]
    exact Option.bind_eq_some_iff.mpr ⟨s', (step_value hb hc).trans hstep, hu⟩

theorem exists_empty_object (h : Ends ⟨.key true, .object :: n, l⟩ t L) :
    (∃ w u, t = w ++ '\x7d' :: u ∧ Blank w ∧ Ends ⟨.after, n, l⟩ u L) ∨
      Ends ⟨.key false, .object :: n, l⟩ t L := by
  obtain ⟨w, c, u, s', rfl, hw, hb, hstep, hu⟩ := exists_blank step_blank_key h (by simp)
  by_cases hc : c = '\x7d'
  · subst hc
    obtain rfl := Option.some.inj hstep
    exact .inl ⟨w, u, rfl, hw, hu⟩
  · have hkey : ∀ close, step ⟨.key close, .object :: n, l⟩ c =
        if c = '"' then some ⟨.string true .plain [], .object :: n, l⟩ else none := by
      simp [step, hb, hc]
    rw [hkey] at hstep
    refine .inr ?_
    rw [Ends, run_blank_append step_blank_key hw]
    exact Option.bind_eq_some_iff.mpr ⟨s', (hkey false).trans hstep, hu⟩

/-- The first octet of a value tells which it is. -/
theorem valueFirst (hE : ∀ u, u.length < t.length → ElementsFirst u)
    (hM : ∀ u, u.length < t.length → MembersFirst u) : ValueFirst t := by
  intro n l L h
  obtain ⟨w, c, r, s', rfl, hw, hb, hstep, hr⟩ := exists_blank step_blank_value h (by simp)
  have hlen : r.length < (w ++ c :: r).length := by simp; omega
  by_cases hclose : c = ']'
  · subst hclose
    cases hstep
  rw [step_value hb hclose, valueStep] at hstep
  split_ifs at hstep with hquote harray hobject htrue hfalse hnull
  · obtain rfl := Option.some.inj hstep
    obtain ⟨b, u, rfl, hbody, hu⟩ := exists_body hr
    refine ⟨w, quote b, u, [b], ?_, hw, .string (body_iff.mpr hbody), hu⟩
    simp [quote, hquote]
  · obtain rfl := Option.some.inj hstep
    rcases exists_empty_array hr with ⟨v, u, rfl, hv, hu⟩ | hne
    · exact ⟨w, '[' :: (v ++ [']']), u, [], by simp [harray], hw, .emptyArray hv, by simpa using hu⟩
    · obtain ⟨v, u, l', rfl, hv, hu⟩ := hE r hlen n l L hne
      exact ⟨w, '[' :: (v ++ [']']), u, l', by simp [harray], hw, .array hv, hu⟩
  · obtain rfl := Option.some.inj hstep
    rcases exists_empty_object hr with ⟨v, u, rfl, hv, hu⟩ | hne
    · exact ⟨w, '\x7b' :: (v ++ ['\x7d']), u, [], by simp [hobject], hw, .emptyObject hv,
        by simpa using hu⟩
    · obtain ⟨v, u, l', rfl, hv, hu⟩ := hM r hlen n l L hne
      exact ⟨w, '\x7b' :: (v ++ ['\x7d']), u, l', by simp [hobject], hw, .object hv, hu⟩
  · obtain rfl := Option.some.inj hstep
    obtain ⟨u, rfl, hu⟩ := exists_word (by decide) hr
    exact ⟨w, "true".toList, u, [], by simp [htrue], hw, .word (by decide), by simpa using hu⟩
  · obtain rfl := Option.some.inj hstep
    obtain ⟨u, rfl, hu⟩ := exists_word (by decide) hr
    exact ⟨w, "false".toList, u, [], by simp [hfalse], hw, .word (by decide), by simpa using hu⟩
  · obtain rfl := Option.some.inj hstep
    obtain ⟨u, rfl, hu⟩ := exists_word (by decide) hr
    exact ⟨w, "null".toList, u, [], by simp [hnull], hw, .word (by decide), by simpa using hu⟩
  · obtain ⟨m, hm, rfl⟩ := Option.map_eq_some_iff.mp hstep
    obtain ⟨v, u, rfl, hv, hu⟩ := exists_number hr
    exact ⟨w, c :: v, u, [], by simp, hw, .number (isNumber_of_accepts hm hv), by simpa using hu⟩

theorem afterStep_array (hb : blank c = false) (hs : afterStep (.array :: n) l c = some s') :
    c = ',' ∧ s' = ⟨.value false, .array :: n, l⟩ ∨ c = ']' ∧ s' = ⟨.after, n, l⟩ := by
  simp only [afterStep, hb, Bool.false_eq_true, if_false] at hs
  split_ifs at hs with hcomma hclose
  · exact .inl ⟨hcomma, (Option.some.inj hs).symm⟩
  · exact .inr ⟨hclose, (Option.some.inj hs).symm⟩

theorem afterStep_object (hb : blank c = false) (hs : afterStep (.object :: n) l c = some s') :
    c = ',' ∧ s' = ⟨.key false, .object :: n, l⟩ ∨ c = '\x7d' ∧ s' = ⟨.after, n, l⟩ := by
  simp only [afterStep, hb, Bool.false_eq_true, if_false] at hs
  split_ifs at hs with hcomma _ hclose
  · exact .inl ⟨hcomma, (Option.some.inj hs).symm⟩
  · exact .inr ⟨hclose, (Option.some.inj hs).symm⟩

theorem elementsFirst (hV : ValueFirst t) (hE : ∀ u, u.length < t.length → ElementsFirst u) :
    ElementsFirst t := by
  intro n l L h
  obtain ⟨w, v, r, l₁, rfl, hw, hv, hr⟩ := hV _ l L h
  obtain ⟨w', c, u, s', rfl, hw', hb, hstep, hu⟩ := exists_separator hr
  have helement : Reads .element (w ++ (v ++ w')) l₁ := .element hw hv hw'
  rcases afterStep_array hb hstep with ⟨rfl, rfl⟩ | ⟨rfl, rfl⟩
  · obtain ⟨x, u, l₂, rfl, hx, hu⟩ := hE u (by simp; omega) n (l ++ l₁) L hu
    refine ⟨w ++ (v ++ w') ++ ',' :: x, u, l₁ ++ l₂, by simp, .consElement helement hx, ?_⟩
    rwa [← List.append_assoc]
  · exact ⟨w ++ (v ++ w'), u, l₁, by simp, .lastElement helement, hu⟩

/-- A member at the front of what the reader accepts in an object, with what comes after it. -/
theorem exists_member (hV : ∀ u, u.length < t.length → ValueFirst u)
    (h : Ends ⟨.key false, .object :: n, l⟩ t L) :
    ∃ v c u l' s', t = v ++ c :: u ∧ Reads .member v l' ∧ blank c = false ∧
      afterStep (.object :: n) (l ++ l') c = some s' ∧ Ends s' u L := by
  obtain ⟨w, c, r, s', rfl, hw, hb, hstep, hr⟩ := exists_blank step_blank_key h (by simp)
  simp only [step, hb, Bool.false_eq_true, and_false, if_false] at hstep
  split_ifs at hstep with hquote
  obtain rfl := Option.some.inj hstep
  obtain ⟨b, r, rfl, hbody, hr⟩ := exists_body hr
  obtain ⟨w', c', r, s', rfl, hw', hb', hstep, hr⟩ := exists_blank step_blank_colon hr (by simp)
  simp only [step, hb', Bool.false_eq_true, if_false] at hstep
  split_ifs at hstep with hcolon
  obtain rfl := Option.some.inj hstep
  obtain ⟨x, v, r, l', rfl, hx, hv, hr⟩ := hV r (by simp; omega) _ _ L hr
  obtain ⟨y, d, u, s', rfl, hy, hd, hstep, hu⟩ := exists_separator hr
  refine ⟨w ++ (quote b ++ (w' ++ ':' :: (x ++ (v ++ y)))), d, u, b :: l', s', ?_,
    .member hw (body_iff.mpr hbody) hw' (.element hx hv hy), hd, ?_, hu⟩
  · simp [quote, hquote, hcolon]
  · simpa using hstep

theorem membersFirst (hV : ∀ u, u.length < t.length → ValueFirst u)
    (hM : ∀ u, u.length < t.length → MembersFirst u) : MembersFirst t := by
  intro n l L h
  obtain ⟨v, c, u, l₁, s', rfl, hv, hb, hstep, hu⟩ := exists_member hV h
  rcases afterStep_object hb hstep with ⟨rfl, rfl⟩ | ⟨rfl, rfl⟩
  · obtain ⟨x, u, l₂, rfl, hx, hu⟩ := hM u (by simp; omega) n (l ++ l₁) L hu
    refine ⟨v ++ ',' :: x, u, l₁ ++ l₂, by simp, .consMember hv hx, ?_⟩
    rwa [← List.append_assoc]
  · exact ⟨v, u, l₁, rfl, .lastMember hv, hu⟩

theorem membersFirst_of_length (k : ℕ) :
    ∀ t : Text, t.length < k → ValueFirst t ∧ ElementsFirst t ∧ MembersFirst t := by
  induction k with
  | zero => exact fun t ht => absurd ht (Nat.not_lt_zero _)
  | succ k ih =>
    intro t ht
    have hlt : ∀ u : Text, u.length < t.length → u.length < k := fun u hu =>
      Nat.lt_of_lt_of_le hu (Nat.le_of_lt_succ ht)
    have hV : ValueFirst t := valueFirst (fun u hu => (ih u (hlt u hu)).2.1)
      fun u hu => (ih u (hlt u hu)).2.2
    exact ⟨hV, elementsFirst hV fun u hu => (ih u (hlt u hu)).2.1,
      membersFirst (fun u hu => (ih u (hlt u hu)).1) fun u hu => (ih u (hlt u hu)).2.2⟩

theorem run_after (h : Ends ⟨.after, [], l⟩ t L) : Blank t ∧ l = L := by
  induction t with
  | nil => exact ⟨List.forall_mem_nil _, congrArg Reader.strings (Option.some.inj h)⟩
  | cons c t ih =>
    obtain ⟨s', hstep, hrest⟩ := ends_cons h
    simp only [step, afterStep] at hstep
    split_ifs at hstep with hc
    obtain rfl := Option.some.inj hstep
    obtain ⟨ht, hl⟩ := ih hrest
    exact ⟨List.forall_mem_cons.mpr ⟨hc, ht⟩, hl⟩

theorem isObject_of_run (h : run .start t = some ⟨.after, [], l⟩) : IsObject t l := by
  obtain ⟨w, c, r, s', rfl, hw, hb, hstep, hr⟩ := exists_blank step_blank_top h (by simp)
  simp only [step, hb, Bool.false_eq_true, if_false] at hstep
  split_ifs at hstep with hopen
  obtain rfl := Option.some.inj hstep
  rcases exists_empty_object hr with ⟨v, u, rfl, hv, hu⟩ | hne
  · obtain ⟨hblank, rfl⟩ := run_after hu
    exact ⟨w, v, u, hw, .inl ⟨hv, rfl⟩, hblank, by rw [hopen]⟩
  · obtain ⟨v, u, l', rfl, hv, hu⟩ :=
      (membersFirst_of_length (r.length + 1) r (Nat.lt_succ_self _)).2.2 [] [] l hne
    obtain ⟨hblank, rfl⟩ := run_after hu
    exact ⟨w, v, u, hw, .inr hv, hblank, by rw [hopen]⟩

/-- The reader accepts the objects of the grammar and reads off their strings. -/
theorem isObject_iff : IsObject t l ↔ run .start t = some ⟨.after, [], l⟩ :=
  ⟨run_of_isObject, isObject_of_run⟩

theorem body_of_reads {p : Part} (h : Reads p t l) : ∀ b ∈ l, Body b := by
  induction h with
  | word | number | emptyArray | emptyObject => exact fun _ hb => by cases hb
  | string hb => exact List.forall_mem_singleton.mpr hb
  | array _ ih | object _ ih | element _ _ _ ih | lastElement _ ih | lastMember _ ih => exact ih
  | member _ hb _ _ ih => exact List.forall_mem_cons.mpr ⟨hb, ih⟩
  | consElement _ _ ihv ihw | consMember _ _ ihv ihw => exact List.forall_mem_append.mpr ⟨ihv, ihw⟩

theorem body_of_isObject (h : IsObject t l) : ∀ b ∈ l, Body b := by
  obtain ⟨u, v, w, -, ⟨-, rfl⟩ | hv, -, -⟩ := h
  · exact fun _ hb => by cases hb
  · exact body_of_reads hv

theorem body_of_plain (h : ∀ c ∈ t, plain c) : Body t := by
  induction t with
  | nil => exact .nil
  | cons c t ih =>
    obtain ⟨hc, ht⟩ := List.forall_mem_cons.mp h
    exact .plain hc (ih ht)

/-- The digits of a number to a base are the digits below the base. -/
theorem digitChar_of_mem_toDigits {b k : ℕ} (hb : 1 < b) (hc : c ∈ Nat.toDigits b k) :
    ∃ d < b, c = d.digitChar := by
  induction k using Nat.strongRecOn with
  | ind k ih =>
    rcases Nat.lt_or_ge k b with hk | hk
    · rw [Nat.toDigits_of_lt_base hk, List.mem_singleton] at hc
      exact ⟨k, hk, hc⟩
    · rw [Nat.toDigits_of_base_le hb hk, List.mem_append, List.mem_singleton] at hc
      rcases hc with hc | hc
      · exact ih (k / b) (Nat.div_lt_self (by omega) hb) hc
      · exact ⟨k % b, Nat.mod_lt k (by omega), hc⟩

theorem intPart_of_pos {k : ℕ} (hk : 0 < k) :
    ∃ c d, c.isDigit ∧ c ≠ '0' ∧ (∀ x ∈ d, x.isDigit) ∧ Nat.toDigits 10 k = c :: d := by
  induction k using Nat.strongRecOn with
  | ind k ih =>
    rcases Nat.lt_or_ge k 10 with hlt | hge
    · have hdigit : ∀ d < 10, 0 < d → d.digitChar.isDigit ∧ d.digitChar ≠ '0' := by decide
      obtain ⟨hc, hne⟩ := hdigit k hlt hk
      exact ⟨k.digitChar, [], hc, hne, List.forall_mem_nil _, Nat.toDigits_of_lt_base hlt⟩
    · have hdigit : ∀ d < 10, d.digitChar.isDigit := by decide
      obtain ⟨c, d, hc, hne, hd, he⟩ := ih (k / 10) (by omega) (by omega)
      refine ⟨c, d ++ [(k % 10).digitChar], hc, hne, ?_, ?_⟩
      · refine List.forall_mem_append.mpr ⟨hd, List.forall_mem_singleton.mpr ?_⟩
        exact hdigit _ (Nat.mod_lt k (by decide))
      · rw [Nat.toDigits_of_base_le (by decide) hge, he]
        rfl

theorem intPart_toDigits (k : ℕ) : IntPart (Nat.toDigits 10 k) := by
  rcases Nat.eq_zero_or_pos k with rfl | hk
  · exact .inl rfl
  · exact .inr (intPart_of_pos hk)

theorem isNumber_of_intPart (h : IntPart t) : IsNumber t :=
  ⟨[], t, [], [], .inl rfl, h, .inl rfl, .inl rfl, by simp⟩

theorem isNumber_minus (h : IntPart t) : IsNumber ('-' :: t) :=
  ⟨['-'], t, [], [], .inr rfl, h, .inl rfl, .inl rfl, by simp⟩

theorem isNumber_fraction (h : IntPart t) (hu : Digits u) : IsNumber (t ++ '.' :: u) :=
  ⟨[], t, '.' :: u, [], .inl rfl, h, .inr ⟨u, hu, rfl⟩, .inl rfl, by simp⟩

theorem plain_of_isDigit (h : c.isDigit) : plain c := by
  have hdigit : '0'.toNat ≤ c.toNat ∧ c.toNat ≤ '9'.toNat := by
    simpa [Char.isDigit, UInt32.le_iff_toNat_le] using h
  have hquote : c ≠ '"' := by rintro rfl; cases h
  have hbackslash : c ≠ '\\' := by rintro rfl; cases h
  simp only [plain, bne_iff_ne, ne_eq, hquote, hbackslash, not_false_iff, Bool.and_eq_true,
    decide_eq_true_eq, and_true]
  exact ⟨Nat.le_trans (by decide) hdigit.1, Nat.lt_of_le_of_lt hdigit.2 (by decide)⟩

theorem plain_toDigits {b k : ℕ} (hb : 1 < b) (hb' : b ≤ 16) : ∀ c ∈ Nat.toDigits b k, plain c := by
  have hdigit : ∀ d < 16, plain d.digitChar := by decide
  intro c hc
  obtain ⟨d, hd, rfl⟩ := digitChar_of_mem_toDigits hb hc
  exact hdigit d (Nat.lt_of_lt_of_le hd hb')

end JsonText
