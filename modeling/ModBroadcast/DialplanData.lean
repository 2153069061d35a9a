import Mathlib.Data.Fintype.Card
import ModBroadcast.Broadcast
import ModBroadcast.FirstSeparator

namespace ModBroadcast

open FirstSeparator

/-- `switch_separate_string(buf, delim, array, arraylen)`. -/
abbrev Separator := List Char → Char → ℕ → List (List Char)

structure AppText where
  name : List Char
  profile : List Char
  params : List Char
  deriving DecidableEq

/-- `b_copy_seg` and `switch_copy_string` into a buffer of `n` bytes. -/
def copyText (n : ℕ) (s : List Char) : List Char := s.take (n - 1)

def parseAppText (p : List Char) : AppText :=
  let at_ := find '@' p
  let plus := find '+' p
  match at_, plus with
  | some at_, some plus =>
    if at_ < plus then
      ⟨copyText 256 (p.take at_), copyText 128 ((p.drop (at_ + 1)).take (plus - at_ - 1)),
        copyText 1024 (p.drop (plus + 1))⟩
    else ⟨copyText 256 (p.take plus), [], copyText 1024 (p.drop (plus + 1))⟩
  | some at_, none => ⟨copyText 256 (p.take at_), copyText 128 (p.drop (at_ + 1)), []⟩
  | none, some plus => ⟨copyText 256 (p.take plus), [], copyText 1024 (p.drop (plus + 1))⟩
  | none, none => ⟨copyText 256 p, [], []⟩

def sameCase (s t : List Char) : Bool := s.map Char.toLower = t.map Char.toLower

/-- `b_param_get`, `none` for `SWITCH_FALSE`; `out` has `olen` bytes. -/
def bParamGet (sep : Separator) (params key : List Char) (olen : ℕ) : Option (List Char) :=
  if params = [] ∨ key = [] then none
  else (sep (copyText 1024 params) ',' 31).findSome? fun arg =>
    match cut '=' arg with
    | (name, some value) => if sameCase name key then some (copyText olen value) else none
    | (_, none) => none

def pairText (kv : List Char × List Char) : List Char := kv.1 ++ '=' :: kv.2

def pairsText (c : Char) (pairs : List (List Char × List Char)) : List Char :=
  [c].intercalate (pairs.map pairText)

def dialplanData (c : Char) (name : List Char) (profile : Option (List Char))
    (pairs : List (List Char × List Char)) : List Char :=
  name ++ (profile.elim [] fun p => '@' :: p) ++
    if pairs = [] then [] else '+' :: pairsText c pairs

/-- Text that `switch_separate_string` takes as it is: no spaces, quotes or backslashes. -/
def SepPlain (s : List Char) : Prop := ∀ c ∈ s, c ∉ [' ', '"', Char.ofNat 39, Char.ofNat 92]

instance : DecidablePred SepPlain := fun _ => List.decidableBAll _ _

/-- The splitter parts plain text at each comma, into at most 31 fields, where no field is empty (it
drops an empty one at the end). -/
def SplitsPlain (sep : Separator) : Prop :=
  ∀ fields : List (List Char), fields ≠ [] → fields.length ≤ 31 →
    (∀ f ∈ fields, f ≠ [] ∧ SepPlain f ∧ ',' ∉ f) → sep ([','].intercalate fields) ',' 31 = fields

/-- A name and a profile as the dialplan may have them. -/
structure NamesFit (name : List Char) (profile : Option (List Char)) : Prop where
  length : name.length ≤ 255
  at_ : '@' ∉ name
  plus : '+' ∉ name
  profile_length : ∀ p ∈ profile, p.length ≤ 127
  profile_plus : ∀ p ∈ profile, '+' ∉ p

variable {sep : Separator} {name s : List Char} {profile : Option (List Char)}
  {pairs : List (List Char × List Char)}

theorem copyText_of_lt {n : ℕ} (h : s.length < n) : copyText n s = s :=
  List.take_of_length_le (Nat.le_sub_one_of_lt h)

/-- The name ends where the first separator stands, whichever it is, and the profile at the first
plus sign. -/
theorem parseAppText_append (hf : NamesFit name profile) (params : Option (List Char))
    (hparams : ∀ t ∈ params, t.length < 1024) :
    parseAppText (name ++ (profile.elim [] fun p => '@' :: p) ++
      params.elim [] fun t => '+' :: t) = ⟨name, profile.getD [], params.getD []⟩ := by
  have hname : copyText 256 name = name := copyText_of_lt (Nat.lt_succ_of_le hf.length)
  cases profile with
  | none =>
    cases params with
    | none =>
      simp only [Option.elim_none, List.append_nil, parseAppText, find_of_not_mem hf.at_,
        find_of_not_mem hf.plus, hname]
      rfl
    | some t =>
      have ht : copyText 1024 t = t := copyText_of_lt (hparams t rfl)
      simp only [Option.elim_none, List.append_nil, Option.elim_some, parseAppText,
        find_append hf.plus]
      have hdrop : (name ++ '+' :: t).drop (name.length + 1) = t := by
        rw [← List.drop_drop, List.drop_left]
        rfl
      cases hat : find '@' (name ++ '+' :: t) with
      | none => simp [hname, ht, hdrop]
      | some i =>
        -- an at sign in the parameters comes after the plus sign
        have hge := find_append_ge hf.at_ _ i hat
        simp [Nat.not_lt.mpr hge, hname, ht, hdrop]
  | some p =>
    have hp : copyText 128 p = p := copyText_of_lt (Nat.lt_succ_of_le (hf.profile_length p rfl))
    have hdrop (l : List Char) : (name ++ '@' :: l).drop (name.length + 1) = l := by
      rw [← List.drop_drop, List.drop_left]
      rfl
    cases params with
    | none =>
      have hplus : '+' ∉ name ++ '@' :: p := by
        rw [List.mem_append, List.mem_cons]
        rintro (h | h | h)
        · exact hf.plus h
        · exact absurd h (by decide)
        · exact hf.profile_plus p rfl h
      simp only [Option.elim_none, List.append_nil, Option.elim_some, parseAppText,
        find_append hf.at_, find_of_not_mem hplus]
      simp [hname, hp, hdrop]
    | some t =>
      have ht : copyText 1024 t = t := copyText_of_lt (hparams t rfl)
      have hplus : '+' ∉ name ++ '@' :: p := by
        rw [List.mem_append, List.mem_cons]
        rintro (h | h | h)
        · exact hf.plus h
        · exact absurd h (by decide)
        · exact hf.profile_plus p rfl h
      have hat : find '@' (name ++ '@' :: p ++ '+' :: t) = some name.length := by
        rw [List.append_assoc, List.cons_append, find_append hf.at_]
      have hlen : (name ++ '@' :: p).length = name.length + 1 + p.length := by
        rw [List.length_append, List.length_cons]
        omega
      have hrest : (name ++ '@' :: p ++ '+' :: t).drop (name.length + 1 + p.length + 1) = t := by
        rw [← hlen, ← List.drop_drop, List.drop_left]
        rfl
      have hsub : name.length + 1 + p.length - name.length - 1 = p.length := by omega
      simp only [Option.elim_some, parseAppText, hat, find_append hplus, hlen, hsub, hrest]
      rw [if_pos (by omega), List.append_assoc, List.cons_append, hdrop]
      simp [hname, hp, ht]

theorem parseAppText_dialplanData {c : Char} (hf : NamesFit name profile)
    (hlen : (pairsText c pairs).length < 1024) :
    parseAppText (dialplanData c name profile pairs) =
      ⟨name, profile.getD [], pairsText c pairs⟩ := by
  by_cases hp : pairs = []
  · subst hp
    exact parseAppText_append hf none (by simp)
  · rw [dialplanData, if_neg hp]
    exact parseAppText_append hf (some (pairsText c pairs)) (by simpa using hlen)

structure PairsFit (pairs : List (List Char × List Char)) : Prop where
  count : pairs.length ≤ 31
  total : (pairsText ',' pairs).length < 1024
  equals : ∀ kv ∈ pairs, '=' ∉ kv.1
  comma : ∀ kv ∈ pairs, ',' ∉ kv.1 ∧ ',' ∉ kv.2
  plain : ∀ kv ∈ pairs, SepPlain kv.1 ∧ SepPlain kv.2

theorem mem_pairText {c : Char} {kv : List Char × List Char} (h : c ∈ pairText kv) :
    c ∈ kv.1 ∨ c = '=' ∨ c ∈ kv.2 := by
  rw [pairText, List.mem_append, List.mem_cons] at h
  exact h

theorem pairText_plain {kv : List Char × List Char} (h : SepPlain kv.1 ∧ SepPlain kv.2) :
    SepPlain (pairText kv) := by
  intro c hc
  rcases mem_pairText hc with hc | rfl | hc
  · exact h.1 c hc
  · decide
  · exact h.2 c hc

theorem pairText_comma {kv : List Char × List Char} (h : ',' ∉ kv.1 ∧ ',' ∉ kv.2) :
    ',' ∉ pairText kv := by
  intro hc
  rcases mem_pairText hc with hc | hc | hc
  · exact h.1 hc
  · exact absurd hc (by decide)
  · exact h.2 hc

theorem pairText_ne_nil (kv : List Char × List Char) : pairText kv ≠ [] := by
  simp [pairText]

theorem pairsText_ne_nil {c : Char} (hp : pairs ≠ []) : pairsText c pairs ≠ [] := by
  obtain ⟨kv, pairs, rfl⟩ := List.exists_cons_of_ne_nil hp
  rw [pairsText, List.map_cons]
  cases pairs with
  | nil => simpa [List.intercalate_singleton] using pairText_ne_nil kv
  | cons kv' pairs => simp [List.intercalate_cons_cons, pairText_ne_nil]

/-- The first pair with the key counts, as far as the buffer holds its value. -/
theorem findSome_pairs (heq : ∀ kv ∈ pairs, '=' ∉ kv.1) (key : List Char) (olen : ℕ) :
    (pairs.map pairText).findSome? (fun arg =>
        match cut '=' arg with
        | (name, some value) => if sameCase name key then some (copyText olen value) else none
        | (_, none) => none) =
      (pairs.find? fun kv => sameCase kv.1 key).map fun kv => copyText olen kv.2 := by
  induction pairs with
  | nil => rfl
  | cons kv pairs ih =>
    have hcut : cut '=' (pairText kv) = (kv.1, some kv.2) :=
      cut_append (heq kv (List.mem_cons_self ..)) kv.2
    rw [List.map_cons, List.findSome?_cons, hcut, List.find?_cons,
      ih fun kv' hkv' => heq kv' (List.mem_cons_of_mem _ hkv')]
    cases hkey : sameCase kv.1 key <;> simp [hkey]

theorem bParamGet_pairsText (hsep : SplitsPlain sep) (hp : PairsFit pairs) {key : List Char}
    (hkey : key ≠ []) (olen : ℕ) : bParamGet sep (pairsText ',' pairs) key olen =
      (pairs.find? fun kv => sameCase kv.1 key).map fun kv => copyText olen kv.2 := by
  by_cases hnil : pairs = []
  · subst hnil
    rfl
  · have hfields : sep (pairsText ',' pairs) ',' 31 = pairs.map pairText := by
      refine hsep _ (by simpa using hnil) (by simpa using hp.count) fun f hf => ?_
      obtain ⟨kv, hkv, rfl⟩ := List.mem_map.mp hf
      exact ⟨pairText_ne_nil kv, pairText_plain (hp.plain kv hkv), pairText_comma (hp.comma kv hkv)⟩
    rw [bParamGet, if_neg (not_or.mpr ⟨pairsText_ne_nil hnil, hkey⟩), copyText_of_lt hp.total,
      hfields]
    exact findSome_pairs hp.equals key olen

/-- A name, a profile and pairs come back from the data that is made of them, and every key that is
not empty finds its first pair. -/
theorem dialplan_roundTrip (hsep : SplitsPlain sep) (hf : NamesFit name profile)
    (hp : PairsFit pairs) :
    let app := parseAppText (dialplanData ',' name profile pairs)
    app.name = name ∧ app.profile = profile.getD [] ∧ ∀ key olen, key ≠ [] →
      bParamGet sep app.params key olen =
        (pairs.find? fun kv => sameCase kv.1 key).map fun kv => copyText olen kv.2 := by
  intro app
  have happ : app = ⟨name, profile.getD [], pairsText ',' pairs⟩ :=
    parseAppText_dialplanData hf hp.total
  rw [happ]
  exact ⟨rfl, rfl, fun key olen hkey => bParamGet_pairsText hsep hp hkey olen⟩

def commaSplit : Separator := fun buf delim _ => buf.splitOn delim

theorem commaSplit_plain : SplitsPlain commaSplit := fun _ hne _ hf =>
  List.splitOn_intercalate ',' (fun f hmem => (hf f hmem).2.2) hne

/-- A profile with an at sign, a value with both separators, and a key in capitals. -/
theorem dialplan_roundTrip_hall : let pairs := [("tag".toList, "a@b+c".toList),
      ("Role".toList, "speaker".toList), ("role".toList, "listener".toList)]
    let app := parseAppText (dialplanData ',' "hall".toList (some "lecture@2".toList) pairs)
    app.name = "hall".toList ∧ app.profile = "lecture@2".toList ∧
      bParamGet commaSplit app.params "role".toList 32 = some "speaker".toList := by
  intro pairs app
  have hf : NamesFit "hall".toList (some "lecture@2".toList) :=
    ⟨by decide, by decide, by decide, by decide, by decide⟩
  have hp : PairsFit pairs := ⟨by decide, by decide, by decide, by decide, by decide⟩
  obtain ⟨hname, hprofile, hget⟩ := dialplan_roundTrip commaSplit_plain hf hp
  exact ⟨hname, hprofile, (hget "role".toList 32 (by decide)).trans (by decide)⟩

/-- A key without a name is not looked for, even if there is one. -/
theorem empty_key_not_found : let pairs := [([], "x".toList)]
    NamesFit "hall".toList none ∧ PairsFit pairs ∧
      bParamGet commaSplit (parseAppText (dialplanData ',' "hall".toList none pairs)).params [] 32 ≠
        (pairs.find? fun kv => sameCase kv.1 []).map fun kv => copyText 32 kv.2 :=
  ⟨⟨by decide, by decide, by decide, by decide, by decide⟩,
    ⟨by decide, by decide, by decide, by decide, by decide⟩, by decide⟩

end ModBroadcast
