import ModBroadcast.DialplanData

namespace ModBroadcast

open FirstSeparator

inductive ParamKey
  | role | ghost | exclusive | tag | displayName
  deriving DecidableEq

def ParamKey.text : ParamKey → List Char
  | .role => "role".toList
  | .ghost => "ghost".toList
  | .exclusive => "exclusive".toList
  | .tag => "tag".toList
  | .displayName => "display_name".toList

def ParamKey.bufferSize : ParamKey → ℕ
  | .role => 32
  | .ghost | .exclusive => 8
  | .tag | .displayName => 256

structure JoinSettings where
  role : MemberRole
  ghost : Bool
  exclusive : Bool
  tag : List Char
  display_name : List Char
  deriving DecidableEq

/-- The settings of a join, from what is found under each key; `switch_true` is the core's. -/
def settingsOf (switch_true : List Char → Bool) (get : ParamKey → Option (List Char)) :
    JoinSettings where
  role := match get .role with
    | some rolebuf => if sameCase rolebuf "speaker".toList then .speaker else .listener
    | none => .listener
  ghost := (get .ghost).elim false switch_true
  exclusive := (get .exclusive).elim false switch_true
  tag := (get .tag).getD []
  display_name := (get .displayName).getD []

def joinParam (sep : Separator) (data : List Char) (key : ParamKey) : Option (List Char) :=
  bParamGet sep (parseAppText data).params key.text key.bufferSize

/-- `broadcast_app_function` up to the last `b_param_get`; without a name there is no join. -/
def joinSettings (sep : Separator) (switch_true : List Char → Bool) (data : List Char) :
    Option JoinSettings :=
  if (parseAppText data).name = [] then none
  else some (settingsOf switch_true (joinParam sep data))

abbrev JoinPair := ParamKey × List Char

def joinPairs (pairs : List JoinPair) : List (List Char × List Char) :=
  pairs.map fun kv => (kv.1.text, kv.2)

/-- Two or more of the parameters, each once, with values that fit. -/
structure JoinPairsFit (pairs : List JoinPair) : Prop where
  many : 2 ≤ pairs.length
  distinct : (pairs.map Prod.fst).Nodup
  comma : ∀ kv ∈ pairs, ',' ∉ kv.2
  plain : ∀ kv ∈ pairs, SepPlain kv.2
  size : ∀ kv ∈ pairs, kv.2.length < kv.1.bufferSize
  total : (pairsText ',' (joinPairs pairs)).length < 1024

def FindsAll (sep : Separator) (data : List Char) (pairs : List JoinPair) : Prop :=
  ∀ kv ∈ pairs, joinParam sep data kv.1 = some kv.2

variable {sep : Separator} {name : List Char} {pairs : List JoinPair}

theorem ParamKey.text_ne_nil (k : ParamKey) : k.text ≠ [] := by
  cases k <;> decide

theorem ParamKey.text_plain (k : ParamKey) :
    SepPlain k.text ∧ ',' ∉ k.text ∧ '=' ∉ k.text := by
  cases k <;> exact ⟨by decide, by decide, by decide⟩

/-- No key is another one in other letters. -/
theorem ParamKey.sameCase_text (k k' : ParamKey) : sameCase k.text k'.text = decide (k = k') := by
  cases k <;> cases k' <;> decide

/-- Five keys leave room for five pairs. -/
theorem JoinPairsFit.count (hp : JoinPairsFit pairs) : pairs.length ≤ 31 := by
  have hsub : pairs.map Prod.fst ⊆ [.role, .ghost, .exclusive, .tag, .displayName] := by
    intro k _
    cases k <;> decide
  have hle := (List.subperm_of_subset hp.distinct hsub).length_le
  rw [List.length_map] at hle
  exact hle.trans (by decide)

theorem mem_joinPairs {kv : List Char × List Char} (h : kv ∈ joinPairs pairs) :
    ∃ k, (k, kv.2) ∈ pairs ∧ kv.1 = k.text := by
  obtain ⟨⟨k, v⟩, hmem, rfl⟩ := List.mem_map.mp h
  exact ⟨k, hmem, rfl⟩

theorem JoinPairsFit.pairsFit (hp : JoinPairsFit pairs) : PairsFit (joinPairs pairs) where
  count := by simpa [joinPairs] using hp.count
  total := hp.total
  equals kv hkv := by
    obtain ⟨k, -, hk⟩ := mem_joinPairs hkv
    rw [hk]
    exact k.text_plain.2.2
  comma kv hkv := by
    obtain ⟨k, hmem, hk⟩ := mem_joinPairs hkv
    rw [hk]
    exact ⟨k.text_plain.2.1, hp.comma _ hmem⟩
  plain kv hkv := by
    obtain ⟨k, hmem, hk⟩ := mem_joinPairs hkv
    rw [hk]
    exact ⟨k.text_plain.1, hp.plain _ hmem⟩

/-- The first pair with a key is the one that the list has for it. -/
theorem find_joinPairs (k : ParamKey) :
    ((joinPairs pairs).find? fun kv => sameCase kv.1 k.text).map Prod.snd = pairs.lookup k := by
  induction pairs with
  | nil => rfl
  | cons kv pairs ih =>
    rw [joinPairs, List.map_cons, List.find?_cons, List.lookup_cons, ParamKey.sameCase_text]
    by_cases hk : kv.1 = k
    · simp [hk]
    · rw [decide_eq_false hk, beq_false_of_ne (Ne.symm hk)]
      exact ih

theorem lookup_of_mem (hp : (pairs.map Prod.fst).Nodup) {kv : JoinPair} (h : kv ∈ pairs) :
    pairs.lookup kv.1 = some kv.2 := by
  induction pairs with
  | nil => cases h
  | cons kv' pairs ih =>
    rw [List.map_cons, List.nodup_cons] at hp
    rw [List.lookup_cons]
    rcases List.mem_cons.mp h with rfl | hmem
    · simp
    · have hne : kv.1 ≠ kv'.1 := fun he => hp.1 (he ▸ List.mem_map_of_mem hmem)
      rw [beq_false_of_ne hne]
      exact ih hp.2 hmem

/-- With commas every key finds its own value. -/
theorem joinParam_comma (hsep : SplitsPlain sep) (hf : NamesFit name none)
    (hp : JoinPairsFit pairs) (k : ParamKey) :
    joinParam sep (dialplanData ',' name none (joinPairs pairs)) k = pairs.lookup k := by
  have hfit := hp.pairsFit
  rw [joinParam, parseAppText_dialplanData hf hfit.total]
  refine (bParamGet_pairsText hsep hfit k.text_ne_nil _).trans ?_
  rw [← find_joinPairs]
  cases hfind : (joinPairs pairs).find? fun kv => sameCase kv.1 k.text with
  | none => rfl
  | some kv =>
    obtain ⟨k', hmem, hk'⟩ := mem_joinPairs (List.mem_of_find?_eq_some hfind)
    have hsame := List.find?_some hfind
    rw [hk', ParamKey.sameCase_text, decide_eq_true_eq] at hsame
    subst hsame
    exact congrArg some (copyText_of_lt (hp.size _ hmem))

/-- What the keys find when plus signs part the pairs: the first one finds all the rest of the
text, as far as its buffer holds it. -/
def plusParam (pairs : List JoinPair) (k : ParamKey) : Option (List Char) :=
  match pairs with
  | [] => none
  | kv :: pairs =>
    if kv.1 = k then
      some (copyText k.bufferSize (kv.2 ++ '+' :: pairsText '+' (joinPairs pairs)))
    else none

theorem length_pairsText (c d : Char) (pairs : List (List Char × List Char)) :
    (pairsText c pairs).length = (pairsText d pairs).length := by
  induction pairs with
  | nil => rfl
  | cons kv pairs ih =>
    cases pairs with
    | nil => rfl
    | cons kv' pairs =>
      simp only [pairsText, List.map_cons, List.intercalate_cons_cons, List.length_append] at ih ⊢
      rw [ih]
      rfl

theorem pairsText_cons {c : Char} {kv : List Char × List Char}
    {pairs : List (List Char × List Char)} (hne : pairs ≠ []) :
    pairsText c (kv :: pairs) = pairText kv ++ c :: pairsText c pairs := by
  obtain ⟨kv', pairs, rfl⟩ := List.exists_cons_of_ne_nil hne
  simp [pairsText, List.intercalate_cons_cons]

/-- What stands in a text of pairs stands in a pair, or parts two of them. -/
theorem mem_pairsText {c x : Char} {pairs : List (List Char × List Char)}
    (h : x ∈ pairsText c pairs) : x = c ∨ ∃ kv ∈ pairs, x ∈ pairText kv := by
  induction pairs with
  | nil => cases h
  | cons kv pairs ih =>
    by_cases hne : pairs = []
    · subst hne
      rw [pairsText, List.map_singleton, List.intercalate_singleton] at h
      exact .inr ⟨kv, List.mem_singleton_self kv, h⟩
    · rw [pairsText_cons hne, List.mem_append, List.mem_cons] at h
      rcases h with h | h | h
      · exact .inr ⟨kv, List.mem_cons_self .., h⟩
      · exact .inl h
      · obtain hx | ⟨kv', hmem, hx⟩ := ih h
        · exact .inl hx
        · exact .inr ⟨kv', List.mem_cons_of_mem _ hmem, hx⟩

/-- Pairs that plus signs part are one field of the splitter. -/
theorem JoinPairsFit.plus_plain (hp : JoinPairsFit pairs) :
    SepPlain (pairsText '+' (joinPairs pairs)) ∧ ',' ∉ pairsText '+' (joinPairs pairs) := by
  have hfit := hp.pairsFit
  constructor
  · intro x hx
    obtain rfl | ⟨kv, hkv, hx⟩ := mem_pairsText hx
    · decide
    · exact pairText_plain (hfit.plain kv hkv) x hx
  · intro hx
    obtain hx | ⟨kv, hkv, hx⟩ := mem_pairsText hx
    · exact absurd hx (by decide)
    · exact pairText_comma (hfit.comma kv hkv) hx

/-- With plus signs only the first key finds anything. -/
theorem joinParam_plus (hsep : SplitsPlain sep) (hf : NamesFit name none)
    (hp : JoinPairsFit pairs) (k : ParamKey) :
    joinParam sep (dialplanData '+' name none (joinPairs pairs)) k = plusParam pairs k := by
  have htotal : (pairsText '+' (joinPairs pairs)).length < 1024 :=
    (length_pairsText ..).trans_lt hp.total
  obtain ⟨kv, rest, rfl⟩ := List.exists_cons_of_length_pos (Nat.zero_lt_of_lt hp.many)
  have hne : joinPairs (kv :: rest) ≠ [] := List.cons_ne_nil _ _
  have hfield : sep (pairsText '+' (joinPairs (kv :: rest))) ',' 31 =
      [pairsText '+' (joinPairs (kv :: rest))] := by
    have h := hsep [pairsText '+' (joinPairs (kv :: rest))] (List.cons_ne_nil _ _)
      (Nat.le_of_ble_eq_true rfl) (by simpa using ⟨pairsText_ne_nil hne, hp.plus_plain⟩)
    rwa [List.intercalate_singleton] at h
  rw [joinParam, parseAppText_dialplanData hf htotal]
  have hrest : joinPairs rest ≠ [] := by
    have hmany := hp.many
    intro hnil
    simp [List.map_eq_nil_iff.mp hnil] at hmany
  have htext : pairsText '+' (joinPairs (kv :: rest)) =
      kv.1.text ++ '=' :: (kv.2 ++ '+' :: pairsText '+' (joinPairs rest)) := by
    refine (pairsText_cons hrest).trans ?_
    rw [pairText, List.append_assoc, List.cons_append]
  rw [bParamGet, if_neg (not_or.mpr ⟨pairsText_ne_nil hne, k.text_ne_nil⟩), copyText_of_lt htotal,
    hfield, htext, List.findSome?_singleton, cut_append kv.1.text_plain.2.2]
  dsimp only
  rw [ParamKey.sameCase_text]
  simp [plusParam]

/-- A join takes its settings from pairs that commas part.  Of pairs that plus signs part it takes
the first, with the rest of the text for its value, and no other. -/
theorem join_settings (switch_true : List Char → Bool) (hsep : SplitsPlain sep)
    (hf : NamesFit name none) (hp : JoinPairsFit pairs) :
    let commas := dialplanData ',' name none (joinPairs pairs)
    let pluses := dialplanData '+' name none (joinPairs pairs)
    FindsAll sep commas pairs ∧ (∀ k, joinParam sep pluses k = plusParam pairs k) ∧
      (name ≠ [] →
        joinSettings sep switch_true commas =
            some (settingsOf switch_true fun k => pairs.lookup k) ∧
          joinSettings sep switch_true pluses =
            some (settingsOf switch_true (plusParam pairs))) := by
  intro commas pluses
  have hcomma : joinParam sep commas = fun k => pairs.lookup k :=
    funext (joinParam_comma hsep hf hp)
  have hplus : joinParam sep pluses = plusParam pairs := funext (joinParam_plus hsep hf hp)
  refine ⟨fun kv hkv => ?_, congrFun hplus, fun hname => ⟨?_, ?_⟩⟩
  · rw [hcomma]
    exact lookup_of_mem hp.distinct hkv
  · have hpart : (parseAppText commas).name = name := by
      rw [parseAppText_dialplanData hf hp.total]
    rw [joinSettings, hpart, if_neg hname, hcomma]
  · have hpart : (parseAppText pluses).name = name := by
      rw [parseAppText_dialplanData hf ((length_pairsText ..).trans_lt hp.total)]
    rw [joinSettings, hpart, if_neg hname, hplus]

theorem join_settings_hall : let pairs := [(.role, "speaker".toList), (.tag, "x".toList)]
    joinSettings commaSplit (fun s => s = "true".toList)
        (dialplanData ',' "hall".toList none (joinPairs pairs)) =
      some ⟨.speaker, false, false, "x".toList, []⟩ := by
  intro pairs
  have hf : NamesFit "hall".toList none := ⟨by decide, by decide, by decide, by decide, by decide⟩
  have hp : JoinPairsFit pairs :=
    ⟨by decide, by decide, by decide, by decide, by decide, by decide⟩
  exact ((join_settings (fun s => s = "true".toList) commaSplit_plain hf hp).2.2 (by decide)).1

/-- Who asks for the speaker's role behind a plus sign becomes a listener with a strange tag. -/
theorem plus_settings_lost : let pairs := [(.tag, "x".toList), (.role, "speaker".toList)]
    let pluses := dialplanData '+' "hall".toList none (joinPairs pairs)
    NamesFit "hall".toList none ∧ JoinPairsFit pairs ∧ ¬ FindsAll commaSplit pluses pairs ∧
      joinSettings commaSplit (fun s => s = "true".toList) pluses =
        some ⟨.listener, false, false, "x+role=speaker".toList, []⟩ := by
  intro pairs pluses
  refine ⟨⟨by decide, by decide, by decide, by decide, by decide⟩,
    ⟨by decide, by decide, by decide, by decide, by decide, by decide⟩, fun h => ?_, by decide⟩
  exact absurd (h (.tag, "x".toList) (by decide)) (by decide)

end ModBroadcast
