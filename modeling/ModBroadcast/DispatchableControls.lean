import ModBroadcast.DtmfDecoding

namespace ModBroadcast

open PrefixDecoder

variable {g : ConfigGlobals} {caller_controls : String} {x : ControlGroup}
  {bind b : ControlBinding} {keys : List (Char × ℤ)} {e : KeyLog} {h : List KeyLog} {u v : List Char}

/-- Nothing stands before the binding in its group, by order or by its digits, and its digits can
be typed. -/
structure ControlGroup.Reaches (x : ControlGroup) (bind : ControlBinding) : Prop where
  first : ∃ l₁ l₂, x.bindings = l₁ ++ bind :: l₂ ∧ ∀ b ∈ l₁, b.digits ≠ bind.digits
  ne_nil : bind.digits.toList ≠ []
  length : bind.digits.length ≤ 15
  text : '\x00' ∉ bind.digits.toList
  free : ∀ b ∈ x.bindings, b.digits.toList ≠ [] → b.digits.toList <+: bind.digits.toList →
    b.digits = bind.digits

theorem ControlGroup.find_iff : x.find u = some bind ↔ bind.digits.toList = u ∧
    ∃ l₁ l₂, x.bindings = l₁ ++ bind :: l₂ ∧ ∀ b ∈ l₁, b.digits ≠ bind.digits := by
  rw [ControlGroup.find, List.find?_eq_some_iff_append]
  simp only [decide_eq_true_eq, Bool.not_eq_true', decide_eq_false_iff_not]
  constructor
  · rintro ⟨hdigits, l₁, l₂, hl, hne⟩
    refine ⟨by rw [hdigits, String.toList_ofList], l₁, l₂, hl, fun b hb => ?_⟩
    rw [hdigits]
    exact hne b hb
  · rintro ⟨rfl, l₁, l₂, hl, hne⟩
    rw [String.ofList_toList]
    exact ⟨rfl, l₁, l₂, hl, hne⟩

theorem ControlGroup.Reaches.spells (hr : x.Reaches bind) :
    Spells x.find bind.digits.toList bind where
  ne_nil := hr.ne_nil
  word := ControlGroup.find_iff.mpr ⟨rfl, hr.first⟩
  first u hu hne hneq := by
    by_contra hsome
    obtain ⟨b, hfind⟩ := Option.ne_none_iff_exists'.mp hsome
    obtain ⟨hmem, rfl⟩ := ControlGroup.find_some hfind
    exact hneq (by rw [hr.free b hmem hne hu])

theorem digitsSince_length_le (h : List KeyLog) : (digitsSince h).length ≤ 15 := by
  induction h with
  | nil => simp [digitsSince]
  | cons e h ih =>
    cases h with
    | nil => simp [digitsSince]
    | cons e' h =>
      rw [digitsSince]
      split_ifs with hreset
      · simp
      · have hroom : (digitsSince (e' :: h)).length ≠ 15 := fun hlen => hreset (.inr (.inr hlen))
        rw [List.length_append, List.length_singleton]
        omega

theorem mem_digitsSince {d : Char} (hd : d ∈ digitsSince h) : ∃ e ∈ h, e.digit = d := by
  induction h with
  | nil => cases hd
  | cons e h ih =>
    have hold : d ∈ digitsSince h → ∃ e' ∈ e :: h, e'.digit = d := fun hd => by
      obtain ⟨e', he', heq⟩ := ih hd
      exact ⟨e', List.mem_cons_of_mem e he', heq⟩
    have hnew : d = e.digit → ∃ e' ∈ e :: h, e'.digit = d := fun hd =>
      ⟨e, List.mem_cons_self, hd.symm⟩
    cases h with
    | nil => exact hnew (by simpa [digitsSince] using hd)
    | cons e' h =>
      rw [digitsSince] at hd
      split_ifs at hd
      · exact hnew (by simpa using hd)
      · rcases List.mem_append.mp hd with hd | hd
        · exact hold hd
        · exact hnew (by simpa using hd)

/-- A beginning of the digits since the last reset is what they were before, and has dispatched
nothing. -/
theorem digitsSince_prefix (hu : u <+: digitsSince (e :: h)) (hne : u ≠ [])
    (hneq : u ≠ digitsSince (e :: h)) :
    ∃ e' h', e' :: h' <:+ h ∧ digitsSince (e' :: h') = u ∧ e'.dispatched = none := by
  induction h generalizing e with
  | nil =>
    obtain ⟨v, hv⟩ := hu
    simp only [digitsSince] at hv hneq
    cases u with
    | nil => exact absurd rfl hne
    | cons d u => simp_all
  | cons e' h ih =>
    rw [digitsSince] at hu hneq
    split_ifs at hu hneq with hreset
    · obtain ⟨v, hv⟩ := hu
      cases u with
      | nil => exact absurd rfl hne
      | cons d u => simp_all
    · rcases List.prefix_concat_iff.mp hu with h | hbefore
      · exact absurd h hneq
      · by_cases hlast : u = digitsSince (e' :: h)
        · refine ⟨e', h, List.suffix_rfl, hlast.symm, ?_⟩
          by_contra hd
          exact hreset (.inl (Option.isSome_iff_ne_none.mpr hd))
        · obtain ⟨e'', h'', hs, hrest⟩ := ih hbefore hlast
          exact ⟨e'', h'', hs.trans (List.suffix_cons e' h), hrest⟩

theorem typeKeys_concat (keys : List (Char × ℤ)) (key : Char × ℤ) :
    typeKeys g caller_controls (keys ++ [key]) =
      logKey g caller_controls (typeKeys g caller_controls keys) key := by
  rw [typeKeys, List.foldl_append]
  rfl

theorem typed_text (he : e ∈ (typeKeys g caller_controls keys).2) : e.digit ≠ '\x00' := by
  induction keys using List.reverseRecOn with
  | nil => cases he
  | append_singleton keys key ih =>
    rw [typeKeys_concat, logKey] at he
    split_ifs at he with h0
    · exact ih he
    · rcases List.mem_cons.mp he with rfl | he
      · exact h0
      · exact ih he

theorem reaches_of_dispatched (hx : findControls g caller_controls = some x)
    (he : e ∈ (typeKeys g caller_controls keys).2) (hd : e.dispatched = some bind) :
    x.Reaches bind := by
  have hlog := logged g caller_controls keys
  obtain ⟨h', h, hl⟩ := List.append_of_mem he
  have hsuffix : e :: h <:+ (typeKeys g caller_controls keys).2 := ⟨h', hl.symm⟩
  have hfind : x.find (digitsSince (e :: h)) = some bind := by
    rw [← matchControls_ofList hx, ← hlog.sound e h hsuffix, hd]
  obtain ⟨hdigits, hfirst⟩ := ControlGroup.find_iff.mp hfind
  refine ⟨hfirst, ?_, ?_, fun hnul => ?_, fun b hb hne hpre => ?_⟩
  · rw [hdigits]
    cases h with
    | nil => simp [digitsSince]
    | cons e' h =>
      rw [digitsSince]
      split_ifs <;> simp
  · rw [← String.length_toList, hdigits]
    exact digitsSince_length_le _
  · rw [hdigits] at hnul
    obtain ⟨e', he', h0⟩ := mem_digitsSince hnul
    exact typed_text (hsuffix.subset he') h0
  · by_contra hneq
    have hne' : b.digits.toList ≠ digitsSince (e :: h) := fun heq =>
      hneq (String.toList_injective (heq.trans hdigits.symm))
    obtain ⟨e', h₁, hs, hsince, hnone⟩ := digitsSince_prefix (hdigits ▸ hpre) hne hne'
    -- the digits of `b` were the whole buffer then, and would have been found
    have hmiss := hlog.sound e' h₁ ((hs.trans (List.suffix_cons e h)).trans hsuffix)
    rw [hnone, hsince, matchControls_ofList hx, eq_comm, ControlGroup.find,
      List.find?_eq_none] at hmiss
    exact hmiss b hb (by simp)

/-- The digits before the last one are collected. -/
theorem typed_inner (hx : findControls g caller_controls = some x) (hr : x.Reaches bind)
    (hv : v ≠ []) (huv : u ++ v = bind.digits.toList) :
    (typeKeys g caller_controls (u.map fun d => (d, 0))).1 = ⟨u, 0⟩ := by
  induction u using List.reverseRecOn generalizing v with
  | nil => rfl
  | append_singleton u d ih =>
    have hbefore := ih (v := d :: v) (by simp) (by simpa using huv)
    have hlen := hr.length
    rw [← String.length_toList, ← huv] at hlen
    have hkept : DtmfBuffer.kept ⟨u, 0⟩ 0 = u := by
      refine DtmfBuffer.kept_of_gap (m := ⟨u, 0⟩) (by simp) ?_
      have := List.length_pos_iff.mpr hv
      simp only [List.length_append, List.length_singleton] at hlen ⊢
      omega
    have hd : d ≠ '\x00' := fun h0 => hr.text (by rw [← huv, h0]; simp)
    rw [List.map_append, List.map_singleton, typeKeys_concat, logKey, if_neg hd, hbefore,
      handleDtmf_push (m := ⟨u, 0⟩) hx hd hkept, hr.spells.push_inner hv (by simpa using huv)]

/-- A binding can be dispatched, by some keys at some times, exactly when nothing stands before
it. -/
theorem dispatchable_iff (hx : findControls g caller_controls = some x) (bind : ControlBinding) :
    (∃ keys, ∃ e ∈ (typeKeys g caller_controls keys).2, e.dispatched = some bind) ↔
      x.Reaches bind := by
  constructor
  · rintro ⟨keys, e, he, hd⟩
    exact reaches_of_dispatched hx he hd
  · intro hr
    obtain ⟨u, d, hud⟩ := (List.eq_nil_or_concat bind.digits.toList).resolve_left hr.ne_nil
    rw [List.concat_eq_append] at hud
    have hinner := typed_inner hx hr (v := [d]) (by simp) hud.symm
    have hlen := hr.length
    rw [← String.length_toList, hud, List.length_append, List.length_singleton] at hlen
    have hkept : DtmfBuffer.kept ⟨u, 0⟩ 0 = u :=
      DtmfBuffer.kept_of_gap (m := ⟨u, 0⟩) (by simp) (Nat.lt_of_succ_le hlen)
    have hd : d ≠ '\x00' := fun h0 => hr.text (by rw [hud, h0]; simp)
    refine ⟨(u ++ [d]).map fun d => (d, 0), ⟨d, 0, some bind⟩, ?_, rfl⟩
    rw [List.map_append, List.map_singleton, typeKeys_concat, logKey, if_neg hd, hinner,
      handleDtmf_push (m := ⟨u, 0⟩) hx hd hkept, hr.spells.push_last hud.symm]
    exact List.mem_cons_self

/-- Behind `*1` a binding of `*12` is out of reach, and `*2` is not. -/
theorem dispatchable_iff_behind : ∃ (g : ConfigGlobals) (a b c : ControlBinding),
    [a, b, c].map ControlBinding.digits = ["*1", "*12", "*2"] ∧
      (¬ ∃ keys, ∃ e ∈ (typeKeys g "keys" keys).2, e.dispatched = some b) ∧
      ∃ keys, ∃ e ∈ (typeKeys g "keys" keys).2, e.dispatched = some c := by
  let a : ControlBinding := ⟨"*1", .volUp, none⟩
  let b : ControlBinding := ⟨"*12", .leave, none⟩
  let c : ControlBinding := ⟨"*2", .volDown, none⟩
  let x : ControlGroup := ⟨"keys", [a, b, c]⟩
  let g : ConfigGlobals := { ConfigGlobals.zero with control_groups := [x] }
  have hx : findControls g "keys" = some x := by decide
  refine ⟨g, a, b, c, rfl, fun hb => ?_, ?_⟩
  · have hfree := ((dispatchable_iff hx b).mp hb).free a (by decide) (by decide) (by decide)
    exact absurd hfree (by decide)
  · exact (dispatchable_iff hx c).mpr
      ⟨⟨[a, b], [], rfl, by decide⟩, by decide, by decide, by decide, by decide⟩

end ModBroadcast
