import Mathlib.Data.List.Chain
import ModBroadcast.Config
import ModBroadcast.PrefixDecoder

namespace ModBroadcast

open PrefixDecoder

/-- The fields of the member that collect its digits. -/
structure DtmfBuffer where
  dtmf_buf : List Char
  dtmf_buf_time_us : ℤ
  deriving DecidableEq

def DtmfBuffer.zero : DtmfBuffer := ⟨[], 0⟩

/-- The digits that are still there when a digit comes at the time `now`; `dtmf_buf` holds 15
characters and the end of the string. -/
def DtmfBuffer.kept (m : DtmfBuffer) (now : ℤ) : List Char :=
  let buf := if 1500000 < now - m.dtmf_buf_time_us then [] else m.dtmf_buf
  if 16 ≤ buf.length + 1 then [] else buf

/-- `broadcast_listener_handle_dtmf`, with the binding that is dispatched; the buffer is emptied
before the dispatch. -/
def handleDtmf (g : ConfigGlobals) (caller_controls : String) (m : DtmfBuffer) (key : Char × ℤ) :
    DtmfBuffer × Option ControlBinding :=
  if key.1 = '\x00' then (m, none)
  else
    let buf := m.kept key.2 ++ [key.1]
    match matchControls g caller_controls (String.ofList buf) with
    | some bind => (⟨[], key.2⟩, some bind)
    | none => (⟨buf, key.2⟩, none)

variable {g : ConfigGlobals} {caller_controls : String} {m : DtmfBuffer} {x : ControlGroup}
  {bind : ControlBinding} {key : Char × ℤ} {keys : List (Char × ℤ)}

def ControlBinding.Apart (a b : ControlBinding) : Prop :=
  ¬ a.digits.toList <+: b.digits.toList ∧ ¬ b.digits.toList <+: a.digits.toList

instance : Std.Symm ControlBinding.Apart := ⟨fun _ _ h => h.symm⟩

instance (a b : ControlBinding) : Decidable (a.Apart b) := inferInstanceAs (Decidable (_ ∧ _))

/-- The digits of the bindings are 1 to 15 characters, and none of them equals or begins another. -/
structure ControlGroup.PrefixFree (x : ControlGroup) : Prop where
  length : ∀ bind ∈ x.bindings, 1 ≤ bind.digits.length ∧ bind.digits.length ≤ 15
  text : ∀ bind ∈ x.bindings, '\x00' ∉ bind.digits.toList
  apart : x.bindings.Pairwise ControlBinding.Apart

/-- The keys spell the digits of the binding without a pause of more than 1.5 s. -/
structure Typed (bind : ControlBinding) (keys : List (Char × ℤ)) : Prop where
  digits : keys.map Prod.fst = bind.digits.toList
  gaps : keys.IsChain fun a b => b.2 - a.2 ≤ 1500000

def ControlGroup.find (x : ControlGroup) (u : List Char) : Option ControlBinding :=
  x.bindings.find? fun bind => bind.digits = String.ofList u

theorem matchControls_ofList (hx : findControls g caller_controls = some x) (u : List Char) :
    matchControls g caller_controls (String.ofList u) = x.find u := by
  simp [matchControls, hx, ControlGroup.find]

theorem ControlGroup.find_some {u : List Char} (h : x.find u = some bind) :
    bind ∈ x.bindings ∧ bind.digits.toList = u := by
  have hdigits := List.find?_some h
  refine ⟨List.mem_of_find?_eq_some h, ?_⟩
  rw [decide_eq_true_eq] at hdigits
  rw [hdigits, String.toList_ofList]

/-- Two bindings of which one begins with the other are the same. -/
theorem ControlGroup.PrefixFree.eq_of_prefix (hf : x.PrefixFree) {a b : ControlBinding}
    (ha : a ∈ x.bindings) (hb : b ∈ x.bindings) (hab : a.digits.toList <+: b.digits.toList) :
    a = b := by
  by_contra hne
  exact (hf.apart.forall ha hb hne).1 hab

/-- The digits of a binding are a word of the code. -/
theorem ControlGroup.PrefixFree.spells (hf : x.PrefixFree) (hb : bind ∈ x.bindings) :
    Spells x.find bind.digits.toList bind where
  ne_nil h := by
    have hlen := (hf.length bind hb).1
    rw [← String.length_toList, h] at hlen
    simp at hlen
  word := by
    obtain ⟨b, hfind⟩ : ∃ b, x.find bind.digits.toList = some b := by
      rw [← Option.isSome_iff_exists, ControlGroup.find, List.find?_isSome]
      exact ⟨bind, hb, by simp⟩
    obtain ⟨hmem, hdigits⟩ := ControlGroup.find_some hfind
    have hpre : b.digits.toList <+: bind.digits.toList := hdigits ▸ List.prefix_refl _
    rw [hfind, hf.eq_of_prefix hmem hb hpre]
  first u hu hne hneq := by
    by_contra hsome
    obtain ⟨b, hfind⟩ := Option.ne_none_iff_exists'.mp hsome
    obtain ⟨hmem, hdigits⟩ := ControlGroup.find_some hfind
    rw [← hdigits] at hu hneq
    exact hneq (by rw [hf.eq_of_prefix hmem hb hu])

/-- A digit that comes in time while the buffer is not full is pushed. -/
theorem handleDtmf_push (hx : findControls g caller_controls = some x) (hkey : key.1 ≠ '\x00')
    (hkept : m.kept key.2 = m.dtmf_buf) : handleDtmf g caller_controls m key =
      (⟨(push x.find m.dtmf_buf key.1).1, key.2⟩, (push x.find m.dtmf_buf key.1).2) := by
  rw [handleDtmf, if_neg hkey, hkept]
  simp only [matchControls_ofList hx, push]
  cases x.find (m.dtmf_buf ++ [key.1]) <;> rfl

theorem DtmfBuffer.kept_of_gap {now : ℤ} (hgap : now - m.dtmf_buf_time_us ≤ 1500000)
    (hlen : m.dtmf_buf.length < 15) : m.kept now = m.dtmf_buf := by
  have hintime : ¬ 1500000 < now - m.dtmf_buf_time_us := by omega
  have hroom : ¬ 16 ≤ m.dtmf_buf.length + 1 := by omega
  simp only [DtmfBuffer.kept, hintime, hroom, if_false]

theorem DtmfBuffer.kept_length_lt (m : DtmfBuffer) (now : ℤ) : (m.kept now).length < 15 := by
  simp only [DtmfBuffer.kept]
  generalize (if 1500000 < now - m.dtmf_buf_time_us then [] else m.dtmf_buf) = buf
  split_ifs with hfull
  · decide
  · omega

theorem DtmfBuffer.kept_of_empty {now : ℤ} (h : m.dtmf_buf = []) : m.kept now = m.dtmf_buf := by
  unfold DtmfBuffer.kept
  simp [h]

/-- The rest of a string, from the digits of it that have been collected. -/
theorem outputs_rest (hx : findControls g caller_controls = some x) (hf : x.PrefixFree)
    (hb : bind ∈ x.bindings) (hdigits : m.dtmf_buf ++ keys.map Prod.fst = bind.digits.toList)
    (hne : keys ≠ []) (hgaps : keys.IsChain fun a b => b.2 - a.2 ≤ 1500000)
    (hfirst : ∀ key ∈ keys.head?, m.kept key.2 = m.dtmf_buf) :
    (outputs (handleDtmf g caller_controls) m keys).1.dtmf_buf = [] ∧
      (outputs (handleDtmf g caller_controls) m keys).2 = [bind] := by
  induction keys generalizing m with
  | nil => exact absurd rfl hne
  | cons key keys ih =>
    have hw := hf.spells hb
    have hkey : key.1 ≠ '\x00' := by
      intro h0
      refine hf.text bind hb ?_
      rw [← hdigits, ← h0]
      simp
    have hpush := handleDtmf_push hx hkey (hfirst key rfl)
    cases keys with
    | nil =>
      have hlast : push x.find m.dtmf_buf key.1 = ([], some bind) :=
        hw.push_last (by simpa using hdigits)
      simp [outputs, hpush, hlast]
    | cons key' keys =>
      have hinner : push x.find m.dtmf_buf key.1 = (m.dtmf_buf ++ [key.1], none) :=
        hw.push_inner (v := (key' :: keys).map Prod.fst) (by simp) (by simpa using hdigits)
      have hlen : (m.dtmf_buf ++ [key.1]).length < 15 := by
        have hmax := (hf.length bind hb).2
        rw [← String.length_toList, ← hdigits] at hmax
        simp only [List.length_append, List.length_map, List.length_cons, List.length_nil] at hmax ⊢
        omega
      have hgap : key'.2 - key.2 ≤ 1500000 := (List.isChain_cons_cons.mp hgaps).1
      have hrest := @ih ⟨m.dtmf_buf ++ [key.1], key.2⟩ (by simpa using hdigits) (by simp)
        (List.isChain_cons_cons.mp hgaps).2 (by
          rintro k ⟨⟩
          exact DtmfBuffer.kept_of_gap hgap hlen)
      rw [outputs, hpush, hinner]
      exact ⟨hrest.1, by simpa using hrest.2⟩

/-- A digit that has been handled, with the binding that it has dispatched. -/
structure KeyLog where
  digit : Char
  now : ℤ
  dispatched : Option ControlBinding

/-- The digits typed since the last reset, by a log that has the latest digit first: a match, a
pause of more than 1.5 s, and the 16th digit reset. -/
def digitsSince : List KeyLog → List Char
  | [] => []
  | [e] => [e.digit]
  | e :: e' :: h =>
    let before := digitsSince (e' :: h)
    if e'.dispatched.isSome ∨ 1500000 < e.now - e'.now ∨ before.length = 15 then [e.digit]
    else before ++ [e.digit]

def logKey (g : ConfigGlobals) (caller_controls : String) (s : DtmfBuffer × List KeyLog)
    (key : Char × ℤ) : DtmfBuffer × List KeyLog :=
  if key.1 = '\x00' then s
  else
    let z := handleDtmf g caller_controls s.1 key
    (z.1, ⟨key.1, key.2, z.2⟩ :: s.2)

/-- A fresh member to whom the keys have been typed. -/
def typeKeys (g : ConfigGlobals) (caller_controls : String) (keys : List (Char × ℤ)) :
    DtmfBuffer × List KeyLog :=
  keys.foldl (logKey g caller_controls) (.zero, [])

/-- The buffer holds the digits since the last reset, and a digit dispatches what these select. -/
structure Logged (g : ConfigGlobals) (caller_controls : String) (s : DtmfBuffer × List KeyLog) :
    Prop where
  buffer : ∀ e ∈ s.2.head?, s.1.dtmf_buf_time_us = e.now ∧
    s.1.dtmf_buf = if e.dispatched.isSome then [] else digitsSince s.2
  fresh : s.2 = [] → s.1.dtmf_buf = []
  length : (digitsSince s.2).length ≤ 15
  sound : ∀ e h, e :: h <:+ s.2 →
    e.dispatched = matchControls g caller_controls (String.ofList (digitsSince (e :: h)))

theorem Logged.zero : Logged g caller_controls (.zero, []) where
  buffer := by simp
  fresh _ := rfl
  length := by simp [digitsSince]
  sound e h hs := by simp at hs

theorem Logged.kept {s : DtmfBuffer × List KeyLog} (hi : Logged g caller_controls s) (e : KeyLog) :
    s.1.kept e.now ++ [e.digit] = digitsSince (e :: s.2) := by
  cases hl : s.2 with
  | nil => simp [DtmfBuffer.kept, hi.fresh hl, digitsSince]
  | cons e' h =>
    obtain ⟨htime, hbuf⟩ := hi.buffer e' (by rw [hl]; rfl)
    have hlen := hi.length
    rw [hl] at hbuf hlen
    rw [digitsSince, DtmfBuffer.kept, htime, hbuf]
    by_cases hd : e'.dispatched.isSome
    · simp [hd]
    · by_cases hgap : 1500000 < e.now - e'.now
      · simp [hgap]
      · by_cases hfull : (digitsSince (e' :: h)).length = 15
        · simp [hd, hgap, hfull]
        · have hroom : ¬ 16 ≤ (digitsSince (e' :: h)).length + 1 := by omega
          simp only [hd, hgap, hfull, hroom, if_false, or_self, Bool.false_eq_true]

theorem Logged.step {s : DtmfBuffer × List KeyLog} (hi : Logged g caller_controls s) :
    Logged g caller_controls (logKey g caller_controls s key) := by
  unfold logKey
  split_ifs with h0
  · exact hi
  · have hkept := hi.kept ⟨key.1, key.2, none⟩
    have hsince : ∀ d, digitsSince (⟨key.1, key.2, d⟩ :: s.2) =
        s.1.kept key.2 ++ [key.1] := by
      intro d
      rw [← hi.kept ⟨key.1, key.2, d⟩]
    have hz : handleDtmf g caller_controls s.1 key =
        match matchControls g caller_controls (String.ofList (s.1.kept key.2 ++ [key.1])) with
        | some bind => (⟨[], key.2⟩, some bind)
        | none => (⟨s.1.kept key.2 ++ [key.1], key.2⟩, none) := by
      rw [handleDtmf, if_neg h0]
    have hlen := s.1.kept_length_lt key.2
    constructor
    · rintro e ⟨⟩
      simp only [hsince, hz]
      cases matchControls g caller_controls (String.ofList (s.1.kept key.2 ++ [key.1])) <;> simp
    · simp
    · rw [hsince, List.length_append, List.length_singleton]
      omega
    · intro e h hs
      rcases List.suffix_cons_iff.mp hs with he | hold
      · obtain ⟨rfl, rfl⟩ := List.cons.inj he
        rw [hsince]
        simp only [hz]
        cases matchControls g caller_controls (String.ofList (s.1.kept key.2 ++ [key.1])) <;> rfl
      · exact hi.sound e h hold

theorem logged (g : ConfigGlobals) (caller_controls : String) (keys : List (Char × ℤ)) :
    Logged g caller_controls (typeKeys g caller_controls keys) := by
  have hall : ∀ s, Logged g caller_controls s →
      Logged g caller_controls (keys.foldl (logKey g caller_controls) s) := by
    induction keys with
    | nil => exact fun s hs => hs
    | cons key keys ih => exact fun s hs => ih _ hs.step
  exact hall _ .zero

/-- Keys that spell bindings of a prefix code one after the other dispatch these bindings; and with
any bindings and any keys the buffer never holds more than 15 digits and a digit dispatches
nothing but what the digits since the last reset spell. -/
theorem dtmf_decoding (g : ConfigGlobals) (caller_controls : String) :
    (∀ x, findControls g caller_controls = some x → x.PrefixFree →
      ∀ (m : DtmfBuffer) (l : List (ControlBinding × List (Char × ℤ))), m.dtmf_buf = [] →
        (∀ e ∈ l, e.1 ∈ x.bindings ∧ Typed e.1 e.2) →
        (outputs (handleDtmf g caller_controls) m (l.map Prod.snd).flatten).2 = l.map Prod.fst) ∧
    ∀ keys : List (Char × ℤ), (typeKeys g caller_controls keys).1.dtmf_buf.length ≤ 15 ∧
      ∀ e h bind, e :: h <:+ (typeKeys g caller_controls keys).2 → e.dispatched = some bind →
        bind.digits.toList = digitsSince (e :: h) := by
  constructor
  · intro x hx hf m l hm hl
    refine (outputs_flatten (P := fun m : DtmfBuffer => m.dtmf_buf = []) hm ?_).2
    intro e he s hs
    obtain ⟨hb, hdigits, hgaps⟩ := hl e he
    refine outputs_rest hx hf hb (by rw [hs]; exact hdigits) ?_ hgaps
      fun _ _ => DtmfBuffer.kept_of_empty hs
    intro hnil
    rw [hnil, List.map_nil] at hdigits
    exact (hf.spells hb).ne_nil hdigits.symm
  · intro keys
    have hi := logged g caller_controls keys
    refine ⟨?_, fun e h bind hs hd => ?_⟩
    · cases hl : (typeKeys g caller_controls keys).2 with
      | nil =>
        rw [hi.fresh hl]
        simp
      | cons e h =>
        rw [(hi.buffer e (by rw [hl]; rfl)).2]
        split_ifs
        · simp
        · exact hi.length
    · have hmatch := (hi.sound e h hs).symm.trans hd
      obtain ⟨y, -, hfind⟩ := Option.bind_eq_some_iff.mp hmatch
      exact (ControlGroup.find_some hfind).2

/-- Three of the test group's controls, typed one after the other within half a second. -/
theorem dtmf_decoding_lecture : ∃ (g : ConfigGlobals) (a b c : ControlBinding),
    [a, b, c].map ControlBinding.digits = ["*1", "**4", "##"] ∧
    (outputs (handleDtmf g "lecture-controls") .zero [('*', 10000000), ('*', 10100000),
      ('4', 10200000), ('#', 10300000), ('#', 10400000), ('*', 10500000), ('1', 10600000)]).2 =
        [b, c, a] := by
  let a : ControlBinding := ⟨"*1", .energyUp, none⟩
  let b : ControlBinding := ⟨"**4", .transfer, some "5002 XML default"⟩
  let c : ControlBinding := ⟨"##", .event, some "custom-signal-payload"⟩
  let x : ControlGroup := ⟨"lecture-controls", [a, b, c]⟩
  refine ⟨{ ConfigGlobals.zero with control_groups := [x] }, a, b, c, rfl, ?_⟩
  refine (dtmf_decoding _ _).1 x (by decide) ⟨by decide, by decide, by decide⟩ .zero
    [(b, [('*', 10000000), ('*', 10100000), ('4', 10200000)]),
      (c, [('#', 10300000), ('#', 10400000)]), (a, [('*', 10500000), ('1', 10600000)])] rfl ?_
  intro e he
  simp only [List.mem_cons, List.not_mem_nil, or_false] at he
  rcases he with rfl | rfl | rfl
  · exact ⟨by decide, by decide, by decide⟩
  · exact ⟨by decide, by decide, by decide⟩
  · exact ⟨by decide, by decide, by decide⟩

end ModBroadcast
