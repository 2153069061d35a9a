import ModBroadcast.SeparatedWords
import ModBroadcast.EventPayload

namespace ModBroadcast

open FirstSeparator SeparatedWords

inductive ControlCall
  | executeApplication (app : String) (args : Option String)
  | sessionTransfer (ext dp ctx : String)
  | enqueueEvent (e : EventCall)
  deriving DecidableEq

def zstr (s : Option String) : Bool := s.getD "" = ""

/-- `strtok_r` with a blank as its separator: the text is `s`, or the one that `p` has been left
at when `s` is NULL. -/
def strtokR (s : Option String) (p : String) : Option String × String :=
  let (word, rest) := strtok ' ' (s.getD p).toList
  (word.map String.ofList, String.ofList rest)

/-- `switch_str_nil(s)`, that is `(s ? s : "")`: `s` runs for the test and again for the value. -/
def switchStrNil (s : String → Option String × String) (p : String) : Option String × String :=
  match s p with
  | (some _, p) => s p
  | (none, p) => (some "", p)

def transferCall (args : String) : Option ControlCall :=
  let (ext, p) := switchStrNil (fun p => strtokR (some p) p) args
  if zstr ext then none
  else
    let (tmp_dp, p) := strtokR none p
    match tmp_dp with
    | none => some (.sessionTransfer (ext.getD "") "XML" "default")
    | some dp =>
      let (tmp_ctx, _) := strtokR none p
      some (.sessionTransfer (ext.getD "") dp (tmp_ctx.getD "default"))

def executeCall (app : String) : ControlCall :=
  let (name, args) := cut ' ' app.toList
  .executeApplication (String.ofList name)
    (args.map fun args => String.ofList (args.dropWhile (· == ' ')))

/-- `b_listener_dispatch_control` for the actions that read `bind->arg`; `copied` is whether
`strdup` finds memory. -/
def dataCall (module_exists : String → Bool) (copied : Bool) (bind : ControlBinding) (id : ℕ) :
    Option ControlCall :=
  match bind.action with
  | .executeApp => if ¬ zstr bind.arg ∧ copied then bind.arg.map executeCall else none
  | .lua =>
    if ¬ zstr bind.arg ∧ module_exists "mod_lua" then some (.executeApplication "lua" bind.arg)
    else none
  | .js =>
    if ¬ zstr bind.arg ∧ module_exists "mod_v8" then
      some (.executeApplication "javascript" bind.arg)
    else none
  | .transfer => if ¬ zstr bind.arg ∧ copied then bind.arg.bind transferCall else none
  | .event => some (.enqueueEvent (dispatchEvent bind id))
  | _ => none

def dataWords (data : String) : List String := (wordsOf ' ' data.toList).map String.ofList

def transferOfWords : List String → Option ControlCall
  | _ :: ext :: ws => some (.sessionTransfer ext (ws[0]?.getD "XML") (ws[1]?.getD "default"))
  | _ => none

/-- The call transfers to the extension, the dialplan and the context that the words name. -/
def TransfersTo (ws : List String) (call : Option ControlCall) : Prop :=
  ∃ ext, ws.head? = some ext ∧
    call = some (.sessionTransfer ext (ws[1]?.getD "XML") (ws[2]?.getD "default"))

variable {module_exists : String → Bool} {copied : Bool} {bind : ControlBinding}
  {data s p w : String} {ws : List String}

theorem dataWords_ofList (l : List Char) :
    dataWords (String.ofList l) = (wordsOf ' ' l).map String.ofList := by
  rw [dataWords, String.toList_ofList]

theorem ne_empty_of_mem_dataWords (hw : w ∈ dataWords data) : w ≠ "" := by
  obtain ⟨l, hl, rfl⟩ := List.mem_map.mp hw
  have hne := ne_nil_of_mem_wordsOf hl
  intro he
  rw [← String.toList_inj, String.toList_ofList] at he
  exact hne he

/-- A call returns the first word of its text and leaves the other ones. -/
theorem strtokR_words (s : Option String) (p : String) :
    (strtokR s p).1 = (dataWords (s.getD p)).head? ∧
      dataWords (strtokR s p).2 = (dataWords (s.getD p)).tail := by
  obtain ⟨hword, hrest⟩ := strtok_wordsOf ' ' (s.getD p).toList
  refine ⟨?_, ?_⟩
  · change (strtok ' ' (s.getD p).toList).1.map String.ofList = _
    rw [hword, dataWords, List.head?_map]
  · change dataWords (String.ofList (strtok ' ' (s.getD p).toList).2) = _
    rw [dataWords_ofList, hrest, dataWords, List.map_tail]

theorem switchStrNil_some {f : String → Option String × String} (h : (f p).1 = some w) :
    switchStrNil f p = f (f p).2 := by
  rw [switchStrNil]
  cases hs : f p with
  | mk word rest =>
    rw [hs] at h
    obtain rfl : word = some w := h
    rfl

theorem switchStrNil_none {f : String → Option String × String} (h : (f p).1 = none) :
    switchStrNil f p = (some "", (f p).2) := by
  rw [switchStrNil]
  cases hs : f p with
  | mk word rest =>
    rw [hs] at h
    obtain rfl : word = none := h
    rfl

/-- In the macro the first word is only tested: the value is the second one. -/
theorem switchStrNil_words (hw : dataWords data = w :: ws) :
    (switchStrNil (fun p => strtokR (some p) p) data).1 = ws.head? ∧
      dataWords (switchStrNil (fun p => strtokR (some p) p) data).2 = ws.tail := by
  obtain ⟨hword, hrest⟩ := strtokR_words (some data) data
  rw [Option.getD_some, hw] at hword hrest
  rw [switchStrNil_some (f := fun p => strtokR (some p) p) hword]
  obtain ⟨hword', hrest'⟩ := strtokR_words (some (strtokR (some data) data).2)
    (strtokR (some data) data).2
  rw [Option.getD_some, hrest] at hword' hrest'
  exact ⟨hword', hrest'⟩

/-- Behind an extension `p` holds the words of the dialplan and the context. -/
theorem transferCall_some {ext : String} (hext : ext ≠ "")
    (hs : switchStrNil (fun p => strtokR (some p) p) data = (some ext, p)) :
    transferCall data = some (.sessionTransfer ext ((dataWords p)[0]?.getD "XML")
      ((dataWords p)[1]?.getD "default")) := by
  have hz : zstr (some ext) = false := decide_eq_false hext
  obtain ⟨hdp, hrest⟩ := strtokR_words none p
  rw [Option.getD_none] at hdp hrest
  rw [transferCall, hs]
  cases hd : strtokR none p with
  | mk tmp_dp q =>
    obtain ⟨hctx, -⟩ := strtokR_words none q
    rw [hd] at hdp hrest
    rw [Option.getD_none, show dataWords q = (dataWords p).tail from hrest] at hctx
    simp only [hz, hd, Bool.false_eq_true, if_false]
    cases hp : dataWords p with
    | nil =>
      rw [hp] at hdp
      obtain rfl : tmp_dp = none := hdp
      rfl
    | cons dp ws =>
      rw [hp] at hdp hctx
      obtain rfl : tmp_dp = some dp := hdp
      simp only [hctx, List.tail_cons, List.head?_eq_getElem?, List.getElem?_cons_zero,
        List.getElem?_cons_succ, Option.getD_some]

theorem transferCall_none {ext : Option String} (hext : zstr ext = true)
    (hs : switchStrNil (fun p => strtokR (some p) p) data = (ext, p)) :
    transferCall data = none := by
  rw [transferCall, hs]
  exact if_pos hext

/-- The transfer goes to the second word of the data, with the two words behind it; data of one
word transfers nowhere. -/
theorem transferCall_words (data : String) :
    transferCall data = transferOfWords (dataWords data) := by
  cases hw : dataWords data with
  | nil =>
    have hnone : (strtokR (some data) data).1 = none := by
      rw [(strtokR_words (some data) data).1, Option.getD_some, hw]
      rfl
    exact transferCall_none rfl (switchStrNil_none (f := fun p => strtokR (some p) p) hnone)
  | cons w ws =>
    obtain ⟨hext, hrest⟩ := switchStrNil_words hw
    cases hs : switchStrNil (fun p => strtokR (some p) p) data with
    | mk ext p =>
      rw [hs] at hext hrest
      cases ws with
      | nil =>
        obtain rfl : ext = none := hext
        exact transferCall_none rfl hs
      | cons e ws =>
        obtain rfl : ext = some e := hext
        have he : e ∈ dataWords data := by
          rw [hw]
          exact List.mem_cons_of_mem _ (List.mem_cons_self ..)
        rw [transferCall_some (ne_empty_of_mem_dataWords he) hs,
          show dataWords p = ws from hrest]
        rfl

theorem transfersTo_iff (hne : ws ≠ []) (hlen : ws.length ≤ 3) :
    TransfersTo ws (transferOfWords ws) ↔
      ws = ["XML", "XML"] ∨ ws = ["default", "default", "default"] := by
  rcases ws with _ | ⟨w, _ | ⟨e, _ | ⟨d, _ | ⟨x, ws⟩⟩⟩⟩
  · exact absurd rfl hne
  · simp [TransfersTo, transferOfWords]
  · -- the second word is extension and dialplan, the default stands for the latter
    have hmeets : TransfersTo [w, e] (transferOfWords [w, e]) ↔ e = w ∧ "XML" = e := by
      simp [TransfersTo, transferOfWords]
    rw [hmeets]
    constructor
    · rintro ⟨rfl, rfl⟩
      exact .inl rfl
    · intro h
      cases h with
      | inl h =>
        cases h
        exact ⟨rfl, rfl⟩
      | inr h => cases h
  · have hmeets : TransfersTo [w, e, d] (transferOfWords [w, e, d]) ↔
        e = w ∧ d = e ∧ "default" = d := by
      simp [TransfersTo, transferOfWords]
    rw [hmeets]
    constructor
    · rintro ⟨rfl, rfl, rfl⟩
      exact .inr rfl
    · intro h
      cases h with
      | inl h => cases h
      | inr h =>
        cases h
        exact ⟨rfl, rfl, rfl⟩
  · simp only [List.length_cons] at hlen
    omega

/-- A control with two or three words transfers as these say when they are all the default of
the last of them, and in no other case. -/
theorem transfer_arguments_iff (module_exists : String → Bool) (copied : Bool) (id : ℕ)
    (ha : bind.action = .transfer) (hd : bind.arg = some data) (hne : dataWords data ≠ [])
    (hlen : (dataWords data).length ≤ 3) :
    TransfersTo (dataWords data) (dataCall module_exists copied bind id) ↔
      copied = true ∧ (dataWords data = ["XML", "XML"] ∨
        dataWords data = ["default", "default", "default"]) := by
  have hz : zstr (some data) = false := by
    refine decide_eq_false fun he => hne ?_
    rw [show data = "" from he]
    rfl
  have hcall : dataCall module_exists copied bind id =
      if copied then transferCall data else none := by
    rw [dataCall, ha, hd]
    simp [hz]
  rw [hcall]
  cases copied with
  | false => simp [TransfersTo]
  | true =>
    rw [if_pos rfl, transferCall_words, transfersTo_iff hne hlen]
    exact (and_iff_right rfl).symm

/-- The one data of two words that the code understands. -/
theorem transfer_arguments_xml : ∃ bind : ControlBinding,
    bParseControl ⟨"**4", "transfer", " XML  XML"⟩ = some bind ∧
    dataWords " XML  XML" = ["XML", "XML"] ∧
    TransfersTo (dataWords " XML  XML") (dataCall (fun _ => true) true bind 3) := by
  refine ⟨⟨"**4", .transfer, some " XML  XML"⟩, by decide, by decide, ?_⟩
  exact (transfer_arguments_iff _ true 3 rfl rfl (by decide) (by decide)).mpr
    ⟨rfl, .inl (by decide)⟩

/-- The control of the test group goes to the extension `XML` in the dialplan `default`. -/
theorem transfer_lecture : ∃ bind : ControlBinding,
    bParseControl ⟨"**4", "transfer", "5002 XML default"⟩ = some bind ∧
    dataWords "5002 XML default" = ["5002", "XML", "default"] ∧
    dataCall (fun _ => true) true bind 3 = some (.sessionTransfer "XML" "default" "default") ∧
    ¬ TransfersTo (dataWords "5002 XML default") (dataCall (fun _ => true) true bind 3) := by
  have hcall : dataCall (fun _ => true) true ⟨"**4", .transfer, some "5002 XML default"⟩ 3 =
      some (.sessionTransfer "XML" "default" "default") := by decide
  refine ⟨⟨"**4", .transfer, some "5002 XML default"⟩, by decide, by decide, hcall, ?_⟩
  rw [hcall, show dataWords "5002 XML default" = ["5002", "XML", "default"] by decide]
  simp [TransfersTo]

end ModBroadcast
