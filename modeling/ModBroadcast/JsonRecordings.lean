import ModBroadcast.JsonAnswers
import Mathlib.Data.List.Induction

namespace ModBroadcast

open JsonText

def recFirst (first : Bool) (r : RecordingReport) : List Piece := comma first ++ recItem r

def recOpen (recs : List RecordingReport) : List Piece := .lit '[' :: items recFirst true recs

variable {recs : List RecordingReport} {r : RecordingReport} {t u : Text}

theorem render_recItem (r : RecordingReport) :
    ∃ t, render (recItem r) = '\x7b' :: t ∧ t.length + 2 = r.size := by
  have hrender : render (recItem r) = '\x7b' :: ("\"path\":\"".toList ++ (r.target ++
      ("\",\"bytes_approx\":".toList ++ (Nat.toDigits 10 r.bytes_approx ++ ['\x7d'])))) := by
    simp only [recItem, json, List.flatMap_cons, List.flatMap_nil, String.reduceToList,
      List.cons_append, List.nil_append]
    simp [format, str, num, render, Piece.render]
  refine ⟨_, hrender, ?_⟩
  simp only [String.reduceToList, List.length_append, List.length_cons, List.length_nil,
    RecordingReport.size]
  omega

theorem recOpen_append : recOpen (recs ++ [r]) = recOpen recs ++ recFirst recs.isEmpty r := by
  rw [recOpen, items_append_singleton]
  rfl

theorem render_recOpen_append (recs : List RecordingReport) (r : RecordingReport) :
    render (recOpen (recs ++ [r])) =
      render (recOpen recs) ++ ((if recs = [] then [] else [',']) ++ render (recItem r)) := by
  rw [recOpen_append, render_append, recFirst, render_append]
  cases recs <;> rfl

theorem length_recOpen (recs : List RecordingReport) :
    (render (recOpen recs)).length = max 1 (recs.map RecordingReport.size).sum := by
  induction recs using List.reverseRecOn with
  | nil => rfl
  | append_singleton recs r ih =>
    obtain ⟨t, ht, hsize⟩ := render_recItem r
    rw [render_recOpen_append, List.length_append, ih, ht, List.map_append, List.sum_append]
    cases recs with
    | nil => simp; omega
    | cons r' recs =>
      have hpos : 1 < r'.size := by unfold RecordingReport.size; omega
      simp; omega

def deep (n : List Nest) : Bool := 2 ≤ n.length

def Unclosed (t : Text) : Prop :=
  ∃ u, t = '[' :: u ∧ ∀ l, keeps deep ⟨.value true, [.array, .object], l⟩ u

theorem Unclosed.take (h : Unclosed t) {k : ℕ} : Unclosed (t.take (k + 1)) := by
  obtain ⟨u, rfl, hu⟩ := h
  refine ⟨u.take k, rfl, fun l => keeps_of_append (u := u.drop k) ?_⟩
  rw [List.take_append_drop]
  exact hu l

theorem keeps_recOpen (hs : ∀ p ∈ recOpen recs, p.Sealed) (l : List Text) :
    keeps deep ⟨.value true, [.array, .object], l⟩ (render (items recFirst true recs)) := by
  have hitem (first : Bool) (r : RecordingReport) (l : List Text) :
      scanKeeps deep ⟨itemMode first, [.array, .object], l⟩ (recFirst first r) := by
    cases first <;>
      simp only [recFirst, recItem, json, List.flatMap_cons, List.flatMap_nil, String.reduceToList,
        List.cons_append, List.nil_append] <;> rfl
  exact keeps_items rfl hitem scan_recItem true recs fun p hp => hs p (List.mem_cons_of_mem _ hp)

theorem unclosed_recOpen (hs : ∀ p ∈ recOpen recs, p.Sealed) : Unclosed (render (recOpen recs)) :=
  ⟨_, rfl, keeps_recOpen hs⟩

/-- Two recordings without a comma. -/
theorem unclosed_brace (hs : ∀ p ∈ recOpen recs, p.Sealed) (hr : recs ≠ []) :
    Unclosed (render (recOpen recs) ++ ['\x7b']) := by
  refine ⟨render (items recFirst true recs) ++ ['\x7b'], rfl, fun l => ?_⟩
  refine keeps_append (keeps_recOpen hs l) fun s' hrun => ?_
  have hscan := scan_items (l := l) (n := [.array, .object]) scan_recItem true recs
  obtain rfl := eq_of_run hscan hrun fun p hp => hs p (List.mem_cons_of_mem _ hp)
  rw [List.isEmpty_eq_false_iff.mpr hr]
  rfl

/-- A turn of the loop once the buffer is full. -/
theorem recStep_full (h : t.length = 1535) : recStep t r = t := by
  simp [recStep, h]

/-- The last octet of the buffer. -/
theorem recStep_last (h : t.length = 1534) : recStep t r = t ++ ['\x7b'] := by
  obtain ⟨u, hu, -⟩ := render_recItem r
  have htake : t.take 1535 = t := List.take_of_length_le (by omega)
  simp [recStep, h, hu, List.take_append, htake]

theorem recStep_recOpen (h : (render (recOpen recs)).length < 1534) :
    recStep (render (recOpen recs)) r = (render (recOpen (recs ++ [r]))).take 1535 := by
  rw [render_recOpen_append, ← List.append_assoc]
  cases recs with
  | nil => rfl
  | cons r' recs =>
    have hlong : 1 < (render (recOpen (r' :: recs))).length := by
      rw [length_recOpen]
      simp [RecordingReport.size]
      omega
    have hroom : (render (recOpen (r' :: recs))).length + 2 < 1536 := by omega
    simp [recStep, hlong, hroom]

theorem length_recOpen_lt : (render (recOpen recs)).length <
    (render (recOpen (recs ++ [r]))).length := by
  obtain ⟨u, hu, -⟩ := render_recItem r
  simp only [render_recOpen_append, hu, List.length_append, List.length_cons]
  omega

theorem foldl_recStep_of_le (h : (render (recOpen recs)).length ≤ 1534) :
    recs.foldl recStep ['['] = render (recOpen recs) := by
  induction recs using List.reverseRecOn with
  | nil => rfl
  | append_singleton recs r ih =>
    have hlt := Nat.lt_of_lt_of_le length_recOpen_lt h
    rw [List.foldl_append, List.foldl_cons, List.foldl_nil, ih hlt.le, recStep_recOpen hlt]
    exact List.take_of_length_le (Nat.le_succ_of_le h)

/-- What does not fit breaks the array off for good. -/
theorem foldl_recStep_of_lt (hs : ∀ p ∈ recOpen recs, p.Sealed)
    (h : 1534 < (render (recOpen recs)).length) :
    (recs.foldl recStep ['[']).length = 1535 ∧ Unclosed (recs.foldl recStep ['[']) := by
  induction recs using List.reverseRecOn with
  | nil => exact absurd h (by decide)
  | append_singleton recs r ih =>
    have hs' : ∀ p ∈ recOpen recs, p.Sealed := by
      rw [recOpen_append] at hs
      exact (List.forall_mem_append.mp hs).1
    rw [List.foldl_append, List.foldl_cons, List.foldl_nil]
    rcases Nat.lt_trichotomy (render (recOpen recs)).length 1534 with hlt | heq | hgt
    · rw [foldl_recStep_of_le hlt.le, recStep_recOpen hlt]
      exact ⟨List.length_take_of_le h, (unclosed_recOpen hs).take⟩
    · have hne : recs ≠ [] := by rintro rfl; cases heq
      rw [foldl_recStep_of_le heq.le, recStep_last heq]
      exact ⟨by simp [heq], unclosed_brace hs' hne⟩
    · obtain ⟨hlength, hunclosed⟩ := ih hs' hgt
      rw [recStep_full hlength]
      exact ⟨hlength, hunclosed⟩

/-- With room for its end the array is whole. -/
theorem recJson_of_le (h : (recs.map RecordingReport.size).sum ≤ 1533) :
    recJson recs = render (recOpen recs ++ [.lit ']']) := by
  have hlength : (render (recOpen recs)).length ≤ 1533 := by
    rw [length_recOpen]
    exact max_le (by decide) h
  rw [recJson, foldl_recStep_of_le (by omega), if_pos (by omega), render_append]
  rfl

theorem unclosed_recJson (hs : ∀ p ∈ recOpen recs, p.Sealed)
    (h : 1533 < (recs.map RecordingReport.size).sum) : Unclosed (recJson recs) := by
  have hlong : 1533 < (render (recOpen recs)).length := by
    rw [length_recOpen]
    exact lt_max_of_lt_right h
  rcases Nat.lt_or_ge 1534 (render (recOpen recs)).length with hlt | hge
  · obtain ⟨hfull, hunclosed⟩ := foldl_recStep_of_lt hs hlt
    rw [recJson, if_neg (by omega)]
    exact hunclosed
  · rw [recJson, foldl_recStep_of_le hge, if_neg (by omega)]
    exact unclosed_recOpen hs

end ModBroadcast
