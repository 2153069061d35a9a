import ModBroadcast.JsonArrays
import ModBroadcast.JsonMode
import Mathlib.Data.List.Forall2

namespace ModBroadcast

open JsonText

def Describes (r : RecordingReport) (v : Text) : Prop :=
  IsRecord v [("path".toList, quote r.target),
    ("bytes_approx".toList, Nat.toDigits 10 r.bytes_approx)]

/-- The text is an array with an object for each of the recordings. -/
def ListsRecordings (recs : List RecordingReport) (t : Text) : Prop :=
  ∃ vs, IsArray t vs ∧ List.Forall₂ Describes recs vs

/-- The path stands for itself in a string: it is text without anything to escape. -/
def RecordingReport.Plain (r : RecordingReport) : Prop := Body r.target ∧ '\\' ∉ r.target

variable {recs : List RecordingReport} {r : RecordingReport} {t : Text} {l : List Text}

/-- What a reader does not leave is no value. -/
theorem not_reads_of_unclosed (hu : Unclosed t) : ¬ Reads .value t l := by
  obtain ⟨u, rfl, hkeeps⟩ := hu
  intro h
  obtain ⟨s, hrun, hs⟩ := reading_of_reads h false [.object] []
  have hrun : run ⟨.value true, [.array, .object], []⟩ u = some s := hrun
  have hdeep := nest_of_keeps (hkeeps []) hrun
  rcases hs with rfl | ⟨m, -, rfl⟩ <;> cases hdeep

theorem sealed_recOpen (hp : ∀ r ∈ recs, Body r.target) : ∀ p ∈ recOpen recs, p.Sealed := by
  intro p hmem
  rcases within_recOpen recs p hmem with hfits | ⟨t, ht, rfl⟩
  · cases p with
    | lit c => trivial
    | text t => exact .inr hfits
    | number t => exact hfits
  · obtain ⟨r, hr, rfl⟩ := List.mem_map.mp ht
    exact .inr (hp r hr)

theorem describes_recItem (hp : Body r.target) : Describes r (render (recItem r)) := by
  have hrender : render (recItem r) = '\x7b' :: (((quote "path".toList ++ ':' :: quote r.target) ++
      ',' :: (quote "bytes_approx".toList ++ ':' :: Nat.toDigits 10 r.bytes_approx)) ++
        ['\x7d']) := by
    simp only [recItem, json, List.flatMap_cons, List.flatMap_nil, String.reduceToList,
      List.cons_append, List.nil_append]
    simp [format, str, num, render, Piece.render, quote]
  have hname : "path".toList.all plain ∧ "bytes_approx".toList.all plain := ⟨rfl, rfl⟩
  have hpath : Body "path".toList := body_of_plain (List.all_eq_true.mp hname.1)
  have hbytes : Body "bytes_approx".toList := body_of_plain (List.all_eq_true.mp hname.2)
  have hnumber := isNumber_of_intPart (intPart_toDigits r.bytes_approx)
  refine ⟨_, hrender, .inr ?_⟩
  exact .cons (isMember_colon hpath (.string hp)) (.last (isMember_colon hbytes (.number hnumber)))

theorem render_items (recs : List RecordingReport) : render (items recFirst true recs) =
    [','].intercalate (recs.map fun r => render (recItem r)) := by
  induction recs with
  | nil => rfl
  | cons r recs ih =>
    have hfirst : render (items recFirst true (r :: recs)) =
        render (recItem r) ++ render (items recFirst false recs) := by
      rw [items, render_append]
      rfl
    rw [hfirst]
    cases recs with
    | nil => rfl
    | cons r' recs =>
      simp only [List.map_cons] at ih ⊢
      rw [List.intercalate_cons_cons, ← ih]
      exact (List.append_assoc _ [','] _).symm

theorem listsRecordings_of_le (hp : ∀ r ∈ recs, Body r.target)
    (h : (recs.map RecordingReport.size).sum ≤ 1533) : ListsRecordings recs (recJson recs) := by
  refine ⟨recs.map fun r => render (recItem r), ?_, ?_⟩
  · rw [recJson_of_le h, render_append, recOpen, render_cons, render_items]
    refine isArray_intercalate fun v hv => ?_
    obtain ⟨r, hr, rfl⟩ := List.mem_map.mp hv
    exact (describes_recItem (hp r hr)).reads
  · rw [List.forall₂_map_right_iff]
    exact List.forall₂_same.mpr fun r hr => describes_recItem (hp r hr)

/-- The answer lists every recording when these have the room. -/
theorem rec_json_lists_iff (hp : ∀ r ∈ recs, r.Plain) :
    ListsRecordings recs (recJson recs) ↔ (recs.map RecordingReport.size).sum ≤ 1533 := by
  refine ⟨fun ⟨vs, harray, _⟩ => ?_, listsRecordings_of_le fun r hr => (hp r hr).1⟩
  obtain ⟨l, hl⟩ := harray.reads
  by_contra hlong
  exact not_reads_of_unclosed
    (unclosed_recJson (sealed_recOpen fun r hr => (hp r hr).1) (Nat.lt_of_not_le hlong)) hl

/-- A lecture and its archive. -/
theorem rec_json_lists_archive : ListsRecordings
    [⟨"/tmp/lecture.wav".toList, 960, 1⟩, ⟨"/tmp/archive.wav".toList, 480, 2⟩]
    (recJson [⟨"/tmp/lecture.wav".toList, 960, 1⟩, ⟨"/tmp/archive.wav".toList, 480, 2⟩]) := by
  refine (rec_json_lists_iff fun r hr => ?_).mpr (by decide)
  have hall : ∀ r ∈ ([⟨"/tmp/lecture.wav".toList, 960, 1⟩, ⟨"/tmp/archive.wav".toList, 480, 2⟩] :
      List RecordingReport), r.target.all plain ∧ '\\' ∉ r.target := by decide
  obtain ⟨hplain, hslash⟩ := hall r hr
  exact ⟨body_of_plain (List.all_eq_true.mp hplain), hslash⟩

/-- A path of 1536 octets takes the end of its own object and the bracket with it. -/
theorem rec_json_long_path : ∃ r : RecordingReport, r.Plain ∧ r.target.length = 1536 ∧
    ¬ ListsRecordings [r] (recJson [r]) := by
  have hpath : ∀ c ∈ List.replicate 1536 'a', c = 'a' := fun c hc => List.eq_of_mem_replicate hc
  have hbody : Body (List.replicate 1536 'a') := by
    refine body_of_plain fun c hc => ?_
    rw [hpath c hc]
    decide
  refine ⟨⟨List.replicate 1536 'a', 960, 1⟩, ⟨hbody, fun h => ?_⟩, List.length_replicate, ?_⟩
  · exact absurd (hpath _ h) (by decide)
  · rintro ⟨vs, harray, -⟩
    obtain ⟨l, hl⟩ := harray.reads
    refine not_reads_of_unclosed (unclosed_recJson (sealed_recOpen ?_) ?_) hl
    · exact List.forall_mem_singleton.mpr hbody
    · simp only [List.map_cons, List.map_nil, List.sum_cons, List.sum_nil, RecordingReport.size,
        List.length_replicate]
      omega

end ModBroadcast
