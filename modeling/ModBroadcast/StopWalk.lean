import Mathlib.Data.List.Basic
import ModBroadcast.SinglyLinked

namespace ModBroadcast

open SinglyLinked

/-- `rec_consumer_t`; `writer_thread` says whether the handle is set. -/
structure RecNode where
  target : String
  running : Bool
  writer_thread : Bool
  next : Option ℕ
  deriving DecidableEq

/-- `consumer` is `none` at an address without a consumer. -/
structure RecHeap where
  recording_head : Option ℕ
  recording : Bool
  consumer : ℕ → Option RecNode

def RecHeap.modify (b : RecHeap) (r : ℕ) (f : RecNode → RecNode) : Option RecHeap :=
  (b.consumer r).map fun x => { b with consumer := Function.update b.consumer r (some (f x)) }

inductive RecEffect
  | clearRunning (r : ℕ)
  | join (r : ℕ)
  | stopEvent
  | destroyPool (r : ℕ)
  deriving DecidableEq

/-- The locals of `broadcast_record_stop` during its walk, and what the walk has done so far. -/
structure StopWalk where
  b : RecHeap
  prev : Option ℕ
  cur : Option ℕ
  stopped : Option ℕ
  st : Bool
  effects : List RecEffect

def stopMatches (target : Option String) (s : String) : Bool :=
  match target with
  | none => true
  | some t => t = "" ∨ s = t

/-- `if (prev) prev->next = next; else b->recording_head = next;`. -/
def StopWalk.unlink (w : StopWalk) (next : Option ℕ) : Option RecHeap :=
  match w.prev with
  | some prev => w.b.modify prev fun x => { x with next := next }
  | none => some { w.b with recording_head := next }

def StopWalk.pass (target : Option String) (w : StopWalk) (r : ℕ) : Option StopWalk := do
  let cur ← w.b.consumer r
  if stopMatches target cur.target then
    let b ← w.unlink cur.next
    let b ← b.modify r fun x => { x with next := w.stopped, running := false }
    some ⟨b, w.prev, cur.next, some r, true, w.effects ++ [.clearRunning r]⟩
  else
    some { w with prev := some r, cur := cur.next }

/-- `while (cur)`; `none` when the fuel does not suffice or a freed consumer is read. -/
def stopWalk (target : Option String) : ℕ → StopWalk → Option StopWalk
  | 0, w => if w.cur = none then some w else none
  | n + 1, w =>
    match w.cur with
    | none => some w
    | some r => (w.pass target r).bind (stopWalk target n)

def RecHeap.clearFlag (b : RecHeap) : RecHeap :=
  if b.recording_head = none then { b with recording := false } else b

/-- `recording_head` leads along the consumers of `l`, each of them once. -/
structure RecHeap.Lists (b : RecHeap) (l : List ℕ) : Prop where
  chain : Chain RecNode.next b.consumer b.recording_head l
  nodup : l.Nodup

/-- What is left of the list `l`: the consumers whose target differs from a non-empty target. -/
def RecHeap.left (b : RecHeap) (target : Option String) (l : List ℕ) : List ℕ :=
  match target with
  | none => []
  | some t => if t = "" then [] else l.filter fun r => (b.consumer r).map RecNode.target ≠ some t

def RecHeap.stops (b : RecHeap) (target : Option String) (r : ℕ) : Bool :=
  (b.consumer r).any fun x => stopMatches target x.target

/-- The fields of a consumer without its pointer. -/
def RecNode.fields (x : RecNode) : String × Bool × Bool := (x.target, x.running, x.writer_thread)

variable {b b' : RecHeap} {target : Option String} {w : StopWalk} {r n : ℕ} {x : RecNode}
  {l kept gone rest : List ℕ}

theorem modify_of_some (f : RecNode → RecNode) (hr : b.consumer r = some x) :
    b.modify r f = some { b with consumer := Function.update b.consumer r (some (f x)) } := by
  simp [RecHeap.modify, hr]

/-- The walk stands between the consumers `kept` and `rest`, and has taken out `gone`. -/
structure StopWalk.At (b : RecHeap) (w : StopWalk) (kept gone rest : List ℕ) : Prop where
  front : Segment RecNode.next w.b.consumer w.b.recording_head kept w.cur
  back : Chain RecNode.next w.b.consumer w.cur rest
  taken : Chain RecNode.next w.b.consumer w.stopped gone
  prev : w.prev = kept.getLast?
  nodup : (kept ++ gone ++ rest).Nodup
  fields : ∀ a, (w.b.consumer a).map RecNode.fields =
    (b.consumer a).map fun x => (x.target, x.running && a ∉ gone, x.writer_thread)
  others : ∀ a, a ∉ kept ++ gone ++ rest → w.b.consumer a = b.consumer a
  recording : w.b.recording = b.recording
  st : w.st = !gone.isEmpty
  effects : w.effects = gone.reverse.map .clearRunning

theorem StopWalk.At.init (hl : b.Lists l) :
    StopWalk.At b ⟨b, none, b.recording_head, none, false, []⟩ [] [] l where
  front := rfl
  back := hl.chain
  taken := rfl
  prev := rfl
  nodup := hl.nodup
  fields a := by cases b.consumer a <;> simp [RecNode.fields]
  others _ _ := rfl
  recording := rfl
  st := rfl
  effects := rfl

/-- The store leads from the kept consumers on to `next`. -/
theorem StopWalk.At.unlink (h : w.At b kept gone rest) (next : Option ℕ) :
    ∃ b', w.unlink next = some b' ∧
      Segment RecNode.next b'.consumer b'.recording_head kept next ∧
      (∀ a, a ∉ kept → b'.consumer a = w.b.consumer a) ∧
      (∀ a, (b'.consumer a).map RecNode.fields = (w.b.consumer a).map RecNode.fields) ∧
      b'.recording = w.b.recording := by
  have hfront := h.front
  have hprev := h.prev
  have hnodup : kept.Nodup := (List.nodup_append.mp (List.nodup_append.mp h.nodup).1).1
  rw [StopWalk.unlink, hprev]
  rcases List.eq_nil_or_concat kept with rfl | ⟨front, q, rfl⟩
  · exact ⟨_, rfl, rfl, fun _ _ => rfl, fun _ => rfl, rfl⟩
  · rw [List.concat_eq_append] at *
    obtain ⟨y, hy⟩ := hfront.allocated (a := q) (by simp)
    rw [List.getLast?_append]
    refine ⟨_, modify_of_some _ hy, hfront.redirect hnodup rfl, fun a ha => ?_, fun a => ?_, rfl⟩
    · have hne : a ≠ q := fun he => ha (by simp [he])
      exact Function.update_of_ne hne _ _
    · by_cases ha : a = q
      · subst ha
        simp [hy, RecNode.fields]
      · simp [ha]

/-- The walk has not written the target of a consumer it has not reached. -/
theorem StopWalk.At.stops (h : w.At b kept gone rest) (hx : w.b.consumer r = some x) :
    b.stops target r = stopMatches target x.target := by
  have hf := h.fields r
  rw [hx] at hf
  cases hb : b.consumer r with
  | none => simp [hb] at hf
  | some y =>
    have ht : x.target = y.target := by
      rw [hb] at hf
      exact congrArg Prod.fst (Option.some.inj hf)
    simp [RecHeap.stops, hb, ht]

theorem nodup_next (h : (kept ++ gone ++ r :: rest).Nodup) :
    r ∉ kept ∧ r ∉ gone ∧ r ∉ rest ∧ (∀ a ∈ kept, a ∉ gone) ∧ ∀ a ∈ kept, a ∉ rest := by
  simp only [List.nodup_append, List.nodup_cons, List.mem_append, List.mem_cons] at h
  obtain ⟨⟨-, -, hkg⟩, ⟨hrest, -⟩, hall⟩ := h
  refine ⟨fun hr => hall r (.inl hr) r (.inl rfl) rfl, fun hr => hall r (.inr hr) r (.inl rfl) rfl,
    hrest, fun a ha hg => hkg a ha a hg rfl, fun a ha hr => hall a (.inl ha) a (.inr hr) rfl⟩

/-- A pass that takes the consumer out puts it in front of those taken out before. -/
theorem StopWalk.At.pass_stop (h : w.At b kept gone (r :: rest)) (hr : b.stops target r = true) :
    ∃ w', w.pass target r = some w' ∧ w'.At b kept (r :: gone) rest := by
  obtain ⟨-, x, hx, hback⟩ := h.back
  rw [h.stops hx] at hr
  obtain ⟨hrk, hrg, hrr, hkg, hkr⟩ := nodup_next h.nodup
  obtain ⟨b₁, hb₁, hfront, hsame, hfields, hrec⟩ := h.unlink x.next
  have hr₁ : b₁.consumer r = some x := (hsame r hrk).trans hx
  refine ⟨_, by simp only [StopWalk.pass, hx, Option.bind_eq_bind, Option.bind_some, hr, if_true,
    hb₁, modify_of_some _ hr₁]; rfl, ?_⟩
  exact {
    front := hfront.update hrk _
    back := by
      apply Segment.update _ hrr
      apply Segment.congr hback
      exact fun a ha => hsame a fun hk => hkr a hk ha
    taken := by
      apply Chain.push _ hrg rfl
      apply Segment.congr h.taken
      exact fun a ha => hsame a fun hk => hkg a hk ha
    prev := h.prev
    nodup := by
      refine (List.Perm.nodup_iff ?_).mp h.nodup
      simp only [List.append_assoc, List.cons_append]
      exact (List.perm_middle).append_left kept
    fields := by
      intro a
      by_cases ha : a = r
      · subst ha
        have hf := h.fields a
        rw [hx] at hf
        cases hb : b.consumer a with
        | none => simp [hb] at hf
        | some y =>
          rw [hb] at hf
          simp only [Option.map_some, RecNode.fields, Option.some.injEq, Prod.mk.injEq] at hf
          simp [RecNode.fields, hf.1, hf.2.2]
      · simp only [Function.update_of_ne ha, hfields a, h.fields a, List.mem_cons, ha, false_or]
    others := by
      intro a ha
      simp only [List.mem_append, List.mem_cons, not_or] at ha
      obtain ⟨⟨hk, hne, hg⟩, hrest⟩ := ha
      refine (Function.update_of_ne hne _ _).trans ((hsame a hk).trans ?_)
      exact h.others a (by simp [hk, hg, hrest, hne])
    recording := hrec.trans h.recording
    st := rfl
    effects := by simp [h.effects] }

/-- A pass that keeps the consumer puts it behind those kept before. -/
theorem StopWalk.At.pass_keep (h : w.At b kept gone (r :: rest)) (hr : b.stops target r = false) :
    ∃ w', w.pass target r = some w' ∧ w'.At b (kept ++ [r]) gone rest := by
  obtain ⟨hcur, x, hx, hback⟩ := h.back
  rw [h.stops hx] at hr
  refine ⟨{ w with prev := some r, cur := x.next }, by simp [StopWalk.pass, hx, hr], ?_⟩
  exact {
    front := by
      apply h.front.append
      rw [hcur]
      exact segment_singleton hx
    back := hback
    taken := h.taken
    prev := by simp
    nodup := by
      refine (List.Perm.nodup_iff ?_).mp h.nodup
      simp only [List.append_assoc, List.cons_append, List.nil_append]
      exact (List.perm_middle).append_left kept
    fields := h.fields
    others := by
      intro a ha
      apply h.others a
      simp only [List.mem_append, List.mem_cons, List.not_mem_nil, or_false, not_or] at ha ⊢
      exact ⟨⟨ha.1.1.1, ha.1.2⟩, ha.1.1.2, ha.2⟩
    recording := h.recording
    st := h.st
    effects := h.effects }

/-- The walk ends, with the list split in two. -/
theorem StopWalk.At.walk (h : w.At b kept gone rest) (target : Option String)
    (hn : rest.length ≤ n) :
    ∃ w', stopWalk target n w = some w' ∧
      w'.At b (kept ++ rest.filter fun r => !b.stops target r)
        ((rest.filter (b.stops target)).reverse ++ gone) [] := by
  induction rest generalizing w kept gone n with
  | nil =>
    have hcur : w.cur = none := h.back
    refine ⟨w, ?_, by simpa using h⟩
    cases n <;> simp [stopWalk, hcur]
  | cons r rest ih =>
    have hcur : w.cur = some r := h.back.1
    cases n with
    | zero => simp at hn
    | succ n =>
      have hn' : rest.length ≤ n := by
        rw [List.length_cons] at hn
        omega
      rw [stopWalk, hcur]
      cases hr : b.stops target r with
      | false =>
        obtain ⟨w₁, hw₁, h₁⟩ := h.pass_keep hr
        obtain ⟨w', hw', h'⟩ := ih h₁ hn'
        refine ⟨w', by simpa [hw₁] using hw', ?_⟩
        simpa [List.filter_cons, hr] using h'
      | true =>
        obtain ⟨w₁, hw₁, h₁⟩ := h.pass_stop hr
        obtain ⟨w', hw', h'⟩ := ih h₁ hn'
        refine ⟨w', by simpa [hw₁] using hw', ?_⟩
        simpa [List.filter_cons, hr] using h'

theorem RecHeap.Lists.left_eq (hl : b.Lists l) (target : Option String) :
    b.left target l = l.filter fun r => !b.stops target r := by
  cases target with
  | none =>
    refine (List.filter_eq_nil_iff.mpr fun r hr => ?_).symm
    obtain ⟨x, hx⟩ := hl.chain.allocated hr
    simp [RecHeap.stops, hx, stopMatches]
  | some t =>
    by_cases ht : t = ""
    · simp only [RecHeap.left, ht, if_true]
      refine (List.filter_eq_nil_iff.mpr fun r hr => ?_).symm
      obtain ⟨x, hx⟩ := hl.chain.allocated hr
      simp [RecHeap.stops, hx, stopMatches]
    · simp only [RecHeap.left, ht, if_false]
      refine List.filter_congr fun r hr => ?_
      obtain ⟨x, hx⟩ := hl.chain.allocated hr
      simp [RecHeap.stops, hx, stopMatches, ht]

structure StopWalk.Ended (b : RecHeap) (target : Option String) (l : List ℕ) (w : StopWalk) :
    Prop where
  left : Chain RecNode.next w.b.consumer w.b.recording_head (b.left target l)
  taken : Chain RecNode.next w.b.consumer w.stopped (l.filter (b.stops target)).reverse
  fields : ∀ a, (w.b.consumer a).map RecNode.fields = (b.consumer a).map fun x =>
    (x.target, x.running && a ∉ l.filter (b.stops target), x.writer_thread)
  recording : w.b.recording = b.recording
  st : w.st = !(l.filter (b.stops target)).isEmpty
  effects : w.effects = (l.filter (b.stops target)).map .clearRunning
  others : ∀ a ∉ l, w.b.consumer a = b.consumer a

theorem RecHeap.Lists.walk (hl : b.Lists l) (target : Option String) (hn : l.length ≤ n) :
    ∃ w, stopWalk target n ⟨b, none, b.recording_head, none, false, []⟩ = some w ∧
      w.Ended b target l := by
  obtain ⟨w, hw, h⟩ := (StopWalk.At.init hl).walk target hn
  have hcur : w.cur = none := h.back
  refine ⟨w, hw, ?_, by simpa using h.taken, by simpa using h.fields, h.recording,
    by simpa using h.st, by simpa using h.effects, fun a ha => h.others a ?_⟩
  · have hfront := h.front
    rw [hcur, List.nil_append] at hfront
    rw [hl.left_eq]
    exact hfront
  · simp [ha]

theorem RecHeap.clearFlag_consumer : b.clearFlag.consumer = b.consumer := by
  rw [RecHeap.clearFlag]
  split_ifs <;> rfl

theorem RecHeap.clearFlag_recording :
    b.clearFlag.recording = (b.recording && b.recording_head.isSome) := by
  rw [RecHeap.clearFlag]
  split_ifs with h
  · simp [h]
  · simp [Option.isSome_iff_ne_none.mpr h]

theorem RecHeap.clearFlag_head : b.clearFlag.recording_head = b.recording_head := by
  rw [RecHeap.clearFlag]
  split_ifs <;> rfl

end ModBroadcast
