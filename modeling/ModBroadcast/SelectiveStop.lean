import ModBroadcast.StopWalk

namespace ModBroadcast

open SinglyLinked

def RecHeap.link (b : RecHeap) (r : ℕ) : Option RecHeap :=
  (b.modify r fun x => { x with next := b.recording_head }).map fun b =>
    { b with recording_head := some r }

def RecHeap.destroyPool (b : RecHeap) (r : ℕ) : RecHeap :=
  { b with consumer := Function.update b.consumer r none }

def joinStopped : ℕ → RecHeap → Option ℕ → List RecEffect → Option (RecHeap × List RecEffect)
  | _, b, none, effects => some (b, effects)
  | 0, _, some _, _ => none
  | n + 1, b, some r, effects => do
    let x ← b.consumer r
    let b ← b.modify r fun x => { x with next := none }
    let effects := if x.writer_thread then effects ++ [.join r] else effects
    joinStopped n (b.destroyPool r) x.next (effects ++ [.stopEvent, .destroyPool r])

/-- `broadcast_record_stop`: the heap afterwards, what was done in which order, and whether the
call returns `SWITCH_STATUS_SUCCESS`. -/
def broadcastRecordStop (n : ℕ) (b : RecHeap) (target : Option String) :
    Option (RecHeap × List RecEffect × Bool) := do
  let w ← stopWalk target n ⟨b, none, b.recording_head, none, false, []⟩
  let (b, effects) ← joinStopped n w.b.clearFlag w.stopped w.effects
  some (b, effects, w.st)

variable {b b' : RecHeap} {target : Option String} {w : StopWalk} {r n : ℕ} {x : RecNode}
  {l gone : List ℕ}

theorem RecHeap.Lists.link (hl : b.Lists l) (hr : b.consumer r = some x) (hn : r ∉ l) :
    ∃ b', b.link r = some b' ∧ b'.Lists (r :: l) := by
  refine ⟨_, by rw [RecHeap.link, modify_of_some _ hr]; rfl, ?_,
    List.nodup_cons.mpr ⟨hn, hl.nodup⟩⟩
  exact hl.chain.push hn rfl

def RecHeap.farewell (b : RecHeap) (r : ℕ) : List RecEffect :=
  (if (b.consumer r).any RecNode.writer_thread then [.join r] else []) ++
    [.stopEvent, .destroyPool r]

def RecHeap.without (b : RecHeap) (gone : List ℕ) : RecHeap :=
  { b with consumer := fun a => if a ∈ gone then none else b.consumer a }

theorem joinStopped_spec {p : Option ℕ} {effects : List RecEffect}
    (hc : Chain RecNode.next b.consumer p gone) (hd : gone.Nodup) (hn : gone.length ≤ n) :
    joinStopped n b p effects =
      some (b.without gone, effects ++ gone.flatMap b.farewell) := by
  induction gone generalizing b p n effects with
  | nil =>
    obtain rfl : p = none := hc
    simp [joinStopped, RecHeap.without]
  | cons r gone ih =>
    obtain ⟨rfl, x, hx, hrest⟩ := hc
    obtain ⟨hr, hd⟩ := List.nodup_cons.mp hd
    cases n with
    | zero => simp at hn
    | succ n =>
      have hn' : gone.length ≤ n := by
        rw [List.length_cons] at hn
        omega
      rw [joinStopped, hx]
      simp only [Option.bind_eq_bind, Option.bind_some, modify_of_some _ hx,
        RecHeap.destroyPool, Function.update_idem]
      have hrest' : Chain RecNode.next (Function.update b.consumer r none) x.next gone :=
        hrest.update hr none
      rw [ih (b := { b with consumer := Function.update b.consumer r none }) hrest' hd hn']
      have hfar : ∀ a ∈ gone, ({ b with consumer := Function.update b.consumer r none } :
          RecHeap).farewell a = b.farewell a := by
        intro a ha
        have hne : a ≠ r := fun he => hr (he ▸ ha)
        simp [RecHeap.farewell, hne]
      congr 2
      · simp only [RecHeap.without, RecHeap.mk.injEq, true_and]
        funext a
        by_cases ha : a = r
        · subst ha
          simp
        · simp [ha]
      · rw [List.flatMap_cons, List.flatMap_congr hfar]
        cases ht : x.writer_thread <;> simp [RecHeap.farewell, hx, ht]

theorem filter_flatMap {α β : Type*} [DecidableEq α] {f : α → List β} {p : β → Bool} {a : α}
    {s : List α} (hs : s.Nodup) (hf : ∀ b, b ≠ a → (f b).filter p = []) :
    (s.flatMap f).filter p = if a ∈ s then (f a).filter p else [] := by
  induction s with
  | nil => rfl
  | cons b s ih =>
    obtain ⟨hb, hs⟩ := List.nodup_cons.mp hs
    rw [List.flatMap_cons, List.filter_append, ih hs]
    by_cases he : b = a
    · subst he
      simp [hb]
    · simp [hf b he, List.mem_cons, Ne.symm he]

def RecEffect.about (r : ℕ) : RecEffect → Bool
  | .clearRunning a | .join a | .destroyPool a => a = r
  | .stopEvent => false

theorem clearRunning_about (hl : l.Nodup) :
    (l.map RecEffect.clearRunning).filter (RecEffect.about r) =
      if r ∈ l then [.clearRunning r] else [] := by
  rw [List.map_eq_flatMap, filter_flatMap hl (a := r)]
  · simp [RecEffect.about]
  · intro a ha
    simp [RecEffect.about, ha]

theorem farewell_about (hl : l.Nodup) :
    (l.flatMap b.farewell).filter (RecEffect.about r) =
      if r ∈ l then
        (if (b.consumer r).any RecNode.writer_thread then [.join r] else []) ++ [.destroyPool r]
      else [] := by
  rw [filter_flatMap hl (a := r)]
  · rw [RecHeap.farewell]
    split_ifs <;> simp [RecEffect.about]
  · intro a ha
    rw [RecHeap.farewell]
    split_ifs <;> simp [RecEffect.about, ha]

theorem RecHeap.Lists.mem_left (hl : b.Lists l) (hr : r ∈ l) :
    r ∉ b.left target l ↔ b.stops target r = true := by
  rw [hl.left_eq, List.mem_filter]
  simp [hr]

theorem StopWalk.Ended.joined (h : w.Ended b target l) (hl : b.Lists l) (hn : l.length ≤ n) :
    joinStopped n w.b.clearFlag w.stopped w.effects =
      some (w.b.clearFlag.without (l.filter (b.stops target)).reverse,
        (l.filter (b.stops target)).map .clearRunning ++
          (l.filter (b.stops target)).reverse.flatMap w.b.clearFlag.farewell) := by
  have hd : (l.filter (b.stops target)).reverse.Nodup :=
    List.nodup_reverse.mpr (hl.nodup.filter _)
  have hlen : (l.filter (b.stops target)).reverse.length ≤ n := by
    rw [List.length_reverse]
    exact Nat.le_trans (List.length_filter_le _ _) hn
  have hc : Chain RecNode.next w.b.clearFlag.consumer w.stopped
      (l.filter (b.stops target)).reverse := by
    rw [RecHeap.clearFlag_consumer]
    exact h.taken
  rw [joinStopped_spec hc hd hlen, h.effects]

theorem StopWalk.Ended.thread (h : w.Ended b target l) (r : ℕ) :
    (w.b.clearFlag.consumer r).any RecNode.writer_thread =
      (b.consumer r).any RecNode.writer_thread := by
  have hf := h.fields r
  rw [RecHeap.clearFlag_consumer]
  cases hw : w.b.consumer r <;> cases hb : b.consumer r <;> simp [hw, hb, RecNode.fields] at hf ⊢
  rw [hf.2.2]

theorem RecHeap.Lists.mem_taken (hl : b.Lists l) (r : ℕ) :
    r ∈ l.filter (b.stops target) ↔ r ∈ l ∧ r ∉ b.left target l := by
  rw [List.mem_filter]
  exact and_congr_right fun hr => (hl.mem_left hr).symm

theorem StopWalk.Ended.about (h : w.Ended b target l) (hl : b.Lists l) (r : ℕ) :
    ((l.filter (b.stops target)).map RecEffect.clearRunning ++
      (l.filter (b.stops target)).reverse.flatMap w.b.clearFlag.farewell).filter
        (RecEffect.about r) =
      if r ∈ l.filter (b.stops target) then
        [.clearRunning r] ++ (if (b.consumer r).any RecNode.writer_thread then [.join r] else []) ++
          [.destroyPool r]
      else [] := by
  have hd := hl.nodup.filter (b.stops target)
  rw [List.filter_append, clearRunning_about hd, farewell_about (List.nodup_reverse.mpr hd),
    h.thread]
  simp only [List.mem_reverse]
  split_ifs <;> simp

/-- The consumers that are left are still allocated when the others are freed. -/
theorem StopWalk.Ended.lists (h : w.Ended b target l) (hl : b.Lists l) :
    (w.b.clearFlag.without (l.filter (b.stops target)).reverse).Lists (b.left target l) := by
  constructor
  · have hc : Chain RecNode.next w.b.clearFlag.consumer w.b.clearFlag.recording_head
        (b.left target l) := by
      rw [RecHeap.clearFlag_consumer, RecHeap.clearFlag_head]
      exact h.left
    refine Segment.congr hc fun r hr => ?_
    have hnot : r ∉ l.filter (b.stops target) := fun ht => ((hl.mem_taken r).mp ht).2 hr
    simp only [RecHeap.without, List.mem_reverse, hnot, if_false]
  · rw [hl.left_eq]
    exact hl.nodup.filter _

theorem StopWalk.Ended.success (h : w.Ended b target l) (hl : b.Lists l) :
    w.st = true ↔ ∃ r ∈ l, r ∉ b.left target l := by
  rw [h.st]
  constructor
  · intro hst
    obtain ⟨r, hr⟩ := List.exists_mem_of_ne_nil (l.filter (b.stops target)) (by simpa using hst)
    exact ⟨r, (hl.mem_taken r).mp hr⟩
  · rintro ⟨r, hr⟩
    have hne : l.filter (b.stops target) ≠ [] := List.ne_nil_of_mem ((hl.mem_taken r).mpr hr)
    simpa using hne

/-- `broadcast_record_stop` leaves the consumers whose target differs from a non-empty target, in
their order.  Each of the others has `running` cleared, is joined if it has a writer thread, and
freed, once and in this order; the call succeeds exactly when there is one. -/
theorem selective_stop (hl : b.Lists l) (target : Option String) (hn : l.length ≤ n) :
    ∃ b' effects st, broadcastRecordStop n b target = some (b', effects, st) ∧
      b'.Lists (b.left target l) ∧
      (∀ r ∈ b.left target l,
        (b'.consumer r).map RecNode.fields = (b.consumer r).map RecNode.fields) ∧
      (∀ r ∈ l, r ∉ b.left target l → b'.consumer r = none ∧
        effects.filter (RecEffect.about r) = [.clearRunning r] ++
          (if (b.consumer r).any RecNode.writer_thread then [.join r] else []) ++
          [.destroyPool r]) ∧
      (∀ r, r ∉ l ∨ r ∈ b.left target l → effects.filter (RecEffect.about r) = []) ∧
      (st = true ↔ ∃ r ∈ l, r ∉ b.left target l) := by
  obtain ⟨w, hw, h⟩ := hl.walk target hn
  have hcall : broadcastRecordStop n b target =
      some (w.b.clearFlag.without (l.filter (b.stops target)).reverse,
        (l.filter (b.stops target)).map .clearRunning ++
          (l.filter (b.stops target)).reverse.flatMap w.b.clearFlag.farewell, w.st) := by
    rw [broadcastRecordStop, hw, Option.bind_eq_bind, Option.bind_some, h.joined hl hn]
    rfl
  refine ⟨_, _, w.st, hcall, h.lists hl, fun r hr => ?_, fun r hr hleft => ⟨?_, ?_⟩,
    fun r hr => ?_, h.success hl⟩
  · have hnot : r ∉ l.filter (b.stops target) := fun ht => ((hl.mem_taken r).mp ht).2 hr
    simp only [RecHeap.without, List.mem_reverse, hnot, if_false, RecHeap.clearFlag_consumer,
      h.fields r, not_false_eq_true, decide_true, Bool.and_true]
    rfl
  · have ht := (hl.mem_taken r).mpr ⟨hr, hleft⟩
    simp only [RecHeap.without, List.mem_reverse, ht, if_true]
  · rw [h.about hl, if_pos ((hl.mem_taken r).mpr ⟨hr, hleft⟩)]
  · rw [h.about hl, if_neg]
    rw [hl.mem_taken]
    rintro ⟨hr', hleft⟩
    exact hr.elim (fun hnot => hnot hr') hleft

/-- Three recordings, of which the first and the last are stopped. -/
theorem selective_stop_both_ends :
    let node (target : String) (next : Option ℕ) : RecNode := ⟨target, true, true, next⟩
    let b : RecHeap := ⟨some 3, true, fun r =>
      if r = 3 then some (node "/tmp/a.wav" (some 2))
      else if r = 2 then some (node "/tmp/b.wav" (some 1))
      else if r = 1 then some (node "/tmp/a.wav" none)
      else none⟩
    ∃ b' effects, broadcastRecordStop 3 b (some "/tmp/a.wav") = some (b', effects, true) ∧
      b'.Lists [2] := by
  intro node b
  have hl : b.Lists [3, 2, 1] :=
    ⟨⟨rfl, _, rfl, rfl, _, rfl, rfl, _, rfl, rfl⟩, by decide⟩
  have hleft : b.left (some "/tmp/a.wav") [3, 2, 1] = [2] := by decide
  obtain ⟨b', effects, st, hcall, hlists, -, -, -, hst⟩ :=
    selective_stop hl (some "/tmp/a.wav") (n := 3) (by decide)
  rw [hleft] at hlists hst
  have htrue : st = true := hst.mpr ⟨3, by decide, by decide⟩
  subst htrue
  exact ⟨b', effects, hcall, hlists⟩

/-- A consumer that `broadcast_record_start` has linked and given no writer thread yet is taken
out and freed without a join. -/
theorem stopped_without_join : ¬ ∀ (b b' : RecHeap) (l : List ℕ) (target : Option String) (n r : ℕ)
    (effects : List RecEffect) (st : Bool), b.Lists l → r ∈ l → r ∉ b.left target l →
    broadcastRecordStop n b target = some (b', effects, st) → effects.count (.join r) = 1 := by
  intro hall
  let b : RecHeap := ⟨none, false, fun r => if r = 0 then some ⟨"/tmp/a.wav", true, false, none⟩
    else none⟩
  have hempty : b.Lists [] := ⟨rfl, List.nodup_nil⟩
  obtain ⟨b₁, h₁, hl⟩ := hempty.link (r := 0) rfl List.not_mem_nil
  obtain rfl : _ = b₁ := Option.some.inj h₁
  have hcount := hall _ _ [0] none 1 0 _ _ hl (by decide) (by decide) rfl
  revert hcount
  decide

end ModBroadcast
