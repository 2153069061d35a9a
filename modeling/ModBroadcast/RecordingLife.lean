import ModBroadcast.Automaton
import ModBroadcast.Custody
import ModBroadcast.RecordingChains

namespace ModBroadcast

open Automaton Custody

variable {p : RoomProfile} {b b' : Broadcast} {c : Choice} {r u : ℕ}

/-- Any number of threads in the two functions.  `missed` is a history variable: the consumers
whose `writer_thread` a stop has found NULL. -/
structure Recorder where
  b : Broadcast
  call : ℕ → RecordCall
  missed : List ℕ

def Recorder.init : Recorder := ⟨.create, fun _ => .idle, []⟩

inductive RecorderAction
  | start (u : ℕ) (target : String)
  | stop (u : ℕ) (target : Option String)
  | step (u : ℕ) (c : Choice)
  | writer (r : ℕ) (c : Choice)

def RecordCall.misses (b : Broadcast) : RecordCall → Option ℕ
  | .stop _ (.test _ r _) => if (b.consumer r).writer_thread then none else some r
  | _ => none

def recorderStep (p : RoomProfile) (s : Recorder) : RecorderAction → Option Recorder
  | .start u target =>
    if s.call u = .idle then
      some { s with call := Function.update s.call u (.start target .start) }
    else none
  | .stop u target =>
    if s.call u = .idle then
      some { s with call := Function.update s.call u (.stop target .unlink) }
    else none
  | .step u c =>
    (recordCall p s.b c (s.call u)).map fun x =>
      ⟨x.1, Function.update s.call u x.2, ((s.call u).misses s.b).toList ++ s.missed⟩
  | .writer r c => (recordWriter p s.b r c).map fun b => { s with b }

variable {s t : Recorder} {a : RecorderAction} {x y : RecordCall}
  {h : List (Recorder × RecorderAction)}

/-- What the next step of a call does to the consumer `r`: it is put on the list, taken
off it, or its pool is destroyed. -/
def RecordCall.event (b : Broadcast) (r : ℕ) : RecordCall → Option Event
  | .start _ (.link n) => if n = r then some .put else none
  | .start _ (.rollback n) =>
    if r ∈ b.recordings ∧ r ∉ b.chain (b.consumer n).next then some .take else none
  | .start _ (.discard n) => if n = r then some .drop else none
  | .stop target .unlink =>
    if r ∈ b.recordings ∧ recordMatches b target r then some .take else none
  | .stop _ (.free _ n _) => if n = r then some .drop else none
  | _ => none

def Recorder.event (s : Recorder) (r : ℕ) : RecorderAction → Option Event
  | .step u _ => (s.call u).event s.b r
  | _ => none

def consumerFate (r : ℕ) : List (Recorder × RecorderAction) → Fate
  | [] => ⟨0, 0, 0⟩
  | (s, a) :: h => (consumerFate r h).add (s.event r a)

def RecordCall.holds (b : Broadcast) : RecordCall → List ℕ
  | .start _ (.discard r) => [r]
  | x => x.hand b

def Recorder.store (s : Recorder) : Store ℕ ℕ := ⟨s.b.recordings, fun u => (s.call u).holds s.b⟩

inductive RecorderMove (p : RoomProfile) (s t : Recorder) (a : RecorderAction) : Prop
  | call (u : ℕ) (c : Choice) (y : RecordCall) (hy : t.call = Function.update s.call u y)
      (h : s.b.heap.Lists s.b.recordings → CallStep s.b t.b c (s.call u) y)
      (hm : t.missed = ((s.call u).misses s.b).toList ++ s.missed)
      (he : ∀ r, s.event r a = (s.call u).event s.b r) (ha : a = .step u c ∨ s.call u = .idle)
  | writer (hy : t.call = s.call) (hm : t.missed = s.missed) (he : ∀ r, s.event r a = none)
      (hb : (∃ r, WriterStep s.b t.b r) ∨ t.b = s.b)

theorem recorderStep_move (hs : recorderStep p s a = some t) : RecorderMove p s t a := by
  cases a with
  | start u target =>
    simp only [recorderStep] at hs
    split_ifs at hs with hidle
    obtain rfl := Option.some.inj hs
    refine .call u .ok _ rfl ?_ ?_ (fun r => ?_) (.inr hidle) <;> rw [hidle]
    · exact fun _ => .quiet rfl trivial id trivial
    · rfl
    · rfl
  | stop u target =>
    simp only [recorderStep] at hs
    split_ifs at hs with hidle
    obtain rfl := Option.some.inj hs
    refine .call u .ok _ rfl ?_ ?_ (fun r => ?_) (.inr hidle) <;> rw [hidle]
    · exact fun _ => .quiet rfl trivial id trivial
    · rfl
    · rfl
  | step u c =>
    obtain ⟨⟨b, y⟩, hy, rfl⟩ := Option.map_eq_some_iff.mp hs
    exact .call u c y rfl (fun hl => recordCall_step hl hy) rfl (fun _ => rfl) (.inl rfl)
  | writer r c =>
    obtain ⟨b, hb, rfl⟩ := Option.map_eq_some_iff.mp hs
    exact .writer rfl rfl (fun _ => rfl) ((recordWriter_step hb).imp_left fun h => ⟨r, h⟩)

theorem holds_of_made (h : y.made = none) : y.holds b = y.hand b := by
  cases y with
  | start target k => cases k <;> first | rfl | cases h
  | _ => rfl

section Store

variable {call : ℕ → RecordCall} {f : ℕ → Fate}

theorem Tidy.rolled_back_filter (hi : Tidy b call) (hh : b.recordings.head? = some r) :
    b.chain (b.consumer r).next = b.recordings.filter (· ≠ r) := by
  obtain ⟨hrec, hr⟩ := hi.rolled_back hh
  have hl : (b.chain (b.consumer r).next).filter (· ≠ r) = b.chain (b.consumer r).next :=
    List.filter_eq_self.mpr fun i hi => by
      have hne : i ≠ r := fun he => hr (he ▸ hi)
      simpa using hne
  rw [hrec, List.filter_cons_of_neg (by simp), hl]

theorem Tidy.holds_update (hi : Tidy b call) (h : CallStep b b' c (call u) y) :
    (fun v => (Function.update call u y v).holds b') =
      Function.update (fun v => (call v).holds b) u (y.holds b') := by
  funext v
  by_cases hv : v = u
  · rw [hv, Function.update_self, Function.update_self]
  · rw [Function.update_of_ne hv, Function.update_of_ne hv]
    have hhand := hi.hand_kept h hv
    generalize call v = x at hhand ⊢
    cases x with
    | start target k => cases k <;> first | exact hhand | rfl
    | _ => exact hhand

/-- A start takes the consumer that it has linked off the list again. -/
theorem Tidy.store_rollback {target : String} (hi : Tidy b call)
    (hs : Store.Sound ⟨b.recordings, fun v => (call v).holds b⟩ f)
    (hx : call u = .start target (.rollback r)) (hhead : b.recordings.head? = some r) :
    Store.Sound ⟨(call u).listed b, Function.update (fun v => (call v).holds b) u [r]⟩
      fun i => (f i).add ((call u).event b i) := by
  have hmem : r ∈ b.recordings := List.mem_of_head? hhead
  have hnext := hi.rolled_back_filter hhead
  rw [hx, show (RecordCall.start target (.rollback r)).listed b = b.recordings.filter (· ≠ r) from
    hnext]
  refine hs.take ?_ (List.nodup_singleton r) (fun i => ?_) (fun i hm => ?_) fun i hm => ?_
  · dsimp only
    rw [hx]
    exact hand_of_stopped rfl rfl
  · simp only [List.mem_singleton]
    constructor
    · rintro rfl
      exact ⟨hmem, by simp⟩
    · rintro ⟨-, hk⟩
      simpa using hk
  · obtain rfl := List.mem_singleton.mp hm
    simp [RecordCall.event, hnext, hmem, hs.shelved i hmem, Fate.add]
  · have hne : i ≠ r := fun he => hm (List.mem_singleton.mpr he)
    simp [RecordCall.event, hnext, hne, Fate.add]

/-- A stop takes the consumers that match off the list. -/
theorem Tidy.store_unlink {target : Option String} (hi : Tidy b call)
    (hs : Store.Sound ⟨b.recordings, fun v => (call v).holds b⟩ f)
    (hx : call u = .stop target .unlink) :
    Store.Sound ⟨(call u).listed b, Function.update (fun v => (call v).holds b) u
      (b.recordings.filter (recordMatches b target)).reverse⟩
      fun i => (f i).add ((call u).event b i) := by
  rw [hx]
  refine hs.take ?_ (List.nodup_reverse.mpr (hi.lists.nodup.filter _)) (fun i => ?_)
    (fun i hm => ?_) fun i hm => ?_
  · dsimp only
    rw [hx]
    exact hand_of_stopped rfl rfl
  · simp
  · obtain ⟨hmem, hmatch⟩ := List.mem_filter.mp (List.mem_reverse.mp hm)
    simp [RecordCall.event, hmem, hmatch, hs.shelved i hmem, Fate.add]
  · have hno : ¬ (i ∈ b.recordings ∧ recordMatches b target i = true) := fun hi =>
      hm (List.mem_reverse.mpr (List.mem_filter.mpr hi))
    simp [RecordCall.event, hno, Fate.add]

/-- A call destroys the first of the consumers that it holds. -/
theorem store_drop {q : List ℕ} (hs : Store.Sound ⟨b.recordings, fun v => (call v).holds b⟩ f)
    (hx : call u = x) (hu : x.holds b = r :: q)
    (he : ∀ i, x.event b i = if r = i then some .drop else none) :
    Store.Sound ⟨b.recordings, Function.update (fun v => (call v).holds b) u q⟩
      fun i => (f i).add (x.event b i) := by
  have hheld : f r = ⟨1, 1, 0⟩ := hs.held u r (by
    show r ∈ (call u).holds b
    rw [hx, hu]
    exact List.mem_cons_self)
  refine hs.drop (by dsimp only; rw [hx, hu]) ?_ fun j hj => ?_
  · simp [he, hheld, Fate.add]
  · simp [he, hj.symm, Fate.add]

theorem Tidy.store_step (hi : Tidy b call) (h : CallStep b b' c (call u) y)
    (hs : Store.Sound ⟨b.recordings, fun v => (call v).holds b⟩ f)
    (hl : ∀ target r, call u = .start target (.link r) → f r = ⟨0, 0, 0⟩)
    (hr : ∀ target r, call u = .start target (.rollback r) → b.recordings.head? = some r) :
    Store.Sound ⟨b'.recordings, fun v => (Function.update call u y v).holds b'⟩
      fun r => (f r).add ((call u).event b r) := by
  have hrec := hi.recordings_eq h fun target r hx => .inl (List.mem_of_head? (hr target r hx))
  have hhand := (hi.hand_step h).2
  rw [hi.holds_update h, hrec]
  have hu : (fun v => (call v).holds b) u = (call u).holds b := rfl
  -- a step that moves nothing
  have still : (∀ r, (call u).event b r = none) → (call u).listed b = b.recordings →
      y.holds b' = (call u).holds b → Store.Sound ⟨(call u).listed b,
        Function.update (fun v => (call v).holds b) u (y.holds b')⟩
        fun r => (f r).add ((call u).event b r) := by
    intro he hlist hh
    simp only [hlist, hh, he]
    rw [Function.update_eq_self_iff.mpr hu.symm]
    exact hs
  generalize hx : call u = x at h hr hl hhand hu still
  cases h with
  | quiet hb hf hw hy =>
    have hx' : x.holds b = [] := by
      rw [holds_of_made hf.none.2.2, hand_of_free hf]
    have hy' : y.holds b' = [] := by
      rw [holds_of_made hy.none.2.2, hand_of_free hy]
    cases x with
    | idle => exact still (fun _ => rfl) rfl (hy'.trans hx'.symm)
    | start target k =>
      cases k <;> first | exact still (fun _ => rfl) rfl (hy'.trans hx'.symm) | exact hf.elim
    | stop target k =>
      cases k with
      | unlink => exact (hw trivial).elim
      | next => exact still (fun _ => rfl) rfl (hy'.trans hx'.symm)
      | _ => exact hf.elim
  | make | fail | create => exact still (fun _ => rfl) rfl hhand
  | pop | wait | miss | joined | report => exact still (fun _ => rfl) rfl hhand
  | @link target r =>
    have hy : (RecordCall.start target (.create r)).holds b' = [] := hand_of_stopped rfl rfl
    have hx' : (RecordCall.start target (.link r)).holds b = [] := hand_of_stopped rfl rfl
    rw [hy, Function.update_eq_self_iff.mpr (hu.trans hx').symm]
    refine hs.put (hl target r rfl) ?_ fun j hj => ?_
    · simp [RecordCall.event, hl target r rfl, Fate.add]
    · simp [RecordCall.event, hj.symm, Fate.add]
  | @rollback target r => exact hx ▸ hi.store_rollback hs hx (hr target r rfl)
  | @discard target r =>
    have hy : RecordCall.idle.holds b' = [] := hand_of_stopped rfl rfl
    rw [hy]
    exact store_drop hs hx rfl fun _ => rfl
  | @unlink target st q hw =>
    rw [show (RecordCall.stop target (.next st q)).holds b' =
      (b.recordings.filter (recordMatches b target)).reverse from hhand]
    exact hx ▸ hi.store_unlink hs hx
  | @free target st r q =>
    rw [show (RecordCall.stop target (.next st q)).holds b' = b.chain q from hhand]
    exact store_drop hs hx rfl fun _ => rfl

end Store

/-- The consumer's thread is created while no stop has found `writer_thread` NULL, and a rollback
finds the consumer at the head of the list. -/
def RecordCall.Undisturbed (s : Recorder) (c : Choice) : RecordCall → Prop
  | .start _ (.create r) => c = .fail ∨ r ∉ s.missed
  | .start _ (.rollback r) => s.b.recordings.head? = some r
  | _ => True

def ConsumerUndisturbed (s : Recorder) : RecorderAction → Prop
  | .step u c => (s.call u).Undisturbed s c
  | _ => True

instance RecordCall.Undisturbed.decidable : DecidablePred (RecordCall.Undisturbed s c)
  | .start _ (.create _) => inferInstanceAs (Decidable (_ ∨ _))
  | .start _ (.rollback _) => inferInstanceAs (Decidable (_ = _))
  | .start _ .start | .start _ (.link _) | .start _ (.discard _) | .start _ .flag
  | .start _ .announce | .stop _ _ | .idle => .isTrue trivial

instance ConsumerUndisturbed.decidable (s : Recorder) : DecidablePred (ConsumerUndisturbed s)
  | .step u c => inferInstanceAs (Decidable ((s.call u).Undisturbed s c))
  | .start _ _ | .stop _ _ | .writer _ _ => .isTrue trivial

def RecordCall.past : RecordCall → Option ℕ
  | .stop _ (.report _ r _) | .stop _ (.free _ r _) => some r
  | _ => none

def Recorder.Gone (s : Recorder) (h : List (Recorder × RecorderAction)) (r : ℕ) : Prop :=
  0 < (consumerFate r h).dropped ∨ ∃ u, (s.call u).past = some r

/-- The counts of every consumer are those of its place; a consumer that is gone has no writer,
and gets none as long as the threads are created in time. -/
structure Recorder.Sound (h : List (Recorder × RecorderAction)) (s : Recorder) : Prop where
  tidy : Tidy s.b s.call
  store : s.store.Sound fun r => consumerFate r h
  unmade : ∀ r, s.b.next_recording ≤ r → consumerFate r h = ⟨0, 0, 0⟩
  linking : ∀ u target r, s.call u = .start target (.link r) → consumerFate r h = ⟨0, 0, 0⟩
  gone : ∀ r, s.Gone h r →
    ¬ (s.b.consumer r).writer.Alive ∧ ∀ u, (s.call u).made = some r → r ∈ s.missed
  told : ∀ u, ∀ r ∈ (s.call u).hand s.b, (s.b.consumer r).running = false

theorem Recorder.Sound.init : Recorder.Sound [] Recorder.init where
  tidy := Tidy.of_free rfl (fun _ => rfl) fun _ => trivial
  store := Store.Sound.init _ fun _ => rfl
  unmade _ _ := rfl
  linking _ _ _ hc := by cases hc
  gone r hr := by
    rcases hr with hd | ⟨u, hu⟩
    · exact absurd hd (Nat.lt_irrefl 0)
    · cases hu
  told _ _ hr := by cases hr

theorem RecordCall.event_none {f : ℕ → Fate} {hand : ℕ → List ℕ}
    (hi : Store.Sound ⟨b.recordings, hand⟩ f) (hu : hand u = x.holds b) (hf : f r = ⟨0, 0, 0⟩)
    (hm : x.made ≠ some r) : x.event b r = none := by
  have hlist : r ∉ b.recordings := fun hr => by
    have := hi.shelved r hr
    simp [hf] at this
  have hhand : r ∉ x.holds b := fun hr => by
    have := hi.held u r (by rwa [← hu] at hr)
    simp [hf] at this
  cases x with
  | idle => rfl
  | start target k =>
    cases k with
    | link n | discard n =>
      have hne : n ≠ r := by simpa [RecordCall.made] using hm
      simp [RecordCall.event, hne]
    | rollback n => simp [RecordCall.event, hlist]
    | _ => rfl
  | stop target k =>
    cases k with
    | unlink => simp [RecordCall.event, hlist]
    | free st n q =>
      have hne : n ≠ r := by
        rintro rfl
        exact hhand List.mem_cons_self
      simp [RecordCall.event, hne]
    | _ => rfl

/-- A pool is destroyed by the start that has made the consumer or by the stop that is past it. -/
theorem RecordCall.event_drop (he : x.event b r = some .drop) :
    (∃ target, x = .start target (.discard r)) ∨ x.past = some r := by
  cases x with
  | idle => cases he
  | start target k =>
    cases k with
    | discard n =>
      simp only [RecordCall.event] at he
      split_ifs at he with hn
      exact .inl ⟨target, by rw [hn]⟩
    | link | rollback =>
      simp only [RecordCall.event] at he
      split_ifs at he
      cases he
    | _ => cases he
  | stop target k =>
    cases k with
    | free st n q =>
      simp only [RecordCall.event] at he
      split_ifs at he with hn
      exact .inr (congrArg some hn)
    | unlink =>
      simp only [RecordCall.event] at he
      split_ifs at he
      cases he
    | _ => cases he

theorem dropped_add {n : Fate} {e : Option Event} (h : 0 < (n.add e).dropped) :
    0 < n.dropped ∨ e = some .drop := by
  cases e with
  | none => exact .inl h
  | some e =>
    cases e with
    | put | take => exact .inl h
    | drop => exact .inr rfl

theorem mem_hand_of_past (h : x.past = some r) : r ∈ x.hand b := by
  cases x with
  | stop target k =>
    cases k with
    | report | free =>
      obtain rfl := Option.some.inj h
      exact List.mem_cons_self
    | _ => cases h
  | _ => cases h

/-- How a stop comes to be past a consumer. -/
theorem CallStep.past (h : CallStep b b' c x y) (hy : y.past = some r) : x.past = some r ∨
    b' = b ∧ (x.misses b = some r ∧ (b.consumer r).writer_thread = false ∨
      (b.consumer r).writer = .ended) := by
  cases h with
  | quiet hb hx hu hy' =>
    have hmem := mem_hand_of_past (b := b) hy
    rw [hand_of_free hy'] at hmem
    cases hmem
  | miss hw hb =>
    obtain rfl := Option.some.inj hy
    exact .inr ⟨hb, .inl ⟨by simp [RecordCall.misses, hw], hw⟩⟩
  | joined hw hb =>
    obtain rfl := Option.some.inj hy
    exact .inr ⟨hb, .inr hw⟩
  | report => exact .inl hy
  | _ => cases hy

/-- A consumer with a fate has been made. -/
theorem Recorder.Sound.known (hi : s.Sound h) (hf : consumerFate r h ≠ ⟨0, 0, 0⟩) :
    r < s.b.next_recording :=
  Nat.lt_of_not_le fun hle => hf (hi.unmade r hle)

theorem Recorder.Sound.known_of_gone (hi : s.Sound h) (hr : s.Gone h r) :
    r < s.b.next_recording := by
  rcases hr with hd | ⟨u, hu⟩
  · exact hi.known fun h0 => by simp [h0] at hd
  · exact hi.tidy.known u r (mem_hand_of_past hu)

section Call

variable (hi : s.Sound h) (hy : t.call = Function.update s.call u y)
  (hstep : CallStep s.b t.b c (s.call u) y)
  (hmiss : t.missed = ((s.call u).misses s.b).toList ++ s.missed)
  (hcreate : ∀ target r, s.call u = .start target (.create r) → c ≠ .fail → r ∉ s.missed)

include hy hstep

/-- A consumer that is gone after a step was so before, or the step has found out that it has no
writer. -/
theorem Recorder.gone_cases {h' : List (Recorder × RecorderAction)}
    (hfate : consumerFate r h' = (consumerFate r h).add ((s.call u).event s.b r))
    (hr : t.Gone h' r) : s.Gone h r ∨ (∃ target, s.call u = .start target (.discard r)) ∨
      t.b = s.b ∧ ((s.call u).misses s.b = some r ∧ (s.b.consumer r).writer_thread = false ∨
        (s.b.consumer r).writer = .ended) := by
  rcases hr with hd | ⟨v, hv⟩
  · rw [hfate] at hd
    rcases dropped_add hd with hd | hd
    · exact .inl (.inl hd)
    · rcases RecordCall.event_drop hd with hx | hx
      · exact .inr (.inl hx)
      · exact .inl (.inr ⟨u, hx⟩)
  · rw [hy] at hv
    by_cases hvu : v = u
    · subst hvu
      rw [Function.update_self] at hv
      rcases hstep.past hv with hx | hx
      · exact .inl (.inr ⟨v, hx⟩)
      · exact .inr (.inr hx)
    · rw [Function.update_of_ne hvu] at hv
      exact .inl (.inr ⟨v, hv⟩)

include hi hmiss hcreate

theorem Recorder.Sound.gone_step {h' : List (Recorder × RecorderAction)}
    (hfate : consumerFate r h' = (consumerFate r h).add ((s.call u).event s.b r))
    (hr : t.Gone h' r) :
    ¬ (t.b.consumer r).writer.Alive ∧ ∀ v, (t.call v).made = some r → r ∈ t.missed := by
  rcases Recorder.gone_cases hy hstep hfate hr with hg | ⟨target, hx⟩ | ⟨hb, hend⟩
  · obtain ⟨hdead, hmissed⟩ := hi.gone r hg
    have hlt := hi.known_of_gone hg
    have hkeep : r ∈ s.missed → r ∈ t.missed := fun hm => hmiss ▸ List.mem_append_right _ hm
    refine ⟨?_, fun v hv => hkeep ?_⟩
    · rcases hstep.writer r with ⟨hw, -⟩ | ⟨rfl, -⟩ | ⟨⟨target, hx⟩, hc, -⟩
      · rw [hw]
        exact hdead
      · exact absurd hlt (Nat.lt_irrefl _)
      · exact absurd (hmissed u (by rw [hx]; rfl)) (hcreate target r hx hc)
    · rw [hy] at hv
      rcases hstep.made_by hv with hv | ⟨-, rfl, -⟩
      · exact hmissed v hv
      · exact absurd hlt (Nat.lt_irrefl _)
  -- the start that gives the consumer up was the only one to create its writer
  · have hm : (s.call u).made = some r := by
      rw [hx]
      rfl
    obtain ⟨hlt, hw, -⟩ := hi.tidy.made u r hm
    refine ⟨fun ha => ?_, fun v hv => ?_⟩
    · rcases hstep.writer r with ⟨hw', -⟩ | ⟨rfl, -⟩ | ⟨⟨target', hx'⟩, -⟩
      · exact ha.1 (hw'.trans hw)
      · exact absurd hlt (Nat.lt_irrefl _)
      · cases hx.symm.trans hx'
    · rw [hy] at hv
      rcases hstep.made_by hv with hv' | ⟨-, rfl, -⟩
      · obtain rfl := hi.tidy.alone v u r hv' hm
        rw [Function.update_self] at hv
        rw [hx] at hstep
        cases hstep with
        | quiet hb hx' => exact hx'.elim
        | discard => cases hv
      · exact absurd hlt (Nat.lt_irrefl _)
  · rw [hb]
    rcases hend with ⟨hm, ht⟩ | hend
    · refine ⟨fun ha => ?_, fun _ _ => ?_⟩
      · rw [(hi.tidy.thread r ha).1] at ht
        cases ht
      · rw [hmiss, hm]
        exact List.mem_cons_self
    · refine ⟨fun ha => ha.2 hend, fun v hv => ?_⟩
      rw [hy] at hv
      rcases hstep.made_by hv with hv | ⟨-, -, hnext, -⟩
      · have habs := (hi.tidy.made v r hv).2.1
        rw [hend] at habs
        cases habs
      · rw [hb] at hnext
        exact absurd hnext (Nat.succ_ne_self _).symm

omit hmiss hcreate

/-- The consumers in the hands of the stops have been told to stop. -/
theorem Recorder.Sound.told_step {v : ℕ} (hr : r ∈ (t.call v).hand t.b) :
    (t.b.consumer r).running = false := by
  rw [hy] at hr
  rcases hi.tidy.hand_mem hstep hr with hr | ⟨rfl, target, hx, hm⟩
  · exact (hstep.keeps (hi.tidy.known v r hr)).2 (hi.told v r hr)
  · rw [hx] at hstep
    cases hstep with
    | quiet hb hf hw => exact (hw trivial).elim
    | unlink hw =>
      rw [hw.running r]
      simp [hm]

end Call

theorem Recorder.Sound.call_step (hi : s.Sound h) (hg : ConsumerUndisturbed s a)
    (hy : t.call = Function.update s.call u y) (hstep : CallStep s.b t.b c (s.call u) y)
    (hmiss : t.missed = ((s.call u).misses s.b).toList ++ s.missed)
    (he : ∀ r, s.event r a = (s.call u).event s.b r) (ha : a = .step u c ∨ s.call u = .idle) :
    t.Sound ((s, a) :: h) := by
  have hfate : ∀ r, consumerFate r ((s, a) :: h) =
      (consumerFate r h).add ((s.call u).event s.b r) := fun r => by rw [consumerFate, he]
  have hund : (s.call u).Undisturbed s c := by
    rcases ha with rfl | hidle
    · exact hg
    · rw [hidle]
      trivial
  have hcreate : ∀ target r, s.call u = .start target (.create r) → c ≠ .fail → r ∉ s.missed := by
    intro target r hx hc
    rw [hx] at hund
    exact hund.resolve_left hc
  have hrolls : ∀ target r, s.call u = .start target (.rollback r) →
      s.b.recordings.head? = some r := by
    intro target r hx
    rw [hx] at hund
    exact hund
  -- what is not on the list and in no hand is left alone by the others
  have hkeep : ∀ {r}, consumerFate r h = ⟨0, 0, 0⟩ → (s.call u).made ≠ some r →
      consumerFate r ((s, a) :: h) = ⟨0, 0, 0⟩ := by
    intro r hf hm
    rw [hfate, RecordCall.event_none hi.store rfl hf hm]
    exact hf
  exact {
    tidy := by
      rw [hy]
      exact hi.tidy.step hstep fun target r hx => .inl (List.mem_of_head? (hrolls target r hx))
    store := by
      simp only [Recorder.store, hy, hfate]
      exact hi.tidy.store_step hstep hi.store (hi.linking u) hrolls
    unmade := by
      intro r hr
      have hle := Nat.le_trans hstep.next_le hr
      exact hkeep (hi.unmade r hle) fun hm =>
        Nat.lt_irrefl _ (Nat.lt_of_lt_of_le (hi.tidy.made _ _ hm).1 hle)
    linking := by
      intro v target r hv
      rw [hy] at hv
      by_cases hvu : v = u
      · subst hvu
        rw [Function.update_self] at hv
        rw [hv] at hstep
        obtain ⟨rfl, hx⟩ := hstep.linking
        exact hkeep (hi.unmade _ (Nat.le_refl _)) (by simp [hx])
      · rw [Function.update_of_ne hvu] at hv
        refine hkeep (hi.linking v target r hv) fun hm => hvu (hi.tidy.alone v u r ?_ hm)
        rw [hv]
        rfl
    gone := fun r hr => hi.gone_step hy hstep hmiss hcreate (hfate r) hr
    told := fun v r hr => hi.told_step hy hstep hr }

theorem Recorder.Sound.step (hi : s.Sound h) (hg : ConsumerUndisturbed s a)
    (hs : recorderStep p s a = some t) : t.Sound ((s, a) :: h) := by
  cases recorderStep_move hs with
  | call u c y hy hstep hm he ha => exact hi.call_step hg hy (hstep hi.tidy.lists) hm he ha
  | writer hy hm he hb =>
    have hfate : ∀ n, consumerFate n ((s, a) :: h) = consumerFate n h := fun n => by
      rw [consumerFate, he]
      rfl
    have hgone : ∀ {r}, t.Gone ((s, a) :: h) r → s.Gone h r := fun hr => by
      rwa [Recorder.Gone, hfate, hy] at hr
    rcases hb with ⟨r, hw⟩ | hb
    · have hhand : ∀ x : RecordCall, x.hand t.b = x.hand s.b :=
        hand_of_next hw.next fun n => (hw.fields n).1
      have hholds : ∀ x : RecordCall, x.holds t.b = x.holds s.b := by
        intro x
        cases x with
        | start target k => cases k <;> first | rfl | exact hhand _
        | _ => exact hhand _
      refine ⟨?_, ?_, fun n hn => ?_, ?_, fun n hn => ⟨fun ha => ?_, ?_⟩, fun v n hn => ?_⟩
      · rw [hy]
        exact hi.tidy.writer hw
      · simp only [hfate, Recorder.store, hw.recordings, hy, hholds]
        exact hi.store
      · rw [hfate]
        exact hi.unmade n (hw.next ▸ hn)
      · simp only [hfate, hy]
        exact hi.linking
      · exact (hi.gone n (hgone hn)).1 (hw.alive_of ha)
      · rw [hy, hm]
        exact (hi.gone n (hgone hn)).2
      · rw [hy, hhand] at hn
        exact (hw.fields n).2.2.2 (hi.told v n hn)
    · refine ⟨?_, ?_, fun n hn => ?_, ?_, fun n hn => ?_, ?_⟩
      · rw [hy, hb]
        exact hi.tidy
      · simp only [hfate, Recorder.store, hy, hb]
        exact hi.store
      · rw [hfate]
        exact hi.unmade n (hb ▸ hn)
      · simp only [hfate, hy]
        exact hi.linking
      · rw [hy, hm, hb]
        exact hi.gone n (hgone hn)
      · rw [hy, hb]
        exact hi.told

/-- Every consumer put on the list is taken off it once and its pool destroyed once, with no
writer left; the writers of those that a call still has in hand have been told to stop. -/
structure Recorder.Lifetimes (h : List (Recorder × RecorderAction)) (s : Recorder) : Prop where
  inserted : ∀ r, (consumerFate r h).put ≤ 1
  removed : ∀ r, (consumerFate r h).put =
    (consumerFate r h).taken + if r ∈ s.b.recordings then 1 else 0
  destroyed : ∀ r, (consumerFate r h).dropped ≤ (consumerFate r h).taken
  settled : (∀ u, s.call u = .idle) → ∀ r,
    (consumerFate r h).dropped = (consumerFate r h).taken
  ended : ∀ r, 0 < (consumerFate r h).dropped → ¬ (s.b.consumer r).writer.Alive
  told : ∀ u, ∀ r ∈ (s.call u).hand s.b, (s.b.consumer r).running = false

theorem Recorder.Sound.lifetimes (hi : s.Sound h) : s.Lifetimes h where
  inserted := hi.store.put_le
  removed r := hi.store.put_eq r
  destroyed := hi.store.dropped_le
  settled hidle := hi.store.dropped_eq fun u => by
    simp only [Recorder.store, hidle]
    exact hand_of_stopped rfl rfl
  ended r hd := (hi.gone r (.inl hd)).1
  told := hi.told

/-- A step of `broadcast_record_start` takes no consumer but its own off the list. -/
def StartKeepsOthers (p : RoomProfile) (s : Recorder) (a : RecorderAction) : Prop :=
  ∀ u c target k t, a = .step u c → s.call u = .start target k → recorderStep p s a = some t →
    ∀ r ∈ s.b.recordings, k ≠ .rollback r → r ∈ t.b.recordings

theorem Recorder.Sound.startKeepsOthers (hi : s.Sound h) (hg : ConsumerUndisturbed s a) :
    StartKeepsOthers p s a := by
  intro u c target k t ha hk hs r hr hne
  subst ha
  obtain ⟨⟨b, y⟩, hy, rfl⟩ := Option.map_eq_some_iff.mp hs
  have hrolls : ∀ target r, s.call u = .start target (.rollback r) →
      s.b.recordings.head? = some r := by
    intro target r hx
    simp only [ConsumerUndisturbed, hx] at hg
    exact hg
  have hrec : b.recordings = (s.call u).listed s.b :=
    hi.tidy.recordings_eq (recordCall_step hi.tidy.lists hy) fun target r hx =>
      .inl (List.mem_of_head? (hrolls target r hx))
  show r ∈ b.recordings
  rw [hrec, hk]
  cases k with
  | link n => exact List.mem_cons_of_mem n hr
  | rollback n =>
    have hrn : r ≠ n := fun he => hne (by rw [he])
    rw [(hi.tidy.rolled_back (hrolls target n hk)).1] at hr
    exact (List.mem_cons.mp hr).resolve_left hrn
  | _ => exact hr

theorem recording_consumer_lifetime (hr : Run (recorderStep p) Recorder.init h s)
    (hm : Meets ConsumerUndisturbed h) : s.Lifetimes h ∧ Meets (StartKeepsOthers p) h := by
  have hstep : ∀ h s a t, Recorder.Sound h s → ConsumerUndisturbed s a →
      recorderStep p s a = some t → Recorder.Sound ((s, a) :: h) t :=
    fun _ _ _ _ hi hg hs => hi.step hg hs
  refine ⟨(hr.history_invariant hstep hm Recorder.Sound.init).lifetimes, ?_⟩
  exact hr.meets_of_history_invariant hstep (fun _ _ _ _ hi hg _ => hi.startKeepsOthers hg) hm
    Recorder.Sound.init

/-- One recording runs until it is stopped, the thread of another one is not created. -/
theorem recording_consumer_lifetime_stopped :
    ∃ (h : List (Recorder × RecorderAction)) (s : Recorder),
    Run (recorderStep ⟨8, false, 16, false, false⟩) Recorder.init h s ∧
      consumerFate 0 h = ⟨1, 1, 1⟩ ∧ consumerFate 1 h = ⟨1, 1, 1⟩ ∧ s.Lifetimes h ∧
      Meets (StartKeepsOthers ⟨8, false, 16, false, false⟩) h := by
  obtain ⟨h, s, hr, hm, hv⟩ := exists_run_observing (recorderStep ⟨8, false, 16, false, false⟩)
    (fun s a => decide (ConsumerUndisturbed s a)) Recorder.init
    (List.flatten [[.start 0 "a"], List.replicate 5 (.step 0 .ok), [.writer 0 .ok, .start 1 "b",
      .step 1 .ok, .step 1 .ok, .step 1 .fail, .step 1 .ok, .step 1 .ok, .stop 2 none, .step 2 .ok,
      .writer 0 .ok], List.replicate 6 (.step 2 .ok)])
    (fun h _ => (consumerFate 0 h, consumerFate 1 h)) (v := (⟨1, 1, 1⟩, ⟨1, 1, 1⟩)) (by decide)
  obtain ⟨h0, h1⟩ := Prod.mk.inj hv
  exact ⟨h, s, hr, h0, h1, recording_consumer_lifetime hr (hm.mono fun _ _ => of_decide_eq_true)⟩

/-- A stop between the link and the creation of the thread: the writer starts on a destroyed
pool. -/
theorem recording_pool_destroyed_early : ¬ ∀ (h : List (Recorder × RecorderAction)) (s : Recorder),
    Run (recorderStep ⟨8, false, 16, false, false⟩) Recorder.init h s →
      s.Lifetimes h ∧ Meets (StartKeepsOthers ⟨8, false, 16, false, false⟩) h := by
  refine not_forall_run (fun _ _ => true)
    (List.flatten [[.start 0 "a", .step 0 .ok, .step 0 .ok, .stop 1 none],
      List.replicate 5 (.step 1 .ok), [.step 0 .ok]])
    (fun h s => ((consumerFate 0 h).dropped, (s.b.consumer 0).writer)) (v := (1, .start))
    (by decide) ?_
  intro h s _ _ hv hall
  obtain ⟨hd, hw⟩ := Prod.mk.inj hv
  refine hall.1.ended 0 (by omega) ?_
  rw [hw]
  exact ⟨by decide, by decide⟩

end ModBroadcast
