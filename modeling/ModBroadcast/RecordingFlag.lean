import ModBroadcast.RecordingLife

namespace ModBroadcast

open Automaton

variable {p : RoomProfile} {b b' : Broadcast} {c : Choice} {r u : ℕ} {s t : Recorder}
  {a : RecorderAction} {x y : RecordCall} {h : List (Recorder × RecorderAction)}

/-- The consumer whose writer the call has still to create, or could not create. -/
def RecordCall.linked : RecordCall → Option ℕ
  | .start _ (.create r) | .start _ (.rollback r) => some r
  | _ => none

def RecordCall.Flags (x : RecordCall) : Prop := ∃ target, x = .start target .flag

/-- A start that sets the flag finds a consumer on the list.  A rollback that stores NULL finds
the flag clear, and one that stores a consumer finds its own still on the list. -/
def RecordCall.KeepsFlag (b : Broadcast) : RecordCall → Prop
  | .start _ .flag => b.recording_head ≠ none
  | .start _ (.rollback r) =>
    ((b.consumer r).next = none → b.recording = false) ∧
      ((b.consumer r).next ≠ none → r ∈ b.recordings)
  | _ => True

def FlagUndisturbed (s : Recorder) : RecorderAction → Prop
  | .step u _ => (s.call u).KeepsFlag s.b
  | _ => True

instance RecordCall.KeepsFlag.decidable : DecidablePred (RecordCall.KeepsFlag b)
  | .start _ .flag => inferInstanceAs (Decidable (_ ≠ _))
  | .start _ (.rollback _) => inferInstanceAs (Decidable (_ ∧ _))
  | .start _ .start | .start _ (.link _) | .start _ (.create _) | .start _ (.discard _)
  | .start _ .announce | .stop _ _ | .idle => .isTrue trivial

instance FlagUndisturbed.decidable (s : Recorder) : DecidablePred (FlagUndisturbed s)
  | .step u _ => inferInstanceAs (Decidable ((s.call u).KeepsFlag s.b))
  | .start _ _ | .stop _ _ | .writer _ _ => .isTrue trivial

theorem enqueueEvent_recording (e : EventType) (i : ℕ) :
    (enqueueEvent p b e i).recording = b.recording := by
  rw [enqueueEvent]
  split_ifs <;> rfl

/-- The flag is set by a start and cleared by the walk of a stop. -/
theorem recordCall_recording (hs : recordCall p b c x = some (b', y)) :
    (x.Flags → b'.recording = true) ∧ (¬ x.Flags → ¬ x.Walks → b'.recording = b.recording) := by
  cases x with
  | idle => cases hs
  | start target k =>
    obtain ⟨rfl, rfl⟩ := Prod.mk.inj (Option.some.inj hs)
    have other : ∀ {k}, k ≠ .flag → ¬ (RecordCall.start target k).Flags := by
      rintro k hk ⟨_, he⟩
      exact hk (RecordCall.start.inj he).2
    cases k with
    | flag => exact ⟨fun _ => rfl, fun hf => absurd ⟨target, rfl⟩ hf⟩
    | start | create =>
      refine ⟨fun hf => absurd hf (other (by simp)), fun _ _ => ?_⟩
      split_ifs <;> rfl
    | announce =>
      exact ⟨fun hf => absurd hf (other (by simp)), fun _ _ => enqueueEvent_recording ..⟩
    | _ => exact ⟨fun hf => absurd hf (other (by simp)), fun _ _ => rfl⟩
  | stop target k =>
    have other : ¬ (RecordCall.stop target k).Flags := by
      rintro ⟨_, ⟨⟩⟩
    refine ⟨fun hf => absurd hf other, fun _ hw => ?_⟩
    obtain ⟨z, hz, he⟩ := Option.map_eq_some_iff.mp hs
    obtain ⟨rfl, rfl⟩ := Prod.mk.inj he
    cases k with
    | unlink => exact absurd trivial hw
    | next st q => cases q <;> obtain rfl := Option.some.inj hz <;> rfl
    | join =>
      simp only [recordStop] at hz
      split_ifs at hz
      obtain rfl := Option.some.inj hz
      rfl
    | report =>
      obtain rfl := Option.some.inj hz
      exact enqueueEvent_recording ..
    | test | free =>
      obtain rfl := Option.some.inj hz
      rfl

/-- Where `recording_head` leads after a step that stores it. -/
theorem CallStep.head (h : CallStep b b' c x y) (hh : b'.recording_head = none) :
    b.recording_head = none ∨ x.Walks ∨
      ∃ target r, x = .start target (.rollback r) ∧ (b.consumer r).next = none := by
  cases h with
  | link hh' =>
    rw [hh'] at hh
    cases hh
  | @rollback target r hb =>
    refine .inr (.inr ⟨target, r, rfl, ?_⟩)
    rw [← hh]
    exact (congrArg Consumers.head hb).symm
  | unlink => exact .inr (.inl trivial)
  | quiet hb | make _ hb | create _ hb | discard hb | pop hb | report hb | free hb =>
    left
    rw [← hh]
    exact (congrArg Consumers.head hb).symm
  | fail hb | wait hb | miss _ hb | joined _ hb =>
    rw [hb] at hh
    exact .inl hh

/-- After the walk of a stop the flag is not set on an empty list. -/
theorem CallStep.walked (h : CallStep b b' c x y) (hx : x.Walks) :
    b'.recording = (b.recording && b'.recording_head.isSome) := by
  cases h with
  | quiet _ _ hw => exact absurd hx hw
  | unlink hw => exact hw.recording
  | _ => cases hx

def Awaits (call : ℕ → RecordCall) (r : ℕ) : Prop :=
  ∃ u, (call u).Flags ∨ (call u).linked = some r

/-- While the flag is clear, each consumer on the list has a call that will set it or roll it
back. -/
structure Recorder.Flagged (s : Recorder) : Prop where
  tidy : Tidy s.b s.call
  truthful : s.b.recording = true → s.b.recording_head ≠ none
  awaited : ∀ r ∈ s.b.recordings, s.b.recording = true ∨ Awaits s.call r

theorem Recorder.Flagged.init : Recorder.init.Flagged where
  tidy := Tidy.of_free rfl (fun _ => rfl) fun _ => trivial
  truthful hr := by cases hr
  awaited _ hr := by cases hr

theorem head_of_mem (hr : r ∈ b.recordings) : b.recording_head ≠ none := by
  intro hh
  rw [Broadcast.recordings, hh, chain_none] at hr
  cases hr

section Step

theorem KeepsFlag.rollsBack (hg : (s.call u).KeepsFlag s.b) : (s.call u).RollsBack s.b := by
  intro target r hx
  rw [hx] at hg
  by_cases hn : (s.b.consumer r).next = none
  · exact .inr hn
  · exact .inl (hg.2 hn)

variable (hi : s.Flagged) (hg : (s.call u).KeepsFlag s.b)

include hi hg

/-- A rolled back consumer is not on the list any more. -/
theorem Recorder.Flagged.rolled_out {target : String}
    (hx : s.call u = .start target (.rollback r)) :
    r ∉ (s.call u).listed s.b := by
  intro hr
  rw [hx] at hg hr
  have hr' : r ∈ s.b.chain (s.b.consumer r).next := hr
  by_cases hn : (s.b.consumer r).next = none
  · rw [hn, chain_none] at hr'
    cases hr'
  · obtain ⟨l₁, l₂, -, hnd, -, heq⟩ := chain_after hi.tidy.lists (hg.2 hn)
    rw [heq] at hr'
    exact (List.nodup_cons.mp hnd).1 hr'

variable (hs : recordCall p s.b c (s.call u) = some (b', y))

include hs

theorem Recorder.Flagged.truthful_step (hrec : b'.recording = true) :
    b'.recording_head ≠ none := by
  intro hh
  have hstep := recordCall_step hi.tidy.lists hs
  obtain ⟨-, hkeep⟩ := recordCall_recording hs
  by_cases hw : (s.call u).Walks
  · rw [hstep.walked hw, hh, Option.isSome_none, Bool.and_false] at hrec
    cases hrec
  by_cases hf : (s.call u).Flags
  · obtain ⟨target, hx⟩ := hf
    rw [hx] at hg
    rcases hstep.head hh with hh | hw' | ⟨target', r, hx', -⟩
    · exact hg hh
    · exact hw hw'
    · cases hx.symm.trans hx'
  · rw [hkeep hf hw] at hrec
    rcases hstep.head hh with hh | hw' | ⟨target, r, hx, hn⟩
    · exact hi.truthful hrec hh
    · exact hw hw'
    · rw [hx] at hg
      rw [hg.1 hn] at hrec
      cases hrec

theorem Recorder.Flagged.awaited_step (hr : r ∈ b'.recordings) :
    b'.recording = true ∨ Awaits (Function.update s.call u y) r := by
  have hstep := recordCall_step hi.tidy.lists hs
  obtain ⟨hset, hkeep⟩ := recordCall_recording hs
  have htidy := hi.tidy.step hstep (KeepsFlag.rollsBack hg)
  have hhead := head_of_mem hr
  rw [hi.tidy.recordings_eq hstep (KeepsFlag.rollsBack hg)] at hr
  have self : y.Flags ∨ y.linked = some r → Awaits (Function.update s.call u y) r := fun hy =>
    ⟨u, by rwa [Function.update_self]⟩
  by_cases hf : (s.call u).Flags
  · exact .inl (hset hf)
  rcases hi.tidy.listed_mem (KeepsFlag.rollsBack hg) hr with hmem | ⟨target, hx⟩
  · rcases hi.awaited r hmem with hrec | ⟨v, hv⟩
    · left
      by_cases hw : (s.call u).Walks
      · rw [hstep.walked hw, hrec, Bool.true_and]
        exact Option.isSome_iff_ne_none.mpr hhead
      · exact (hkeep hf hw).trans hrec
    · by_cases hvu : v = u
      · subst hvu
        right
        -- the call goes on with its consumer, or sets the flag next
        generalize hx : s.call v = x at hstep
        have hl : x.linked = some r := hx ▸ hv.resolve_left hf
        cases hstep with
        | fail => exact self (.inr hl)
        | @create target => exact self (.inl ⟨target, rfl⟩)
        | @rollback target n =>
          obtain rfl : n = r := Option.some.inj hl
          exact absurd hr (hi.rolled_out hg hx)
        | quiet _ hfree =>
          cases x with
          | start target k => cases k <;> first | exact hfree.elim | cases hl
          | _ => cases hl
        | _ => cases hl
      · right
        exact ⟨v, by rwa [Function.update_of_ne hvu]⟩
  · rw [hx] at hstep
    cases hstep with
    | quiet _ hfree => exact hfree.elim
    | link => exact .inr (self (.inr rfl))

end Step

/-- A thread that enters one of the two functions. -/
theorem Recorder.Flagged.enter (hi : s.Flagged) (hidle : s.call u = .idle) (hy : y.Free) :
    Recorder.Flagged { s with call := Function.update s.call u y } where
  tidy := by
    have hquiet : CallStep s.b s.b .ok (s.call u) y := by
      rw [hidle]
      exact .quiet rfl trivial id hy
    refine hi.tidy.step hquiet ?_
    rw [hidle]
    rintro target r ⟨⟩
  truthful := hi.truthful
  awaited r hr := by
    refine (hi.awaited r hr).imp_right fun ⟨v, hv⟩ => ⟨v, ?_⟩
    have hne : v ≠ u := by
      rintro rfl
      rw [hidle] at hv
      rcases hv with ⟨_, ⟨⟩⟩ | ⟨⟨⟩⟩
    show (Function.update s.call u y v).Flags ∨ (Function.update s.call u y v).linked = some r
    rwa [Function.update_of_ne hne]

theorem recordWriter_recording (hs : recordWriter p b r c = some b') :
    b'.recording = b.recording := by
  simp only [recordWriter] at hs
  split at hs
  · split_ifs at hs <;> obtain rfl := Option.some.inj hs <;> rfl
  · split_ifs at hs <;> obtain rfl := Option.some.inj hs
    · exact enqueueEvent_recording ..
    · rfl
    · rfl
  · cases hs

theorem Recorder.Flagged.step (hi : s.Flagged) (hg : FlagUndisturbed s a)
    (hs : recorderStep p s a = some t) : t.Flagged := by
  cases a with
  | start u target | stop u target =>
    simp only [recorderStep] at hs
    split_ifs at hs with hidle
    obtain rfl := Option.some.inj hs
    exact hi.enter hidle trivial
  | step u c =>
    obtain ⟨⟨b, y⟩, hy, rfl⟩ := Option.map_eq_some_iff.mp hs
    exact {
      tidy := hi.tidy.step (recordCall_step hi.tidy.lists hy) (KeepsFlag.rollsBack hg)
      truthful := hi.truthful_step hg hy
      awaited := fun r hr => hi.awaited_step hg hy hr }
  | writer r c =>
    obtain ⟨b, hb, rfl⟩ := Option.map_eq_some_iff.mp hs
    rcases recordWriter_step hb with hw | rfl
    · refine ⟨hi.tidy.writer hw, ?_, ?_⟩
      · show b.recording = true → b.recording_head ≠ none
        rw [recordWriter_recording hb, hw.head]
        exact hi.truthful
      · show ∀ r ∈ b.recordings, b.recording = true ∨ _
        rw [recordWriter_recording hb, hw.recordings]
        exact hi.awaited
    · exact hi

/-- While no call is in progress the flag says whether there is a recording. -/
def Recorder.Truthful (s : Recorder) : Prop :=
  (∀ u, s.call u = .idle) → (s.b.recording = true ↔ s.b.recording_head ≠ none)

theorem Recorder.Flagged.all_truthful (hi : s.Flagged) : s.Truthful := by
  intro hidle
  refine ⟨hi.truthful, fun hne => ?_⟩
  obtain ⟨r, hr⟩ : ∃ r, r ∈ s.b.recordings := by
    refine List.exists_mem_of_ne_nil _ fun hnil => hne ?_
    have hc := hi.tidy.lists.chain
    rw [hnil] at hc
    exact hc
  rcases hi.awaited r hr with hrec | ⟨u, ⟨target, hu⟩ | hu⟩
  · exact hrec
  · cases (hidle u).symm.trans hu
  · rw [hidle u] at hu
    cases hu

/-- In every run whose flags are set on a list with consumers and whose rollbacks leave no flag on
an empty list, the flag is right in every state in which no call is in progress. -/
theorem recording_flag_truthful (hr : Run (recorderStep p) Recorder.init h s)
    (hm : Meets FlagUndisturbed h) : s.Truthful :=
  (hr.invariant (fun _ _ _ hi hg hs => hi.step hg hs) hm Recorder.Flagged.init).all_truthful

/-- One recording has been started, and the thread of a second one could not be created. -/
theorem recording_flag_truthful_rollback : ∃ (h : List (Recorder × RecorderAction)) (s : Recorder),
    Run (recorderStep ⟨8, false, 16, false, false⟩) Recorder.init h s ∧
      s.b.recordings = [0] ∧ s.call 0 = .idle ∧ s.call 1 = .idle ∧ s.Truthful := by
  obtain ⟨h, s, hr, hm, hv⟩ := exists_run_observing (recorderStep ⟨8, false, 16, false, false⟩)
    (fun s a => decide (FlagUndisturbed s a)) Recorder.init
    (List.flatten [[.start 0 "a"], List.replicate 5 (.step 0 .ok), [.start 1 "b", .step 1 .ok,
      .step 1 .ok, .step 1 .fail, .step 1 .ok, .step 1 .ok]])
    (fun _ s => (s.b.recordings, s.call 0, s.call 1)) (v := ([0], .idle, .idle)) (by decide)
  obtain ⟨hrec, hcalls⟩ := Prod.mk.inj hv
  obtain ⟨h0, h1⟩ := Prod.mk.inj hcalls
  exact ⟨h, s, hr, hrec, h0, h1,
    recording_flag_truthful hr (hm.mono fun _ _ => of_decide_eq_true)⟩

def RecorderAction.caller : RecorderAction → Option ℕ
  | .start u _ | .stop u _ | .step u _ => some u
  | .writer _ _ => none

theorem recorderStep_others (hs : recorderStep p s a = some t) (hu : a.caller ≠ some u) :
    t.call u = s.call u := by
  have hne : ∀ {w}, some w ≠ some u → u ≠ w := fun h he => h (congrArg some he.symm)
  cases a with
  | start w target | stop w target =>
    simp only [recorderStep] at hs
    split_ifs at hs
    obtain rfl := Option.some.inj hs
    exact Function.update_of_ne (hne hu) _ _
  | step w c =>
    obtain ⟨x, -, rfl⟩ := Option.map_eq_some_iff.mp hs
    exact Function.update_of_ne (hne hu) _ _
  | writer r c =>
    obtain ⟨b, -, rfl⟩ := Option.map_eq_some_iff.mp hs
    rfl

/-- A stop between the creation of the writer and the setting of the flag: the list is empty and
the flag set. -/
theorem recording_flag_left_set : ¬ ∀ (h : List (Recorder × RecorderAction)) (s : Recorder),
    Run (recorderStep ⟨8, false, 16, false, false⟩) Recorder.init h s → s.Truthful := by
  let named : Recorder → RecorderAction → Bool := fun _ a => a.caller ∈ [none, some 0, some 1]
  refine not_forall_run named
    (List.flatten [[.start 0 "a"], List.replicate 3 (.step 0 .ok), [.stop 1 none, .step 1 .ok,
      .writer 0 .ok, .writer 0 .ok], List.replicate 6 (.step 1 .ok),
      List.replicate 2 (.step 0 .ok)])
    (fun _ s => (s.b.recording, s.b.recording_head, s.call 0, s.call 1))
    (v := (true, none, .idle, .idle)) (by decide) ?_
  intro h s hr hm hv htrue
  obtain ⟨hrec, hv⟩ := Prod.mk.inj hv
  obtain ⟨hnil, hv⟩ := Prod.mk.inj hv
  obtain ⟨h0, h1⟩ := Prod.mk.inj hv
  have hrest : ∀ u, u ≠ 0 → u ≠ 1 → s.call u = .idle := by
    intro u hu0 hu1
    refine hr.invariant (I := fun s => s.call u = .idle) (fun s a t hi hn hs => ?_) hm rfl
    have hcaller : a.caller ≠ some u := by
      intro he
      simp [named, he, hu0, hu1] at hn
    exact (recorderStep_others hs hcaller).trans hi
  have hidle : ∀ u, s.call u = .idle := by
    intro u
    by_cases hu0 : u = 0
    · rw [hu0, h0]
    · by_cases hu1 : u = 1
      · rw [hu1, h1]
      · exact hrest u hu0 hu1
  exact (htrue hidle).mp hrec hnil

end ModBroadcast
