import Mathlib.Tactic
import ModBroadcast.Broadcast

namespace ModBroadcast

/-- A frame whose energy is evaluated: its score, the threshold read for it, and the time that the
quiet branch reads. -/
structure EnergyFrame where
  score : ℕ
  thresh : ℕ
  now : ℤ

def EnergyFrame.Loud (f : EnergyFrame) : Prop := f.thresh < f.score

instance : DecidablePred EnergyFrame.Loud :=
  fun f => inferInstanceAs (Decidable (f.thresh < f.score))

/-- The fields of the member that the energy detection uses; 0 stands for no quiet run. -/
structure TalkState where
  talking_state : Bool
  silent_since_us : ℤ
  deriving DecidableEq

def TalkState.zero : TalkState := ⟨false, 0⟩

/-- `silent_since` as the quiet branch uses it: a run that begins with this frame gets its time. -/
def TalkState.silentSince (m : TalkState) (now : ℤ) : ℤ :=
  if m.silent_since_us = 0 then now else m.silent_since_us

def energyFrame (silence_window_ms : ℕ) (m : TalkState) (f : EnergyFrame) :
    TalkState × Option EventType :=
  if f.Loud then (⟨true, 0⟩, if m.talking_state then none else some .speakerTalking)
  else
    let silent_since := m.silentSince f.now
    if m.talking_state ∧ (silence_window_ms : ℤ) * 1000 < f.now - silent_since then
      (⟨false, silent_since⟩, some .speakerSilent)
    else (⟨m.talking_state, silent_since⟩, none)

def talkBefore (silence_window_ms : ℕ) (f : ℕ → EnergyFrame) : ℕ → TalkState
  | 0 => .zero
  | i + 1 => (energyFrame silence_window_ms (talkBefore silence_window_ms f i) (f i)).1

def talkEvent (silence_window_ms : ℕ) (f : ℕ → EnergyFrame) (i : ℕ) : Option EventType :=
  (energyFrame silence_window_ms (talkBefore silence_window_ms f i) (f i)).2

/-- The events of the first `n` frames, in order. -/
def talkEvents (silence_window_ms : ℕ) (f : ℕ → EnergyFrame) (n : ℕ) : List EventType :=
  (List.range n).filterMap (talkEvent silence_window_ms f)

def eventInTurn (j : ℕ) : EventType := if Even j then .speakerTalking else .speakerSilent

/-- Frame `i` ends a run of frames at or below their thresholds whose first frame is more than
the silence window older. -/
def EndsQuiet (silence_window_ms : ℕ) (f : ℕ → EnergyFrame) (i : ℕ) : Prop :=
  ∃ k ≤ i, (∀ n, k ≤ n → n ≤ i → ¬ (f n).Loud) ∧
    (silence_window_ms : ℤ) * 1000 < (f i).now - (f k).now

/-- The quiet run in front of frame `i` begins with frame `k`; it is empty when `k` is `i`. -/
structure QuietFrom (f : ℕ → EnergyFrame) (i k : ℕ) : Prop where
  le : k ≤ i
  quiet : ∀ n, k ≤ n → n < i → ¬ (f n).Loud
  first : k = 0 ∨ (f (k - 1)).Loud

variable {w : ℕ} {f : ℕ → EnergyFrame} {i k n : ℕ}

theorem QuietFrom.zero : QuietFrom f 0 0 := ⟨le_rfl, fun n h₁ h₂ => by omega, .inl rfl⟩

theorem QuietFrom.loud (hf : (f i).Loud) : QuietFrom f (i + 1) (i + 1) :=
  ⟨le_rfl, fun n h₁ h₂ => by omega, .inr hf⟩

theorem QuietFrom.succ (h : QuietFrom f i k) (hf : ¬ (f i).Loud) : QuietFrom f (i + 1) k := by
  refine ⟨h.le.trans (Nat.le_succ i), fun n h₁ h₂ => ?_, h.first⟩
  by_cases hn : n = i
  · rw [hn]
    exact hf
  · exact h.quiet n h₁ (by omega)

/-- A run that frame `i` ends begins with frame `k` or later. -/
theorem QuietFrom.le_of_quiet (h : QuietFrom f i k) {j : ℕ}
    (hq : ∀ n, j ≤ n → n ≤ i → ¬ (f n).Loud) : k ≤ j := by
  rcases h.first with h0 | hloud
  · omega
  · by_contra hlt
    have hle := h.le
    exact hq (k - 1) (by omega) (by omega) hloud

theorem silentSince_of_run {m : TalkState} (hk : 0 < (f k).now)
    (hs : m.silent_since_us = if k = i then 0 else (f k).now) :
    m.silentSince (f i).now = (f k).now := by
  unfold TalkState.silentSince
  by_cases hki : k = i
  · rw [if_pos hki] at hs
    rw [if_pos hs, hki]
  · -- the time is never the sentinel
    rw [if_neg hki] at hs
    rw [if_neg (by omega), hs]

/-- `silent_since_us` is the time of the first frame of the quiet run, 0 without one. -/
theorem exists_quietFrom (hpos : ∀ i, 0 < (f i).now) (w i : ℕ) : ∃ k, QuietFrom f i k ∧
    (talkBefore w f i).silent_since_us = if k = i then 0 else (f k).now := by
  induction i with
  | zero => exact ⟨0, .zero, rfl⟩
  | succ i ih =>
    obtain ⟨k, hk, hs⟩ := ih
    by_cases hf : (f i).Loud
    · refine ⟨i + 1, .loud hf, ?_⟩
      simp [talkBefore, energyFrame, hf]
    · refine ⟨k, hk.succ hf, ?_⟩
      have hne : k ≠ i + 1 := by have := hk.le; omega
      rw [if_neg hne, talkBefore, energyFrame, if_neg hf]
      simp only [silentSince_of_run (hpos k) hs]
      split_ifs <;> rfl

/-- What a frame at or below its threshold compares with the silence window. -/
theorem endsQuiet_iff (hpos : ∀ i, 0 < (f i).now) (hmono : Monotone fun i => (f i).now)
    (hf : ¬ (f i).Loud) : EndsQuiet w f i ↔
      (w : ℤ) * 1000 < (f i).now - (talkBefore w f i).silentSince (f i).now := by
  obtain ⟨k, hk, hs⟩ := exists_quietFrom hpos w i
  rw [silentSince_of_run (hpos k) hs]
  constructor
  · rintro ⟨j, hj, hq, hlt⟩
    have hle : (f k).now ≤ (f j).now := hmono (hk.le_of_quiet hq)
    omega
  · intro hlt
    refine ⟨k, hk.le, fun n h₁ h₂ => ?_, hlt⟩
    by_cases hn : n = i
    · rw [hn]
      exact hf
    · exact hk.quiet n h₁ (by omega)

theorem not_loud_of_endsQuiet (h : EndsQuiet w f i) : ¬ (f i).Loud := by
  obtain ⟨k, hk, hq, -⟩ := h
  exact hq i hk le_rfl

section

variable (hpos : ∀ i, 0 < (f i).now) (hmono : Monotone fun i => (f i).now)

include hpos hmono

/-- The three cases of a frame. -/
theorem talk_cases (w i : ℕ) :
    (f i).Loud ∧ (talkBefore w f (i + 1)).talking_state = true ∧
        talkEvent w f i =
          (if (talkBefore w f i).talking_state then none else some .speakerTalking) ∨
      EndsQuiet w f i ∧ (talkBefore w f (i + 1)).talking_state = false ∧
        talkEvent w f i =
          (if (talkBefore w f i).talking_state then some .speakerSilent else none) ∨
      ¬ (f i).Loud ∧ ¬ EndsQuiet w f i ∧
        (talkBefore w f (i + 1)).talking_state = (talkBefore w f i).talking_state ∧
        talkEvent w f i = none := by
  by_cases hf : (f i).Loud
  · left
    simp [talkBefore, talkEvent, energyFrame, hf]
  · have hq := endsQuiet_iff (w := w) hpos hmono hf
    by_cases he : EndsQuiet w f i
    · right; left
      have hlt := hq.mp he
      refine ⟨he, ?_⟩
      cases ht : (talkBefore w f i).talking_state <;>
        simp [talkBefore, talkEvent, energyFrame, hf, ht, hlt]
    · right; right
      have hlt := mt hq.mpr he
      refine ⟨hf, he, ?_⟩
      simp [talkBefore, talkEvent, energyFrame, hf, hlt]

theorem talking_event_iff (w i : ℕ) : talkEvent w f i = some .speakerTalking ↔
    (f i).Loud ∧ (talkBefore w f i).talking_state = false := by
  rcases talk_cases hpos hmono w i with ⟨hl, -, he⟩ | ⟨hq, -, he⟩ | ⟨hl, -, -, he⟩
  · rw [he]
    cases ht : (talkBefore w f i).talking_state <;> simp [hl]
  · rw [he]
    have hl := not_loud_of_endsQuiet hq
    cases ht : (talkBefore w f i).talking_state <;> simp [hl]
  · simp [he, hl]

theorem silent_event_iff (w i : ℕ) : talkEvent w f i = some .speakerSilent ↔
    EndsQuiet w f i ∧ (talkBefore w f i).talking_state = true := by
  rcases talk_cases hpos hmono w i with ⟨hl, -, he⟩ | ⟨hq, -, he⟩ | ⟨-, hq, -, he⟩
  · have hq : ¬ EndsQuiet w f i := fun h => not_loud_of_endsQuiet h hl
    rw [he]
    cases ht : (talkBefore w f i).talking_state <;> simp [hq]
  · rw [he]
    cases ht : (talkBefore w f i).talking_state <;> simp [hq]
  · simp [he, hq]

/-- The speaker talks in front of frame `i` when no frame since the last SPEAKER_TALKING has ended a
long quiet run. -/
theorem talking_iff (w i : ℕ) : (talkBefore w f i).talking_state = true ↔
    ∃ t < i, talkEvent w f t = some .speakerTalking ∧
      ∀ j, t < j → j < i → ¬ EndsQuiet w f j := by
  induction i with
  | zero => simp [talkBefore, TalkState.zero]
  | succ i ih =>
    have hev := talking_event_iff hpos hmono w i
    rcases talk_cases hpos hmono w i with ⟨hl, ht, -⟩ | ⟨hq, ht, -⟩ | ⟨hl, hq, ht, -⟩
    · refine ⟨fun _ => ?_, fun _ => ht⟩
      have hq : ¬ EndsQuiet w f i := fun h => not_loud_of_endsQuiet h hl
      by_cases hb : (talkBefore w f i).talking_state = true
      · obtain ⟨t, hti, het, hno⟩ := ih.mp hb
        refine ⟨t, by omega, het, fun j h₁ h₂ => ?_⟩
        by_cases hj : j = i
        · rw [hj]
          exact hq
        · exact hno j h₁ (by omega)
      · exact ⟨i, by omega, hev.mpr ⟨hl, by simpa using hb⟩, fun j h₁ h₂ => by omega⟩
    · rw [ht]
      constructor
      · intro hfalse
        cases hfalse
      · rintro ⟨t, hti, het, hno⟩
        by_cases hti' : t = i
        · rw [hti', hev] at het
          exact absurd het.1 (not_loud_of_endsQuiet hq)
        · exact absurd hq (hno i (by omega) (by omega))
    · rw [ht, ih]
      constructor
      · rintro ⟨t, hti, het, hno⟩
        refine ⟨t, by omega, het, fun j h₁ h₂ => ?_⟩
        by_cases hj : j = i
        · rw [hj]
          exact hq
        · exact hno j h₁ (by omega)
      · rintro ⟨t, hti, het, hno⟩
        have hne : t ≠ i := by
          rintro rfl
          exact hl (hev.mp het).1
        exact ⟨t, by omega, het, fun j h₁ h₂ => hno j h₁ (by omega)⟩

/-- The speaker is silent in front of frame `i` when no frame has been loud since the start or the
last SPEAKER_SILENT. -/
theorem not_talking_iff (w i : ℕ) : (talkBefore w f i).talking_state = false ↔
    ∃ j ≤ i, (j = 0 ∨ talkEvent w f (j - 1) = some .speakerSilent) ∧
      ∀ n, j ≤ n → n < i → ¬ (f n).Loud := by
  induction i with
  | zero =>
    refine ⟨fun _ => ⟨0, le_rfl, .inl rfl, fun n h₁ h₂ => by omega⟩, fun _ => rfl⟩
  | succ i ih =>
    have hev := silent_event_iff hpos hmono w i
    -- a silent beginning goes on as long as no frame is loud
    have longer : ¬ (f i).Loud → (talkBefore w f i).talking_state = false →
        ∃ j ≤ i + 1, (j = 0 ∨ talkEvent w f (j - 1) = some .speakerSilent) ∧
          ∀ n, j ≤ n → n < i + 1 → ¬ (f n).Loud := by
      intro hl hb
      obtain ⟨j, hji, hj, hq⟩ := ih.mp hb
      refine ⟨j, by omega, hj, fun n h₁ h₂ => ?_⟩
      by_cases hn : n = i
      · rw [hn]
        exact hl
      · exact hq n h₁ (by omega)
    rcases talk_cases hpos hmono w i with ⟨hl, ht, -⟩ | ⟨hq, ht, -⟩ | ⟨hl, hq, ht, -⟩
    · rw [ht]
      constructor
      · intro htrue
        cases htrue
      · rintro ⟨j, hji, hj, hno⟩
        by_cases hj' : j = i + 1
        · have hs : talkEvent w f i = some .speakerSilent := by
            rcases hj with h0 | hs
            · omega
            · simpa [hj'] using hs
          exact absurd hl (not_loud_of_endsQuiet (hev.mp hs).1)
        · exact absurd hl (hno i (by omega) (by omega))
    · refine ⟨fun _ => ?_, fun _ => ht⟩
      cases hb : (talkBefore w f i).talking_state with
      | true => exact ⟨i + 1, le_rfl, .inr (hev.mpr ⟨hq, hb⟩), fun n h₁ h₂ => by omega⟩
      | false => exact longer (not_loud_of_endsQuiet hq) hb
    · rw [ht]
      refine ⟨longer hl, ?_⟩
      rintro ⟨j, hji, hj, hno⟩
      have hne : j ≠ i + 1 := by
        rintro rfl
        rcases hj with h0 | hs
        · omega
        · exact hq (hev.mp (by simpa using hs)).1
      exact ih.mpr ⟨j, by omega, hj, fun n h₁ h₂ => hno n h₁ (by omega)⟩

/-- The speaker talks after an odd number of events, and the events alternate. -/
theorem talkEvents_alternate (w n : ℕ) :
    ((talkBefore w f n).talking_state = true ↔ ¬ Even (talkEvents w f n).length) ∧
      ∀ j e, (talkEvents w f n)[j]? = some e → e = eventInTurn j := by
  induction n with
  | zero => simp [talkEvents, talkBefore, TalkState.zero]
  | succ n ih =>
    obtain ⟨hodd, hall⟩ := ih
    have happend : talkEvents w f (n + 1) = talkEvents w f n ++ (talkEvent w f n).toList := by
      simp only [talkEvents, List.range_succ, List.filterMap_append]
      cases hn : talkEvent w f n <;> simp [hn]
    -- an event is the one that the parity of its place asks for
    have push : ∀ e, talkEvent w f n = some e →
        e = eventInTurn (talkEvents w f n).length →
        ∀ j e, (talkEvents w f (n + 1))[j]? = some e → e = eventInTurn j := by
      intro e he hpar j e' hj
      rw [happend, he, Option.toList_some] at hj
      by_cases hlt : j < (talkEvents w f n).length
      · rw [List.getElem?_append_left hlt] at hj
        exact hall j e' hj
      · have hlen := (List.getElem?_eq_some_iff.mp hj).1
        simp only [List.length_append, List.length_singleton] at hlen
        have hj' : j = (talkEvents w f n).length := by omega
        subst hj'
        simp only [List.getElem?_concat_length, Option.some.injEq] at hj
        rw [← hj]
        exact hpar
    have none : talkEvent w f n = none → talkEvents w f (n + 1) = talkEvents w f n := by
      intro he
      rw [happend, he, Option.toList_none, List.append_nil]
    have one : ∀ e, talkEvent w f n = some e →
        (talkEvents w f (n + 1)).length = (talkEvents w f n).length + 1 := by
      intro e he
      rw [happend, he]
      simp
    rcases talk_cases hpos hmono w n with ⟨-, ht, he⟩ | ⟨-, ht, he⟩ | ⟨-, -, ht, he⟩
    · cases hb : (talkBefore w f n).talking_state with
      | true =>
        rw [hb, if_pos rfl] at he
        rw [none he, ht]
        exact ⟨by simpa [hb] using hodd, hall⟩
      | false =>
        rw [hb, if_neg (by decide)] at he
        have heven : Even (talkEvents w f n).length := by simpa [hb] using hodd
        refine ⟨?_, push _ he (by rw [eventInTurn, if_pos heven])⟩
        rw [ht, one _ he, Nat.even_add_one]
        simpa using heven
    · cases hb : (talkBefore w f n).talking_state with
      | true =>
        rw [hb, if_pos rfl] at he
        have hodd' : ¬ Even (talkEvents w f n).length := hodd.mp hb
        refine ⟨?_, push _ he (by rw [eventInTurn, if_neg hodd'])⟩
        rw [ht, one _ he, Nat.even_add_one]
        simpa using hodd'
      | false =>
        rw [hb, if_neg (by decide)] at he
        rw [none he, ht]
        exact ⟨by simpa [hb] using hodd, hall⟩
    · rw [none he, ht]
      exact ⟨hodd, hall⟩

/-- The events of a fresh member alternate and begin with SPEAKER_TALKING.  SPEAKER_TALKING comes
with the first frame above its threshold at the start or after a SPEAKER_SILENT, and
SPEAKER_SILENT with the first frame after a SPEAKER_TALKING that ends a long quiet run. -/
theorem talk_detection (w : ℕ) :
    (∀ n j e, (talkEvents w f n)[j]? = some e → e = eventInTurn j) ∧
    (∀ i, talkEvent w f i = some .speakerTalking ↔ (f i).Loud ∧
      ∃ j ≤ i, (j = 0 ∨ talkEvent w f (j - 1) = some .speakerSilent) ∧
        ∀ n, j ≤ n → n < i → ¬ (f n).Loud) ∧
    ∀ i, talkEvent w f i = some .speakerSilent ↔ EndsQuiet w f i ∧
      ∃ t < i, talkEvent w f t = some .speakerTalking ∧
        ∀ j, t < j → j < i → ¬ EndsQuiet w f j := by
  refine ⟨fun n => (talkEvents_alternate hpos hmono w n).2, fun i => ?_, fun i => ?_⟩
  · rw [talking_event_iff hpos hmono, not_talking_iff hpos hmono]
  · rw [silent_event_iff hpos hmono, talking_iff hpos hmono]

end

/-- One loud frame, then a frame a millisecond with a window of one millisecond: the third quiet
frame is the first one too late. -/
theorem talk_detection_one_word : ∃ f : ℕ → EnergyFrame,
    talkEvents 1 f 5 = [.speakerTalking, .speakerSilent] ∧
      talkEvent 1 f 3 = some .speakerSilent ∧ EndsQuiet 1 f 3 := by
  let f (i : ℕ) : EnergyFrame := ⟨if i = 0 then 600 else 100, 500, 1 + 1000 * i⟩
  have hpos : ∀ i, 0 < (f i).now := fun i => by show (0 : ℤ) < 1 + 1000 * i; omega
  have hmono : Monotone fun i => (f i).now := fun i j hij => by
    show (1 + 1000 * i : ℤ) ≤ 1 + 1000 * j
    omega
  have hsilent : talkEvent 1 f 3 = some .speakerSilent := by decide
  exact ⟨f, by decide, hsilent, (((talk_detection hpos hmono 1).2.2 3).mp hsilent).1⟩

end ModBroadcast
