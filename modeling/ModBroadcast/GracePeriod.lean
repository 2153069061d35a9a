import ModBroadcast.Config
import ModBroadcast.EventQueue

namespace ModBroadcast

def cBytes (s : String) : List UInt8 := s.toList.flatMap String.utf8EncodeChar

/-- `switch_snprintf` of `%s|%s` into a buffer of 512 bytes. -/
def barPair (s t : List UInt8) : List UInt8 := (s ++ 124 :: t).take 511

inductive DestroyStep
  | setDestruct
  | enqueueEvent (e : EventCall)
  | closePlay
  | openPlay (announce_file : String)
  | setPlayFile
  | sleep (us : ℕ)
  | clearPlayFile
  | storeDestroyed
  deriving DecidableEq

/-- What `broadcast_destroy_ex` finds: whether a file plays, whether the announcement opens, and
whether `play_fh` is still set after the sleep. -/
structure GraceAnswers where
  playing : Bool
  opens : Bool
  plays : Bool

def announcementSteps (announce_file : Option String) (o : GraceAnswers) : List DestroyStep :=
  match announce_file with
  | some file =>
    if file = "" then []
    else (if o.playing then [.closePlay] else []) ++ [.openPlay file] ++
      (if o.opens then [.setPlayFile] else [])
  | none => []

def clampGrace (grace_ms : ℕ) : ℕ := if grace_ms > 60000 then 60000 else grace_ms

/-- `broadcast_destroy_ex` up to the store of `destroyed`. -/
def destroySteps (grace_ms : ℕ) (announce_file : Option String) (o : GraceAnswers) :
    List DestroyStep :=
  let grace_ms := clampGrace grace_ms
  [.setDestruct] ++
  (if grace_ms > 0 then
    [.enqueueEvent ⟨.destroyGrace, 0,
      barPair (cBytes (toString grace_ms)) (cBytes (announce_file.getD ""))⟩] ++
    announcementSteps announce_file o ++ [.sleep (grace_ms * 1000000)] ++
    (if o.plays then [.closePlay] else []) ++ [.clearPlayFile]
  else []) ++
  [.storeDestroyed]

/-- `grace` in `broadcast_api_dispatch`; `args` is `argv` from its third word on. -/
def graceArg (args : List String) : ℕ :=
  match args[0]? with
  | some s => atoi s
  | none => 0

def apiDestroy (args : List String) (o : GraceAnswers) : List DestroyStep :=
  destroySteps (graceArg args) args[1]? o

def DestroyStep.asked : DestroyStep → ℕ
  | .sleep us => us
  | _ => 0

def requestedSleep (l : List DestroyStep) : ℕ := (l.map DestroyStep.asked).sum

theorem requestedSleep_announce (announce_file : Option String) (o : GraceAnswers) :
    requestedSleep (announcementSteps announce_file o) = 0 := by
  unfold announcementSteps
  split
  · split_ifs <;> rfl
  · rfl

@[simp] theorem requestedSleep_append (l l' : List DestroyStep) :
    requestedSleep (l ++ l') = requestedSleep l + requestedSleep l' := by
  simp [requestedSleep]

theorem clampGrace_eq (grace_ms : ℕ) : clampGrace grace_ms = min grace_ms 60000 := by
  unfold clampGrace
  split_ifs <;> omega

/-- The destroy sleeps a second for each millisecond of its grace. -/
theorem requestedSleep_destroySteps (grace_ms : ℕ) (announce_file : Option String)
    (o : GraceAnswers) :
    requestedSleep (destroySteps grace_ms announce_file o) = min grace_ms 60000 * 1000000 := by
  have hclose : requestedSleep (if o.plays then [.closePlay] else []) = 0 := by
    split_ifs <;> rfl
  simp only [destroySteps, clampGrace_eq, requestedSleep_append]
  by_cases hpos : min grace_ms 60000 > 0
  · rw [if_pos hpos]
    simp only [requestedSleep_append, requestedSleep_announce, hclose]
    simp [requestedSleep, DestroyStep.asked]
  · rw [if_neg hpos, Nat.eq_zero_of_not_pos hpos]
    simp [requestedSleep, DestroyStep.asked]

/-- The sleep is as long as the argument says, and within a minute, exactly when the argument
asks for no grace at all. -/
theorem grace_length_iff (args : List String) (o : GraceAnswers) :
    requestedSleep (apiDestroy args o) = 1000 * min (graceArg args) 60000 ∧
      requestedSleep (apiDestroy args o) ≤ 60 * 1000000 ↔ graceArg args = 0 := by
  rw [apiDestroy, requestedSleep_destroySteps]
  omega

/-- Three seconds of grace take fifty minutes. -/
theorem grace_of_three_seconds :
    ¬ (requestedSleep (apiDestroy ["3000"] ⟨false, false, false⟩) =
        1000 * min (graceArg ["3000"]) 60000 ∧
      requestedSleep (apiDestroy ["3000"] ⟨false, false, false⟩) ≤ 60 * 1000000) := by
  rw [apiDestroy, requestedSleep_destroySteps]
  decide

end ModBroadcast
