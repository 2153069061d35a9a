import ModBroadcast.Threads

namespace ModBroadcast

open Automaton

variable {p : RoomProfile} {s t : Room} {a : RoomAction} {h : List (Room × RoomAction)}

/-- What a section under `play_mutex` does with `play_fh`; `keep` tells whether a handle
that cannot be opened stays there. -/
inductive PlaySection
  | open (keep : Bool) | close | read
  deriving DecidableEq

def Room.playSection (s : Room) : RoomAction → Option PlaySection
  | .api u _ =>
    match s.api u with
    | .start .play => some (.open true)
    | .start .stopPlay => some .close
    | .destroy _ true .announce => some (.open false)
    | .destroy _ _ .ungrace | .destroy _ _ .stopPlay => some .close
    | _ => none
  | .producer _ => if s.producer = .play then some .read else none
  | _ => none

/-- The handle is NULL or open, and the bit says which. -/
def PlaySound (b : Broadcast) : Prop :=
  b.play_fh ≠ .failed ∧ (b.play_file = true ↔ b.play_fh ≠ .null)

instance (b : Broadcast) : Decidable (PlaySound b) := inferInstanceAs (Decidable (_ ∧ _))

/-- `switch_core_file_read` and `switch_core_file_close` get an open handle.  The handle
is closed when there is one, and read when the bit is set as well. -/
def UsesOpenHandle (s : Room) (a : RoomAction) : Prop :=
  ∀ k, s.playSection a = some k → s.b.play_fh ≠ .null → (k = .read → s.b.play_file = true) →
    s.b.play_fh = .opened

/-- `switch_core_file_open` fails for the API command, or for the announcement while the
bit of an earlier file is set. -/
def OpenFails (s : Room) : RoomAction → Prop
  | .api u .fail => ∃ keep ∈ [true, false], s.playSection (.api u .fail) = some (.open keep) ∧
    (keep = true ∨ s.b.play_file = true)
  | _ => False

instance (s : Room) (a : RoomAction) : Decidable (OpenFails s a) := by
  unfold OpenFails
  split <;> infer_instance

def Broadcast.playing (b : Broadcast) : PlayHandle × Bool := (b.play_fh, b.play_file)

theorem playing_of_life {b b' : Broadcast} (h : b'.life = b.life) : b'.playing = b.playing :=
  Prod.ext (congrArg Broadcast.play_fh h :) (congrArg Broadcast.play_file h :)

inductive PlayStep (s t : Room) : RoomAction → Prop
  | keep (a : RoomAction) (hk : ∀ keep, s.playSection a ≠ some (.open keep))
      (ht : t.b.playing = s.b.playing) : PlayStep s t a
  | open (u : ℕ) (c : Choice) (keep : Bool) (hk : s.playSection (.api u c) = some (.open keep))
      (ht : t.b.playing = (startPlay s.b keep c).playing) : PlayStep s t (.api u c)
  | close (a : RoomAction) (hk : ∀ keep, s.playSection a ≠ some (.open keep))
      (ht : t.b.playing = (.null, false)) : PlayStep s t a

theorem roomStep_play (hs : roomStep p s a = some t) : PlayStep s t a := by
  cases roomStep_lifeStep hs with
  | keep ha h =>
    refine .keep _ (fun keep hk => ?_) (playing_of_life h)
    unfold Room.playSection at hk
    split at hk
    · rename_i u c
      have hl := ha u c rfl
      split at hk <;> simp_all [ApiPc.Life, DestroyPc.Rest]
    · split_ifs at hk
      cases hk
    · cases hk
  | play hpc h => exact .open _ _ true (by simp [Room.playSection, hpc]) (by rw [h])
  | stopPlay hpc h =>
    refine .close _ (by simp [Room.playSection, hpc]) ?_
    rw [h]
    rfl
  | @destroy u c g f k z hpc hk h =>
    cases k with
    | announce =>
      obtain ⟨hb, -⟩ := Prod.mk.inj (Option.some.inj h)
      cases f with
      | true => exact .open u c false (by simp [Room.playSection, hpc]) (by rw [← hb]; rfl)
      | false => exact .keep _ (by simp [Room.playSection, hpc]) (by rw [← hb]; rfl)
    | ungrace | stopPlay =>
      obtain ⟨hb, -⟩ := Prod.mk.inj (Option.some.inj h)
      refine .close _ (by simp [Room.playSection, hpc]) ?_
      rw [← hb]
      rfl
    | delete =>
      simp only [destroyRoom] at h
      split_ifs at h
      obtain ⟨hb, -⟩ := Prod.mk.inj (Option.some.inj h)
      exact .keep _ (by simp [Room.playSection, hpc]) (by rw [← hb]; rfl)
    | stopRecords k' => exact absurd rfl (hk.2 k')
    | flag | mark | closeMoh | stopProducer | pool =>
      obtain ⟨hb, -⟩ := Prod.mk.inj (Option.some.inj h)
      exact .keep _ (by simp [Room.playSection, hpc]) (by rw [← hb]; rfl)
    | _ => exact hk.1.elim
  | producer h =>
    have hk : ∀ {c} keep, s.playSection (.producer c) ≠ some (.open keep) := by
      intro c keep hk
      simp only [Room.playSection] at hk
      split_ifs at hk
      cases hk
    obtain hb | ⟨-, hb⟩ | ⟨-, -, -, hb⟩ | ⟨-, -, hb⟩ := producerRun_life h
    · exact .keep _ hk (playing_of_life hb)
    · exact .close _ hk (by rw [hb]; rfl)
    all_goals exact .keep _ hk (by rw [hb]; rfl)

theorem PlaySound.init : PlaySound Room.init.b := by decide

theorem playSound_of_playing {b b' : Broadcast} (hb : b'.playing = b.playing) :
    PlaySound b' ↔ PlaySound b := by
  obtain ⟨hfh, hfile⟩ := Prod.mk.inj hb
  unfold PlaySound
  rw [hfh, hfile]

theorem PlaySound.step (hi : PlaySound s.b) (ho : ¬ OpenFails s a)
    (hs : roomStep p s a = some t) : PlaySound t.b := by
  cases roomStep_play hs with
  | keep _ _ ht => exact (playSound_of_playing ht).mpr hi
  | close _ _ ht =>
    exact (playSound_of_playing (b := stopPlay s.b) ht).mpr (by simp [PlaySound, stopPlay])
  | «open» u c keep hk ht =>
    rw [playSound_of_playing ht]
    by_cases hc : c = .fail
    · -- the announcement's handle is taken out again and there was no bit to be cleared
      subst hc
      have hno : ¬ (keep = true ∨ s.b.play_file = true) := fun hor =>
        ho ⟨keep, by simp, hk, hor⟩
      rw [not_or, Bool.not_eq_true, Bool.not_eq_true] at hno
      simp [PlaySound, startPlay, hno]
    · simp [PlaySound, startPlay, hc]

/-- Neither open can fail and leave the handle and its bit in agreement. -/
theorem PlaySound.not_openFails (hi : PlaySound t.b) (hs : roomStep p s a = some t) :
    ¬ OpenFails s a := by
  intro ho
  unfold OpenFails at ho
  split at ho
  case h_2 => exact ho
  obtain ⟨keep, -, hk, hor⟩ := ho
  cases roomStep_play hs with
  | keep _ hno _ => exact hno keep hk
  | close _ hno _ => exact hno keep hk
  | «open» _ _ keep' hk' ht =>
    obtain rfl : keep' = keep := by simpa [hk'] using hk
    rw [playSound_of_playing ht] at hi
    obtain rfl | hbit := hor
    · simp [PlaySound, startPlay] at hi
    · cases keep' <;> simp [PlaySound, startPlay, hbit] at hi

theorem PlaySound.usesOpenHandle (hi : PlaySound s.b) : UsesOpenHandle s a := by
  intro k _ hne _
  cases hfh : s.b.play_fh with
  | null => exact absurd hfh hne
  | failed => exact absurd hfh hi.1
  | opened => rfl

/-- The handle and its bit agree in every state and only open handles are read and
closed, exactly when `switch_core_file_open` fails neither for the API command nor for an
announcement that replaces a file being played. -/
theorem play_handle_sound_iff (hr : Run (roomStep p) Room.init h s) :
    AllAlong (fun _ s => PlaySound s.b) h s ∧ Meets UsesOpenHandle h ↔
      Meets (fun s a => ¬ OpenFails s a) h := by
  constructor
  · rintro ⟨hall, -⟩
    exact hr.meets_of_allAlong (fun _ _ _ _ _ hs hi' => hi'.not_openFails hs) hall
  · intro hopen
    exact ⟨hr.allAlong (I := fun _ s => PlaySound s.b) (fun _ _ _ _ hi ho hs => hi.step ho hs)
        (fun _ _ => id) hopen PlaySound.init,
      hr.meets_of_invariant (I := fun s => PlaySound s.b) (fun _ _ _ hi ho hs => hi.step ho hs)
        (fun _ _ _ hi _ _ => hi.usesOpenHandle) hopen PlaySound.init⟩

/-- A file that the API command opens and the producer reads to its end. -/
theorem play_handle_sound_iff_eof : ∃ h s, Run (roomStep ⟨8, true, 16, false, false⟩) Room.init h s ∧
    s.b.play_fh = .null ∧ s.producer = .snapshot false ∧
      AllAlong (fun _ s => PlaySound s.b) h s ∧ Meets UsesOpenHandle h := by
  obtain ⟨h, s, hr, hm, hv⟩ := exists_run_observing (roomStep ⟨8, true, 16, false, false⟩)
    (fun s a => decide (¬ OpenFails s a)) Room.init
    (List.flatten [[.call 1 .play], List.replicate 2 (.api 1 .ok), List.replicate 9 (.producer .ok),
      [.producer .fail]])
    (fun _ s => (s.b.play_fh, s.producer)) (v := (.null, .snapshot false)) (by decide)
  obtain ⟨hfh, hpc⟩ := Prod.mk.inj hv
  exact ⟨h, s, hr, hfh, hpc, (play_handle_sound_iff hr).mpr
    (hm.mono fun _ _ ho => of_decide_eq_true ho)⟩

/-- The API command leaves the handle that it could not open. -/
theorem failed_handle_stays : ¬ ∀ (h : List (Room × RoomAction)) (s : Room),
    Run (roomStep ⟨8, true, 16, false, false⟩) Room.init h s →
      AllAlong (fun _ s => PlaySound s.b) h s ∧ Meets UsesOpenHandle h := by
  refine not_forall_run (fun _ _ => true) [.call 1 .play, .api 1 .ok, .api 1 .fail]
    (fun _ s => s.b.play_fh) (v := .failed) (by decide) ?_
  intro h s _ _ hv hall
  exact hall.1.last.1 hv

end ModBroadcast
