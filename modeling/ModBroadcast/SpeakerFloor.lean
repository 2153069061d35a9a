import ModBroadcast.RoomSlot

namespace ModBroadcast

open Automaton

variable {p : RoomProfile} {b b' : Broadcast} {c : Choice} {m n : ℕ} {s t : Room} {a : RoomAction}
  {h : List (Room × RoomAction)}

def SessionPc.Leaving : SessionPc → Prop
  | .wait _ | .lower | .exitVariables | .clear _ | .cleanup | .release => True
  | _ => False

def SessionPc.ClearsSlot : SessionPc → Prop
  | .wait (.clear .install) => True
  | _ => False

instance : DecidablePred SessionPc.ClearsSlot := fun pc => by
  unfold SessionPc.ClearsSlot
  split <;> infer_instance

/-- A session that leaves removes nobody else from the slot and changes no other
member, whose input thread runs on. -/
def EvictsNobody (p : RoomProfile) (s : Room) (a : RoomAction) : Prop :=
  ∀ m c t, a = .session m c → (s.session m).Leaving → roomStep p s a = some t → ∀ n, n ≠ m →
    (s.b.current_speaker = some n → t.b.current_speaker = some n) ∧ t.b.member n = s.b.member n

/-- Nobody publishes itself while another session stands between its test of the slot
and the clearing. -/
def NoPublicationBeforeClear (s : Room) (a : RoomAction) : Prop :=
  ∀ m, s.Publishes a m → ∀ n, n ≠ m → ¬ (s.session n).ClearsSlot

def SessionPc.OwnSlot (b : Broadcast) (m : ℕ) : SessionPc → Prop
  | .wait (.clear k) =>
    match k with
    | .install => ∀ n, b.current_speaker = some n → n = m
    | .fire old => old = some m
    | .stop old _ | .since old => old = m
    | _ => True
  | _ => True

theorem modify_other {f : Member → Member} (hn : n ≠ m) :
    (b.modify m f).member n = b.member n := by
  simp [Broadcast.modify, hn]

theorem speakerStopInput_other {k : StopInputPc} {x : Broadcast × Progress StopInputPc}
    (h : speakerStopInput b m k = some x) (hn : n ≠ m) : x.1.member n = b.member n := by
  cases k <;> simp only [speakerStopInput] at h <;> (try split_ifs at h) <;>
    obtain rfl := Option.some.inj h <;> simp [modify_other hn]

theorem dispatchControl_other (act : ControlAction) (hn : n ≠ m) :
    (dispatchControl p b m act).member n = b.member n := by
  cases act with
  | hangup | leave =>
    simp [dispatchControl, Broadcast.hangup, Broadcast.modifyFlags, modify_other hn]
  | muteToggle =>
    simp only [dispatchControl, Broadcast.modifyFlags]
    split_ifs
    · exact modify_other hn
    · rfl
  | requestSpeaker | event => exact congrFun (enqueueEvent_member ..) n
  | _ => rfl

/-- The unconditional clearing, when the slot holds the own member or nobody. -/
theorem setSpeaker_clears {k : SetSpeakerPc} {x : Broadcast × Progress SetSpeakerPc}
    (h : setSpeaker b none c k = some x) (ho : (SessionPc.wait (.clear k)).OwnSlot b m) :
    (∀ k', x.2 = .run k' → (SessionPc.wait (.clear k')).OwnSlot x.1 m) ∧
      ∀ n, n ≠ m → (b.current_speaker = some n → x.1.current_speaker = some n) ∧
        x.1.member n = b.member n := by
  cases k with
  | guard | audio | role | start => cases h
  | install =>
    obtain ⟨-, ⟨hc, rfl⟩ | ⟨hc, rfl⟩⟩ := setSpeaker_install h
    · exact ⟨fun k' hk' => (by cases hk'), fun n _ => ⟨id, rfl⟩⟩
    · refine ⟨fun k' hk' => ?_, fun n hn => ⟨fun hcn => absurd (ho n hcn) hn, rfl⟩⟩
      cases hk'
      -- the pointer replaced is the session's own
      obtain ⟨n, hcn⟩ := Option.ne_none_iff_exists'.mp hc
      exact hcn.trans (congrArg some (ho n hcn))
  | fire old =>
    obtain rfl : old = some m := ho
    obtain rfl := Option.some.inj h
    refine ⟨fun k' hk' => ?_, fun n _ => ⟨id, rfl⟩⟩
    cases hk'
    rfl
  | stop old k =>
    obtain rfl : old = m := ho
    obtain ⟨y, hy, rfl⟩ := Option.map_eq_some_iff.mp h
    refine ⟨fun k' hk' => ?_, fun n hn => ⟨fun hc => ?_, speakerStopInput_other hy hn⟩⟩
    · obtain ⟨y₁, k₁ | ok⟩ := y <;> cases hk' <;> rfl
    · exact (congrArg Prod.fst (slot_of_apart (apart_of_listed (speakerStopInput_listed hy)))).trans hc
  | since old =>
    obtain rfl : old = m := ho
    obtain rfl := Option.some.inj h
    exact ⟨fun k' hk' => (by cases hk'), fun n hn => ⟨id, by simp [modify_other hn]⟩⟩

theorem speakerMainWait_other {k : MainWaitPc} {x : Broadcast × Progress MainWaitPc}
    (h : speakerMainWait p b m c k = some x) (ho : (SessionPc.wait k).OwnSlot b m) :
    (∀ k', x.2 = .run k' → (SessionPc.wait k').OwnSlot x.1 m) ∧
      ∀ n, n ≠ m → (b.current_speaker = some n → x.1.current_speaker = some n) ∧
        x.1.member n = b.member n := by
  cases k with
  | clear k =>
    obtain ⟨y, hy, rfl⟩ := Option.map_eq_some_iff.mp h
    obtain ⟨hk, hother⟩ := setSpeaker_clears hy ho
    refine ⟨fun k' hk' => ?_, hother⟩
    obtain ⟨y₁, k₁ | ok⟩ := y <;> cases hk'
    · exact hk k₁ rfl
    · trivial
  | dtmf =>
    simp only [speakerMainWait] at h
    split at h
    · split_ifs at h
      obtain rfl := Option.some.inj h
      refine ⟨fun k' hk' => (by cases hk' ; trivial), fun n hn => ⟨fun hc => ?_, ?_⟩⟩
      · exact (congrArg Prod.fst (slot_of_core (dispatchControl_core _))).trans hc
      · exact dispatchControl_other _ hn
    · obtain rfl := Option.some.inj h
      exact ⟨fun k' hk' => (by cases hk' ; trivial), fun n _ => ⟨id, rfl⟩⟩
  | loop =>
    simp only [speakerMainWait] at h
    split_ifs at h <;> obtain rfl := Option.some.inj h <;>
      exact ⟨fun k' hk' => (by cases hk' ; trivial), fun n _ => ⟨id, rfl⟩⟩
  | still | recheck =>
    obtain rfl := Option.some.inj h
    refine ⟨fun k' hk' => ?_, fun n _ => ⟨id, rfl⟩⟩
    split_ifs at hk' with hc <;> cases hk' <;>
      first | trivial | exact fun n hcn => Option.some.inj (hcn.symm.trans hc)
  | enter | leave =>
    obtain rfl := Option.some.inj h
    exact ⟨fun k' hk' => (by cases hk' <;> trivial), fun n hn => ⟨id, by simp [modify_other hn]⟩⟩

/-- A step of the own session, from what it knows about the slot. -/
theorem appFunction_ownSlot {pc pc' : SessionPc} (h : appFunction p b m c pc = some (b', pc'))
    (ho : pc.OwnSlot b m) : pc'.OwnSlot b' m := by
  by_cases hw : ∃ k, pc = .wait k
  · obtain ⟨k, rfl⟩ := hw
    obtain ⟨x, hx, he⟩ := Option.map_eq_some_iff.mp h
    obtain ⟨rfl, rfl⟩ := Prod.mk.inj he
    obtain ⟨x₁, k' | ok⟩ := x
    · exact (speakerMainWait_other hx ho).1 k' rfl
    · trivial
  · cases pc' with
    | wait k' =>
      obtain hk | rfl := (appFunction_next h).waits
      · exact absurd hk hw
      · trivial
    | _ => trivial

theorem appFunction_leaving {pc pc' : SessionPc} (h : appFunction p b m c pc = some (b', pc'))
    (ho : pc.OwnSlot b m) (hl : pc.Leaving) (hn : n ≠ m) :
    (b.current_speaker = some n → b'.current_speaker = some n) ∧ b'.member n = b.member n := by
  cases pc with
  | wait k =>
    obtain ⟨x, hx, he⟩ := Option.map_eq_some_iff.mp h
    obtain ⟨rfl, -⟩ := Prod.mk.inj he
    exact (speakerMainWait_other hx ho).2 n hn
  | lower =>
    obtain ⟨rfl, -⟩ := Prod.mk.inj (Option.some.inj h)
    exact ⟨id, modify_other hn⟩
  | exitVariables | cleanup | release =>
    obtain ⟨rfl, -⟩ := Prod.mk.inj (Option.some.inj h)
    exact ⟨id, rfl⟩
  | clear k =>
    obtain ⟨x, hx, he⟩ := Option.map_eq_some_iff.mp h
    obtain ⟨rfl, -⟩ := Prod.mk.inj he
    cases k with
    | test =>
      simp only [clearSpeakerIfCurrent] at hx
      split_ifs at hx with hr hc <;> obtain rfl := Option.some.inj hx
      · refine ⟨fun hcn => ?_, rfl⟩
        exact absurd (Option.some.inj (hcn.symm.trans hc)) hn
      · exact ⟨id, rfl⟩
    | stop k =>
      obtain ⟨y, hy, h1, -⟩ := clearSpeakerIfCurrent_stop hx
      rw [h1]
      refine ⟨fun hcn => ?_, speakerStopInput_other hy hn⟩
      exact (congrArg Prod.fst (slot_of_apart (apart_of_listed (speakerStopInput_listed hy)))).trans hcn
  | _ => exact absurd hl id

theorem SessionPc.OwnSlot.of_current {pc : SessionPc} (ho : pc.OwnSlot b m)
    (hc : pc.ClearsSlot → ∀ n, b'.current_speaker = some n → b.current_speaker = some n ∨ n = m) :
    pc.OwnSlot b' m := by
  cases pc with
  | wait k =>
    cases k with
    | clear k =>
      cases k with
      | install => exact fun n hn => (hc trivial n hn).elim (ho n) id
      | _ => exact ho
    | _ => trivial
  | _ => trivial

theorem joinSession_ownSlot {j : JoinParams} {pc pc' : SessionPc}
    (h : joinSession p b j pc = some (b', pc')) : pc'.OwnSlot b' m := by
  cases pc with
  | outside =>
    obtain ⟨x, -, he⟩ := Option.map_eq_some_iff.mp h
    obtain ⟨-, rfl⟩ := Prod.mk.inj he
    trivial
  | created =>
    obtain ⟨-, rfl⟩ := Prod.mk.inj (Option.some.inj h)
    split_ifs <;> trivial
  | _ => cases h

def Room.ClearsOwn (s : Room) : Prop := ∀ m, (s.session m).OwnSlot s.b m

theorem Room.ClearsOwn.step (hi : s.ClearsOwn) (hg : NoPublicationBeforeClear s a)
    (hs : roomStep p s a = some t) : t.ClearsOwn := by
  intro m
  rcases roomStep_session hs m with h | ⟨c, -, h⟩ | ⟨j, -, h⟩
  · rw [h]
    refine (hi m).of_current fun hclear n hn => ?_
    -- somebody else in the slot would have been published before the clearing
    refine (roomStep_current hs hn).imp_right fun hpub => ?_
    by_contra hne
    exact hg n hpub m (Ne.symm hne) hclear
  · exact appFunction_ownSlot h (hi m)
  · exact joinSession_ownSlot h

theorem evictsNobody_of_clearsOwn (hi : s.ClearsOwn) : EvictsNobody p s a := by
  rintro m c t rfl hl hs n hn
  obtain ⟨x, hx, rfl⟩ := Option.map_eq_some_iff.mp hs
  exact appFunction_leaving hx (hi m) hl hn

/-- A session that leaves never evicts its successor, as long as nobody publishes
itself between a session's test of the slot and its clearing. -/
theorem leaving_evicts_nobody (hr : Run (roomStep p) Room.init h s)
    (hg : Meets NoPublicationBeforeClear h) : Meets (EvictsNobody p) h :=
  hr.meets_of_invariant (I := Room.ClearsOwn) (fun _ _ _ hi hg hs => hi.step hg hs)
    (fun _ _ _ hi _ _ => evictsNobody_of_clearsOwn hi) hg
    fun m => by by_cases hm : m = 0 <;> simp [Room.init, hm, SessionPc.OwnSlot]

def noPublicationTest (n : ℕ) (s : Room) (a : RoomAction) : Bool :=
  match a with
  | .session m _ => decide (s.session m = .speak false .install ∨ s.session m = .speak true .install →
      ∀ k < n, k ≠ m → ¬ (s.session k).ClearsSlot)
  | _ => true

theorem noPublication_of_test (hm : s.Small n) (ht : noPublicationTest n s a = true) :
    NoPublicationBeforeClear s a := by
  rintro m ⟨c, promoted, rfl, hpc⟩ k hk
  have hlt := of_decide_eq_true ht (by cases promoted <;> simp [hpc])
  exact hm.session (P := fun k pc => k ≠ m → ¬ pc.ClearsSlot) (fun _ _ => id) hlt k hk

/-- The floor passes from one speaker to the next while the first is leaving. -/
theorem leaving_evicts_nobody_override : ∃ (h : List (Room × RoomAction)) (s : Room),
    Run (roomStep ⟨8, true, 16, false, false⟩) Room.init h s ∧ s.session 0 = .returned ∧
      s.b.current_speaker = some 1 ∧ Meets (EvictsNobody ⟨8, true, 16, false, false⟩) h := by
  obtain ⟨h, s, hr, hm, hv⟩ := exists_run_observing (roomStep ⟨8, true, 16, false, false⟩)
    (fun s a => a.within 2 && noPublicationTest 2 s a) Room.init
    (List.flatten [[.join 0 ⟨.speaker, false, false⟩], List.replicate 10 (.session 0 .ok),
      [.join 1 ⟨.speaker, false, false⟩], List.replicate 14 (.session 1 .ok),
      List.replicate 6 (.input 0 .ok), List.replicate 2 (.session 1 .ok),
      List.replicate 11 (.session 0 .ok)])
    (fun _ s => (s.session 0, s.b.current_speaker)) (v := (.returned, some 1)) (by decide)
  obtain ⟨h0, hcur⟩ := Prod.mk.inj hv
  exact ⟨h, s, hr, h0, hcur, leaving_evicts_nobody hr
    (meets_of_test (by decide) hr hm fun _ _ => noPublication_of_test)⟩

/-- A speaker that joins between the test and the clearing is thrown out again. -/
theorem successor_evicted : ¬ ∀ (h : List (Room × RoomAction)) (s : Room),
    Run (roomStep ⟨8, true, 16, false, false⟩) Room.init h s →
      Meets (EvictsNobody ⟨8, true, 16, false, false⟩) h := by
  refine not_forall_run (fun _ _ => true)
    (List.flatten [[.join 0 ⟨.speaker, false, false⟩], List.replicate 10 (.session 0 .ok),
      [.hangup 0], List.replicate 3 (.session 0 .ok), [.join 1 ⟨.speaker, false, false⟩],
      List.replicate 11 (.session 1 .ok), [.session 0 .ok]])
    (fun h s => (h.head?.map fun x => (x.2, x.1.session 0, x.1.b.current_speaker), s.b.current_speaker))
    (v := (some (.session 0 .ok, .wait (.clear .install), some 1), none)) (by decide) ?_
  intro h s hr _ hv hall
  obtain ⟨hlast, hnow⟩ := Prod.mk.inj hv
  cases hr with
  | nil => cases hlast
  | snoc hrun hstep =>
    obtain ⟨ha, hpc, hcur⟩ : _ ∧ _ ∧ _ := by simpa using hlast
    subst ha
    have hev := (meets_cons.mp hall).1 0 .ok s rfl (by rw [hpc]; trivial) hstep 1 (by decide)
    exact nomatch hnow.symm.trans (hev.1 hcur)

/-- The places of a speaker's join between its test of the slot and its installation. -/
def SessionPc.Admitted : SessionPc → Prop
  | .nextId | .running => True
  | .speak false k =>
    match k with
    | .guard | .audio | .role | .start | .install => True
    | _ => False
  | _ => False

instance : DecidablePred SessionPc.Admitted := fun pc => by
  unfold SessionPc.Admitted
  split <;> (try split) <;> infer_instance

/-- The join of a speaker installs itself only where nobody else is, and one that
finds another speaker in the slot is hung up. -/
structure KeepsFloor (p : RoomProfile) (s : Room) (a : RoomAction) : Prop where
  install : ∀ m c t, a = .session m c → s.session m = .speak false .install →
    roomStep p s a = some t → ∀ n, n ≠ m → s.b.current_speaker ≠ some n
  reject : ∀ m c t, a = .session m c → s.session m = .check → roomStep p s a = some t →
    ∀ n, n ≠ m → s.b.current_speaker = some n →
      t.session m = .cleanup ∧ (t.b.member m).ready = false ∧ t.b.current_speaker = some n

/-- Nobody publishes itself while a join of a speaker stands between its test of the
slot and its installation. -/
def NoPublicationWhileJoining (s : Room) (a : RoomAction) : Prop :=
  ∀ m, s.Publishes a m → ∀ n, n ≠ m → ¬ (s.session n).Admitted

def Room.FreeForAdmitted (s : Room) : Prop :=
  ∀ m, (s.session m).Admitted → ∀ n, s.b.current_speaker = some n → n = m

theorem SessionPc.Next.admitted {pc pc' : SessionPc} (hn : pc.Next pc') (ha : pc'.Admitted) :
    pc.Admitted ∨ pc = .check := by
  have hbefore := hn.follows
  cases pc' with
  | nextId => exact .inr hbefore
  | running =>
    obtain rfl : pc = .nextId := hbefore
    exact .inl trivial
  | speak promoted k' =>
    cases promoted with
    | true => exact absurd ha id
    | false =>
      obtain ⟨k, rfl, hk⟩ | ⟨rfl, -⟩ := hbefore
      · cases k' <;> cases k <;> first | exact .inl trivial | exact absurd hk id | exact absurd ha id
      · exact .inl trivial
  | _ => exact absurd ha id

theorem joinSession_not_admitted {j : JoinParams} {pc pc' : SessionPc}
    (h : joinSession p b j pc = some (b', pc')) : ¬ pc'.Admitted := by
  cases pc with
  | outside =>
    obtain ⟨x, -, he⟩ := Option.map_eq_some_iff.mp h
    obtain ⟨-, rfl⟩ := Prod.mk.inj he
    exact id
  | created =>
    obtain ⟨-, rfl⟩ := Prod.mk.inj (Option.some.inj h)
    split_ifs <;> exact id
  | _ => cases h

theorem appFunction_check {pc' : SessionPc} (hp : p.speaker_override = false)
    (h : appFunction p b m c .check = some (b', pc')) :
    (∀ n, b.current_speaker = some n → n = m) ∧ b' = b ∨ pc' = .cleanup ∧ b' = b.hangup m := by
  by_cases hc : b.current_speaker ≠ none ∧ b.current_speaker ≠ some m
  · have htest : b.current_speaker ≠ none ∧ b.current_speaker ≠ some m ∧ ¬ p.speaker_override :=
      ⟨hc.1, hc.2, by simp [hp]⟩
    simp only [appFunction, if_pos htest] at h
    obtain ⟨rfl, rfl⟩ := Prod.mk.inj (Option.some.inj h)
    exact .inr ⟨rfl, rfl⟩
  · have htest : ¬ (b.current_speaker ≠ none ∧ b.current_speaker ≠ some m ∧ ¬ p.speaker_override) :=
      fun h => hc ⟨h.1, h.2.1⟩
    simp only [appFunction, if_neg htest] at h
    obtain ⟨rfl, -⟩ := Prod.mk.inj (Option.some.inj h)
    refine .inl ⟨fun n hn => ?_, rfl⟩
    by_contra hne
    exact hc ⟨by simp [hn], by simp [hn, hne]⟩

theorem Room.FreeForAdmitted.step (hp : p.speaker_override = false) (hi : s.FreeForAdmitted)
    (hg : NoPublicationWhileJoining s a) (hs : roomStep p s a = some t) : t.FreeForAdmitted := by
  intro m ha n hn
  by_contra hne
  have stays : (s.session m).Admitted → False := by
    intro hadm
    rcases roomStep_current hs hn with hcur | hpub
    · exact hne (hi m hadm n hcur)
    · exact hg n hpub m (Ne.symm hne) hadm
  rcases roomStep_session hs m with h | ⟨c, rfl, h⟩ | ⟨j, -, h⟩
  · exact stays (h ▸ ha)
  · rcases (appFunction_next h).admitted ha with hadm | hpc
    · exact stays hadm
    · rw [hpc] at h
      rcases appFunction_check hp h with ⟨hfree, hb⟩ | ⟨hout, -⟩
      · rw [hb] at hn
        exact hne (hfree n hn)
      · rw [hout] at ha
        exact ha
  · exact joinSession_not_admitted h ha

theorem Room.FreeForAdmitted.keepsFloor (hp : p.speaker_override = false)
    (hi : s.FreeForAdmitted) : KeepsFloor p s a where
  install m c t _ hpc _ n hn hcur := hn (hi m (by rw [hpc]; trivial) n hcur)
  reject m c t ha hpc hs n hn hcur := by
    subst ha
    obtain ⟨x, hx, rfl⟩ := Option.map_eq_some_iff.mp hs
    rw [hpc] at hx
    rcases appFunction_check hp hx with ⟨hfree, -⟩ | ⟨hout, hb⟩
    · exact absurd (hfree n hcur) hn
    · rw [hb]
      exact ⟨by simp [hout], by simp [Broadcast.hangup, Broadcast.modify], hcur⟩

theorem Room.FreeForAdmitted.init : Room.init.FreeForAdmitted := by
  intro m _ n hn
  cases hn

/-- With `speaker_override` off the first speaker holds the floor, as long as nobody
publishes itself between a join's test of the slot and its installation: no join
replaces another member, and while one has the floor no other is on its way to it. -/
theorem first_speaker_holds_floor (hp : p.speaker_override = false)
    (hr : Run (roomStep p) Room.init h s) (hg : Meets NoPublicationWhileJoining h) :
    Meets (KeepsFloor p) h ∧
      ∀ m n, n ≠ m → s.b.current_speaker = some m → ¬ (s.session n).Admitted := by
  have hstep : ∀ s a t, Room.FreeForAdmitted s → NoPublicationWhileJoining s a →
      roomStep p s a = some t → t.FreeForAdmitted := fun _ _ _ hi hg hs => hi.step hp hg hs
  constructor
  · exact hr.meets_of_invariant hstep (fun _ _ _ hi _ _ => hi.keepsFloor hp) hg .init
  · intro m n hn hcur hadm
    have hfree : s.FreeForAdmitted := hr.invariant hstep hg .init
    exact hn (hfree n hadm m hcur).symm

def noPublicationWhileJoiningTest (n : ℕ) (s : Room) (a : RoomAction) : Bool :=
  match a with
  | .session m _ => decide (s.session m = .speak false .install ∨ s.session m = .speak true .install →
      ∀ k < n, k ≠ m → ¬ (s.session k).Admitted)
  | _ => true

theorem noPublicationWhileJoining_of_test (hm : s.Small n)
    (ht : noPublicationWhileJoiningTest n s a = true) : NoPublicationWhileJoining s a := by
  rintro m ⟨c, promoted, rfl, hpc⟩ k hk
  have hlt := of_decide_eq_true ht (by cases promoted <;> simp [hpc])
  exact hm.session (P := fun k pc => k ≠ m → ¬ pc.Admitted) (fun _ _ => id) hlt k hk

/-- A second speaker that comes while the first has the floor is hung up. -/
theorem first_speaker_holds_floor_rejected : ∃ (h : List (Room × RoomAction)) (s : Room),
    Run (roomStep ⟨8, false, 16, false, false⟩) Room.init h s ∧ s.session 1 = .returned ∧
      s.b.current_speaker = some 0 ∧ Meets (KeepsFloor ⟨8, false, 16, false, false⟩) h := by
  obtain ⟨h, s, hr, hm, hv⟩ := exists_run_observing (roomStep ⟨8, false, 16, false, false⟩)
    (fun s a => a.within 2 && noPublicationWhileJoiningTest 2 s a) Room.init
    (List.flatten [[.join 0 ⟨.speaker, false, false⟩, .join 1 ⟨.speaker, false, false⟩],
      List.replicate 10 (.session 0 .ok), List.replicate 6 (.session 1 .ok)])
    (fun _ s => (s.session 1, s.b.current_speaker)) (v := (.returned, some 0)) (by decide)
  obtain ⟨h1, hcur⟩ := Prod.mk.inj hv
  exact ⟨h, s, hr, h1, hcur, (first_speaker_holds_floor rfl hr
    (meets_of_test (by decide) hr hm fun _ _ => noPublicationWhileJoining_of_test)).1⟩

/-- Of two speakers that pass their tests together, the second replaces the first. -/
theorem first_speaker_replaced : ¬ ∀ (h : List (Room × RoomAction)) (s : Room),
    Run (roomStep ⟨8, false, 16, false, false⟩) Room.init h s →
      Meets (KeepsFloor ⟨8, false, 16, false, false⟩) h := by
  refine not_forall_run (fun _ _ => true)
    (List.flatten [[.join 0 ⟨.speaker, false, false⟩, .join 1 ⟨.speaker, false, false⟩],
      List.replicate 8 (.session 0 .ok), List.replicate 10 (.session 1 .ok),
      [.session 0 .ok, .session 1 .ok]])
    (fun h s => (h.head?.map fun x => (x.2, x.1.session 1, x.1.b.current_speaker), s.b.current_speaker))
    (v := (some (.session 1 .ok, .speak false .install, some 0), some 1)) (by decide) ?_
  intro h s hr _ hv hall
  obtain ⟨hlast, -⟩ := Prod.mk.inj hv
  cases hr with
  | nil => cases hlast
  | snoc hrun hstep =>
    obtain ⟨ha, hpc, hcur⟩ : _ ∧ _ ∧ _ := by simpa using hlast
    subst ha
    exact (meets_cons.mp hall).1.install 1 .ok s rfl hpc hstep 0 (by decide) hcur

end ModBroadcast
