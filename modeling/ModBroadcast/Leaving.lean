import ModBroadcast.Fades

namespace ModBroadcast

open Automaton

variable {p : RoomProfile} {b b' : Broadcast} {c : Choice} {m n : ℕ} {s t : Room} {a : RoomAction}
  {h : List (Room × RoomAction)}

def RecordStartPc.rank : RecordStartPc → ℕ
  | .start => 5
  | .link _ => 4
  | .create _ => 3
  | .rollback _ | .flag => 2
  | .discard _ | .announce => 1

def StopInputPc.rank : StopInputPc → ℕ
  | .clear => 3
  | .exchange => 2
  | .join => 1

def SetSpeakerPc.rank : SetSpeakerPc → ℕ
  | .guard => 10
  | .audio => 9
  | .role => 8
  | .start => 7
  | .install => 6
  | .fire _ => 5
  | .stop _ k => 1 + k.rank
  | .since _ => 1

def ClearPc.rank : ClearPc → ℕ
  | .test => 4
  | .stop k => k.rank

/-- A wait that is over goes from `loop` to `recheck`. -/
def MainWaitPc.rank : MainWaitPc → ℕ
  | .dtmf => 11
  | .enter | .still => 10
  | .loop => 9
  | .recheck => 8
  | .clear k => 1 + k.rank
  | .leave => 1

def ListenerAddPc.rank : ListenerAddPc → ℕ
  | .destroyed => 5
  | .locked => 4
  | .link => 3
  | .stats => 2
  | .running => 1

/-- A listener whose time is over goes from `loop` and from `check` to `stop`. -/
def ListenerRunPc.rank : ListenerRunPc → ℕ
  | .enter => 5
  | .timer | .dtmf | .tick => 4
  | .loop | .check => 3
  | .stop => 2
  | .leave => 1

def SessionPc.rank : SessionPc → ℕ
  | .outside => 50
  | .created => 49
  | .record _ k => 43 + k.rank
  | .pin _ => 44
  | .recordFailed _ | .accept _ => 43
  | .prepare _ => 42
  | .add k => 36 + k.rank
  | .listen k => 31 + k.rank
  | .decide | .check => 31
  | .clearFlag | .nextId => 30
  | .raise | .running => 29
  | .speak _ k => 18 + k.rank
  | .wait k => 8 + k.rank
  | .lower | .listenerVariables => 8
  | .exitVariables | .unlink => 7
  | .clear k => 2 + k.rank
  | .cleanup => 2
  | .release => 1
  | .returned => 0

theorem RecordStartPc.rank_pos (k : RecordStartPc) : 0 < k.rank := by
  cases k <;> simp only [RecordStartPc.rank] <;> omega

theorem SetSpeakerPc.rank_pos (k : SetSpeakerPc) : 0 < k.rank := by
  cases k <;> simp only [SetSpeakerPc.rank] <;> omega

theorem MainWaitPc.rank_pos (k : MainWaitPc) : 0 < k.rank := by
  cases k <;> simp only [MainWaitPc.rank] <;> omega

theorem ListenerAddPc.rank_pos (k : ListenerAddPc) : 0 < k.rank := by
  cases k <;> simp only [ListenerAddPc.rank] <;> omega

theorem ListenerRunPc.rank_pos (k : ListenerRunPc) : 0 < k.rank := by
  cases k <;> simp only [ListenerRunPc.rank] <;> omega

theorem ClearPc.rank_pos (k : ClearPc) : 0 < k.rank := by
  cases k with
  | test => simp [ClearPc.rank]
  | stop k => cases k <;> simp [ClearPc.rank, StopInputPc.rank]

theorem SessionPc.rank_le (pc : SessionPc) : pc.rank ≤ 50 := by
  cases pc with
  | record _ k => cases k <;> simp [SessionPc.rank, RecordStartPc.rank]
  | add k => cases k <;> simp [SessionPc.rank, ListenerAddPc.rank]
  | listen k => cases k <;> simp [SessionPc.rank, ListenerRunPc.rank]
  | speak _ k =>
    cases k with
    | stop _ k => cases k <;> simp [SessionPc.rank, SetSpeakerPc.rank, StopInputPc.rank]
    | _ => simp [SessionPc.rank, SetSpeakerPc.rank]
  | wait k =>
    cases k with
    | clear k =>
      cases k with
      | stop _ k =>
        cases k <;> simp [SessionPc.rank, MainWaitPc.rank, SetSpeakerPc.rank, StopInputPc.rank]
      | _ => simp [SessionPc.rank, MainWaitPc.rank, SetSpeakerPc.rank]
    | _ => simp [SessionPc.rank, MainWaitPc.rank]
  | clear k =>
    cases k with
    | stop k => cases k <;> simp [SessionPc.rank, ClearPc.rank, StopInputPc.rank]
    | _ => simp [SessionPc.rank, ClearPc.rank]
  | _ => simp [SessionPc.rank]

/-- The channel of `m` is down, or the broadcast is. -/
def Over (b : Broadcast) (m : ℕ) : Prop := (b.member m).ready = false ∨ b.destroyed = true

def SessionPc.dispatchesOn : SessionPc → Choice → Bool
  | .listen .dtmf, .dtmf _ | .wait .dtmf, .dtmf _ => true
  | _, _ => false

theorem recordStart_rank {target : String} {k k' : RecordStartPc}
    (h : (recordStart p b target c k).2 = .run k') : k'.rank < k.rank := by
  cases k <;> simp only [recordStart] at h <;> (try split_ifs at h) <;> cases h <;>
    simp [RecordStartPc.rank]

theorem speakerStopInput_rank {k k' : StopInputPc} {z : Broadcast × Progress StopInputPc}
    (h : speakerStopInput b m k = some z) (hk : z.2 = .run k') : k'.rank < k.rank := by
  cases k <;> simp only [speakerStopInput] at h <;> (try split_ifs at h) <;>
    obtain rfl := Option.some.inj h <;> cases hk <;> simp [StopInputPc.rank]

theorem setSpeaker_rank {new : Option ℕ} {k k' : SetSpeakerPc}
    {z : Broadcast × Progress SetSpeakerPc} (h : setSpeaker b new c k = some z)
    (hk : z.2 = .run k') : k'.rank < k.rank := by
  cases k with
  | guard | audio | role | start =>
    obtain ⟨m, -, rfl⟩ := Option.map_eq_some_iff.mp h
    (try split_ifs at hk) <;> cases hk <;> simp [SetSpeakerPc.rank]
  | install =>
    obtain ⟨-, ⟨-, rfl⟩ | ⟨-, rfl⟩⟩ := setSpeaker_install h <;> cases hk
    simp [SetSpeakerPc.rank]
  | fire old =>
    cases old <;> obtain rfl := Option.some.inj h <;> cases hk
    simp [SetSpeakerPc.rank, StopInputPc.rank]
  | stop old k =>
    obtain ⟨⟨y, k₁ | ok⟩, hy, rfl⟩ := Option.map_eq_some_iff.mp h <;> cases hk
    · have := speakerStopInput_rank hy rfl
      simp only [SetSpeakerPc.rank]
      omega
    · cases k <;> simp [SetSpeakerPc.rank, StopInputPc.rank]
  | since old =>
    obtain rfl := Option.some.inj h
    cases hk

theorem clearSpeakerIfCurrent_rank {k k' : ClearPc} {z : Broadcast × Progress ClearPc}
    (h : clearSpeakerIfCurrent b m k = some z) (hk : z.2 = .run k') : k'.rank < k.rank := by
  cases k with
  | test =>
    simp only [clearSpeakerIfCurrent] at h
    split_ifs at h <;> obtain rfl := Option.some.inj h <;> cases hk
    simp [ClearPc.rank, StopInputPc.rank]
  | stop k =>
    obtain ⟨⟨y, k₁ | ok⟩, hy, rfl⟩ := Option.map_eq_some_iff.mp h <;> cases hk
    exact speakerStopInput_rank hy rfl

theorem speakerMainWait_rank {k k' : MainWaitPc} {z : Broadcast × Progress MainWaitPc}
    (ho : Over b m) (h : speakerMainWait p b m c k = some z) (hk : z.2 = .run k') :
    k'.rank < k.rank ∨ k' = k ∧ (SessionPc.wait k).dispatchesOn c := by
  cases k with
  | dtmf =>
    simp only [speakerMainWait] at h
    split at h
    · split_ifs at h
      obtain rfl := Option.some.inj h
      cases hk
      exact .inr ⟨rfl, rfl⟩
    · obtain rfl := Option.some.inj h
      cases hk
      exact .inl (by simp [MainWaitPc.rank])
  | loop =>
    -- the loop is left when the channel is down or the broadcast is
    have hend : ¬ ((b.member m).mflags.running = true ∧ (b.member m).ready = true ∧
        ¬ b.destroyed = true) := by
      rintro ⟨-, hr, hd⟩
      rcases ho with ho | ho
      · simp [ho] at hr
      · exact hd ho
    simp only [speakerMainWait, if_neg hend] at h
    obtain rfl := Option.some.inj h
    cases hk
    exact .inl (by simp [MainWaitPc.rank])
  | clear k =>
    obtain ⟨⟨y, k₁ | ok⟩, hy, rfl⟩ := Option.map_eq_some_iff.mp h <;> cases hk <;> left
    · have := setSpeaker_rank hy rfl
      simp only [MainWaitPc.rank]
      omega
    · have := k.rank_pos
      simp only [MainWaitPc.rank]
      omega
  | enter | still | recheck | leave =>
    obtain rfl := Option.some.inj h
    dsimp only at hk
    (try split_ifs at hk) <;> cases hk <;> exact .inl (by simp [MainWaitPc.rank, SetSpeakerPc.first,
      SetSpeakerPc.rank])

theorem listenerAdd_rank {k k' : ListenerAddPc} (hk : (listenerAdd p b m k).2 = .run k') :
    k'.rank < k.rank := by
  cases k <;> simp only [listenerAdd] at hk <;> (try split_ifs at hk) <;> cases hk <;>
    simp [ListenerAddPc.rank]

theorem listenerRun_rank {k k' : ListenerRunPc} (ho : Over b m)
    (hk : (listenerRun p b m c k).2 = .run k') :
    k'.rank < k.rank ∨ k' = k ∧ (SessionPc.listen k).dispatchesOn c := by
  have hend : ¬ ((b.member m).ready = true ∧ ¬ b.destroyed = true) := by
    rintro ⟨hr, hd⟩
    rcases ho with ho | ho
    · simp [ho] at hr
    · exact hd ho
  cases k with
  | dtmf =>
    simp only [listenerRun] at hk
    split at hk <;> cases hk
    · exact .inr ⟨rfl, rfl⟩
    · exact .inl (by simp [ListenerRunPc.rank])
  | loop =>
    have hloop : ¬ ((b.member m).mflags.running = true ∧ (b.member m).ready = true ∧
        ¬ b.destroyed = true ∧ c ≠ .fail) := fun h => hend ⟨h.2.1, h.2.2.1⟩
    simp only [listenerRun, if_neg hloop] at hk
    cases hk
    exact .inl (by simp [ListenerRunPc.rank])
  | check =>
    have hcheck : (b.member m).mflags.kicked = true ∨ ¬ (b.member m).mflags.running = true ∨
        b.destroyed = true ∨ ¬ (b.member m).ready = true := by
      rcases ho with ho | ho
      · exact .inr (.inr (.inr (by simp [ho])))
      · exact .inr (.inr (.inl ho))
    simp only [listenerRun, if_pos hcheck] at hk
    cases hk
    exact .inl (by simp [ListenerRunPc.rank])
  | tick =>
    simp only [listenerRun] at hk
    split at hk <;> cases hk <;> exact .inl (by simp [ListenerRunPc.rank])
  | timer =>
    simp only [listenerRun] at hk
    split_ifs at hk
    cases hk
    exact .inl (by simp [ListenerRunPc.rank])
  | enter | stop | leave =>
    simp only [listenerRun] at hk
    cases hk
    all_goals exact .inl (by simp [ListenerRunPc.rank])

theorem appFunction_rank {pc pc' : SessionPc} (ho : Over b m)
    (h : appFunction p b m c pc = some (b', pc')) :
    pc'.rank < pc.rank ∨ pc' = pc ∧ pc.dispatchesOn c := by
  cases pc with
  | outside | created | returned => cases h
  | record j k =>
    obtain ⟨-, rfl⟩ := Prod.mk.inj (Option.some.inj h)
    rcases hk : (recordStart p b "record-template" c k).2 with k' | ok
    · have := recordStart_rank hk
      exact .inl (by simp only [Progress.resume, SessionPc.rank]; omega)
    · have := k.rank_pos
      simp only [Progress.resume]
      cases ok <;> exact .inl (by simp [SessionPc.rank]; omega)
  | speak promoted k =>
    obtain ⟨⟨y, k' | ok⟩, hy, he⟩ := Option.map_eq_some_iff.mp h <;>
      obtain ⟨-, rfl⟩ := Prod.mk.inj he
    · have := setSpeaker_rank hy rfl
      exact .inl (by simp only [Progress.resume, SessionPc.rank]; omega)
    · have := k.rank_pos
      simp only [Progress.resume]
      split_ifs <;> exact .inl (by simp [SessionPc.rank, MainWaitPc.rank]; try omega)
  | wait k =>
    obtain ⟨⟨y, k' | ok⟩, hy, he⟩ := Option.map_eq_some_iff.mp h <;>
      obtain ⟨-, rfl⟩ := Prod.mk.inj he
    · rcases speakerMainWait_rank ho hy rfl with hlt | ⟨rfl, hd⟩
      · exact .inl (by simp only [Progress.resume, SessionPc.rank]; omega)
      · exact .inr ⟨rfl, hd⟩
    · have := k.rank_pos
      exact .inl (by simp only [Progress.resume, SessionPc.rank]; omega)
  | add k =>
    simp only [appFunction] at h
    have := k.rank_pos
    split at h <;> obtain ⟨-, rfl⟩ := Prod.mk.inj (Option.some.inj h) <;> left
    · have := listenerAdd_rank ‹_›
      simp only [SessionPc.rank]
      omega
    · simp only [SessionPc.rank, ListenerRunPc.rank]
      omega
    · simp only [SessionPc.rank]
      omega
  | listen k =>
    obtain ⟨-, rfl⟩ := Prod.mk.inj (Option.some.inj h)
    rcases hk : (listenerRun p b m c k).2 with k' | ok
    · rcases listenerRun_rank ho hk with hlt | ⟨rfl, hd⟩
      · exact .inl (by simp only [Progress.resume, SessionPc.rank]; omega)
      · exact .inr ⟨rfl, hd⟩
    · have := k.rank_pos
      exact .inl (by simp only [Progress.resume, SessionPc.rank]; omega)
  | clear k =>
    obtain ⟨⟨y, k' | ok⟩, hy, he⟩ := Option.map_eq_some_iff.mp h <;>
      obtain ⟨-, rfl⟩ := Prod.mk.inj he
    · have := clearSpeakerIfCurrent_rank hy rfl
      exact .inl (by simp only [Progress.resume, SessionPc.rank]; omega)
    · have := k.rank_pos
      exact .inl (by simp only [Progress.resume, SessionPc.rank]; omega)
  | decide =>
    obtain ⟨-, rfl⟩ := Prod.mk.inj (Option.some.inj h)
    split_ifs <;> exact .inl (by simp [SessionPc.rank])
  | accept j | prepare j | check =>
    simp only [appFunction] at h
    split_ifs at h <;> obtain ⟨-, rfl⟩ := Prod.mk.inj (Option.some.inj h) <;>
      exact .inl (by simp [SessionPc.rank, ListenerAddPc.rank])
  | _ =>
    obtain ⟨-, rfl⟩ := Prod.mk.inj (Option.some.inj h)
    exact .inl (by simp [SessionPc.rank, SetSpeakerPc.rank, ClearPc.rank])

theorem joinSession_rank {j : JoinParams} {pc pc' : SessionPc}
    (h : joinSession p b j pc = some (b', pc')) : pc'.rank < pc.rank := by
  cases pc with
  | outside =>
    obtain ⟨y, -, he⟩ := Option.map_eq_some_iff.mp h
    obtain ⟨-, rfl⟩ := Prod.mk.inj he
    simp [SessionPc.rank]
  | created =>
    obtain ⟨-, rfl⟩ := Prod.mk.inj (Option.some.inj h)
    split_ifs <;> simp [SessionPc.rank, RecordStartPc.rank]
  | _ => cases h

/-- A step of the session of `m` that does not handle a digit. -/
def Room.ownStep (m : ℕ) (s : Room) : RoomAction → Bool
  | .join n _ => n = m
  | .session n c => n = m && !(s.session m).dispatchesOn c
  | _ => false

theorem Over.step (ho : Over s.b m) (hs : roomStep p s a = some t) : Over t.b m := by
  have hf := roomStep_fades hs
  rcases ho with hr | hd
  · exact .inl (Bool.eq_false_iff.mpr fun ht => by simp [hf.ready m ht] at hr)
  · exact .inr (hf.destroyed hd)

theorem over_of_hangup (hs : roomStep p s (.hangup m) = some t) : Over t.b m := by
  obtain rfl := Option.some.inj hs
  exact .inl (by simp [Broadcast.hangup, Broadcast.modify])

theorem roomStep_rank (ho : Over s.b m) (hs : roomStep p s a = some t) :
    (t.session m).rank + (if s.ownStep m a then 1 else 0) ≤ (s.session m).rank := by
  by_cases hown : a.thread = some (.session m)
  · cases a with
    | join n j =>
      obtain rfl : n = m := Thread.session.inj (Option.some.inj hown)
      obtain ⟨x, hx, rfl⟩ := Option.map_eq_some_iff.mp hs
      have := joinSession_rank hx
      simp only [Room.ownStep, Function.update_self, decide_true, if_true]
      omega
    | session n c =>
      obtain rfl : n = m := Thread.session.inj (Option.some.inj hown)
      obtain ⟨x, hx, rfl⟩ := Option.map_eq_some_iff.mp hs
      simp only [Room.ownStep, Function.update_self, decide_true, Bool.true_and]
      rcases appFunction_rank ho hx with hlt | ⟨heq, hd⟩
      · split_ifs <;> omega
      · simp [heq, hd]
    | call u k | shutdown u | api u c => cases Option.some.inj hown
    | _ => cases hown
  · -- the session of `m` stays where it is
    have hplace : t.session m = s.session m := by
      cases roomStep_move hs with
      | thread ha _ _ ho _ =>
        exact (Place.session.inj (ho (.session m) fun h => hown (h ▸ ha))).2
      | background _ _ hpl => exact (Place.session.inj (congrFun hpl (.session m))).2
    have hstep : s.ownStep m a = false := by
      cases a with
      | join n j | session n c =>
        have hnm : n ≠ m := fun h => hown (h ▸ rfl)
        simp [Room.ownStep, hnm]
      | _ => rfl
    simp [hplace, hstep]

/-- Once the channel of a member is down, or the broadcast is, its call takes at most fifty more
steps of its own, not counting the digits it may still have to handle, whatever the other threads
do meanwhile. -/
theorem leaves_within (hr : Run (roomStep p) s h t) (ho : Over s.b m) :
    h.countP (fun x => x.1.ownStep m x.2) + (t.session m).rank ≤ 50 := by
  have hle := hr.count_le (fun s => (s.session m).rank) (P := Room.ownStep m)
    (fun _ _ _ ho hs => ⟨Over.step ho hs, roomStep_rank ho hs⟩) ho
  have := (s.session m).rank_le
  omega

/-- A listener that is hung up between two digits. -/
theorem leaves_within_digits : ∃ (h' : List (Room × RoomAction)) (s t u : Room)
    (h : List (Room × RoomAction)), Run (roomStep ⟨8, true, 16, false, false⟩) Room.init h' s ∧
      roomStep ⟨8, true, 16, false, false⟩ s (.hangup 0) = some t ∧
      Run (roomStep ⟨8, true, 16, false, false⟩) t h u ∧ h.length = 12 ∧ u.session 0 = .returned ∧
      h.countP (fun x => x.1.ownStep 0 x.2) + 0 ≤ 50 := by
  obtain ⟨h', s, t, h, u, hr', hs, hr, -, hv⟩ := exists_runs_observing
    (roomStep ⟨8, true, 16, false, false⟩) (fun _ _ => true) Room.init
    (.join 0 ⟨.listener, false, false⟩ :: List.replicate 9 (.session 0 .ok)) (.hangup 0)
    ([.session 0 (.dtmf .requestSpeaker), .session 0 (.dtmf .leave)] ++
      List.replicate 10 (.session 0 .ok))
    (fun _ h u => (h.length, u.session 0)) (v := (12, .returned)) (by decide)
  obtain ⟨hlen, hret⟩ := Prod.mk.inj hv
  refine ⟨h', s, t, u, h, hr', hs, hr, hlen, hret, ?_⟩
  have hle := leaves_within hr (over_of_hangup hs)
  rwa [hret] at hle

end ModBroadcast
