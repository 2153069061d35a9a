import ModBroadcast.Frames

namespace ModBroadcast

open Automaton

variable {p : RoomProfile} {b b' : Broadcast} {c : Choice} {m n : ℕ}

def SetSpeakerPc.Next : SetSpeakerPc → SetSpeakerPc → Prop
  | .guard, .audio | .audio, .role | .role, .start | .start, .install | .install, .fire _
  | .fire _, .stop _ .clear | .stop _ _, .stop _ _ | .stop _ _, .since _ => True
  | _, _ => False

def SessionPc.Next : SessionPc → SessionPc → Prop
  | .record j _, pc => (∃ k, pc = .record j k) ∨ pc = .prepare j ∨ pc = .recordFailed j
  | .recordFailed j, pc => pc = .prepare j
  | .pin j, pc => pc = .accept j
  | .accept j, pc => pc = .release ∨ pc = .prepare j
  | .prepare _, pc => pc = .release ∨ pc = .check ∨ pc = .add .destroyed
  | .check, pc => pc = .cleanup ∨ pc = .nextId
  | .nextId, pc => pc = .running
  | .running, pc => pc = .speak false .guard
  | .speak promoted k, pc => (∃ k', pc = .speak promoted k' ∧ k.Next k') ∨ pc = .wait .enter ∨
      (k = .guard ∨ k = .audio ∨ k = .start) ∧ pc = if promoted then .lower else .cleanup
  | .wait _, pc => (∃ k, pc = .wait k) ∨ pc = .lower
  | .lower, pc => pc = .exitVariables
  | .exitVariables, pc => pc = .clear .test
  | .add k, pc =>
    match k with
    | .destroyed => pc = .add .locked ∨ pc = .cleanup
    | .locked => pc = .add .link ∨ pc = .cleanup
    | .link => pc = .add .stats ∨ pc = .cleanup
    | .stats => pc = .add .running
    | .running => pc = .listen .enter
  | .listen _, pc => (∃ k, pc = .listen k) ∨ pc = .decide
  | .decide, pc => pc = .clearFlag ∨ pc = .listenerVariables
  | .clearFlag, pc => pc = .raise
  | .raise, pc => pc = .speak true .guard
  | .listenerVariables, pc => pc = .unlink
  | .unlink, pc => pc = .clear .test
  | .clear _, pc => (∃ k, pc = .clear (.stop k)) ∨ pc = .cleanup
  | .cleanup, pc => pc = .release
  | .release, pc => pc = .returned
  | _, _ => False

/-- What comes before a place inside a function that it calls, and before the places with one
way to them. -/
def SessionPc.Follows (pc : SessionPc) : SessionPc → Prop
  | .outside | .created | .pin _ => False
  | .record .. => ∃ j k, pc = .record j k
  | .nextId => pc = .check
  | .running => pc = .nextId
  | .add .link => pc = .add .locked
  | .speak promoted k => (∃ k', pc = .speak promoted k' ∧ k'.Next k) ∨
      pc = (if promoted then .raise else .running) ∧ k = .guard
  | .wait k => (∃ k', pc = .wait k') ∨ (∃ promoted k', pc = .speak promoted k') ∧ k = .enter
  | .listen k => (∃ k', pc = .listen k') ∨ pc = .add .running ∧ k = .enter
  | .clear k => (∃ k', pc = .clear k') ∨ (pc = .exitVariables ∨ pc = .unlink) ∧ k = .test
  | .returned => pc = .release
  | _ => True

theorem SessionPc.Next.follows {pc pc' : SessionPc} (hn : pc.Next pc') : pc.Follows pc' := by
  cases pc with
  | outside | created | returned => exact hn.elim
  | record j k =>
    rcases hn with ⟨k', rfl⟩ | rfl | rfl
    · exact ⟨j, k, rfl⟩
    · trivial
    · trivial
  | prepare => rcases hn with rfl | rfl | rfl <;> trivial
  | accept | decide => rcases hn with rfl | rfl <;> trivial
  | check =>
    rcases hn with rfl | rfl
    · trivial
    · rfl
  | speak promoted k =>
    rcases hn with ⟨k', rfl, hk⟩ | rfl | ⟨-, rfl⟩
    · exact .inl ⟨k, rfl, hk⟩
    · exact .inr ⟨⟨promoted, k, rfl⟩, rfl⟩
    · cases promoted <;> trivial
  | wait k =>
    rcases hn with ⟨k', rfl⟩ | rfl
    · exact .inl ⟨k, rfl⟩
    · trivial
  | listen k =>
    rcases hn with ⟨k', rfl⟩ | rfl
    · exact .inl ⟨k, rfl⟩
    · trivial
  | clear k =>
    rcases hn with ⟨k', rfl⟩ | rfl
    · exact .inl ⟨k, rfl⟩
    · trivial
  | add k =>
    cases k with
    | destroyed | link => rcases hn with rfl | rfl <;> trivial
    | locked =>
      rcases hn with rfl | rfl
      · rfl
      · trivial
    | stats =>
      obtain rfl := hn
      trivial
    | running =>
      obtain rfl := hn
      exact .inr ⟨rfl, rfl⟩
  | running | raise =>
    obtain rfl := hn
    exact .inr ⟨rfl, rfl⟩
  | exitVariables =>
    obtain rfl := hn
    exact .inr ⟨.inl rfl, rfl⟩
  | unlink =>
    obtain rfl := hn
    exact .inr ⟨.inr rfl, rfl⟩
  | nextId | release =>
    obtain rfl := hn
    rfl
  | _ =>
    obtain rfl := hn
    trivial
theorem setSpeaker_next {new : Option ℕ} {k : SetSpeakerPc}
    {x : Broadcast × Progress SetSpeakerPc} (h : setSpeaker b new c k = some x) :
    (∃ k', k.Next k' ∧ x.2 = .run k') ∨ x.2 = .ret true ∨
      (k = .guard ∨ k = .audio ∨ k = .start) ∧ x.2 = .ret false := by
  cases k with
  | guard | audio | role | start =>
    obtain ⟨m, -, rfl⟩ := Option.map_eq_some_iff.mp h
    (try split_ifs) <;> simp [SetSpeakerPc.Next]
  | install =>
    obtain ⟨-, ⟨-, rfl⟩ | ⟨-, rfl⟩⟩ := setSpeaker_install h
    · exact .inr (.inl rfl)
    · exact .inl ⟨.fire _, trivial, rfl⟩
  | fire old =>
    cases old with
    | none =>
      obtain rfl := Option.some.inj h
      exact .inr (.inl rfl)
    | some o =>
      obtain rfl := Option.some.inj h
      exact .inl ⟨.stop o .clear, trivial, rfl⟩
  | stop old k =>
    obtain ⟨y, -, rfl⟩ := Option.map_eq_some_iff.mp h
    obtain ⟨y₁, k' | ok⟩ := y
    · exact .inl ⟨.stop old k', trivial, rfl⟩
    · exact .inl ⟨.since old, trivial, rfl⟩
  | since old =>
    obtain rfl := Option.some.inj h
    exact .inr (.inl rfl)

/-- How a session comes to the clearing of the slot and goes on in it. -/
theorem speakerMainWait_clear {k : MainWaitPc} {k' : SetSpeakerPc}
    {x : Broadcast × Progress MainWaitPc} (h : speakerMainWait p b m c k = some x)
    (hx : x.2 = .run (.clear k')) : k = .recheck ∧ k' = .install ∨
      ∃ k₀, k = .clear k₀ ∧ setSpeaker b none c k₀ = some (x.1, .run k') := by
  cases k with
  | clear k₀ =>
    obtain ⟨⟨y, k₁ | ok⟩, hy, rfl⟩ := Option.map_eq_some_iff.mp h <;> cases hx
    exact .inr ⟨k₀, rfl, hy⟩
  | recheck =>
    obtain rfl := Option.some.inj h
    dsimp only at hx
    split_ifs at hx <;> cases hx
    exact .inl ⟨rfl, rfl⟩
  | enter | leave =>
    obtain rfl := Option.some.inj h
    cases hx
  | still =>
    obtain rfl := Option.some.inj h
    dsimp only at hx
    split_ifs at hx <;> cases hx
  | loop =>
    simp only [speakerMainWait] at h
    split_ifs at h <;> obtain rfl := Option.some.inj h <;> cases hx
  | dtmf =>
    simp only [speakerMainWait] at h
    split at h
    · split_ifs at h
      obtain rfl := Option.some.inj h
      cases hx
    · obtain rfl := Option.some.inj h
      cases hx

theorem appFunction_next {pc pc' : SessionPc} (h : appFunction p b m c pc = some (b', pc')) :
    pc.Next pc' := by
  cases pc with
  | outside | created | returned => cases h
  | record j k =>
    obtain ⟨-, rfl⟩ := Prod.mk.inj (Option.some.inj h)
    rcases (recordStart p b "record-template" c k).2 with k' | (_ | _)
    · exact .inl ⟨k', rfl⟩
    · exact .inr (.inr rfl)
    · exact .inr (.inl rfl)
  | accept | prepare | check =>
    simp only [appFunction] at h
    split_ifs at h <;> obtain ⟨-, rfl⟩ := Prod.mk.inj (Option.some.inj h) <;>
      simp [SessionPc.Next]
  | decide =>
    obtain ⟨-, rfl⟩ := Prod.mk.inj (Option.some.inj h)
    split_ifs <;> simp [SessionPc.Next]
  | speak promoted k =>
    obtain ⟨x, hx, he⟩ := Option.map_eq_some_iff.mp h
    obtain ⟨-, rfl⟩ := Prod.mk.inj he
    rcases setSpeaker_next hx with ⟨k', hk, hr⟩ | hr | ⟨hk, hr⟩ <;> rw [hr]
    · exact .inl ⟨k', rfl, hk⟩
    · exact .inr (.inl rfl)
    · exact .inr (.inr ⟨hk, rfl⟩)
  | wait k =>
    obtain ⟨x, hx, he⟩ := Option.map_eq_some_iff.mp h
    obtain ⟨-, rfl⟩ := Prod.mk.inj he
    rcases x.2 with k' | ok
    · exact .inl ⟨k', rfl⟩
    · exact .inr rfl
  | add k =>
    cases k <;> simp only [appFunction, listenerAdd] at h <;> (try split_ifs at h) <;>
      obtain ⟨-, rfl⟩ := Prod.mk.inj (Option.some.inj h) <;> simp [SessionPc.Next]
  | listen k =>
    obtain ⟨-, rfl⟩ := Prod.mk.inj (Option.some.inj h)
    rcases (listenerRun p b m c k).2 with k' | ok
    · exact .inl ⟨k', rfl⟩
    · exact .inr rfl
  | clear k =>
    obtain ⟨x, hx, he⟩ := Option.map_eq_some_iff.mp h
    obtain ⟨-, rfl⟩ := Prod.mk.inj he
    have hx2 : (∃ k', x.2 = .run (.stop k')) ∨ ∃ ok, x.2 = .ret ok := by
      cases k with
      | test =>
        simp only [clearSpeakerIfCurrent] at hx
        split_ifs at hx <;> obtain rfl := Option.some.inj hx
        · exact .inl ⟨_, rfl⟩
        · exact .inr ⟨_, rfl⟩
      | stop k =>
        obtain ⟨y, -, -, hy⟩ := clearSpeakerIfCurrent_stop hx
        obtain ⟨y₁, k' | ok⟩ := y
        · exact .inl ⟨k', hy⟩
        · exact .inr ⟨ok, hy⟩
    rcases hx2 with ⟨k', hr⟩ | ⟨ok, hr⟩ <;> rw [hr]
    · exact .inl ⟨k', rfl⟩
    · exact .inr rfl
  | _ =>
    obtain ⟨-, rfl⟩ := Prod.mk.inj (Option.some.inj h)
    rfl

theorem SessionPc.Next.waits {pc : SessionPc} {k : MainWaitPc} (hn : pc.Next (.wait k)) :
    (∃ k', pc = .wait k') ∨ k = .enter := by
  obtain hwait | ⟨-, hk⟩ := hn.follows
  · exact .inl hwait
  · exact .inr hk

def DestroyPc.Next : DestroyPc → DestroyPc → Prop
  | .flag, k => k = .grace ∨ k = .mark
  | .grace, k => k = .announce
  | .announce, k => k = .ungrace
  | .ungrace, k => k = .mark
  | .mark, k => k = .stopPlay
  | .stopPlay, k => k = .closeMoh
  | .closeMoh, k => k = .stopRecords .unlink
  | .stopRecords _, k => (∃ k', k' ≠ .unlink ∧ k = .stopRecords k') ∨ k = .slot
  | .slot, k => (∃ old, k = .stop old .clear) ∨ k = .snapshot none
  | .stop old _, k => (∃ k', k = .stop old k') ∨ k = .snapshot (some old)
  | .snapshot old, k => ∃ l, k = .hangup old l
  | .hangup old _, k => (∃ l, k = .hangup old l) ∨ k = .waitCount old
  | .waitCount old, k => k = .refs ∨ ∃ lc, k = .waitSlot old lc
  | .waitSlot old lc, k => ∃ sp, k = .waitOld old lc sp
  | .waitOld old lc _, k => lc = 0 ∧ k = .refs ∨ k = .waitCount old
  | .refs, k => k = .refs ∨ k = .stopProducer
  | .stopProducer, k => k = .joinProducer
  | .joinProducer, k => k = .delete
  | .delete, k => k = .fire
  | .fire, k => k = .pool
  | .pool, _ => False

/-- The walk comes first and once. -/
theorem recordStop_run {target : Option String} {k k' : RecordStopPc}
    (h : recordStop p b target k = some (b', .run k')) : k' ≠ .unlink := by
  cases k with
  | unlink =>
    obtain ⟨w, -, he⟩ := Option.map_eq_some_iff.mp h
    obtain ⟨-, hk⟩ := Prod.mk.inj he
    exact fun hu => by cases (hk.trans (congrArg Progress.run hu) :)
  | next st stopped =>
    cases stopped with
    | none => cases h
    | some r =>
      obtain ⟨-, hk⟩ := Prod.mk.inj (Option.some.inj h)
      exact fun hu => by cases (hk.trans (congrArg Progress.run hu) :)
  | test =>
    obtain ⟨-, hk⟩ := Prod.mk.inj (Option.some.inj h)
    rintro rfl
    split_ifs at hk <;> cases hk
  | join =>
    simp only [recordStop] at h
    split_ifs at h
    obtain ⟨-, hk⟩ := Prod.mk.inj (Option.some.inj h)
    exact fun hu => by cases (hk.trans (congrArg Progress.run hu) :)
  | report | free =>
    obtain ⟨-, hk⟩ := Prod.mk.inj (Option.some.inj h)
    exact fun hu => by cases (hk.trans (congrArg Progress.run hu) :)

theorem destroyRoom_next {grace announcement : Bool} {k : DestroyPc}
    {x : Broadcast × Progress DestroyPc} (h : destroyRoom p grace announcement b c k = some x) :
    k = .pool ∧ x.2 = .ret true ∨ ∃ k', x.2 = .run k' ∧ k.Next k' := by
  cases k with
  | pool =>
    obtain rfl := Option.some.inj h
    exact .inl ⟨rfl, rfl⟩
  | flag =>
    obtain rfl := Option.some.inj h
    refine .inr ⟨_, rfl, ?_⟩
    split_ifs
    · exact .inl rfl
    · exact .inr rfl
  | stopRecords k =>
    obtain ⟨⟨w, k₁ | ok⟩, hw, rfl⟩ := Option.map_eq_some_iff.mp h
    · exact .inr ⟨_, rfl, .inl ⟨_, recordStop_run hw, rfl⟩⟩
    · exact .inr ⟨_, rfl, .inr rfl⟩
  | slot =>
    simp only [destroyRoom] at h
    split_ifs at h
    obtain rfl := Option.some.inj h
    refine .inr ⟨_, rfl, ?_⟩
    split
    · exact .inl ⟨_, rfl⟩
    · exact .inr rfl
  | stop old k =>
    obtain ⟨⟨w, k₁ | ok⟩, hw, rfl⟩ := Option.map_eq_some_iff.mp h
    · exact .inr ⟨_, rfl, .inl ⟨k₁, rfl⟩⟩
    · exact .inr ⟨_, rfl, .inr rfl⟩
  | hangup old l =>
    cases l with
    | nil =>
      obtain rfl := Option.some.inj h
      exact .inr ⟨_, rfl, .inr rfl⟩
    | cons m l =>
      obtain rfl := Option.some.inj h
      exact .inr ⟨_, rfl, .inl ⟨l, rfl⟩⟩
  | waitCount old =>
    simp only [destroyRoom] at h
    split_ifs at h <;> obtain rfl := Option.some.inj h
    · exact .inr ⟨_, rfl, .inl rfl⟩
    · exact .inr ⟨_, rfl, .inr ⟨_, rfl⟩⟩
  | waitOld old lc sp =>
    obtain rfl := Option.some.inj h
    refine .inr ⟨_, rfl, ?_⟩
    split_ifs with hz
    · exact .inl ⟨hz.1, rfl⟩
    · exact .inr rfl
  | refs =>
    obtain rfl := Option.some.inj h
    refine .inr ⟨_, rfl, ?_⟩
    split_ifs
    · exact .inr rfl
    · exact .inl rfl
  | joinProducer | delete =>
    simp only [destroyRoom] at h
    split_ifs at h
    obtain rfl := Option.some.inj h
    exact .inr ⟨_, rfl, rfl⟩
  | snapshot | waitSlot =>
    obtain rfl := Option.some.inj h
    exact .inr ⟨_, rfl, _, rfl⟩
  | _ =>
    obtain rfl := Option.some.inj h
    exact .inr ⟨_, rfl, rfl⟩

/-- A step of an API thread, with what its lookup has found and what the function that it
runs has come to. -/
inductive ApiStep (p : RoomProfile) (b b' : Broadcast) (c : Choice) : ApiPc → ApiPc → Prop
  | pin {k : ApiCommand} : ApiStep p b b' c (.pin k) (.start k)
  | look {k : MemberCommand} {id : ℕ} (hid : id ≠ 0) :
      ApiStep p b b' c (.start (.member k id)) (.find k id)
  | clear : ApiStep p b b' c (.start .clearSpeaker) (.clearSpeaker (.first none))
  | kickAll {l : List ℕ} : ApiStep p b b' c (.start .kickAll) (.kickAll l)
  | flag {f : FlagCommand} : ApiStep p b b' c (.start (.flag f)) (.flagEvent f)
  | startRecord {target : String} : ApiStep p b b' c (.start (.record target)) (.record target .start)
  | stopRecord : ApiStep p b b' c (.start .norecord) (.norecord .unlink)
  | startDestroy {g f : Bool} : ApiStep p b b' c (.start (.destroy g f)) (.destroy g f .flag)
  | find {k : MemberCommand} {id x : ℕ} (h : findListener b id = some x) :
      ApiStep p b b' c (.find k id) (.locate k id x)
  | findNone {k : MemberCommand} {id : ℕ} : ApiStep p b b' c (.find k id) (.findSpeaker k id)
  | findSpeaker {k : MemberCommand} {id x : ℕ} (h : ModBroadcast.findSpeaker b id = some x) :
      ApiStep p b b' c (.findSpeaker k id) (.locate k id x)
  | locate {k : MemberCommand} {id x : ℕ} : ApiStep p b b' c (.locate k id x) (.resolve k id x)
  | resolve {k : MemberCommand} {id x n : ℕ} {pc : ApiPc} (h : findListener b id = some n)
      (hpc : pc = k.begin x n) : ApiStep p b b' c (.resolve k id x) pc
  | resolveNone {k : MemberCommand} {id x : ℕ} :
      ApiStep p b b' c (.resolve k id x) (.resolveSpeaker k id x)
  | resolveSpeaker {k : MemberCommand} {id x n : ℕ} {pc : ApiPc}
      (h : ModBroadcast.findSpeaker b id = some n) (hpc : pc = k.begin x n) :
      ApiStep p b b' c (.resolveSpeaker k id x) pc
  | promote {x n : ℕ} {k k' : PromotionPc} (h : requestPromotion p b n c k = (b', .run k')) :
      ApiStep p b b' c (.promote x n k) (.promote x n k')
  | kick {x n : ℕ} {k k' : KickPc} (h : kickListener p b n c k = (b', .run k')) :
      ApiStep p b b' c (.kick x n k) (.kick x n k')
  | clearSpeaker {k k' : SetSpeakerPc} (h : setSpeaker b none c k = some (b', .run k')) :
      ApiStep p b b' c (.clearSpeaker k) (.clearSpeaker k')
  | kickNext {n : ℕ} {l : List ℕ} : ApiStep p b b' c (.kickAll (n :: l)) (.kickAll l)
  | record {target : String} {k k' : RecordStartPc}
      (h : recordStart p b target c k = (b', .run k')) :
      ApiStep p b b' c (.record target k) (.record target k')
  | norecord {k k' : RecordStopPc} (h : recordStop p b none k = some (b', .run k')) :
      ApiStep p b b' c (.norecord k) (.norecord k')
  | destroy {g f : Bool} {k k' : DestroyPc} (h : destroyRoom p g f b c k = some (b', .run k')) :
      ApiStep p b b' c (.destroy g f k) (.destroy g f k')
  | unpin {pc : ApiPc} {x : ℕ} : ApiStep p b b' c pc (.unpin x)
  | over {pc : ApiPc} (hpc : pc ≠ .release) : ApiStep p b b' c pc .release
  | released : ApiStep p b b' c .release .idle
  | gone {g f : Bool} : ApiStep p b b' c (.destroy g f .pool) .idle

theorem apiDispatch_cases {pc pc' : ApiPc} (h : apiDispatch p b c pc = some (b', pc')) :
    ApiStep p b b' c pc pc' := by
  cases pc with
  | idle => cases h
  | pin k =>
    obtain ⟨-, rfl⟩ := Prod.mk.inj (Option.some.inj h)
    exact .pin
  | start k =>
    obtain ⟨-, rfl⟩ := Prod.mk.inj (Option.some.inj h)
    cases k with
    | member k id =>
      dsimp only
      split_ifs with hid
      · exact .over nofun
      · exact .look hid
    | clearSpeaker => exact .clear
    | kickAll => exact .kickAll
    | flag f => exact .flag
    | record target => exact .startRecord
    | norecord => exact .stopRecord
    | destroy g f => exact .startDestroy
    | info | play | stopPlay => exact .over nofun
  | find k id =>
    obtain ⟨-, rfl⟩ := Prod.mk.inj (Option.some.inj h)
    split
    · exact .find ‹_›
    · exact .findNone
  | findSpeaker k id =>
    obtain ⟨-, rfl⟩ := Prod.mk.inj (Option.some.inj h)
    split
    · exact .findSpeaker ‹_›
    · exact .over nofun
  | locate k id x =>
    obtain ⟨-, rfl⟩ := Prod.mk.inj (Option.some.inj h)
    split_ifs
    · exact .over nofun
    · exact .locate
  | resolve k id x =>
    obtain ⟨-, rfl⟩ := Prod.mk.inj (Option.some.inj h)
    split
    · exact .resolve ‹_› rfl
    · exact .resolveNone
  | resolveSpeaker k id x =>
    obtain ⟨-, rfl⟩ := Prod.mk.inj (Option.some.inj h)
    split
    · exact .resolveSpeaker ‹_› rfl
    · exact .unpin
  | promote x n k =>
    obtain ⟨rfl, rfl⟩ := Prod.mk.inj (Option.some.inj h)
    cases hk : (requestPromotion p b n c k).2 with
    | run k' => exact .promote (Prod.ext rfl hk)
    | ret ok => exact .unpin
  | kick x n k =>
    obtain ⟨rfl, rfl⟩ := Prod.mk.inj (Option.some.inj h)
    cases hk : (kickListener p b n c k).2 with
    | run k' => exact .kick (Prod.ext rfl hk)
    | ret ok => exact .unpin
  | clearSpeaker k =>
    obtain ⟨⟨x, k' | ok⟩, hx, he⟩ := Option.map_eq_some_iff.mp h <;> cases he
    · exact .clearSpeaker hx
    · exact .over nofun
  | kickAll l =>
    cases l <;> obtain ⟨-, rfl⟩ := Prod.mk.inj (Option.some.inj h)
    · exact .over nofun
    · exact .kickNext
  | record target k =>
    obtain ⟨rfl, rfl⟩ := Prod.mk.inj (Option.some.inj h)
    cases hk : (recordStart p b target c k).2 with
    | run k' => exact .record (Prod.ext rfl hk)
    | ret ok => exact .over nofun
  | norecord k =>
    obtain ⟨⟨x, k' | ok⟩, hx, he⟩ := Option.map_eq_some_iff.mp h <;> cases he
    · exact .norecord hx
    · exact .over nofun
  | destroy g f k =>
    obtain ⟨⟨x, k' | ok⟩, hx, he⟩ := Option.map_eq_some_iff.mp h <;> cases he
    · exact .destroy hx
    · obtain ⟨rfl, -⟩ | ⟨k', hk', -⟩ := destroyRoom_next hx
      · exact .gone
      · cases hk'
  | dtmf x n =>
    obtain ⟨-, rfl⟩ := Prod.mk.inj (Option.some.inj h)
    exact .unpin
  | unpin | flagEvent =>
    obtain ⟨-, rfl⟩ := Prod.mk.inj (Option.some.inj h)
    exact .over nofun
  | release =>
    obtain ⟨-, rfl⟩ := Prod.mk.inj (Option.some.inj h)
    exact .released

variable {s t : Room} {a : RoomAction}

/-- A session moves by its own action only. -/
theorem roomStep_session (hs : roomStep p s a = some t) (m : ℕ) : t.session m = s.session m ∨
    (∃ c, a = .session m c ∧ appFunction p s.b m c (s.session m) = some (t.b, t.session m)) ∨
      ∃ j, a = .join m j ∧ joinSession p s.b j (s.session m) = some (t.b, t.session m) := by
  cases a with
  | join n j =>
    obtain ⟨x, hx, rfl⟩ := Option.map_eq_some_iff.mp hs
    by_cases hn : m = n
    · subst hn
      exact .inr (.inr ⟨j, rfl, by simp [hx]⟩)
    · exact .inl (by simp [hn])
  | session n c =>
    obtain ⟨x, hx, rfl⟩ := Option.map_eq_some_iff.mp hs
    by_cases hn : m = n
    · subst hn
      exact .inr (.inl ⟨c, rfl, by simp [hx]⟩)
    · exact .inl (by simp [hn])
  | call u k =>
    simp only [roomStep] at hs
    split_ifs at hs
    obtain ⟨x, -, rfl⟩ := Option.map_eq_some_iff.mp hs
    exact .inl rfl
  | shutdown u =>
    simp only [roomStep] at hs
    split_ifs at hs
    obtain rfl := Option.some.inj hs
    exact .inl rfl
  | hangup | elapse =>
    obtain rfl := Option.some.inj hs
    exact .inl rfl
  | _ =>
    obtain ⟨x, -, rfl⟩ := Option.map_eq_some_iff.mp hs
    exact .inl rfl

theorem roomStep_own (hs : roomStep p s (.session m c) = some t) :
    appFunction p s.b m c (s.session m) = some (t.b, t.session m) := by
  obtain ⟨x, hx, rfl⟩ := Option.map_eq_some_iff.mp hs
  simp [hx]

/-- An API thread moves by its own action only. -/
theorem roomStep_api (hs : roomStep p s a = some t) (u : ℕ) : t.api u = s.api u ∨
    (∃ c, a = .api u c ∧ apiDispatch p s.b c (s.api u) = some (t.b, t.api u)) ∨
      s.api u = .idle ∧ ((∃ k, a = .call u k ∧ t.api u = .pin k) ∨
        a = .shutdown u ∧ t.api u = .destroy false false .flag) := by
  cases a with
  | api v c =>
    obtain ⟨x, hx, rfl⟩ := Option.map_eq_some_iff.mp hs
    by_cases hu : u = v
    · subst hu
      exact .inr (.inl ⟨c, rfl, by simp [hx]⟩)
    · exact .inl (by simp [hu])
  | call v k =>
    simp only [roomStep] at hs
    split_ifs at hs with hv
    obtain ⟨x, -, rfl⟩ := Option.map_eq_some_iff.mp hs
    by_cases hu : u = v
    · subst hu
      exact .inr (.inr ⟨hv, .inl ⟨k, rfl, by simp⟩⟩)
    · exact .inl (by simp [hu])
  | shutdown v =>
    simp only [roomStep] at hs
    split_ifs at hs with hv
    obtain rfl := Option.some.inj hs
    by_cases hu : u = v
    · subst hu
      exact .inr (.inr ⟨hv.1, .inr ⟨rfl, by simp⟩⟩)
    · exact .inl (by simp [hu])
  | hangup | elapse =>
    obtain rfl := Option.some.inj hs
    exact .inl rfl
  | _ =>
    obtain ⟨x, -, rfl⟩ := Option.map_eq_some_iff.mp hs
    exact .inl rfl

theorem roomStep_dispatch {u : ℕ} (hs : roomStep p s (.api u c) = some t) :
    apiDispatch p s.b c (s.api u) = some (t.b, t.api u) ∧ t.session = s.session ∧
      ∀ v, v ≠ u → t.api v = s.api v := by
  obtain ⟨x, hx, rfl⟩ := Option.map_eq_some_iff.mp hs
  exact ⟨by simp [hx], rfl, fun v hv => Function.update_of_ne hv ..⟩

/-- The threads in the background move by their own actions only. -/
theorem roomStep_background (hs : roomStep p s a = some t) :
    ((∀ c, a ≠ .producer c) → t.producer = s.producer) ∧
      (a ≠ .emitter → t.emitter = s.emitter) ∧
      ((∀ c, a ≠ .housekeeping c) → t.housekeeping = s.housekeeping) := by
  cases a with
  | producer c =>
    obtain ⟨x, -, rfl⟩ := Option.map_eq_some_iff.mp hs
    exact ⟨fun ha => absurd rfl (ha c), fun _ => rfl, fun _ => rfl⟩
  | emitter =>
    obtain ⟨x, -, rfl⟩ := Option.map_eq_some_iff.mp hs
    exact ⟨fun _ => rfl, fun ha => absurd rfl ha, fun _ => rfl⟩
  | housekeeping c =>
    obtain ⟨x, -, rfl⟩ := Option.map_eq_some_iff.mp hs
    exact ⟨fun _ => rfl, fun _ => rfl, fun ha => absurd rfl (ha c)⟩
  | call u k =>
    simp only [roomStep] at hs
    split_ifs at hs
    obtain ⟨x, -, rfl⟩ := Option.map_eq_some_iff.mp hs
    exact ⟨fun _ => rfl, fun _ => rfl, fun _ => rfl⟩
  | shutdown u =>
    simp only [roomStep] at hs
    split_ifs at hs
    obtain rfl := Option.some.inj hs
    exact ⟨fun _ => rfl, fun _ => rfl, fun _ => rfl⟩
  | hangup | elapse =>
    obtain rfl := Option.some.inj hs
    exact ⟨fun _ => rfl, fun _ => rfl, fun _ => rfl⟩
  | _ =>
    obtain ⟨x, -, rfl⟩ := Option.map_eq_some_iff.mp hs
    exact ⟨fun _ => rfl, fun _ => rfl, fun _ => rfl⟩

theorem roomStep_producer (hs : roomStep p s a = some t) : t.producer = s.producer ∨
    ∃ c, a = .producer c ∧ producerRun p s.b c s.producer = some (t.b, t.producer) := by
  cases a with
  | producer c =>
    obtain ⟨x, hx, rfl⟩ := Option.map_eq_some_iff.mp hs
    exact .inr ⟨c, rfl, hx⟩
  | _ => exact .inl ((roomStep_background hs).1 fun _ => RoomAction.noConfusion)

/-- Whose step has made `b'` out of the broadcast of `s`, or that it keeps the core. -/
inductive BroadcastStep (p : RoomProfile) (s : Room) (b' : Broadcast) : RoomAction → Prop
  | session {m : ℕ} {c : Choice} {pc' : SessionPc}
      (h : appFunction p s.b m c (s.session m) = some (b', pc')) : BroadcastStep p s b' (.session m c)
  | api {u : ℕ} {c : Choice} {pc' : ApiPc} (h : apiDispatch p s.b c (s.api u) = some (b', pc')) :
      BroadcastStep p s b' (.api u c)
  | shutdown {u : ℕ} (h : b' = { s.b with live_refs := s.b.live_refs + 1 }) :
      BroadcastStep p s b' (.shutdown u)
  | producer {c : Choice} {k' : ProducerPc} (h : producerRun p s.b c s.producer = some (b', k')) :
      BroadcastStep p s b' (.producer c)
  | input {m : ℕ} {c : Choice} {b₁ : Broadcast} {k' : InputPc}
      (h : speakerInput p s.b m c (s.b.member m).input = some (b₁, k'))
      (hb : b' = b₁.modify m fun y => { y with input := k' }) : BroadcastStep p s b' (.input m c)
  | writer {i : ℕ} {c : Choice} (h : recordWriter p s.b i c = some b') :
      BroadcastStep p s b' (.writer i c)
  | quiet {a : RoomAction} (h : b'.core = s.b.core) : BroadcastStep p s b' a

theorem roomStep_broadcast (hs : roomStep p s a = some t) : BroadcastStep p s t.b a := by
  cases a with
  | join m j =>
    obtain ⟨x, hx, rfl⟩ := Option.map_eq_some_iff.mp hs
    exact .quiet (joinSession_core hx)
  | session m c =>
    obtain ⟨x, hx, rfl⟩ := Option.map_eq_some_iff.mp hs
    exact .session hx
  | call u k =>
    simp only [roomStep] at hs
    split_ifs at hs
    obtain ⟨x, hx, rfl⟩ := Option.map_eq_some_iff.mp hs
    refine .quiet ?_
    rw [(findBroadcast_eq hx).2]
    rfl
  | shutdown u =>
    simp only [roomStep] at hs
    split_ifs at hs
    obtain rfl := Option.some.inj hs
    exact .shutdown rfl
  | api u c =>
    obtain ⟨x, hx, rfl⟩ := Option.map_eq_some_iff.mp hs
    exact .api hx
  | producer c =>
    obtain ⟨x, hx, rfl⟩ := Option.map_eq_some_iff.mp hs
    exact .producer hx
  | input m c =>
    obtain ⟨x, hx, rfl⟩ := Option.map_eq_some_iff.mp hs
    exact .input hx rfl
  | writer i c =>
    obtain ⟨x, hx, rfl⟩ := Option.map_eq_some_iff.mp hs
    exact .writer hx
  | emitter =>
    obtain ⟨x, hx, rfl⟩ := Option.map_eq_some_iff.mp hs
    exact .quiet (eventEmitter_core hx)
  | housekeeping c =>
    obtain ⟨x, hx, rfl⟩ := Option.map_eq_some_iff.mp hs
    exact .quiet (runtimeHousekeeping_core hx)
  | hangup m =>
    obtain rfl := Option.some.inj hs
    exact .quiet hangup_core
  | elapse =>
    obtain rfl := Option.some.inj hs
    exact .quiet rfl

def Room.Small (n : ℕ) (s : Room) : Prop := ∀ m, n ≤ m → s.session m = .outside ∧ s.api m = .idle

def RoomAction.within (n : ℕ) : RoomAction → Bool
  | .join m _ => m < n
  | .call u _ | .shutdown u => u < n
  | _ => true

theorem Room.small_init (hn : 0 < n) : Room.init.Small n := by
  intro m hm
  have h0 : m ≠ 0 := by omega
  simp [Room.init, h0]

theorem Room.Small.step (hm : s.Small n) (ha : a.within n = true) (hs : roomStep p s a = some t) :
    t.Small n := by
  intro m hle
  constructor
  · rcases roomStep_session hs m with h | ⟨c, rfl, h⟩ | ⟨j, rfl, h⟩
    · rw [h, (hm m hle).1]
    · rw [(hm m hle).1] at h
      cases h
    · have hlt : m < n := by simpa [RoomAction.within] using ha
      omega
  · rcases roomStep_api hs m with h | ⟨c, rfl, h⟩ | ⟨-, ⟨k, rfl, -⟩ | ⟨rfl, -⟩⟩
    · rw [h, (hm m hle).2]
    · rw [(hm m hle).2] at h
      cases h
    all_goals
      have hlt : m < n := by simpa [RoomAction.within] using ha
      omega

theorem Room.Small.session {P : ℕ → SessionPc → Prop} (hm : s.Small n) (h0 : ∀ m, P m .outside)
    (h : ∀ m < n, P m (s.session m)) (m : ℕ) : P m (s.session m) := by
  by_cases hlt : m < n
  · exact h m hlt
  · rw [(hm m (by omega)).1]
    exact h0 m

theorem Room.Small.api {P : ℕ → ApiPc → Prop} (hm : s.Small n) (h0 : ∀ u, P u .idle)
    (h : ∀ u < n, P u (s.api u)) (u : ℕ) : P u (s.api u) := by
  by_cases hlt : u < n
  · exact h u hlt
  · rw [(hm u (by omega)).2]
    exact h0 u

theorem small_of_test {ok : Room → RoomAction → Bool} (hn : 0 < n) {h : List (Room × RoomAction)}
    {r : Room} (hr : Automaton.Run (roomStep p) Room.init h r)
    (hm : Automaton.Meets (fun s a => (a.within n && ok s a) = true) h) : r.Small n :=
  hr.invariant (fun _ _ _ hs ha hst => hs.step (Bool.and_eq_true_iff.mp ha).1 hst) hm
    (Room.small_init hn)

/-- A guard that follows from a test in small rooms holds on a run that passes the test. -/
theorem meets_of_test {g : Room → RoomAction → Prop} {ok : Room → RoomAction → Bool} (hn : 0 < n)
    {h : List (Room × RoomAction)} {r : Room}
    (hr : Automaton.Run (roomStep p) Room.init h r)
    (hm : Automaton.Meets (fun s a => (a.within n && ok s a) = true) h)
    (hg : ∀ s a, s.Small n → ok s a = true → g s a) : Automaton.Meets g h :=
  hr.meets_of_invariant (I := Room.Small n)
    (fun _ _ _ hs ha hst => hs.step (Bool.and_eq_true_iff.mp ha).1 hst)
    (fun _ _ _ hs ha _ => hg _ _ hs (Bool.and_eq_true_iff.mp ha).2) hm (Room.small_init hn)

end ModBroadcast
