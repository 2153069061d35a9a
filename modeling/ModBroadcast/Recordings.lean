import ModBroadcast.RecordingChains

namespace ModBroadcast

open Automaton

variable {p : RoomProfile} {b b' : Broadcast} {c : Choice} {m r : ℕ} {s t : Room} {a : RoomAction}
  {x y : Place} {h : List (Room × RoomAction)}

def Place.record : Place → Option RecordStartPc
  | .session _ (.record _ k) | .api (.record _ k) => some k
  | _ => none

def Place.recordCall : Place → RecordCall
  | .session _ (.record _ k) => .start "record-template" k
  | .api (.record target k) => .start target k
  | .api (.norecord k) | .api (.destroy _ _ (.stopRecords k)) => .stop none k
  | _ => .idle

theorem record_of_recordCall {target : String} {k : RecordStartPc}
    (h : x.recordCall = .start target k) : x.record = some k := by
  cases x with
  | session m pc =>
    cases pc with
    | record j k' =>
      obtain ⟨-, rfl⟩ := RecordCall.start.inj h
      rfl
    | _ => cases h
  | api pc =>
    cases pc with
    | record target' k' =>
      obtain ⟨-, rfl⟩ := RecordCall.start.inj h
      rfl
    | destroy g f k' => cases k' <;> cases h
    | _ => cases h

/-- What a step of a thread is for the recordings: a step of a call, or none. -/
inductive RecordMove (p : RoomProfile) (b b' : Broadcast) (c : Choice) (x y : Place) : Prop
  | call (h : recordCall p b c x.recordCall = some (b', y.recordCall))
  | quiet (hb : b'.consumers = b.consumers) (hx : x.recordCall = .idle) (hy : y.recordCall.Free)

theorem consumers_of_rest (h : b'.rest = b.rest) : b'.consumers = b.consumers := by
  have ht : b'.rest.consumers = b.rest.consumers := by rw [h]
  exact ht

theorem recordStart_move {target : String} {k : RecordStartPc} (hx : x.recordCall = .start target k)
    (hy : y.recordCall = (recordStart p b target c k).2.resume (.start target) fun _ => .idle) :
    RecordMove p b (recordStart p b target c k).1 c x y := by
  refine .call ?_
  rw [hx, hy]
  rfl

theorem recordStop_move {k : RecordStopPc} {z : Broadcast × Progress RecordStopPc}
    (h : recordStop p b none k = some z) (hx : x.recordCall = .stop none k)
    (hy : y.recordCall = z.2.resume (.stop none) fun _ => .idle) :
    RecordMove p b z.1 c x y := by
  refine .call ?_
  rw [hx, hy]
  exact Option.map_eq_some_iff.mpr ⟨z, h, rfl⟩

theorem destroyRoom_consumers {g f : Bool} {k : DestroyPc} {z : Broadcast × Progress DestroyPc}
    (h : destroyRoom p g f b c k = some z) (hk : ∀ k', k ≠ .stopRecords k') :
    z.1.consumers = b.consumers := by
  by_cases hr : k.Rest
  · cases k with
    | stopRecords k' => exact absurd rfl (hk k')
    | announce =>
      obtain rfl := Option.some.inj h
      dsimp only [startPlay]
      split_ifs <;> rfl
    | delete =>
      simp only [destroyRoom] at h
      split_ifs at h
      obtain rfl := Option.some.inj h
      rfl
    | flag | ungrace | mark | stopPlay | closeMoh | stopProducer | pool =>
      obtain rfl := Option.some.inj h
      rfl
    | _ => exact hr.elim
  · exact consumers_of_rest (destroyRoom_rest h hr)

theorem free_of_next {g f : Bool} {k k' : DestroyPc} (h : k.Next k')
    (hk : ∀ k₀, k ≠ .stopRecords k₀) : (Place.api (.destroy g f k')).recordCall.Free := by
  cases k' with
  | stopRecords k₁ =>
    cases k with
    | stopRecords k₀ => exact absurd rfl (hk k₀)
    | closeMoh =>
      obtain rfl := DestroyPc.stopRecords.inj h
      trivial
    | _ => simp [DestroyPc.Next] at h
  | _ => trivial

/-- `broadcast_destroy_ex`, as a step of the thread that runs it. -/
theorem destroyRoom_move {g f : Bool} {k : DestroyPc} {z : Broadcast × Progress DestroyPc}
    (h : destroyRoom p g f b c k = some z)
    (hy : ∀ k', z.2 = .run k' → y = .api (.destroy g f k'))
    (hret : ∀ ok, z.2 = .ret ok → y.recordCall = .idle) :
    RecordMove p b z.1 c (.api (.destroy g f k)) y := by
  by_cases hk : ∃ k', k = .stopRecords k'
  · obtain ⟨k', rfl⟩ := hk
    obtain ⟨⟨w, k₁ | ok⟩, hw, rfl⟩ := Option.map_eq_some_iff.mp h
    · obtain rfl := hy _ rfl
      exact recordStop_move hw rfl rfl
    · obtain rfl := hy _ rfl
      exact recordStop_move hw rfl rfl
  · have hx : (Place.api (.destroy g f k)).recordCall = .idle := by
      cases k with
      | stopRecords k' => exact absurd ⟨k', rfl⟩ hk
      | _ => rfl
    refine .quiet (destroyRoom_consumers h (not_exists.mp hk)) hx ?_
    obtain ⟨-, hz⟩ | ⟨k', hz, hn⟩ := destroyRoom_next h
    · rw [hret _ hz]
      trivial
    · obtain rfl := hy k' hz
      exact free_of_next hn (not_exists.mp hk)

theorem recordCall_of_next {pc pc' : SessionPc} (h : pc.Next pc')
    (hpc : ∀ j k, pc ≠ .record j k) : (Place.session m pc').recordCall = .idle := by
  cases pc' with
  | record j k =>
    obtain ⟨j', k', rfl⟩ := h.follows
    exact absurd rfl (hpc j' k')
  | _ => rfl

theorem appFunction_record {pc pc' : SessionPc} (h : appFunction p b m c pc = some (b', pc')) :
    RecordMove p b b' c (.session m pc) (.session m pc') := by
  have hn := appFunction_next h
  have free : (∀ j k, pc ≠ .record j k) → (Place.session m pc').recordCall.Free := by
    intro hpc
    rw [recordCall_of_next hn hpc]
    trivial
  cases pc with
  | record j k =>
    obtain ⟨rfl, rfl⟩ := Prod.mk.inj (Option.some.inj h)
    refine recordStart_move rfl ?_
    rcases (recordStart p b "record-template" c k).2 with k' | (_ | _) <;> rfl
  | pin | release =>
    obtain ⟨rfl, -⟩ := Prod.mk.inj (Option.some.inj h)
    exact .quiet rfl rfl (free (by simp))
  | _ => exact .quiet (consumers_of_rest (appFunction_rest h id)) rfl (free (by simp))

/-- The places of an API thread with a reference outside of the recordings and of
`broadcast_destroy_ex`. -/
def ApiPc.Plain : ApiPc → Prop
  | .idle | .release | .record .. | .norecord _ | .destroy .. => False
  | _ => True

theorem apiDispatch_plain {pc pc' : ApiPc} (h : apiDispatch p b c pc = some (b', pc'))
    (hpc : pc.Plain) : (Place.api pc').HasRef ∧ (Place.api pc').recordCall.Free := by
  cases apiDispatch_cases h with
  | record | norecord | destroy | released | gone => exact hpc.elim
  | @resolve k _ _ _ _ _ he | @resolveSpeaker k _ _ _ _ _ he =>
    rw [he]
    cases k <;> exact ⟨trivial, trivial⟩
  | _ => exact ⟨trivial, trivial⟩

theorem apiDispatch_record {pc pc' : ApiPc} (h : apiDispatch p b c pc = some (b', pc')) :
    RecordMove p b b' c (.api pc) (.api pc') := by
  cases pc with
  | record target k =>
    obtain ⟨rfl, rfl⟩ := Prod.mk.inj (Option.some.inj h)
    refine recordStart_move rfl ?_
    cases (recordStart p b target c k).2 <;> rfl
  | norecord k =>
    obtain ⟨⟨z, k' | ok⟩, hz, he⟩ := Option.map_eq_some_iff.mp h <;>
      obtain ⟨rfl, rfl⟩ := Prod.mk.inj he <;> exact recordStop_move hz rfl rfl
  | destroy g f k =>
    obtain ⟨⟨z, k' | ok⟩, hz, he⟩ := Option.map_eq_some_iff.mp h <;>
      obtain ⟨rfl, rfl⟩ := Prod.mk.inj he
    · refine destroyRoom_move hz ?_ nofun
      rintro k'' hk''
      rw [Progress.run.inj hk'']
      rfl
    · exact destroyRoom_move hz nofun fun _ _ => rfl
  | idle => cases h
  | release | pin =>
    obtain ⟨rfl, rfl⟩ := Prod.mk.inj (Option.some.inj h)
    exact .quiet rfl rfl trivial
  | start k =>
    refine .quiet ?_ rfl (apiDispatch_plain h trivial).2
    cases k with
    | play =>
      obtain ⟨rfl, -⟩ := Prod.mk.inj (Option.some.inj h)
      dsimp only [startPlay]
      split_ifs <;> rfl
    | stopPlay =>
      obtain ⟨rfl, -⟩ := Prod.mk.inj (Option.some.inj h)
      rfl
    | _ => exact consumers_of_rest (apiDispatch_rest h id)
  | _ =>
    exact .quiet (consumers_of_rest (apiDispatch_rest h id)) rfl (apiDispatch_plain h trivial).2

theorem ThreadStep.record (h : ThreadStep p b b' c x y) : RecordMove p b b' c x y := by
  cases h with
  | @join m j pc pc' h =>
    have hb := consumers_of_core (joinSession_core h)
    cases pc with
    | outside =>
      obtain ⟨b₁, -, he⟩ := Option.map_eq_some_iff.mp h
      obtain ⟨-, rfl⟩ := Prod.mk.inj he
      exact .quiet hb rfl trivial
    | created =>
      obtain ⟨-, rfl⟩ := Prod.mk.inj (Option.some.inj h)
      refine .quiet hb rfl ?_
      split_ifs <;> trivial
    | _ => cases h
  | session h => exact appFunction_record h
  | call k h =>
    rw [(findBroadcast_eq h).2]
    exact .quiet rfl rfl trivial
  | shutdown _ h =>
    rw [h]
    exact .quiet rfl rfl trivial
  | api h => exact apiDispatch_record h

theorem ThreadStep.callStep (h : ThreadStep p b b' c x y) (hl : b.heap.Lists b.recordings) :
    CallStep b b' c x.recordCall y.recordCall := by
  cases h.record with
  | call h => exact recordCall_step hl h
  | quiet hb hx hy =>
    rw [hx]
    exact .quiet hb trivial id hy

theorem producerRun_consumers {k k' : ProducerPc} (h : producerRun p b c k = some (b', k')) :
    b'.consumers = b.consumers := by
  cases k with
  | top =>
    simp only [producerRun] at h
    split_ifs at h <;> obtain ⟨rfl, -⟩ := Prod.mk.inj (Option.some.inj h)
    · exact consumers_of_core (enqueueEvent_core ..)
    all_goals rfl
  | play =>
    simp only [producerRun] at h
    split_ifs at h <;> obtain ⟨rfl, -⟩ := Prod.mk.inj (Option.some.inj h) <;> rfl
  | locked got paused spk =>
    simp only [producerRun] at h
    split at h
    · obtain ⟨rfl, -⟩ := Prod.mk.inj (Option.some.inj h)
      rfl
    · split_ifs at h <;> obtain ⟨rfl, -⟩ := Prod.mk.inj (Option.some.inj h) <;> rfl
  | silence =>
    obtain ⟨rfl, -⟩ := Prod.mk.inj (Option.some.inj h)
    split_ifs <;> rfl
  | ended => cases h
  | _ =>
    obtain ⟨rfl, -⟩ := Prod.mk.inj (Option.some.inj h)
    rfl

theorem BackgroundStep.record (h : BackgroundStep p s t a) :
    (∃ r, WriterStep s.b t.b r) ∨ t.b.consumers = s.b.consumers := by
  cases h with
  | producer h => exact .inr (producerRun_consumers h)
  | input h hb =>
    rw [hb]
    exact .inr (consumers_of_rest (rest_of_apart (apart_of_listed (speakerInput_listed h))) :)
  | writer h =>
    rcases recordWriter_step h with hw | hb
    · exact .inl ⟨_, hw⟩
    · rw [hb]
      exact .inr rfl
  | quiet h => exact .inr (consumers_of_core h)

/-- The consumers that a stop has taken out and still has to wait for. -/
def RecordCall.waits (b : Broadcast) : RecordCall → List ℕ
  | .stop _ (.next _ q) | .stop _ (.report _ _ q) | .stop _ (.free _ _ q) => b.chain q
  | .stop _ (.test _ r q) | .stop _ (.join _ r q) => r :: b.chain q
  | _ => []

/-- Every writer that has not returned is on the list or is about to be joined. -/
structure TapeSound (s : Room) : Prop where
  tidy : Tidy s.b fun th => (s.place th).recordCall
  owned : ∀ r, (s.b.consumer r).writer.Alive →
    r ∈ s.b.recordings ∨ ∃ th, r ∈ (s.place th).recordCall.waits s.b

/-- A writer is created for a consumer that is still on the list, and a rollback finds
its consumer at the head. -/
def RecordsUndisturbed (s : Room) (a : RoomAction) : Prop :=
  ∀ th r, a.thread = some th →
    ((s.place th).record = some (.create r) → r ∈ s.b.recordings) ∧
      ((s.place th).record = some (.rollback r) → s.b.recordings.head? = some r)

theorem init_recordCall (th : Thread) : (Room.init.place th).recordCall = .idle := by
  cases th with
  | session m =>
    by_cases hm : m = 0
    · subst hm
      rfl
    · simp [Room.place, Room.init, hm, Place.recordCall]
  | api u => rfl

theorem TapeSound.init : TapeSound Room.init where
  tidy := by
    refine Tidy.of_free rfl (fun _ => rfl) fun th => ?_
    rw [init_recordCall]
    trivial
  owned r hr := absurd rfl hr.1

section Wait

variable {κ : Type} {call : κ → RecordCall} {u : κ} {z : RecordCall}

theorem waits_of_free {x : RecordCall} (hx : x.Free) : x.waits b = [] := by
  cases x with
  | stop target k =>
    cases k with
    | unlink => rfl
    | next st q =>
      cases q with
      | none => exact chain_none b
      | some n => exact hx.elim
    | _ => exact hx.elim
  | _ => rfl

/-- A stop lets a consumer go when it has no writer thread or its writer has returned. -/
theorem Tidy.waits_step (hi : Tidy b call) (h : CallStep b b' c (call u) z)
    (hr : r ∈ (call u).waits b) : r ∈ z.waits b' ∨
      ((b.consumer r).writer_thread = true → (b.consumer r).writer = .ended) := by
  have hhand := (hi.hand_step h).2
  generalize call u = x at h hr hhand
  cases h with
  | quiet hb hx =>
    rw [waits_of_free hx] at hr
    cases hr
  | make | link | fail | create | rollback | discard | unlink => cases hr
  | @pop target st n hb =>
    left
    have heq : n :: b'.chain (b.consumer n).next = b.chain (some n) := hhand
    show r ∈ n :: b'.chain (b.consumer n).next
    rw [heq]
    exact hr
  | wait hb =>
    rw [hb]
    exact .inl hr
  | miss hw hb | joined hw hb =>
    rcases List.mem_cons.mp hr with rfl | hr
    · exact .inr fun ht => by simp_all
    · rw [hb]
      exact .inl hr
  | @report target st n q hb =>
    have heq : n :: b'.chain q = n :: b.chain q := hhand
    left
    show r ∈ b'.chain q
    rw [(List.cons.inj heq).2]
    exact hr
  | @free target st n q hb =>
    have heq : b'.chain q = b.chain q := hhand
    left
    show r ∈ b'.chain q
    rw [heq]
    exact hr

/-- A consumer leaves the list for the hands of a stop, or because its writer could not be
created. -/
theorem Tidy.listed_step (hi : Tidy b call) (h : CallStep b b' c (call u) z)
    (hr : r ∈ b.recordings)
    (hb : ∀ target n, call u = .start target (.rollback n) → b.recordings.head? = some n) :
    r ∈ (call u).listed b ∨ r ∈ z.waits b' ∨ (call u).made = some r := by
  generalize hx : call u = x at h hb
  cases h with
  | link => exact .inl (List.mem_cons_of_mem _ hr)
  | @rollback target n =>
    have hhead := hb target n rfl
    rw [(hi.rolled_back hhead).1] at hr
    rcases List.mem_cons.mp hr with rfl | hr
    · exact .inr (.inr rfl)
    · exact .inl hr
  | @unlink target st q hw =>
    cases hm : recordMatches b target r with
    | false => exact .inl (List.mem_filter.mpr ⟨hr, by rw [hm]; rfl⟩)
    | true =>
      right
      left
      show r ∈ b'.chain q
      rw [chain_eq hw.taken (List.nodup_reverse.mpr (hi.lists.nodup.filter _))]
      exact List.mem_reverse.mpr (List.mem_filter.mpr ⟨hr, hm⟩)
  | quiet hb hf hu =>
    refine .inl ?_
    cases x with
    | stop target k =>
      cases k with
      | unlink => exact (hu trivial).elim
      | _ => exact hr
    | start target k => cases k <;> first | exact hr | exact hf.elim
    | idle => exact hr
  | _ => exact .inl hr

theorem waits_congr {x : RecordCall} (h : b'.chain x.stopped = b.chain x.stopped) :
    x.waits b' = x.waits b := by
  cases x with
  | stop target k => cases k <;> first | rfl | exact h | exact congrArg (List.cons _) h
  | _ => rfl

end Wait

theorem RecordsUndisturbed.rollsBack {th : Thread} (hg : RecordsUndisturbed s a)
    (hth : a.thread = some th) {target : String}
    (hx : (s.place th).recordCall = .start target (.rollback r)) :
    s.b.recordings.head? = some r := (hg th r hth).2 (record_of_recordCall hx)

theorem BackgroundStep.recordings (h : BackgroundStep p s t a) :
    t.b.recordings = s.b.recordings := by
  rcases h.record with ⟨r, hw⟩ | hb
  · exact hw.recordings
  · exact recordings_of_consumers hb

theorem TapeSound.background (hi : TapeSound s) (h : BackgroundStep p s t a)
    (hpl : t.place = s.place) : TapeSound t := by
  rcases h.record with ⟨r, hw⟩ | hb
  · refine ⟨?_, fun n hn => ?_⟩
    · rw [hpl]
      exact hi.tidy.writer hw
    · rw [hw.recordings, hpl]
      refine (hi.owned n (hw.alive_of hn)).imp_right fun ⟨th, hth⟩ => ⟨th, ?_⟩
      rwa [waits_congr (hw.chain _)]
  · refine ⟨?_, fun n hn => ?_⟩
    · rw [hpl]
      exact hi.tidy.congr hb
    · have hc : t.b.consumer = s.b.consumer := congrArg Consumers.consumer hb
      rw [hc] at hn
      rw [recordings_of_consumers hb, hpl]
      refine (hi.owned n hn).imp_right fun ⟨th, hth⟩ => ⟨th, ?_⟩
      rwa [waits_congr (chain_of_next (congrArg Consumers.next hb) (fun r => by rw [hc]) _)]

/-- The list when nothing is linked to it. -/
theorem RecordCall.listed_nil {x : RecordCall} (he : b.recordings = [])
    (hl : ∀ target r, x ≠ .start target (.link r))
    (hb : ∀ target r, x = .start target (.rollback r) → b.recordings.head? = some r) :
    x.listed b = [] := by
  cases x with
  | idle => exact he
  | start target k =>
    cases k with
    | link n => exact absurd rfl (hl target n)
    | rollback n =>
      have hhead := hb target n rfl
      rw [he] at hhead
      cases hhead
    | _ => exact he
  | stop target k =>
    cases k with
    | unlink => simp [RecordCall.listed, he]
    | _ => exact he

theorem TapeSound.recordings {th : Thread} (hi : TapeSound s) (hg : RecordsUndisturbed s a)
    (hth : a.thread = some th) (h : ThreadStep p s.b t.b c (s.place th) (t.place th)) :
    t.b.recordings = (s.place th).recordCall.listed s.b :=
  hi.tidy.recordings_eq (u := th) (h.callStep hi.tidy.lists) fun _ _ hx =>
    .inl (List.mem_of_head? (hg.rollsBack hth hx))

theorem TapeSound.step (hi : TapeSound s) (hg : RecordsUndisturbed s a)
    (hs : roomStep p s a = some t) : TapeSound t := by
  cases roomStep_move hs with
  | @thread th c hth _ h ho _ =>
    have hstep : CallStep s.b t.b c (s.place th).recordCall (t.place th).recordCall :=
      h.callStep hi.tidy.lists
    have hback : ∀ target n, (s.place th).recordCall = .start target (.rollback n) →
        s.b.recordings.head? = some n := fun _ _ hx => hg.rollsBack hth hx
    have hrolls : (s.place th).recordCall.RollsBack s.b := fun target n hx =>
      .inl (List.mem_of_head? (hback target n hx))
    have hcall : (fun th => (t.place th).recordCall) =
        Function.update (fun th => (s.place th).recordCall) th (t.place th).recordCall := by
      funext th'
      by_cases hne : th' = th
      · rw [hne, Function.update_self]
      · rw [Function.update_of_ne hne, ho th' hne]
    have hrec := hi.recordings hg hth h
    refine ⟨?_, fun n ha => ?_⟩
    · rw [hcall]
      exact hi.tidy.step (u := th) hstep hrolls
    · rcases hstep.writer n with ⟨hw, -⟩ | ⟨-, hw, -⟩ | ⟨⟨target, hx⟩, -⟩
      · rw [hw] at ha
        rcases hi.owned n ha with hn | ⟨th', hn⟩
        · rcases hi.tidy.listed_step (u := th) hstep hn hback with hl | hl | hm
          · exact .inl (hrec ▸ hl)
          · exact .inr ⟨th, hl⟩
          · exact absurd (hi.tidy.made th n hm).2.1 ha.1
        · by_cases hne : th' = th
          · subst hne
            rcases hi.tidy.waits_step (u := th') hstep hn with hl | hend
            · exact .inr ⟨th', hl⟩
            · exact absurd (hend (hi.tidy.thread n ha).1) ha.2
          · refine .inr ⟨th', ?_⟩
            rw [ho th' hne, waits_congr (hi.tidy.rest_kept (u := th) hstep hne).2]
            exact hn
      · exact absurd hw ha.1
      -- a writer is created for a consumer that is still on the list
      · have hn := (hg th n hth).1 (record_of_recordCall hx)
        rcases hi.tidy.listed_step (u := th) hstep hn hback with hl | hl | -
        · exact .inl (hrec ▸ hl)
        · exact .inr ⟨th, hl⟩
        · left
          rw [hrec, hx]
          exact hn
  | background ha h hpl => exact hi.background h hpl

end ModBroadcast
