import ModBroadcast.LockDiscipline
import ModBroadcast.LockRanks

namespace ModBroadcast.Locks

open LockPrograms LockPrograms.Prog Automaton

def Lock.rank : Lock → ℕ
  | .config => 0
  | .hash => 1
  | .control _ => 2
  | .play _ => 3
  | .speaker _ => 4
  | .listener _ => 5
  | .recording _ => 6
  | .audioIn _ => 7
  | .id _ => 8
  | .event _ => 9
  | .moh _ => 10

theorem Lock.rank_le (l : Lock) : l.rank ≤ 10 := by
  cases l <;> simp [Lock.rank]

/-- The locks with which code outside is reached: those of the bindings that have started it. -/
def Outside (h : Held Lock) : Prop := ∀ x ∈ h, x = (.config, .read)

abbrev wpa (p : Code) (Q : Held Lock → Prop) (h : Held Lock) : Prop :=
  wp (Ascending Lock.rank) Outside p Q h

variable {Q : Held Lock → Prop} {h : Held Lock} {l : Lock} {m : Mode} {x : Lock × Mode}

@[simp] theorem outside_nil : Outside [] := List.forall_mem_nil _

@[simp] theorem outside_cons : Outside (x :: h) ↔ x = (.config, .read) ∧ Outside h :=
  List.forall_mem_cons

@[simp] theorem ascending_nil : Ascending Lock.rank [] l m := List.forall_mem_nil _

@[simp] theorem ascending_cons : Ascending Lock.rank (x :: h) l m ↔
    (x.1.rank < l.rank ∨ x = (l, .read) ∧ m = .read) ∧ Ascending Lock.rank h l m :=
  List.forall_mem_cons

@[simp] theorem ascending_outside (ho : Outside h) (hl : l ≠ .config) :
    Ascending Lock.rank h l m := by
  intro x hx
  left
  rw [ho x hx]
  cases l <;> first | exact absurd rfl hl | exact Nat.succ_pos _

@[simp] theorem ascending_config (ho : Outside h) : Ascending Lock.rank h .config .read :=
  fun x hx => .inr ⟨ho x hx, rfl⟩

@[simp] theorem wpa_rdlock :
    wpa (rdlock l) Q h ↔ Ascending Lock.rank h l .read ∧ Q ((l, .read) :: h) := Iff.rfl

@[simp] theorem wpa_wrlock :
    wpa (wrlock l) Q h ↔ Ascending Lock.rank h l .write ∧ Q ((l, .write) :: h) := Iff.rfl

@[simp] theorem wpa_mutexLock :
    wpa (mutexLock l) Q h ↔ Ascending Lock.rank h l .write ∧ Q ((l, .write) :: h) := Iff.rfl

/-- The queue's mutex comes after the locks under which events are queued. -/
@[simp] theorem wpa_enqueueEvent (b : ℕ) (ha : Ascending Lock.rank h (.event b) .write) :
    wpa (enqueueEvent b) Q h ↔ Q h := by
  simp [enqueueEvent, ha]

@[simp] theorem wpa_memberNextId (b : ℕ) (ha : Ascending Lock.rank h (.id b) .write) :
    wpa (memberNextId b) Q h ↔ Q h := by
  simp [memberNextId, ha]

@[simp] theorem wpa_findMemberById (b : ℕ) (hl : Ascending Lock.rank h (.listener b) .read)
    (hs : Ascending Lock.rank h (.speaker b) .read) : wpa (findMemberById b) Q h ↔ Q h := by
  simp [findMemberById, hl, hs]

@[simp] theorem wpa_fireEvtMsg (b : ℕ) (type : EventType)
    (hl : Ascending Lock.rank h (.listener b) .read)
    (hs : Ascending Lock.rank h (.speaker b) .read) : wpa (fireEvtMsg b type) Q h ↔ Q h := by
  cases type <;> simp [fireEvtMsg, hl, hs]

@[simp] theorem wpa_fireCriticalEvent (b : ℕ) (type : EventType)
    (hl : Ascending Lock.rank h (.listener b) .read)
    (hs : Ascending Lock.rank h (.speaker b) .read) :
    wpa (fireCriticalEvent b type) Q h ↔ Q h := wpa_fireEvtMsg b type hl hs

@[simp] theorem wpa_emitQueue (b : ℕ) (he : Ascending Lock.rank h (.event b) .write)
    (hl : Ascending Lock.rank h (.listener b) .read)
    (hs : Ascending Lock.rank h (.speaker b) .read) : wpa (emitQueue b) Q h ↔ Q h := by
  simp [emitQueue, he, hl, hs]

@[simp] theorem wpa_recordStart (b : ℕ) (k : Bool → Code) (ho : Outside h) :
    wpa (recordStart b k) Q h ↔ wpa (k false) Q h ∧ wpa (k true) Q h := by
  simp [recordStart, ho]

@[simp] theorem wpa_recordStop (b : ℕ) (ho : Outside h) : wpa (recordStop b) Q h ↔ Q h := by
  have he : Ascending Lock.rank h (.event b) .write := ascending_outside ho Lock.noConfusion
  simp [recordStop, ho, he]

@[simp] theorem wpa_listenerAdd (b : ℕ) (k : Bool → Code) (ho : Outside h) :
    wpa (listenerAdd b k) Q h ↔ wpa (k false) Q h ∧ wpa (k true) Q h := by
  simp [listenerAdd, ho, Lock.rank]

@[simp] theorem wpa_listenerUnlink (b : ℕ) (k : Bool → Code) (ho : Outside h) :
    wpa (listenerUnlinkForPromotion b k) Q h ↔ wpa (k true) Q h ∧ wpa (k false) Q h := by
  simp [listenerUnlinkForPromotion, ho]

@[simp] theorem wpa_listenerDel (b : ℕ) (ho : Outside h) : wpa (listenerDel b) Q h ↔ Q h := by
  simp [listenerDel, ho, Lock.rank]

@[simp] theorem wpa_setSpeaker (b : ℕ) (k : Bool → Code) (ho : Outside h) :
    wpa (setSpeaker b true k) Q h ↔ wpa (k false) Q h ∧ wpa (k true) Q h := by
  simp [setSpeaker, ho]

@[simp] theorem wpa_clearSpeaker (b : ℕ) (ho : Outside h) : wpa (clearSpeaker b) Q h ↔ Q h := by
  simp [clearSpeaker, setSpeaker, ho]

@[simp] theorem wpa_clearSpeakerIfCurrent (b : ℕ) (ho : Outside h) :
    wpa (clearSpeakerIfCurrent b) Q h ↔ Q h := by
  simp [clearSpeakerIfCurrent, ho]

@[simp] theorem wpa_requestPromotion (b : ℕ) (ho : Outside h) :
    wpa (requestPromotion b) Q h ↔ Q h := by
  simp [requestPromotion, ho]

@[simp] theorem wpa_kickListener (b : ℕ) (ho : Outside h) : wpa (kickListener b) Q h ↔ Q h := by
  simp [kickListener, ho]

@[simp] theorem wpa_kickAllListeners (b : ℕ) (ho : Outside h) :
    wpa (kickAllListeners b) Q h ↔ Q h := by
  have he : Ascending Lock.rank ((.listener b, .write) :: h) (.event b) .write := by
    simp [ho, Lock.rank]
  simp [kickAllListeners, ho, he]

@[simp] theorem wpa_dispatchControl (b : ℕ) (action : ControlAction) (ho : Outside h) :
    wpa (dispatchControl b action) Q h ↔ Q h := by
  cases action <;> simp [dispatchControl, ho]

/-- The one section that code outside runs in. -/
@[simp] theorem wpa_matchControls (b : ℕ) (ho : Outside h) : wpa (matchControls b) Q h ↔ Q h := by
  simp [matchControls, ho]

@[simp] theorem wpa_handleDtmf (b : ℕ) (ho : Outside h) : wpa (handleDtmf b) Q h ↔ Q h := by
  simp [handleDtmf, ho]

@[simp] theorem wpa_listenerRun (b : ℕ) (ho : Outside h) : wpa (listenerRun b) Q h ↔ Q h := by
  have hround : wpa (loop (handleDtmf b) ++ branch skip (enqueueEvent b)) (· = h) h := by
    simp [ho]
  simp only [listenerRun, wp_branch, wp_skip, wp_loop hround, and_self]

@[simp] theorem wpa_speakerMainWait (b : ℕ) (ho : Outside h) :
    wpa (speakerMainWait b) Q h ↔ Q h := by
  have hround : wpa (loop (handleDtmf b) ++ rdlock (.speaker b) ++ unlock (.speaker b))
      (· = h) h := by
    simp [ho]
  simp only [speakerMainWait, wp_append, wp_loop hround]
  simp [ho]

@[simp] theorem wpa_visit (b : ℕ) (role : MemberRole) (ho : Outside h) :
    wpa (visit b role) Q h ↔ Q h := by
  cases role <;> simp [visit, ho]

@[simp] theorem wpa_findMemberByIdStr (b : ℕ) (sid : String) (k : Bool → Code) (ho : Outside h)
    (hf : wpa (k false) Q h ↔ Q h) (ht : wpa (k true) Q h ↔ Q h) :
    wpa (findMemberByIdStr b sid k) Q h ↔ Q h := by
  simp [findMemberByIdStr, ho, hf, ht]

@[simp] theorem wpa_findMemberPinned (b : ℕ) (sid : String) (k : Bool → Code) (ho : Outside h)
    (hf : wpa (k false) Q h ↔ Q h) (ht : wpa (k true) Q h ↔ Q h) :
    wpa (findMemberPinned b sid k) Q h ↔ Q h := by
  simp [findMemberPinned, ho, hf, ht]

@[simp] theorem wpa_findAndRef (name : String) (k : Option ℕ → Code) (ho : Outside h)
    (hn : wpa (k none) Q h ↔ Q h) (hs : ∀ b, wpa (k (some b)) Q h ↔ Q h) :
    wpa (findAndRef name k) Q h ↔ Q h := by
  simp [findAndRef, ho, hn, hs]

@[simp] theorem wpa_create (name : String) (k : Option ℕ → Code) (ho : Outside h)
    (hn : wpa (k none) Q h ↔ Q h) (hs : ∀ b, wpa (k (some b)) Q h ↔ Q h) :
    wpa (create name k) Q h ↔ Q h := by
  simp [create, ho, hn, hs]

@[simp] theorem wpa_destroyEx (b grace_ms : ℕ) (announce_file : String) (ho : Outside h) :
    wpa (destroyEx b grace_ms announce_file) Q h ↔ Q h := by
  simp [destroyEx, destroyGrace, destroyMembers, recordStopAll, ho]

@[simp] theorem wpa_apiCommand (b : ℕ) (command : String) (args : List String) (ho : Outside h) :
    wpa (apiCommand b command args) Q h ↔ Q h := by
  simp [apiCommand, apiInfo, apiListeners, apiListenerDetail, apiFlag, apiPlay, apiStopPlay, ho]

theorem wpa_appFunction (core : Core) (data : String) (ho : Outside h) :
    wpa (appFunction core data) Q h ↔ Q h := by
  have hj : ∀ b role, wpa (branch skip (visit b role)) Q h ↔ Q h := fun b role => by simp [ho]
  simp [appFunction, ho, hj]

theorem wpa_apiList (json : Bool) (ho : Outside h) : wpa (apiList json) Q h ↔ Q h := by
  simp [apiList, ho, Lock.rank]

theorem wpa_apiModuleStats (ho : Outside h) : wpa apiModuleStats Q h ↔ Q h := by
  simp [apiModuleStats, ho, Lock.rank]

def EntryPoint.reloads (core : Core) : EntryPoint → Bool
  | .api cmd => match (apiWords core cmd false).2 with
    | [] => false
    | name :: _ => name ≠ "" ∧ ¬ caseEq name "version" ∧ caseEq name "reload"
  | _ => false

variable {core : Core} {c : EntryPoint} {may : EntryPoint → Prop}

/-- A reload asks for `config_rwlock` as a writer, and so only a thread without locks may. -/
theorem wpa_apiDispatch {cmd : String} (ho : Outside h)
    (hr : h = [] ∨ (EntryPoint.api cmd).reloads core = false) :
    wpa (apiDispatch core cmd false) Q h ↔ Q h := by
  rcases hw : apiWords core cmd false with ⟨json, argv⟩
  simp only [EntryPoint.reloads, hw] at hr
  simp only [apiDispatch, hw]
  cases argv with
  | nil => exact Iff.rfl
  | cons name argv =>
    dsimp only
    split_ifs with hn hreload hlist hstats
    · exact Iff.rfl
    · obtain ⟨hne, hv⟩ := not_or.mp hn
      rcases hr with rfl | hr
      · simp [configReload, configLoad]
      · exact absurd ⟨hne, hv, hreload⟩ (of_decide_eq_false hr)
    · exact wpa_apiList json ho
    · exact wpa_apiModuleStats ho
    · cases argv with
      | nil => exact Iff.rfl
      | cons command args => exact wpa_findAndRef name _ ho Iff.rfl fun b => wpa_apiCommand _ _ _ ho

/-- `hash_rwlock` is held while the rooms are visited. -/
@[simp] theorem wpa_runtimeHousekeeping : wpa runtimeHousekeeping Q [] ↔ Q [] := by
  have hround : wpa (branch skip (pick fun r : Reading =>
      branch skip (rdlock (.speaker r.broadcast) ++ unlock (.speaker r.broadcast) ++
        enqueueEvent r.broadcast) ++
      wrlock (.listener r.broadcast) ++ loop skip ++ unlock (.listener r.broadcast)))
      (· = [(.hash, .read)]) [(.hash, .read)] := by
    simp [Lock.rank]
  simp only [runtimeHousekeeping, wp_append, wpa_rdlock, wp_loop hround]
  simp

@[simp] theorem wpa_eventEmitterRun : wpa eventEmitterRun Q [] ↔ Q [] := by
  have hround : wpa (branch skip (pick fun r : Reading => emitQueue r.broadcast))
      (· = [(.hash, .read)]) [(.hash, .read)] := by
    simp [Lock.rank]
  have hpass : wpa (rdlock .hash ++ loop (branch skip (pick fun r : Reading =>
      emitQueue r.broadcast)) ++ unlock .hash) (· = []) [] := by
    simp only [wp_append, wpa_rdlock, wp_loop hround]
    simp
  exact wp_loop hpass

theorem wpa_start (core : Core) (c : EntryPoint) :
    wpa ((procedures core).body c) (· = []) [] := by
  cases c with
  | app data => exact (wpa_appFunction core data outside_nil).mpr rfl
  | api cmd => exact (wpa_apiDispatch outside_nil (.inl rfl)).mpr rfl
  | _ =>
    simp [procedures, moduleLoad, configLoad, moduleShutdown, destroyAll, configUnload,
      moduleRuntime, producerRun, applySilencePolicy, recordWriterRun, speakerInputRun, Lock.rank]

theorem procedures_ascending (hm : ∀ c, c.callable → may c → c.reloads core = false) :
    Verified (procedures core) (Ascending Lock.rank) Outside may := by
  refine ⟨wpa_start core, fun c h hc hmay ho => ?_⟩
  cases c with
  | app data => exact (wpa_appFunction core data ho).mpr rfl
  | api cmd => exact (wpa_apiDispatch ho (.inr (hm _ hc hmay))).mpr rfl
  | _ => cases hc

/-- A binding's application reloads: the thread has come to the writer's lock and still reads. -/
theorem exists_run_to_reload (hc : c.callable) (hmay : may c) (hr : c.reloads core = true) :
    ∃ h s, Run (step (procedures core)) (Threads.init : Threads ℕ Lock Reading) h s ∧
      Meets (fun _ => CallsOnly may) h ∧ s.request 0 = some (.config, .write) ∧
      s.held = [(0, .config, .read)] := by
  obtain ⟨h, s, hrun, hm, hs⟩ := exists_run_observing (step (procedures core))
    (fun _ a => match a.2 with | .call _ => false | _ => true) .init dispatchRun
    (fun _ s => (s.outside 0, s.held)) (v := (true, [(0, .config, .read)])) rfl
  obtain ⟨hout, hheld⟩ := Prod.mk.inj hs
  obtain ⟨s₁, k, hcall, hcode, hheld₁⟩ := exists_call (P := procedures core) hout hc
  have hm₁ : Meets (fun _ => CallsOnly may) ((s, 0, .call c) :: h) := by
    refine meets_cons.mpr ⟨?_, hm.mono fun _ a ha c hc => by simp [hc] at ha⟩
    rintro _ ⟨⟩
    exact hmay
  have hfirst : firstLock ((procedures core).body c) = some (.config, .write) := by
    cases c with
    | api cmd =>
      rcases hw : apiWords core cmd false with ⟨json, argv⟩
      simp only [EntryPoint.reloads, hw] at hr
      simp only [procedures, apiDispatch, hw]
      cases argv with
      | nil => cases hr
      | cons name argv =>
        obtain ⟨hne, hv, hreload⟩ := of_decide_eq_true hr
        dsimp only
        rw [if_neg (not_or.mpr ⟨hne, hv⟩), if_pos hreload]
        rfl
    | _ => cases hr
  obtain ⟨h', s', hrun', hm', hreq, hheld'⟩ :=
    exists_run_to_firstLock (hrun.snoc hcall) hm₁ hcode hfirst
  exact ⟨h', s', hrun', hm', hreq, by rw [hheld', hheld₁, hheld]⟩

/-- The threads of the module never wait for each other in a circle, in any run, if and only if no
binding starts a reload. -/
theorem deadlock_free_iff (core : Core) (may : EntryPoint → Prop) :
    (∀ h s, Run (step (procedures core)) (Threads.init : Threads ℕ Lock Reading) h s →
      Meets (fun _ => CallsOnly may) h → s.DeadlockFree (procedures core)) ↔
    ∀ c, c.callable → may c → c.reloads core = false := by
  constructor
  · intro hall c hc hmay
    by_contra hr
    obtain ⟨h, s, hrun, hm, hreq, hheld⟩ :=
      exists_run_to_reload hc hmay (eq_true_of_ne_false hr)
    exact not_deadlockFree hreq hheld rfl (by simp) (hall h s hrun hm)
  · intro hm h s hrun hmeets
    exact deadlockFree_of_run (procedures_ascending hm) Lock.rank_le hrun hmeets

end ModBroadcast.Locks
