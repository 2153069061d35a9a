import ModBroadcast.LockCode

namespace ModBroadcast.Locks

open LockPrograms LockPrograms.Prog Automaton

def Lock.inner : Lock → Bool
  | .config | .control _ | .speaker _ | .listener _ | .recording _ => true
  | _ => false

def Admissible (held : Held Lock) (l : Lock) (m : Mode) : Prop :=
  (l = .hash → ∀ x ∈ held, x.1.inner = false) ∧
    (l = .config → m = .write → (.config, .read) ∉ held)

abbrev wpre (p : Code) (Q : Held Lock → Prop) (h : Held Lock) : Prop :=
  wp Admissible (fun _ => True) p Q h

variable {Q : Held Lock → Prop} {h : Held Lock} {l : Lock} {m : Mode}

@[simp] theorem wp_rdlock :
    wpre (rdlock l) Q h ↔ Admissible h l .read ∧ Q ((l, .read) :: h) := Iff.rfl

@[simp] theorem wp_wrlock :
    wpre (wrlock l) Q h ↔ Admissible h l .write ∧ Q ((l, .write) :: h) := Iff.rfl

@[simp] theorem wp_mutexLock :
    wpre (mutexLock l) Q h ↔ Admissible h l .write ∧ Q ((l, .write) :: h) := Iff.rfl

/-- A lock that is neither of the two. -/
@[simp] theorem admissible_of_ne (hh : l ≠ .hash) (hc : l ≠ .config) : Admissible h l m :=
  ⟨fun e => absurd e hh, fun e => absurd e hc⟩

@[simp] theorem admissible_read (hh : l ≠ .hash) : Admissible h l .read :=
  ⟨fun e => absurd e hh, fun _ e => nomatch e⟩

@[simp] theorem admissible_nil : Admissible [] l m := by simp [Admissible]

@[simp] theorem wp_enqueueEvent (b : ℕ) : wpre (enqueueEvent b) Q h ↔ Q h := by
  simp [enqueueEvent]

@[simp] theorem wp_findMemberById (b : ℕ) : wpre (findMemberById b) Q h ↔ Q h := by
  simp [findMemberById]

@[simp] theorem wp_fireEvtMsg (b : ℕ) (type : EventType) : wpre (fireEvtMsg b type) Q h ↔ Q h := by
  cases type <;> simp [fireEvtMsg]

@[simp] theorem wp_emitQueue (b : ℕ) : wpre (emitQueue b) Q h ↔ Q h := by
  simp [emitQueue]

@[simp] theorem wp_fireCriticalEvent (b : ℕ) (type : EventType) :
    wpre (fireCriticalEvent b type) Q h ↔ Q h := wp_fireEvtMsg b type

@[simp] theorem wp_recordStart (b : ℕ) (k : Bool → Code) :
    wpre (recordStart b k) Q h ↔ wpre (k false) Q h ∧ wpre (k true) Q h := by
  simp [recordStart]

@[simp] theorem wp_recordStop (b : ℕ) : wpre (recordStop b) Q h ↔ Q h := by
  simp [recordStop]

@[simp] theorem wp_memberNextId (b : ℕ) : wpre (memberNextId b) Q h ↔ Q h := by
  simp [memberNextId]

@[simp] theorem wp_listenerAdd (b : ℕ) (k : Bool → Code) :
    wpre (listenerAdd b k) Q h ↔ wpre (k false) Q h ∧ wpre (k true) Q h := by
  simp [listenerAdd]

@[simp] theorem wp_listenerUnlink (b : ℕ) (k : Bool → Code) :
    wpre (listenerUnlinkForPromotion b k) Q h ↔ wpre (k true) Q h ∧ wpre (k false) Q h := by
  simp [listenerUnlinkForPromotion]

@[simp] theorem wp_listenerDel (b : ℕ) : wpre (listenerDel b) Q h ↔ Q h := by
  simp [listenerDel]

@[simp] theorem wp_setSpeaker (b : ℕ) (k : Bool → Code) :
    wpre (setSpeaker b true k) Q h ↔ wpre (k false) Q h ∧ wpre (k true) Q h := by
  simp [setSpeaker]

@[simp] theorem wp_clearSpeaker (b : ℕ) : wpre (clearSpeaker b) Q h ↔ Q h := by
  simp [clearSpeaker, setSpeaker]

@[simp] theorem wp_clearSpeakerIfCurrent (b : ℕ) : wpre (clearSpeakerIfCurrent b) Q h ↔ Q h := by
  simp [clearSpeakerIfCurrent]

@[simp] theorem wp_requestPromotion (b : ℕ) : wpre (requestPromotion b) Q h ↔ Q h := by
  simp [requestPromotion]

@[simp] theorem wp_applySilencePolicy (b : ℕ) : wpre (applySilencePolicy b) Q h ↔ Q h := by
  simp [applySilencePolicy]

@[simp] theorem wp_kickListener (b : ℕ) : wpre (kickListener b) Q h ↔ Q h := by
  simp [kickListener]

@[simp] theorem wp_kickAllListeners (b : ℕ) : wpre (kickAllListeners b) Q h ↔ Q h := by
  simp [kickAllListeners]

@[simp] theorem wp_dispatchControl (b : ℕ) (action : ControlAction) :
    wpre (dispatchControl b action) Q h ↔ Q h := by
  cases action <;> simp [dispatchControl]

@[simp] theorem wp_matchControls (b : ℕ) : wpre (matchControls b) Q h ↔ Q h := by
  simp [matchControls]

@[simp] theorem wp_handleDtmf (b : ℕ) : wpre (handleDtmf b) Q h ↔ Q h := by
  simp [handleDtmf]

@[simp] theorem wp_listenerRun (b : ℕ) : wpre (listenerRun b) Q h ↔ Q h := by
  simp [listenerRun]

@[simp] theorem wp_speakerMainWait (b : ℕ) : wpre (speakerMainWait b) Q h ↔ Q h := by
  simp [speakerMainWait]

@[simp] theorem wp_visit (b : ℕ) (role : MemberRole) : wpre (visit b role) Q h ↔ Q h := by
  cases role <;> simp [visit]

@[simp] theorem wp_findMemberByIdStr (b : ℕ) (sid : String) (k : Bool → Code)
    (hf : wpre (k false) Q h ↔ Q h) (ht : wpre (k true) Q h ↔ Q h) :
    wpre (findMemberByIdStr b sid k) Q h ↔ Q h := by
  simp [findMemberByIdStr, hf, ht]

@[simp] theorem wp_findMemberPinned (b : ℕ) (sid : String) (k : Bool → Code)
    (hf : wpre (k false) Q h ↔ Q h) (ht : wpre (k true) Q h ↔ Q h) :
    wpre (findMemberPinned b sid k) Q h ↔ Q h := by
  simp [findMemberPinned, hf, ht]

@[simp] theorem wp_findAndRef (name : String) (k : Option ℕ → Code)
    (hn : wpre (k none) Q [] ↔ Q []) (hs : ∀ b, wpre (k (some b)) Q [] ↔ Q []) :
    wpre (findAndRef name k) Q [] ↔ Q [] := by
  simp [findAndRef, hn, hs]

@[simp] theorem wp_create (name : String) (k : Option ℕ → Code)
    (hn : wpre (k none) Q [] ↔ Q []) (hs : ∀ b, wpre (k (some b)) Q [] ↔ Q []) :
    wpre (create name k) Q [] ↔ Q [] := by
  simp [create, hn, hs]

@[simp] theorem wp_destroyEx (b grace_ms : ℕ) (announce_file : String) :
    wpre (destroyEx b grace_ms announce_file) Q [] ↔ Q [] := by
  simp [destroyEx, destroyGrace, destroyMembers, recordStopAll]

@[simp] theorem wp_apiCommand (b : ℕ) (command : String) (args : List String) :
    wpre (apiCommand b command args) Q [] ↔ Q [] := by
  simp [apiCommand, apiInfo, apiListeners, apiListenerDetail, apiFlag, apiPlay, apiStopPlay]

@[simp] theorem wp_runtimeHousekeeping : wpre runtimeHousekeeping Q [] ↔ Q [] := by
  simp [runtimeHousekeeping]

@[simp] theorem wp_appFunction (core : Core) (data : String) :
    wpre (appFunction core data) Q [] ↔ Q [] := by
  simp [appFunction]

@[simp] theorem wp_apiDispatch (core : Core) (cmd : String) (json : Bool) :
    wpre (apiDispatch core cmd json) Q [] ↔ Q [] := by
  unfold apiDispatch
  split
  · simp
  · next json name argv _ =>
    cases argv <;> simp [configReload, configLoad, apiList, apiModuleStats]

theorem procedures_start (core : Core) (c : EntryPoint) :
    wpre ((procedures core).body c) (· = []) [] := by
  cases c with
  | app data => exact (wp_appFunction core data).mpr rfl
  | api cmd => exact (wp_apiDispatch core cmd false).mpr rfl
  | _ =>
    simp [procedures, moduleLoad, configLoad, moduleShutdown, destroyAll, configUnload,
      moduleRuntime, eventEmitterRun, producerRun, recordWriterRun,
      speakerInputRun]

/-- Whether a call gets as far as `hash_rwlock` or the reload. -/
def EntryPoint.asks (core : Core) : EntryPoint → Bool
  | .app data => (parseAppData data).name ≠ ""
  | .api cmd => match (apiWords core cmd false).2 with
    | [] => false
    | name :: argv => name ≠ "" ∧ ¬ caseEq name "version" ∧
      (argv ≠ [] ∨ caseEq name "reload" ∨ caseEq name "list" ∨ caseEq name "stats")
  | _ => false

variable {core : Core} {c : EntryPoint}

/-- A call that does not ask returns without a lock. -/
theorem body_of_not_asks (hc : c.callable) (ha : c.asks core = false) :
    (procedures core).body c = skip := by
  cases c with
  | app data =>
    have hn : (parseAppData data).name = "" := by simpa [EntryPoint.asks] using ha
    simp [procedures, appFunction, hn]
  | api cmd =>
    rcases hw : apiWords core cmd false with ⟨json, argv⟩
    simp only [EntryPoint.asks, hw] at ha
    simp only [procedures, apiDispatch, hw]
    cases argv with
    | nil => rfl
    | cons name argv =>
      have ha := of_decide_eq_false ha
      dsimp only
      by_cases hn : name = "" ∨ caseEq name "version"
      · rw [if_pos hn]
      · obtain ⟨hne, hv⟩ := not_or.mp hn
        obtain ⟨hargs, hr, hl, hs⟩ : argv = [] ∧ ¬ caseEq name "reload" ∧ ¬ caseEq name "list" ∧
            ¬ caseEq name "stats" := by
          have hw := fun hw => ha ⟨hne, hv, hw⟩
          simpa only [imp_false, not_or, ne_eq, not_not] using hw
        rw [if_neg hn, if_neg hr, if_neg hl, if_neg hs, hargs]
  | _ => cases hc

def Oversteps (p : Code) : Prop :=
  ∃ l m, firstLock p = some (l, m) ∧ ¬ Admissible [(.config, .read)] l m

theorem oversteps_configReload : Oversteps configReload :=
  ⟨.config, .write, rfl, by simp [Admissible]⟩

theorem oversteps_apiList (json : Bool) : Oversteps (apiList json) :=
  ⟨.hash, .read, rfl, by simp [Admissible, Lock.inner]⟩

theorem oversteps_apiModuleStats : Oversteps apiModuleStats :=
  ⟨.hash, .read, rfl, by simp [Admissible, Lock.inner]⟩

theorem oversteps_findAndRef {name : String} (hn : name ≠ "") (k : Option ℕ → Code) :
    Oversteps (findAndRef name k) := by
  rw [findAndRef, if_neg hn]
  exact ⟨.hash, .read, rfl, by simp [Admissible, Lock.inner]⟩

theorem oversteps_of_asks (ha : c.asks core) : Oversteps ((procedures core).body c) := by
  cases c with
  | app data =>
    have hn : (parseAppData data).name ≠ "" := by simpa [EntryPoint.asks] using ha
    have hd : data ≠ "" := by
      rintro rfl
      exact hn rfl
    simp only [procedures, appFunction, if_neg hd, if_neg hn]
    exact oversteps_findAndRef hn _
  | api cmd =>
    rcases hw : apiWords core cmd false with ⟨json, argv⟩
    simp only [EntryPoint.asks, hw] at ha
    simp only [procedures, apiDispatch, hw]
    cases argv with
    | nil => cases ha
    | cons name argv =>
      obtain ⟨hn, hv, hw⟩ := of_decide_eq_true ha
      dsimp only
      rw [if_neg (not_or.mpr ⟨hn, hv⟩)]
      split_ifs with hr hl hs
      · exact oversteps_configReload
      · exact oversteps_apiList json
      · exact oversteps_apiModuleStats
      · cases argv with
        | nil => simp [hr, hl, hs] at hw
        | cons command args => exact oversteps_findAndRef hn _
  | _ => cases ha

theorem procedures_verified (may : EntryPoint → Prop)
    (ha : ∀ c, c.callable → may c → c.asks core = false) :
    Verified (procedures core) Admissible (fun _ => True) may := by
  refine ⟨procedures_start core, fun c h hc hm _ => ?_⟩
  rw [body_of_not_asks hc (ha c hc hm)]
  rfl

/-- The only session is the first listener of `a`, and one of its digits is bound to
an application. -/
def dispatchRun : List (ℕ × Move Reading EntryPoint) :=
  let digit : Reading := ⟨0, 0, .pause, .executeApp⟩
  List.map (Prod.mk 0)
    [.start (.app "a"),
      -- `broadcast_find_and_ref` finds nothing, and `broadcast_create` succeeds
      .step, .step, .choose true, .step, .step, .choose false, .step, .step, .step, .step,
      .choose false, .read digit, .step, .step, .choose false, .step, .step, .step, .step,
      .choose true, .step, .choose true, .step,
      -- the member is linked
      .choose false, .choose false, .choose false, .step, .step, .choose false, .step, .step, .step,
      .choose true, .step, .step, .choose true, .step,
      -- the listener loop takes the digit, which a binding matches
      .step, .step, .choose false, .choose true, .step, .choose true, .choose false, .choose false,
      .step, .step, .choose false, .step, .choose false, .choose false, .read digit, .step,
      .choose false]

/-- `switch_separate_string` and `switch_true` on text without quotes. -/
def plainCore : Core where
  switch_separate_string s c := ((s.toList.splitOn c).filter (· ≠ [])).map String.ofList
  switch_true s := ["yes", "on", "true", "t", "enabled", "active", "allow"].any (caseEq s)

theorem exists_run_to_binding (core : Core) (may : EntryPoint → Prop) :
    ∃ h s, Run (step (procedures core)) (Threads.init : Threads ℕ Lock Reading) h s ∧
      Meets (fun _ => CallsOnly may) h ∧ s.outside 0 ∧ locksOf 0 s.held = [(.config, .read)] := by
  obtain ⟨h, s, hr, hm, hs⟩ := exists_run_observing (step (procedures core))
    (fun _ a => match a.2 with | .call _ => false | _ => true) .init dispatchRun
    (fun _ s => (s.outside 0, locksOf 0 s.held)) (v := (true, [(.config, .read)])) rfl
  obtain ⟨hout, hlocks⟩ := Prod.mk.inj hs
  refine ⟨h, s, hr, hm.mono fun _ a ha c hc => ?_, hout, hlocks⟩
  simp [hc] at ha

/-- The discipline holds in all runs if and only if what the bindings start asks for neither
`hash_rwlock` nor a reload. -/
theorem lock_discipline_iff (core : Core) (may : EntryPoint → Prop) :
    (∀ h s, Run (step (procedures core)) (Threads.init : Threads ℕ Lock Reading) h s →
      Meets (fun _ => CallsOnly may) h → Disciplined Admissible s) ↔
    ∀ c, c.callable → may c → c.asks core = false := by
  constructor
  · intro hall c hc hm
    by_contra ha
    obtain ⟨h, s, hr, hmeets, hout, hlocks⟩ := exists_run_to_binding core may
    obtain ⟨s₁, k, hcall, hcode, hheld⟩ :=
      exists_call (P := procedures core) hout hc
    have hmeets₁ : Meets (fun _ => CallsOnly may) ((s, 0, .call c) :: h) := by
      refine meets_cons.mpr ⟨?_, hmeets⟩
      rintro _ ⟨⟩
      exact hm
    obtain ⟨l, m, hfirst, hbad⟩ := oversteps_of_asks (eq_true_of_ne_false ha)
    obtain ⟨h', s', hr', hm', hreq, hheld'⟩ :=
      exists_run_to_firstLock (hr.snoc hcall) hmeets₁ hcode hfirst
    have hok := hall h' s' hr' hm' 0 l m hreq
    rw [hheld', hheld, hlocks] at hok
    exact hbad hok
  · intro ha h s hr hm
    exact disciplined_of_run (procedures_verified may ha) hr hm

/-- A binding whose application joins another broadcast. -/
theorem binding_requests_hash : ¬ ∀ (core : Core) (h) (s : Threads ℕ Lock Reading),
    Run (step (procedures core)) .init h s → Disciplined Admissible s := by
  intro hall
  refine not_forall_run (fun _ _ => true) (dispatchRun ++ [(0, .call (.app "b")), (0, .step)])
    (fun _ s => (s.request 0, locksOf 0 s.held))
    (v := (some (.hash, .read), [(.config, .read)])) rfl ?_ (hall plainCore)
  intro h s hr hm hs hd
  obtain ⟨hreq, hlocks⟩ := Prod.mk.inj hs
  have hok := (hd 0 .hash .read hreq).1 rfl
  rw [hlocks] at hok
  exact Bool.noConfusion (hok _ (List.mem_singleton_self _))

end ModBroadcast.Locks
