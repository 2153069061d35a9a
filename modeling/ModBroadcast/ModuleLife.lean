import ModBroadcast.Automaton
import Mathlib.Tactic.Common

namespace ModBroadcast

open Automaton

inductive Resource
  | absent | live | freed
  deriving DecidableEq

/-- `mod_broadcast_runtime`; `lock` and `walk` are `broadcast_runtime_housekeeping`. -/
inductive RuntimePc
  | absent | enter | outer
  | slice (i : ℕ)
  | test | lock | walk | leave | ended
  deriving DecidableEq

/-- `broadcast_event_emitter_run`; `lock` and `walk` are a pass over the broadcasts. -/
inductive EmitterThreadPc
  | absent | top | lock | walk | ended
  deriving DecidableEq

inductive ModulePc
  | load | configPool | configLoad | emitterStart | loaded | failed
  | poll (guard : ℕ)
  | emitterStop | emitterJoin | destroyAll | destroyOne
  | configUnload | freeConfigLock | freeHash | freeHashLock
  | unloaded
  deriving DecidableEq

/-- What the three threads share of `broadcast_globals`, and where they are. -/
structure ModuleState where
  running : Bool
  runtime_thread_running : Bool
  emitter_running : Bool
  event_emitter_thread : Bool
  config_pool : Resource
  broadcast_hash : Resource
  hash_rwlock : Resource
  config_rwlock : Resource
  main : ModulePc
  runtime : RuntimePc
  emitter : EmitterThreadPc
  deriving DecidableEq

def ModuleState.init : ModuleState :=
  ⟨false, false, false, false, .absent, .absent, .absent, .absent, .load, .absent, .absent⟩

/-- A step of one of the threads; `ok` resolves what can fail, whether a walk is over, and whether
no broadcast is left to destroy. -/
inductive ModuleAction
  | main (ok : Bool)
  | runtime (ok : Bool)
  | emitter (ok : Bool)
  deriving DecidableEq

def ModuleState.HashRead (s : ModuleState) : Prop := s.runtime = .walk ∨ s.emitter = .walk

instance : DecidablePred ModuleState.HashRead := fun _ => inferInstanceAs (Decidable (_ ∨ _))

def mainStep (s : ModuleState) (ok : Bool) : Option ModuleState :=
  match s.main with
  | .load => some { s with
      running := true
      broadcast_hash := .live
      hash_rwlock := .live
      config_rwlock := .live
      main := .configPool }
  | .configPool => some (if ok then { s with config_pool := .live, main := .configLoad }
      else { s with main := .failed })
  | .configLoad => some (if ok then { s with main := .emitterStart }
      else { s with config_pool := .freed, main := .failed })
  -- the core starts the runtime thread of a module that it has loaded
  | .emitterStart => some (if ok then { s with
        emitter_running := true
        event_emitter_thread := true
        emitter := .top
        runtime := .enter
        main := .loaded }
      else { s with emitter_running := true, main := .failed })
  | .failed => none
  | .loaded => some { s with running := false, main := .poll 0 }
  -- the wait of at most ten seconds for the pass in progress
  | .poll guard => some (if s.runtime_thread_running ∧ guard < 500 then
      { s with main := .poll (guard + 1) } else { s with main := .emitterStop })
  | .emitterStop => some { s with
      emitter_running := false
      main := if s.event_emitter_thread then .emitterJoin else .destroyAll }
  | .emitterJoin => if s.emitter = .ended then
      some { s with event_emitter_thread := false, main := .destroyAll } else none
  -- `broadcast_destroy_all` looks for a broadcast, and `broadcast_destroy` deletes it from the
  -- table, under the write lock of `hash_rwlock`
  | .destroyAll => if s.HashRead then none
    else some { s with main := if ok then .configUnload else .destroyOne }
  | .destroyOne => if s.HashRead then none else some { s with main := .destroyAll }
  | .configUnload => some { s with
      config_pool := if s.config_pool = .live then .freed else s.config_pool
      main := .freeConfigLock }
  | .freeConfigLock => some { s with
      config_rwlock := if s.config_rwlock = .live then .freed else s.config_rwlock
      main := .freeHash }
  | .freeHash => some { s with
      broadcast_hash := if s.broadcast_hash = .live then .freed else s.broadcast_hash
      main := .freeHashLock }
  | .freeHashLock => some { s with
      hash_rwlock := if s.hash_rwlock = .live then .freed else s.hash_rwlock
      main := .unloaded }
  | .unloaded => none

def runtimeStep (s : ModuleState) (ok : Bool) : Option ModuleState :=
  match s.runtime with
  | .absent | .ended => none
  | .enter => some { s with runtime_thread_running := true, runtime := .outer }
  | .outer => some { s with runtime := if s.running then .slice 0 else .leave }
  -- fifty slices of a tenth of a second, as long as nobody unloads
  | .slice i => some { s with runtime := if i < 50 ∧ s.running then .slice (i + 1) else .test }
  | .test => some { s with runtime := if s.running then .lock else .leave }
  | .lock => some { s with runtime := .walk }
  | .walk => some { s with runtime := if ok then .outer else .walk }
  | .leave => some { s with runtime_thread_running := false, runtime := .ended }

def emitterStep (s : ModuleState) (ok : Bool) : Option ModuleState :=
  match s.emitter with
  | .absent | .ended => none
  | .top => some { s with emitter := if s.emitter_running then .lock else .ended }
  | .lock => some { s with emitter := .walk }
  | .walk => some { s with emitter := if ok then .top else .walk }

def moduleStep (s : ModuleState) : ModuleAction → Option ModuleState
  | .main ok => mainStep s ok
  | .runtime ok => runtimeStep s ok
  | .emitter ok => emitterStep s ok

variable {s t : ModuleState} {a : ModuleAction} {h : List (ModuleState × ModuleAction)} {ok : Bool}

def RuntimePc.InPass (k : RuntimePc) : Prop := k = .lock ∨ k = .walk

def EmitterThreadPc.InPass (k : EmitterThreadPc) : Prop := k = .lock ∨ k = .walk

/-- How far it has come: 0 until the module is loaded, and then the steps of the unloading. -/
def ModulePc.stage : ModulePc → ℕ
  | .loaded => 1
  | .poll _ => 2
  | .emitterStop => 3
  | .emitterJoin => 4
  | .destroyAll | .destroyOne => 5
  | .configUnload => 6
  | .freeConfigLock => 7
  | .freeHash => 8
  | .freeHashLock => 9
  | .unloaded => 10
  | _ => 0

def ModulePc.table (k : ℕ) (main : ModulePc) : Resource :=
  if main = .load then .absent else if main.stage ≤ k then .live else .freed

/-- The module as the thread that loads and unloads it leaves it on its way: nobody else writes
these fields, except for the places of the other threads and the flag of the runtime thread. -/
def ModulePc.state (main : ModulePc) (flag : Bool) (k : RuntimePc) (e : EmitterThreadPc) :
    ModuleState where
  running := decide (main ≠ .load ∧ main.stage ≤ 1)
  runtime_thread_running := flag
  emitter_running := decide (0 < main.stage ∧ main.stage ≤ 3)
  event_emitter_thread := decide (0 < main.stage ∧ main.stage ≤ 4)
  config_pool := if main = .load ∨ main = .configPool then .absent
    else if main.stage ≤ 6 then .live else .freed
  broadcast_hash := main.table 8
  hash_rwlock := main.table 9
  config_rwlock := main.table 7
  main := main
  runtime := k
  emitter := e

/-- What the threads have to do with each other. -/
structure ModuleSound (s : ModuleState) : Prop where
  fields : s.main ≠ .failed → s = s.main.state s.runtime_thread_running s.runtime s.emitter
  flag : s.runtime_thread_running = true ↔
    s.runtime ≠ .absent ∧ s.runtime ≠ .enter ∧ s.runtime ≠ .ended
  absent : s.main.stage = 0 → s.runtime = .absent
  emitter : s.emitter = .absent ↔ s.main.stage = 0
  joined : 4 < s.main.stage → s.emitter = .ended

/-- When no broadcast is left to destroy, the runtime thread is not about to begin a pass. -/
def PassOver (s : ModuleState) (a : ModuleAction) : Prop :=
  a = .main true → s.main = .destroyAll → s.runtime ≠ .lock

instance (s : ModuleState) (a : ModuleAction) : Decidable (PassOver s a) :=
  inferInstanceAs (Decidable (_ → _ → _))

def PassDone (s : ModuleState) : Prop := s.runtime.InPass → s.main.stage ≤ 5

theorem PassDone.init : PassDone .init := fun _ => Nat.zero_le 5

theorem ModuleSound.init : ModuleSound .init := by
  constructor <;> simp [ModuleState.init, ModulePc.state, ModulePc.stage, ModulePc.table]

/-- A pass begins only while the module runs. -/
theorem runtimeStep_pass (h : runtimeStep s ok = some t) (ht : t.runtime.InPass) :
    s.runtime.InPass ∨ s.running = true := by
  cases hpc : s.runtime with
  | absent | ended => simp [runtimeStep, hpc] at h
  | lock => exact .inl (.inl rfl)
  | walk => exact .inl (.inr rfl)
  | _ =>
    simp only [runtimeStep, hpc] at h
    obtain rfl := Option.some.inj h
    dsimp only [RuntimePc.InPass] at ht
    (try split_ifs at ht with hrun) <;> simp_all

theorem runtimeStep_eq (h : runtimeStep s ok = some t) : t = { s with
    runtime := t.runtime, runtime_thread_running := t.runtime_thread_running } := by
  cases hpc : s.runtime with
  | absent | ended => simp [runtimeStep, hpc] at h
  | _ =>
    simp only [runtimeStep, hpc] at h
    obtain rfl := Option.some.inj h
    rfl

theorem runtimeStep_flag (h : runtimeStep s ok = some t)
    (hf : s.runtime_thread_running = true ↔
      s.runtime ≠ .absent ∧ s.runtime ≠ .enter ∧ s.runtime ≠ .ended) :
    t.runtime_thread_running = true ↔
      t.runtime ≠ .absent ∧ t.runtime ≠ .enter ∧ t.runtime ≠ .ended := by
  cases hpc : s.runtime with
  | absent | ended => simp [runtimeStep, hpc] at h
  | _ =>
    simp only [runtimeStep, hpc] at h
    obtain rfl := Option.some.inj h
    (try split_ifs) <;> simp_all

theorem emitterStep_eq (h : emitterStep s ok = some t) :
    t = { s with emitter := t.emitter } ∧ s.emitter ≠ .absent ∧ s.emitter ≠ .ended ∧
      t.emitter ≠ .absent := by
  cases hpc : s.emitter with
  | absent | ended => simp [emitterStep, hpc] at h
  | _ =>
    simp only [emitterStep, hpc] at h
    obtain rfl := Option.some.inj h
    (try split_ifs) <;> simp

theorem ModuleSound.runs (hi : ModuleSound s) (hne : s.main ≠ .failed) (hr : s.running = true) :
    s.main.stage ≤ 1 := by
  rw [hi.fields hne] at hr
  exact (of_decide_eq_true hr).2

theorem ModuleSound.runtimeStep (hi : ModuleSound s) (hs : runtimeStep s ok = some t) :
    ModuleSound t := by
  have hflag := runtimeStep_flag hs hi.flag
  have heq := runtimeStep_eq hs
  have hne : s.main.stage ≠ 0 := fun hl => by
    simp [ModBroadcast.runtimeStep, hi.absent hl] at hs
  have hfields := hi.fields
  generalize t.runtime = k at heq hflag
  generalize t.runtime_thread_running = f at heq hflag
  subst heq
  refine ⟨fun hf => ?_, hflag, fun hl => absurd hl hne, hi.emitter, hi.joined⟩
  exact congrArg (fun s : ModuleState => { s with runtime := k, runtime_thread_running := f })
    (hfields hf)

theorem ModuleSound.emitterStep (hi : ModuleSound s) (hs : emitterStep s ok = some t) :
    ModuleSound t := by
  obtain ⟨heq, habs, hend, hne⟩ := emitterStep_eq hs
  have hfields := hi.fields
  generalize t.emitter = k at heq hne
  subst heq
  refine ⟨fun hf => ?_, hi.flag, hi.absent, ?_, fun hst => absurd (hi.joined hst) hend⟩
  · exact congrArg (fun s : ModuleState => { s with emitter := k }) (hfields hf)
  · exact iff_of_false hne fun h0 => habs (hi.emitter.mpr h0)

theorem moduleSound_state (main : ModulePc) {f : Bool} {k : RuntimePc} {e : EmitterThreadPc}
    (hflag : f = true ↔ k ≠ .absent ∧ k ≠ .enter ∧ k ≠ .ended) (hmain : main.stage ≠ 0)
    (he : e ≠ .absent) (hjoined : 4 < main.stage → e = .ended) :
    ModuleSound (main.state f k e) where
  fields _ := rfl
  flag := hflag
  absent h0 := absurd h0 hmain
  emitter := iff_of_false he fun h0 => hmain h0
  joined := hjoined

theorem ModuleSound.mainStep (hi : ModuleSound s) (hs : mainStep s ok = some t) :
    ModuleSound t := by
  obtain ⟨hfields, hflag, habsent, hemitter, hjoined⟩ := hi
  have hne : s.main ≠ .failed := fun hf => by simp [ModBroadcast.mainStep, hf] at hs
  rw [hfields hne] at hs
  generalize s.runtime_thread_running = f, s.runtime = k, s.emitter = e, s.main = main at *
  have hthere : main.stage ≠ 0 → e ≠ .absent := fun h0 he => h0 (hemitter.mp he)
  cases main with
  | failed | unloaded => cases hs
  | load =>
    obtain rfl := Option.some.inj hs
    exact ⟨fun _ => rfl, hflag, habsent, hemitter, hjoined⟩
  | configPool | configLoad =>
    cases ok <;> obtain rfl := Option.some.inj hs
    · exact ⟨fun h => absurd rfl h, hflag, habsent, hemitter, hjoined⟩
    · exact ⟨fun _ => rfl, hflag, habsent, hemitter, hjoined⟩
  | emitterStart =>
    cases ok <;> obtain rfl := Option.some.inj hs
    · exact ⟨fun h => absurd rfl h, hflag, habsent, hemitter, hjoined⟩
    · have hf : f = false := Bool.eq_false_iff.mpr fun hf => (hflag.mp hf).1 (habsent rfl)
      exact moduleSound_state .loaded (f := f) (k := .enter) (e := .top) (by simp [hf])
        (by decide) (by decide) fun h4 => absurd h4 (by decide)
  | loaded =>
    obtain rfl := Option.some.inj hs
    exact moduleSound_state (.poll 0) hflag (by decide) (hthere (by decide))
      fun h4 => absurd h4 (by decide)
  | poll guard =>
    obtain rfl := Option.some.inj hs
    have he := hthere fun h0 => (nomatch h0)
    split_ifs
    · exact moduleSound_state (.poll (guard + 1)) hflag (fun h0 => nomatch h0) he hjoined
    · exact moduleSound_state .emitterStop hflag (by decide) he
        fun h4 => absurd h4 (by decide)
  | emitterStop =>
    obtain rfl := Option.some.inj hs
    exact moduleSound_state .emitterJoin hflag (by decide) (hthere (by decide))
      fun h4 => absurd h4 (by decide)
  | emitterJoin =>
    by_cases hend : e = .ended
    · subst hend
      obtain rfl := Option.some.inj hs
      exact moduleSound_state .destroyAll (e := .ended) hflag (by decide) (by decide)
        fun _ => rfl
    · have hnone : ModBroadcast.mainStep (ModulePc.emitterJoin.state f k e) ok = none := if_neg hend
      rw [hnone] at hs
      cases hs
  | destroyAll =>
    by_cases hread : (ModulePc.destroyAll.state f k e).HashRead
    · have hnone : ModBroadcast.mainStep (ModulePc.destroyAll.state f k e) ok = none := if_pos hread
      rw [hnone] at hs
      cases hs
    · cases ok
      · have hsome : ModBroadcast.mainStep (ModulePc.destroyAll.state f k e) false =
          some (ModulePc.destroyOne.state f k e) := if_neg hread
        obtain rfl := Option.some.inj (hsome.symm.trans hs)
        exact moduleSound_state .destroyOne hflag (by decide) (hthere (by decide))
          fun _ => hjoined (by decide)
      · have hsome : ModBroadcast.mainStep (ModulePc.destroyAll.state f k e) true =
          some (ModulePc.configUnload.state f k e) := if_neg hread
        obtain rfl := Option.some.inj (hsome.symm.trans hs)
        exact moduleSound_state .configUnload hflag (by decide) (hthere (by decide))
          fun _ => hjoined (by decide)
  | destroyOne =>
    by_cases hread : (ModulePc.destroyOne.state f k e).HashRead
    · have hnone : ModBroadcast.mainStep (ModulePc.destroyOne.state f k e) ok = none := if_pos hread
      rw [hnone] at hs
      cases hs
    · have hsome : ModBroadcast.mainStep (ModulePc.destroyOne.state f k e) ok =
        some (ModulePc.destroyAll.state f k e) := if_neg hread
      obtain rfl := Option.some.inj (hsome.symm.trans hs)
      exact moduleSound_state .destroyAll hflag (by decide) (hthere (by decide))
        fun _ => hjoined (by decide)
  | configUnload | freeConfigLock | freeHash | freeHashLock =>
    obtain rfl := Option.some.inj hs
    exact ⟨fun _ => rfl, hflag, fun h0 => (nomatch h0),
      iff_of_false (hthere (by decide)) fun h0 => (nomatch h0), fun _ => hjoined (by decide)⟩

theorem ModuleSound.step (hi : ModuleSound s) (hs : moduleStep s a = some t) : ModuleSound t := by
  cases a with
  | main ok => exact hi.mainStep hs
  | runtime ok => exact hi.runtimeStep hs
  | emitter ok => exact hi.emitterStep hs

theorem moduleSound_of_run (hr : Run moduleStep .init h s) : ModuleSound s :=
  hr.invariant (g := fun _ _ => True) (fun _ _ _ hi _ hs => hi.step hs) (fun _ _ => trivial) .init

def ModulePc.patience : ModulePc → ℕ
  | .load | .configPool | .configLoad | .emitterStart | .loaded | .failed => 500
  | .poll guard => 500 - guard
  | _ => 0

def ModuleState.waits (s : ModuleState) : ModuleAction → Bool
  | .main _ => match s.main with
    | .poll guard => s.runtime_thread_running && decide (guard < 500)
    | _ => false
  | _ => false

theorem moduleStep_patience (hs : moduleStep s a = some t) :
    t.main.patience + (if s.waits a then 1 else 0) ≤ s.main.patience := by
  cases a with
  | runtime ok =>
    rw [runtimeStep_eq hs]
    simp [ModuleState.waits]
  | emitter ok =>
    rw [(emitterStep_eq hs).1]
    simp [ModuleState.waits]
  | main ok =>
    cases hpc : s.main with
    | failed | unloaded => simp [moduleStep, mainStep, hpc] at hs
    | poll guard =>
      simp only [moduleStep, mainStep, hpc] at hs
      obtain rfl := Option.some.inj hs
      simp only [ModuleState.waits, hpc, Bool.and_eq_true, decide_eq_true_eq]
      split_ifs with hwait <;> simp only [ModulePc.patience] <;> omega
    | emitterStop =>
      have hw : s.waits (.main ok) = false := by simp [ModuleState.waits, hpc]
      rw [hw, if_neg Bool.false_ne_true]
      simp only [moduleStep, mainStep, hpc] at hs
      obtain rfl := Option.some.inj hs
      dsimp only
      split_ifs <;> simp [ModulePc.patience]
    | _ =>
      have hw : s.waits (.main ok) = false := by simp [ModuleState.waits, hpc]
      rw [hw, if_neg Bool.false_ne_true]
      simp only [moduleStep, mainStep, hpc] at hs
      (try split_ifs at hs) <;> obtain rfl := Option.some.inj hs <;>
        simp [ModulePc.patience]

theorem mainStep_stage (hs : mainStep s ok = some t) : s.main.stage ≤ t.main.stage := by
  cases hpc : s.main with
  | failed | unloaded => simp [mainStep, hpc] at hs
  | emitterStop =>
    simp only [mainStep, hpc] at hs
    obtain rfl := Option.some.inj hs
    dsimp only
    split_ifs <;> simp [ModulePc.stage]
  | destroyAll | destroyOne =>
    simp only [mainStep, hpc] at hs
    split_ifs at hs <;> obtain rfl := Option.some.inj hs <;> simp [ModulePc.stage]
  | _ =>
    simp only [mainStep, hpc] at hs
    (try split_ifs at hs) <;> obtain rfl := Option.some.inj hs <;> simp [ModulePc.stage]

theorem moduleStep_stage (hs : moduleStep s a = some t) : s.main.stage ≤ t.main.stage := by
  cases a with
  | runtime ok => exact Nat.le_of_eq (by rw [runtimeStep_eq hs])
  | emitter ok => exact Nat.le_of_eq (by rw [(emitterStep_eq hs).1])
  | main ok => exact mainStep_stage hs

/-- A step of the loading and unloading thread after which the broadcasts are destroyed found none
left, under the write lock; or they were destroyed before. -/
theorem mainStep_destroyed (hs : mainStep s ok = some t) (hst : 5 < t.main.stage) :
    5 < s.main.stage ∨ s.main = .destroyAll ∧ ok = true ∧ ¬ s.HashRead := by
  cases hpc : s.main with
  | failed | unloaded => simp [mainStep, hpc] at hs
  | configUnload | freeConfigLock | freeHash | freeHashLock => exact .inl (by decide)
  | destroyAll =>
    simp only [mainStep, hpc] at hs
    split_ifs at hs with hread hok <;> obtain rfl := Option.some.inj hs
    · exact .inr ⟨rfl, hok, hread⟩
    · simp [ModulePc.stage] at hst
  | _ =>
    simp only [mainStep, hpc] at hs
    (try split_ifs at hs) <;> obtain rfl := Option.some.inj hs <;> simp [ModulePc.stage] at hst

/-- The loading and unloading thread starts the runtime thread and leaves it alone. -/
theorem mainStep_runtime (hs : mainStep s ok = some t) :
    t.runtime = s.runtime ∨ s.main = .emitterStart ∧ t.main = .loaded := by
  cases hpc : s.main with
  | failed | unloaded => simp [mainStep, hpc] at hs
  | emitterStart =>
    cases ok <;> simp only [mainStep, hpc] at hs <;> obtain rfl := Option.some.inj hs
    · exact .inl rfl
    · exact .inr ⟨rfl, rfl⟩
  | _ =>
    simp only [mainStep, hpc] at hs
    (try split_ifs at hs) <;> obtain rfl := Option.some.inj hs <;> exact .inl rfl

theorem PassDone.step (hsound : ModuleSound s) (hi : PassDone s) (hg : PassOver s a)
    (hs : moduleStep s a = some t) : PassDone t := by
  cases a with
  | emitter ok =>
    rw [(emitterStep_eq hs).1]
    exact hi
  | runtime ok =>
    have hpass := runtimeStep_pass hs
    have hmain : t.main = s.main := by rw [runtimeStep_eq hs]
    intro hk
    rw [hmain]
    refine (hpass hk).elim hi fun hr => Nat.le_trans (hsound.runs (fun hf => ?_) hr) (by decide)
    have habs := hsound.absent (by rw [hf]; rfl)
    simp [moduleStep, runtimeStep, habs] at hs
  | main ok =>
    intro hk
    by_contra hst
    rcases mainStep_runtime hs with hsame | ⟨-, hl⟩
    · rw [hsame] at hk
      rcases mainStep_destroyed hs (Nat.lt_of_not_le hst) with hold | ⟨hd, rfl, hread⟩
      · exact absurd (hi hk) (Nat.not_le_of_lt hold)
      -- the pass is neither under way nor about to begin
      · exact hk.elim (hg rfl hd) fun hw => hread (.inl hw)
    · exact hst (by rw [hl]; decide)

/-- Whoever uses a table in the step finds it live; freeing is a use. -/
structure UsesLive (s : ModuleState) (a : ModuleAction) : Prop where
  runtime : ∀ ok, a = .runtime ok → s.runtime.InPass →
    s.hash_rwlock = .live ∧ s.broadcast_hash = .live
  emitter : ∀ ok, a = .emitter ok → s.emitter.InPass →
    s.hash_rwlock = .live ∧ s.broadcast_hash = .live
  destroyAll : ∀ ok, a = .main ok → s.main = .destroyAll ∨ s.main = .destroyOne →
    s.hash_rwlock = .live ∧ s.broadcast_hash = .live ∧ s.emitter = .ended
  unload : ∀ ok, a = .main ok → s.main = .configUnload →
    s.config_rwlock = .live ∧ s.config_pool = .live
  free : ∀ ok, a = .main ok → (s.main = .freeConfigLock → s.config_rwlock = .live) ∧
    (s.main = .freeHash → s.broadcast_hash = .live) ∧
      (s.main = .freeHashLock → s.hash_rwlock = .live)

theorem table_live {main : ModulePc} {k : ℕ} (hne : main.stage ≠ 0) (hk : main.stage ≤ k) :
    main.table k = .live := by
  have hload : main ≠ .load := fun hl => by simp [hl, ModulePc.stage] at hne
  rw [ModulePc.table, if_neg hload, if_pos hk]

theorem ModuleSound.hash (hi : ModuleSound s) (hne : s.main.stage ≠ 0) (hk : s.main.stage ≤ 8) :
    s.hash_rwlock = .live ∧ s.broadcast_hash = .live := by
  rw [hi.fields fun hf => by simp [hf, ModulePc.stage] at hne]
  exact ⟨table_live hne (Nat.le_succ_of_le hk), table_live hne hk⟩

theorem ModuleSound.usesLive (hi : ModuleSound s) (hp : PassDone s) : UsesLive s a := by
  have hfields := hi.fields
  refine ⟨fun ok _ hk => hi.hash (fun h0 => ?_) ?_, fun ok _ hk => hi.hash (fun h0 => ?_) ?_,
    fun ok _ hm => ?_, fun ok _ hm => ?_, fun ok _ => ⟨fun hm => ?_, fun hm => ?_, fun hm => ?_⟩⟩
  · rcases hk with hk | hk <;> simp [hi.absent h0] at hk
  · exact Nat.le_trans (hp hk) (by decide)
  · rcases hk with hk | hk <;> simp [hi.emitter.mpr h0] at hk
  · by_contra hst
    have hended := hi.joined (by omega)
    rcases hk with hk | hk <;> simp [hended] at hk
  · have hst : s.main.stage = 5 := by rcases hm with hm | hm <;> rw [hm] <;> rfl
    obtain ⟨hlock, htable⟩ := hi.hash (by omega) (by omega)
    exact ⟨hlock, htable, hi.joined (by omega)⟩
  · constructor <;> rw [hfields (by simp [hm]), hm] <;> rfl
  all_goals rw [hfields (by simp [hm]), hm]; rfl

def EmitterThreadPc.rank : EmitterThreadPc → ℕ
  | .lock => 3
  | .walk => 2
  | .top => 1
  | .absent | .ended => 0

/-- What is left of the unloading, in steps of the unloading thread. -/
def ModulePc.left : ModulePc → ℕ
  | .loaded => 509
  | .poll guard => 8 + (500 - guard)
  | .destroyOne => 6
  | main => 10 - main.stage

def RuntimeStill (_ : ModuleState) (a : ModuleAction) : Prop := ∀ ok, a ≠ .runtime ok

def Unloads (s : ModuleState) : Prop := ∃ a t, RuntimeStill s a ∧ moduleStep s a = some t ∧
  0 < t.main.stage ∧ t.runtime = s.runtime ∧
    4 * t.main.left + t.emitter.rank < 4 * s.main.left + s.emitter.rank

theorem unloads_main {main : ModulePc} (main' : ModulePc) {f : Bool} {k : RuntimePc}
    {e : EmitterThreadPc}
    (hs : moduleStep (main.state f k e) (.main true) = some (main'.state f k e))
    (hst : 0 < main'.stage) (hl : main'.left < main.left) : Unloads (main.state f k e) := by
  refine ⟨.main true, _, fun _ => by simp, hs, hst, rfl, ?_⟩
  show 4 * main'.left + e.rank < 4 * main.left + e.rank
  omega

theorem unloads_emitter {main : ModulePc} {f : Bool} {k : RuntimePc} {e : EmitterThreadPc}
    (e' : EmitterThreadPc)
    (hs : moduleStep (main.state f k e) (.emitter true) = some (main.state f k e'))
    (hst : 0 < main.stage) (he : e'.rank < e.rank) : Unloads (main.state f k e) := by
  refine ⟨.emitter true, _, fun _ => by simp, hs, hst, rfl, ?_⟩
  show 4 * main.left + e'.rank < 4 * main.left + e.rank
  omega

/-- The unloading goes on without the runtime thread, unless that holds the lock it needs. -/
theorem ModuleSound.unloads (hi : ModuleSound s) (hst : 0 < s.main.stage)
    (hread : s.runtime = .walk → 5 < s.main.stage) (hend : s.main ≠ .unloaded) : Unloads s := by
  have hfields := hi.fields fun hf => by simp [hf, ModulePc.stage] at hst
  have hthere : s.emitter ≠ .absent := fun he => by
    have := hi.emitter.mp he
    omega
  have hjoined := hi.joined
  generalize s.runtime_thread_running = f, s.runtime = k, s.emitter = e, s.main = main at *
  subst hfields
  -- nobody else is left to hold the lock
  have hfree : main.stage = 5 → ¬ (main.state f k e).HashRead := by
    rintro h5 (hk | he)
    · exact absurd (hread hk) (by omega)
    · have hended := hjoined (by omega)
      cases hended.symm.trans he
  cases main with
  | load | configPool | configLoad | emitterStart | failed => exact absurd hst (by decide)
  | unloaded => exact absurd rfl hend
  | loaded => exact unloads_main (.poll 0) rfl (by decide) (by decide)
  | poll guard =>
    by_cases hwait : f = true ∧ guard < 500
    · refine unloads_main (.poll (guard + 1)) (congrArg some (if_pos hwait)) Nat.two_pos ?_
      simp only [ModulePc.left]
      omega
    · refine unloads_main .emitterStop (congrArg some (if_neg hwait)) (by decide) ?_
      simp only [ModulePc.left, ModulePc.stage]
      omega
  | emitterStop => exact unloads_main .emitterJoin rfl (by decide) (by decide)
  | emitterJoin =>
    cases e with
    | absent => exact absurd rfl hthere
    | ended => exact unloads_main .destroyAll rfl (by decide) (by decide)
    | top => exact unloads_emitter .ended rfl (by decide) (by decide)
    | lock => exact unloads_emitter .walk rfl (by decide) (by decide)
    | walk => exact unloads_emitter .top rfl (by decide) (by decide)
  | destroyAll => exact unloads_main .configUnload (if_neg (hfree rfl)) (by decide) (by decide)
  | destroyOne => exact unloads_main .destroyAll (if_neg (hfree rfl)) (by decide) (by decide)
  | configUnload => exact unloads_main .freeConfigLock rfl (by decide) (by decide)
  | freeConfigLock => exact unloads_main .freeHash rfl (by decide) (by decide)
  | freeHash => exact unloads_main .freeHashLock rfl (by decide) (by decide)
  | freeHashLock => exact unloads_main .unloaded rfl (by decide) (by decide)

/-- The module can be unloaded while the runtime thread stands still. -/
def UnloadsAlone (s : ModuleState) : Prop :=
  ∃ h t, Run moduleStep s h t ∧ Meets RuntimeStill h ∧ t.main = .unloaded

theorem ModuleSound.unloadsAlone (hi : ModuleSound s) (hst : 0 < s.main.stage)
    (hread : s.runtime = .walk → 5 < s.main.stage) :
    ∃ h t, Run moduleStep s h t ∧ Meets RuntimeStill h ∧ t.main = .unloaded ∧
      t.runtime = s.runtime := by
  have hreach : ∃ h t, Run moduleStep s h t ∧ Meets RuntimeStill h ∧
      (ModuleSound t ∧ 0 < t.main.stage ∧ (t.runtime = .walk → 5 < t.main.stage) ∧
        t.runtime = s.runtime) ∧ t.main = .unloaded := by
    refine exists_run_of_measure (fun t => 4 * t.main.left + t.emitter.rank) ?_
      ⟨hi, hst, hread, rfl⟩
    rintro t ⟨hi, hst, hread, hsame⟩ hend
    obtain ⟨a, u, ha, hs, hst', hruntime, hlt⟩ := hi.unloads hst hread hend
    refine ⟨_, u, Run.nil.snoc hs, meets_cons.mpr ⟨ha, meets_nil _⟩,
      ⟨hi.step hs, hst', fun hw => ?_, hruntime.trans hsame⟩, hlt⟩
    rw [hruntime] at hw
    exact Nat.lt_of_lt_of_le (hread hw) (moduleStep_stage hs)
  obtain ⟨h, t, hr, hm, ⟨-, -, -, hsame⟩, hend⟩ := hreach
  exact ⟨h, t, hr, hm, hend, hsame⟩

/-- Behind a pass that does not end nothing gets past the write lock. -/
theorem walk_step (hw : s.runtime = .walk) (hst : s.main.stage ≤ 5) (hl : 0 < s.main.stage)
    (ha : RuntimeStill s a) (hs : moduleStep s a = some t) :
    t.runtime = .walk ∧ t.main.stage ≤ 5 ∧ 0 < t.main.stage := by
  have hle := moduleStep_stage hs
  cases a with
  | runtime ok => exact absurd rfl (ha ok)
  | emitter ok =>
    rw [(emitterStep_eq hs).1]
    exact ⟨hw, hst, hl⟩
  | main ok =>
    have hruntime : t.runtime = s.runtime := by
      refine (mainStep_runtime hs).resolve_right fun hstart => ?_
      rw [hstart.1] at hl
      exact absurd hl (by decide)
    refine ⟨hruntime.trans hw, ?_, Nat.lt_of_lt_of_le hl hle⟩
    by_contra hlt
    rcases mainStep_destroyed hs (Nat.lt_of_not_le hlt) with hold | ⟨-, -, hread⟩
    · omega
    · exact hread (.inl hw)

/-- Unloading waits for the runtime thread at most five hundred times, and can be completed without
it exactly if that does not hold the lock, or the last write lock has been taken. -/
theorem unload_completes (hr : Run moduleStep .init h s) (hst : 1 < s.main.stage) :
    h.countP (fun x => x.1.waits x.2) ≤ 500 ∧
      (UnloadsAlone s ↔ s.runtime ≠ .walk ∨ 5 < s.main.stage) := by
  constructor
  · have hle := hr.count_le (fun s => s.main.patience) (I := fun _ => True)
      (P := ModuleState.waits) (fun _ _ _ _ hs => ⟨trivial, moduleStep_patience hs⟩) trivial
    have : (ModuleState.init.main).patience = 500 := rfl
    omega
  · constructor
    · rintro ⟨h', t, hr', hm, hend⟩
      by_contra hno
      obtain ⟨hw, hle⟩ := not_or.mp hno
      obtain ⟨-, hstage, -⟩ := hr'.invariant
        (I := fun s => s.runtime = .walk ∧ s.main.stage ≤ 5 ∧ 0 < s.main.stage)
        (fun _ _ _ hi hg hs => walk_step hi.1 hi.2.1 hi.2.2 hg hs) hm
        ⟨not_not.mp hw, Nat.le_of_not_lt hle, Nat.lt_of_succ_lt hst⟩
      rw [hend] at hstage
      exact absurd hstage (by decide)
    · intro hread
      obtain ⟨h', t, hr', hm, hend, -⟩ := (moduleSound_of_run hr).unloadsAlone
        (Nat.lt_of_succ_lt hst) fun hw => hread.resolve_left fun hno => hno hw
      exact ⟨h', t, hr', hm, hend⟩

/-- If the runtime thread is not about to begin a pass when the last broadcast has been destroyed,
no thread of the module uses a table that is not there, every table is freed once, and the
broadcasts are destroyed when the emitter has ended; and whenever it is about to begin a pass, the
tables can be freed before it has begun it. -/
theorem tables_live (hr : Run moduleStep .init h s) (hg : Meets PassOver h) :
    Meets UsesLive h ∧ (s.runtime = .lock →
      ∃ h' t, Run moduleStep s h' t ∧ ¬ Meets UsesLive h') := by
  constructor
  · exact hr.meets_of_invariant (I := fun s => ModuleSound s ∧ PassDone s)
      (fun _ _ _ hi hg hs => ⟨hi.1.step hs, hi.2.step hi.1 hg hs⟩)
      (fun _ _ _ hi _ _ => hi.1.usesLive hi.2) hg ⟨.init, .init⟩
  · intro hlock
    have hi := moduleSound_of_run hr
    have hst : 0 < s.main.stage := by
      by_contra h0
      have habs := hi.absent (by omega)
      cases hlock.symm.trans habs
    obtain ⟨h', t, hr', -, hend, hsame⟩ := hi.unloadsAlone hst fun hw => by
      cases hlock.symm.trans hw
    have ht : t.runtime = .lock := hsame.trans hlock
    have hs : ∃ u, moduleStep t (.runtime true) = some u := by
      simp [moduleStep, runtimeStep, ht]
    obtain ⟨u, hu⟩ := hs
    refine ⟨_, u, hr'.snoc hu, fun hm => ?_⟩
    have hlive := ((meets_cons.mp hm).1.runtime true rfl (.inl ht)).1
    have hfields := (hr'.invariant (g := fun _ _ => True)
      (fun _ _ _ hi _ hs => ModuleSound.step hi hs) (fun _ _ => trivial) hi).fields (by simp [hend])
    rw [hfields, hend] at hlive
    cases hlive

/-- The module is unloaded while a pass is in progress, for which it waits three times. -/
theorem tables_live_unloaded : ∃ h s, Run moduleStep .init h s ∧ s.main = .unloaded ∧
    s.broadcast_hash = .freed ∧ s.runtime = .ended ∧ Meets UsesLive h := by
  obtain ⟨h, s, hr, hm, hv⟩ := exists_run_observing moduleStep
    (fun s a => decide (PassOver s a)) .init
    (List.replicate 4 (.main true) ++ List.replicate 54 (.runtime true) ++
      [.emitter true, .main true, .main true, .emitter false, .main true, .main true] ++
      List.replicate 4 (.runtime true) ++ [.main true, .main true, .emitter true, .emitter true,
      .main true, .main false, .main true] ++ List.replicate 5 (.main true))
    (fun _ s => (s.main, s.broadcast_hash, s.runtime)) (v := (.unloaded, .freed, .ended))
    (by decide)
  simp only [Prod.mk.injEq] at hv
  obtain ⟨hmain, hhash, hruntime⟩ := hv
  have hg : Meets PassOver h := hm.mono fun _ _ => of_decide_eq_true
  exact ⟨h, s, hr, hmain, hhash, hruntime, (tables_live hr hg).1⟩

/-- Unloading begins while the runtime thread is in a pass that it does not leave. -/
theorem unload_completes_wedged : ∃ h s, Run moduleStep .init h s ∧ s.main = .poll 2 ∧
    s.runtime = .walk ∧ h.countP (fun x => x.1.waits x.2) ≤ 500 ∧ ¬ UnloadsAlone s := by
  obtain ⟨h, s, hr, -, hv⟩ := exists_run_observing moduleStep (fun _ _ => true) .init
    (List.replicate 4 (.main true) ++ List.replicate 55 (.runtime true) ++
      [.emitter true, .main true, .runtime false, .main true, .main true])
    (fun _ s => (s.main, s.runtime)) (v := (.poll 2, .walk)) (by decide)
  obtain ⟨hmain, hruntime⟩ := Prod.mk.inj hv
  obtain ⟨hwaits, hiff⟩ := unload_completes hr (by rw [hmain]; decide)
  refine ⟨h, s, hr, hmain, hruntime, hwaits, fun halone => ?_⟩
  exact (hiff.mp halone).elim (fun hne => hne hruntime) fun h5 => by
    rw [hmain] at h5
    exact absurd h5 (by decide)

end ModBroadcast
