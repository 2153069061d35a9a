import Mathlib.Tactic.SplitIfs
import ModBroadcast.Automaton
import ModBroadcast.Config
import ModBroadcast.KeyedList

namespace ModBroadcast

open Automaton KeyedList

def frameBytes (prof : BroadcastProfile) : ℕ :=
  let spf := prof.rate * prof.interval_ms % 2 ^ 32 / 1000
  spf * prof.channels % 2 ^ 32 * 2 % 2 ^ 32

/-- The place of a thread in `broadcast_create`; `b` is the object it has allocated. -/
inductive CreateStage
  | start
  | pool
  | profile
  | frame (prof : BroadcastProfile)
  | prepare
  | lock (b : ℕ)
  | find (b : ℕ)
  | limit (b : ℕ)
  | spawn (b : ℕ)
  | insert (b : ℕ)
  | count (b : ℕ)
  | unlock (b : ℕ)
  | publish (b : ℕ)
  | abandon (b : ℕ)
  | discard (b : ℕ)

/-- The place of a thread in `broadcast_destroy_ex`; all that comes before the producer is stopped
is the one place `teardown`. -/
inductive RemoveStage
  | teardown | stop | join | lock | delete | uncount | unlock | fire | pool
  deriving DecidableEq

/-- `returned` holds the result of the last `broadcast_create` of a thread that is in neither
function. -/
inductive SectionCall
  | returned (result : Option ℕ)
  | create (name : String) (k : CreateStage)
  | destroy (b : ℕ) (k : RemoveStage)

inductive ProducerThread
  | absent | running | ended
  deriving DecidableEq

/-- What `broadcast_globals` holds of the broadcasts, with `name` and the producer of each object.
`writer` is the thread that has `hash_rwlock` for writing, `readers` the number of those that have
it for reading. -/
structure Sections where
  hash : List (String × ℕ)
  active_broadcasts : BitVec 32
  writer : Option ℕ
  readers : ℕ
  name : ℕ → Option String
  producer_running : ℕ → Bool
  producer : ℕ → ProducerThread
  call : ℕ → SectionCall

inductive Outcome
  | ok
  | fail
  | profile (prof : Option BroadcastProfile)
  | alloc (b : ℕ)

/-- `switch_core_hash_insert` replaces what is stored under the name. -/
def hashInsert (hash : List (String × ℕ)) (n : String) (b : ℕ) : List (String × ℕ) :=
  (n, b) :: hash.filter fun e => e.1 ≠ n

def hashDelete (hash : List (String × ℕ)) (n : String) : List (String × ℕ) :=
  hash.filter fun e => e.1 ≠ n

/-- `switch_thread_rwlock_wrlock`; `none` while somebody else is inside. -/
def Sections.wrlock (s : Sections) (t : ℕ) : Option Sections :=
  if s.writer = none ∧ s.readers = 0 then some { s with writer := some t } else none

def broadcastCreate (max_broadcasts : BitVec 32) (s : Sections) (t : ℕ) (c : Outcome) (n : String) :
    CreateStage → Option (Sections × SectionCall)
  | .start => some (s, if n = "" then .returned none else .create n .pool)
  | .pool =>
    match c with
    | .fail => some (s, .returned none)
    | _ => some (s, .create n .profile)
  | .profile =>
    match c with
    | .profile none => some (s, .returned none)
    | .profile (some prof) => some (s, .create n (.frame prof))
    | _ => none
  | .frame prof =>
    some (s, if BROADCAST_MAX_FRAME_BYTES < frameBytes prof then .returned none
      else .create n .prepare)
  | .prepare =>
    match c with
    | .alloc b =>
      if s.name b = none then
        some ({ s with name := Function.update s.name b (some n) }, .create n (.lock b))
      else none
    | _ => none
  | .lock b => (s.wrlock t).map fun s => (s, .create n (.find b))
  -- the name is taken, also while its broadcast is being torn down
  | .find b => some (s, .create n (if (s.hash.lookup n).isSome then .abandon b else .limit b))
  | .limit b =>
    some (s, .create n
      (if max_broadcasts.toNat ≤ s.active_broadcasts.toNat then .abandon b else .spawn b))
  | .spawn b =>
    match c with
    | .fail =>
      some ({ s with producer_running := Function.update s.producer_running b false },
        .create n (.abandon b))
    | _ => some ({ s with
        producer_running := Function.update s.producer_running b true
        producer := Function.update s.producer b .running }, .create n (.insert b))
  | .insert b => some ({ s with hash := hashInsert s.hash n b }, .create n (.count b))
  | .count b =>
    some ({ s with active_broadcasts := s.active_broadcasts + 1 }, .create n (.unlock b))
  | .unlock b => some ({ s with writer := none }, .create n (.publish b))
  -- the reference, the event and the automatic recording
  | .publish b => some (s, .returned (some b))
  | .abandon b => some ({ s with writer := none }, .create n (.discard b))
  | .discard _ => some (s, .returned none)

def broadcastDestroyEx (s : Sections) (t b : ℕ) : RemoveStage → Option (Sections × SectionCall)
  | .teardown => some (s, .destroy b .stop)
  | .stop => some ({ s with producer_running := Function.update s.producer_running b false },
      .destroy b .join)
  | .join =>
    if s.producer b = .running then none
    else some ({ s with producer := Function.update s.producer b .absent }, .destroy b .lock)
  | .lock => (s.wrlock t).map fun s => (s, .destroy b .delete)
  -- deleted by name, whatever is stored under it by now
  | .delete => (s.name b).map fun n =>
      ({ s with hash := hashDelete s.hash n }, .destroy b .uncount)
  | .uncount =>
    some ({ s with active_broadcasts := s.active_broadcasts - 1 }, .destroy b .unlock)
  | .unlock => some ({ s with writer := none }, .destroy b .fire)
  | .fire => some (s, .destroy b .pool)
  | .pool => some (s, .returned (some b))

inductive SectionsAction
  | create (t : ℕ) (n : String)
  | destroy (t b : ℕ)
  | step (t : ℕ) (c : Outcome)
  | rdlock
  | rdunlock
  | producer (b : ℕ) (fails : Bool)

def sectionsThread (max_broadcasts : BitVec 32) (s : Sections) (t : ℕ) (c : Outcome) :
    SectionCall → Option (Sections × SectionCall)
  | .returned _ => none
  | .create n k => broadcastCreate max_broadcasts s t c n k
  | .destroy b k => broadcastDestroyEx s t b k

def Sections.enter (s : Sections) (t : ℕ) (x : SectionCall) : Option Sections :=
  match s.call t with
  | .returned _ => some { s with call := Function.update s.call t x }
  | _ => none

/-- Inside `hash_rwlock` each access to `broadcast_hash`, `active_broadcasts` and the producer is a step
of its own. -/
def sectionsStep (max_broadcasts : BitVec 32) (s : Sections) : SectionsAction → Option Sections
  | .create t n => s.enter t (.create n .start)
  -- a broadcast is found in the hash before it is destroyed
  | .destroy t b =>
    if ∃ e ∈ s.hash, e.2 = b then s.enter t (.destroy b .teardown) else none
  | .step t c => (sectionsThread max_broadcasts s t c (s.call t)).map fun x =>
      { x.1 with call := Function.update s.call t x.2 }
  | .rdlock => if s.writer = none then some { s with readers := s.readers + 1 } else none
  | .rdunlock => some { s with readers := s.readers - 1 }
  -- the producer ends when it is told to, or for want of a timer
  | .producer b fails =>
    if s.producer b = .running ∧ (fails ∨ ¬ s.producer_running b) then some { s with
      producer_running := Function.update s.producer_running b false
      producer := Function.update s.producer b .ended }
    else none

def Sections.init : Sections :=
  ⟨[], 0, none, 0, fun _ => none, fun _ => false, fun _ => .absent, fun _ => .returned none⟩

variable {M : BitVec 32} {s s' : Sections} {a : SectionsAction} {t u b : ℕ} {n : String}
  {x y : SectionCall} {c : Outcome} {h : List (Sections × SectionsAction)}

def SectionCall.Inside : SectionCall → Prop
  | .create _ (.find _) | .create _ (.limit _) | .create _ (.spawn _) | .create _ (.insert _)
  | .create _ (.count _) | .create _ (.unlock _) | .create _ (.abandon _)
  | .destroy _ .delete | .destroy _ .uncount | .destroy _ .unlock => True
  | _ => False

def SectionCall.due : SectionCall → ℤ
  | .create _ (.count _) => 1
  | .destroy _ .uncount => -1
  | _ => 0

def SectionCall.Below : SectionCall → Prop
  | .create _ (.spawn _) | .create _ (.insert _) | .create _ (.count _) => True
  | _ => False

def SectionCall.clear : SectionCall → Option String
  | .create n (.limit _) | .create n (.spawn _) | .create n (.insert _) => some n
  | _ => none

def SectionCall.fresh : SectionCall → Option (String × ℕ)
  | .create n (.lock b) | .create n (.find b) | .create n (.limit b) | .create n (.spawn b)
  | .create n (.insert b) => some (n, b)
  | _ => none

def SectionCall.destroying : SectionCall → Option ℕ
  | .destroy b _ => some b
  | _ => none

def SectionCall.doomed : SectionCall → Option ℕ
  | .destroy b .teardown | .destroy b .stop | .destroy b .join | .destroy b .lock
  | .destroy b .delete => some b
  | _ => none

theorem inside_of_clear (hx : x.clear = some n) : x.Inside := by
  cases x with
  | create m k => cases k <;> trivial
  | _ => cases hx

theorem inside_of_below (hx : x.Below) : x.Inside := by
  cases x with
  | create m k => cases k <;> trivial
  | _ => cases hx

theorem destroying_of_doomed (hx : x.doomed = some b) : x.destroying = some b := by
  cases x with
  | destroy b' k => cases k <;> first | exact hx | cases hx
  | _ => cases hx

/-- What a step of the thread `t` does to the hash, the count, the lock and the names. -/
inductive SectionMove (M : BitVec 32) (s s' : Sections) (t : ℕ) : SectionCall → SectionCall → Prop
  | quiet {x y : SectionCall} (hh : s'.hash = s.hash)
      (ha : s'.active_broadcasts = s.active_broadcasts) (hw : s'.writer = s.writer)
      (hn : s'.name = s.name) (hi : y.Inside ↔ x.Inside) (hd : y.due = x.due)
      (hb : y.Below → x.Below ∨ s.active_broadcasts.toNat < M.toNat)
      (hc : ∀ n, y.clear = some n → x.clear = some n ∨ s.hash.lookup n = none)
      (hf : ∀ e, y.fresh = some e → x.fresh = some e)
      (hm : ∀ b, y.doomed = some b → x.doomed = some b)
      (hk : ∀ b, y.destroying = some b → x.destroying = some b) : SectionMove M s s' t x y
  | alloc {n : String} (b : ℕ) (hb : s.name b = none)
      (hs : s' = { s with name := Function.update s.name b (some n), call := s'.call }) :
      SectionMove M s s' t (.create n .prepare) (.create n (.lock b))
  | lock {x y : SectionCall} (hw : s.writer = none)
      (hs : s' = { s with writer := some t, call := s'.call })
      (hi : y.Inside) (hd : y.due = 0) (hb : ¬ y.Below) (hc : y.clear = none)
      (hf : y.fresh = x.fresh) (hm : y.doomed = x.doomed) (hk : y.destroying = x.destroying) :
      SectionMove M s s' t x y
  | insert {n : String} {b : ℕ}
      (hs : s' = { s with hash := hashInsert s.hash n b, call := s'.call }) :
      SectionMove M s s' t (.create n (.insert b)) (.create n (.count b))
  | count {n : String} {b : ℕ}
      (hs : s' = { s with active_broadcasts := s.active_broadcasts + 1, call := s'.call }) :
      SectionMove M s s' t (.create n (.count b)) (.create n (.unlock b))
  | unlock {x y : SectionCall} (hi : x.Inside)
      (hs : s' = { s with writer := none, call := s'.call }) (hd : x.due = 0)
      (hy : ¬ y.Inside) (hb : ¬ y.Below) (hc : y.clear = none) (hf : y.fresh = none)
      (hm : y.doomed = none) (hk : y.destroying = x.destroying) : SectionMove M s s' t x y
  | delete {n : String} {b : ℕ} (hn : s.name b = some n)
      (hs : s' = { s with hash := hashDelete s.hash n, call := s'.call }) :
      SectionMove M s s' t (.destroy b .delete) (.destroy b .uncount)
  | uncount {b : ℕ}
      (hs : s' = { s with active_broadcasts := s.active_broadcasts - 1, call := s'.call }) :
      SectionMove M s s' t (.destroy b .uncount) (.destroy b .unlock)

theorem wrlock_some {s₁ : Sections} (hs : s.wrlock t = some s₁) :
    s.writer = none ∧ s₁ = { s with writer := some t } := by
  rw [Sections.wrlock] at hs
  split_ifs at hs with hw
  exact ⟨hw.1, (Option.some.inj hs).symm⟩

/-- A step between two places that stand for nothing. -/
theorem SectionMove.plain (hh : s'.hash = s.hash) (ha : s'.active_broadcasts = s.active_broadcasts)
    (hw : s'.writer = s.writer) (hn : s'.name = s.name) (hx : ¬ x.Inside ∧ x.due = 0)
    (hy : ¬ y.Inside ∧ y.due = 0) (hb : ¬ y.Below) (hc : y.clear = none) (hf : y.fresh = none)
    (hm : y.doomed = none) (hk : y.destroying = none ∨ y.destroying = x.destroying) :
    SectionMove M s s' t x y := by
  refine .quiet hh ha hw hn (iff_of_false hy.1 hx.1) (hy.2.trans hx.2.symm)
    (fun h => absurd h hb) (fun n h => ?_) (fun e h => ?_) (fun b h => ?_) fun b h => ?_
  · cases hc.symm.trans h
  · cases hf.symm.trans h
  · cases hm.symm.trans h
  · rcases hk with hk | hk
    · cases hk.symm.trans h
    · exact hk ▸ h

theorem broadcastCreate_move {k : CreateStage} {s₁ : Sections}
    (hs : broadcastCreate M s t c n k = some (s₁, y)) :
    SectionMove M s { s₁ with call := Function.update s.call t y } t (.create n k) y := by
  have plain : ∀ {s₂ : Sections} {y k}, s₂ = s → ¬ y.Inside ∧ y.due = 0 → ¬ y.Below →
      y.clear = none → y.fresh = none → y.destroying = none →
      ¬ (SectionCall.create n k).Inside ∧ (SectionCall.create n k).due = 0 →
      SectionMove M s { s₂ with call := Function.update s.call t y } t (.create n k) y := by
    rintro s₂ y k rfl hy hb hc hf hk hx
    refine .plain rfl rfl rfl rfl hx hy hb hc hf ?_ (.inl hk)
    cases hd : y.doomed with
    | none => rfl
    | some b => cases hk.symm.trans (destroying_of_doomed hd)
  cases k with
  | start =>
    obtain ⟨rfl, rfl⟩ := Prod.mk.inj (Option.some.inj hs)
    by_cases hn : n = ""
    · rw [if_pos hn]
      exact plain rfl ⟨id, rfl⟩ id rfl rfl rfl ⟨id, rfl⟩
    · rw [if_neg hn]
      exact plain rfl ⟨id, rfl⟩ id rfl rfl rfl ⟨id, rfl⟩
  | pool =>
    simp only [broadcastCreate] at hs
    split at hs <;> obtain ⟨rfl, rfl⟩ := Prod.mk.inj (Option.some.inj hs)
    · exact plain rfl ⟨id, rfl⟩ id rfl rfl rfl ⟨id, rfl⟩
    · exact plain rfl ⟨id, rfl⟩ id rfl rfl rfl ⟨id, rfl⟩
  | profile =>
    simp only [broadcastCreate] at hs
    split at hs
    · obtain ⟨rfl, rfl⟩ := Prod.mk.inj (Option.some.inj hs)
      exact plain rfl ⟨id, rfl⟩ id rfl rfl rfl ⟨id, rfl⟩
    · obtain ⟨rfl, rfl⟩ := Prod.mk.inj (Option.some.inj hs)
      exact plain rfl ⟨id, rfl⟩ id rfl rfl rfl ⟨id, rfl⟩
    · cases hs
  | frame prof =>
    obtain ⟨rfl, rfl⟩ := Prod.mk.inj (Option.some.inj hs)
    split_ifs
    · exact plain rfl ⟨id, rfl⟩ id rfl rfl rfl ⟨id, rfl⟩
    · exact plain rfl ⟨id, rfl⟩ id rfl rfl rfl ⟨id, rfl⟩
  | prepare =>
    simp only [broadcastCreate] at hs
    split at hs
    · split_ifs at hs with hb
      obtain ⟨rfl, rfl⟩ := Prod.mk.inj (Option.some.inj hs)
      exact .alloc _ hb rfl
    · cases hs
  | lock b =>
    obtain ⟨s₂, hl, he⟩ := Option.map_eq_some_iff.mp hs
    obtain ⟨rfl, rfl⟩ := Prod.mk.inj he
    obtain ⟨hw, rfl⟩ := wrlock_some hl
    exact .lock hw rfl trivial rfl id rfl rfl rfl rfl
  | find b =>
    obtain ⟨rfl, rfl⟩ := Prod.mk.inj (Option.some.inj hs)
    cases hl : s.hash.lookup n with
    | none =>
      refine .quiet rfl rfl rfl rfl Iff.rfl rfl (fun h => h.elim) (fun m hm => .inr ?_)
        (fun _ => id) (fun _ => id) fun _ => id
      obtain rfl : n = m := Option.some.inj hm
      exact hl
    | some b' =>
      exact .quiet rfl rfl rfl rfl Iff.rfl rfl (fun h => h.elim) (fun _ h => (by cases h))
        (fun _ h => (by cases h)) (fun _ => id) fun _ => id
  | limit b =>
    obtain ⟨rfl, rfl⟩ := Prod.mk.inj (Option.some.inj hs)
    by_cases hfull : M.toNat ≤ s.active_broadcasts.toNat
    · rw [if_pos hfull]
      exact .quiet rfl rfl rfl rfl Iff.rfl rfl (fun h => h.elim) (fun _ h => (by cases h))
        (fun _ h => (by cases h)) (fun _ => id) fun _ => id
    · rw [if_neg hfull]
      exact .quiet rfl rfl rfl rfl Iff.rfl rfl (fun _ => .inr (Nat.lt_of_not_le hfull))
        (fun _ => .inl) (fun _ => id) (fun _ => id) fun _ => id
  | spawn b =>
    simp only [broadcastCreate] at hs
    split at hs <;> obtain ⟨rfl, rfl⟩ := Prod.mk.inj (Option.some.inj hs)
    · exact .quiet rfl rfl rfl rfl Iff.rfl rfl (fun h => h.elim) (fun _ h => (by cases h))
        (fun _ h => (by cases h)) (fun _ => id) fun _ => id
    · exact .quiet rfl rfl rfl rfl Iff.rfl rfl .inl (fun _ => .inl) (fun _ => id) (fun _ => id)
        fun _ => id
  | insert b =>
    obtain ⟨rfl, rfl⟩ := Prod.mk.inj (Option.some.inj hs)
    exact .insert rfl
  | count b =>
    obtain ⟨rfl, rfl⟩ := Prod.mk.inj (Option.some.inj hs)
    exact .count rfl
  | unlock b =>
    obtain ⟨rfl, rfl⟩ := Prod.mk.inj (Option.some.inj hs)
    exact .unlock trivial rfl rfl id id rfl rfl rfl rfl
  | publish b =>
    obtain ⟨rfl, rfl⟩ := Prod.mk.inj (Option.some.inj hs)
    exact plain rfl ⟨id, rfl⟩ id rfl rfl rfl ⟨id, rfl⟩
  | abandon b =>
    obtain ⟨rfl, rfl⟩ := Prod.mk.inj (Option.some.inj hs)
    exact .unlock trivial rfl rfl id id rfl rfl rfl rfl
  | discard b =>
    obtain ⟨rfl, rfl⟩ := Prod.mk.inj (Option.some.inj hs)
    exact plain rfl ⟨id, rfl⟩ id rfl rfl rfl ⟨id, rfl⟩

theorem broadcastDestroyEx_move {k : RemoveStage} {s₁ : Sections}
    (hs : broadcastDestroyEx s t b k = some (s₁, y)) :
    SectionMove M s { s₁ with call := Function.update s.call t y } t (.destroy b k) y := by
  cases k with
  | teardown | stop =>
    obtain ⟨rfl, rfl⟩ := Prod.mk.inj (Option.some.inj hs)
    exact .quiet rfl rfl rfl rfl Iff.rfl rfl .inl (fun _ => .inl) (fun _ => id) (fun _ => id)
      fun _ => id
  | join =>
    simp only [broadcastDestroyEx] at hs
    split_ifs at hs
    obtain ⟨rfl, rfl⟩ := Prod.mk.inj (Option.some.inj hs)
    exact .quiet rfl rfl rfl rfl Iff.rfl rfl .inl (fun _ => .inl) (fun _ => id) (fun _ => id)
      fun _ => id
  | lock =>
    obtain ⟨s₂, hl, he⟩ := Option.map_eq_some_iff.mp hs
    obtain ⟨rfl, rfl⟩ := Prod.mk.inj he
    obtain ⟨hw, rfl⟩ := wrlock_some hl
    exact .lock hw rfl trivial rfl id rfl rfl rfl rfl
  | delete =>
    obtain ⟨n, hn, he⟩ := Option.map_eq_some_iff.mp hs
    obtain ⟨rfl, rfl⟩ := Prod.mk.inj he
    exact .delete hn rfl
  | uncount =>
    obtain ⟨rfl, rfl⟩ := Prod.mk.inj (Option.some.inj hs)
    exact .uncount rfl
  | unlock =>
    obtain ⟨rfl, rfl⟩ := Prod.mk.inj (Option.some.inj hs)
    exact .unlock trivial rfl rfl id id rfl rfl rfl rfl
  | fire =>
    obtain ⟨rfl, rfl⟩ := Prod.mk.inj (Option.some.inj hs)
    exact .plain rfl rfl rfl rfl ⟨id, rfl⟩ ⟨id, rfl⟩ id rfl rfl rfl (.inr rfl)
  | pool =>
    obtain ⟨rfl, rfl⟩ := Prod.mk.inj (Option.some.inj hs)
    exact .plain rfl rfl rfl rfl ⟨id, rfl⟩ ⟨id, rfl⟩ id rfl rfl rfl (.inl rfl)

def SectionsAction.destroys : SectionsAction → Option ℕ
  | .destroy _ b => some b
  | _ => none

/-- The broadcasts that `broadcast_destroy_ex` has been called on. -/
def destroyedBy (h : List (Sections × SectionsAction)) : List ℕ := h.filterMap fun e => e.2.destroys

theorem mem_destroyedBy_cons (e : Sections × SectionsAction) (hb : b ∈ destroyedBy h) :
    b ∈ destroyedBy (e :: h) := by
  rw [destroyedBy, List.filterMap_cons]
  cases e.2.destroys with
  | none => exact hb
  | some b' => exact List.mem_cons_of_mem b' hb

/-- By how much the hash is ahead of the count, by the thread that is inside `hash_rwlock`. -/
def Sections.due (s : Sections) : ℤ :=
  match s.writer with
  | none => 0
  | some t => (s.call t).due

/-- The count follows the hash, each entry stands under the name of its object, an object that is
to be inserted is in no entry, and one that is to be deleted is in one. -/
structure Sections.Sound (M : BitVec 32) (h : List (Sections × SectionsAction)) (s : Sections) :
    Prop where
  keyed : Keyed s.hash
  own : ∀ n b, (n, b) ∈ s.hash → s.name b = some n
  inside : ∀ t, (s.call t).Inside ↔ s.writer = some t
  count : (s.hash.length : ℤ) = s.active_broadcasts.toNat + s.due
  bound : s.active_broadcasts.toNat ≤ M.toNat
  below : ∀ t, (s.call t).Below → s.active_broadcasts.toNat < M.toNat
  clear : ∀ t n, (s.call t).clear = some n → s.hash.lookup n = none
  fresh : ∀ t n b, (s.call t).fresh = some (n, b) → s.name b = some n ∧ ∀ m, (m, b) ∉ s.hash
  alone : ∀ t u n m b, (s.call t).fresh = some (n, b) → (s.call u).fresh = some (m, b) → t = u
  doomed : ∀ t b, (s.call t).doomed = some b → ∃ n, (n, b) ∈ s.hash
  claimed : ∀ t b, (s.call t).destroying = some b → b ∈ destroyedBy h
  once : ∀ t u b, (s.call t).destroying = some b → (s.call u).destroying = some b → t = u

theorem Sections.Sound.init (M : BitVec 32) : Sections.Sound M [] Sections.init where
  keyed := keyed_nil
  own _ _ hm := by cases hm
  inside _ := ⟨fun hi => hi.elim, fun hw => by cases hw⟩
  count := rfl
  bound := Nat.zero_le _
  below _ hb := hb.elim
  clear _ _ hc := by cases hc
  fresh _ _ _ hf := by cases hf
  alone _ _ _ _ _ hf := by cases hf
  doomed _ _ hd := by cases hd
  claimed _ _ hd := by cases hd
  once _ _ _ hd := by cases hd

section Move

variable (hx : s.call t = x) (hcall : s'.call = Function.update s.call t y)

/-- A property of the calls after a step of `t`. -/
theorem call_cases (hcall : s'.call = Function.update s.call t y) {P : SectionCall → Prop}
    (hu : P (s'.call u)) : u = t ∧ P y ∨ u ≠ t ∧ P (s.call u) := by
  rw [hcall] at hu
  by_cases he : u = t
  · subst he
    rw [Function.update_self] at hu
    exact .inl ⟨rfl, hu⟩
  · rw [Function.update_of_ne he] at hu
    exact .inr ⟨he, hu⟩

include hx hcall

/-- The claims of the calls, when a step of `t` makes no new one. -/
theorem Sections.Sound.claims (hi : s.Sound M h) (hk : ∀ b, y.destroying = some b →
    x.destroying = some b) : (∀ u b, (s'.call u).destroying = some b →
      b ∈ destroyedBy ((s, a) :: h)) ∧
    ∀ u v b, (s'.call u).destroying = some b → (s'.call v).destroying = some b → u = v := by
  have hold : ∀ {u b}, (s'.call u).destroying = some b → (s.call u).destroying = some b := by
    intro u b hu
    rcases call_cases hcall (P := fun z => z.destroying = some b) hu with ⟨rfl, hy⟩ | ⟨-, hu⟩
    · rw [hx]
      exact hk b hy
    · exact hu
  refine ⟨fun u b hu => ?_, fun u v b hu hv => hi.once u v b (hold hu) (hold hv)⟩
  exact mem_destroyedBy_cons _ (hi.claimed u b (hold hu))

theorem Sections.Sound.inside_same (hi : s.Sound M h) (hw : s'.writer = s.writer)
    (hy : y.Inside ↔ x.Inside) (u : ℕ) : (s'.call u).Inside ↔ s'.writer = some u := by
  rw [hw, ← hi.inside, hcall]
  by_cases hu : u = t
  · rw [hu, Function.update_self, hx]
    exact hy
  · rw [Function.update_of_ne hu]

/-- What is due when the lock stays with its thread. -/
theorem due_same (hw : s'.writer = s.writer) (hy : y.due = x.due) : s'.due = s.due := by
  rw [Sections.due, Sections.due, hw]
  cases s.writer with
  | none => rfl
  | some u =>
    show (s'.call u).due = (s.call u).due
    rw [hcall]
    by_cases hu : u = t
    · rw [hu, Function.update_self, hx, hy]
    · rw [Function.update_of_ne hu]

/-- A step that leaves the hash, the count and the names as they are. -/
theorem Sections.Sound.still (hi : s.Sound M h) (hh : s'.hash = s.hash)
    (ha : s'.active_broadcasts = s.active_broadcasts) (hn : s'.name = s.name)
    (hin : ∀ u, (s'.call u).Inside ↔ s'.writer = some u) (hd : s'.due = s.due)
    (hb : y.Below → x.Below ∨ s.active_broadcasts.toNat < M.toNat)
    (hc : ∀ n, y.clear = some n → x.clear = some n ∨ s.hash.lookup n = none)
    (hf : ∀ e, y.fresh = some e → x.fresh = some e)
    (hm : ∀ b, y.doomed = some b → x.doomed = some b)
    (hk : ∀ b, y.destroying = some b → x.destroying = some b) : s'.Sound M ((s, a) :: h) := by
  obtain ⟨hclaimed, honce⟩ := hi.claims (a := a) hx hcall hk
  have hfresh : ∀ {u e}, (s'.call u).fresh = some e → (s.call u).fresh = some e := by
    intro u e hu
    rcases call_cases hcall (P := fun z => z.fresh = some e) hu with ⟨rfl, hy⟩ | ⟨-, hu⟩
    · rw [hx]
      exact hf e hy
    · exact hu
  exact {
    keyed := hh ▸ hi.keyed
    own := by
      rw [hh, hn]
      exact hi.own
    inside := hin
    count := by
      rw [hh, ha, hd]
      exact hi.count
    bound := ha ▸ hi.bound
    below := by
      intro u hu
      rw [ha]
      rcases call_cases hcall hu with ⟨rfl, hy⟩ | ⟨-, hu⟩
      · rcases hb hy with hx' | hlt
        · exact hi.below u (hx ▸ hx')
        · exact hlt
      · exact hi.below u hu
    clear := by
      intro u n hu
      rw [hh]
      rcases call_cases hcall (P := fun z => z.clear = some n) hu with ⟨rfl, hy⟩ | ⟨-, hu⟩
      · rcases hc n hy with hx' | hnone
        · exact hi.clear u n (by rw [hx]; exact hx')
        · exact hnone
      · exact hi.clear u n hu
    fresh := by
      rw [hh, hn]
      exact fun u n b hu => hi.fresh u n b (hfresh hu)
    alone := fun u v n m b hu hv => hi.alone u v n m b (hfresh hu) (hfresh hv)
    doomed := by
      intro u b hu
      rw [hh]
      rcases call_cases hcall (P := fun z => z.doomed = some b) hu with ⟨rfl, hy⟩ | ⟨-, hu⟩
      · exact hi.doomed u b (by rw [hx]; exact hm b hy)
      · exact hi.doomed u b hu
    claimed := hclaimed
    once := honce }

omit hx in
/-- The thread that is inside sees what is due by its own place. -/
theorem due_inside (hw : s'.writer = some t) : s'.due = y.due := by
  rw [Sections.due, hw]
  show (s'.call t).due = y.due
  rw [hcall, Function.update_self]

theorem Sections.Sound.alloc (hi : s.Sound M h) (hx' : x = .create n .prepare)
    (hy : y = .create n (.lock b)) (hb : s.name b = none)
    (hs : s' = { s with name := Function.update s.name b (some n), call := s'.call }) :
    s'.Sound M ((s, a) :: h) := by
  subst hx' hy
  have hname : s'.name = Function.update s.name b (some n) := by rw [hs]
  have hhash : s'.hash = s.hash := by rw [hs]
  have hact : s'.active_broadcasts = s.active_broadcasts := by rw [hs]
  have hw : s'.writer = s.writer := by rw [hs]
  -- the new object is in no entry, and no other thread has it
  have hnot : ∀ m, (m, b) ∉ s.hash := by
    intro m hm
    cases hb.symm.trans (hi.own m b hm)
  have hother : ∀ {u m b'}, (s.call u).fresh = some (m, b') → b' ≠ b := by
    rintro u m b' hu rfl
    cases hb.symm.trans (hi.fresh u m b' hu).1
  obtain ⟨hclaimed, honce⟩ := hi.claims (a := a) hx hcall fun _ => id
  exact {
    keyed := hhash ▸ hi.keyed
    own := by
      intro m b' hm
      rw [hhash] at hm
      have hne : b' ≠ b := by
        rintro rfl
        exact hnot m hm
      rw [hname, Function.update_of_ne hne]
      exact hi.own m b' hm
    inside := hi.inside_same hx hcall hw Iff.rfl
    count := by
      rw [hhash, hact, due_same hx hcall hw rfl]
      exact hi.count
    bound := hact ▸ hi.bound
    below := by
      intro u hu
      rw [hact]
      rcases call_cases hcall hu with ⟨-, hy⟩ | ⟨-, hu⟩
      · exact hy.elim
      · exact hi.below u hu
    clear := by
      intro u m hu
      rw [hhash]
      rcases call_cases hcall (P := fun z => z.clear = some m) hu with ⟨-, hy⟩ | ⟨-, hu⟩
      · cases hy
      · exact hi.clear u m hu
    fresh := by
      intro u m b' hu
      rw [hhash, hname]
      rcases call_cases hcall (P := fun z => z.fresh = some (m, b')) hu with ⟨-, hy⟩ | ⟨-, hu⟩
      · obtain ⟨rfl, rfl⟩ := Prod.mk.inj (Option.some.inj hy)
        exact ⟨Function.update_self .., hnot⟩
      · rw [Function.update_of_ne (hother hu)]
        exact hi.fresh u m b' hu
    alone := by
      intro u v m m' b' hu hv
      rcases call_cases hcall (P := fun z => z.fresh = some (m, b')) hu with ⟨hut, hy⟩ | ⟨-, hu⟩ <;>
        rcases call_cases hcall (P := fun z => z.fresh = some (m', b')) hv with
          ⟨hvt, hy'⟩ | ⟨-, hv⟩
      · exact hut.trans hvt.symm
      · exact absurd (Prod.mk.inj (Option.some.inj hy)).2.symm (hother hv)
      · exact absurd (Prod.mk.inj (Option.some.inj hy')).2.symm (hother hu)
      · exact hi.alone u v m m' b' hu hv
    doomed := by
      intro u b' hu
      rw [hhash]
      rcases call_cases hcall (P := fun z => z.doomed = some b') hu with ⟨-, hy⟩ | ⟨-, hu⟩
      · cases hy
      · exact hi.doomed u b' hu
    claimed := hclaimed
    once := honce }

theorem Sections.Sound.lock (hi : s.Sound M h) (hw : s.writer = none)
    (hs : s' = { s with writer := some t, call := s'.call })
    (hin : y.Inside) (hd : y.due = 0) (hb : ¬ y.Below) (hc : y.clear = none)
    (hf : y.fresh = x.fresh) (hm : y.doomed = x.doomed) (hk : y.destroying = x.destroying) :
    s'.Sound M ((s, a) :: h) := by
  have hw' : s'.writer = some t := by rw [hs]
  have hold : s.due = 0 := by rw [Sections.due, hw]
  refine hi.still hx hcall (by rw [hs]) (by rw [hs]) (by rw [hs]) (fun u => ?_)
    (by rw [due_inside hcall hw', hd, hold]) (fun h => absurd h hb) (fun n h => ?_)
    (fun e h => hf ▸ h) (fun b h => hm ▸ h) fun b h => hk ▸ h
  · rw [hw', hcall]
    by_cases hu : u = t
    · rw [hu, Function.update_self]
      exact iff_of_true hin rfl
    · rw [Function.update_of_ne hu]
      refine iff_of_false (fun h => ?_) fun h => hu (Option.some.inj h).symm
      cases hw.symm.trans ((hi.inside u).mp h)
  · cases hc.symm.trans h

theorem Sections.Sound.unlock (hi : s.Sound M h) (hin : x.Inside)
    (hs : s' = { s with writer := none, call := s'.call }) (hd : x.due = 0) (hy : ¬ y.Inside)
    (hb : ¬ y.Below) (hc : y.clear = none) (hf : y.fresh = none) (hm : y.doomed = none)
    (hk : y.destroying = x.destroying) : s'.Sound M ((s, a) :: h) := by
  have hw' : s'.writer = none := by rw [hs]
  have hw : s.writer = some t := (hi.inside t).mp (hx ▸ hin)
  have hold : s.due = 0 := by
    rw [Sections.due, hw]
    show (s.call t).due = 0
    rw [hx, hd]
  have hnew : s'.due = 0 := by rw [Sections.due, hw']
  refine hi.still hx hcall (by rw [hs]) (by rw [hs]) (by rw [hs]) (fun u => ?_)
    (hnew.trans hold.symm) (fun h => absurd h hb) (fun n h => ?_) (fun e h => ?_) (fun b h => ?_)
    fun b h => hk ▸ h
  · rw [hw']
    refine iff_of_false (fun hu => ?_) (by simp)
    rcases call_cases hcall hu with ⟨-, h⟩ | ⟨hne, hu⟩
    · exact hy h
    · exact hne (Option.some.inj (((hi.inside u).mp hu).symm.trans hw))
  · cases hc.symm.trans h
  · cases hf.symm.trans h
  · cases hm.symm.trans h

omit hx hcall in
/-- Only one thread is inside. -/
theorem Sections.Sound.inside_unique (hi : s.Sound M h) (ht : (s.call t).Inside)
    (hu : (s.call u).Inside) : u = t :=
  Option.some.inj (((hi.inside u).mp hu).symm.trans ((hi.inside t).mp ht))

omit hcall in
theorem Sections.Sound.due_now (hi : s.Sound M h) (hin : x.Inside) : s.due = x.due := by
  rw [Sections.due, (hi.inside t).mp (hx ▸ hin)]
  show (s.call t).due = x.due
  rw [hx]

/-- The name was found free under the same lock, so the entry is a new one. -/
theorem Sections.Sound.insert (hi : s.Sound M h) (hx' : x = .create n (.insert b))
    (hy : y = .create n (.count b))
    (hs : s' = { s with hash := hashInsert s.hash n b, call := s'.call }) :
    s'.Sound M ((s, a) :: h) := by
  subst hx' hy
  have hnone : s.hash.lookup n = none := hi.clear t n (by rw [hx]; rfl)
  obtain ⟨hown, hnot⟩ := hi.fresh t n b (by rw [hx]; rfl)
  have hname : s'.name = s.name := by rw [hs]
  have hact : s'.active_broadcasts = s.active_broadcasts := by rw [hs]
  have hw : s'.writer = s.writer := by rw [hs]
  have hhash : s'.hash = (n, b) :: s.hash := by
    have hfilter : s.hash.filter (fun e => e.1 ≠ n) = s.hash := by
      refine List.filter_eq_self.mpr fun e he => ?_
      have hne : e.1 ≠ n := by
        rintro rfl
        exact notMem_of_lookup hnone e.2 he
      simpa using hne
    rw [hs]
    show hashInsert s.hash n b = _
    rw [hashInsert, hfilter]
  have hlone : ∀ {u}, u ≠ t → ¬ (s.call u).Inside := fun hne hu =>
    hne (hi.inside_unique (by rw [hx]; trivial) hu)
  obtain ⟨hclaimed, honce⟩ := hi.claims (a := a) hx hcall fun _ => id
  exact {
    keyed := by
      rw [hhash]
      exact hi.keyed.cons (notMem_of_lookup hnone)
    own := by
      intro m b' hm
      rw [hhash] at hm
      rw [hname]
      rcases List.mem_cons.mp hm with he | hm
      · obtain ⟨rfl, rfl⟩ := Prod.mk.inj he
        exact hown
      · exact hi.own m b' hm
    inside := hi.inside_same hx hcall hw Iff.rfl
    count := by
      have hold := hi.count
      have hw' : s'.writer = some t := hw.trans ((hi.inside t).mp (by rw [hx]; trivial))
      have hnow : s.due = 0 := hi.due_now hx trivial
      rw [hnow] at hold
      rw [hhash, hact, due_inside hcall hw', List.length_cons, SectionCall.due]
      push_cast
      omega
    bound := hact ▸ hi.bound
    below := by
      intro u hu
      rw [hact]
      rcases call_cases hcall hu with ⟨-, -⟩ | ⟨-, hu⟩
      · exact hi.below t (by rw [hx]; trivial)
      · exact hi.below u hu
    clear := by
      intro u m hu
      rcases call_cases hcall (P := fun z => z.clear = some m) hu with ⟨-, hy⟩ | ⟨hne, hu⟩
      · cases hy
      · exact absurd (inside_of_clear hu) (hlone hne)
    fresh := by
      intro u m b' hu
      rw [hhash, hname]
      rcases call_cases hcall (P := fun z => z.fresh = some (m, b')) hu with ⟨-, hy⟩ | ⟨hne, hu⟩
      · cases hy
      · obtain ⟨h₁, h₂⟩ := hi.fresh u m b' hu
        refine ⟨h₁, fun k hk => ?_⟩
        rcases List.mem_cons.mp hk with he | hk
        · obtain ⟨-, rfl⟩ := Prod.mk.inj he
          exact hne (hi.alone u t m n b' hu (by rw [hx]; rfl))
        · exact h₂ k hk
    alone := by
      intro u v m m' b' hu hv
      rcases call_cases hcall (P := fun z => z.fresh = some (m, b')) hu with ⟨-, hy⟩ | ⟨-, hu⟩
      · cases hy
      rcases call_cases hcall (P := fun z => z.fresh = some (m', b')) hv with ⟨-, hy⟩ | ⟨-, hv⟩
      · cases hy
      exact hi.alone u v m m' b' hu hv
    doomed := by
      intro u b' hu
      rw [hhash]
      rcases call_cases hcall (P := fun z => z.doomed = some b') hu with ⟨-, hy⟩ | ⟨-, hu⟩
      · cases hy
      · obtain ⟨m, hm⟩ := hi.doomed u b' hu
        exact ⟨m, List.mem_cons_of_mem _ hm⟩
    claimed := hclaimed
    once := honce }

/-- The broadcast that is deleted is the one that stands under its name. -/
theorem Sections.Sound.delete (hi : s.Sound M h) (hx' : x = .destroy b .delete)
    (hy : y = .destroy b .uncount) (hn : s.name b = some n)
    (hs : s' = { s with hash := hashDelete s.hash n, call := s'.call }) :
    s'.Sound M ((s, a) :: h) := by
  subst hx' hy
  obtain ⟨m, hm⟩ := hi.doomed t b (by rw [hx]; rfl)
  obtain rfl : m = n := Option.some.inj ((hi.own m b hm).symm.trans hn)
  have hname : s'.name = s.name := by rw [hs]
  have hact : s'.active_broadcasts = s.active_broadcasts := by rw [hs]
  have hw : s'.writer = s.writer := by rw [hs]
  have hhash : s'.hash = s.hash.filter fun e => e.1 ≠ m := by
    rw [hs]
    rfl
  have hlone : ∀ {u}, u ≠ t → ¬ (s.call u).Inside := fun hne hu =>
    hne (hi.inside_unique (by rw [hx]; trivial) hu)
  have hsub : ∀ {e}, e ∈ s'.hash → e ∈ s.hash := fun he =>
    List.mem_of_mem_filter (hhash ▸ he)
  have hfresh : ∀ {u e}, (s'.call u).fresh = some e → (s.call u).fresh = some e := by
    intro u e hu
    rcases call_cases hcall (P := fun z => z.fresh = some e) hu with ⟨-, hy⟩ | ⟨-, hu⟩
    · cases hy
    · exact hu
  obtain ⟨hclaimed, honce⟩ := hi.claims (a := a) hx hcall fun _ => id
  exact {
    keyed := by
      rw [hhash]
      exact hi.keyed.filter _
    own := by
      rw [hname]
      exact fun k b' hk => hi.own k b' (hsub hk)
    inside := hi.inside_same hx hcall hw Iff.rfl
    count := by
      have hold := hi.count
      have hlen := hi.keyed.length_remove hm
      have hw' : s'.writer = some t := hw.trans ((hi.inside t).mp (by rw [hx]; trivial))
      have hnow : s.due = 0 := hi.due_now hx trivial
      rw [hnow] at hold
      rw [hhash, hact, due_inside hcall hw', SectionCall.due]
      omega
    bound := hact ▸ hi.bound
    below := by
      intro u hu
      rcases call_cases hcall hu with ⟨-, hy⟩ | ⟨hne, hu⟩
      · exact hy.elim
      · exact absurd (inside_of_below hu) (hlone hne)
    clear := by
      intro u k hu
      rcases call_cases hcall (P := fun z => z.clear = some k) hu with ⟨-, hy⟩ | ⟨hne, hu⟩
      · cases hy
      · exact absurd (inside_of_clear hu) (hlone hne)
    fresh := by
      rw [hname]
      intro u k b' hu
      obtain ⟨h₁, h₂⟩ := hi.fresh u k b' (hfresh hu)
      exact ⟨h₁, fun k' hk => h₂ k' (hsub hk)⟩
    alone := fun u v k k' b' hu hv => hi.alone u v k k' b' (hfresh hu) (hfresh hv)
    doomed := by
      intro u b' hu
      rcases call_cases hcall (P := fun z => z.doomed = some b') hu with ⟨-, hy⟩ | ⟨hne, hu⟩
      · cases hy
      · obtain ⟨k, hk⟩ := hi.doomed u b' hu
        refine ⟨k, ?_⟩
        rw [hhash]
        -- an entry of the same name would be the one that is deleted
        have hkm : k ≠ m := by
          rintro rfl
          obtain rfl := hi.keyed.eq_of_mem hk hm
          exact hne (hi.once u t b' (destroying_of_doomed hu) (by rw [hx]; rfl))
        exact List.mem_filter.mpr ⟨hk, by simpa using hkm⟩
    claimed := hclaimed
    once := honce }

/-- The count is brought up to the hash before the lock is released. -/
theorem Sections.Sound.recount (hi : s.Sound M h) {k : BitVec 32} (hin : x.Inside)
    (hs : s' = { s with active_broadcasts := k, call := s'.call })
    (hcount : (k.toNat : ℤ) = s.active_broadcasts.toNat + x.due) (hle : k.toNat ≤ M.toNat)
    (hy : y.Inside) (hd : y.due = 0) (hb : ¬ y.Below) (hc : y.clear = none) (hf : y.fresh = none)
    (hm : y.doomed = none) (hk : y.destroying = x.destroying) : s'.Sound M ((s, a) :: h) := by
  have hname : s'.name = s.name := by rw [hs]
  have hact : s'.active_broadcasts = k := by rw [hs]
  have hw : s'.writer = s.writer := by rw [hs]
  have hhash : s'.hash = s.hash := by rw [hs]
  have hlone : ∀ {u}, u ≠ t → ¬ (s.call u).Inside := fun hne hu =>
    hne (hi.inside_unique (by rw [hx]; exact hin) hu)
  have hfresh : ∀ {u e}, (s'.call u).fresh = some e → (s.call u).fresh = some e := by
    intro u e hu
    rcases call_cases hcall (P := fun z => z.fresh = some e) hu with ⟨-, hy⟩ | ⟨-, hu⟩
    · cases hf.symm.trans hy
    · exact hu
  obtain ⟨hclaimed, honce⟩ := hi.claims (a := a) hx hcall fun b hb => hk ▸ hb
  exact {
    keyed := hhash ▸ hi.keyed
    own := by
      rw [hhash, hname]
      exact hi.own
    inside := hi.inside_same hx hcall hw (iff_of_true hy hin)
    count := by
      have hold := hi.count
      have hw' : s'.writer = some t := hw.trans ((hi.inside t).mp (by rw [hx]; exact hin))
      rw [hi.due_now hx hin] at hold
      rw [hhash, hact, due_inside hcall hw', hd, hold, hcount, add_zero]
    bound := hact ▸ hle
    below := by
      intro u hu
      rcases call_cases hcall hu with ⟨-, hy⟩ | ⟨hne, hu⟩
      · exact absurd hy hb
      · exact absurd (inside_of_below hu) (hlone hne)
    clear := by
      intro u m hu
      rcases call_cases hcall (P := fun z => z.clear = some m) hu with ⟨-, hy⟩ | ⟨hne, hu⟩
      · cases hc.symm.trans hy
      · exact absurd (inside_of_clear hu) (hlone hne)
    fresh := by
      rw [hhash, hname]
      exact fun u m b' hu => hi.fresh u m b' (hfresh hu)
    alone := fun u v m m' b' hu hv => hi.alone u v m m' b' (hfresh hu) (hfresh hv)
    doomed := by
      intro u b' hu
      rw [hhash]
      rcases call_cases hcall (P := fun z => z.doomed = some b') hu with ⟨-, hy⟩ | ⟨-, hu⟩
      · cases hm.symm.trans hy
      · exact hi.doomed u b' hu
    claimed := hclaimed
    once := honce }

theorem Sections.Sound.move (hi : s.Sound M h) (hm : SectionMove M s s' t x y) :
    s'.Sound M ((s, a) :: h) := by
  cases hm with
  | quiet hh ha hw hn hin hd hb hc hf hm hk =>
    exact hi.still hx hcall hh ha hn (hi.inside_same hx hcall hw hin)
      (due_same hx hcall hw hd) hb hc hf hm hk
  | alloc b hb hs => exact hi.alloc hx hcall rfl rfl hb hs
  | lock hw hs hin hd hb hc hf hm hk => exact hi.lock hx hcall hw hs hin hd hb hc hf hm hk
  | insert hs => exact hi.insert hx hcall rfl rfl hs
  | unlock hin hs hd hy hb hc hf hm hk => exact hi.unlock hx hcall hin hs hd hy hb hc hf hm hk
  | delete hn hs => exact hi.delete hx hcall rfl rfl hn hs
  | @count n b hs =>
    have hlt : s.active_broadcasts.toNat < M.toNat := hi.below t (by rw [hx]; trivial)
    have hsucc : (s.active_broadcasts + 1).toNat = s.active_broadcasts.toNat + 1 := by
      have hM := M.isLt
      rw [BitVec.toNat_add]
      exact Nat.mod_eq_of_lt (Nat.lt_of_le_of_lt hlt hM)
    refine hi.recount hx hcall trivial hs ?_ ?_ trivial rfl id rfl rfl rfl rfl
    · rw [hsucc, SectionCall.due]
      push_cast
      rfl
    · rw [hsucc]
      exact hlt
  | @uncount b hs =>
    have hpos : 1 ≤ s.active_broadcasts.toNat := by
      have hold := hi.count
      rw [hi.due_now hx trivial, SectionCall.due] at hold
      omega
    have hpred : (s.active_broadcasts - 1).toNat = s.active_broadcasts.toNat - 1 :=
      BitVec.toNat_sub_of_le hpos
    refine hi.recount hx hcall trivial hs ?_ ?_ trivial rfl id rfl rfl rfl rfl
    · rw [hpred, SectionCall.due]
      omega
    · rw [hpred]
      exact Nat.le_trans (Nat.sub_le _ _) hi.bound

end Move

/-- A step that concerns readers and producers only. -/
theorem Sections.Sound.frame (hi : s.Sound M h) (hh : s'.hash = s.hash)
    (ha : s'.active_broadcasts = s.active_broadcasts) (hw : s'.writer = s.writer)
    (hn : s'.name = s.name) (hc : s'.call = s.call) : s'.Sound M ((s, a) :: h) := by
  have hcall : s'.call = Function.update s.call 0 (s.call 0) := by
    rw [hc, Function.update_eq_self]
  exact hi.still rfl hcall hh ha hn (hi.inside_same rfl hcall hw Iff.rfl)
    (due_same rfl hcall hw rfl) .inl (fun _ => .inl) (fun _ => id) (fun _ => id) fun _ => id

theorem enter_some {z : SectionCall} (hs : s.enter t z = some s') :
    (∃ result, s.call t = .returned result) ∧
      s' = { s with call := Function.update s.call t z } := by
  rw [Sections.enter] at hs
  split at hs
  case h_1 result hr => exact ⟨⟨result, hr⟩, (Option.some.inj hs).symm⟩
  case h_2 => cases hs

/-- A broadcast that nobody has destroyed so far is destroyed. -/
theorem Sections.Sound.destroy (hi : s.Sound M h)
    (hd : (destroyedBy ((s, .destroy t b) :: h)).Nodup)
    (hb : ∃ e ∈ s.hash, e.2 = b) (hs : s.enter t (.destroy b .teardown) = some s') :
    s'.Sound M ((s, .destroy t b) :: h) := by
  obtain ⟨⟨result, hr⟩, rfl⟩ := enter_some hs
  have hfirst : b ∉ destroyedBy h := (List.nodup_cons.mp hd).1
  let s' : Sections := { s with call := Function.update s.call t (.destroy b .teardown) }
  have hcall : s'.call = Function.update s.call t (.destroy b .teardown) := rfl
  have hnew : ∀ {u b'}, (s'.call u).destroying = some b' →
      u = t ∧ b' = b ∨ u ≠ t ∧ (s.call u).destroying = some b' := by
    intro u b' hu
    refine (call_cases hcall (P := fun z => z.destroying = some b') hu).imp_left fun h => ?_
    exact ⟨h.1, (Option.some.inj h.2).symm⟩
  have hfresh : ∀ {u e}, (s'.call u).fresh = some e → (s.call u).fresh = some e := by
    intro u e hu
    rcases call_cases hcall (P := fun z => z.fresh = some e) hu with ⟨-, hy⟩ | ⟨-, hu⟩
    · cases hy
    · exact hu
  have hdue : s'.due = s.due := due_same hr hcall rfl rfl
  exact {
    keyed := hi.keyed
    own := hi.own
    inside := hi.inside_same hr hcall rfl Iff.rfl
    count := by
      show (s.hash.length : ℤ) = s.active_broadcasts.toNat + s'.due
      rw [hdue]
      exact hi.count
    bound := hi.bound
    below := by
      intro u hu
      rcases call_cases hcall hu with ⟨-, hy⟩ | ⟨-, hu⟩
      · exact hy.elim
      · exact hi.below u hu
    clear := by
      intro u m hu
      rcases call_cases hcall (P := fun z => z.clear = some m) hu with ⟨-, hy⟩ | ⟨-, hu⟩
      · cases hy
      · exact hi.clear u m hu
    fresh := fun u m b' hu => hi.fresh u m b' (hfresh hu)
    alone := fun u v m m' b' hu hv => hi.alone u v m m' b' (hfresh hu) (hfresh hv)
    doomed := by
      intro u b' hu
      rcases call_cases hcall (P := fun z => z.doomed = some b') hu with ⟨-, hy⟩ | ⟨-, hu⟩
      · obtain rfl : b = b' := Option.some.inj hy
        obtain ⟨e, he, rfl⟩ := hb
        exact ⟨e.1, he⟩
      · exact hi.doomed u b' hu
    claimed := by
      intro u b' hu
      rcases hnew hu with ⟨-, rfl⟩ | ⟨-, hu⟩
      · exact List.mem_cons_self
      · exact mem_destroyedBy_cons _ (hi.claimed u b' hu)
    once := by
      intro u v b' hu hv
      rcases hnew hu with ⟨h₁, h₂⟩ | ⟨-, h₁⟩ <;> rcases hnew hv with ⟨h₃, h₄⟩ | ⟨-, h₃⟩
      · exact h₁.trans h₃.symm
      · exact absurd (hi.claimed v b' h₃) (h₂ ▸ hfirst)
      · exact absurd (hi.claimed u b' h₁) (h₄ ▸ hfirst)
      · exact hi.once u v b' h₁ h₃ }

theorem sectionsThread_move {z : Sections × SectionCall}
    (hs : sectionsThread M s t c (s.call t) = some z) :
    SectionMove M s { z.1 with call := Function.update s.call t z.2 } t (s.call t) z.2 := by
  obtain ⟨s₁, y⟩ := z
  cases hx : s.call t with
  | returned result =>
    rw [hx] at hs
    cases hs
  | create n k =>
    rw [hx] at hs
    exact broadcastCreate_move hs
  | destroy b k =>
    rw [hx] at hs
    exact broadcastDestroyEx_move hs

theorem Sections.Sound.step (hi : s.Sound M h) (hd : (destroyedBy ((s, a) :: h)).Nodup)
    (hs : sectionsStep M s a = some s') : s'.Sound M ((s, a) :: h) := by
  cases a with
  | create t n =>
    obtain ⟨⟨result, hr⟩, rfl⟩ := enter_some hs
    exact hi.still hr rfl rfl rfl rfl (hi.inside_same hr rfl rfl Iff.rfl)
      (due_same hr rfl rfl rfl) .inl (fun _ => .inl) (fun _ h => (by cases h))
      (fun _ h => (by cases h)) fun _ h => (by cases h)
  | destroy t b =>
    simp only [sectionsStep] at hs
    split_ifs at hs with hb
    exact hi.destroy hd hb hs
  | step t c =>
    obtain ⟨z, hz, rfl⟩ := Option.map_eq_some_iff.mp hs
    exact hi.move rfl rfl (sectionsThread_move hz)
  | rdlock | producer b fails =>
    simp only [sectionsStep] at hs
    split_ifs at hs
    obtain rfl := Option.some.inj hs
    exact hi.frame rfl rfl rfl rfl rfl
  | rdunlock =>
    obtain rfl := Option.some.inj hs
    exact hi.frame rfl rfl rfl rfl rfl

/-- The count is that of the entries, which stand under the names of their broadcasts, no two under
one name. -/
structure Sections.Consistent (s : Sections) : Prop where
  count : s.active_broadcasts.toNat = s.hash.length
  named : ∀ n b, (n, b) ∈ s.hash → s.name b = some n
  distinct : (s.hash.map Prod.fst).Nodup

/-- A step that puts an entry into the hash finds the count below the limit. -/
def InsertsBelow (M : BitVec 32) (s : Sections) (a : SectionsAction) : Prop :=
  ∀ s', sectionsStep M s a = some s' → (∃ e ∈ s'.hash, e ∉ s.hash) →
    s.active_broadcasts.toNat < M.toNat ∧ s.hash.length < M.toNat

def SectionsAction.thread : SectionsAction → Option ℕ
  | .create t _ | .destroy t _ | .step t _ => some t
  | _ => none

def Sections.registry (s : Sections) : List (String × ℕ) × BitVec 32 × (ℕ → ProducerThread) :=
  (s.hash, s.active_broadcasts, s.producer)

/-- Since the thread `t` has last entered `broadcast_create`, none of its steps has changed the
hash, the count or a producer thread. -/
def LeftAlone (t : ℕ) : List (Sections × SectionsAction) → Sections → Prop
  | [], _ => True
  | (s, a) :: h, s' => (∃ n, a = .create t n) ∨
      (a.thread = some t → s'.registry = s.registry) ∧ LeftAlone t h s

theorem sound_of_run (hr : Run (sectionsStep M) .init h s) (hd : (destroyedBy h).Nodup) :
    s.Sound M h := by
  induction hr with
  | nil => exact .init M
  | @snoc h s a s' run enabled ih =>
    have hsub : (destroyedBy h).Sublist (destroyedBy ((s, a) :: h)) :=
      (List.sublist_cons_self (s, a) h).filterMap _
    exact (ih (hd.sublist hsub)).step hd enabled

theorem Sections.Sound.insertsBelow (hi : s.Sound M h) (a : SectionsAction) :
    InsertsBelow M s a := by
  rintro s' hs ⟨e, he, hnot⟩
  have same : s'.hash = s.hash → s.active_broadcasts.toNat < M.toNat ∧ s.hash.length < M.toNat :=
    fun hh => absurd (hh ▸ he) hnot
  cases a with
  | create t n =>
    obtain ⟨-, rfl⟩ := enter_some hs
    exact same rfl
  | destroy t b =>
    simp only [sectionsStep] at hs
    split_ifs at hs
    obtain ⟨-, rfl⟩ := enter_some hs
    exact same rfl
  | rdlock | producer b fails =>
    simp only [sectionsStep] at hs
    split_ifs at hs
    obtain rfl := Option.some.inj hs
    exact same rfl
  | rdunlock =>
    obtain rfl := Option.some.inj hs
    exact same rfl
  | step t c =>
    obtain ⟨⟨s₁, y⟩, hz, rfl⟩ := Option.map_eq_some_iff.mp hs
    have hmove := sectionsThread_move hz
    generalize hx : s.call t = x at hmove
    cases hmove with
    | quiet hh => exact same hh
    | alloc b hb hs | lock hw hs | count hs | unlock hin hs | uncount hs =>
      exact same ((congrArg Sections.hash hs).trans rfl)
    | delete hn hs =>
      have hh := congrArg Sections.hash hs
      rw [hh] at he
      exact absurd (List.mem_of_mem_filter he) hnot
    | insert hs =>
      have hlt := hi.below t (by rw [hx]; trivial)
      have hcount := hi.count
      have hnow : s.due = 0 := hi.due_now hx trivial
      rw [hnow, add_zero] at hcount
      exact ⟨hlt, by omega⟩

def SectionCall.Fruitless : SectionCall → Prop
  | .returned result => result = none
  | .create _ (.insert _) | .create _ (.count _) | .create _ (.unlock _)
  | .create _ (.publish _) => False
  | .create _ _ => True
  | .destroy _ _ => False

/-- A step towards NULL comes from one and touches nothing. -/
theorem broadcastCreate_fruitless {k : CreateStage} {s₁ : Sections}
    (hs : broadcastCreate M s t c n k = some (s₁, y)) (hy : y.Fruitless) :
    (SectionCall.create n k).Fruitless ∧ s₁.registry = s.registry := by
  cases k with
  | start | frame | find | limit | abandon | discard =>
    obtain ⟨rfl, -⟩ := Prod.mk.inj (Option.some.inj hs)
    exact ⟨trivial, rfl⟩
  | pool =>
    simp only [broadcastCreate] at hs
    split at hs <;> obtain ⟨rfl, -⟩ := Prod.mk.inj (Option.some.inj hs) <;> exact ⟨trivial, rfl⟩
  | profile =>
    simp only [broadcastCreate] at hs
    split at hs
    · obtain ⟨rfl, -⟩ := Prod.mk.inj (Option.some.inj hs)
      exact ⟨trivial, rfl⟩
    · obtain ⟨rfl, -⟩ := Prod.mk.inj (Option.some.inj hs)
      exact ⟨trivial, rfl⟩
    · cases hs
  | prepare =>
    simp only [broadcastCreate] at hs
    split at hs
    · split_ifs at hs
      obtain ⟨rfl, -⟩ := Prod.mk.inj (Option.some.inj hs)
      exact ⟨trivial, rfl⟩
    · cases hs
  | lock b =>
    obtain ⟨s₂, hl, he⟩ := Option.map_eq_some_iff.mp hs
    obtain ⟨rfl, -⟩ := Prod.mk.inj he
    obtain ⟨-, rfl⟩ := wrlock_some hl
    exact ⟨trivial, rfl⟩
  | spawn b =>
    simp only [broadcastCreate] at hs
    split at hs <;> obtain ⟨rfl, rfl⟩ := Prod.mk.inj (Option.some.inj hs)
    · exact ⟨trivial, rfl⟩
    · exact hy.elim
  | insert | count | unlock =>
    obtain ⟨-, rfl⟩ := Prod.mk.inj (Option.some.inj hs)
    exact hy.elim
  | publish b =>
    obtain ⟨-, rfl⟩ := Prod.mk.inj (Option.some.inj hs)
    cases hy

theorem not_fruitless_of_destroy {k : RemoveStage} {s₁ : Sections}
    (hs : broadcastDestroyEx s t b k = some (s₁, y)) : ¬ y.Fruitless := by
  cases k with
  | lock | delete =>
    obtain ⟨_, -, he⟩ := Option.map_eq_some_iff.mp hs
    obtain ⟨-, rfl⟩ := Prod.mk.inj he
    exact id
  | join =>
    simp only [broadcastDestroyEx] at hs
    split_ifs at hs
    obtain ⟨-, rfl⟩ := Prod.mk.inj (Option.some.inj hs)
    exact id
  | teardown | stop | uncount | unlock | fire =>
    obtain ⟨-, rfl⟩ := Prod.mk.inj (Option.some.inj hs)
    exact id
  | pool =>
    obtain ⟨-, rfl⟩ := Prod.mk.inj (Option.some.inj hs)
    rintro ⟨⟩

/-- A step of another thread does not move this one. -/
theorem call_of_other (hs : sectionsStep M s a = some s') (ha : a.thread ≠ some t) :
    s'.call t = s.call t := by
  have hne : ∀ {u}, some u ≠ some t → t ≠ u := fun h he => h (congrArg some he.symm)
  cases a with
  | create u n =>
    obtain ⟨-, rfl⟩ := enter_some hs
    exact Function.update_of_ne (hne ha) _ _
  | destroy u b =>
    simp only [sectionsStep] at hs
    split_ifs at hs
    obtain ⟨-, rfl⟩ := enter_some hs
    exact Function.update_of_ne (hne ha) _ _
  | step u c =>
    obtain ⟨z, -, rfl⟩ := Option.map_eq_some_iff.mp hs
    exact Function.update_of_ne (hne ha) _ _
  | rdlock | producer b fails =>
    simp only [sectionsStep] at hs
    split_ifs at hs
    obtain rfl := Option.some.inj hs
    rfl
  | rdunlock =>
    obtain rfl := Option.some.inj hs
    rfl

theorem leftAlone_of_run (hr : Run (sectionsStep M) .init h s) (ht : (s.call t).Fruitless) :
    LeftAlone t h s := by
  induction hr with
  | nil => trivial
  | @snoc h s a s' run enabled ih =>
    by_cases ha : a.thread = some t
    · cases a with
      | create u n =>
        obtain rfl : u = t := Option.some.inj ha
        exact .inl ⟨n, rfl⟩
      | destroy u b =>
        obtain rfl : u = t := Option.some.inj ha
        simp only [sectionsStep] at enabled
        split_ifs at enabled
        obtain ⟨-, rfl⟩ := enter_some enabled
        have hy : (SectionCall.destroy b .teardown).Fruitless := by simpa using ht
        exact hy.elim
      | step u c =>
        obtain rfl : u = t := Option.some.inj ha
        obtain ⟨⟨s₁, y⟩, hz, rfl⟩ := Option.map_eq_some_iff.mp enabled
        have hy : y.Fruitless := by simpa using ht
        cases hx : s.call u with
        | returned result =>
          rw [hx] at hz
          cases hz
        | create n k =>
          rw [hx] at hz
          obtain ⟨hfruitless, hsame⟩ := broadcastCreate_fruitless hz hy
          exact .inr ⟨fun _ => hsame, ih (hx ▸ hfruitless)⟩
        | destroy b k =>
          rw [hx] at hz
          exact absurd hy (not_fruitless_of_destroy hz)
      | rdlock | rdunlock | producer => cases ha
    · rw [call_of_other enabled ha] at ht
      exact .inr ⟨fun h => absurd h ha, ih ht⟩

/-- Whatever creates and destroys run side by side, each broadcast destroyed at most once, the
count and the names are right whenever nobody is inside `hash_rwlock`, an insert finds the count
below the limit, and a create that returns NULL has changed nothing. -/
theorem registry_consistent (hr : Run (sectionsStep M) .init h s) (hd : (destroyedBy h).Nodup) :
    (s.writer = none → s.Consistent) ∧ Meets (InsertsBelow M) h ∧
      ∀ t, s.call t = .returned none → LeftAlone t h s := by
  refine ⟨fun hw => ?_, ?_, fun t ht => leftAlone_of_run hr (by rw [ht]; rfl)⟩
  · have hi := sound_of_run hr hd
    have hcount := hi.count
    have hdue : s.due = 0 := by rw [Sections.due, hw]
    rw [hdue, add_zero] at hcount
    exact ⟨by omega, hi.own, hi.keyed⟩
  · induction hr with
    | nil => exact meets_nil _
    | @snoc h s a s' run enabled ih =>
      have hsub : (destroyedBy h).Sublist (destroyedBy ((s, a) :: h)) :=
        (List.sublist_cons_self (s, a) h).filterMap _
      rw [meets_cons]
      exact ⟨(sound_of_run run (hd.sublist hsub)).insertsBelow a, ih (hd.sublist hsub)⟩

def createLecture (t b : ℕ) : List SectionsAction :=
  [.create t "lecture", .step t .ok, .step t .ok,
    .step t (.profile (some ⟨"default", 0, 8000, 20, 1, 50, 10, false, 0, "", "", 100, 0, "soft",
      false, 0, false, "", "", "", "", "", false, 0, "", false, "", 0⟩)),
    .step t .ok, .step t (.alloc b)]

/-- Two creates of one name run side by side; the one that comes first is destroyed afterwards. -/
theorem registry_consistent_race : ∃ (h : List (Sections × SectionsAction)) (s : Sections),
    Run (sectionsStep 1) .init h s ∧ s.hash = [] ∧ s.call 0 = .returned (some 0) ∧
      s.Consistent ∧ LeftAlone 1 h s := by
  obtain ⟨h, s, hr, -, hv⟩ := exists_run_observing (sectionsStep 1) (fun _ _ => true) .init
    (List.flatten [createLecture 0 0, createLecture 1 1, List.replicate 8 (.step 0 .ok),
      List.replicate 4 (.step 1 .ok), [.destroy 2 0, .step 2 .ok, .step 2 .ok, .producer 0 false],
      List.replicate 7 (.step 2 .ok)])
    (fun h s => (s.hash, s.writer, destroyedBy h, s.call 0, s.call 1))
    (v := ([], none, [0], .returned (some 0), .returned none)) rfl
  simp only [Prod.mk.injEq] at hv
  obtain ⟨hhash, hw, hd, h0, h1⟩ := hv
  obtain ⟨hc, -, hleft⟩ := registry_consistent hr (by rw [hd]; decide)
  exact ⟨h, s, hr, hhash, h0, hc hw, hleft 1 h1⟩

end ModBroadcast
