import Mathlib.Data.List.Basic
import Mathlib.Logic.Function.Basic
import Mathlib.Tactic.SplitIfs
import ModBroadcast.Automaton

namespace LockPrograms

open Automaton

inductive Mode
  | read | write
  deriving DecidableEq

inductive Prog (ν ι : Type*)
  | skip
  | lock (l : ν) (m : Mode)
  | unlock (l : ν)
  | seq (p q : Prog ν ι)
  | branch (p q : Prog ν ι)
  | loop (p : Prog ν ι)
  | pick (p : ι → Prog ν ι)
  | foreign

instance {ν ι : Type*} : Append (Prog ν ι) := ⟨.seq⟩

abbrev Held (ν : Type*) := List (ν × Mode)

abbrev Holders (τ ν : Type*) := List (τ × ν × Mode)

variable {ν ι κ τ : Type*}

def locksOf [DecidableEq τ] (t : τ) (held : Holders τ ν) : Held ν :=
  (held.filter fun x => x.1 = t).map Prod.snd

section

variable [DecidableEq τ] {held : Holders τ ν} {t u : τ} {l : ν} {m : Mode}

@[simp] theorem locksOf_cons_self : locksOf t ((t, l, m) :: held) = (l, m) :: locksOf t held := by
  simp [locksOf]

theorem locksOf_cons_of_ne (hu : t ≠ u) : locksOf u ((t, l, m) :: held) = locksOf u held := by
  simp [locksOf, hu]

end

variable [DecidableEq ν]

def Held.drop (l : ν) (h : Held ν) : Held ν := h.eraseP fun x => x.1 = l

@[simp] theorem Held.drop_cons (l k : ν) (m : Mode) (h : Held ν) :
    Held.drop l ((k, m) :: h) = if k = l then h else (k, m) :: Held.drop l h := by
  by_cases hk : k = l <;> simp [Held.drop, hk]

def giveBack [DecidableEq τ] (t : τ) (l : ν) (held : Holders τ ν) : Holders τ ν :=
  held.eraseP fun x => x.1 = t ∧ x.2.1 = l

section

variable [DecidableEq τ] {held : Holders τ ν} {t u : τ} {l : ν}

theorem giveBack_cons (x : τ × ν × Mode) : giveBack t l (x :: held) =
    if x.1 = t ∧ x.2.1 = l then held else x :: giveBack t l held := by
  by_cases hx : x.1 = t ∧ x.2.1 = l
  · simp [giveBack, hx]
  · rw [if_neg hx, giveBack, List.eraseP_cons_of_neg (by simpa using hx)]
    rfl

@[simp] theorem locksOf_giveBack_self :
    locksOf t (giveBack t l held) = (locksOf t held).drop l := by
  induction held with
  | nil => rfl
  | cons x held ih =>
    obtain ⟨v, k, m⟩ := x
    rw [giveBack_cons]
    by_cases hv : v = t
    · subst hv
      by_cases hk : k = l
      · simp [hk]
      · simp [hk, ih]
    · simp [hv, locksOf_cons_of_ne hv, ih]

theorem locksOf_giveBack_of_ne (hu : t ≠ u) : locksOf u (giveBack t l held) = locksOf u held := by
  induction held with
  | nil => rfl
  | cons x held ih =>
    obtain ⟨v, k, m⟩ := x
    rw [giveBack_cons]
    by_cases hx : v = t ∧ k = l
    · rw [if_pos hx, locksOf_cons_of_ne (hx.1 ▸ hu)]
    · rw [if_neg hx]
      by_cases hv : v = u
      · subst hv
        rw [locksOf_cons_self, locksOf_cons_self, ih]
      · rw [locksOf_cons_of_ne hv, locksOf_cons_of_ne hv, ih]

end

section Wp

variable (ok : Held ν → ν → Mode → Prop) (enter : Held ν → Prop)

/-- `ok` is the rule for requests, `enter` says with which locks code outside may be reached. -/
def wp : Prog ν ι → (Held ν → Prop) → Held ν → Prop
  | .skip, Q, h => Q h
  | .lock l m, Q, h => ok h l m ∧ Q ((l, m) :: h)
  | .unlock l, Q, h => Q (h.drop l)
  | .seq p q, Q, h => wp p (wp q Q) h
  | .branch p q, Q, h => wp p Q h ∧ wp q Q h
  | .loop p, Q, h => ∃ I : Held ν → Prop, I h ∧ (∀ h, I h → wp p I h) ∧ ∀ h, I h → Q h
  | .pick p, Q, h => ∀ i, wp (p i) Q h
  | .foreign, Q, h => enter h ∧ Q h

def wps (k : List (Prog ν ι)) : Held ν → Prop := k.foldr (wp ok enter) (· = [])

variable {ok enter} {p q : Prog ν ι} {Q R : Held ν → Prop} {h : Held ν}

@[simp] theorem wp_skip : wp ok enter (.skip : Prog ν ι) Q h ↔ Q h := Iff.rfl

@[simp] theorem wp_lock {l : ν} {m : Mode} :
    wp ok enter (.lock l m : Prog ν ι) Q h ↔ ok h l m ∧ Q ((l, m) :: h) := Iff.rfl

@[simp] theorem wp_unlock {l : ν} : wp ok enter (.unlock l : Prog ν ι) Q h ↔ Q (h.drop l) :=
  Iff.rfl

@[simp] theorem wp_append : wp ok enter (p ++ q) Q h ↔ wp ok enter p (wp ok enter q Q) h := Iff.rfl

@[simp] theorem wp_branch :
    wp ok enter (.branch p q) Q h ↔ wp ok enter p Q h ∧ wp ok enter q Q h := Iff.rfl

@[simp] theorem wp_pick {p : ι → Prog ν ι} :
    wp ok enter (.pick p) Q h ↔ ∀ i, wp ok enter (p i) Q h := Iff.rfl

@[simp] theorem wp_ite {c : Prop} [Decidable c] :
    wp ok enter (if c then p else q) Q h ↔ if c then wp ok enter p Q h else wp ok enter q Q h := by
  split <;> exact Iff.rfl

/-- Code outside leaves the locks alone. -/
@[simp] theorem wp_foreign (hE : enter h) : wp ok enter (.foreign : Prog ν ι) Q h ↔ Q h :=
  and_iff_right hE

theorem wp_mono (hQ : ∀ h, Q h → R h) (hw : wp ok enter p Q h) : wp ok enter p R h := by
  induction p generalizing Q R h with
  | skip => exact hQ h hw
  | lock l m => exact hw.imp_right (hQ _)
  | unlock l => exact hQ _ hw
  | seq p q ihp ihq => exact ihp (fun h hq => ihq hQ hq) hw
  | branch p q ihp ihq => exact hw.imp (ihp hQ) (ihq hQ)
  | loop p _ =>
    obtain ⟨I, hI, hp, hIQ⟩ := hw
    exact ⟨I, hI, hp, fun h hi => hQ h (hIQ h hi)⟩
  | pick p ih => exact fun i => ih i hQ (hw i)
  | foreign => exact hw.imp_right (hQ h)

/-- A loop whose rounds leave the locks as they were. -/
@[simp] theorem wp_loop (hp : wp ok enter p (· = h) h) : wp ok enter (.loop p) Q h ↔ Q h := by
  constructor
  · rintro ⟨I, hI, -, hQ⟩
    exact hQ h hI
  · intro hQ
    refine ⟨(· = h), rfl, ?_, ?_⟩
    · rintro _ rfl
      exact hp
    · rintro _ rfl
      exact hQ

@[simp] theorem wps_nil : wps ok enter ([] : List (Prog ν ι)) h ↔ h = [] := Iff.rfl

end Wp

/-- The procedures, those that code outside can call, and the locks that a thread may hold
more than once. -/
structure Procedures (ν ι κ : Type*) where
  body : κ → Prog ν ι
  callable : κ → Bool
  nested : ν → Bool

/-- What each thread has before it, and who holds which lock, the latest first. -/
structure Threads (τ ν ι : Type*) where
  code : τ → List (Prog ν ι)
  held : Holders τ ν

def Threads.init : Threads τ ν ι := ⟨fun _ => [], []⟩

inductive Move (ι κ : Type*)
  | start (c : κ)
  | step
  | choose (first : Bool)
  | read (i : ι)
  | call (c : κ)

variable [DecidableEq τ]

def grants (P : Procedures ν ι κ) (held : Holders τ ν) (t : τ) (l : ν) (m : Mode) : Bool :=
  held.all fun x => x.2.1 ≠ l ∨ m = .read ∧ x.2.2 = .read ∨ P.nested l ∧ x.1 = t

def next (P : Procedures ν ι κ) (held : Holders τ ν) (t : τ) :
    Move ι κ → List (Prog ν ι) → Option (List (Prog ν ι) × Holders τ ν)
  | .start c, [] => some ([P.body c], held)
  | .step, .skip :: k => some (k, held)
  | .step, .lock l m :: k => if grants P held t l m then some (k, (t, l, m) :: held) else none
  | .step, .unlock l :: k => some (k, giveBack t l held)
  | .step, .seq p q :: k => some (p :: q :: k, held)
  | .choose first, .branch p q :: k => some ((if first then p else q) :: k, held)
  | .choose again, .loop p :: k => some (if again then p :: .loop p :: k else k, held)
  | .read i, .pick p :: k => some (p i :: k, held)
  | .call c, .foreign :: k =>
    if P.callable c then some (P.body c :: .foreign :: k, held) else none
  | .step, .foreign :: k => some (k, held)
  | _, _ => none

def step (P : Procedures ν ι κ) (s : Threads τ ν ι) (a : τ × Move ι κ) : Option (Threads τ ν ι) :=
  (next P s.held a.1 a.2 (s.code a.1)).map fun x => ⟨Function.update s.code a.1 x.1, x.2⟩

def Threads.request (s : Threads τ ν ι) (t : τ) : Option (ν × Mode) :=
  match s.code t with
  | .lock l m :: _ => some (l, m)
  | _ => none

def Threads.outside (s : Threads τ ν ι) (t : τ) : Bool :=
  match s.code t with
  | .foreign :: _ => true
  | _ => false

def Disciplined (ok : Held ν → ν → Mode → Prop) (s : Threads τ ν ι) : Prop :=
  ∀ t l m, s.request t = some (l, m) → ok (locksOf t s.held) l m

/-- A step in which code outside calls a procedure calls one of `may`. -/
def CallsOnly (may : κ → Prop) (a : τ × Move ι κ) : Prop := ∀ c, a.2 = .call c → may c

variable {P : Procedures ν ι κ} {held held' : Holders τ ν} {t u : τ} {l : ν} {m : Mode}
  {k k' : List (Prog ν ι)} {a : Move ι κ} {s s' : Threads τ ν ι}

/-- Each procedure meets the rule when its thread holds nothing, and each one of `may` also when
code outside calls it. -/
structure Verified (P : Procedures ν ι κ) (ok : Held ν → ν → Mode → Prop)
    (enter : Held ν → Prop) (may : κ → Prop) : Prop where
  start : ∀ c, wp ok enter (P.body c) (· = []) []
  call : ∀ c h, P.callable c → may c → enter h → wp ok enter (P.body c) (· = h) h

variable {ok : Held ν → ν → Mode → Prop} {enter : Held ν → Prop} {may : κ → Prop}

theorem next_others (hn : next P held t a k = some (k', held')) (hu : t ≠ u) :
    locksOf u held' = locksOf u held := by
  unfold next at hn
  split at hn
  case h_3 =>
    split_ifs at hn
    obtain ⟨-, rfl⟩ := Prod.mk.inj (Option.some.inj hn)
    exact locksOf_cons_of_ne hu
  case h_4 =>
    obtain ⟨-, rfl⟩ := Prod.mk.inj (Option.some.inj hn)
    exact locksOf_giveBack_of_ne hu
  case h_9 =>
    split_ifs at hn
    obtain ⟨-, rfl⟩ := Prod.mk.inj (Option.some.inj hn)
    rfl
  case h_11 => cases hn
  all_goals
    obtain ⟨-, rfl⟩ := Prod.mk.inj (Option.some.inj hn)
    rfl

/-- What is left of the code keeps its weakest precondition. -/
theorem next_wps (hP : Verified P ok enter may) (ha : ∀ c, a = .call c → may c)
    (hn : next P held t a k = some (k', held')) (hw : wps ok enter k (locksOf t held)) :
    wps ok enter k' (locksOf t held') := by
  unfold next at hn
  split at hn
  case h_1 c =>
    obtain ⟨rfl, rfl⟩ := Prod.mk.inj (Option.some.inj hn)
    rw [wps_nil.mp hw]
    exact hP.start c
  case h_3 l m k =>
    split_ifs at hn
    obtain ⟨rfl, rfl⟩ := Prod.mk.inj (Option.some.inj hn)
    rw [locksOf_cons_self]
    exact hw.2
  case h_4 l k =>
    obtain ⟨rfl, rfl⟩ := Prod.mk.inj (Option.some.inj hn)
    rw [locksOf_giveBack_self]
    exact hw
  case h_6 first p q k =>
    obtain ⟨rfl, rfl⟩ := Prod.mk.inj (Option.some.inj hn)
    cases first with
    | true => exact hw.1
    | false => exact hw.2
  case h_7 again p k =>
    obtain ⟨rfl, rfl⟩ := Prod.mk.inj (Option.some.inj hn)
    obtain ⟨I, hI, hp, hQ⟩ := hw
    cases again with
    | true => exact wp_mono (fun h hi => ⟨I, hi, hp, hQ⟩) (hp _ hI)
    | false => exact hQ _ hI
  case h_8 i p k =>
    obtain ⟨rfl, rfl⟩ := Prod.mk.inj (Option.some.inj hn)
    exact hw i
  case h_9 c k =>
    split_ifs at hn with hc
    obtain ⟨rfl, rfl⟩ := Prod.mk.inj (Option.some.inj hn)
    refine wp_mono ?_ (hP.call c _ hc (ha c rfl) hw.1)
    rintro _ rfl
    exact hw
  case h_10 k =>
    obtain ⟨rfl, rfl⟩ := Prod.mk.inj (Option.some.inj hn)
    exact hw.2
  case h_11 => cases hn
  all_goals
    obtain ⟨rfl, rfl⟩ := Prod.mk.inj (Option.some.inj hn)
    exact hw

def Secure (ok : Held ν → ν → Mode → Prop) (enter : Held ν → Prop) (s : Threads τ ν ι) : Prop :=
  ∀ t, wps ok enter (s.code t) (locksOf t s.held)

theorem Secure.disciplined (hs : Secure ok enter s) : Disciplined ok s := by
  intro t l m hreq
  have hw := hs t
  unfold Threads.request at hreq
  split at hreq
  case h_1 l m k hk =>
    obtain ⟨rfl, rfl⟩ := Prod.mk.inj (Option.some.inj hreq)
    rw [hk] at hw
    exact hw.1
  case h_2 => cases hreq

theorem step_secure {a : τ × Move ι κ} (hP : Verified P ok enter may) (hs : Secure ok enter s)
    (ha : CallsOnly may a) (h : step P s a = some s') : Secure ok enter s' := by
  obtain ⟨⟨k', held'⟩, hn, rfl⟩ := Option.map_eq_some_iff.mp h
  intro u
  by_cases hu : a.1 = u
  · subst hu
    have hw := next_wps hP ha hn (hs a.1)
    simpa using hw
  · have hw := hs u
    rw [← next_others hn hu] at hw
    simpa [Function.update_of_ne (Ne.symm hu)] using hw

/-- Verified procedures keep the rule in every state that a run reaches. -/
theorem disciplined_of_run {h : List (Threads τ ν ι × τ × Move ι κ)} (hP : Verified P ok enter may)
    (hr : Run (step P) .init h s) (hm : Meets (fun _ => CallsOnly may) h) : Disciplined ok s :=
  (hr.invariant (fun _ _ _ hs ha h => step_secure hP hs ha h) hm fun _ => rfl).disciplined

def firstLock : Prog ν ι → Option (ν × Mode)
  | .lock l m => some (l, m)
  | .seq p _ => firstLock p
  | _ => none

/-- Code outside can call a procedure that is open to it. -/
theorem exists_call {c : κ} (ho : s.outside t) (hc : P.callable c) :
    ∃ s' k, step P s (t, .call c) = some s' ∧ s'.code t = P.body c :: k ∧ s'.held = s.held := by
  unfold Threads.outside at ho
  split at ho
  case h_1 k hk =>
    refine ⟨⟨Function.update s.code t (P.body c :: .foreign :: k), s.held⟩, .foreign :: k,
      ?_, ?_, rfl⟩
    · simp [step, hk, next, hc]
    · exact Function.update_self _ _ _
  case h_2 => cases ho

/-- A thread comes to the first request of its code. -/
theorem exists_run_to_firstLock {h : List (Threads τ ν ι × τ × Move ι κ)} {s₀ : Threads τ ν ι}
    {p : Prog ν ι} (hr : Run (step P) s₀ h s) (hm : Meets (fun _ => CallsOnly may) h)
    (hk : s.code t = p :: k) (hp : firstLock p = some (l, m)) :
    ∃ h' s', Run (step P) s₀ h' s' ∧ Meets (fun _ => CallsOnly may) h' ∧
      s'.request t = some (l, m) ∧ s'.held = s.held := by
  induction p generalizing h s k with
  | lock l' m' =>
    obtain ⟨rfl, rfl⟩ := Prod.mk.inj (Option.some.inj hp)
    exact ⟨h, s, hr, hm, by rw [Threads.request, hk], rfl⟩
  | seq p q ih _ =>
    let s' : Threads τ ν ι := ⟨Function.update s.code t (p :: q :: k), s.held⟩
    have hstep : step P s (t, .step) = some s' := by simp [step, hk, next, s']
    have hcode : s'.code t = p :: q :: k := Function.update_self _ _ _
    obtain ⟨h', u, hr', hm', hreq, hu⟩ :=
      ih (hr.snoc hstep) (meets_cons.mpr ⟨fun c hc => (by cases hc), hm⟩) hcode hp
    exact ⟨h', u, hr', hm', hreq, hu⟩
  | _ => cases hp

end LockPrograms
