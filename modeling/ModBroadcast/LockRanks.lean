import Mathlib.Logic.Relation
import ModBroadcast.LockPrograms

namespace LockPrograms

open Automaton Relation

variable {ν ι κ τ : Type*} {rank : ν → ℕ}

/-- Everything held is below the lock that is asked for, or it is that lock itself, and both times
it is read. -/
def Ascending (rank : ν → ℕ) (h : Held ν) (l : ν) (m : Mode) : Prop :=
  ∀ x ∈ h, rank x.1 < rank l ∨ x = (l, .read) ∧ m = .read

/-- What a waiting thread has above it grows with its weight: the rank of the lock, and for one
lock a reader is above a writer. -/
def weight (rank : ν → ℕ) (l : ν) : Mode → ℕ
  | .write => 2 * rank l
  | .read => 2 * rank l + 1

theorem weight_le {n : ℕ} {l : ν} (hn : rank l ≤ n) (m : Mode) : weight rank l m ≤ 2 * n + 1 := by
  cases m <;> simp only [weight] <;> omega

def Threads.WaitsFor (P : Procedures ν ι κ) (s : Threads τ ν ι) (t u : τ) : Prop :=
  ∃ l m m', s.request t = some (l, m) ∧ (u, l, m') ∈ s.held ∧ ¬ (m = .read ∧ m' = .read) ∧
    ¬ (P.nested l ∧ u = t)

variable {P : Procedures ν ι κ} {s : Threads τ ν ι} {t u : τ} {l k : ν} {m m' : Mode}
  {enter : Held ν → Prop} {ok : Held ν → ν → Mode → Prop}

variable [DecidableEq τ]

theorem mem_locksOf {held : Holders τ ν} : (l, m) ∈ locksOf t held ↔ (t, l, m) ∈ held := by
  simp only [locksOf, List.mem_map, List.mem_filter, decide_eq_true_eq, Prod.exists]
  constructor
  · rintro ⟨u, k, m', ⟨hmem, rfl⟩, heq⟩
    obtain ⟨rfl, rfl⟩ := Prod.mk.inj heq
    exact hmem
  · intro hmem
    exact ⟨t, l, m, ⟨hmem, rfl⟩, rfl⟩

/-- Who waits for a thread that is waiting itself weighs less. -/
theorem weight_lt (hd : Disciplined (Ascending rank) s) (hw : s.WaitsFor P t u)
    (ht : s.request t = some (l, m)) (hu : s.request u = some (k, m')) :
    weight rank l m < weight rank k m' := by
  obtain ⟨l', m₁, m₂, hreq, hmem, hmode, -⟩ := hw
  obtain ⟨rfl, rfl⟩ := Prod.mk.inj (Option.some.inj (hreq.symm.trans ht))
  have hbelow : rank l' < rank k ∨ (l', m₂) = (k, .read) ∧ m' = .read :=
    hd u k m' hu (l', m₂) (mem_locksOf.mpr hmem)
  rcases hbelow with hlt | ⟨heq, rfl⟩
  · cases m₁ <;> cases m' <;> simp only [weight] <;> omega
  · -- a lock read by `u` keeps writers out only
    obtain ⟨rfl, rfl⟩ := Prod.mk.inj heq
    cases m₁ with
    | read => exact absurd ⟨rfl, rfl⟩ hmode
    | write => exact Nat.lt_succ_self _

variable [DecidableEq ν]

def Move.isOwn : Move ι κ → Bool
  | .start _ | .call _ => false
  | _ => true

def Threads.Moves (P : Procedures ν ι κ) (s : Threads τ ν ι) (t : τ) : Prop :=
  ∃ a s', a.isOwn ∧ step P s (t, a) = some s'

/-- Behind every thread with something before it stands, at the end of a chain of threads that
wait for each other, one that can move. -/
def Threads.DeadlockFree (P : Procedures ν ι κ) (s : Threads τ ν ι) : Prop :=
  ∀ t, s.code t ≠ [] → ∃ u, ReflTransGen (s.WaitsFor P) t u ∧ s.Moves P u

/-- A thread with nothing before it holds nothing. -/
theorem Secure.locksOf_ended (hs : Secure ok enter s) (ht : s.code t = []) :
    locksOf t s.held = [] := by
  have hw := hs t
  rwa [ht] at hw

theorem exists_of_not_grants {held : Holders τ ν} (hg : ¬ grants P held t l m) :
    ∃ u m', (u, l, m') ∈ held ∧ ¬ (m = .read ∧ m' = .read) ∧ ¬ (P.nested l ∧ u = t) := by
  rw [grants, List.all_eq_true] at hg
  push Not at hg
  obtain ⟨⟨u, k, m'⟩, hmem, hx⟩ := hg
  have hx := of_decide_eq_false (eq_false_of_ne_true hx)
  obtain ⟨hk, hm, hn⟩ : k = l ∧ ¬ (m = .read ∧ m' = .read) ∧ ¬ (P.nested l ∧ u = t) := by
    simpa only [not_or, ne_eq, not_not] using hx
  exact ⟨u, m', hk ▸ hmem, hm, hn⟩

/-- Only a request can keep a thread from moving. -/
theorem moves_or_waits [Inhabited ι] (ht : s.code t ≠ []) :
    s.Moves P t ∨ ∃ u, s.WaitsFor P t u := by
  have hmoves : ∀ a : Move ι κ, a.isOwn → ∀ x, next P s.held t a (s.code t) = some x →
      s.Moves P t := by
    intro a ha x hx
    exact ⟨a, _, ha, by rw [step, hx]; rfl⟩
  cases hk : s.code t with
  | nil => exact absurd hk ht
  | cons p k =>
    rw [hk] at hmoves
    cases p with
    | lock l m =>
      by_cases hg : grants P s.held t l m
      · exact .inl (hmoves .step rfl _ (if_pos hg))
      · obtain ⟨u, m', hmem, hm, hn⟩ := exists_of_not_grants hg
        exact .inr ⟨u, l, m, m', by rw [Threads.request, hk], hmem, hm, hn⟩
    | branch p q => exact .inl (hmoves (.choose true) rfl _ rfl)
    | loop p => exact .inl (hmoves (.choose true) rfl _ rfl)
    | pick p => exact .inl (hmoves (.read default) rfl _ rfl)
    | _ => exact .inl (hmoves .step rfl _ rfl)

/-- The chain from a waiting thread on, by the room above its weight. -/
theorem exists_mover [Inhabited ι] {n : ℕ} (hs : Secure (Ascending rank) enter s)
    (hn : ∀ l, rank l ≤ n) (d : ℕ) (ht : s.code t ≠ [])
    (hroom : ∀ l m, s.request t = some (l, m) → 2 * n + 1 < weight rank l m + d) :
    ∃ u, ReflTransGen (s.WaitsFor P) t u ∧ s.Moves P u := by
  induction d generalizing t with
  | zero =>
    rcases moves_or_waits (P := P) ht with hm | ⟨u, l, m, m', hreq, -⟩
    · exact ⟨t, .refl, hm⟩
    · have hle := weight_le (hn l) m
      have hlt := hroom l m hreq
      omega
  | succ d ih =>
    rcases moves_or_waits (P := P) ht with hm | ⟨u, hw⟩
    · exact ⟨t, .refl, hm⟩
    · have hu : s.code u ≠ [] := by
        intro hend
        obtain ⟨l, m, m', -, hmem, -⟩ := hw
        have hheld := mem_locksOf.mpr hmem
        rw [hs.locksOf_ended hend] at hheld
        cases hheld
      obtain ⟨v, hv, hm⟩ := ih hu fun k m' hreq => by
        obtain ⟨l, m, m₁, ht', hmem⟩ := hw
        have hlt := weight_lt hs.disciplined ⟨l, m, m₁, ht', hmem⟩ ht' hreq
        have hle := hroom l m ht'
        omega
      exact ⟨v, .head hw hv, hm⟩

/-- Verified procedures whose requests ascend are free of deadlocks in every state that a run
reaches. -/
theorem deadlockFree_of_run [Inhabited ι] {n : ℕ} {may : κ → Prop}
    {h : List (Threads τ ν ι × τ × Move ι κ)} (hP : Verified P (Ascending rank) enter may)
    (hn : ∀ l, rank l ≤ n) (hr : Run (step P) .init h s)
    (hm : Meets (fun _ => CallsOnly may) h) : s.DeadlockFree P := by
  have hs : Secure (Ascending rank) enter s :=
    hr.invariant (fun _ _ _ hs ha h => step_secure hP hs ha h) hm fun _ => rfl
  intro t ht
  exact exists_mover hs hn (2 * n + 2) ht fun l m _ => by omega

/-- A thread that comes to a lock which it holds itself, and nobody else holds any, stays there. -/
theorem not_deadlockFree (hreq : s.request t = some (l, m)) (hheld : s.held = [(t, l, m')])
    (hn : P.nested l = false) (hm : ¬ (m = .read ∧ m' = .read)) : ¬ s.DeadlockFree P := by
  intro hfree
  have hk : ∃ k, s.code t = .lock l m :: k := by
    unfold Threads.request at hreq
    split at hreq
    case h_1 l' m' k hk =>
      obtain ⟨rfl, rfl⟩ := Prod.mk.inj (Option.some.inj hreq)
      exact ⟨k, hk⟩
    case h_2 => cases hreq
  obtain ⟨k, hk⟩ := hk
  obtain ⟨u, hchain, a, s', ha, hstep⟩ := hfree t (by rw [hk]; exact List.cons_ne_nil _ _)
  have hself : u = t := by
    induction hchain with
    | refl => rfl
    | tail _ hw ih =>
      obtain ⟨l', m₁, m₂, -, hmem, -⟩ := hw
      rw [hheld] at hmem
      exact (Prod.mk.inj (List.mem_singleton.mp hmem)).1
  subst hself
  obtain ⟨x, hx, -⟩ := Option.map_eq_some_iff.mp hstep
  rw [hk, hheld] at hx
  cases a with
  | step =>
    have hg : ¬ grants P [(u, l, m')] u l m := by
      simpa [grants, hn] using hm
    rw [next, if_neg hg] at hx
    cases hx
  | start | call => cases ha
  | _ => cases hx

end LockPrograms
