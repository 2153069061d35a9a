import ModBroadcast.Ring

namespace ModBroadcast

open Automaton

/-- A broadcast with its listeners, and two history variables: the frames
published so far in order, and for each listener the ring frames it has
delivered, the latest first. -/
structure Relay where
  b : AudioRing
  listener : ℕ → Option RingReader
  sent : List TickFrame
  heard : ℕ → List (ℕ × WriteFrame)

inductive RelayAction
  | publish (f : TickFrame)
  | join (i : ℕ)
  | tick (i : ℕ)
  deriving DecidableEq

def Relay.init : Relay := ⟨AudioRing.create, fun _ => none, [], fun _ => []⟩

/-- A joining member gets its cursor from `broadcast_listener_add`; its
`resync_count` is zero from the allocation. -/
def relayStep (p : RingProfile) (r : Relay) : RelayAction → Option Relay
  | .publish f => some { r with b := publish p.ring_size r.b f, sent := r.sent ++ [f] }
  | .join i =>
    match r.listener i with
    | some _ => none
    | none => some { r with listener := Function.update r.listener i (some ⟨startCursor p r.b, 0⟩) }
  | .tick i =>
    match r.listener i with
    | none => none
    | some m =>
      let (b, m', out) := listenerTick p r.b m
      some { r with
        b := b
        listener := Function.update r.listener i (some m')
        heard := Function.update r.heard i (out.toList ++ r.heard i) }

structure Delivered (p : RingProfile) (r : Relay) : Prop where
  ring : RingHolds p.ring_size r.b r.sent
  cursor_le : ∀ i m, r.listener i = some m → m.consumer_seq ≤ r.b.producer_seq
  unjoined : ∀ i, r.listener i = none → r.heard i = []
  below : ∀ i m, r.listener i = some m → ∀ kw ∈ r.heard i, kw.1 < m.consumer_seq
  increasing : ∀ i, (r.heard i).Pairwise fun x y => y.1 < x.1
  payload : ∀ i, ∀ kw ∈ r.heard i, ∃ f, r.sent[kw.1]? = some f ∧ kw.2 = f.toWriteFrame

theorem Delivered.init (p : RingProfile) : Delivered p Relay.init where
  ring := .create _
  cursor_le := by simp [Relay.init]
  unjoined := by simp [Relay.init]
  below := by simp [Relay.init]
  increasing := by simp [Relay.init]
  payload := by simp [Relay.init]

/-- What one tick does to the cursor and to the delivered frames. -/
theorem tick_spec {p : RingProfile} {b : AudioRing} {sent : List TickFrame} {m m' : RingReader}
    {out : Option (ℕ × WriteFrame)} (hb : RingHolds p.ring_size b sent)
    (hle : m.consumer_seq ≤ b.producer_seq) (h : TickOutcome p b m m' out) :
    m.consumer_seq ≤ m'.consumer_seq ∧ m'.consumer_seq ≤ b.producer_seq ∧
    (∀ kw ∈ out, m.consumer_seq ≤ kw.1 ∧ kw.1 < m'.consumer_seq ∧
      ∃ f, sent[kw.1]? = some f ∧ kw.2 = f.toWriteFrame) ∧
    (∀ k, m.consumer_seq ≤ k → k < m'.consumer_seq → (∀ kw ∈ out, kw.1 ≠ k) →
      p.max_lag < b.producer_seq - m.consumer_seq ∨
      p.ring_size < b.producer_seq - m.consumer_seq) := by
  cases h with
  | idle h =>
    refine ⟨le_rfl, hle, by simp, ?_⟩
    intro k h1 h2
    omega
  | deliver h hlag hs =>
    obtain ⟨f, hf, hw⟩ := hb.payload h hs
    refine ⟨by simp, Nat.succ_le_of_lt h, ?_, ?_⟩
    · rintro kw ⟨⟩
      exact ⟨le_rfl, by simp, f, hf, hw.symm⟩
    · intro k h1 h2 hne
      have hk : k = m.consumer_seq := by simp only at h2; omega
      exact absurd hk.symm (hne _ rfl)
  | stale h hlag hs =>
    refine ⟨hle, le_rfl, by simp, ?_⟩
    intro k _ _ _
    -- a slot that no longer carries the cursor has been overwritten
    rw [ne_eq, hb.seq_iff h] at hs
    omega
  | resync h hlag hs =>
    obtain ⟨f, hf, hw⟩ := hb.payload (by omega) hs
    refine ⟨hle, le_rfl, ?_, fun k _ _ _ => .inl hlag⟩
    rintro kw ⟨⟩
    refine ⟨?_, ?_, f, hf, hw.symm⟩
    · show m.consumer_seq ≤ b.producer_seq - 1
      omega
    · show b.producer_seq - 1 < b.producer_seq
      omega

theorem Delivered.publish {p : RingProfile} {r : Relay} (h : Delivered p r) (f : TickFrame) :
    Delivered p { r with b := ModBroadcast.publish p.ring_size r.b f, sent := r.sent ++ [f] } where
  ring := h.ring.publish p.ring_size_pos f
  cursor_le i m hm := (h.cursor_le i m hm).trans (Nat.le_succ _)
  unjoined := h.unjoined
  below := h.below
  increasing := h.increasing
  payload i kw hkw := by
    obtain ⟨g, hg, hw⟩ := h.payload i kw hkw
    -- a frame published later does not change the earlier ones
    have hlt : kw.1 < r.sent.length := (List.getElem?_eq_some_iff.mp hg).1
    exact ⟨g, by rw [List.getElem?_append_left hlt, hg], hw⟩

theorem Delivered.join {p : RingProfile} {r : Relay} {i : ℕ} (h : Delivered p r)
    (hi : r.listener i = none) :
    Delivered p { r with
      listener := Function.update r.listener i (some ⟨startCursor p r.b, 0⟩) } where
  ring := h.ring
  cursor_le j m hm := by
    by_cases hj : j = i
    · obtain rfl : m = ⟨startCursor p r.b, 0⟩ := by simpa [hj, eq_comm] using hm
      exact startCursor_le p r.b
    · exact h.cursor_le j m (by simpa [Function.update_of_ne hj] using hm)
  unjoined j hj := by
    by_cases hji : j = i
    · simp [hji] at hj
    · exact h.unjoined j (by simpa [Function.update_of_ne hji] using hj)
  below j m hm kw hkw := by
    by_cases hj : j = i
    · have hkw' : kw ∈ r.heard i := hj ▸ hkw
      rw [h.unjoined i hi] at hkw'
      cases hkw'
    · exact h.below j m (by simpa [Function.update_of_ne hj] using hm) kw hkw
  increasing := h.increasing
  payload := h.payload

theorem Delivered.tick {p : RingProfile} {r : Relay} {i : ℕ} {m : RingReader} (h : Delivered p r)
    (hm : r.listener i = some m) :
    Delivered p { r with
      b := (listenerTick p r.b m).1
      listener := Function.update r.listener i (some (listenerTick p r.b m).2.1)
      heard := Function.update r.heard i ((listenerTick p r.b m).2.2.toList ++ r.heard i) } := by
  obtain ⟨hmono, hle, hout, -⟩ :=
    tick_spec h.ring (h.cursor_le i m hm) (listenerTick_outcome p h.ring m)
  constructor
  · exact h.ring.listenerTick m
  · intro j n hn
    by_cases hj : j = i
    · obtain rfl : n = (listenerTick p r.b m).2.1 := by simpa [hj, eq_comm] using hn
      simpa using hle
    · simpa using h.cursor_le j n (by simpa [Function.update_of_ne hj] using hn)
  · intro j hj
    by_cases hji : j = i
    · simp [hji] at hj
    · simpa [Function.update_of_ne hji] using
        h.unjoined j (by simpa [Function.update_of_ne hji] using hj)
  · intro j n hn kw hkw
    by_cases hj : j = i
    · subst hj
      obtain rfl : n = (listenerTick p r.b m).2.1 := by simpa [eq_comm] using hn
      have hkw' : kw ∈ (listenerTick p r.b m).2.2.toList ++ r.heard j := by simpa using hkw
      rcases List.mem_append.mp hkw' with hnew | hold
      · exact (hout kw (by simpa using hnew)).2.1
      · exact (h.below j m hm kw hold).trans_le hmono
    · exact h.below j n (by simpa [Function.update_of_ne hj] using hn) kw
        (by simpa [Function.update_of_ne hj] using hkw)
  -- what was delivered before lies below the old cursor
  · intro j
    by_cases hj : j = i
    · subst hj
      simp only [Function.update_self]
      refine List.pairwise_append.mpr ⟨?_, h.increasing j, ?_⟩
      · cases (listenerTick p r.b m).2.2 <;> simp
      · intro x hx y hy
        exact (h.below j m hm y hy).trans_le (hout x (by simpa using hx)).1
    · simpa [Function.update_of_ne hj] using h.increasing j
  · intro j kw hkw
    by_cases hj : j = i
    · subst hj
      have hkw' : kw ∈ (listenerTick p r.b m).2.2.toList ++ r.heard j := by simpa using hkw
      rcases List.mem_append.mp hkw' with hnew | hold
      · exact (hout kw (by simpa using hnew)).2.2
      · exact h.payload j kw hold
    · exact h.payload j kw (by simpa [Function.update_of_ne hj] using hkw)

theorem Delivered.step {p : RingProfile} {r r' : Relay} {a : RelayAction} (h : Delivered p r)
    (hs : relayStep p r a = some r') : Delivered p r' := by
  cases a with
  | publish f =>
    obtain rfl := Option.some.inj hs
    exact h.publish f
  | join i =>
    cases hi : r.listener i with
    | some m => simp [relayStep, hi] at hs
    | none =>
      simp only [relayStep, hi, Option.some.injEq] at hs
      subst hs
      exact h.join hi
  | tick i =>
    cases hi : r.listener i with
    | none => simp [relayStep, hi] at hs
    | some m =>
      simp only [relayStep, hi, Option.some.injEq] at hs
      subst hs
      exact h.tick hi

theorem Delivered.of_run {p : RingProfile} {h : List (Relay × RelayAction)} {r : Relay}
    (hr : Run (relayStep p) Relay.init h r) : Delivered p r :=
  hr.invariant (g := fun _ _ => True) (fun _ _ _ hi _ hs => hi.step hs) (fun _ _ => trivial)
    (Delivered.init p)

/-- At a step from `r` to `r'` no listener's cursor moves back, and a number that
it passes without delivering it had a lag above `max_lag` or above the ring size. -/
def SkipsOnlyLagging (p : RingProfile) (r r' : Relay) : Prop :=
  ∀ i m m', r.listener i = some m → r'.listener i = some m' →
    m.consumer_seq ≤ m'.consumer_seq ∧
    ∀ k, m.consumer_seq ≤ k → k < m'.consumer_seq → (∀ kw ∈ r'.heard i, kw.1 ≠ k) →
      p.max_lag < r.b.producer_seq - m.consumer_seq ∨
      p.ring_size < r.b.producer_seq - m.consumer_seq

theorem SkipsOnlyLagging.of_same {p : RingProfile} {r r' : Relay}
    (h : ∀ i m m', r.listener i = some m → r'.listener i = some m' → m' = m) :
    SkipsOnlyLagging p r r' := by
  intro i m m' hm hm'
  obtain rfl := h i m m' hm hm'
  refine ⟨le_rfl, fun k h1 h2 => ?_⟩
  omega

theorem relayStep_skips {p : RingProfile} {r r' : Relay} {a : RelayAction} (h : Delivered p r)
    (hs : relayStep p r a = some r') : SkipsOnlyLagging p r r' := by
  cases a with
  | publish f =>
    obtain rfl := Option.some.inj hs
    exact .of_same fun i m m' hm hm' => Option.some.inj (hm'.symm.trans hm)
  | join i =>
    cases hi : r.listener i with
    | some m => simp [relayStep, hi] at hs
    | none =>
      simp only [relayStep, hi, Option.some.injEq] at hs
      subst hs
      refine .of_same fun j m m' hm hm' => ?_
      have hj : j ≠ i := fun hji => by simp [hji, hi] at hm
      simp only [Function.update_of_ne hj] at hm'
      exact Option.some.inj (hm'.symm.trans hm)
  | tick i =>
    cases hi : r.listener i with
    | none => simp [relayStep, hi] at hs
    | some m =>
      simp only [relayStep, hi, Option.some.injEq] at hs
      subst hs
      intro j n n' hn hn'
      by_cases hj : j = i
      · subst hj
        obtain rfl : n = m := Option.some.inj (hn.symm.trans hi)
        obtain rfl : n' = (listenerTick p r.b n).2.1 := by simpa [eq_comm] using hn'
        obtain ⟨hmono, -, -, hskip⟩ :=
          tick_spec h.ring (h.cursor_le j n hi) (listenerTick_outcome p h.ring n)
        refine ⟨hmono, fun k h1 h2 hne => hskip k h1 h2 fun kw hkw => hne kw ?_⟩
        simp only [Function.update_self, List.mem_append]
        exact .inl (by simpa using hkw)
      · simp only [Function.update_of_ne hj] at hn'
        obtain rfl := Option.some.inj (hn.symm.trans hn')
        exact ⟨le_rfl, fun k h1 h2 => by omega⟩

/-- In every run, for every profile: cursors never overtake the producer, the ring
frames a listener delivers have strictly increasing numbers and the payload
published under them, and a number is passed over only at a tick with a lag above
`max_lag` or above the ring size. -/
theorem ring_delivery (p : RingProfile) {h : List (Relay × RelayAction)} {r : Relay}
    (hr : Run (relayStep p) Relay.init h r) :
    r.sent.length = r.b.producer_seq ∧
    (∀ i m, r.listener i = some m → m.consumer_seq ≤ r.b.producer_seq) ∧
    (∀ i, (r.heard i).Pairwise fun x y => y.1 < x.1) ∧
    (∀ i, ∀ kw ∈ r.heard i, ∃ f, r.sent[kw.1]? = some f ∧ kw.2 = f.toWriteFrame) ∧
    Meets (fun s a => ∀ s', relayStep p s a = some s' → SkipsOnlyLagging p s s') h := by
  have hd := Delivered.of_run hr
  refine ⟨hd.ring.length, hd.cursor_le, hd.increasing, hd.payload, ?_⟩
  exact hr.meets_of_invariant (g := fun _ _ => True) (fun _ _ _ hi _ hs => hi.step hs)
    (fun _ _ _ hi _ _ s' hs => relayStep_skips hi hs) (fun _ _ => trivial) (Delivered.init p)

/-- A listener with `max_lag` 1 on a ring of 2 that takes frame 0, then lets three
frames pass: its second tick snaps to frame 3. -/
theorem ring_delivery_resync : ∃ h r, Run (relayStep ⟨2, 1, 20, 0⟩) Relay.init h r ∧
    (r.heard 0).map Prod.fst = [3, 0] ∧
    (∀ i, ∀ kw ∈ r.heard i, ∃ f, r.sent[kw.1]? = some f ∧ kw.2 = f.toWriteFrame) := by
  let f (n : UInt8) : TickFrame := ⟨[n, n], 1, false⟩
  obtain ⟨h, r, hr, -, hv⟩ := exists_run_observing (relayStep ⟨2, 1, 20, 0⟩) (fun _ _ => true)
    Relay.init [.join 0, .publish (f 10), .tick 0, .publish (f 11), .publish (f 12), .publish (f 13), .tick 0]
    (fun _ r => (r.heard 0).map Prod.fst) (v := [3, 0]) (by decide)
  exact ⟨h, r, hr, hv, (ring_delivery _ hr).2.2.2.1⟩

end ModBroadcast
