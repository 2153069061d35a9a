import ModBroadcast.RingDelivery

namespace ModBroadcast

open Automaton

variable {p : RingProfile} {r r' : Relay} {i : ℕ} {m m' : RingReader}
  {h : List (Relay × RelayAction)}

/-- The cursor of listener `i` moves from `m` to `m'` past a number that the listener has not
delivered. -/
def Relay.Snaps (r : Relay) (i : ℕ) (m m' : RingReader) : Prop :=
  ∃ k, m.consumer_seq ≤ k ∧ k < m'.consumer_seq ∧ ∀ kw ∈ r.heard i, kw.1 ≠ k

/-- The tick from `r` to `r'` raises both counters by one if it snaps forward, and neither if
it does not. -/
structure TickCounted (r r' : Relay) (i : ℕ) (m m' : RingReader) : Prop where
  snap : r'.Snaps i m m' → m'.resync_count = m.resync_count + 1 ∧
    r'.b.stat_listener_resyncs = r.b.stat_listener_resyncs + 1
  still : ¬ r'.Snaps i m m' → m'.resync_count = m.resync_count ∧
    r'.b.stat_listener_resyncs = r.b.stat_listener_resyncs

def SnapsCounted (p : RingProfile) (r : Relay) (a : RelayAction) : Prop :=
  ∀ i m m' r', a = .tick i → r.listener i = some m → relayStep p r a = some r' →
    r'.listener i = some m' → TickCounted r r' i m m'

/-- The lag of a listener that ticks is not above the ring size while it is within
`max_lag`. -/
def NotOverrun (p : RingProfile) (r : Relay) (a : RelayAction) : Prop :=
  ∀ i m, a = .tick i → r.listener i = some m →
    ¬ (p.ring_size < r.b.producer_seq - m.consumer_seq ∧
      r.b.producer_seq - m.consumer_seq ≤ p.max_lag)

theorem RingProfile.max_lag_pos (p : RingProfile) : 0 < p.max_lag := by
  unfold RingProfile.max_lag
  split_ifs <;> omega

/-- `stat_listener_resyncs` counts what the `resync_count` of the ticking listener counts. -/
theorem listenerTick_stat (p : RingProfile) (b : AudioRing) (m : RingReader) :
    (listenerTick p b m).1.stat_listener_resyncs + m.resync_count =
      b.stat_listener_resyncs + (listenerTick p b m).2.1.resync_count := by
  simp only [listenerTick]
  split_ifs <;> simp only <;> omega

/-- What a tick delivers is the only number in its way that the listener has heard. -/
theorem Delivered.heard_iff (hd : Delivered p r) (hm : r.listener i = some m) {k : ℕ}
    (hk : m.consumer_seq ≤ k) (out : Option (ℕ × WriteFrame)) :
    (∀ kw ∈ out.toList ++ r.heard i, kw.1 ≠ k) ↔ ∀ kw ∈ out, kw.1 ≠ k := by
  constructor
  · intro hall kw hkw
    exact hall kw (List.mem_append_left _ (by simpa using hkw))
  · intro hall kw hkw
    rcases List.mem_append.mp hkw with hnew | hold
    · exact hall kw (by simpa using hnew)
    · have hlt := hd.below i m hm kw hold
      omega

def Relay.ticked (p : RingProfile) (r : Relay) (i : ℕ) (m : RingReader) : Relay :=
  let (b, m', out) := listenerTick p r.b m
  { r with
    b := b
    listener := Function.update r.listener i (some m')
    heard := Function.update r.heard i (out.toList ++ r.heard i) }

theorem Relay.ticked_snaps_iff (hd : Delivered p r) (hm : r.listener i = some m) :
    (r.ticked p i m).Snaps i m (listenerTick p r.b m).2.1 ↔
      ∃ k, m.consumer_seq ≤ k ∧ k < (listenerTick p r.b m).2.1.consumer_seq ∧
        ∀ kw ∈ (listenerTick p r.b m).2.2, kw.1 ≠ k := by
  have hheard : (r.ticked p i m).heard i = (listenerTick p r.b m).2.2.toList ++ r.heard i := by
    simp [Relay.ticked]
  unfold Relay.Snaps
  rw [hheard]
  constructor
  · rintro ⟨k, hk, hlt, hne⟩
    exact ⟨k, hk, hlt, (hd.heard_iff hm hk _).mp hne⟩
  · rintro ⟨k, hk, hlt, hne⟩
    exact ⟨k, hk, hlt, (hd.heard_iff hm hk _).mpr hne⟩

/-- A tick snaps forward when its lag is above `max_lag` or the slot has been overwritten; only the
first is counted. -/
theorem tick_snaps_iff {sent : List TickFrame} {b : AudioRing} {out : Option (ℕ × WriteFrame)}
    (hb : RingHolds p.ring_size b sent) (h : TickOutcome p b m m' out) :
    ((∃ k, m.consumer_seq ≤ k ∧ k < m'.consumer_seq ∧ ∀ kw ∈ out, kw.1 ≠ k) ↔
        p.max_lag < b.producer_seq - m.consumer_seq ∨
          p.ring_size < b.producer_seq - m.consumer_seq) ∧
      m'.resync_count = m.resync_count +
        if p.max_lag < b.producer_seq - m.consumer_seq then 1 else 0 := by
  cases h with
  | idle h =>
    have hlag : ¬ p.max_lag < b.producer_seq - m.consumer_seq := by omega
    refine ⟨⟨?_, ?_⟩, by rw [if_neg hlag, Nat.add_zero]⟩
    · rintro ⟨k, hk, hlt, -⟩
      omega
    · intro hor
      omega
  | deliver h hlag hs =>
    rw [hb.seq_iff h] at hs
    refine ⟨⟨?_, ?_⟩, by rw [if_neg (by omega)]; rfl⟩
    · rintro ⟨k, hk, hlt, hne⟩
      have hne' : m.consumer_seq ≠ k := hne _ rfl
      simp only at hlt
      omega
    · intro hor
      omega
  | stale h hlag hs =>
    rw [ne_eq, hb.seq_iff h] at hs
    refine ⟨⟨fun _ => .inr (by omega), fun _ => ?_⟩, by rw [if_neg (by omega), Nat.add_zero]⟩
    exact ⟨m.consumer_seq, le_rfl, h, by simp⟩
  | resync h hlag hs =>
    refine ⟨⟨fun _ => .inl hlag, fun _ => ?_⟩, by rw [if_pos hlag]⟩
    -- at least one number lies between the cursor and the newest frame
    have hpos := p.max_lag_pos
    refine ⟨m.consumer_seq, le_rfl, h, ?_⟩
    rintro kw ⟨⟩
    show b.producer_seq - 1 ≠ m.consumer_seq
    omega

/-- A tick is counted right exactly when it does not find its slot overwritten within
`max_lag`. -/
theorem ticked_counted_iff (hd : Delivered p r) (hm : r.listener i = some m) :
    TickCounted r (r.ticked p i m) i m (listenerTick p r.b m).2.1 ↔
      ¬ (p.ring_size < r.b.producer_seq - m.consumer_seq ∧
        r.b.producer_seq - m.consumer_seq ≤ p.max_lag) := by
  obtain ⟨hsnap, hcount⟩ := tick_snaps_iff hd.ring (listenerTick_outcome p hd.ring m)
  have hstat := listenerTick_stat p r.b m
  have hb : (r.ticked p i m).b = (listenerTick p r.b m).1 := rfl
  rw [← Relay.ticked_snaps_iff hd hm] at hsnap
  constructor
  · rintro ⟨hs, -⟩ ⟨hover, hle⟩
    have h := (hs (hsnap.mpr (.inr hover))).1
    rw [if_neg (by omega)] at hcount
    omega
  · intro hno
    constructor
    · intro hs
      have hlag : p.max_lag < r.b.producer_seq - m.consumer_seq := by
        have := hsnap.mp hs
        omega
      rw [if_pos hlag] at hcount
      rw [hb]
      omega
    · intro hs
      have hlag : ¬ p.max_lag < r.b.producer_seq - m.consumer_seq := fun hl =>
        hs (hsnap.mpr (.inl hl))
      rw [if_neg hlag] at hcount
      rw [hb]
      omega

theorem snapsCounted_iff {a : RelayAction} (hd : Delivered p r) :
    SnapsCounted p r a ↔ NotOverrun p r a := by
  constructor
  · rintro hc i m rfl hm
    refine (ticked_counted_iff hd hm).mp (hc i m _ (r.ticked p i m) rfl hm ?_ ?_)
    · simp [relayStep, hm, Relay.ticked]
    · simp [Relay.ticked]
  · rintro hn i m m' r' rfl hm hs hm'
    obtain rfl : r.ticked p i m = r' := by simpa [relayStep, hm, Relay.ticked] using hs
    obtain rfl : (listenerTick p r.b m).2.1 = m' := by simpa [Relay.ticked] using hm'
    exact (ticked_counted_iff hd hm).mpr (hn i m rfl hm)

/-- In every run the ticks of all listeners are counted right exactly when none of them has a lag
above the ring size and within `max_lag`. -/
theorem snaps_counted_iff (p : RingProfile) (hr : Run (relayStep p) Relay.init h r) :
    Meets (SnapsCounted p) h ↔ Meets (NotOverrun p) h := by
  have hstep : ∀ s a t, Delivered p s → relayStep p s a = some t → Delivered p t :=
    fun _ _ _ hd hs => hd.step hs
  constructor
  · intro hm
    exact hr.meets_of_invariant (g := SnapsCounted p) (fun s a t hd _ => hstep s a t hd)
      (fun s a t hd hc _ => (snapsCounted_iff hd).mp hc) hm (Delivered.init p)
  · intro hm
    exact hr.meets_of_invariant (g := NotOverrun p) (fun s a t hd _ => hstep s a t hd)
      (fun s a t hd hn _ => (snapsCounted_iff hd).mpr hn) hm (Delivered.init p)

/-- On a ring of 8 a listener that has fallen three frames behind snaps to the newest one. -/
theorem snaps_counted_iff_resync : ∃ h r, Run (relayStep ⟨8, 2, 20, 0⟩) Relay.init h r ∧
    r.listener 0 = some ⟨3, 1⟩ ∧ r.b.stat_listener_resyncs = 1 ∧
    Meets (SnapsCounted ⟨8, 2, 20, 0⟩) h := by
  let f (n : UInt8) : TickFrame := ⟨[n, n], 1, false⟩
  obtain ⟨h, r, hr, -, hv⟩ := exists_run_observing (relayStep ⟨8, 2, 20, 0⟩)
    (fun _ _ => true) Relay.init
    [.join 0, .publish (f 10), .publish (f 11), .publish (f 12), .tick 0]
    (fun _ r => (r.listener 0, r.b.stat_listener_resyncs)) (v := (some ⟨3, 1⟩, 1)) (by decide)
  obtain ⟨h₁, h₂⟩ := Prod.mk.inj hv
  refine ⟨h, r, hr, h₁, h₂, (snaps_counted_iff _ hr).mpr ?_⟩
  intro x _ i m _ _
  have hle : RingProfile.max_lag ⟨8, 2, 20, 0⟩ ≤ RingProfile.ring_size ⟨8, 2, 20, 0⟩ := by decide
  omega

/-- A ring of 2 with `max_lag` 10: after three frames the slot of frame 0 carries frame 2, and the
cursor goes from 0 to 3 without a count. -/
theorem snap_not_counted : ¬ ∀ (h : List (Relay × RelayAction)) (r : Relay),
    Run (relayStep ⟨2, 10, 20, 0⟩) Relay.init h r → Meets (SnapsCounted ⟨2, 10, 20, 0⟩) h := by
  let f (n : UInt8) : TickFrame := ⟨[n, n], 1, false⟩
  refine not_forall_run (fun _ _ => true)
    [.join 0, .publish (f 10), .publish (f 11), .publish (f 12), .tick 0]
    (fun h _ => h.head?.map fun x => (x.2, x.1.listener 0, x.1.b.producer_seq))
    (v := some (.tick 0, some ⟨0, 0⟩, 3)) (by decide) ?_
  intro h r hr _ hv hall
  cases hr with
  | nil => cases hv
  | @snoc h s a r run enabled =>
    simp only [List.head?_cons, Option.map_some, Option.some.injEq, Prod.mk.injEq] at hv
    obtain ⟨rfl, hm, hseq⟩ := hv
    have hno := (snapsCounted_iff (Delivered.of_run run)).mp (meets_cons.mp hall).1 0 ⟨0, 0⟩ rfl hm
    simp [hseq, RingProfile.ring_size, RingProfile.max_lag] at hno

end ModBroadcast
