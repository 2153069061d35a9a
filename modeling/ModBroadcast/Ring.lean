import ModBroadcast.Automaton
import ModBroadcast.StampedRing

namespace ModBroadcast

/-- The profile fields that shape the ring and a listener's place in it. -/
structure RingProfile where
  ringSize : ℕ
  maxLagFrames : ℕ
  intervalMs : ℕ
  listenerPreBufferMs : ℕ

/-- `b->ring_size` as `broadcast_create` sets it. -/
def RingProfile.ring_size (p : RingProfile) : ℕ := if p.ringSize ≠ 0 then p.ringSize else 50

/-- `max_lag` as `broadcast_listener_run` computes it. -/
def RingProfile.max_lag (p : RingProfile) : ℕ := if p.maxLagFrames ≠ 0 then p.maxLagFrames else 10

theorem RingProfile.ring_size_pos (p : RingProfile) : 0 < p.ring_size := by
  unfold RingProfile.ring_size
  split_ifs <;> omega

structure RingFrame where
  seq : ℕ
  datalen : ℕ
  samples : ℕ
  data : List UInt8
  silence : Bool

/-- What a producer tick has assembled when it publishes: the first `datalen`
bytes of `local_data`, `samples_per_frame` and `silence_flag`. -/
structure TickFrame where
  bytes : List UInt8
  samples : ℕ
  silence : Bool
  deriving DecidableEq

/-- The part of a listener's `write_frame` that a ring slot fills. -/
structure WriteFrame where
  datalen : ℕ
  samples : ℕ
  data : List UInt8
  deriving DecidableEq

/-- The frame a listener sends when it delivers what was published as `f`. -/
def TickFrame.toWriteFrame (f : TickFrame) : WriteFrame := ⟨f.bytes.length, f.samples, f.bytes⟩

/-- The fields of `broadcast_obj_t` that publication and ring reads share.  Each publication and each
ring read is one step.  The sequence numbers count in `uint64_t`, which one frame per tick does not
exhaust; they are natural numbers here. -/
structure AudioRing where
  ring : ℕ → RingFrame
  producer_seq : ℕ
  stat_listener_resyncs : ℕ

/-- The fields of a listening `member_obj_t` that the ring read uses. -/
structure RingReader where
  consumer_seq : ℕ
  resync_count : ℕ
  deriving DecidableEq

/-- `broadcast_create`: the slots come zeroed from the pool. -/
def AudioRing.create : AudioRing := ⟨fun _ => ⟨0, 0, 0, List.replicate 1920 0, false⟩, 0, 0⟩

/-- The end of a producer tick: fill the slot, stamp it, advance `producer_seq`.
`memcpy` leaves the bytes of the slot behind `datalen` as they were. -/
def publish (N : ℕ) (b : AudioRing) (f : TickFrame) : AudioRing :=
  let seq := b.producer_seq
  let slot := b.ring (seq % N)
  { b with
    ring := Function.update b.ring (seq % N)
      { seq := seq
        datalen := f.bytes.length
        samples := f.samples
        data := f.bytes ++ slot.data.drop f.bytes.length
        silence := f.silence }
    producer_seq := seq + 1 }

/-- The cursor that `broadcast_listener_add` gives a member; the guard is
computed in `uint32_t`. -/
def startCursor (p : RingProfile) (b : AudioRing) : ℕ :=
  let cs := b.producer_seq
  if p.listenerPreBufferMs ≠ 0 ∧
      p.listenerPreBufferMs < p.intervalMs * p.ring_size % 2 ^ 32 then
    let back := p.listenerPreBufferMs / p.intervalMs
    if back < cs then cs - back else cs
  else cs

/-- The ring read of one tick of `broadcast_listener_run`.  The last component
is the frame copied from the ring with its sequence number, `none` when the tick
sends `silence_buf`. -/
def listenerTick (p : RingProfile) (b : AudioRing) (m : RingReader) :
    AudioRing × RingReader × Option (ℕ × WriteFrame) :=
  let cs := m.consumer_seq
  let pseq := b.producer_seq
  if cs < pseq then
    let lagging := p.max_lag < pseq - cs
    let cs := if lagging then pseq - 1 else cs
    let b := if lagging then { b with stat_listener_resyncs := b.stat_listener_resyncs + 1 } else b
    let resync := if lagging then m.resync_count + 1 else m.resync_count
    let slot := b.ring (cs % p.ring_size)
    if slot.seq = cs then
      (b, ⟨cs + 1, resync⟩, some (cs, ⟨slot.datalen, slot.samples, slot.data.take slot.datalen⟩))
    else
      (b, ⟨(pseq - 1) + 1, resync⟩, none)
  else (b, m, none)

def RingFrame.cell (s : RingFrame) : ℕ × WriteFrame :=
  (s.seq, ⟨s.datalen, s.samples, s.data.take s.datalen⟩)

theorem publish_cells (N : ℕ) (b : AudioRing) (f : TickFrame) :
    (fun i => ((publish N b f).ring i).cell) =
      StampedRing.write N (fun i => (b.ring i).cell) b.producer_seq f.toWriteFrame := by
  funext i
  by_cases hi : i = b.producer_seq % N
  · simp [publish, StampedRing.write, hi, RingFrame.cell, TickFrame.toWriteFrame]
  · simp [publish, StampedRing.write, hi]

/-- The ring after the frames of `sent` have been published, in this order. -/
structure RingHolds (N : ℕ) (b : AudioRing) (sent : List TickFrame) : Prop where
  length : sent.length = b.producer_seq
  records : StampedRing.Records N (fun i => (b.ring i).cell) (sent.map TickFrame.toWriteFrame)

theorem RingHolds.create (N : ℕ) : RingHolds N AudioRing.create [] := ⟨rfl, .nil _⟩

theorem RingHolds.publish {N : ℕ} (hN : 0 < N) {b : AudioRing} {sent : List TickFrame}
    (h : RingHolds N b sent) (f : TickFrame) : RingHolds N (publish N b f) (sent ++ [f]) := by
  constructor
  · simp [ModBroadcast.publish, h.length]
  · have hw := h.records.write hN f.toWriteFrame
    rw [List.length_map, h.length, ← publish_cells] at hw
    simpa using hw

/-- The slot of `k` carries `k` exactly while `k` is among the last `N` numbers. -/
theorem RingHolds.seq_iff {N : ℕ} {b : AudioRing} {sent : List TickFrame} (h : RingHolds N b sent)
    {k : ℕ} (hk : k < b.producer_seq) : (b.ring (k % N)).seq = k ↔ b.producer_seq ≤ k + N := by
  have hi := h.records.stamp_iff k (by rw [List.length_map, h.length]; exact hk)
  rw [List.length_map, h.length] at hi
  exact hi

/-- A slot that carries `k` holds what was published under `k`. -/
theorem RingHolds.payload {N : ℕ} {b : AudioRing} {sent : List TickFrame} (h : RingHolds N b sent)
    {k : ℕ} (hk : k < b.producer_seq) (hs : (b.ring (k % N)).seq = k) :
    ∃ f, sent[k]? = some f ∧ f.toWriteFrame = (b.ring (k % N)).cell.2 := by
  have hv := h.records.value k (by rw [List.length_map, h.length]; exact hk) hs
  rw [List.getElem?_map] at hv
  exact Option.map_eq_some_iff.mp hv

inductive TickOutcome (p : RingProfile) (b : AudioRing) (m : RingReader) :
    RingReader → Option (ℕ × WriteFrame) → Prop
  | idle (h : b.producer_seq ≤ m.consumer_seq) : TickOutcome p b m m none
  | deliver (h : m.consumer_seq < b.producer_seq)
      (hlag : b.producer_seq - m.consumer_seq ≤ p.max_lag)
      (hs : (b.ring (m.consumer_seq % p.ring_size)).seq = m.consumer_seq) :
      TickOutcome p b m ⟨m.consumer_seq + 1, m.resync_count⟩
        (some (m.consumer_seq, (b.ring (m.consumer_seq % p.ring_size)).cell.2))
  | stale (h : m.consumer_seq < b.producer_seq)
      (hlag : b.producer_seq - m.consumer_seq ≤ p.max_lag)
      (hs : (b.ring (m.consumer_seq % p.ring_size)).seq ≠ m.consumer_seq) :
      TickOutcome p b m ⟨b.producer_seq, m.resync_count⟩ none
  | resync (h : m.consumer_seq < b.producer_seq)
      (hlag : p.max_lag < b.producer_seq - m.consumer_seq)
      (hs : (b.ring ((b.producer_seq - 1) % p.ring_size)).seq = b.producer_seq - 1) :
      TickOutcome p b m ⟨b.producer_seq, m.resync_count + 1⟩
        (some (b.producer_seq - 1, (b.ring ((b.producer_seq - 1) % p.ring_size)).cell.2))

/-- A resync always finds the newest frame in its slot. -/
theorem listenerTick_outcome (p : RingProfile) {b : AudioRing} {sent : List TickFrame}
    (hb : RingHolds p.ring_size b sent) (m : RingReader) :
    TickOutcome p b m (listenerTick p b m).2.1 (listenerTick p b m).2.2 := by
  by_cases hlt : m.consumer_seq < b.producer_seq
  · by_cases hlag : p.max_lag < b.producer_seq - m.consumer_seq
    · have hnew : (b.ring ((b.producer_seq - 1) % p.ring_size)).seq = b.producer_seq - 1 := by
        rw [hb.seq_iff (by omega)]
        have := p.ring_size_pos
        omega
      have hone : b.producer_seq - 1 + 1 = b.producer_seq := by omega
      have := TickOutcome.resync (p := p) hlt hlag hnew
      simpa [listenerTick, hlt, hlag, hnew, hone, RingFrame.cell] using this
    · have hle : b.producer_seq - m.consumer_seq ≤ p.max_lag := by omega
      by_cases hs : (b.ring (m.consumer_seq % p.ring_size)).seq = m.consumer_seq
      · have := TickOutcome.deliver (p := p) hlt hle hs
        simpa [listenerTick, hlt, hlag, hs, RingFrame.cell] using this
      · have hone : b.producer_seq - 1 + 1 = b.producer_seq := by omega
        have := TickOutcome.stale (p := p) hlt hle hs
        simpa [listenerTick, hlt, hlag, hs, hone] using this
  · have := TickOutcome.idle (p := p) (b := b) (m := m) (by omega)
    simpa [listenerTick, hlt] using this

/-- A tick writes nothing but the resync counter of the broadcast. -/
@[simp] theorem listenerTick_ring (p : RingProfile) (b : AudioRing) (m : RingReader) :
    (listenerTick p b m).1.ring = b.ring := by
  simp only [listenerTick]
  split_ifs <;> rfl

@[simp] theorem listenerTick_producer_seq (p : RingProfile) (b : AudioRing) (m : RingReader) :
    (listenerTick p b m).1.producer_seq = b.producer_seq := by
  simp only [listenerTick]
  split_ifs <;> rfl

theorem RingHolds.listenerTick {p : RingProfile} {N : ℕ} {b : AudioRing} {sent : List TickFrame}
    (h : RingHolds N b sent) (m : RingReader) : RingHolds N (listenerTick p b m).1 sent := by
  constructor
  · simpa using h.length
  · simpa using h.records

theorem startCursor_le (p : RingProfile) (b : AudioRing) : startCursor p b ≤ b.producer_seq := by
  simp only [startCursor]
  split_ifs
  · exact Nat.sub_le _ _
  · exact le_rfl
  · exact le_rfl

end ModBroadcast
