import ModBroadcast.Ring

namespace ModBroadcast

open Automaton

/-- The format of a broadcast's frames and the size of its ring. -/
structure TapeFormat where
  ring_size : ℕ
  ring_size_pos : 0 < ring_size
  channels : ℕ
  samples_per_frame : ℕ

def TapeFormat.bytes_per_frame (q : TapeFormat) : ℕ := q.samples_per_frame * q.channels * 2

def TapeFormat.Fits (q : TapeFormat) (f : TickFrame) : Prop :=
  f.bytes.length = q.bytes_per_frame ∧ f.samples = q.samples_per_frame

instance (q : TapeFormat) : DecidablePred q.Fits := fun _ => inferInstanceAs (Decidable (_ ∧ _))

/-- The place of a writer: in front of the outer loop's test, of the load of `producer_seq`, or of
the inner loop's test with the value loaded. -/
inductive TapePc
  | timer | loop | sample | pass (pseq : ℕ) | closed
  deriving DecidableEq

structure TapeReader where
  consumer_seq : ℕ
  running : Bool
  pc : TapePc
  deriving DecidableEq

/-- One step of `broadcast_record_writer_run`; `ok` answers for the core.  The second component is
what `switch_core_file_write` takes: `samples` counts the samples of each channel. -/
def recordWriterRun (q : TapeFormat) (b : AudioRing) (destroyed ok : Bool) (m : TapeReader) :
    Option (TapeReader × Option (ℕ × List UInt8)) :=
  match m.pc with
  | .timer =>
    if ok then some ({ m with pc := .loop }, none)
    else some ({ m with running := false, pc := .closed }, none)
  | .loop => some ({ m with pc := if m.running ∧ ¬ destroyed then .sample else .closed }, none)
  | .sample => some ({ m with pc := .pass b.producer_seq }, none)
  | .pass pseq =>
    if m.consumer_seq < pseq ∧ m.running then
      let slot := b.ring (m.consumer_seq % q.ring_size)
      if slot.seq = m.consumer_seq then
        if ok then
          some ({ m with consumer_seq := m.consumer_seq + 1 },
            some (m.consumer_seq, slot.data.take (slot.samples * q.channels * 2)))
        else some ({ m with running := false, pc := .closed }, none)
      -- a number whose slot has been overwritten is passed over in silence
      else some ({ m with consumer_seq := m.consumer_seq + 1 }, none)
    else some ({ m with pc := .loop }, none)
  | .closed => none

/-- A broadcast with one recording, and three history variables: the cursor that
`broadcast_record_start` has given the writer, the frames published in order, and the frames
written, the latest first. -/
structure Taping where
  b : AudioRing
  destroyed : Bool
  reader : Option TapeReader
  start : ℕ
  sent : List TickFrame
  written : List (ℕ × List UInt8)

inductive TapingAction
  | publish (f : TickFrame)
  | start
  | stop
  | destroy
  | writer (ok : Bool)
  deriving DecidableEq

def Taping.init : Taping := ⟨AudioRing.create, false, none, 0, [], []⟩

/-- The writer samples `producer_seq` once for a pass and goes through the numbers below it, one round of
the inner loop a step, while the producer publishes on. -/
def tapingStep (q : TapeFormat) (s : Taping) : TapingAction → Option Taping
  | .publish f =>
    if q.Fits f then some { s with b := publish q.ring_size s.b f, sent := s.sent ++ [f] } else none
  | .start =>
    match s.reader with
    | some _ => none
    | none => some { s with
        reader := some ⟨s.b.producer_seq, true, .timer⟩
        start := s.b.producer_seq }
  | .stop => s.reader.map fun m => { s with reader := some { m with running := false } }
  | .destroy => some { s with destroyed := true }
  | .writer ok =>
    s.reader.bind fun m => (recordWriterRun q s.b s.destroyed ok m).map fun x =>
      { s with reader := some x.1, written := x.2.toList ++ s.written }

variable {q : TapeFormat} {s t : Taping} {a : TapingAction} {m m' : TapeReader}
  {h : List (Taping × TapingAction)} {out : Option (ℕ × List UInt8)} {k : ℕ}

/-- What a step of the writer does to its cursor, by the slot it finds. -/
inductive WriterMove (q : TapeFormat) (b : AudioRing) (m : TapeReader) :
    TapeReader → Option (ℕ × List UInt8) → Prop
  | still (running : Bool) (pc : TapePc) (hp : ∀ n, pc ≠ .pass n)
      (hend : ∀ n, m.pc = .pass n → running = true → pc = .loop ∧ n ≤ m.consumer_seq) :
      WriterMove q b m ⟨m.consumer_seq, running, pc⟩ none
  | sample (hp : ∀ n, m.pc ≠ .pass n) :
      WriterMove q b m ⟨m.consumer_seq, m.running, .pass b.producer_seq⟩ none
  | write {n : ℕ} (hn : m.pc = .pass n) (hlt : m.consumer_seq < n)
      (hs : (b.ring (m.consumer_seq % q.ring_size)).seq = m.consumer_seq) :
      WriterMove q b m ⟨m.consumer_seq + 1, m.running, m.pc⟩
        (some (m.consumer_seq, (b.ring (m.consumer_seq % q.ring_size)).data.take
          ((b.ring (m.consumer_seq % q.ring_size)).samples * q.channels * 2)))
  | skip {n : ℕ} (hn : m.pc = .pass n) (hlt : m.consumer_seq < n)
      (hs : (b.ring (m.consumer_seq % q.ring_size)).seq ≠ m.consumer_seq) :
      WriterMove q b m ⟨m.consumer_seq + 1, m.running, m.pc⟩ none

theorem recordWriterRun_move {b : AudioRing} {destroyed ok : Bool}
    (hs : recordWriterRun q b destroyed ok m = some (m', out)) : WriterMove q b m m' out := by
  obtain ⟨cs, running, pc⟩ := m
  cases pc with
  | timer =>
    simp only [recordWriterRun] at hs
    split_ifs at hs <;> obtain ⟨rfl, rfl⟩ := Prod.mk.inj (Option.some.inj hs)
    · exact .still _ _ (by simp) (by simp)
    · exact .still _ _ (by simp) (by simp)
  | loop =>
    obtain ⟨rfl, rfl⟩ := Prod.mk.inj (Option.some.inj hs)
    refine .still _ _ (fun n => ?_) (by simp)
    split_ifs <;> simp
  | sample =>
    obtain ⟨rfl, rfl⟩ := Prod.mk.inj (Option.some.inj hs)
    exact .sample (by simp)
  | pass n =>
    simp only [recordWriterRun] at hs
    split_ifs at hs with hlt hseq hok <;> obtain ⟨rfl, rfl⟩ := Prod.mk.inj (Option.some.inj hs)
    · exact .write rfl hlt.1 hseq
    · exact .still _ _ (by simp) (by simp)
    · exact .skip rfl hlt.1 hseq
    · refine .still _ _ (by simp) fun n' hn hr => ⟨rfl, ?_⟩
      obtain rfl := TapePc.pass.inj hn
      exact Nat.le_of_not_lt fun hl => hlt ⟨hl, hr⟩
  | closed => cases hs

/-- What a slot with the cursor's number hands to the file is the frame published under it. -/
theorem RingHolds.taken (hb : RingHolds q.ring_size s.b s.sent) (hfit : ∀ f ∈ s.sent, q.Fits f)
    (hk : k < s.b.producer_seq) (hs : (s.b.ring (k % q.ring_size)).seq = k) :
    ∃ f, s.sent[k]? = some f ∧ (s.b.ring (k % q.ring_size)).data.take
      ((s.b.ring (k % q.ring_size)).samples * q.channels * 2) = f.bytes := by
  obtain ⟨f, hf, hw⟩ := hb.payload hk hs
  obtain ⟨hlen, hsamples⟩ := hfit f (List.mem_of_getElem? hf)
  simp only [TickFrame.toWriteFrame, RingFrame.cell, WriteFrame.mk.injEq] at hw
  obtain ⟨hdatalen, hslot, hdata⟩ := hw
  refine ⟨f, hf, ?_⟩
  have hbytes : (s.b.ring (k % q.ring_size)).samples * q.channels * 2 =
      (s.b.ring (k % q.ring_size)).datalen := by
    rw [← hslot, hsamples, ← hdatalen, hlen, TapeFormat.bytes_per_frame]
  rw [hbytes]
  exact hdata.symm

/-- The writer stood at `k` when the frame that takes the slot of `k` had been published. -/
def Taping.Overrun (q : TapeFormat) (s : Taping) (k : ℕ) : Prop :=
  (∃ m, s.reader = some m ∧ m.consumer_seq = k ∧ ∃ n, m.pc = .pass n) ∧
    k + q.ring_size < s.b.producer_seq

structure CaughtUp (q : TapeFormat) (h : List (Taping × TapingAction)) (s : Taping) : Prop where
  ring : RingHolds q.ring_size s.b s.sent
  fits : ∀ f ∈ s.sent, q.Fits f
  unstarted : s.reader = none → s.written = []
  cursor : ∀ m, s.reader = some m → s.start ≤ m.consumer_seq ∧ m.consumer_seq ≤ s.b.producer_seq
  sampled : ∀ m n, s.reader = some m → m.pc = .pass n → m.consumer_seq ≤ n ∧ n ≤ s.b.producer_seq
  bounds : ∀ m, s.reader = some m → ∀ kw ∈ s.written, s.start ≤ kw.1 ∧ kw.1 < m.consumer_seq
  increasing : s.written.Pairwise fun x y => y.1 < x.1
  payload : ∀ kw ∈ s.written, ∃ f, s.sent[kw.1]? = some f ∧ kw.2 = f.bytes
  missing : ∀ m, s.reader = some m → ∀ k, s.start ≤ k → k < m.consumer_seq →
    (∀ kw ∈ s.written, kw.1 ≠ k) → ∃ x ∈ h, x.1.Overrun q k ∧ ∃ ok, x.2 = .writer ok

theorem CaughtUp.init (q : TapeFormat) : CaughtUp q [] Taping.init where
  ring := .create _
  fits := by simp [Taping.init]
  unstarted := fun _ => rfl
  cursor := by simp [Taping.init]
  sampled := by simp [Taping.init]
  bounds := by simp [Taping.init]
  increasing := by simp [Taping.init]
  payload := by simp [Taping.init]
  missing := by simp [Taping.init]

theorem CaughtUp.publish {f : TickFrame} (hi : CaughtUp q h s) (hf : q.Fits f) :
    CaughtUp q ((s, a) :: h)
      { s with b := ModBroadcast.publish q.ring_size s.b f, sent := s.sent ++ [f] } where
  ring := hi.ring.publish q.ring_size_pos f
  fits g hg := by
    rcases List.mem_append.mp hg with hold | hnew
    · exact hi.fits g hold
    · rw [List.mem_singleton.mp hnew]
      exact hf
  unstarted := hi.unstarted
  cursor m hm := ⟨(hi.cursor m hm).1, (hi.cursor m hm).2.trans (Nat.le_succ _)⟩
  sampled m n hm hn := ⟨(hi.sampled m n hm hn).1, (hi.sampled m n hm hn).2.trans (Nat.le_succ _)⟩
  bounds := hi.bounds
  increasing := hi.increasing
  payload kw hkw := by
    obtain ⟨g, hg, hw⟩ := hi.payload kw hkw
    have hlt : kw.1 < s.sent.length := (List.getElem?_eq_some_iff.mp hg).1
    exact ⟨g, by rw [List.getElem?_append_left hlt, hg], hw⟩
  missing m hm k h₁ h₂ hno := by
    obtain ⟨x, hx, ho⟩ := hi.missing m hm k h₁ h₂ hno
    exact ⟨x, List.mem_cons_of_mem _ hx, ho⟩

/-- A step that changes `running` or the place of the writer, but neither its cursor nor the
pass it is in. -/
theorem CaughtUp.still {running d : Bool} {pc : TapePc} (hi : CaughtUp q h s)
    (hm : s.reader = some m) (hp : ∀ n, pc = .pass n → m.pc = .pass n ∨ n = s.b.producer_seq) :
    CaughtUp q ((s, a) :: h)
      { s with destroyed := d, reader := some ⟨m.consumer_seq, running, pc⟩ } where
  ring := hi.ring
  fits := hi.fits
  unstarted := by simp
  cursor := by
    rintro _ ⟨⟩
    exact hi.cursor m hm
  sampled := by
    rintro _ n ⟨⟩ hn
    rcases hp n hn with hold | rfl
    · exact hi.sampled m n hm hold
    · exact ⟨(hi.cursor m hm).2, le_rfl⟩
  bounds := by
    rintro _ ⟨⟩
    exact hi.bounds m hm
  increasing := hi.increasing
  payload := hi.payload
  missing := by
    rintro _ ⟨⟩ k h₁ h₂ hno
    obtain ⟨x, hx, ho⟩ := hi.missing m hm k h₁ h₂ hno
    exact ⟨x, List.mem_cons_of_mem _ hx, ho⟩

/-- One iteration of the inner loop passes the cursor's number, written or overrun. -/
theorem CaughtUp.pass {n : ℕ} {ok : Bool} (hi : CaughtUp q h s) (hm : s.reader = some m)
    (hn : m.pc = .pass n) (hlt : m.consumer_seq < n)
    (hout : ∀ kw ∈ out, kw.1 = m.consumer_seq ∧ ∃ f, s.sent[kw.1]? = some f ∧ kw.2 = f.bytes)
    (hskip : out = none → s.Overrun q m.consumer_seq) :
    CaughtUp q ((s, .writer ok) :: h) { s with
      reader := some ⟨m.consumer_seq + 1, m.running, m.pc⟩
      written := out.toList ++ s.written } := by
  obtain ⟨hstart, -⟩ := hi.cursor m hm
  obtain ⟨-, hle⟩ := hi.sampled m n hm hn
  constructor
  · exact hi.ring
  · exact hi.fits
  · simp
  · rintro _ ⟨⟩
    have hnext : s.start ≤ m.consumer_seq + 1 := by omega
    exact ⟨hnext, Nat.le_trans hlt hle⟩
  · rintro _ n' ⟨⟩ hn'
    obtain rfl : n = n' := TapePc.pass.inj (hn.symm.trans hn')
    exact ⟨hlt, hle⟩
  · rintro _ ⟨⟩ kw hkw
    rcases List.mem_append.mp hkw with hnew | hold
    · have := (hout kw (by simpa using hnew)).1
      exact ⟨by show s.start ≤ kw.1; omega, by show kw.1 < m.consumer_seq + 1; omega⟩
    · have := hi.bounds m hm kw hold
      exact ⟨this.1, by show kw.1 < m.consumer_seq + 1; omega⟩
  · refine List.pairwise_append.mpr ⟨?_, hi.increasing, fun x hx y hy => ?_⟩
    · cases out <;> simp
    · have hx' := (hout x (by simpa using hx)).1
      have hy' := (hi.bounds m hm y hy).2
      omega
  · intro kw hkw
    rcases List.mem_append.mp hkw with hnew | hold
    · exact (hout kw (by simpa using hnew)).2
    · exact hi.payload kw hold
  · rintro _ ⟨⟩ k h₁ h₂ hno
    have hold : ∀ kw ∈ s.written, kw.1 ≠ k := fun kw hkw => hno kw (List.mem_append_right _ hkw)
    by_cases hk : k = m.consumer_seq
    · subst hk
      -- nothing was written for the number that is passed
      have hnone : out = none := by
        cases hw : out with
        | none => rfl
        | some kw => exact absurd (hout kw hw).1 (hno kw (by simp [hw]))
      exact ⟨_, List.mem_cons_self, hskip hnone, ok, rfl⟩
    · have hlt' : k < m.consumer_seq := by
        have : k < m.consumer_seq + 1 := h₂
        omega
      obtain ⟨x, hx, ho⟩ := hi.missing m hm k h₁ hlt' hold
      exact ⟨x, List.mem_cons_of_mem _ hx, ho⟩

theorem CaughtUp.writer {ok : Bool} (hi : CaughtUp q h s) (hm : s.reader = some m)
    (hw : WriterMove q s.b m m' out) :
    CaughtUp q ((s, .writer ok) :: h)
      { s with reader := some m', written := out.toList ++ s.written } := by
  cases hw with
  | still running pc hp =>
    exact hi.still (d := s.destroyed) hm fun n hn => absurd hn (hp n)
  | sample hp =>
    exact hi.still (d := s.destroyed) hm fun n hn => .inr (TapePc.pass.inj hn).symm
  | @write n hn hlt hs =>
    obtain ⟨-, hle⟩ := hi.sampled m n hm hn
    obtain ⟨f, hf, hdata⟩ := hi.ring.taken hi.fits (Nat.lt_of_lt_of_le hlt hle) hs
    refine hi.pass hm hn hlt ?_ (by simp)
    rintro kw ⟨⟩
    exact ⟨rfl, f, hf, hdata⟩
  | @skip n hn hlt hs =>
    obtain ⟨-, hle⟩ := hi.sampled m n hm hn
    refine hi.pass hm hn hlt (by simp) fun _ => ⟨⟨m, hm, rfl, n, hn⟩, ?_⟩
    rw [ne_eq, hi.ring.seq_iff (Nat.lt_of_lt_of_le hlt hle)] at hs
    omega

theorem CaughtUp.step (hi : CaughtUp q h s) (hs : tapingStep q s a = some t) :
    CaughtUp q ((s, a) :: h) t := by
  cases a with
  | publish f =>
    simp only [tapingStep] at hs
    split_ifs at hs with hf
    obtain rfl := Option.some.inj hs
    exact hi.publish hf
  | start =>
    cases hread : s.reader with
    | some m => simp [tapingStep, hread] at hs
    | none =>
      simp only [tapingStep, hread, Option.some.injEq] at hs
      subst hs
      have hempty := hi.unstarted hread
      refine ⟨hi.ring, hi.fits, by simp, ?_, ?_, ?_, hi.increasing, hi.payload, ?_⟩
      · rintro _ ⟨⟩
        exact ⟨le_rfl, le_rfl⟩
      · rintro _ n ⟨⟩ ⟨⟩
      · rintro _ ⟨⟩ kw hkw
        simp [hempty] at hkw
      · rintro _ ⟨⟩ k h₁ h₂
        exact absurd h₂ (Nat.not_lt.mpr h₁)
  | stop =>
    obtain ⟨m, hm, rfl⟩ := Option.map_eq_some_iff.mp hs
    exact hi.still (d := s.destroyed) hm fun n hn => .inl hn
  | destroy =>
    obtain rfl := Option.some.inj hs
    exact ⟨hi.ring, hi.fits, hi.unstarted, hi.cursor, hi.sampled, hi.bounds, hi.increasing,
      hi.payload, fun m hm k h₁ h₂ hno => by
        obtain ⟨x, hx, ho⟩ := hi.missing m hm k h₁ h₂ hno
        exact ⟨x, List.mem_cons_of_mem _ hx, ho⟩⟩
  | writer ok =>
    obtain ⟨m, hm, hx⟩ := Option.bind_eq_some_iff.mp hs
    obtain ⟨⟨m', out⟩, hw, rfl⟩ := Option.map_eq_some_iff.mp hx
    exact hi.writer hm (recordWriterRun_move hw)

/-- A step of the writer in a pass up to `n` that neither a stop nor a write error has ended: the
cursor goes on by one, or it has come to `n`. -/
def PassComplete (q : TapeFormat) (s : Taping) (a : TapingAction) : Prop :=
  ∀ ok t m m' n, a = .writer ok → tapingStep q s a = some t → s.reader = some m → m.pc = .pass n →
    t.reader = some m' → m'.running = true →
      m'.pc = .pass n ∧ m'.consumer_seq = m.consumer_seq + 1 ∧ m'.consumer_seq ≤ n ∨
        m'.pc = .loop ∧ m'.consumer_seq = n

theorem CaughtUp.passComplete (hi : CaughtUp q h s) : PassComplete q s a := by
  rintro ok t m m' n rfl hs hm hn hm' hrun
  obtain ⟨l, hl, hx⟩ := Option.bind_eq_some_iff.mp hs
  obtain rfl : m = l := Option.some.inj (hm.symm.trans hl)
  obtain ⟨⟨l, out⟩, hw, rfl⟩ := Option.map_eq_some_iff.mp hx
  obtain rfl : l = m' := Option.some.inj hm'
  have hle := (hi.sampled m n hm hn).1
  cases recordWriterRun_move hw with
  | still running pc hp hend =>
    obtain ⟨hloop, hge⟩ := hend n hn hrun
    exact .inr ⟨hloop, Nat.le_antisymm hle hge⟩
  | sample hp => exact absurd hn (hp n)
  | @write n' hn' hlt | @skip n' hn' hlt =>
    obtain rfl : n = n' := TapePc.pass.inj (hn.symm.trans hn')
    exact .inl ⟨hn, rfl, hlt⟩

/-- In every run the frames written have strictly increasing numbers from the start cursor on and
the payload published under them, a number below the cursor is missing only if its slot had been
taken when the writer came to it, and a pass that is not cut short reaches the number it has
sampled. -/
theorem recorder_catches_up (q : TapeFormat) (hr : Run (tapingStep q) Taping.init h s) :
    (s.written.Pairwise fun x y => y.1 < x.1) ∧
    (∀ kw ∈ s.written, s.start ≤ kw.1 ∧ ∃ f, s.sent[kw.1]? = some f ∧ kw.2 = f.bytes) ∧
    (∀ m, s.reader = some m → ∀ k, s.start ≤ k → k < m.consumer_seq →
      (∀ kw ∈ s.written, kw.1 ≠ k) → ∃ x ∈ h, x.1.Overrun q k ∧ ∃ ok, x.2 = .writer ok) ∧
    Meets (PassComplete q) h := by
  have hstep : ∀ h s a t, CaughtUp q h s → True → tapingStep q s a = some t →
      CaughtUp q ((s, a) :: h) t := fun _ _ _ _ hi _ hs => hi.step hs
  have hmeets : Meets (fun _ _ => True) h := fun _ _ => trivial
  have hi := hr.history_invariant (g := fun _ _ => True) hstep hmeets (CaughtUp.init q)
  refine ⟨hi.increasing, fun kw hkw => ⟨?_, hi.payload kw hkw⟩, hi.missing, ?_⟩
  · cases hread : s.reader with
    | none =>
      rw [hi.unstarted hread] at hkw
      cases hkw
    | some m => exact (hi.bounds m hread kw hkw).1
  · exact hr.meets_of_history_invariant (g := fun _ _ => True) hstep
      (fun _ _ _ _ hi _ _ => hi.passComplete) hmeets (CaughtUp.init q)

/-- A recording that begins at frame 1 on a ring of 2 and sleeps while three frames pass: frame 1 is
lost, 2 and 3 are written. -/
theorem recorder_catches_up_asleep : ∃ h s, Run (tapingStep ⟨2, by decide, 1, 1⟩) Taping.init h s ∧
    s.start = 1 ∧ s.written.map Prod.fst = [3, 2] ∧
    ∀ kw ∈ s.written, ∃ f, s.sent[kw.1]? = some f ∧ kw.2 = f.bytes := by
  let f (n : UInt8) : TickFrame := ⟨[n, n], 1, false⟩
  obtain ⟨h, s, hr, -, hv⟩ := exists_run_observing (tapingStep ⟨2, by decide, 1, 1⟩)
    (fun _ _ => true) Taping.init
    (.publish (f 10) :: .start :: .publish (f 11) :: .publish (f 12) :: .publish (f 13) ::
      List.replicate 6 (.writer true))
    (fun _ s => (s.start, s.written.map Prod.fst)) (v := (1, [3, 2])) (by decide)
  obtain ⟨h₁, h₂⟩ := Prod.mk.inj hv
  exact ⟨h, s, hr, h₁, h₂, fun kw hkw => ((recorder_catches_up _ hr).2.1 kw hkw).2⟩

end ModBroadcast
