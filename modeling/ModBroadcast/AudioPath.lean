import ModBroadcast.TornRead

namespace ModBroadcast

open Automaton

structure AudioProfile where
  format : FrameFormat
  volume : ℤ → List UInt8 → List UInt8

/-- The fields of a speaking `member_obj_t`.  The last four are history: the bytes that
have been written to the buffer, how many have left it, how many of these in incomplete
frames, and whether a paused tick has found bytes in the buffer and it has not been empty
since. -/
structure SpeakerAudio where
  audio : Bool
  audio_buffer : List UInt8
  muted : Bool
  vol_idx : ℤ
  written : List UInt8
  gone : ℕ
  lost : ℕ
  stale : Bool

/-- Bytes of a member, by their positions among all that were written to its buffer. -/
structure Passage where
  member : ℕ
  start : ℕ
  stop : ℕ
  deriving DecidableEq

/-- The passage has the byte `k` of the member `m`. -/
def Passage.Has (w : Passage) (m k : ℕ) : Prop := w.member = m ∧ w.start ≤ k ∧ k < w.stop

/-- A frame of the ring with the bytes of a speaker that it carries. -/
structure AudioFrame extends TickFrame where
  source : Option Passage
  deriving DecidableEq

/-- The place of the producer in its tick.  It is inside `speaker_lock` in `mute`, `drain`
and `read`. -/
inductive TickPc
  | top
  | snapshot (file : Option (List UInt8))
  | speaker (file : Option (List UInt8)) (paused : Bool)
  | mute (m : ℕ)
  | drain (m : ℕ)
  | read (m : ℕ)
  | policy
  | publish (f : AudioFrame)
  deriving DecidableEq

/-- The broadcast as far as its audio goes.  `withheld` is history: the bytes that a tick
without file audio has found in the speaker's buffer while the broadcast was paused or
the speaker muted. -/
structure AudioPath where
  playing : Bool
  paused : Bool
  current_speaker : Option ℕ
  member : ℕ → SpeakerAudio
  tick : TickPc
  frames : List AudioFrame
  withheld : List Passage

inductive AudioAction
  | tick (bs : List UInt8) (ok : Bool)
  | write (m : ℕ) (bs : List UInt8) (ok : Bool)
  | prepare (m : ℕ)
  | speaker (new : Option ℕ)
  | pause (on : Bool)
  | mute (m : ℕ) (on : Bool)
  | gain (m : ℕ) (i : ℤ)
  | play (on : Bool)
  deriving DecidableEq

def SpeakerAudio.zero : SpeakerAudio := ⟨false, [], false, 0, [], 0, 0, false⟩

def AudioPath.init : AudioPath := ⟨false, false, none, fun _ => .zero, .top, [], []⟩

/-- `switch_buffer_write` appends everything or, when it fails, nothing. -/
def SpeakerAudio.write (x : SpeakerAudio) (bs : List UInt8) (ok : Bool) : SpeakerAudio :=
  if ok then { x with audio_buffer := x.audio_buffer ++ bs, written := x.written ++ bs } else x

/-- `switch_buffer_read` of up to `n` bytes; with `n` the number of bytes in use it is
`switch_buffer_zero`. -/
def SpeakerAudio.remove (x : SpeakerAudio) (n : ℕ) : SpeakerAudio :=
  { x with
    audio_buffer := x.audio_buffer.drop n
    gone := x.gone + min n x.audio_buffer.length
    stale := x.stale ∧ x.audio_buffer.drop n ≠ [] }

def AudioPath.modify (s : AudioPath) (m : ℕ) (g : SpeakerAudio → SpeakerAudio) : AudioPath :=
  { s with member := Function.update s.member m (g (s.member m)) }

def AudioPath.pending (s : AudioPath) (m : ℕ) : Passage :=
  ⟨m, (s.member m).gone, (s.member m).gone + (s.member m).audio_buffer.length⟩

/-- One step of the tick of `broadcast_producer_run`; `bs` is what the file or the silence
policy delivers, `ok` the result of the file read. -/
def audioTick (p : AudioProfile) (s : AudioPath) (bs : List UInt8) (ok : Bool) : Option AudioPath :=
  let bytes_per_frame := p.format.bytes_per_frame
  let spf := p.format.samples_per_frame
  match s.tick with
  | .top =>
    if s.playing then
      if ok then
        if bs.length = bytes_per_frame then some { s with tick := .snapshot (some bs) } else none
      else some { s with playing := false, tick := .snapshot none }
    else some { s with tick := .snapshot none }
  | .snapshot file => some { s with tick := .speaker file s.paused }
  | .speaker (some bs) paused =>
    some { s with tick := if paused then .policy else .publish ⟨⟨bs, spf, false⟩, none⟩ }
  | .speaker none paused =>
    match s.current_speaker with
    | none => some { s with tick := .policy }
    | some m =>
      if (s.member m).audio then
        if paused then
          some { s.modify m fun x => { x with stale := x.audio_buffer ≠ [] } with
            withheld := s.pending m :: s.withheld
            tick := .policy }
        else some { s with tick := .mute m }
      else some { s with tick := .policy }
  | .mute m => some { s with tick := if (s.member m).muted then .drain m else .read m }
  | .drain m =>
    some { s.modify m fun x => x.remove x.audio_buffer.length with
      withheld := s.pending m :: s.withheld
      tick := .policy }
  | .read m =>
    let x := s.member m
    let got := x.audio_buffer.take bytes_per_frame
    if got.length = bytes_per_frame then
      let bytes := if x.vol_idx ≠ 0 then p.volume x.vol_idx got else got
      some { s.modify m fun x => x.remove bytes_per_frame with
        tick := .publish ⟨⟨bytes, spf, false⟩, some ⟨m, x.gone, x.gone + bytes_per_frame⟩⟩ }
    else
      -- what was read of the frame is overwritten by the silence policy
      some { s.modify m fun x => { x.remove bytes_per_frame with lost := x.lost + got.length } with
        tick := .policy }
  | .policy =>
    if bs.length = bytes_per_frame then
      some { s with tick := .publish ⟨⟨bs, spf, true⟩, none⟩ }
    else none
  | .publish f => some { s with frames := s.frames ++ [f], tick := .top }

def TickPc.Inside : TickPc → Prop
  | .mute _ | .drain _ | .read _ => True
  | _ => False

instance : DecidablePred TickPc.Inside := fun pc => by
  unfold TickPc.Inside
  split <;> infer_instance

/-- One step of the producer, of an input thread or of a thread that sets a flag.  A section under
`audio_in_mutex` is one step; the tick takes its view of the flags and the speaker in steps of their
own. -/
def audioStep (p : AudioProfile) (s : AudioPath) : AudioAction → Option AudioPath
  | .tick bs ok => audioTick p s bs ok
  | .write m bs ok => if (s.member m).audio then some (s.modify m fun x => x.write bs ok) else none
  | .prepare m => some (s.modify m fun x => { x with audio := true })
  | .speaker new => if s.tick.Inside then none else some { s with current_speaker := new }
  | .pause on => some { s with paused := on }
  | .mute m on => some (s.modify m fun x => { x with muted := on })
  | .gain m i => some (s.modify m fun x => { x with vol_idx := i })
  | .play on => some { s with playing := on }

variable {p : AudioProfile} {s t : AudioPath} {a : AudioAction} {m n : ℕ} {x : SpeakerAudio}
  {bs : List UInt8} {ok : Bool} {w : Passage} {f : AudioFrame} {h : List (AudioPath × AudioAction)}

def SpeakerAudio.stop (x : SpeakerAudio) : ℕ := x.gone + x.audio_buffer.length

theorem remove_stop (x : SpeakerAudio) (n : ℕ) : (x.remove n).stop = x.stop := by
  simp only [SpeakerAudio.stop, SpeakerAudio.remove, List.length_drop]
  omega

theorem remove_stale (hs : x.stale = true) (hn : (x.remove n).gone < x.stop) :
    (x.remove n).stale = true := by
  simp only [SpeakerAudio.remove, SpeakerAudio.stop] at hn
  have hlt : n < x.audio_buffer.length := by omega
  simp [SpeakerAudio.remove, hs, hlt]

theorem write_stop (x : SpeakerAudio) (bs : List UInt8) (ok : Bool) :
    (x.write bs ok).gone = x.gone ∧ x.stop ≤ (x.write bs ok).stop ∧
      (x.write bs ok).stale = x.stale := by
  unfold SpeakerAudio.write SpeakerAudio.stop
  split_ifs
  · refine ⟨rfl, ?_, rfl⟩
    simp only [List.length_append]
    omega
  · exact ⟨rfl, le_rfl, rfl⟩

/-- Bytes come into the buffers at their ends and leave them at their fronts, and a stale
buffer stays so until it is empty. -/
structure Moves (s t : AudioPath) : Prop where
  gone : ∀ m, (s.member m).gone ≤ (t.member m).gone
  stop : ∀ m, (s.member m).stop ≤ (t.member m).stop
  stale : ∀ m, (t.member m).gone < (s.member m).stop → (s.member m).stale = true →
    (t.member m).stale = true

theorem Moves.of_member (h : t.member = s.member) : Moves s t :=
  ⟨fun m => by rw [h], fun m => by rw [h], fun m _ hs => by rw [h]; exact hs⟩

/-- A change of the member `m` alone. -/
theorem Moves.at (ht : t.member = Function.update s.member m x)
    (hgone : (s.member m).gone ≤ x.gone) (hstop : (s.member m).stop ≤ x.stop)
    (hstale : x.gone < (s.member m).stop → (s.member m).stale = true → x.stale = true) :
    Moves s t := by
  have hcase : ∀ n, n = m ∧ t.member n = x ∨ t.member n = s.member n := by
    intro n
    rw [ht]
    by_cases hn : n = m
    · subst hn
      exact .inl ⟨rfl, Function.update_self ..⟩
    · exact .inr (Function.update_of_ne hn ..)
  refine ⟨fun n => ?_, fun n => ?_, fun n => ?_⟩ <;> obtain ⟨rfl, hn⟩ | hn := hcase n <;> rw [hn]
  · exact hgone
  · exact hstop
  · exact hstale
  · exact fun _ hs => hs

theorem Moves.remove (ht : t.member = Function.update s.member m x)
    (hgone : x.gone = ((s.member m).remove n).gone)
    (hbuf : x.audio_buffer = ((s.member m).remove n).audio_buffer)
    (hstale : x.stale = ((s.member m).remove n).stale) : Moves s t := by
  have hstop : x.stop = (s.member m).stop := by
    rw [← remove_stop (s.member m) n, SpeakerAudio.stop, SpeakerAudio.stop, hgone, hbuf]
  refine .at ht ?_ hstop.ge fun hlt hs => ?_
  · rw [hgone]
    exact Nat.le_add_right _ _
  · rw [hstale]
    exact remove_stale hs (hgone ▸ hlt)

def TickPc.frame : TickPc → Option AudioFrame
  | .publish f => some f
  | _ => none

def AudioPath.assembled (s : AudioPath) : List AudioFrame := s.frames ++ s.tick.frame.toList

theorem assembled_keep (hs : s.tick.frame = none) (ht : t.tick.frame = none)
    (hf : t.frames = s.frames) : t.assembled = s.assembled := by
  rw [AudioPath.assembled, AudioPath.assembled, hs, ht, hf]

theorem assembled_snoc (hs : s.tick.frame = none) (ht : t.tick.frame = some f)
    (hf : t.frames = s.frames) : t.assembled = s.assembled ++ [f] := by
  rw [AudioPath.assembled, AudioPath.assembled, hs, ht, hf]
  simp

/-- A tick that reads a whole frame finds a buffer that has been empty since a paused tick
found bytes in it. -/
def EmptiedBeforeRead (p : AudioProfile) (s : AudioPath) (a : AudioAction) : Prop :=
  ∀ m bs ok, a = .tick bs ok → s.tick = .read m →
    p.format.bytes_per_frame ≤ (s.member m).audio_buffer.length → (s.member m).stale = false

/-- The withheld bytes are apart from the frames, and those that are still in their buffer
have made it stale. -/
structure Withholds (s : AudioPath) : Prop where
  stop : ∀ w ∈ s.withheld, w.stop ≤ (s.member w.member).stop
  stale : ∀ w ∈ s.withheld, (s.member w.member).gone < w.stop → (s.member w.member).stale = true
  sent : ∀ f ∈ s.assembled, ∀ src ∈ f.source, src.stop ≤ (s.member src.member).gone
  apart : ∀ w ∈ s.withheld, ∀ f ∈ s.assembled, ∀ src ∈ f.source, w.member = src.member →
    w.stop ≤ src.start ∨ src.stop ≤ w.start

theorem Withholds.init : Withholds .init where
  stop := nofun
  stale := nofun
  sent := nofun
  apart := nofun

theorem Withholds.moved (hi : Withholds s) (hm : Moves s t) (hw : t.withheld = s.withheld)
    (hf : t.assembled = s.assembled) : Withholds t where
  stop w hwt := (hi.stop w (hw ▸ hwt)).trans (hm.stop _)
  stale w hwt hlt := hm.stale _ (hlt.trans_le (hi.stop w (hw ▸ hwt)))
    (hi.stale w (hw ▸ hwt) ((hm.gone _).trans_lt hlt))
  sent f hft src hsrc := (hi.sent f (hf ▸ hft) src hsrc).trans (hm.gone _)
  apart w hwt f hft := hi.apart w (hw ▸ hwt) f (hf ▸ hft)

/-- A tick has found the buffer of `m`, and has drained it or made it stale. -/
theorem Withholds.found (hi : Withholds s) (hm : Moves s t)
    (hw : t.withheld = s.pending m :: s.withheld) (hf : t.assembled = s.assembled)
    (hstale : (t.member m).gone < (s.member m).stop → (t.member m).stale = true) :
    Withholds t where
  stop w hwt := by
    obtain rfl | hws := List.mem_cons.mp (hw ▸ hwt)
    · exact hm.stop m
    · exact (hi.stop w hws).trans (hm.stop _)
  stale w hwt hlt := by
    obtain rfl | hws := List.mem_cons.mp (hw ▸ hwt)
    · exact hstale hlt
    · exact hm.stale _ (hlt.trans_le (hi.stop w hws)) (hi.stale w hws ((hm.gone _).trans_lt hlt))
  sent f hft src hsrc := (hi.sent f (hf ▸ hft) src hsrc).trans (hm.gone _)
  apart w hwt f hft src hsrc hmem := by
    obtain rfl | hws := List.mem_cons.mp (hw ▸ hwt)
    · -- what has been published had left the buffer before
      have hsent := hi.sent f (hf ▸ hft) src hsrc
      rw [← hmem] at hsent
      exact .inr hsent
    · exact hi.apart w hws f (hf ▸ hft) src hsrc hmem

/-- A tick has assembled `f`, from a buffer that is not stale or without a buffer. -/
theorem Withholds.assembles (hi : Withholds s) (hm : Moves s t) (hw : t.withheld = s.withheld)
    (hf : t.assembled = s.assembled ++ [f])
    (hsrc : ∀ src ∈ f.source, src.start = (s.member src.member).gone ∧
      src.stop ≤ (t.member src.member).gone ∧ (s.member src.member).stale = false) :
    Withholds t where
  stop w hwt := (hi.stop w (hw ▸ hwt)).trans (hm.stop _)
  stale w hwt hlt := hm.stale _ (hlt.trans_le (hi.stop w (hw ▸ hwt)))
    (hi.stale w (hw ▸ hwt) ((hm.gone _).trans_lt hlt))
  sent g hgt src hs := by
    obtain hgs | hgf := List.mem_append.mp (hf ▸ hgt)
    · exact (hi.sent g hgs src hs).trans (hm.gone _)
    · obtain rfl := List.mem_singleton.mp hgf
      exact (hsrc src hs).2.1
  apart w hwt g hgt src hs hmem := by
    obtain hgs | hgf := List.mem_append.mp (hf ▸ hgt)
    · exact hi.apart w (hw ▸ hwt) g hgs src hs hmem
    · obtain rfl := List.mem_singleton.mp hgf
      -- bytes withheld and still in the buffer would have made it stale
      obtain ⟨hstart, -, hfresh⟩ := hsrc src hs
      refine .inl (Nat.le_of_not_lt fun hlt => ?_)
      have hstale := hi.stale w (hw ▸ hwt) (by rwa [hmem, ← hstart])
      rw [hmem, hfresh] at hstale
      cases hstale

theorem Withholds.tick (hi : Withholds s) (hg : EmptiedBeforeRead p s (.tick bs ok))
    (hs : audioTick p s bs ok = some t) : Withholds t := by
  unfold audioTick at hs
  dsimp only at hs
  split at hs <;> rename_i hpc <;> have hnone := congrArg TickPc.frame hpc
  · -- the file
    split_ifs at hs <;> obtain rfl := Option.some.inj hs <;>
      exact hi.moved (.of_member rfl) rfl (assembled_keep hnone rfl rfl)
  · obtain rfl := Option.some.inj hs
    exact hi.moved (.of_member rfl) rfl (assembled_keep hnone rfl rfl)
  · split_ifs at hs <;> obtain rfl := Option.some.inj hs
    · exact hi.moved (.of_member rfl) rfl (assembled_keep hnone rfl rfl)
    · exact hi.assembles (.of_member rfl) rfl (assembled_snoc hnone rfl rfl) (by simp)
  · -- the test of the speaker
    split at hs
    · obtain rfl := Option.some.inj hs
      exact hi.moved (.of_member rfl) rfl (assembled_keep hnone rfl rfl)
    · rename_i m hm
      split_ifs at hs <;> obtain rfl := Option.some.inj hs
      · refine hi.found (m := m) (.at rfl le_rfl le_rfl fun hlt _ => ?_) rfl
          (assembled_keep hnone rfl rfl)
          fun hlt => ?_
        all_goals
          simp only [AudioPath.modify, Function.update_self, SpeakerAudio.stop] at hlt ⊢
          have : 0 < (s.member m).audio_buffer.length := by omega
          simpa using List.ne_nil_of_length_pos this
      · exact hi.moved (.of_member rfl) rfl (assembled_keep hnone rfl rfl)
      · exact hi.moved (.of_member rfl) rfl (assembled_keep hnone rfl rfl)
  · obtain rfl := Option.some.inj hs
    split_ifs <;> exact hi.moved (.of_member rfl) rfl (assembled_keep hnone rfl rfl)
  · -- the drain
    rename_i m
    obtain rfl := Option.some.inj hs
    refine hi.found (m := m) (.remove rfl rfl rfl rfl) rfl (assembled_keep hnone rfl rfl)
      fun hlt => ?_
    simp [AudioPath.modify, SpeakerAudio.remove, SpeakerAudio.stop] at hlt
  · -- the read
    rename_i m
    by_cases hle : p.format.bytes_per_frame ≤ (s.member m).audio_buffer.length
    · rw [if_pos (List.length_take_of_le hle)] at hs
      obtain rfl := Option.some.inj hs
      refine hi.assembles (.remove rfl rfl rfl rfl) rfl (assembled_snoc hnone rfl rfl) ?_
      rintro src ⟨⟩
      refine ⟨rfl, ?_, hg m bs ok rfl hpc hle⟩
      simp [AudioPath.modify, SpeakerAudio.remove, hle]
    · rw [if_neg (by rw [List.length_take]; omega)] at hs
      obtain rfl := Option.some.inj hs
      exact hi.moved (.remove rfl rfl rfl rfl) rfl (assembled_keep hnone rfl rfl)
  · split_ifs at hs
    obtain rfl := Option.some.inj hs
    exact hi.assembles (.of_member rfl) rfl (assembled_snoc hnone rfl rfl) (by simp)
  · obtain rfl := Option.some.inj hs
    refine hi.moved (.of_member rfl) rfl ?_
    simp [AudioPath.assembled, hpc, TickPc.frame]

theorem Withholds.step (hi : Withholds s) (hg : EmptiedBeforeRead p s a)
    (hs : audioStep p s a = some t) : Withholds t := by
  cases a with
  | tick bs ok => exact hi.tick hg hs
  | write m bs ok =>
    simp only [audioStep] at hs
    split_ifs at hs
    obtain rfl := Option.some.inj hs
    obtain ⟨hgone, hstop, hstale⟩ := write_stop (s.member m) bs ok
    exact hi.moved (.at rfl hgone.ge hstop fun _ h => hstale.trans h) rfl rfl
  | speaker new =>
    simp only [audioStep] at hs
    split_ifs at hs
    obtain rfl := Option.some.inj hs
    exact hi.moved (.of_member rfl) rfl rfl
  | pause on | play on =>
    obtain rfl := Option.some.inj hs
    exact hi.moved (.of_member rfl) rfl rfl
  | prepare m | mute m on | gain m i =>
    obtain rfl := Option.some.inj hs
    exact hi.moved (.at rfl le_rfl le_rfl fun _ h => h) rfl rfl

/-- No frame carries a byte that a tick has found while the broadcast was paused or the
speaker muted, as long as a buffer in which a paused tick has found bytes is empty once
before the next whole frame is read from it. -/
theorem no_hot_microphone (hr : Run (audioStep p) .init h s) (hg : Meets (EmptiedBeforeRead p) h) :
    ∀ w ∈ s.withheld, ∀ f ∈ s.frames, ∀ src ∈ f.source, ∀ m k, w.Has m k → ¬ src.Has m k := by
  have hi : Withholds s := hr.invariant (fun _ _ _ hi hg hs => hi.step hg hs) hg .init
  rintro w hw f hf src hsrc m k ⟨rfl, hk⟩ ⟨hmem, hk'⟩
  have := hi.apart w hw f (List.mem_append_left _ hf) src hsrc hmem.symm
  omega

def emptiedBeforeReadTest (p : AudioProfile) (s : AudioPath) : AudioAction → Bool
  | .tick _ _ =>
    match s.tick with
    | .read m => p.format.bytes_per_frame ≤ (s.member m).audio_buffer.length →
      (s.member m).stale = false
    | _ => true
  | _ => true

theorem emptiedBeforeRead_of_test (ht : emptiedBeforeReadTest p s a = true) :
    EmptiedBeforeRead p s a := by
  rintro m bs ok rfl hpc hle
  simp only [emptiedBeforeReadTest, hpc] at ht
  exact of_decide_eq_true ht hle

/-- A paused tick finds two bytes, a muted one drains them; what is written later is heard. -/
theorem no_hot_microphone_drained : ∃ (h : List (AudioPath × AudioAction)) (s : AudioPath),
    Run (audioStep ⟨⟨1, 1, by decide⟩, fun _ l => l⟩) .init h s ∧
      s.withheld = [⟨0, 0, 2⟩, ⟨0, 0, 2⟩] ∧
      s.frames.map AudioFrame.source = [none, none, some ⟨0, 2, 4⟩] ∧
      ∀ w ∈ s.withheld, ∀ f ∈ s.frames, ∀ src ∈ f.source, ∀ m k, w.Has m k → ¬ src.Has m k := by
  obtain ⟨h, s, hr, hm, hv⟩ := exists_run_observing
    (audioStep ⟨⟨1, 1, by decide⟩, fun _ l => l⟩)
    (emptiedBeforeReadTest ⟨⟨1, 1, by decide⟩, fun _ l => l⟩) .init
    (List.flatten [[.prepare 0, .speaker (some 0), .write 0 [1, 2] true, .pause true],
      List.replicate 5 (.tick [0, 0] true), [.pause false, .mute 0 true],
      List.replicate 7 (.tick [0, 0] true), [.mute 0 false, .write 0 [3, 4] true],
      List.replicate 6 (.tick [0, 0] true)])
    (fun _ s => (s.withheld, s.frames.map AudioFrame.source))
    (v := ([⟨0, 0, 2⟩, ⟨0, 0, 2⟩], [none, none, some ⟨0, 2, 4⟩])) (by decide)
  simp only [Prod.mk.injEq] at hv
  exact ⟨h, s, hr, hv.1, hv.2, no_hot_microphone hr (hm.mono fun _ _ => emptiedBeforeRead_of_test)⟩

/-- What the speaker says while the broadcast is paused is heard after the resume. -/
theorem paused_speech_published : ¬ ∀ (h : List (AudioPath × AudioAction)) (s : AudioPath),
    Run (audioStep ⟨⟨1, 1, by decide⟩, fun _ l => l⟩) .init h s →
      ∀ w ∈ s.withheld, ∀ f ∈ s.frames, ∀ src ∈ f.source, ∀ m k, w.Has m k → ¬ src.Has m k := by
  refine not_forall_run (fun _ _ => true)
    (List.flatten [[.prepare 0, .speaker (some 0), .write 0 [1, 2] true, .pause true],
      List.replicate 5 (.tick [0, 0] true), [.pause false], List.replicate 6 (.tick [0, 0] true)])
    (fun _ s => (s.withheld, s.frames))
    (v := ([⟨0, 0, 2⟩], [⟨⟨[0, 0], 1, true⟩, none⟩, ⟨⟨[1, 2], 1, false⟩, some ⟨0, 0, 2⟩⟩]))
    (by decide) ?_
  intro h s _ _ hv hall
  simp only [Prod.mk.injEq] at hv
  refine hall ⟨0, 0, 2⟩ (by simp [hv.1]) ⟨⟨[1, 2], 1, false⟩, some ⟨0, 0, 2⟩⟩ (by simp [hv.2])
    ⟨0, 0, 2⟩ rfl 0 0 ?_ ?_ <;> exact ⟨rfl, by decide, by decide⟩

/-- The payloads of the frames that are not silence, one after the other. -/
def speech (l : List AudioFrame) : List UInt8 :=
  (l.filter fun f => !f.silence).flatMap fun f => f.bytes

theorem speech_append (l l' : List AudioFrame) : speech (l ++ l') = speech l ++ speech l' := by
  simp [speech]

/-- `m` is the speaker, unmuted and at volume index 0, in a broadcast that is neither
paused nor playing a file, and its buffer does not overflow. -/
def Steady (m : ℕ) (s : AudioPath) (a : AudioAction) : Prop :=
  s.current_speaker = some m ∧ s.playing = false ∧ s.paused = false ∧
    (s.member m).muted = false ∧ (s.member m).vol_idx = 0 ∧
    ∀ bs ok, a = .write m bs ok → ok = true

/-- A tick that finds a whole frame comes before any that finds a part of one; `n` counts
the bytes lost before. -/
def WholeBeforePart (p : AudioProfile) (m n : ℕ) (s : AudioPath) (a : AudioAction) : Prop :=
  ∀ bs ok, a = .tick bs ok → s.tick = .read m →
    p.format.bytes_per_frame ≤ (s.member m).audio_buffer.length → (s.member m).lost = n

def TickPc.Speaks (m : ℕ) : TickPc → Prop
  | .snapshot file => file = none
  | .speaker file paused => file = none ∧ paused = false
  | .mute n | .read n => n = m
  | .drain _ => False
  | _ => True

/-- What has happened to the speech of `m` since `s₀`: `new` has been published and `late`
written. -/
structure Passed (s₀ : AudioPath) (m : ℕ) (s : AudioPath) (new : List AudioFrame)
    (late : List UInt8) : Prop where
  frames : s.frames = s₀.frames ++ new
  written : (s.member m).written = (s₀.member m).written ++ late
  speaks : s.tick.Speaks m
  lost : (s₀.member m).lost ≤ (s.member m).lost
  heard : speech (new ++ s.tick.frame.toList) <+: (s₀.member m).audio_buffer ++ late
  whole : (s.member m).lost = (s₀.member m).lost →
    speech (new ++ s.tick.frame.toList) ++ (s.member m).audio_buffer =
      (s₀.member m).audio_buffer ++ late

variable {s₀ : AudioPath} {new : List AudioFrame} {late : List UInt8}

/-- Nothing is heard or written. -/
theorem Passed.keep (hi : Passed s₀ m s new late) (hf : t.frames = s.frames)
    (hw : (t.member m).written = (s.member m).written)
    (hb : (t.member m).audio_buffer = (s.member m).audio_buffer)
    (hl : (t.member m).lost = (s.member m).lost) (ht : t.tick.Speaks m)
    (hs : speech t.tick.frame.toList = speech s.tick.frame.toList) : Passed s₀ m t new late where
  frames := hf.trans hi.frames
  written := hw.trans hi.written
  speaks := ht
  lost := hl ▸ hi.lost
  heard := by
    rw [speech_append, hs, ← speech_append]
    exact hi.heard
  whole he := by
    rw [speech_append, hs, ← speech_append, hb]
    exact hi.whole (hl ▸ he)

theorem Passed.tick (hi : Passed s₀ m s new late) (hst : Steady m s (.tick bs ok))
    (hg : WholeBeforePart p m (s₀.member m).lost s (.tick bs ok))
    (hs : audioTick p s bs ok = some t) : ∃ new, Passed s₀ m t new late := by
  obtain ⟨hcur, hplay, hpaused, hmuted, hvol, -⟩ := hst
  have hspeaks := hi.speaks
  unfold audioTick at hs
  dsimp only at hs
  split at hs <;> rename_i hpc <;> rw [hpc] at hspeaks <;>
    have hnone := congrArg TickPc.frame hpc
  -- no file is played, so the tick goes on without one
  · rw [if_neg (by simp [hplay])] at hs
    obtain rfl := Option.some.inj hs
    exact ⟨new, hi.keep rfl rfl rfl rfl rfl (by rw [hnone]; rfl)⟩
  · obtain rfl : _ = none := hspeaks
    obtain rfl := Option.some.inj hs
    exact ⟨new, hi.keep rfl rfl rfl rfl ⟨rfl, hpaused⟩ (by rw [hnone]; rfl)⟩
  · cases hspeaks.1
  · obtain ⟨-, rfl⟩ := hspeaks
    -- the speaker is `m` and the broadcast is not paused
    rw [hcur] at hs
    simp only [Bool.false_eq_true, if_false] at hs
    split_ifs at hs <;> obtain rfl := Option.some.inj hs
    · exact ⟨new, hi.keep rfl rfl rfl rfl rfl (by rw [hnone]; rfl)⟩
    · exact ⟨new, hi.keep rfl rfl rfl rfl trivial (by rw [hnone]; rfl)⟩
  · obtain rfl : _ = m := hspeaks
    rw [hmuted] at hs
    obtain rfl := Option.some.inj hs
    exact ⟨new, hi.keep rfl rfl rfl rfl rfl (by rw [hnone]; rfl)⟩
  · exact hspeaks.elim
  · -- the read
    obtain rfl : _ = m := hspeaks
    rename_i m
    have hheard := hi.heard
    have hwhole := hi.whole
    rw [hnone] at hheard hwhole
    simp only [TickPc.frame, Option.toList_none, List.append_nil] at hheard hwhole
    by_cases hle : p.format.bytes_per_frame ≤ (s.member m).audio_buffer.length
    · rw [if_pos (List.length_take_of_le hle), if_neg (by simp [hvol])] at hs
      obtain rfl := Option.some.inj hs
      -- a whole frame: by the condition no part of one has been lost
      have hlost := hg bs ok rfl hpc hle
      have hsplit : speech new ++ (s.member m).audio_buffer.take p.format.bytes_per_frame ++
          (s.member m).audio_buffer.drop p.format.bytes_per_frame =
            (s₀.member m).audio_buffer ++ late := by
        rw [List.append_assoc, List.take_append_drop]
        exact hwhole hlost
      refine ⟨new, hi.frames, ?_, trivial, ?_, ?_, fun _ => ?_⟩
      · simpa [AudioPath.modify, SpeakerAudio.remove] using hi.written
      · simpa [AudioPath.modify, SpeakerAudio.remove] using hi.lost
      · rw [← hsplit]
        simpa [speech, TickPc.frame] using List.take_prefix ..
      · rw [← hsplit]
        simp [speech, TickPc.frame, AudioPath.modify, SpeakerAudio.remove]
    -- a part of a frame leaves the buffer and is lost
    · have hshort : (s.member m).audio_buffer.take p.format.bytes_per_frame =
          (s.member m).audio_buffer := List.take_of_length_le (by omega)
      rw [if_neg (by rw [List.length_take]; omega), hshort] at hs
      obtain rfl := Option.some.inj hs
      have hpos := hi.lost
      refine ⟨new, hi.frames, ?_, trivial, ?_, ?_, fun he => ?_⟩
      · simpa [AudioPath.modify, SpeakerAudio.remove] using hi.written
      · simp only [AudioPath.modify, Function.update_self]
        omega
      · simpa [TickPc.frame] using hheard
      · -- nothing was in the buffer
        simp only [AudioPath.modify, Function.update_self] at he
        have hnil : (s.member m).audio_buffer = [] := List.length_eq_zero_iff.mp (by omega)
        have := hwhole (by omega)
        rw [hnil] at this
        simpa [TickPc.frame, AudioPath.modify, SpeakerAudio.remove, hnil] using this
  · split_ifs at hs
    obtain rfl := Option.some.inj hs
    exact ⟨new, hi.keep rfl rfl rfl rfl trivial (by rw [hnone]; simp [speech, TickPc.frame])⟩
  · rename_i f
    obtain rfl := Option.some.inj hs
    have hheard := hi.heard
    have hwhole := hi.whole
    rw [hnone] at hheard hwhole
    refine ⟨new ++ [f], ?_, hi.written, trivial, hi.lost, ?_, fun he => ?_⟩
    · simp [hi.frames]
    · simpa [TickPc.frame] using hheard
    · simpa [TickPc.frame] using hwhole he

theorem Passed.step (hi : Passed s₀ m s new late) (hst : Steady m s a)
    (hg : WholeBeforePart p m (s₀.member m).lost s a) (hs : audioStep p s a = some t) :
    ∃ new late, Passed s₀ m t new late := by
  cases a with
  | tick bs ok => exact (hi.tick hst hg hs).imp fun new h => ⟨late, h⟩
  | write n bs ok =>
    simp only [audioStep] at hs
    split_ifs at hs
    obtain rfl := Option.some.inj hs
    by_cases hn : n = m
    · subst hn
      obtain rfl := hst.2.2.2.2.2 bs ok rfl
      -- what is written comes behind what has been heard
      have hheard := hi.heard.trans (List.prefix_append _ bs)
      rw [List.append_assoc] at hheard
      refine ⟨new, late ++ bs, hi.frames, ?_, hi.speaks, ?_, hheard, fun he => ?_⟩
      · simp [AudioPath.modify, SpeakerAudio.write, hi.written]
      · simpa [AudioPath.modify, SpeakerAudio.write] using hi.lost
      · have := hi.whole (by simpa [AudioPath.modify, SpeakerAudio.write] using he)
        simp only [AudioPath.modify, SpeakerAudio.write, Function.update_self, if_true]
        rw [← List.append_assoc, this, List.append_assoc]
    · have hm : (s.modify n fun x => x.write bs ok).member m = s.member m :=
        Function.update_of_ne (Ne.symm hn) ..
      exact ⟨new, late, hi.keep rfl (by rw [hm]) (by rw [hm]) (by rw [hm]) hi.speaks rfl⟩
  | speaker new' =>
    simp only [audioStep] at hs
    split_ifs at hs
    obtain rfl := Option.some.inj hs
    exact ⟨new, late, hi.keep rfl rfl rfl rfl hi.speaks rfl⟩
  | pause on | play on =>
    obtain rfl := Option.some.inj hs
    exact ⟨new, late, hi.keep rfl rfl rfl rfl hi.speaks rfl⟩
  | prepare n | mute n on | gain n i =>
    obtain rfl := Option.some.inj hs
    refine ⟨new, late, hi.keep rfl ?_ ?_ ?_ hi.speaks rfl⟩
    all_goals
      by_cases hn : m = n
      · subst hn
        simp [AudioPath.modify]
      · simp [AudioPath.modify, hn]

/-- While `m` speaks undisturbed, what is published is a prefix of what was in its buffer
and has been written to it, as long as no tick finds a whole frame after one that has found
a part of a frame. -/
theorem speech_passed_through (htop : s₀.tick = .top) (hr : Run (audioStep p) s₀ h s)
    (hst : Meets (Steady m) h) (hg : Meets (WholeBeforePart p m (s₀.member m).lost) h) :
    ∃ new late, s.frames = s₀.frames ++ new ∧
      (s.member m).written = (s₀.member m).written ++ late ∧
      speech new <+: (s₀.member m).audio_buffer ++ late := by
  have hstart : Passed s₀ m s₀ [] [] := by
    refine ⟨by simp, by simp, ?_, le_rfl, ?_, fun _ => ?_⟩ <;> rw [htop]
    · trivial
    · exact List.nil_prefix
    · simp [speech, TickPc.frame]
  obtain ⟨new, late, hi⟩ := hr.invariant (I := fun s => ∃ new late, Passed s₀ m s new late)
    (fun _ _ _ ⟨_, _, hi⟩ hg hs => hi.step hg.1 hg.2 hs) (hst.and hg) ⟨[], [], hstart⟩
  refine ⟨new, late, hi.frames, hi.written, List.IsPrefix.trans ?_ hi.heard⟩
  rw [speech_append]
  exact List.prefix_append _ _

def steadyTest (m : ℕ) (s : AudioPath) (a : AudioAction) : Bool :=
  decide (s.current_speaker = some m ∧ s.playing = false ∧ s.paused = false ∧
    (s.member m).muted = false ∧ (s.member m).vol_idx = 0) &&
  match a with
  | .write _ _ ok => ok
  | _ => true

theorem steady_of_test (ht : steadyTest m s a = true) : Steady m s a := by
  obtain ⟨hs, ha⟩ := Bool.and_eq_true_iff.mp ht
  obtain ⟨hcur, hplay, hpaused, hmuted, hvol⟩ := of_decide_eq_true hs
  refine ⟨hcur, hplay, hpaused, hmuted, hvol, ?_⟩
  rintro bs ok rfl
  exact ha

def wholeBeforePartTest (p : AudioProfile) (m : ℕ) (s : AudioPath) (a : AudioAction) : Bool :=
  match a with
  | .tick _ _ => s.tick = .read m →
    p.format.bytes_per_frame ≤ (s.member m).audio_buffer.length → (s.member m).lost = 0
  | _ => true

theorem wholeBeforePart_of_test (ht : wholeBeforePartTest p m s a = true) :
    WholeBeforePart p m 0 s a := by
  rintro bs ok rfl
  exact of_decide_eq_true ht

/-- Frames of 2 bytes from writes of 3 and 2; the last byte is the only one not heard. -/
theorem speech_passed_through_cut : ∃ (h : List (AudioPath × AudioAction)) (s₀ s : AudioPath),
    s₀.tick = .top ∧ Run (audioStep ⟨⟨1, 1, by decide⟩, fun _ l => l⟩) s₀ h s ∧
      speech s.frames = [1, 2, 3, 4] ∧ (s.member 0).written = [1, 2, 3, 4, 5] ∧
      ∃ new late, s.frames = s₀.frames ++ new ∧
        (s.member 0).written = (s₀.member 0).written ++ late ∧
        speech new <+: (s₀.member 0).audio_buffer ++ late := by
  obtain ⟨h, s, hr, hm, hv⟩ := exists_run_observing (audioStep ⟨⟨1, 1, by decide⟩, fun _ l => l⟩)
    (fun s a => steadyTest 0 s a && wholeBeforePartTest ⟨⟨1, 1, by decide⟩, fun _ l => l⟩ 0 s a)
    { AudioPath.init with
      current_speaker := some 0
      member := fun _ => { SpeakerAudio.zero with audio := true } }
    (List.flatten [[.write 0 [1, 2, 3] true], List.replicate 6 (.tick [0, 0] true),
      [.write 0 [4, 5] true], List.replicate 6 (.tick [0, 0] true),
      List.replicate 7 (.tick [0, 0] true)])
    (fun _ s => (speech s.frames, (s.member 0).written)) (v := ([1, 2, 3, 4], [1, 2, 3, 4, 5]))
    (by decide)
  simp only [Prod.mk.injEq] at hv
  exact ⟨h, _, s, rfl, hr, hv.1, hv.2, speech_passed_through rfl hr
    (hm.mono fun _ _ ht => steady_of_test (Bool.and_eq_true_iff.mp ht).1)
    (hm.mono fun _ _ ht => wholeBeforePart_of_test (Bool.and_eq_true_iff.mp ht).2)⟩

/-- A tick finds one byte of a frame of two and drops it: what is heard then has a gap. -/
theorem partial_frame_lost : ¬ ∀ (h₀ : List (AudioPath × AudioAction)) (s₀ : AudioPath)
    (h : List (AudioPath × AudioAction)) (s : AudioPath),
    Run (audioStep ⟨⟨1, 1, by decide⟩, fun _ l => l⟩) .init h₀ s₀ → s₀.tick = .top →
      Run (audioStep ⟨⟨1, 1, by decide⟩, fun _ l => l⟩) s₀ h s → Meets (Steady 0) h →
      ∃ new late, s.frames = s₀.frames ++ new ∧
        (s.member 0).written = (s₀.member 0).written ++ late ∧
        speech new <+: (s₀.member 0).audio_buffer ++ late := by
  obtain ⟨h₀, r, s₀, h, s, hr₀, hs, hr, hm, hv⟩ :=
    exists_runs_observing (audioStep ⟨⟨1, 1, by decide⟩, fun _ l => l⟩)
      (steadyTest 0) .init [.prepare 0] (.speaker (some 0))
      (List.flatten [[.write 0 [1] true], List.replicate 7 (.tick [0, 0] true),
        [.write 0 [2, 3] true], List.replicate 6 (.tick [0, 0] true)])
      (fun r _ s => (decide (r.tick = .top ∧ r.frames = [] ∧ (r.member 0).written = [] ∧
        (r.member 0).audio_buffer = []), speech s.frames, (s.member 0).written))
      (v := (true, [2, 3], [1, 2, 3])) (by decide)
  simp only [Prod.mk.injEq, decide_eq_true_eq] at hv
  obtain ⟨⟨htop, hframes, hwritten, hbuffer⟩, hheard, hall⟩ := hv
  intro hclaim
  have hr₀ := hr₀.snoc hs
  simp only [audioStep] at hs
  split_ifs at hs
  obtain rfl := Option.some.inj hs
  obtain ⟨new, late, hnew, hlate, hprefix⟩ := hclaim _ _ h s hr₀ htop hr
    (hm.mono fun _ _ => steady_of_test)
  rw [show s.frames = new by simpa [hframes] using hnew] at hheard
  rw [show (s.member 0).written = late by simpa [hwritten] using hlate] at hall
  simp [hbuffer, hheard, hall] at hprefix

def TickPc.Formatted (q : FrameFormat) : TickPc → Prop
  | .snapshot (some bs) | .speaker (some bs) _ => bs.length = q.bytes_per_frame
  | .publish f => f.toTickFrame.Formatted q
  | _ => True

theorem audioTick_formatted (hvol : ∀ i l, (p.volume i l).length = l.length)
    (hi : s.tick.Formatted p.format) (hs : audioTick p s bs ok = some t) :
    t.tick.Formatted p.format := by
  unfold audioTick at hs
  dsimp only at hs
  split at hs <;> rename_i hpc <;> rw [hpc] at hi
  · split_ifs at hs with _ _ hlen <;> obtain rfl := Option.some.inj hs
    · exact hlen
    all_goals trivial
  · rename_i file
    obtain rfl := Option.some.inj hs
    cases file
    · trivial
    · exact hi
  · split_ifs at hs <;> obtain rfl := Option.some.inj hs
    · trivial
    · exact ⟨hi, rfl⟩
  · split at hs
    · obtain rfl := Option.some.inj hs
      trivial
    · split_ifs at hs <;> obtain rfl := Option.some.inj hs <;> trivial
  · obtain rfl := Option.some.inj hs
    split_ifs <;> trivial
  · obtain rfl := Option.some.inj hs
    trivial
  · split_ifs at hs with hlen hv <;> obtain rfl := Option.some.inj hs
    · exact ⟨(hvol ..).trans hlen, rfl⟩
    · exact ⟨hlen, rfl⟩
    · trivial
  · split_ifs at hs with hlen
    obtain rfl := Option.some.inj hs
    exact ⟨hlen, rfl⟩
  · obtain rfl := Option.some.inj hs
    trivial

/-- A tick publishes the frame it has assembled. -/
theorem audioTick_frames (hs : audioTick p s bs ok = some t) :
    t.frames = s.frames ∨ ∃ f, s.tick = .publish f ∧ t.frames = s.frames ++ [f] := by
  unfold audioTick at hs
  dsimp only at hs
  split at hs
  case h_9 f hpc =>
    obtain rfl := Option.some.inj hs
    exact .inr ⟨f, hpc, rfl⟩
  all_goals
    refine .inl ?_
    (try split_ifs at hs) <;> (try split at hs) <;> (try split_ifs at hs) <;>
      obtain rfl := Option.some.inj hs <;> rfl

/-- Every frame of the producer fills `bytes_per_frame` bytes, as the ring takes for granted. -/
theorem frames_formatted (hvol : ∀ i l, (p.volume i l).length = l.length)
    (hr : Run (audioStep p) .init h s) : ∀ f ∈ s.frames, f.toTickFrame.Formatted p.format := by
  have hi : s.tick.Formatted p.format ∧ ∀ f ∈ s.frames, f.toTickFrame.Formatted p.format := by
    refine hr.invariant (I := fun s => s.tick.Formatted p.format ∧
      ∀ f ∈ s.frames, f.toTickFrame.Formatted p.format) (g := fun _ _ => True)
      (fun s a t hi _ hs => ?_) (fun _ _ => trivial) ⟨trivial, nofun⟩
    cases a with
    | tick bs ok =>
      refine ⟨audioTick_formatted hvol hi.1 hs, fun f hf => ?_⟩
      obtain hsame | ⟨g, hpc, hnew⟩ := audioTick_frames hs
      · exact hi.2 f (hsame ▸ hf)
      · obtain hold | hg := List.mem_append.mp (hnew ▸ hf)
        · exact hi.2 f hold
        · obtain rfl := List.mem_singleton.mp hg
          have := hi.1
          rwa [hpc] at this
    | write m bs ok =>
      simp only [audioStep] at hs
      split_ifs at hs
      obtain rfl := Option.some.inj hs
      exact hi
    | speaker new =>
      simp only [audioStep] at hs
      split_ifs at hs
      obtain rfl := Option.some.inj hs
      exact hi
    | _ =>
      obtain rfl := Option.some.inj hs
      exact hi
  exact hi.2

end ModBroadcast
