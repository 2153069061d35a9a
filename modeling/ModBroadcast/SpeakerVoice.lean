import ModBroadcast.Studio

namespace ModBroadcast

open Automaton ReadLog

def AudioPath.said (s : AudioPath) (w : Passage) : List UInt8 :=
  ((s.member w.member).written.drop w.start).take (w.stop - w.start)

/-- What a frame carries of the member `m`, before the gain. -/
def AudioPath.voice (s : AudioPath) (m : ℕ) (f : AudioFrame) : List UInt8 :=
  match f.source with
  | some w => if w.member = m then s.said w else []
  | none => []

variable {q : AudioProfile} {s t : AudioPath} {a : AudioAction} {m n : ℕ} {x y : SpeakerAudio}
  {bs : List UInt8} {ok : Bool} {w : Passage} {f : AudioFrame} {h : List (AudioPath × AudioAction)}

theorem take_drop_of_prefix {l l' : List UInt8} {i j : ℕ} (hl : l <+: l') (hj : j ≤ l.length) :
    (l'.drop i).take (j - i) = (l.drop i).take (j - i) := by
  obtain ⟨r, rfl⟩ := hl
  by_cases hi : i ≤ l.length
  · rw [List.drop_append_of_le_length hi, List.take_append_of_le_length]
    rw [List.length_drop]
    omega
  · have : j - i = 0 := by omega
    rw [this, List.take_zero, List.take_zero]

/-- Slices that come one after the other are a part of the list. -/
theorem flatMap_slices_sublist (l : List UInt8) {ws : List Passage} {i : ℕ}
    (hw : ws.Pairwise fun v w => v.stop ≤ w.start) (hi : ∀ w ∈ ws, i ≤ w.start ∧ w.start ≤ w.stop) :
    (ws.flatMap fun w => (l.drop w.start).take (w.stop - w.start)).Sublist (l.drop i) := by
  induction ws generalizing i with
  | nil => exact List.nil_sublist _
  | cons w ws ih =>
    obtain ⟨hfirst, hrest⟩ := List.pairwise_cons.mp hw
    obtain ⟨hle, hstop⟩ := hi w List.mem_cons_self
    have hsplit : l.drop w.start = (l.drop w.start).take (w.stop - w.start) ++ l.drop w.stop := by
      conv_lhs => rw [← List.take_append_drop (w.stop - w.start) (l.drop w.start)]
      rw [List.drop_drop, Nat.add_sub_cancel' hstop]
    have htail := ih hrest fun v hv =>
      ⟨hfirst v hv, (hi v (List.mem_cons_of_mem _ hv)).2⟩
    have hall := (List.Sublist.refl ((l.drop w.start).take (w.stop - w.start))).append htail
    rw [← hsplit] at hall
    exact hall.trans (List.drop_sublist_drop_left l hle)

/-- The buffer of a member has what has been written to it and has not left it. -/
structure SpeakerAudio.Whole (x : SpeakerAudio) : Prop where
  gone : x.gone ≤ x.written.length
  buffer : x.audio_buffer = x.written.drop x.gone

structure Flows (x y : SpeakerAudio) : Prop where
  written : x.written <+: y.written
  gone : x.gone ≤ y.gone
  whole : x.Whole → y.Whole

theorem Flows.of_same (hw : y.written = x.written) (hg : y.gone = x.gone)
    (hb : y.audio_buffer = x.audio_buffer) : Flows x y where
  written := hw ▸ List.prefix_rfl
  gone := hg.ge
  whole hx := ⟨by rw [hg, hw]; exact hx.gone, by rw [hb, hw, hg]; exact hx.buffer⟩

theorem Flows.write (x : SpeakerAudio) (bs : List UInt8) (ok : Bool) : Flows x (x.write bs ok) := by
  unfold SpeakerAudio.write
  split_ifs
  · refine ⟨List.prefix_append _ _, le_rfl, fun hx => ⟨?_, ?_⟩⟩
    · exact hx.gone.trans (by simp)
    · show x.audio_buffer ++ bs = (x.written ++ bs).drop x.gone
      rw [List.drop_append_of_le_length hx.gone, ← hx.buffer]
  · exact .of_same rfl rfl rfl

theorem Flows.remove (hw : y.written = x.written) (hg : y.gone = (x.remove n).gone)
    (hb : y.audio_buffer = (x.remove n).audio_buffer) : Flows x y where
  written := hw ▸ List.prefix_rfl
  gone := hg ▸ Nat.le_add_right _ _
  whole hx := by
    have hlen : x.audio_buffer.length = x.written.length - x.gone := by
      rw [hx.buffer, List.length_drop]
    have hle := hx.gone
    simp only [SpeakerAudio.remove] at hg hb
    refine ⟨by rw [hg, hw, hlen]; omega, ?_⟩
    rw [hb, hw, hg, hx.buffer, List.drop_drop, List.length_drop]
    by_cases hn : n ≤ x.written.length - x.gone
    · rw [min_eq_left hn]
    · rw [List.drop_eq_nil_of_le (by omega), List.drop_eq_nil_of_le (by omega)]

theorem flows_update (hm : t.member = Function.update s.member m y) (hf : Flows (s.member m) y)
    (k : ℕ) : Flows (s.member k) (t.member k) := by
  rw [hm]
  by_cases hk : k = m
  · subst hk
    rwa [Function.update_self]
  · rw [Function.update_of_ne hk]
    exact .of_same rfl rfl rfl

/-- What the step adds to the frames, if it does: no speech, or the next bytes of a buffer. -/
inductive Assembles (q : AudioProfile) (s t : AudioPath) : Prop
  | nothing (h : t.assembled = s.assembled)
  | other (f : AudioFrame) (hf : f.source = none) (h : t.assembled = s.assembled ++ [f])
  | speech (f : AudioFrame) (m : ℕ)
      (hf : f.source = some ⟨m, (s.member m).gone, (s.member m).gone + q.format.bytes_per_frame⟩)
      (hlen : q.format.bytes_per_frame ≤ (s.member m).audio_buffer.length)
      (hgone : (t.member m).gone = (s.member m).gone + q.format.bytes_per_frame)
      (hbytes : f.bytes = (s.member m).audio_buffer.take q.format.bytes_per_frame ∨
        ∃ i, i ≠ 0 ∧ f.bytes =
          q.volume i ((s.member m).audio_buffer.take q.format.bytes_per_frame))
      (h : t.assembled = s.assembled ++ [f])

theorem audioTick_flows (hs : audioTick q s bs ok = some t) :
    (∀ k, Flows (s.member k) (t.member k)) ∧ Assembles q s t := by
  have hstill : t.member = s.member → ∀ k, Flows (s.member k) (t.member k) := fun hm k =>
    .of_same (by rw [hm]) (by rw [hm]) (by rw [hm])
  unfold audioTick at hs
  dsimp only at hs
  split at hs <;> rename_i hpc <;> have hnone := congrArg TickPc.frame hpc
  · split_ifs at hs <;> obtain rfl := Option.some.inj hs <;>
      exact ⟨hstill rfl, .nothing (assembled_keep hnone rfl rfl)⟩
  · obtain rfl := Option.some.inj hs
    exact ⟨hstill rfl, .nothing (assembled_keep hnone rfl rfl)⟩
  · -- the file
    split_ifs at hs <;> obtain rfl := Option.some.inj hs
    · exact ⟨hstill rfl, .nothing (assembled_keep hnone rfl rfl)⟩
    · exact ⟨hstill rfl, .other _ rfl (assembled_snoc hnone rfl rfl)⟩
  · split at hs
    · obtain rfl := Option.some.inj hs
      exact ⟨hstill rfl, .nothing (assembled_keep hnone rfl rfl)⟩
    · split_ifs at hs <;> obtain rfl := Option.some.inj hs
      · exact ⟨flows_update rfl (.of_same rfl rfl rfl), .nothing (assembled_keep hnone rfl rfl)⟩
      · exact ⟨hstill rfl, .nothing (assembled_keep hnone rfl rfl)⟩
      · exact ⟨hstill rfl, .nothing (assembled_keep hnone rfl rfl)⟩
  · obtain rfl := Option.some.inj hs
    refine ⟨hstill rfl, .nothing (assembled_keep hnone ?_ rfl)⟩
    dsimp only
    split_ifs <;> rfl
  · -- the drain
    obtain rfl := Option.some.inj hs
    exact ⟨flows_update rfl (.remove rfl rfl rfl), .nothing (assembled_keep hnone rfl rfl)⟩
  · -- the read
    rename_i m
    by_cases hle : q.format.bytes_per_frame ≤ (s.member m).audio_buffer.length
    · rw [if_pos (List.length_take_of_le hle)] at hs
      obtain rfl := Option.some.inj hs
      refine ⟨flows_update rfl (.remove rfl rfl rfl),
        .speech _ m rfl hle ?_ ?_ (assembled_snoc hnone rfl rfl)⟩
      · simp [AudioPath.modify, SpeakerAudio.remove, hle]
      · dsimp only
        split_ifs with hvol
        · exact .inr ⟨_, hvol, rfl⟩
        · exact .inl rfl
    · rw [if_neg (by rw [List.length_take]; omega)] at hs
      obtain rfl := Option.some.inj hs
      exact ⟨flows_update rfl (.remove rfl rfl rfl), .nothing (assembled_keep hnone rfl rfl)⟩
  · split_ifs at hs
    obtain rfl := Option.some.inj hs
    exact ⟨hstill rfl, .other _ rfl (assembled_snoc hnone rfl rfl)⟩
  · obtain rfl := Option.some.inj hs
    exact ⟨hstill rfl, .nothing (by simp [AudioPath.assembled, hpc, TickPc.frame])⟩

theorem audioStep_flows (hs : audioStep q s a = some t) :
    (∀ k, Flows (s.member k) (t.member k)) ∧ Assembles q s t := by
  cases a with
  | tick bs ok => exact audioTick_flows hs
  | write m bs ok =>
    simp only [audioStep] at hs
    split_ifs at hs
    obtain rfl := Option.some.inj hs
    exact ⟨flows_update rfl (.write _ bs ok), .nothing rfl⟩
  | speaker new =>
    simp only [audioStep] at hs
    split_ifs at hs
    obtain rfl := Option.some.inj hs
    exact ⟨fun _ => .of_same rfl rfl rfl, .nothing rfl⟩
  | pause on | play on =>
    obtain rfl := Option.some.inj hs
    exact ⟨fun _ => .of_same rfl rfl rfl, .nothing rfl⟩
  | prepare m | mute m on | gain m i =>
    obtain rfl := Option.some.inj hs
    exact ⟨flows_update rfl (.of_same rfl rfl rfl), .nothing rfl⟩

/-- The frame carries a passage that has left its buffer, as it has been written or at a volume. -/
structure Carries (q : AudioProfile) (s : AudioPath) (f : AudioFrame) (w : Passage) : Prop where
  length : w.stop = w.start + q.format.bytes_per_frame
  gone : w.stop ≤ (s.member w.member).gone
  bytes : f.bytes = s.said w ∨ ∃ i, i ≠ 0 ∧ f.bytes = q.volume i (s.said w)

structure Voiced (q : AudioProfile) (s : AudioPath) : Prop where
  whole : ∀ m, (s.member m).Whole
  carries : ∀ f ∈ s.assembled, ∀ w ∈ f.source, Carries q s f w
  order : s.assembled.Pairwise fun f g =>
    ∀ v ∈ f.source, ∀ w ∈ g.source, v.member = w.member → v.stop ≤ w.start

theorem Voiced.init (q : AudioProfile) : Voiced q .init where
  whole _ := ⟨le_rfl, rfl⟩
  carries := by simp [AudioPath.assembled, AudioPath.init, TickPc.frame]
  order := by simp [AudioPath.assembled, AudioPath.init, TickPc.frame]

/-- What has left the buffer stays as it has been said. -/
theorem Carries.flows (hc : Carries q s f w) (hw : (s.member w.member).Whole)
    (hf : Flows (s.member w.member) (t.member w.member)) : Carries q t f w := by
  have hsaid : t.said w = s.said w :=
    take_drop_of_prefix hf.written (hc.gone.trans hw.gone)
  exact ⟨hc.length, hc.gone.trans hf.gone, hsaid ▸ hc.bytes⟩

theorem Voiced.step (hi : Voiced q s) (hs : audioStep q s a = some t) : Voiced q t := by
  obtain ⟨hflows, hnew⟩ := audioStep_flows hs
  have hold : ∀ f ∈ s.assembled, ∀ w ∈ f.source, Carries q t f w := fun f hf w hw =>
    (hi.carries f hf w hw).flows (hi.whole _) (hflows _)
  refine ⟨fun m => (hflows m).whole (hi.whole m), ?_, ?_⟩
  · cases hnew with
    | nothing h => exact h ▸ hold
    | other g hg h =>
      intro f hf w hw
      obtain hf | hf := List.mem_append.mp (h ▸ hf)
      · exact hold f hf w hw
      · obtain rfl := List.mem_singleton.mp hf
        simp [hg] at hw
    | speech g m hg hlen hgone hbytes h =>
      intro f hf w hw
      obtain hf | hf := List.mem_append.mp (h ▸ hf)
      · exact hold f hf w hw
      · obtain rfl := List.mem_singleton.mp hf
        rw [hg] at hw
        obtain rfl := Option.some.inj hw
        have hwhole := hi.whole m
        have hstop : (s.member m).gone + q.format.bytes_per_frame ≤ (s.member m).written.length := by
          have := hwhole.gone
          rw [hwhole.buffer, List.length_drop] at hlen
          omega
        have hsaid : t.said ⟨m, (s.member m).gone, (s.member m).gone + q.format.bytes_per_frame⟩ =
            (s.member m).audio_buffer.take q.format.bytes_per_frame := by
          rw [hwhole.buffer]
          have := take_drop_of_prefix (i := (s.member m).gone) (hflows m).written hstop
          rw [Nat.add_sub_cancel_left] at this
          rw [AudioPath.said, Nat.add_sub_cancel_left, this]
        exact ⟨rfl, hgone.ge, by rw [hsaid]; exact hbytes⟩
  · cases hnew with
    | nothing h => exact h ▸ hi.order
    | other g hg h =>
      rw [h]
      refine List.pairwise_append.mpr ⟨hi.order, List.pairwise_singleton .., ?_⟩
      intro f _ f' hf' v _ w hw
      obtain rfl := List.mem_singleton.mp hf'
      simp [hg] at hw
    | speech g m hg hlen hgone hbytes h =>
      rw [h]
      refine List.pairwise_append.mpr ⟨hi.order, List.pairwise_singleton .., ?_⟩
      intro f hf f' hf' v hv w hw hvw
      obtain rfl := List.mem_singleton.mp hf'
      rw [hg] at hw
      obtain rfl := Option.some.inj hw
      -- what has been assembled before has left the buffer
      have := (hi.carries f hf v hv).gone
      rwa [hvw] at this

theorem Voiced.of_run (hr : Run (audioStep q) .init h s) : Voiced q s :=
  hr.invariant (g := fun _ _ => True) (fun _ _ _ hi _ hs => hi.step hs) (fun _ _ => trivial)
    (.init q)

def passages (m : ℕ) (l : List AudioFrame) : List Passage :=
  (l.filterMap AudioFrame.source).filter fun w => w.member = m

theorem mem_passages {m : ℕ} {l : List AudioFrame} :
    w ∈ passages m l ↔ (∃ f ∈ l, f.source = some w) ∧ w.member = m := by
  simp [passages]

theorem flatMap_voice (s : AudioPath) (m : ℕ) (l : List AudioFrame) :
    l.flatMap (s.voice m) =
      (passages m l).flatMap fun w => ((s.member m).written.drop w.start).take (w.stop - w.start) := by
  induction l with
  | nil => rfl
  | cons f l ih =>
    rw [List.flatMap_cons, ih]
    cases hf : f.source with
    | none => simp [AudioPath.voice, passages, hf]
    | some w =>
      by_cases hw : w.member = m
      · subst hw
        simp [AudioPath.voice, passages, hf, AudioPath.said]
      · simp [AudioPath.voice, passages, hf, hw]

theorem Voiced.sublist {l : List AudioFrame} (hi : Voiced q s) (hl : l.Sublist s.frames) :
    (∀ f ∈ l, ∀ w ∈ f.source, Carries q s f w) ∧
      ∀ m, (l.flatMap (s.voice m)).Sublist (s.member m).written := by
  have hall : l.Sublist s.assembled := hl.trans (List.sublist_append_left _ _)
  have hcarries : ∀ f ∈ l, ∀ w ∈ f.source, Carries q s f w := fun f hf =>
    hi.carries f (hall.subset hf)
  refine ⟨hcarries, fun m => ?_⟩
  have horder : (passages m l).Pairwise fun v w => v.stop ≤ w.start := by
    rw [passages, List.pairwise_filter, List.pairwise_filterMap]
    refine (hi.order.sublist hall).imp fun hfg v hv w hw hvm hwm => hfg v hv w hw ?_
    rw [of_decide_eq_true hvm, of_decide_eq_true hwm]
  have hstop : ∀ w ∈ passages m l, 0 ≤ w.start ∧ w.start ≤ w.stop := by
    intro w hw
    obtain ⟨⟨f, hf, hw⟩, -⟩ := mem_passages.mp hw
    have := (hcarries f hf w hw).length
    omega
  rw [flatMap_voice]
  exact flatMap_slices_sublist (s.member m).written horder hstop

/-- Whatever a listener or a recording gets of a member's speech are whole frames of what this
member has said, as written or at a volume; they come in the order in which they have been said, and
no byte of it comes twice. -/
theorem voice_heard (p : StudioProfile) {h : List (Studio × StudioAction)} {s : Studio}
    (hr : Run (studioStep p) .init h s) (c : Consumer) :
    ∃ l : List AudioFrame, l.Sublist s.path.frames ∧
      (s.heard c).reverse.map Prod.snd = l.map (fun f => f.bytes) ∧
      (∀ f ∈ l, ∀ w ∈ f.source, Carries p.audio s.path f w) ∧
      ∀ m, (l.flatMap (s.path.voice m)).Sublist (s.path.member m).written := by
  obtain ⟨h', l, hrun, -, hR⟩ := Related.exists_of_run hr
  obtain ⟨h₀, hr₀⟩ := hR.path
  have hsub : ((l.taken c).reverse.map Prod.snd).Sublist s.path.frames := by
    have hnumbered : (numbered l.entries).map Prod.snd = l.entries := by
      simp [numbered, Function.comp_def]
    rw [← hR.entries, ← hnumbered]
    exact (hR.reads.taken_sublist c).map Prod.snd
  refine ⟨_, hsub, ?_, (Voiced.of_run hr₀).sublist hsub⟩
  rw [hR.heard, ← List.map_reverse, List.map_map, List.map_map]
  rfl

/-- Of five bytes the first four are heard, two at a time. -/
theorem voice_heard_frames : ∃ h s, Run (studioStep smallStudio) .init h s ∧
    s.heard (.recording 0) = [(1, [3, 4]), (0, [1, 2])] ∧
    ∃ l : List AudioFrame, l.Sublist s.path.frames ∧
      (s.heard (.recording 0)).reverse.map Prod.snd = l.map (fun f => f.bytes) ∧
      (∀ f ∈ l, ∀ w ∈ f.source, Carries smallStudio.audio s.path f w) ∧
      ∀ m, (l.flatMap (s.path.voice m)).Sublist (s.path.member m).written := by
  obtain ⟨h, s, hr, -, hv⟩ := exists_run_observing (studioStep smallStudio) (fun _ _ => true) .init
    (List.flatten [[.audio (.prepare 0), .audio (.speaker (some 0)), .start 0,
      .audio (.write 0 [1, 2, 3, 4, 5] true)], List.replicate 12 (.audio (.tick [0, 0] true)),
      List.replicate 5 (.writer 0 true)])
    (fun _ s => s.heard (.recording 0)) (v := [(1, [3, 4]), (0, [1, 2])]) (by decide)
  exact ⟨h, s, hr, hv, voice_heard smallStudio hr _⟩

end ModBroadcast
