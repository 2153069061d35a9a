import ModBroadcast.InputCustody
import ModBroadcast.Leaving

namespace ModBroadcast

open Automaton

variable {p : RoomProfile} {b b' : Broadcast} {c : Choice} {m n : ℕ} {s t : Room} {a : RoomAction}
  {x y : Place} {h : List (Room × RoomAction)} {j : StopInputPc}

/-- The places after the start of the input thread, none of which leads back to it. -/
def SessionPc.Started : SessionPc → Prop
  | .speak _ k => k.Published
  | .wait _ | .lower | .exitVariables | .clear _ | .cleanup | .release | .returned => True
  | _ => False

theorem SessionPc.Started.next {pc pc' : SessionPc} (h : pc.Started) (hn : pc.Next pc') :
    pc'.Started := by
  cases pc with
  | speak promoted k =>
    rcases hn with ⟨k', rfl, hk⟩ | rfl | ⟨rfl | rfl | rfl, rfl⟩
    · cases k <;> cases k' <;> first | exact hk.elim | exact h.elim | trivial
    · trivial
    all_goals exact h.elim
  | wait k | clear k => rcases hn with ⟨k', rfl⟩ | rfl <;> trivial
  | lower | exitVariables | cleanup | release =>
    obtain rfl := hn
    trivial
  | _ => first | exact h.elim | exact hn.elim

theorem SessionPc.Started.not_begins {pc : SessionPc} (h : pc.Started) : ¬ pc.Begins := by
  cases pc with
  | speak promoted k => cases k <;> first | exact h.elim | exact id
  | prepare => exact h.elim
  | _ => exact id

theorem SessionPc.Published.started {pc : SessionPc} (h : pc.Published) : pc.Started := by
  cases pc with
  | speak promoted k => exact h
  | clear k => trivial
  | _ => first | exact h.elim | trivial

theorem SessionPc.Started.step (h : (s.session n).Started) (hs : roomStep p s a = some t) :
    (t.session n).Started := by
  rcases roomStep_session hs n with he | ⟨c, -, happ⟩ | ⟨j, -, hjoin⟩
  · rwa [he]
  · exact h.next (appFunction_next happ)
  · cases hpc : s.session n <;> rw [hpc] at h hjoin <;> first | exact h.elim | cases hjoin

/-- Where the task of stopping the input thread of `n`, now at `j`, has come from. -/
inductive StopperFrom (b b' : Broadcast) (n : ℕ) : Option (ℕ × StopInputPc) → StopInputPc → Prop
  | take (hn : b.current_speaker = some n) : StopperFrom b b' n none .clear
  | stay : StopperFrom b b' n (some (n, .clear)) .clear
  | tell (hn : (b'.member n).input_running = false) : StopperFrom b b' n (some (n, .clear)) .exchange
  | exchange (hn : (b.member n).input_thread = true) :
      StopperFrom b b' n (some (n, .exchange)) .join

theorem speakerStopInput_from {k : StopInputPc} {z : Broadcast × Progress StopInputPc}
    (h : speakerStopInput b n k = some z) (hz : z.2 = .run j) :
    StopperFrom b z.1 n (some (n, k)) j := by
  cases k with
  | clear =>
    obtain rfl := Option.some.inj h
    cases hz
    exact .tell (by simp [Broadcast.modify])
  | exchange =>
    simp only [speakerStopInput] at h
    split_ifs at h with hn <;> obtain rfl := Option.some.inj h <;> cases hz
    exact .exchange hn
  | join =>
    simp only [speakerStopInput] at h
    split_ifs at h
    obtain rfl := Option.some.inj h
    cases hz

theorem setSpeaker_from {new : Option ℕ} {k k' : SetSpeakerPc}
    {z : Broadcast × Progress SetSpeakerPc} (h : setSpeaker b new c k = some z)
    (hz : z.2 = .run k') (hk' : k'.stopper = some (n, j)) : StopperFrom b z.1 n k.stopper j := by
  cases k with
  | guard | audio | role | start =>
    obtain ⟨m, -, rfl⟩ := Option.map_eq_some_iff.mp h
    (try split_ifs at hz) <;> cases hz <;> cases hk'
  | install =>
    obtain ⟨-, ⟨-, rfl⟩ | ⟨-, rfl⟩⟩ := setSpeaker_install h <;> cases hz
    obtain ⟨o, ho, he⟩ := Option.map_eq_some_iff.mp hk'
    obtain ⟨rfl, rfl⟩ := Prod.mk.inj he
    exact .take ho
  | fire old =>
    cases old <;> obtain rfl := Option.some.inj h <;> cases hz
    obtain ⟨rfl, rfl⟩ := Prod.mk.inj (Option.some.inj hk')
    exact .stay
  | stop old k =>
    obtain ⟨⟨w, k₁ | ok⟩, hw, rfl⟩ := Option.map_eq_some_iff.mp h <;> cases hz
    · obtain ⟨rfl, rfl⟩ := Prod.mk.inj (Option.some.inj hk')
      exact speakerStopInput_from hw rfl
    · cases hk'
  | since old =>
    obtain rfl := Option.some.inj h
    cases hz

theorem clearSpeakerIfCurrent_from {k : ClearPc} {k' : StopInputPc}
    {z : Broadcast × Progress ClearPc} (h : clearSpeakerIfCurrent b m k = some z)
    (hz : z.2 = .run (.stop k')) :
    StopperFrom b z.1 m (Place.session m (.clear k)).stopper k' := by
  cases k with
  | test =>
    simp only [clearSpeakerIfCurrent] at h
    split_ifs at h with hr hc <;> obtain rfl := Option.some.inj h <;> cases hz
    exact .take hc
  | stop k =>
    obtain ⟨⟨w, k₁ | ok⟩, hw, rfl⟩ := Option.map_eq_some_iff.mp h <;> cases hz
    exact speakerStopInput_from hw rfl

theorem appFunction_from {pc pc' : SessionPc} (h : appFunction p b m c pc = some (b', pc'))
    (hy : (Place.session m pc').stopper = some (n, j)) :
    StopperFrom b b' n (Place.session m pc).stopper j := by
  by_cases hpc : pc.Holds
  · cases pc with
    | speak promoted k =>
      obtain ⟨⟨z, k' | ok⟩, hz, he⟩ := Option.map_eq_some_iff.mp h <;>
        obtain ⟨rfl, rfl⟩ := Prod.mk.inj he
      · exact setSpeaker_from hz rfl hy
      · dsimp only [Progress.resume] at hy
        split_ifs at hy <;> cases hy
    | wait k =>
      obtain ⟨⟨z, k' | ok⟩, hz, he⟩ := Option.map_eq_some_iff.mp h <;>
        obtain ⟨rfl, rfl⟩ := Prod.mk.inj he
      · cases k' with
        | clear k' =>
          rcases speakerMainWait_clear hz rfl with ⟨-, rfl⟩ | ⟨k₀, rfl, hset⟩
          · cases hy
          · exact setSpeaker_from hset rfl hy
        | _ => cases hy
      · cases hy
    | clear k =>
      obtain ⟨⟨z, k' | ok⟩, hz, he⟩ := Option.map_eq_some_iff.mp h <;>
        obtain ⟨rfl, rfl⟩ := Prod.mk.inj he
      · cases k' with
        | test => cases hy
        | stop k' =>
          obtain ⟨rfl, rfl⟩ := Prod.mk.inj (Option.some.inj hy)
          exact clearSpeakerIfCurrent_from hz rfl
      · cases hy
    | _ => exact hpc.elim
  · rw [stopper_of_next (appFunction_next h) hpc] at hy
    cases hy

theorem apiDispatch_from {pc pc' : ApiPc} (h : apiDispatch p b c pc = some (b', pc'))
    (hy : (Place.api pc').stopper = some (n, j)) :
    StopperFrom b b' n (Place.api pc).stopper j := by
  by_cases hpc : pc.Holds
  · cases pc with
    | clearSpeaker k =>
      obtain ⟨⟨z, k' | ok⟩, hz, he⟩ := Option.map_eq_some_iff.mp h <;>
        obtain ⟨rfl, rfl⟩ := Prod.mk.inj he
      · exact setSpeaker_from hz rfl hy
      · cases hy
    | destroy g f k =>
      obtain ⟨⟨z, k' | ok⟩, hz, he⟩ := Option.map_eq_some_iff.mp h <;>
        obtain ⟨rfl, rfl⟩ := Prod.mk.inj he
      · cases k' with
        | stop old k' =>
          obtain ⟨rfl, rfl⟩ := Prod.mk.inj (Option.some.inj hy)
          rcases destroyRoom_stop hz rfl with rfl | ⟨k₀, rfl⟩
          · simp only [destroyRoom] at hz
            split_ifs at hz
            obtain ⟨rfl, hrun⟩ := Prod.mk.inj (Option.some.inj hz)
            split at hrun <;> cases hrun
            exact .take ‹_›
          · obtain ⟨⟨w, k₁ | ok⟩, hw, he⟩ := Option.map_eq_some_iff.mp hz <;>
              obtain ⟨rfl, hrun⟩ := Prod.mk.inj he <;> cases hrun
            exact speakerStopInput_from hw rfl
        | _ => cases hy
      · cases hy
    | _ => exact hpc.elim
  · rw [apiDispatch_stopper h hpc] at hy
    cases hy

theorem ThreadStep.stopperFrom (h : ThreadStep p b b' c x y) (hy : y.stopper = some (n, j)) :
    StopperFrom b b' n x.stopper j := by
  cases h with
  | @join m i pc pc' h =>
    cases pc with
    | outside =>
      obtain ⟨b₁, -, he⟩ := Option.map_eq_some_iff.mp h
      obtain ⟨-, rfl⟩ := Prod.mk.inj he
      cases hy
    | created =>
      obtain ⟨-, rfl⟩ := Prod.mk.inj (Option.some.inj h)
      split_ifs at hy <;> cases hy
    | _ => cases h
  | session h => exact appFunction_from h hy
  | call | shutdown => cases hy
  | api h => exact apiDispatch_from h hy

/-- What holds of the member `n` while a thread is at `k` of stopping its input thread. -/
structure Room.Stopping (s : Room) (n : ℕ) (k : StopInputPc) : Prop where
  started : (s.session n).Started
  told : k ≠ .clear → (s.b.member n).input_running = false
  there : k = .join → (s.b.member n).input ≠ .absent

/-- Whoever has to be stopped has been started for good; whoever is joined has been told to stop;
the reader of `speaker_lock` is the producer. -/
structure StopSound (s : Room) : Prop where
  stopping : ∀ th n k, (s.place th).stopper = some (n, k) → s.Stopping n k
  pointer : ∀ n, (s.b.member n).input_thread = true → (s.b.member n).input ≠ .absent
  reader : s.b.speaker_reader = true → s.producer.Inside
  clearing : ∀ m k, s.session m = .wait (.clear k) → k.Published

theorem StopSound.init : StopSound Room.init where
  stopping th n k hk := by
    cases th with
    | session m =>
      by_cases hm : m = 0
      · subst hm
        cases hk
      · simp [Room.place, Room.init, hm, Place.stopper] at hk
    | api u => cases hk
  pointer n hn := by cases hn
  reader h := by cases h
  clearing m k hk := by
    by_cases hm : m = 0
    · subst hm
      cases hk
    · simp [Room.init, hm] at hk

theorem InputStep.pointer (h : InputStep b b' x y) (ht : (b'.inputs n).2 = true) :
    (b.inputs n).2 = true ∧ (b'.inputs n).1 = (b.inputs n).1 ∨ (b'.inputs n).1 = .start := by
  cases h with
  | same hin | move hin | advance _ hin | leave _ _ hin =>
    rw [hin] at ht ⊢
    exact .inl ⟨ht, rfl⟩
  | start m hin =>
    by_cases hnm : n = m
    · exact .inr (by rw [hin, hnm, Function.update_self])
    · rw [hin, Function.update_of_ne hnm] at ht ⊢
      exact .inl ⟨ht, rfl⟩
  | reset m hin | exchange m hin =>
    have hnm : n ≠ m := by
      rintro rfl
      simp [hin] at ht
    rw [hin, Function.update_of_ne hnm] at ht ⊢
    exact .inl ⟨ht, rfl⟩

theorem producerRun_reader {k k' : ProducerPc} (h : producerRun p b c k = some (b', k'))
    (hi : b.speaker_reader = true → k.Inside) (ht : b'.speaker_reader = true) : k'.Inside := by
  cases k with
  | top =>
    simp only [producerRun] at h
    split_ifs at h <;> obtain ⟨rfl, rfl⟩ := Prod.mk.inj (Option.some.inj h)
    · exact hi ((congrArg Prod.snd (slot_of_core (enqueueEvent_core ..))).symm.trans ht)
    all_goals exact hi ht
  | play | silence =>
    simp only [producerRun] at h
    split_ifs at h <;> obtain ⟨rfl, rfl⟩ := Prod.mk.inj (Option.some.inj h) <;> exact hi ht
  | enter | reading =>
    obtain ⟨rfl, rfl⟩ := Prod.mk.inj (Option.some.inj h)
    trivial
  | locked got paused spk =>
    simp only [producerRun] at h
    split at h
    · obtain ⟨rfl, rfl⟩ := Prod.mk.inj (Option.some.inj h)
      trivial
    · split_ifs at h <;> obtain ⟨rfl, rfl⟩ := Prod.mk.inj (Option.some.inj h) <;> trivial
  | leave silence =>
    obtain ⟨rfl, rfl⟩ := Prod.mk.inj (Option.some.inj h)
    cases ht
  | ended => cases h
  | init | snapshot | publish | exit =>
    obtain ⟨rfl, rfl⟩ := Prod.mk.inj (Option.some.inj h)
    exact (hi ht).elim

theorem roomStep_reader (hi : s.b.speaker_reader = true → s.producer.Inside)
    (hs : roomStep p s a = some t) (ht : t.b.speaker_reader = true) : t.producer.Inside := by
  by_cases ha : ∃ c, a = .producer c
  · obtain ⟨c, rfl⟩ := ha
    obtain ⟨x, hx, rfl⟩ := Option.map_eq_some_iff.mp hs
    exact producerRun_reader hx hi ht
  · have hprod : t.producer = s.producer := by
      rcases roomStep_producer hs with h | ⟨c, rfl, -⟩
      · exact h
      · exact absurd ⟨c, rfl⟩ ha
    rw [hprod]
    -- the others store into the slot only when nobody reads, and do not read
    cases roomStep_slot hs fun c hc => ha ⟨c, hc⟩ with
    | keep h => exact hi ((congrArg Prod.snd h).symm.trans ht)
    | publish n hn hr h => exact nomatch (congrArg Prod.snd h).symm.trans ht
    | clear hr h => exact nomatch (congrArg Prod.snd h).symm.trans ht

theorem roomStep_clearing (hi : ∀ k, s.session m = .wait (.clear k) → k.Published)
    (hs : roomStep p s a = some t) {k : SetSpeakerPc} (ht : t.session m = .wait (.clear k)) :
    k.Published := by
  rcases roomStep_session hs m with he | ⟨c, -, happ⟩ | ⟨j, -, hjoin⟩
  · exact hi k (he.symm.trans ht)
  · rw [ht] at happ
    rcases (appFunction_next happ).waits with ⟨k', hk'⟩ | hk
    · rw [hk'] at happ
      obtain ⟨⟨z, k₁ | ok⟩, hz, he⟩ := Option.map_eq_some_iff.mp happ <;>
        obtain ⟨-, hpc⟩ := Prod.mk.inj he <;> cases hpc
      rcases speakerMainWait_clear hz rfl with ⟨-, rfl⟩ | ⟨k₀, rfl, hset⟩
      · trivial
      · obtain ⟨k₁, hk₁, he⟩ | he := setSpeaker_published hset (hi k₀ hk') <;> cases he
        exact hk₁
    · cases hk
  · rw [ht] at hjoin
    cases hpc : s.session m <;> rw [hpc] at hjoin <;> simp [joinSession] at hjoin
    split_ifs at hjoin <;> simp_all

/-- A session that has started its input thread neither starts nor resets it again. -/
theorem Room.Stopping.step {k : StopInputPc} (h : s.Stopping n k) (hs : roomStep p s a = some t) :
    t.Stopping n k := by
  have hf := roomStep_fades hs
  have hbegin : ¬ ∃ c, a = .session n c ∧ (s.session n).Begins :=
    fun ⟨_, _, hb⟩ => h.started.not_begins hb
  refine ⟨h.started.step hs, fun hk => Bool.eq_false_iff.mpr fun ht => ?_, fun hk ht => ?_⟩
  · rcases hf.running n ht with ht | hb
    · simp [h.told hk] at ht
    · exact hbegin hb
  · rcases hf.absent n ht with ht | hb
    · exact h.there hk ht
    · exact hbegin hb

theorem StopSound.step (hslot : s.SlotSound) (hi : StopSound s) (hs : roomStep p s a = some t) :
    StopSound t := by
  refine ⟨fun th n k hk => ?_, fun n hn => ?_, roomStep_reader hi.reader hs,
    fun m k hk => roomStep_clearing (hi.clearing m) hs hk⟩
  · cases roomStep_move hs with
    | background ha h hpl =>
      rw [hpl] at hk
      exact (hi.stopping th n k hk).step hs
    | @thread th' c _ _ h ho _ =>
      by_cases hth : th = th'
      · subst hth
        have hx := hi.stopping th n
        have hfrom := h.stopperFrom hk
        generalize (s.place th).stopper = o at hx hfrom
        cases hfrom with
        | take hn =>
          exact ⟨(hslot.published n hn).started.step hs, fun hne => absurd rfl hne, fun he => nomatch he⟩
        | stay => exact (hx _ rfl).step hs
        | tell hn => exact ⟨(hx _ rfl).started.step hs, fun _ => hn, fun he => nomatch he⟩
        | exchange hn =>
          have hold := hx _ rfl
          exact Room.Stopping.step ⟨hold.started, fun _ => hold.told (by simp),
            fun _ => hi.pointer n hn⟩ hs
      · rw [ho th hth] at hk
        exact (hi.stopping th n k hk).step hs
  · cases roomStep_move hs with
    | background ha h hpl =>
      intro habs
      have hset := (backgroundStep_inputs h).2 n
      rcases (roomStep_fades hs).absent n habs with habs | ⟨c, rfl, -⟩
      · exact hi.pointer n (hset.1.symm.trans hn) habs
      · cases ha
    | thread _ _ h =>
      rcases h.input.pointer hn with ⟨hn, he⟩ | he
      · exact fun habs => hi.pointer n hn (he.symm.trans habs)
      · exact fun habs => nomatch he.symm.trans habs

theorem stopSound_of_run (hr : Run (roomStep p) Room.init h s) : s.SlotSound ∧ StopSound s :=
  hr.invariant (g := fun _ _ => True) (I := fun s => s.SlotSound ∧ StopSound s)
    (fun _ _ _ hi _ hs => ⟨hi.1.step hs, hi.2.step hi.1 hs⟩) (fun _ _ => trivial) ⟨.init, .init⟩

/-- The steps that a call on its way out needs: its own, those of the producer and those of the
input threads.  Nothing has to fail and nobody has to give up for them. -/
def RoomAction.Serves (m : ℕ) : RoomAction → Prop
  | .session n c => n = m ∧ c = .ok
  | .producer c | .input _ c => c = .ok
  | _ => False

def ProducerPc.rank : ProducerPc → ℕ
  | .locked .. => 3
  | .reading _ => 2
  | .leave _ => 1
  | _ => 0

/-- The producer gives the lock back. -/
theorem exists_run_unlocked (hi : s.b.speaker_reader = true → s.producer.Inside) :
    ∃ h t, Run (roomStep p) s h t ∧ Meets (fun _ a => RoomAction.Serves m a) h ∧
      (t.session = s.session ∧ (t.b.speaker_reader = true → t.producer.Inside)) ∧
        t.b.speaker_reader = false := by
  refine exists_run_of_measure (fun t : Room => t.producer.rank) (I := fun t : Room =>
    t.session = s.session ∧ (t.b.speaker_reader = true → t.producer.Inside)) ?_ ⟨rfl, hi⟩
  rintro t ⟨hsess, hin⟩ hread
  have hinside : t.producer.Inside := hin (by simpa using hread)
  have hrank : ∃ x, producerRun p t.b .ok t.producer = some x ∧ x.2.rank < t.producer.rank := by
    cases hpc : t.producer with
    | locked got paused spk =>
      simp only [producerRun]
      split
      · exact ⟨_, rfl, by simp [ProducerPc.rank]⟩
      · split_ifs <;> exact ⟨_, rfl, by simp [ProducerPc.rank]⟩
    | reading k => exact ⟨_, rfl, by simp [ProducerPc.rank]⟩
    | leave silence => exact ⟨_, rfl, by cases silence <;> simp [ProducerPc.rank]⟩
    | _ =>
      rw [hpc] at hinside
      exact hinside.elim
  obtain ⟨x, hx, hlt⟩ := hrank
  have hs : roomStep p t (.producer .ok) = some { t with b := x.1, producer := x.2 } := by
    simp [roomStep, hx]
  exact ⟨_, _, Run.nil.snoc hs, by simp [RoomAction.Serves], ⟨hsess, roomStep_reader hin hs⟩, hlt⟩

def InputPc.rank : InputPc → ℕ
  | .start => 6
  | .pinned => 5
  | .loop => 4
  | .unflag => 3
  | .stop => 2
  | .unpin => 1
  | .absent | .ended => 0

/-- An input thread that has been told to stop returns. -/
theorem exists_run_ended (hrun : (s.b.member n).input_running = false)
    (habs : (s.b.member n).input ≠ .absent) :
    ∃ h t, Run (roomStep p) s h t ∧ Meets (fun _ a => RoomAction.Serves m a) h ∧
      (t.session = s.session ∧ (t.b.member n).input_running = false ∧
        (t.b.member n).input ≠ .absent) ∧ (t.b.member n).input = .ended := by
  refine exists_run_of_measure (fun t : Room => (t.b.member n).input.rank) (I := fun t : Room =>
    t.session = s.session ∧ (t.b.member n).input_running = false ∧
      (t.b.member n).input ≠ .absent) ?_ ⟨rfl, hrun, habs⟩
  rintro t ⟨hsess, hrun, habs⟩ hend
  have hrank : ∃ x, speakerInput p t.b n .ok (t.b.member n).input = some x ∧
      x.2.rank < (t.b.member n).input.rank := by
    cases hpc : (t.b.member n).input with
    | absent => exact absurd hpc habs
    | ended => exact absurd hpc hend
    | loop =>
      simp only [speakerInput, hrun, Bool.false_eq_true, false_and, if_false]
      exact ⟨_, rfl, by simp [InputPc.rank]⟩
    | _ => exact ⟨_, rfl, by simp [InputPc.rank]⟩
  obtain ⟨x, hx, hlt⟩ := hrank
  have hs : roomStep p t (.input n .ok) =
      some { t with b := x.1.modify n fun y => { y with input := x.2 } } := by
    simp [roomStep, hx]
  have hf := roomStep_fades hs
  refine ⟨_, _, Run.nil.snoc hs, by simp [RoomAction.Serves], ⟨hsess, ?_, fun habs' => ?_⟩, ?_⟩
  · refine Bool.eq_false_iff.mpr fun ht => ?_
    rcases hf.running n ht with ht | ⟨c, hc, -⟩
    · simp [hrun] at ht
    · cases hc
  · rcases hf.absent n habs' with ht | ⟨c, hc, -⟩
    · exact habs ht
    · cases hc
  · simpa [Broadcast.modify] using hlt

/-- The places with a section under the write lock of `speaker_lock`. -/
def SessionPc.Locks : SessionPc → Prop
  | .speak _ .install | .wait (.clear .install) | .clear .test => True
  | _ => False

theorem SessionPc.Locks.stopper {pc : SessionPc} (h : pc.Locks) :
    (Place.session m pc).stopper = none := by
  cases pc with
  | speak promoted k => cases k <;> first | exact h.elim | rfl
  | wait k =>
    cases k with
    | clear k => cases k <;> first | exact h.elim | rfl
    | _ => exact h.elim
  | clear k => cases k <;> first | exact h.elim | rfl
  | _ => exact h.elim

theorem setSpeaker_enabled {new : Option ℕ} {k : SetSpeakerPc} (hk : new = none → k.Published)
    (hlock : k = .install → b.speaker_reader = false)
    (hjoin : ∀ n, k.stopper = some (n, .join) → (b.member n).input = .ended) :
    ∃ z, setSpeaker b new .ok k = some z := by
  cases k with
  | guard | audio | role | start =>
    cases new with
    | none => exact (hk rfl).elim
    | some m => exact ⟨_, rfl⟩
  | install =>
    simp only [setSpeaker, hlock rfl, Bool.false_eq_true, if_false]
    split_ifs <;> exact ⟨_, rfl⟩
  | fire old => cases old <;> exact ⟨_, rfl⟩
  | stop old k =>
    cases k with
    | join => simp [setSpeaker, speakerStopInput, hjoin old rfl]
    | exchange =>
      simp only [setSpeaker, speakerStopInput]
      split_ifs <;> exact ⟨_, rfl⟩
    | clear => exact ⟨_, rfl⟩
  | since old => exact ⟨_, rfl⟩

theorem appFunction_enabled {pc : SessionPc} (hout : pc ≠ .outside) (hcreated : pc ≠ .created)
    (hret : pc ≠ .returned) (hclear : ∀ k, pc = .wait (.clear k) → k.Published)
    (hlock : pc.Locks → b.speaker_reader = false)
    (hjoin : ∀ n, (Place.session m pc).Joins n → (b.member n).input = .ended) :
    ∃ x, appFunction p b m .ok pc = some x := by
  cases pc with
  | outside => exact absurd rfl hout
  | created => exact absurd rfl hcreated
  | returned => exact absurd rfl hret
  | speak promoted k =>
    obtain ⟨z, hz⟩ : ∃ z, setSpeaker b (some m) .ok k = some z :=
      setSpeaker_enabled (fun h => nomatch h) (by rintro rfl; exact hlock trivial) hjoin
    simp [appFunction, hz]
  | wait k =>
    cases k with
    | clear k =>
      obtain ⟨z, hz⟩ : ∃ z, setSpeaker b none .ok k = some z :=
        setSpeaker_enabled (fun _ => hclear k rfl) (by rintro rfl; exact hlock trivial) hjoin
      simp [appFunction, speakerMainWait, hz]
    | loop =>
      simp only [appFunction, speakerMainWait]
      split_ifs <;> exact ⟨_, rfl⟩
    | _ => exact ⟨_, rfl⟩
  | clear k =>
    cases k with
    | test =>
      simp only [appFunction, clearSpeakerIfCurrent, hlock trivial, Bool.false_eq_true, if_false]
      split_ifs <;> exact ⟨_, rfl⟩
    | stop k =>
      cases k with
      | join => simp [appFunction, clearSpeakerIfCurrent, speakerStopInput, hjoin m rfl]
      | exchange =>
        simp only [appFunction, clearSpeakerIfCurrent, speakerStopInput]
        split_ifs <;> exact ⟨_, rfl⟩
      | clear => exact ⟨_, rfl⟩
  | check =>
    simp only [appFunction]
    split_ifs <;> exact ⟨_, rfl⟩
  | _ => exact ⟨_, rfl⟩

def SessionPc.InCall (pc : SessionPc) : Prop := pc ≠ .outside ∧ pc ≠ .created

theorem SessionPc.Next.inCall {pc pc' : SessionPc} (hn : pc.Next pc') : pc'.InCall :=
  ⟨by rintro rfl; exact hn.follows, by rintro rfl; exact hn.follows⟩

structure Room.WayOut (s : Room) (m : ℕ) : Prop where
  slot : s.SlotSound
  stop : StopSound s
  gone : Over s.b m
  inCall : (s.session m).InCall

theorem Room.WayOut.run (hi : s.WayOut m) (hr : Run (roomStep p) s h t)
    (hsess : t.session = s.session) : t.WayOut m := by
  obtain ⟨hslot, hstop, hover⟩ := hr.invariant (g := fun _ _ => True)
    (I := fun s => s.SlotSound ∧ StopSound s ∧ Over s.b m)
    (fun _ _ _ hi _ hs => ⟨hi.1.step hs, hi.2.1.step hi.1 hs, hi.2.2.step hs⟩) (fun _ _ => trivial)
    ⟨hi.slot, hi.stop, hi.gone⟩
  exact ⟨hslot, hstop, hover, hsess ▸ hi.inCall⟩

/-- Whatever the session waits for, it comes to pass without the session. -/
theorem Room.WayOut.unblocked (hi : s.WayOut m) (hret : s.session m ≠ .returned) :
    ∃ h t, Run (roomStep p) s h t ∧ Meets (fun _ a => RoomAction.Serves m a) h ∧
      t.session = s.session ∧ ∃ x, appFunction p t.b m .ok (t.session m) = some x := by
  have henabled : ∀ {h t}, Run (roomStep p) s h t → t.session = s.session →
      ((t.session m).Locks → t.b.speaker_reader = false) →
      (∀ n, (t.place (.session m)).Joins n → (t.b.member n).input = .ended) →
      ∃ x, appFunction p t.b m .ok (t.session m) = some x := by
    intro h t hr hsess hlock hjoin
    have ht := hi.run hr hsess
    exact appFunction_enabled ht.inCall.1 ht.inCall.2 (hsess ▸ hret)
      (fun k hk => ht.stop.clearing m k hk) hlock hjoin
  by_cases hlock : (s.session m).Locks
  · obtain ⟨h, t, hr, hm, ⟨hsess, -⟩, hread⟩ :=
      exists_run_unlocked (p := p) (m := m) hi.stop.reader
    refine ⟨h, t, hr, hm, hsess, henabled hr hsess (fun _ => hread) fun n hn => ?_⟩
    exact absurd hn (not_joins (hsess ▸ hlock : (t.session m).Locks).stopper)
  · by_cases hjoin : ∃ n, (s.place (.session m)).Joins n
    · obtain ⟨n, hn⟩ := hjoin
      have hstop := hi.stop.stopping _ n _ hn
      obtain ⟨h, t, hr, hm, ⟨hsess, -, -⟩, hend⟩ :=
        exists_run_ended (p := p) (m := m) (hstop.told (by simp)) (hstop.there rfl)
      refine ⟨h, t, hr, hm, hsess, henabled hr hsess (fun hl => absurd (hsess ▸ hl) hlock) ?_⟩
      intro n' hn'
      have hplace : t.place (.session m) = s.place (.session m) := by simp [Room.place, hsess]
      rw [hplace, Place.Joins, show (s.place (.session m)).stopper = some (n, .join) from hn] at hn'
      obtain ⟨rfl, -⟩ := Prod.mk.inj (Option.some.inj hn')
      exact hend
    · exact ⟨[], s, .nil, meets_nil _, rfl, henabled .nil rfl (fun hl => absurd hl hlock)
        fun n hn => absurd ⟨n, hn⟩ hjoin⟩

/-- From whatever state it has been hung up in, a call can be completed by steps of its own, of the
producer and of input threads, none of which fails: no other session and no API thread has it in
its hands. -/
theorem can_return (hr : Run (roomStep p) Room.init h s) (hin : (s.session m).InCall)
    (ho : Over s.b m) : ∃ h' t, Run (roomStep p) s h' t ∧
      Meets (fun _ a => RoomAction.Serves m a) h' ∧ t.session m = .returned := by
  obtain ⟨hslot, hstop⟩ := stopSound_of_run hr
  have hreach : ∃ h' t, Run (roomStep p) s h' t ∧ Meets (fun _ a => RoomAction.Serves m a) h' ∧
      t.WayOut m ∧ t.session m = .returned := by
    refine exists_run_of_measure (fun s => (s.session m).rank) (fun s hi hret => ?_)
      ⟨hslot, hstop, ho, hin⟩
    obtain ⟨h₁, t, hr₁, hm₁, hsess, x, hx⟩ := hi.unblocked (p := p) hret
    have ht := hi.run hr₁ hsess
    have hs : roomStep p t (.session m .ok) =
        some { t with b := x.1, session := Function.update t.session m x.2 } := by
      simp [roomStep, hx]
    refine ⟨_, _, hr₁.snoc hs, meets_cons.mpr ⟨⟨rfl, rfl⟩, hm₁⟩,
      ⟨ht.slot.step hs, ht.stop.step ht.slot hs, ht.gone.step hs, ?_⟩, ?_⟩
    · simpa using (appFunction_next hx).inCall
    · rcases appFunction_rank ht.gone hx with hlt | ⟨-, hd⟩
      · rw [← hsess]
        simpa using hlt
      · cases hpc : t.session m <;> simp [hpc, SessionPc.dispatchesOn] at hd
  obtain ⟨h', t, hr', hm, -, hret⟩ := hreach
  exact ⟨h', t, hr', hm, hret⟩

/-- A speaker that has been displaced and whose input thread its successor is still waiting for. -/
theorem can_return_displaced : ∃ (h : List (Room × RoomAction)) (s : Room),
    Run (roomStep ⟨8, true, 16, false, false⟩) Room.init h s ∧
      s.session 1 = .speak false (.stop 0 .join) ∧ (s.b.member 0).input = .pinned ∧
      ∃ h' t, Run (roomStep ⟨8, true, 16, false, false⟩) s h' t ∧
        Meets (fun _ a => RoomAction.Serves 1 a) h' ∧ t.session 1 = .returned := by
  obtain ⟨h, s, hr, -, hv⟩ := exists_run_observing (roomStep ⟨8, true, 16, false, false⟩)
    (fun _ _ => true) Room.init
    (List.flatten [[.join 0 ⟨.speaker, false, false⟩], List.replicate 12 (.session 0 .ok),
      [.input 0 .ok, .join 1 ⟨.speaker, false, false⟩], List.replicate 14 (.session 1 .ok),
      [.hangup 1]])
    (fun _ s => (s.session 1, (s.b.member 0).input, (s.b.member 1).ready))
    (v := (.speak false (.stop 0 .join), .pinned, false)) (by decide)
  simp only [Prod.mk.injEq] at hv
  obtain ⟨h1, hinput, hready⟩ := hv
  have hin : (s.session 1).InCall := by
    rw [h1]
    exact ⟨by simp, by simp⟩
  exact ⟨h, s, hr, h1, hinput, can_return hr hin (.inl hready)⟩

end ModBroadcast
