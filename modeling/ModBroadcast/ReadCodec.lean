import Mathlib.Data.List.Lemmas
import ModBroadcast.Automaton
import ModBroadcast.Broadcast

namespace ModBroadcast

open Automaton

/-- The codec negotiated for the call, `read_codec` of a member, or one of another application. -/
inductive SessionCodec
  | negotiated
  | member (m : ℕ)
  | foreign (n : ℕ)
  deriving DecidableEq

/-- What `broadcast_member_prepare` and `broadcast_member_ensure_speaker_audio` leave in a member;
a codec is there when its `codec_interface` is. -/
structure MemberCodecs where
  read_codec : Bool
  write_codec : Bool
  audio_in_mutex : Bool
  audio_buffer : Bool
  in_listener_bridge : Bool
  deriving DecidableEq

def MemberCodecs.zero : MemberCodecs := ⟨false, false, false, false, false⟩

inductive CodecStage
  | find (role : MemberRole)
  -- `broadcast_member_prepare`
  | prepare (role : MemberRole)
  | readCodec | installRead | inputMutex | inputBuffer | dropRead | dropWrite
  | occupied
  | add | bridge | listening | decide
  -- `broadcast_set_speaker` with `broadcast_member_ensure_speaker_audio`
  | guard | ensure | lazyCodec | installLazy | lazyMutex | lazyBuffer | start
  | waiting
  -- `broadcast_member_cleanup_codecs`
  | cleanupRead | cleanupWrite
  | release
  | returned
  deriving DecidableEq

def CodecStage.Installs (k : CodecStage) : Prop := k = .installRead ∨ k = .installLazy

instance : DecidablePred CodecStage.Installs := fun _ => inferInstanceAs (Decidable (_ ∨ _))

/-- One step of the visit of member `m`; `ok` is the answer of what it calls, `r` the read codec of
the session. -/
def broadcastApp (m : ℕ) (ok : Bool) (r : SessionCodec) (x : MemberCodecs) :
    CodecStage → SessionCodec × MemberCodecs × CodecStage
  -- no name, an exclusive join of a broadcast that is there, or one that cannot be created
  | .find role => if ok then (r, .zero, .prepare role) else (r, x, .returned)
  | .prepare role =>
    if ok then (r, { x with write_codec := true }, if role = .speaker then .readCodec else .add)
    else (r, x, .release)
  | .readCodec =>
    if ok then (r, { x with read_codec := true }, .installRead) else (r, x, .dropWrite)
  | .installRead => (.member m, x, .inputMutex)
  -- the answer of `switch_mutex_init` is not looked at
  | .inputMutex => (r, { x with audio_in_mutex := ok }, .inputBuffer)
  | .inputBuffer =>
    if ok then (r, { x with audio_buffer := true }, .occupied) else (r, x, .dropRead)
  | .dropRead => (r, { x with read_codec := false }, .dropWrite)
  | .dropWrite => (r, { x with write_codec := false }, .release)
  -- someone else is speaking and may not be overridden
  | .occupied => (r, x, if ok then .guard else .cleanupRead)
  | .add => (r, x, if ok then .bridge else .cleanupRead)
  | .bridge =>
    -- without a timer `broadcast_listener_run` returns with the flag up
    (r, { x with in_listener_bridge := true }, if ok then .listening else .decide)
  | .listening => (r, { x with in_listener_bridge := false }, .decide)
  -- `MFLAG_ROLE_TRANSITION_TO_SPEAKER`
  | .decide => (r, x, if ok then .guard else .cleanupRead)
  | .guard => (r, x, if x.in_listener_bridge then .cleanupRead else .ensure)
  | .ensure =>
    (r, x, if x.audio_buffer ∧ x.audio_in_mutex then .start
      else if x.read_codec then .lazyMutex else .lazyCodec)
  | .lazyCodec =>
    if ok then (r, { x with read_codec := true }, .installLazy) else (r, x, .cleanupRead)
  | .installLazy => (.member m, x, .lazyMutex)
  | .lazyMutex =>
    if x.audio_in_mutex then (r, x, .lazyBuffer)
    else if ok then (r, { x with audio_in_mutex := true }, .lazyBuffer)
    else (r, x, .cleanupRead)
  | .lazyBuffer =>
    if x.audio_buffer then (r, x, .start)
    else if ok then (r, { x with audio_buffer := true }, .start)
    else (r, x, .cleanupRead)
  | .start => (r, x, if ok then .waiting else .cleanupRead)
  | .waiting => (r, x, .cleanupRead)
  | .cleanupRead => (r, { x with read_codec := false }, .cleanupWrite)
  | .cleanupWrite => (r, { x with write_codec := false }, .release)
  | .release | .returned => (r, x, .returned)

def CodecStage.Destroys (x : MemberCodecs) (k : CodecStage) : Prop :=
  k = .dropRead ∨ k = .cleanupRead ∧ x.read_codec

instance (x : MemberCodecs) : DecidablePred (CodecStage.Destroys x) :=
  fun _ => inferInstanceAs (Decidable (_ ∨ _ ∧ _))

/-- The innermost visit is the first of `visits`; `next` numbers the member of the next one. -/
structure CodecSession where
  read_codec : SessionCodec
  member : ℕ → MemberCodecs
  visits : List (ℕ × CodecStage)
  next : ℕ

/-- `other` is a call of `switch_core_session_set_read_codec` from anywhere else. -/
inductive CodecAction
  | call (role : MemberRole)
  | step (ok : Bool)
  | other (c : SessionCodec)

def CodecStage.TakesDigits (k : CodecStage) : Prop := k = .listening ∨ k = .waiting

instance : DecidablePred CodecStage.TakesDigits := fun _ => inferInstanceAs (Decidable (_ ∨ _))

def codecStep (s : CodecSession) : CodecAction → Option CodecSession
  | .call role =>
    if ∀ v ∈ s.visits.head?, v.2.TakesDigits then
      some { s with visits := (s.next, .find role) :: s.visits, next := s.next + 1 }
    else none
  | .step ok =>
    match s.visits with
    | [] => none
    | (m, k) :: outer =>
      let y := broadcastApp m ok s.read_codec (s.member m) k
      some { s with
        read_codec := y.1
        member := Function.update s.member m y.2.1
        visits := if y.2.2 = .returned then outer else (m, y.2.2) :: outer }
  | .other c => some { s with read_codec := c }

def CodecSession.init : CodecSession := ⟨.negotiated, fun _ => .zero, [], 0⟩

/-- The codec that the step passes to `switch_core_session_set_read_codec`. -/
def setReadCodec (s : CodecSession) : CodecAction → Option SessionCodec
  | .call _ => none
  | .step _ => s.visits.head?.bind fun v => if v.2.Installs then some (.member v.1) else none
  | .other c => some c

/-- The member whose `read_codec` the step destroys. -/
def destroyedCodec (s : CodecSession) : CodecAction → Option ℕ
  | .step _ => s.visits.head?.bind fun v =>
    if v.2.Destroys (s.member v.1) then some v.1 else none
  | _ => none

/-- The codec that was last passed to `switch_core_session_set_read_codec`. -/
def lastSet (h : List (CodecSession × CodecAction)) : Option SessionCodec :=
  h.findSome? fun e => setReadCodec e.1 e.2

def installer (s : CodecSession) : CodecAction → Option ℕ
  | .step _ => s.visits.head?.bind fun v => if v.2.Installs then some v.1 else none
  | _ => none

def Installed (m : ℕ) (h : List (CodecSession × CodecAction)) : Prop :=
  ∃ e ∈ h, installer e.1 e.2 = some m

/-- The codecs that anyone but the visit of member `m` has set since that visit set its own, the
latest first: applications, the core, and other visits. -/
def setByOthers (m : ℕ) : List (CodecSession × CodecAction) → List SessionCodec
  | [] => []
  | e :: h =>
    if installer e.1 e.2 = some m then [] else (setReadCodec e.1 e.2).toList ++ setByOthers m h

/-- The last codec that others have set since the visit of member `m` set its own is not `m`'s. -/
def ReplacedByOthers (m : ℕ) (h : List (CodecSession × CodecAction)) : Prop :=
  ∃ c, (setByOthers m h).head? = some c ∧ c ≠ .member m

variable {s s' : CodecSession} {a : CodecAction} {m n : ℕ} {ok : Bool} {r : SessionCodec}
  {x : MemberCodecs} {k : CodecStage} {h : List (CodecSession × CodecAction)}

theorem lastSet_cons_of_some {c : SessionCodec} (hc : setReadCodec s a = some c) :
    lastSet ((s, a) :: h) = some c := by
  simp [lastSet, hc]

theorem lastSet_cons_of_none (hc : setReadCodec s a = none) :
    lastSet ((s, a) :: h) = lastSet h := by
  simp [lastSet, hc]

theorem Installed.cons (hm : Installed m h) (e : CodecSession × CodecAction) :
    Installed m (e :: h) := by
  obtain ⟨e', he', hset⟩ := hm
  exact ⟨e', List.mem_cons_of_mem _ he', hset⟩

theorem setReadCodec_of_installer (hm : installer s a = some m) :
    setReadCodec s a = some (.member m) := by
  cases a with
  | step ok =>
    obtain ⟨v, hv, hif⟩ := Option.bind_eq_some_iff.mp hm
    split_ifs at hif with hk
    obtain rfl := Option.some.inj hif
    simp [setReadCodec, hv, hk]
  | call | other => cases hm

/-- Once the visit of `m` has set its codec, the last one set is that or one set by others. -/
theorem Installed.lastSet_eq (hm : Installed m h) :
    lastSet h = some ((setByOthers m h).head?.getD (.member m)) := by
  induction h with
  | nil =>
    obtain ⟨e, he, -⟩ := hm
    cases he
  | cons e h ih =>
    obtain ⟨s, a⟩ := e
    by_cases hown : installer s a = some m
    · rw [lastSet_cons_of_some (setReadCodec_of_installer hown), setByOthers, if_pos hown]
      rfl
    · have hold : Installed m h := by
        obtain ⟨e, he, hset⟩ := hm
        rcases List.mem_cons.mp he with rfl | he
        · exact absurd hset hown
        · exact ⟨e, he, hset⟩
      rw [setByOthers, if_neg hown]
      cases hc : setReadCodec s a with
      | none =>
        rw [lastSet_cons_of_none hc, Option.toList_none, List.nil_append]
        exact ih hold
      | some c =>
        rw [lastSet_cons_of_some hc]
        rfl

/-- The read codec of the visit has been initialised and nothing has destroyed it. -/
def CodecStage.Holds : CodecStage → Prop
  | .installRead | .inputMutex | .inputBuffer | .dropRead | .installLazy => True
  | _ => False

def CodecStage.CodecOk (set : Prop) (x : MemberCodecs) (k : CodecStage) : Prop :=
  (k.Holds → x.read_codec) ∧ (x.read_codec → k.Installs ∨ set)

/-- A visit initialises its read codec only to set it next. -/
theorem broadcastApp_codecOk {set : Prop} (hx : k.CodecOk set x) :
    (broadcastApp m ok r x k).2.2.CodecOk (k.Installs ∨ set) (broadcastApp m ok r x k).2.1 := by
  have kept : ∀ {k' : CodecStage} {x' : MemberCodecs}, ¬ k'.Holds ∨ x'.read_codec →
      (x'.read_codec → x.read_codec) → k'.CodecOk (k.Installs ∨ set) x' := fun hk' hx' =>
    ⟨fun h => hk'.resolve_left (not_not.mpr h), fun h => .inr (hx.2 (hx' h))⟩
  cases k with
  | find =>
    cases ok
    · exact kept (.inl id) id
    · exact kept (.inl id) (fun h => (by cases h))
  | prepare =>
    cases ok
    · exact kept (.inl id) id
    · exact kept (.inl (by dsimp only [broadcastApp]; split_ifs <;> exact id)) id
  | occupied | add | bridge | decide | start =>
    cases ok <;> exact kept (.inl id) id
  | readCodec =>
    cases ok
    · exact kept (.inl id) id
    · exact ⟨fun _ => rfl, fun _ => .inl (.inl rfl)⟩
  | lazyCodec =>
    cases ok
    · exact kept (.inl id) id
    · exact ⟨fun _ => rfl, fun _ => .inl (.inr rfl)⟩
  | installRead | inputMutex => exact kept (.inr (hx.1 trivial)) id
  | inputBuffer =>
    cases ok
    · exact kept (.inr (hx.1 trivial)) id
    · exact kept (.inl id) id
  | guard | ensure | lazyMutex | lazyBuffer =>
    dsimp only [broadcastApp]
    split_ifs <;> exact kept (.inl id) id
  | listening | installLazy | waiting | cleanupWrite | dropWrite | release | returned =>
    exact kept (.inl id) id
  | dropRead | cleanupRead => exact kept (.inl id) (fun h => (by cases h))

theorem CodecStage.CodecOk.mono {set set' : Prop} (hx : k.CodecOk set x) (h : set → set') :
    k.CodecOk set' x :=
  ⟨hx.1, fun hr => (hx.2 hr).imp_right h⟩

theorem CodecStage.CodecOk.of_destroys {set : Prop} (hx : k.CodecOk set x) (hk : k.Destroys x) :
    set := by
  rcases hk with rfl | ⟨rfl, hr⟩
  · exact (hx.2 (hx.1 trivial)).resolve_left (by rintro (h | h) <;> cases h)
  · exact (hx.2 hr).resolve_left (by rintro (h | h) <;> cases h)

/-- Only an install changes the read codec of the session, and to that of the member. -/
theorem broadcastApp_session :
    (broadcastApp m ok r x k).1 = if k.Installs then .member m else r := by
  by_cases hk : k.Installs
  · rw [if_pos hk]
    rcases hk with rfl | rfl <;> rfl
  · rw [if_neg hk]
    cases k with
    | installRead => exact absurd (.inl rfl) hk
    | installLazy => exact absurd (.inr rfl) hk
    | find | prepare | readCodec | inputBuffer | lazyCodec => cases ok <;> rfl
    | lazyMutex | lazyBuffer =>
      dsimp only [broadcastApp]
      split_ifs <;> rfl
    | _ => rfl

/-- What a step does: it begins a visit, moves the innermost one, or comes from elsewhere. -/
inductive CodecMove (s s' : CodecSession) : CodecAction → Prop
  | call {role : MemberRole} (htop : ∀ v ∈ s.visits.head?, v.2.TakesDigits)
      (hs : s' = { s with visits := (s.next, .find role) :: s.visits, next := s.next + 1 }) :
      CodecMove s s' (.call role)
  | step {m : ℕ} {k : CodecStage} {outer : List (ℕ × CodecStage)} {ok : Bool}
      {y : SessionCodec × MemberCodecs × CodecStage} (hv : s.visits = (m, k) :: outer)
      (hy : broadcastApp m ok s.read_codec (s.member m) k = y)
      (hs : s' = { s with
        read_codec := y.1
        member := Function.update s.member m y.2.1
        visits := if y.2.2 = .returned then outer else (m, y.2.2) :: outer }) :
      CodecMove s s' (.step ok)
  | other {c : SessionCodec} (hs : s' = { s with read_codec := c }) : CodecMove s s' (.other c)

theorem codecMove_of_step (hs : codecStep s a = some s') : CodecMove s s' a := by
  cases a with
  | call role =>
    simp only [codecStep] at hs
    split_ifs at hs with htop
    exact .call htop (Option.some.inj hs).symm
  | step ok =>
    simp only [codecStep] at hs
    split at hs
    case h_1 => cases hs
    case h_2 m k outer hv => exact .step hv rfl (Option.some.inj hs).symm
  | other c => exact .other (Option.some.inj hs).symm

theorem setReadCodec_step {outer : List (ℕ × CodecStage)} (hv : s.visits = (m, k) :: outer) :
    setReadCodec s (.step ok) = if k.Installs then some (.member m) else none := by
  simp [setReadCodec, hv]

theorem installer_step {outer : List (ℕ × CodecStage)} (hv : s.visits = (m, k) :: outer) :
    installer s (.step ok) = if k.Installs then some m else none := by
  simp [installer, hv]

/-- The assumption on the core: the session has the codec that was last set on it. -/
theorem read_codec_of_step (hs : codecStep s a = some s') :
    s'.read_codec = (setReadCodec s a).getD s.read_codec := by
  cases codecMove_of_step hs with
  | call _ he => rw [he]; rfl
  | step hv hy he =>
    rw [he, setReadCodec_step hv, ← hy, broadcastApp_session]
    split_ifs <;> rfl
  | other he => rw [he]; rfl

theorem read_codec_of_run (hr : Run codecStep .init h s) :
    s.read_codec = (lastSet h).getD .negotiated := by
  refine hr.history_invariant (I := fun h s => s.read_codec = (lastSet h).getD .negotiated)
    (g := fun _ _ => True) (fun h s a t hi _ hs => ?_) (fun _ _ => trivial) rfl
  rw [read_codec_of_step hs]
  cases hc : setReadCodec s a with
  | none => rw [lastSet_cons_of_none hc]; exact hi
  | some c => rw [lastSet_cons_of_some hc]; rfl

structure CodecSession.Sound (h : List (CodecSession × CodecAction)) (s : CodecSession) : Prop where
  distinct : (s.visits.map Prod.fst).Nodup
  numbered : ∀ v ∈ s.visits, v.1 < s.next
  fresh : ∀ m, s.next ≤ m → s.member m = .zero
  visits : ∀ v ∈ s.visits, v.2.CodecOk (Installed v.1 h) (s.member v.1)

theorem CodecSession.Sound.call {role : MemberRole} (hi : s.Sound h) :
    CodecSession.Sound ((s, .call role) :: h)
      { s with visits := (s.next, .find role) :: s.visits, next := s.next + 1 } := by
  refine ⟨?_, ?_, fun m hm => hi.fresh m (Nat.le_of_succ_le hm), ?_⟩
  · refine List.nodup_cons.mpr ⟨fun hmem => ?_, hi.distinct⟩
    obtain ⟨v, hv, hn⟩ := List.mem_map.mp hmem
    exact absurd hn (hi.numbered v hv).ne
  · rintro v (_ | ⟨_, hv⟩)
    · exact Nat.lt_succ_self _
    · exact (hi.numbered v hv).trans (Nat.lt_succ_self _)
  · rintro v (_ | ⟨_, hv⟩)
    · have hzero : s.member s.next = .zero := hi.fresh _ le_rfl
      exact ⟨False.elim, fun hr => by simp [hzero, MemberCodecs.zero] at hr⟩
    · exact (hi.visits v hv).mono fun hm => hm.cons _

/-- The visit of `m` is at `k'` now, or has returned; `x` is what its member has become. -/
theorem CodecSession.Sound.visit {outer : List (ℕ × CodecStage)} {k' : CodecStage} (hi : s.Sound h)
    (hv : s.visits = (m, k) :: outer) (hx : k'.CodecOk (Installed m ((s, a) :: h)) x) :
    CodecSession.Sound ((s, a) :: h) { s with
      read_codec := r
      member := Function.update s.member m x
      visits := if k' = .returned then outer else (m, k') :: outer } := by
  have hm : m < s.next := hi.numbered (m, k) (by simp [hv])
  have hdistinct : m ∉ outer.map Prod.fst ∧ (outer.map Prod.fst).Nodup := by
    simpa [hv] using hi.distinct
  -- the visits that wait for this one to return
  have houter : ∀ v ∈ outer, v.1 < s.next ∧
      v.2.CodecOk (Installed v.1 ((s, a) :: h)) (Function.update s.member m x v.1) := by
    intro v hmem
    have hin : v ∈ s.visits := hv ▸ List.mem_cons_of_mem _ hmem
    have hne : v.1 ≠ m := fun he => hdistinct.1 (he ▸ List.mem_map_of_mem hmem)
    rw [Function.update_of_ne hne]
    exact ⟨hi.numbered v hin, (hi.visits v hin).mono fun hm => hm.cons _⟩
  refine ⟨?_, ?_, fun n hn => ?_, ?_⟩
  · dsimp only
    split_ifs
    · exact hdistinct.2
    · exact List.nodup_cons.mpr hdistinct
  · intro v hmem
    dsimp only at hmem
    split_ifs at hmem
    · exact (houter v hmem).1
    · rcases List.mem_cons.mp hmem with rfl | hmem
      · exact hm
      · exact (houter v hmem).1
  · have hne : n ≠ m := (hm.trans_le hn).ne'
    exact (Function.update_of_ne hne _ _).trans (hi.fresh n hn)
  · intro v hmem
    dsimp only at hmem ⊢
    split_ifs at hmem
    · exact (houter v hmem).2
    · rcases List.mem_cons.mp hmem with rfl | hmem
      · rw [Function.update_self]
        exact hx
      · exact (houter v hmem).2

theorem CodecSession.Sound.step (hi : s.Sound h) (hs : codecStep s a = some s') :
    s'.Sound ((s, a) :: h) := by
  cases codecMove_of_step hs with
  | call _ he =>
    rw [he]
    exact hi.call
  | @step m k outer ok y hv hy he =>
    rw [he]
    refine hi.visit hv ?_
    rw [← hy]
    refine (broadcastApp_codecOk (hi.visits (m, k) (by simp [hv]))).mono fun h' => ?_
    rcases h' with hk | hm
    · exact ⟨_, List.mem_cons_self, by rw [installer_step hv, if_pos hk]⟩
    · exact hm.cons _
  | other he =>
    rw [he]
    refine ⟨hi.distinct, hi.numbered, hi.fresh, fun v hv => ?_⟩
    exact (hi.visits v hv).mono fun hm => hm.cons _

theorem sound_codecs_of_run (hr : Run codecStep .init h s) : s.Sound h := by
  refine hr.history_invariant (I := fun h s => s.Sound h) (g := fun _ _ => True)
    (fun _ _ _ _ hi _ hs => hi.step hs) (fun _ _ => trivial) ?_
  exact ⟨List.nodup_nil, fun _ hv => (by cases hv), fun _ _ => rfl, fun _ hv => (by cases hv)⟩

theorem destroyedCodec_some (hd : destroyedCodec s a = some m) :
    ∃ k, (m, k) ∈ s.visits ∧ k.Destroys (s.member m) := by
  cases a with
  | step ok =>
    obtain ⟨v, hv, hif⟩ := Option.bind_eq_some_iff.mp hd
    split_ifs at hif with hk
    obtain rfl := Option.some.inj hif
    exact ⟨v.2, List.mem_of_mem_head? hv, hk⟩
  | call | other => cases hd

/-- A codec that is destroyed has been set on the session by its visit. -/
theorem installed_of_destroyed (hr : Run codecStep .init h s) (hd : destroyedCodec s a = some m) :
    Installed m h := by
  obtain ⟨k, hv, hk⟩ := destroyedCodec_some hd
  exact ((sound_codecs_of_run hr).visits _ hv).of_destroys hk

/-- Nobody else sets a codec, and no visit begins inside another. -/
def Undisturbed (s : CodecSession) : CodecAction → Prop
  | .call _ => s.visits = []
  | .step _ => True
  | .other _ => False

/-- The only visit there can be has set its codec last, if it has one. -/
structure CodecSession.Lone (h : List (CodecSession × CodecAction)) (s : CodecSession) : Prop where
  sound : s.Sound h
  single : s.visits.length ≤ 1
  visits : ∀ v ∈ s.visits, v.2.CodecOk (setByOthers v.1 h = []) (s.member v.1)

theorem CodecSession.Lone.step (hi : s.Lone h) (ha : Undisturbed s a)
    (hs : codecStep s a = some s') : s'.Lone ((s, a) :: h) := by
  have hsound := hi.sound.step hs
  cases codecMove_of_step hs with
  | call _ he =>
    have hnone : s.visits = [] := ha
    have hzero : s.member s.next = .zero := hi.sound.fresh _ le_rfl
    subst he
    refine ⟨hsound, by simp [hnone], fun v hv => ?_⟩
    obtain rfl : v = (s.next, .find _) := by simpa [hnone] using hv
    exact ⟨False.elim, fun hr => by simp [hzero, MemberCodecs.zero] at hr⟩
  | @step m k outer ok y hv hy he =>
    obtain rfl : outer = [] := by simpa [hv] using hi.single
    have hnone : k.Installs ∨ setByOthers m h = [] → setByOthers m ((s, .step ok) :: h) = [] := by
      rw [setByOthers, installer_step hv, setReadCodec_step hv]
      by_cases hk : k.Installs
      · exact fun _ => by rw [if_pos hk, if_pos rfl]
      · rw [if_neg hk, if_neg hk, if_neg (by simp)]
        exact fun h' => h'.resolve_left hk
    have hnew : y.2.2.CodecOk (setByOthers m ((s, .step ok) :: h) = []) y.2.1 := by
      rw [← hy]
      exact (broadcastApp_codecOk (hi.visits (m, k) (by simp [hv]))).mono hnone
    subst he
    refine ⟨hsound, by dsimp only; split_ifs <;> simp, fun v hmem => ?_⟩
    dsimp only at hmem ⊢
    split_ifs at hmem
    · cases hmem
    · obtain rfl := List.mem_singleton.mp hmem
      rw [Function.update_self]
      exact hnew
  | other => exact ha.elim

theorem setByOthers_of_undisturbed (hr : Run codecStep .init h s) (ha : Meets Undisturbed h)
    (hd : destroyedCodec s a = some m) : setByOthers m h = [] := by
  have hlone : s.Lone h := hr.history_invariant (I := fun h s => s.Lone h)
    (fun _ _ _ _ hi ha hs => hi.step ha hs) ha
    ⟨sound_codecs_of_run .nil, Nat.zero_le 1, fun _ hv => (by cases hv)⟩
  obtain ⟨k, hv, hk⟩ := destroyedCodec_some hd
  exact (hlone.visits _ hv).of_destroys hk

/-- When `read_codec` of a member is destroyed, the session has left it exactly if others have set
another one after the visit has set it; without them it never has. -/
theorem read_codec_left_iff (hr : Run codecStep .init h s) (hd : destroyedCodec s a = some m) :
    (s.read_codec ≠ .member m ↔ ReplacedByOthers m h) ∧
      (Meets Undisturbed h → s.read_codec = .member m) := by
  have hcodec : s.read_codec = (setByOthers m h).head?.getD (.member m) := by
    rw [read_codec_of_run hr, (installed_of_destroyed hr hd).lastSet_eq]
    rfl
  rw [hcodec]
  constructor
  · rw [ReplacedByOthers]
    cases (setByOthers m h).head? with
    | none => simp
    | some c => simp
  · intro ha
    rw [setByOthers_of_undisturbed hr ha hd]
    rfl

/-- A speaker joins and hangs up. -/
theorem read_codec_left_iff_speaker : ∃ (h : List (CodecSession × CodecAction)) (s : CodecSession),
    Run codecStep .init h s ∧ destroyedCodec s (.step true) = some 0 ∧ ¬ ReplacedByOthers 0 h := by
  obtain ⟨h, s, hr, -, hv⟩ := exists_run_observing codecStep (fun _ _ => true) .init
    (.call .speaker :: List.replicate 11 (.step true))
    (fun _ s => (s.read_codec, destroyedCodec s (.step true)))
    (v := (.member 0, some 0)) rfl
  obtain ⟨hc, hd⟩ := Prod.mk.inj hv
  exact ⟨h, s, hr, hd, fun hrep => (read_codec_left_iff hr hd).1.mpr hrep hc⟩

theorem session_left_on_destroyed_codec :
    ¬ ∀ h s, Run codecStep .init h s → ∀ a m, destroyedCodec s a = some m →
      s.read_codec ≠ .member m :=
  not_forall_run (fun _ _ => true) (.call .speaker :: List.replicate 11 (.step true))
    (fun _ s => (s.read_codec, destroyedCodec s (.step true)))
    (v := (.member 0, some 0)) rfl fun _ s _ _ hv hall => by
      obtain ⟨hc, hd⟩ := Prod.mk.inj hv
      exact hall _ _ hd hc

end ModBroadcast
