import ModBroadcast.ExitVariables
import ModBroadcast.Places

namespace ModBroadcast

open Automaton

inductive Ender
  | self | other
  deriving DecidableEq

def controlWrite : ControlAction → Option ChannelWrite
  | .hangup => some .hangup
  | .leave => some .leave
  | _ => none

def SessionPc.dispatches : SessionPc → Bool
  | .listen .dtmf | .wait .dtmf => true
  | _ => false

/-- The member that the thread hangs up in `b_hangup_listener_session_by_uuid`, and why. -/
def ApiPc.hangsUp : ApiPc → Option (ℕ × KickReason)
  | .kick _ m .hangup | .kickAll (m :: _) => some (m, .kicked)
  | .destroy _ _ (.hangup _ (m :: _)) => some (m, .destroyed)
  | _ => none

def HousekeepingPc.hangsUp : HousekeepingPc → Option (ℕ × KickReason)
  | .hangup (m :: _) => some (m, .wedgeTimeout)
  | _ => none

def hangupReason (m : ℕ) (c : Choice) (x : Option (ℕ × KickReason)) : Option ChannelWrite :=
  (x.filter fun x => x.1 = m ∧ c ≠ .fail).map fun x => .kick x.2

def Room.channelWrite (s : Room) (m : ℕ) : RoomAction → Option ChannelWrite
  | .session n (.dtmf act) => if n = m ∧ (s.session m).dispatches then controlWrite act else none
  | .api u c => hangupReason m c (s.api u).hangsUp
  | .housekeeping c => hangupReason m c s.housekeeping.hangsUp
  | _ => none

def SessionPc.exits : SessionPc → Bool
  | .exitVariables | .listenerVariables => true
  | _ => false

def Room.exits (s : Room) (m : ℕ) : RoomAction → Bool
  | .session n _ => n = m ∧ (s.session m).exits
  | _ => false

def Room.refuses (p : RoomProfile) (s : Room) (m : ℕ) : RoomAction → Bool
  | .session n _ =>
    match s.session m with
    | .add k => n = m ∧ (listenerAdd p s.b m k).2.resume (fun _ => false) not
    | _ => false
  | _ => false

def Room.channelStep (p : RoomProfile) (s : Room) (m join_us : ℕ) (v : ChannelVariables)
    (a : RoomAction) : ChannelVariables :=
  if s.exits m a then memberSetExitVariables s.b m join_us v
  else if s.refuses p m a then { v with broadcast_left_reason := "error" }
  else (s.channelWrite m a).elim v v.write

def joinTime (m : ℕ) : List (Room × RoomAction) → ℕ
  | [] => 0
  | (s, .join n _) :: h => if n = m then s.b.clock else joinTime m h
  | _ :: h => joinTime m h

/-- The channel of `m` after the steps of `h`, none of its variables set before. -/
def channelOf (p : RoomProfile) (m : ℕ) : List (Room × RoomAction) → ChannelVariables
  | [] => .unset
  | (s, a) :: h => s.channelStep p m (joinTime m h) (channelOf p m h) a

def channelWrites (m : ℕ) : List (Room × RoomAction) → List ChannelWrite
  | [] => []
  | (s, a) :: h => channelWrites m h ++ (s.channelWrite m a).toList

/-- The session has not left its loops; a promotion takes it from one to the other. -/
def SessionPc.within (b : Broadcast) (m : ℕ) : SessionPc → Bool
  | .listen .stop | .listen .leave | .decide => (b.member m).mflags.roleTransitionToSpeaker
  | .wait k => k = .enter ∨ k = .loop ∨ k = .dtmf ∨ k = .still
  | .lower | .exitVariables | .listenerVariables | .unlink | .clear _ | .cleanup | .release
  | .returned => false
  | _ => true

def SessionPc.goesOn (b : Broadcast) (m : ℕ) : SessionPc → Bool
  | .listen .stop | .listen .leave => true
  | .listen _ => (b.member m).mflags.running ∧ ¬ (b.member m).mflags.kicked ∨
    (b.member m).mflags.roleTransitionToSpeaker
  | .add _ => !(b.member m).mflags.kicked
  | .speak _ (.fire _) | .speak _ (.stop _ _) | .speak _ (.since _) => b.current_speaker = some m
  | .wait _ => (b.member m).mflags.running ∧ b.current_speaker = some m
  | _ => true

def Room.stays (s : Room) (m : ℕ) : Bool :=
  (s.session m).within s.b m ∧ (s.session m).goesOn s.b m ∧ (s.b.member m).ready ∧ ¬ s.b.destroyed

def SessionPc.installs : SessionPc → Bool
  | .speak _ .install | .wait (.clear .install) => true
  | _ => false

/-- The step takes something from `m` that its loops test: a kick, the wedge detector and a destroy
take its flags, `clear_speaker` and another speaker take its place. -/
def Room.removes (s : Room) (m : ℕ) : RoomAction → Bool
  | .api u c =>
    match s.api u with
    | .kick _ n .mark => n = m
    | .start .kickAll => m ∈ uuidSnapshot s.b c
    | .clearSpeaker .install => s.b.current_speaker = some m
    | .destroy _ _ .mark => true
    | _ => false
  | .housekeeping (.pick l) => s.housekeeping = .mark ∧ m ∈ wedged s.b l
  | .session n _ => n ≠ m ∧ (s.session n).installs ∧ s.b.current_speaker = some m
  | _ => false

def Room.ends (s : Room) (m : ℕ) (a : RoomAction) : Option Ender :=
  match s.channelWrite m a with
  | some w => some (if w.own then .self else .other)
  | none => if a = .hangup m then some .self else if s.removes m a then some .other else none

/-- A listener that a pending promotion has kept from seeing that it is kicked sees it when the
promotion is taken back. -/
def Room.endsLate (s t : Room) (m : ℕ) : Option Ender :=
  match t.session m with
  | .listen _ =>
    if (s.b.member m).mflags.roleTransitionToSpeaker ∧
        ¬ (t.b.member m).mflags.roleTransitionToSpeaker ∧ (t.b.member m).mflags.kicked then
      some .other
    else none
  | _ => none

/-- Who has ended the stay of `m` that is over after the steps of `h`: the first act since it went
on for the last time, or the kick that this did not heed. -/
def endedBy (m : ℕ) : List (Room × RoomAction) → Room → Option Ender
  | [], _ => none
  | (s, a) :: h, t =>
    if t.stays m then none
    else (endedBy m h s).or
      (if (s.session m).within s.b m then (s.ends m a).or (s.endsLate t m) else none)

variable {p : RoomProfile} {m : ℕ} {s t : Room} {a : RoomAction} {h : List (Room × RoomAction)}
  {x : Visit}

/-- The exit variables of `m` after the steps of `h` agree with who has ended its stay. -/
structure Attributed (p : RoomProfile) (m : ℕ) (h : List (Room × RoomAction)) (s : Room) :
    Prop where
  removed : endedBy m h s = some .other → (channelOf p m h).broadcast_ended_by_self ≠ "true"
  own : endedBy m h s = some .self → (channelOf p m h).broadcast_kicked_by = ""

/-- What has been written on the channel, and the flags, leave the variables to show a removal:
there is a trace of a kick, the wedge detector or a destroy, and none of an own control. -/
def Visit.ShowsRemoval (x : Visit) : Prop :=
  x.writes.any ChannelWrite.own = false ∧
    (x.writes ≠ [] ∨ x.b.destroyed = true ∨ (x.b.member x.m).mflags.kicked = true)

/-- They leave the variables to show no removal: an own control has come last, or nothing has been
written and there is no flag. -/
def Visit.ShowsNone (x : Visit) : Prop :=
  (∀ w ∈ x.writes.getLast?, w.own = true) ∧
    (x.writes = [] → x.b.destroyed = false ∧ (x.b.member x.m).mflags.kicked = false)

def exitVisit (m : ℕ) (h : List (Room × RoomAction)) (s : Room) : Visit :=
  ⟨channelWrites m h, s.b, m, joinTime m h⟩

/-- When `m` exits, what there is to see on its channel and in its flags is what has ended the
stay. -/
def ExitShows (m : ℕ) (h : List (Room × RoomAction)) (s : Room) (a : RoomAction) : Prop :=
  s.exits m a = true →
    (endedBy m h s = some .other → (exitVisit m h s).ShowsRemoval) ∧
    (endedBy m h s = some .self → (exitVisit m h s).ShowsNone)

instance : Decidable x.ShowsRemoval := inferInstanceAs (Decidable (_ ∧ _))

instance : Decidable x.ShowsNone := inferInstanceAs (Decidable (_ ∧ _))

instance : Decidable (ExitShows m h s a) := inferInstanceAs (Decidable (_ → _))

theorem leftReason_ne_hangup_iff {b : Broadcast} :
    leftReason b m ≠ "hangup" ↔ b.destroyed = true ∨ (b.member m).mflags.kicked = true := by
  unfold leftReason
  split_ifs with hd hk <;> simp_all

theorem kickReason_text (r : KickReason) : kickedBy r.text ≠ "" ∧ endedBySelf r.text = "false" := by
  cases r <;> exact ⟨by decide, by decide⟩

theorem own_reason {w : ChannelWrite} (hw : w.own = true) :
    kickedBy w.reason = "" ∧ endedBySelf w.reason = "true" := by
  cases w with
  | hangup | leave => exact ⟨by decide, by decide⟩
  | kick r => cases hw

theorem foreign_reason {w : ChannelWrite} (hw : w.own = false) :
    kickedBy w.reason ≠ "" ∧ endedBySelf w.reason = "false" := by
  cases w with
  | hangup | leave => cases hw
  | kick r => exact kickReason_text r

theorem leftReason_exit (b : Broadcast) (m : ℕ) :
    (kickedBy (leftReason b m) = "" ↔ leftReason b m = "hangup") ∧
      (endedBySelf (leftReason b m) = "true" ↔ leftReason b m = "hangup") := by
  unfold leftReason
  split_ifs <;> exact ⟨by decide, by decide⟩

theorem Visit.reason_nil (hw : x.writes = []) : x.reason = leftReason x.b x.m := by
  simp [Visit.reason, hw]

theorem Visit.reason_last {w : ChannelWrite} (hw : x.writes.getLast? = some w) :
    x.reason = w.reason := by
  simp [Visit.reason, hw]

theorem exit_ended_ne_true_iff :
    (ChannelVariables.unset.exit x).broadcast_ended_by_self ≠ "true" ↔ x.ShowsRemoval := by
  rw [first_ended_by_self]
  cases hown : x.own with
  | true =>
    rw [if_pos rfl]
    exact ⟨fun h => absurd rfl h, fun h => absurd (h.1.symm.trans hown) Bool.false_ne_true⟩
  | false =>
    rw [if_neg Bool.false_ne_true]
    cases hlast : x.writes.getLast? with
    | none =>
      have hnil := List.getLast?_eq_none_iff.mp hlast
      rw [Visit.reason_nil hnil, Ne, (leftReason_exit ..).2, ← Ne, leftReason_ne_hangup_iff]
      exact ⟨fun h => ⟨hown, .inr h⟩, fun h => h.2.resolve_left fun hne => hne hnil⟩
    | some w =>
      have hmem := List.mem_of_getLast? hlast
      have hw : w.own = false := by
        have := List.any_eq_false.mp hown w hmem
        rwa [Bool.not_eq_true] at this
      rw [Visit.reason_last hlast, (foreign_reason hw).2]
      exact ⟨fun _ => ⟨hown, .inl (List.ne_nil_of_mem hmem)⟩, fun _ => by decide⟩

theorem exit_kicked_eq_empty_iff :
    (ChannelVariables.unset.exit x).broadcast_kicked_by = "" ↔ x.ShowsNone := by
  rw [first_kicked_by, Visit.ShowsNone]
  cases hlast : x.writes.getLast? with
  | none =>
    have hnil := List.getLast?_eq_none_iff.mp hlast
    rw [Visit.reason_nil hnil, (leftReason_exit ..).1, ← not_iff_not, ← Ne,
      leftReason_ne_hangup_iff]
    simp [hnil, or_iff_not_imp_left]
  | some w =>
    have hne := List.ne_nil_of_mem (List.mem_of_getLast? hlast)
    rw [Visit.reason_last hlast]
    cases hw : w.own with
    | true => simp [hne, hw, (own_reason hw).1]
    | false => simp [hw, (foreign_reason hw).1]

def SessionPc.gone : SessionPc → Bool
  | .unlink | .clear _ | .cleanup | .release | .returned => true
  | _ => false

/-- The session has been in one of its loops and has not set its exit variables. -/
def SessionPc.started : SessionPc → Bool
  | .listen _ | .decide | .clearFlag | .raise | .speak true _ | .wait _ | .lower | .exitVariables
  | .listenerVariables => true
  | _ => false

theorem SessionPc.Next.gone {pc pc' : SessionPc} (hn : pc.Next pc') (hg : pc.gone = true) :
    pc'.gone = true := by
  cases pc with
  | unlink | cleanup | release =>
    obtain rfl := hn
    rfl
  | clear k => obtain ⟨k', rfl⟩ | rfl := hn <;> rfl
  | returned => exact hn.elim
  | _ => cases hg

theorem SessionPc.Next.exits {pc pc' : SessionPc} (hn : pc.Next pc') (hx : pc.exits = true) :
    pc'.gone = true := by
  cases pc with
  | exitVariables | listenerVariables =>
    obtain rfl := hn
    rfl
  | _ => cases hx

/-- From its loops a session goes on to the exit variables. -/
theorem SessionPc.Next.started {pc pc' : SessionPc} (hn : pc.Next pc') (hs : pc.started = true)
    (hx : pc.exits = false) : pc'.started = true := by
  cases pc with
  | listen k => obtain ⟨k', rfl⟩ | rfl := hn <;> rfl
  | decide => obtain rfl | rfl := hn <;> rfl
  | clearFlag | raise | lower =>
    obtain rfl := hn
    rfl
  | wait k => obtain ⟨k', rfl⟩ | rfl := hn <;> rfl
  | speak promoted k =>
    cases promoted with
    | true => obtain ⟨k', rfl, -⟩ | rfl | ⟨-, rfl⟩ := hn <;> rfl
    | false => cases hs
  | exitVariables | listenerVariables => cases hx
  | _ => cases hs

theorem started_of_dispatches {pc : SessionPc} (hd : pc.dispatches = true) :
    pc.started = true := by
  cases pc with
  | listen | wait => rfl
  | _ => cases hd

theorem not_within_of_gone {b : Broadcast} {pc : SessionPc} (hg : pc.gone = true) :
    pc.within b m = false := by
  cases pc <;> first | rfl | cases hg

theorem not_started_of_gone {pc : SessionPc} (hg : pc.gone = true) : pc.started = false := by
  cases pc <;> first | rfl | cases hg

theorem hangupReason_own {c : Choice} {y : Option (ℕ × KickReason)} {w : ChannelWrite}
    (h : hangupReason m c y = some w) : w.own = false := by
  obtain ⟨x, -, rfl⟩ := Option.map_eq_some_iff.mp h
  rfl

/-- Only the own session writes a control, at a place where it takes the digits. -/
theorem channelWrite_own {w : ChannelWrite} (hw : s.channelWrite m a = some w)
    (ho : w.own = true) : (s.session m).dispatches = true := by
  cases a with
  | session n c =>
    cases c with
    | dtmf act =>
      simp only [Room.channelWrite] at hw
      split_ifs at hw with hd
      exact hd.2
    | _ => cases hw
  | api u c => exact absurd ((hangupReason_own hw).symm.trans ho) Bool.false_ne_true
  | housekeeping c => exact absurd ((hangupReason_own hw).symm.trans ho) Bool.false_ne_true
  | _ => cases hw

/-- Outside its loops the member has no part in what is written. -/
theorem channelWrite_foreign (hst : (s.session m).started = false) {w : ChannelWrite}
    (hw : s.channelWrite m a = some w) : w.own = false := by
  rw [← Bool.not_eq_true]
  intro ho
  have hd := started_of_dispatches (channelWrite_own hw ho)
  exact absurd (hst.symm.trans hd) Bool.false_ne_true

theorem exits_iff : s.exits m a = true ↔ (s.session m).exits = true ∧ ∃ c, a = .session m c := by
  cases a with
  | session n c =>
    rw [Room.exits, decide_eq_true_eq]
    constructor
    · rintro ⟨rfl, hx⟩
      exact ⟨hx, c, rfl⟩
    · rintro ⟨hx, c', he⟩
      exact ⟨(RoomAction.session.inj he).1, hx⟩
  | _ => simp [Room.exits]

/-- A listener is turned away at the end of its call. -/
theorem refuses_gone (hr : s.refuses p m a = true) (hs : roomStep p s a = some t) :
    (t.session m).gone = true := by
  cases a with
  | session n c =>
    rw [Room.refuses] at hr
    split at hr
    · rename_i k hpc
      rw [decide_eq_true_eq] at hr
      obtain ⟨rfl, hret⟩ := hr
      have hx := roomStep_own hs
      rw [hpc] at hx
      cases hret' : (listenerAdd p s.b n k).2 with
      | run k' => simp [hret', Progress.resume] at hret
      | ret ok =>
        cases ok with
        | true => simp [hret', Progress.resume] at hret
        | false =>
          simp only [appFunction, hret', Option.some.injEq, Prod.mk.injEq] at hx
          rw [← hx.2]
          rfl
    · cases hr
  | _ => cases hr

/-- Outside the loops of the member a step that is not its exit leaves two of the variables. -/
theorem channelStep_keeps {j : ℕ} {v : ChannelVariables} (hx : s.exits m a = false)
    (hst : (s.session m).started = false) :
    (s.channelStep p m j v a).broadcast_kicked_by = v.broadcast_kicked_by ∧
      (s.channelStep p m j v a).broadcast_ended_by_self = v.broadcast_ended_by_self := by
  rw [Room.channelStep, if_neg (by rw [hx]; exact Bool.false_ne_true)]
  split_ifs
  · exact ⟨rfl, rfl⟩
  · cases hsome : s.channelWrite m a with
    | none => exact ⟨rfl, rfl⟩
    | some w =>
      refine ⟨rfl, ?_⟩
      rw [Option.elim_some, ChannelVariables.write, channelWrite_foreign hst hsome]
      rfl

theorem endedBy_over (hs : (s.session m).within s.b m = false)
    (ht : (t.session m).within t.b m = false) : endedBy m ((s, a) :: h) t = endedBy m h s := by
  have hstays : t.stays m = false := by simp [Room.stays, ht]
  rw [endedBy, hstays, hs]
  simp

/-- Before the exit the channel holds what has been written; from there on the variables say what
the exit has shown. -/
structure ExitLedger (p : RoomProfile) (m : ℕ) (h : List (Room × RoomAction)) (s : Room) :
    Prop where
  inside : (s.session m).gone = false →
    channelOf p m h = (channelWrites m h).foldl ChannelVariables.write .unset ∧
      MeetsPast (ExitShows m) h ∧
      ((channelWrites m h).any ChannelWrite.own = true → (s.session m).started = true)
  outside : (s.session m).gone = true → (Attributed p m h s ↔ MeetsPast (ExitShows m) h)

theorem ExitLedger.init : ExitLedger p m [] Room.init where
  inside _ := ⟨rfl, trivial, (absurd · Bool.false_ne_true)⟩
  outside _ := by
    refine ⟨fun _ => trivial, fun _ => ⟨?_, ?_⟩⟩
    · rintro ⟨⟩
    · rintro ⟨⟩

theorem joinSession_fresh {b : Broadcast} {j : JoinParams} {pc : SessionPc}
    {z : Broadcast × SessionPc} (hj : joinSession p b j pc = some z) :
    pc.gone = false ∧ pc.started = false := by
  cases pc <;> first | exact ⟨rfl, rfl⟩ | cases hj

/-- A session that is past the exit stays past it. -/
theorem gone_step (hs : roomStep p s a = some t) (hg : (s.session m).gone = true) :
    (t.session m).gone = true := by
  obtain he | ⟨c, -, hx⟩ | ⟨j, -, hx⟩ := roomStep_session hs m
  · rwa [he]
  · exact (appFunction_next hx).gone hg
  · exact absurd ((joinSession_fresh hx).1.symm.trans hg) Bool.false_ne_true

/-- A session that has been in its loops goes on to the exit. -/
theorem started_step (hs : roomStep p s a = some t) (hst : (s.session m).started = true)
    (hx : s.exits m a = false) : (t.session m).started = true := by
  obtain he | ⟨c, rfl, happ⟩ | ⟨j, -, hjoin⟩ := roomStep_session hs m
  · rwa [he]
  · refine (appFunction_next happ).started hst ?_
    rw [← Bool.not_eq_true] at hx ⊢
    exact fun hpc => hx (exits_iff.mpr ⟨hpc, c, rfl⟩)
  · exact absurd ((joinSession_fresh hjoin).2.symm.trans hst) Bool.false_ne_true

theorem meetsPast_cons_iff (hx : s.exits m a = false) :
    MeetsPast (ExitShows m) ((s, a) :: h) ↔ MeetsPast (ExitShows m) h :=
  and_iff_right fun he => absurd (hx.symm.trans he) Bool.false_ne_true

/-- The exit itself. -/
theorem ExitLedger.exit (hi : ExitLedger p m h s) (hs : roomStep p s a = some t)
    (hx : s.exits m a = true) : ExitLedger p m ((s, a) :: h) t := by
  obtain ⟨hpc, c, rfl⟩ := exits_iff.mp hx
  have hgone : (t.session m).gone = true := (appFunction_next (roomStep_own hs)).exits hpc
  have hopen : (s.session m).gone = false := by
    cases hk : s.session m <;> rw [hk] at hpc <;> first | rfl | cases hpc
  have hover : (s.session m).within s.b m = false := by
    cases hk : s.session m <;> rw [hk] at hpc <;> first | rfl | cases hpc
  obtain ⟨hchannel, hpast, -⟩ := hi.inside hopen
  have hended := endedBy_over (h := h) (a := .session m c) hover (not_within_of_gone hgone)
  have hexit : channelOf p m ((s, .session m c) :: h) =
      ChannelVariables.unset.exit (exitVisit m h s) := by
    rw [channelOf, Room.channelStep, if_pos hx, hchannel]
    rfl
  refine ⟨fun hng => absurd (hgone.symm.trans hng) Bool.false_ne_true.symm, fun _ => ?_⟩
  constructor
  · rintro ⟨hremoved, hown⟩
    rw [hended, hexit] at hremoved hown
    exact ⟨fun _ => ⟨fun he => exit_ended_ne_true_iff.mp (hremoved he),
      fun he => exit_kicked_eq_empty_iff.mp (hown he)⟩, hpast⟩
  · rintro ⟨hshows, -⟩
    obtain ⟨hremoved, hown⟩ := hshows hx
    refine ⟨?_, ?_⟩ <;> rw [hended, hexit]
    · exact fun he => exit_ended_ne_true_iff.mpr (hremoved he)
    · exact fun he => exit_kicked_eq_empty_iff.mpr (hown he)

/-- After the exit two of the variables stay, and so does who has ended the stay. -/
theorem ExitLedger.after (hi : ExitLedger p m h s) (hs : roomStep p s a = some t)
    (hx : s.exits m a = false) (hg : (s.session m).gone = true) :
    ExitLedger p m ((s, a) :: h) t := by
  have hgone := gone_step hs hg
  have hended := endedBy_over (h := h) (a := a) (not_within_of_gone hg) (not_within_of_gone hgone)
  obtain ⟨hkicked, hself⟩ := channelStep_keeps (p := p) (j := joinTime m h)
    (v := channelOf p m h) hx (not_started_of_gone hg)
  refine ⟨fun hng => absurd (hgone.symm.trans hng) Bool.false_ne_true.symm, fun _ => ?_⟩
  rw [meetsPast_cons_iff hx, ← hi.outside hg]
  constructor
  · rintro ⟨hremoved, hown⟩
    rw [hended, channelOf] at hremoved hown
    exact ⟨fun he => hself ▸ hremoved he, fun he => hkicked ▸ hown he⟩
  · rintro ⟨hremoved, hown⟩
    refine ⟨?_, ?_⟩ <;> rw [hended, channelOf]
    · exact fun he => hself ▸ hremoved he
    · exact fun he => hkicked ▸ hown he

/-- A call that ends without the exit leaves the two variables empty. -/
theorem ExitLedger.without (hi : ExitLedger p m h s) (hs : roomStep p s a = some t)
    (hx : s.exits m a = false) (hopen : (s.session m).gone = false)
    (hgone : (t.session m).gone = true) : ExitLedger p m ((s, a) :: h) t := by
  obtain ⟨hchannel, hpast, hstarted⟩ := hi.inside hopen
  have hst : (s.session m).started = false := by
    rw [← Bool.not_eq_true]
    intro hst
    have ht := started_step hs hst hx
    exact absurd ((not_started_of_gone hgone).symm.trans ht) Bool.false_ne_true
  have hnone : (channelWrites m h).any ChannelWrite.own = false := by
    rw [← Bool.not_eq_true]
    exact fun ho => absurd (hst.symm.trans (hstarted ho)) Bool.false_ne_true
  obtain ⟨hkicked, hself⟩ := channelStep_keeps (p := p) (j := joinTime m h)
    (v := channelOf p m h) hx hst
  have hwritten := foldl_write .unset (channelWrites m h)
  rw [hchannel] at hkicked hself
  rw [hwritten.2.1] at hkicked
  rw [hwritten.2.2, hnone] at hself
  refine ⟨fun hng => absurd (hgone.symm.trans hng) Bool.false_ne_true.symm, fun _ => ?_⟩
  rw [meetsPast_cons_iff hx]
  refine ⟨fun _ => hpast, fun _ => ⟨fun _ => ?_, fun _ => ?_⟩⟩ <;> rw [channelOf, hchannel]
  · rw [hself]
    decide
  · exact hkicked

/-- Up to the exit the channel collects what is written. -/
theorem ExitLedger.before (hi : ExitLedger p m h s) (hs : roomStep p s a = some t)
    (hx : s.exits m a = false) (hopen : (s.session m).gone = false)
    (hopen' : (t.session m).gone = false) : ExitLedger p m ((s, a) :: h) t := by
  obtain ⟨hchannel, hpast, hstarted⟩ := hi.inside hopen
  have hrefuses : s.refuses p m a = false := by
    rw [← Bool.not_eq_true]
    exact fun hr => absurd (hopen'.symm.trans (refuses_gone hr hs)) Bool.false_ne_true
  refine ⟨fun _ => ⟨?_, (meetsPast_cons_iff hx).mpr hpast, fun ho => ?_⟩,
    fun hg => absurd (hopen'.symm.trans hg) Bool.false_ne_true⟩
  · rw [channelOf, Room.channelStep, hx, hrefuses, channelWrites, List.foldl_append, hchannel]
    cases s.channelWrite m a <;> rfl
  · rw [channelWrites, List.any_append, Bool.or_eq_true] at ho
    obtain ho | ho := ho
    · exact started_step hs (hstarted ho) hx
    · obtain ⟨w, hw, how⟩ := List.any_eq_true.mp ho
      have hd := channelWrite_own (Option.mem_toList.mp hw) how
      exact started_step hs (started_of_dispatches hd) hx

theorem ExitLedger.step (hi : ExitLedger p m h s) (hs : roomStep p s a = some t) :
    ExitLedger p m ((s, a) :: h) t := by
  cases hx : s.exits m a with
  | true => exact hi.exit hs hx
  | false =>
    cases hg : (s.session m).gone with
    | true => exact hi.after hs hx hg
    | false =>
      cases hg' : (t.session m).gone with
      | true => exact hi.without hs hx hg hg'
      | false => exact hi.before hs hx hg hg'

/-- When the call of `m` has ended, its exit variables agree with who has ended its stay exactly
when the exit of `m` has come upon what shows it. -/
theorem exit_attribution_iff (hr : Run (roomStep p) Room.init h s)
    (hret : s.session m = .returned) :
    Attributed p m h s ↔ MeetsPast (ExitShows m) h := by
  have hledger : ExitLedger p m h s := hr.history_invariant (I := ExitLedger p m)
    (g := fun _ _ => True) (fun _ _ _ _ hi _ hs => hi.step hs) (fun _ _ => trivial) .init
  exact hledger.outside (by rw [hret]; rfl)

/-- `kick_all` finds one listener, and nothing else happens to it. -/
theorem exit_attribution_kick_all : ∃ (h : List (Room × RoomAction)) (s : Room),
    Run (roomStep ⟨8, true, 16, false, false⟩) Room.init h s ∧ s.session 0 = .returned ∧
      endedBy 0 h s = some .other ∧ Attributed ⟨8, true, 16, false, false⟩ 0 h s := by
  obtain ⟨h, s, hr, -, hv⟩ :=
    exists_run_observing (roomStep ⟨8, true, 16, false, false⟩) (fun _ _ => true) Room.init
      (List.flatten [[.join 0 ⟨.listener, false, false⟩], List.replicate 9 (.session 0 .ok),
        [.call 1 .kickAll], List.replicate 3 (.api 1 .ok), List.replicate 10 (.session 0 .ok)])
      (fun h s => (s.session 0, endedBy 0 h s, decide (MeetsPast (ExitShows 0) h)))
      (v := (.returned, some .other, true)) (by decide)
  simp only [Prod.mk.injEq, decide_eq_true_eq] at hv
  obtain ⟨hret, hended, hpast⟩ := hv
  exact ⟨h, s, hr, hret, hended, (exit_attribution_iff hr hret).mpr hpast⟩

/-- `clear_speaker` takes the floor from a speaker, whose exit variables say that it has left by
itself. -/
theorem cleared_speaker_ended_by_self : ¬ ∀ (h : List (Room × RoomAction)) (s : Room),
    Run (roomStep ⟨8, true, 16, false, false⟩) Room.init h s → s.session 0 = .returned →
      Attributed ⟨8, true, 16, false, false⟩ 0 h s := by
  refine not_forall_run (fun _ _ => true)
    (List.flatten [[.join 0 ⟨.speaker, false, false⟩], List.replicate 11 (.session 0 .ok),
      [.call 1 .clearSpeaker], List.replicate 3 (.api 1 .ok), List.replicate 10 (.session 0 .ok)])
    (fun h s => (s.session 0, endedBy 0 h s,
      (channelOf ⟨8, true, 16, false, false⟩ 0 h).broadcast_ended_by_self))
    (v := (.returned, some .other, "true")) (by decide) fun h s _ _ hv hall => ?_
  simp only [Prod.mk.injEq] at hv
  obtain ⟨hret, hended, hself⟩ := hv
  exact (hall hret).removed hended hself

end ModBroadcast
