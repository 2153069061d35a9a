import ModBroadcast.ListenerList

namespace ModBroadcast

variable {p : RoomProfile} {b b' : Broadcast} {c : Choice} {m n u x id : ℕ} {s t : Room}
  {a : RoomAction}

def SessionPc.Unnumbered : SessionPc → Prop
  | .check | .nextId => True
  | pc => pc.Unlinked

def ApiPc.Resolved (b : Broadcast) : ApiPc → Prop
  | .find _ id | .findSpeaker _ id => id ≠ 0
  | .locate _ id x | .resolve _ id x | .resolveSpeaker _ id x => id ≠ 0 ∧ b.ids x = id
  | .promote x m _ | .kick x m _ | .dtmf x m => x = m ∧ b.ids m ≠ 0
  | _ => True

def IdsLeft (s : Room) : Prop := s.b.next_member_id + 1 < 2 ^ 32

/-- The ids stay as they are, or a member without one gets the next. -/
inductive IdChange (b b' : Broadcast) : Prop
  | keep (hi : b'.ids = b.ids) (hn : b'.next_member_id = b.next_member_id)
  | number (m : ℕ) (hm : b.ids m = 0)
      (hi : b'.ids = Function.update b.ids m (b.next_member_id + 1))
      (hn : b'.next_member_id = b.next_member_id + 1)

theorem IdChange.of_roster (h : b'.roster = b.roster) : IdChange b b' :=
  .keep (ids_of_roster h) (next_of_roster h)

/-- An id that is set stays. -/
theorem IdChange.stays (h : IdChange b b') (hn : b.ids n ≠ 0) : b'.ids n = b.ids n := by
  cases h with
  | keep hi _ => rw [hi]
  | number m hm hi _ =>
    rw [hi, Function.update_of_ne]
    rintro rfl
    exact hn hm

theorem modify_ids {f : Member → Member} {k : ℕ} (hf : (f (b.member m)).id = k) :
    (b.modify m f).ids = Function.update b.ids m k := by
  funext n
  by_cases hn : n = m
  · subst hn
    simp [Broadcast.ids, Broadcast.modify, hf]
  · simp [Broadcast.ids, Broadcast.modify, hn]

theorem memberNextId_eq (hleft : b.next_member_id + 1 < 2 ^ 32) :
    memberNextId b = ({ b with next_member_id := b.next_member_id + 1 }, b.next_member_id + 1) := by
  simp only [memberNextId, Nat.mod_eq_of_lt hleft]

/-- Even the counter that wraps moves. -/
theorem memberNextId_ne (b : Broadcast) : (memberNextId b).2 ≠ b.next_member_id := by
  change (b.next_member_id + 1) % 2 ^ 32 ≠ b.next_member_id
  omega

theorem listenerLink_ids_eq : (listenerLink b m).ids =
    Function.update b.ids m (if b.ids m = 0 then (memberNextId b).2 else b.ids m) := by
  funext n
  unfold Broadcast.ids
  rw [listenerLink_member]
  by_cases hn : n = m
  · subst hn
    simp
  · simp [hn]

theorem listenerLink_next : (listenerLink b m).next_member_id =
    if b.ids m = 0 then (memberNextId b).2 else b.next_member_id := by
  unfold listenerLink Broadcast.ids
  split_ifs <;> rfl

theorem listenerLink_ids (hleft : (listenerLink b m).next_member_id ≠ b.next_member_id →
      b.next_member_id + 1 < 2 ^ 32) : IdChange b (listenerLink b m) := by
  by_cases hm : b.ids m = 0
  · have hleft := hleft (by rw [listenerLink_next, if_pos hm]; exact memberNextId_ne b)
    refine .number m hm ?_ ?_
    · rw [listenerLink_ids_eq, if_pos hm, memberNextId_eq hleft]
    · rw [listenerLink_next, if_pos hm, memberNextId_eq hleft]
  · refine .keep ?_ ?_
    · rw [listenerLink_ids_eq, if_neg hm, Function.update_eq_self]
    · rw [listenerLink_next, if_neg hm]

theorem SessionRoster.ids {pc pc' : SessionPc} (h : SessionRoster p m b b' pc pc')
    (hleft : b'.next_member_id ≠ b.next_member_id → b.next_member_id + 1 < 2 ^ 32)
    (hun : pc.Unnumbered → b.ids m = 0) :
    IdChange b b' ∧ (∀ n, n ≠ m → b'.ids n = b.ids n) ∧ (pc'.Unnumbered → b'.ids m = b.ids m) := by
  have same : b'.ids = b.ids → b'.next_member_id = b.next_member_id →
      IdChange b b' ∧ (∀ n, n ≠ m → b'.ids n = b.ids n) ∧ (pc'.Unnumbered → b'.ids m = b.ids m) :=
    fun hi hn => ⟨.keep hi hn, fun n _ => congrFun hi n, fun _ => congrFun hi m⟩
  cases h with
  | prepare hb =>
    refine same ?_ (by rw [hb]; rfl)
    rw [hb, memberPrepare, modify_ids (k := 0) rfl, ← hun trivial, Function.update_eq_self]
  | number hb =>
    have hleft := hleft (by rw [hb]; exact memberNextId_ne b)
    rw [memberNextId_eq hleft] at hb
    have hids : b'.ids = Function.update b.ids m (b.next_member_id + 1) := by
      rw [hb]
      exact modify_ids rfl
    refine ⟨.number m (hun trivial) hids (by rw [hb]; rfl), fun n hn => ?_, fun hu => hu.elim⟩
    rw [hids, Function.update_of_ne hn]
  | link hb =>
    subst hb
    refine ⟨listenerLink_ids hleft, fun n hn => ?_, fun hu => hu.elim⟩
    rw [listenerLink_ids_eq, Function.update_of_ne hn]
  | commit _ hr => exact same (ids_of_roster hr) (next_of_roster hr)
  | lower hb =>
    refine same ?_ (by rw [hb]; rfl)
    rw [hb, Broadcast.modifyFlags, modify_ids (k := b.ids m) rfl, Function.update_eq_self]
  | unlink hb =>
    have hdel := listenerDel_roster (p := p) (b := b) (m := m)
    rw [← hb] at hdel
    split_ifs at hdel
    · exact same ((ids_of_roster hdel).trans rfl) ((next_of_roster hdel).trans rfl)
    · exact same (ids_of_roster hdel) (next_of_roster hdel)
  | keep _ hr => exact same (ids_of_roster hr) (next_of_roster hr)

/-- A promotion links a member that has its id. -/
theorem ApiRoster.ids {pc pc' : ApiPc} (h : ApiRoster p b b' pc pc') (hr : pc.Resolved b) :
    b'.ids = b.ids ∧ b'.next_member_id = b.next_member_id := by
  cases h with
  | unlink _ hb => exact hb ▸ ⟨rfl, rfl⟩
  | @raise _ m hb | @drop _ m hb =>
    refine ⟨?_, by rw [hb]; rfl⟩
    rw [hb, Broadcast.modifyFlags, modify_ids (k := b.ids m) rfl, Function.update_eq_self]
  | link _ hb =>
    rw [hb]
    constructor
    · rw [listenerLink_ids_eq, if_neg hr.2, Function.update_eq_self]
    · rw [listenerLink_next, if_neg hr.2]
  | keep _ _ hr => exact ⟨ids_of_roster hr, next_of_roster hr⟩

theorem findListener_id (h : findListener b id = some m) : b.ids m = id ∧ m ∈ b.listeners := by
  have hid := List.find?_some h
  exact ⟨of_decide_eq_true hid, List.mem_of_find?_eq_some h⟩

theorem findSpeaker_id (h : findSpeaker b id = some m) :
    b.ids m = id ∧ b.current_speaker = some m := by
  unfold findSpeaker at h
  obtain ⟨hcur, hid⟩ := Option.filter_eq_some_iff.mp h
  exact ⟨of_decide_eq_true hid, hcur⟩

/-- A second lookup under the same id finds the same member. -/
theorem apiDispatch_resolved {pc pc' : ApiPc} (h : apiDispatch p b c pc = some (b', pc'))
    (hr : pc.Resolved b) (hu : ∀ m n, b.ids m = b.ids n → b.ids m ≠ 0 → m = n) :
    pc'.Resolved b := by
  have begin_resolved : ∀ k : MemberCommand, ∀ {x m id : ℕ}, id ≠ 0 → b.ids x = id → b.ids m = id →
      (k.begin x m).Resolved b := by
    intro k x m id hid hx hm
    have hxm : x = m := hu x m (hx.trans hm.symm) (hx ▸ hid)
    cases k <;> exact ⟨hxm, hm ▸ hid⟩
  cases apiDispatch_cases h with
  | look hid => exact hid
  | find hx => exact ⟨hr, (findListener_id hx).1⟩
  | findSpeaker hx => exact ⟨hr, (findSpeaker_id hx).1⟩
  | findNone | locate | resolveNone | promote | kick => exact hr
  | resolve hn hpc =>
    rw [hpc]
    exact begin_resolved _ hr.1 hr.2 (findListener_id hn).1
  | resolveSpeaker hn hpc =>
    rw [hpc]
    exact begin_resolved _ hr.1 hr.2 (findSpeaker_id hn).1
  | _ => trivial

theorem ApiPc.Resolved.change {pc : ApiPc} (hr : pc.Resolved b) (h : IdChange b b') :
    pc.Resolved b' := by
  cases pc with
  | locate k id x | resolve k id x | resolveSpeaker k id x =>
    obtain ⟨hid, hx⟩ := hr
    exact ⟨hid, (h.stays (by rwa [hx])).trans hx⟩
  | promote x m k | kick x m k | dtmf x m =>
    obtain ⟨hx, hm⟩ := hr
    exact ⟨hx, by rwa [h.stays hm]⟩
  | _ => exact hr

/-- The ids are unique, those that are not yet given are 0, and the API threads have
found the members they look for. -/
structure Room.IdSound (s : Room) : Prop where
  unique : ∀ m n, s.b.ids m = s.b.ids n → s.b.ids m ≠ 0 → m = n
  bound : ∀ m, s.b.ids m ≤ s.b.next_member_id
  unset : ∀ m, (s.session m).Unnumbered → s.b.ids m = 0
  resolved : ∀ u, (s.api u).Resolved s.b

theorem Room.IdSound.init : Room.init.IdSound := by
  refine ⟨fun _ _ _ hm => absurd rfl hm, fun _ => Nat.le_refl 0, fun _ _ => rfl, fun _ => trivial⟩

theorem SessionPc.Next.numbered {pc pc' : SessionPc} (hn : pc.Next pc') (hu : pc'.Unnumbered) :
    pc.Unnumbered := by
  cases pc with
  | outside | created | returned => exact hn.elim
  | record | recordFailed | pin | accept | prepare | check | nextId => trivial
  | running | lower | exitVariables | clearFlag | raise | listenerVariables | unlink | cleanup
  | release =>
    obtain rfl := hn
    exact absurd hu id
  | add k =>
    cases k with
    | destroyed | locked | link => trivial
    | stats | running =>
      obtain rfl := hn
      exact absurd hu id
  | speak promoted k =>
    rcases hn with ⟨k', rfl, -⟩ | rfl | ⟨-, rfl⟩
    · exact absurd hu id
    · exact absurd hu id
    · cases promoted <;> exact absurd hu id
  | decide => rcases hn with rfl | rfl <;> exact absurd hu id
  | wait | listen | clear => rcases hn with ⟨k', rfl⟩ | rfl <;> exact absurd hu id

theorem Room.IdSound.change (hi : s.IdSound) (h : IdChange s.b t.b) :
    (∀ m n, t.b.ids m = t.b.ids n → t.b.ids m ≠ 0 → m = n) ∧
      ∀ m, t.b.ids m ≤ t.b.next_member_id := by
  cases h with
  | keep hids hnext =>
    rw [hids, hnext]
    exact ⟨hi.unique, hi.bound⟩
  | number k hk hids hnext =>
    have hnew : ∀ n, n ≠ k → t.b.ids n = s.b.ids n ∧ s.b.ids n ≠ s.b.next_member_id + 1 := by
      intro n hn
      rw [hids, Function.update_of_ne hn]
      have hle := hi.bound n
      exact ⟨rfl, by omega⟩
    have hself : t.b.ids k = s.b.next_member_id + 1 := by rw [hids, Function.update_self]
    constructor
    · intro m n hmn hm
      by_cases hmk : m = k
      · by_cases hnk : n = k
        · rw [hmk, hnk]
        · rw [hmk, hself, (hnew n hnk).1] at hmn
          exact absurd hmn.symm (hnew n hnk).2
      · rw [(hnew m hmk).1] at hmn hm
        by_cases hnk : n = k
        · rw [hnk, hself] at hmn
          exact absurd hmn (hnew m hmk).2
        · rw [(hnew n hnk).1] at hmn
          exact hi.unique m n hmn hm
    · intro m
      rw [hnext]
      by_cases hmk : m = k
      · exact Nat.le_of_eq ((congrArg t.b.ids hmk).trans hself)
      · rw [(hnew m hmk).1]
        exact Nat.le_succ_of_le (hi.bound m)

theorem Room.IdSound.of_step (hi : s.IdSound)
    (hleft : t.b.next_member_id ≠ s.b.next_member_id → IdsLeft s)
    (hs : roomStep p s a = some t) : IdChange s.b t.b ∧
      ∀ m, (t.session m).Unnumbered → t.b.ids m = s.b.ids m ∧ (s.session m).Unnumbered := by
  have same : ∀ {m}, t.session m = s.session m → t.b.ids m = s.b.ids m →
      (t.session m).Unnumbered → t.b.ids m = s.b.ids m ∧ (s.session m).Unnumbered :=
    fun hs h hu => ⟨h, hs ▸ hu⟩
  cases roomStep_roster hs with
  | @session m _ h hn hsess ha =>
    obtain ⟨hc, hother, hown⟩ := h.ids hleft (hi.unset m)
    refine ⟨hc, fun n hu => ?_⟩
    by_cases hnm : n = m
    · subst hnm
      exact ⟨hown hu, hn.numbered hu⟩
    · exact same (hsess n hnm) (hother n hnm) hu
  | @api u _ h hsess ha =>
    obtain ⟨hids, hnext⟩ := h.ids (hi.resolved u)
    exact ⟨.keep hids hnext, fun m => same (by rw [hsess]) (by rw [hids])⟩
  | @join m _ hr hn hn' hsess ha =>
    refine ⟨.of_roster hr, fun n hu => ?_⟩
    by_cases hnm : n = m
    · subst hnm
      refine ⟨by rw [ids_of_roster hr], ?_⟩
      rcases hn with hn | hn <;> rw [hn] <;> trivial
    · exact same (hsess n hnm) (by rw [ids_of_roster hr]) hu
  | enter hr hsess =>
    exact ⟨.of_roster hr, fun m => same (by rw [hsess]) (by rw [ids_of_roster hr])⟩
  | keep hr hsess =>
    exact ⟨.of_roster hr, fun m => same (by rw [hsess]) (by rw [ids_of_roster hr])⟩

/-- Only a step that hands out an id needs one. -/
theorem Room.IdSound.step (hi : s.IdSound)
    (hleft : t.b.next_member_id ≠ s.b.next_member_id → IdsLeft s)
    (hs : roomStep p s a = some t) : t.IdSound := by
  obtain ⟨hchange, hunset⟩ := hi.of_step hleft hs
  obtain ⟨hunique, hbound⟩ := hi.change hchange
  refine ⟨hunique, hbound, fun m hu => ?_, fun u => ?_⟩
  · obtain ⟨hids, hbefore⟩ := hunset m hu
    rw [hids]
    exact hi.unset m hbefore
  · rcases roomStep_api hs u with h | ⟨c, rfl, h⟩ | ⟨-, ⟨k, -, h⟩ | ⟨-, h⟩⟩
    · rw [h]
      exact (hi.resolved u).change hchange
    · exact (apiDispatch_resolved h (hi.resolved u) hi.unique).change hchange
    · rw [h]
      trivial
    · rw [h]
      trivial

end ModBroadcast
