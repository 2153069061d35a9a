import ModBroadcast.Roster

namespace ModBroadcast

open Automaton

variable {p : RoomProfile} {b b' : Broadcast} {c : Choice} {m n u v : ℕ} {s t : Room}
  {a : RoomAction} {h : List (Room × RoomAction)}

def SessionPc.Unlinked : SessionPc → Prop
  | .outside | .created | .record .. | .recordFailed _ | .pin _ | .accept _ | .prepare _
  | .add .destroyed | .add .locked | .add .link => True
  | _ => False

theorem SessionPc.MayBeListed.linked {pc : SessionPc} (hl : pc.MayBeListed) : ¬ pc.Unlinked := by
  cases pc with
  | add k => cases k <;> first | exact id | exact absurd hl id
  | _ => first | exact id | exact absurd hl id

theorem SessionPc.Next.linked {pc pc' : SessionPc} (hn : pc.Next pc') (hl : ¬ pc.Unlinked) :
    ¬ pc'.Unlinked := by
  cases pc with
  | outside | created | record | recordFailed | pin | accept | prepare => exact absurd trivial hl
  | add k =>
    cases k with
    | destroyed | locked | link => exact absurd trivial hl
    | stats | running =>
      obtain rfl := hn
      exact id
  | speak promoted k =>
    rcases hn with ⟨k', rfl, -⟩ | rfl | ⟨-, rfl⟩
    · exact id
    · exact id
    · cases promoted <;> exact id
  | check | decide =>
    rcases hn with rfl | rfl <;> exact id
  | wait | listen | clear =>
    rcases hn with ⟨k', rfl⟩ | rfl <;> exact id
  | returned => exact hn.elim
  | _ =>
    obtain rfl := hn
    exact id

theorem modifyFlags_transitions (w : Bool) :
    (b.modifyFlags m fun f => { f with roleTransitionToSpeaker := w }).transitions =
      Function.update b.transitions m w := by
  funext n
  by_cases hn : n = m
  · subst hn
    simp [Broadcast.transitions, Broadcast.modifyFlags, Broadcast.modify]
  · simp [Broadcast.transitions, Broadcast.modifyFlags, Broadcast.modify, hn]

theorem memberPrepare_transitions (role : MemberRole) (ghost : Bool) :
    (memberPrepare b m role ghost).transitions = Function.update b.transitions m false := by
  funext n
  by_cases hn : n = m
  · subst hn
    simp [Broadcast.transitions, memberPrepare, Broadcast.modify, Member.zero]
  · simp [Broadcast.transitions, memberPrepare, Broadcast.modify, hn]

theorem listenerDel_list (hn : b.listeners.Nodup) :
    (∀ n, n ∈ (listenerDel p b m).listeners ↔ n ≠ m ∧ n ∈ b.listeners) ∧
      (listenerDel p b m).listeners.Nodup ∧ (listenerDel p b m).transitions = b.transitions := by
  have hdel := listenerDel_roster (p := p) (b := b) (m := m)
  split_ifs at hdel with hm
  · have hl : (listenerDel p b m).listeners = b.listeners.erase m := listeners_of_roster hdel
    rw [hl]
    exact ⟨fun n => hn.mem_erase_iff, hn.erase m, (transitions_of_roster hdel).trans rfl⟩
  · rw [listeners_of_roster hdel]
    refine ⟨fun n => ⟨fun hmem => ⟨?_, hmem⟩, fun h => h.2⟩, hn, transitions_of_roster hdel⟩
    rintro rfl
    exact hm hmem

/-- The list, the flags and the requests for promotions agree.  A member that a request
has taken out is not linked, and no other request has taken it out. -/
structure Room.LinkSound (s : Room) : Prop where
  nodup : s.b.listeners.Nodup
  linked : ∀ m ∈ s.b.listeners, ¬ (s.session m).Unlinked
  flagged : ∀ m, s.b.transitions m = true → m ∉ s.b.listeners ∧ ¬ (s.session m).Unlinked
  moved : ∀ u m, (s.api u).Moves m → m ∉ s.b.listeners ∧ ¬ (s.session m).Unlinked
  alone : ∀ u v m, (s.api u).Moves m → (s.api v).Moves m → u = v
  lowered : ∀ u m, (s.api u).PutsBack m → s.b.transitions m = false

/-- The list, the flags and the places of the threads agree. -/
structure Room.ListSound (s : Room) : Prop where
  nodup : s.b.listeners.Nodup
  listed : ∀ m ∈ s.b.listeners, (s.session m).MayBeListed
  flagged : ∀ m, s.b.transitions m = true → m ∉ s.b.listeners ∧ ¬ (s.session m).Unlinked
  moved : ∀ u m, (s.api u).Moves m → m ∉ s.b.listeners ∧ ¬ (s.session m).Unlinked
  alone : ∀ u v m, (s.api u).Moves m → (s.api v).Moves m → u = v
  lowered : ∀ u m, (s.api u).PutsBack m → s.b.transitions m = false

/-- The rollback of a promotion links the member only while its session is at a place
where it may be listed. -/
def RollbackInTime (p : RoomProfile) (s : Room) (a : RoomAction) : Prop :=
  ∀ u c x m, a = .api u c → s.api u = .promote x m (.add .link) →
    s.b.listener_count < p.max_listeners → (s.session m).MayBeListed

theorem Room.LinkSound.init : Room.init.LinkSound where
  nodup := List.nodup_nil
  linked m hm := by cases hm
  flagged m hm := by cases hm
  moved u m hm := hm.elim
  alone u v m hm := hm.elim
  lowered u m hm := hm.elim

/-- What a step of the session of `m`, or its beginning, has to keep. -/
theorem Room.LinkSound.of_session (hi : s.LinkSound) (hs : ∀ n, n ≠ m → t.session n = s.session n)
    (ha : t.api = s.api) (hown : ¬ (s.session m).Unlinked → ¬ (t.session m).Unlinked)
    (hnodup : t.b.listeners.Nodup) (hnew : m ∈ t.b.listeners → ¬ (t.session m).Unlinked)
    (hin : ∀ n, n ≠ m → n ∈ t.b.listeners → n ∈ s.b.listeners)
    (hout : m ∉ s.b.listeners → ¬ (s.session m).Unlinked → m ∉ t.b.listeners)
    (hflag : ∀ n, t.b.transitions n = true → s.b.transitions n = true) : t.LinkSound := by
  have away : ∀ n, n ∉ s.b.listeners ∧ ¬ (s.session n).Unlinked →
      n ∉ t.b.listeners ∧ ¬ (t.session n).Unlinked := by
    rintro n ⟨hn, hlinked⟩
    by_cases hnm : n = m
    · subst hnm
      exact ⟨hout hn hlinked, hown hlinked⟩
    · exact ⟨fun hmem => hn (hin n hnm hmem), by rwa [hs n hnm]⟩
  refine ⟨hnodup, fun n hn => ?_, fun n hn => away n (hi.flagged n (hflag n hn)), fun u n hn => ?_,
    by rw [ha]; exact hi.alone, fun u n hn => ?_⟩
  · by_cases hnm : n = m
    · subst hnm
      exact hnew hn
    · rw [hs n hnm]
      exact hi.linked n (hin n hnm hn)
  · rw [ha] at hn
    exact away n (hi.moved u n hn)
  · rw [ha] at hn
    by_contra hf
    have hflagged := hflag n (by simpa using hf)
    rw [hi.lowered u n hn] at hflagged
    cases hflagged

/-- What a step of the API thread `u` has to keep. -/
theorem Room.LinkSound.of_api (hi : s.LinkSound) (hs : t.session = s.session)
    (ha : ∀ v, v ≠ u → t.api v = s.api v) (hnodup : t.b.listeners.Nodup)
    (hlinked : ∀ n ∈ t.b.listeners, ¬ (s.session n).Unlinked)
    (hflag : ∀ n, t.b.transitions n = true → n ∉ t.b.listeners ∧ ¬ (s.session n).Unlinked)
    (hown : ∀ n, (t.api u).Moves n → (n ∉ t.b.listeners ∧ ¬ (s.session n).Unlinked) ∧
      ∀ v, v ≠ u → ¬ (s.api v).Moves n)
    (hlow : ∀ n, (t.api u).PutsBack n → t.b.transitions n = false)
    (hother : ∀ v n, v ≠ u → (s.api v).Moves n → n ∉ t.b.listeners)
    (hstill : ∀ v n, v ≠ u → (s.api v).PutsBack n → t.b.transitions n = false) : t.LinkSound := by
  refine ⟨hnodup, by rw [hs]; exact hlinked, by rw [hs]; exact hflag, fun v n hm => ?_,
    fun v w n hm hm' => ?_, fun v n hm => ?_⟩
  · rw [hs]
    by_cases hvu : v = u
    · subst hvu
      exact (hown n hm).1
    · rw [ha v hvu] at hm
      exact ⟨hother v n hvu hm, (hi.moved v n hm).2⟩
  · by_cases hvu : v = u
    · by_cases hwu : w = u
      · rw [hvu, hwu]
      · rw [ha w hwu] at hm'
        subst hvu
        exact absurd hm' ((hown n hm).2 w hwu)
    · rw [ha v hvu] at hm
      by_cases hwu : w = u
      · subst hwu
        exact absurd hm ((hown n hm').2 v hvu)
      · rw [ha w hwu] at hm'
        exact hi.alone v w n hm hm'
  · by_cases hvu : v = u
    · subst hvu
      exact hlow n hm
    · rw [ha v hvu] at hm
      exact hstill v n hvu hm

/-- The API thread `u` leaves the list as it is and raises the flag of no member but the
one that it has taken off. -/
theorem Room.LinkSound.of_flags (hi : s.LinkSound) (hs : t.session = s.session)
    (ha : ∀ v, v ≠ u → t.api v = s.api v) (hl : t.b.listeners = s.b.listeners)
    (hmoves : ∀ n, (t.api u).Moves n → (s.api u).Moves n)
    (hflag : ∀ n, t.b.transitions n = true → s.b.transitions n = true ∨ (s.api u).Moves n)
    (hlow : ∀ n, (t.api u).PutsBack n → t.b.transitions n = false) : t.LinkSound := by
  refine hi.of_api hs ha (hl ▸ hi.nodup) (fun n hn => hi.linked n (hl ▸ hn)) (fun n hn => ?_)
    (fun n hn => ?_) hlow (fun v n _ hn => hl ▸ (hi.moved v n hn).1) fun v n hv hn => ?_
  · rw [hl]
    exact (hflag n hn).elim (hi.flagged n) (hi.moved u n)
  · have hn := hmoves n hn
    exact ⟨hl ▸ hi.moved u n hn, fun v hv hm => hv (hi.alone v u n hm hn)⟩
  · -- another thread that puts `n` back has lowered the flag, and `u` does not hold `n`
    by_contra hf
    obtain hold | hm := hflag n (by simpa using hf)
    · rw [hi.lowered v n hn] at hold
      cases hold
    · exact hv (hi.alone v u n hn.moves hm)

theorem Room.LinkSound.session (hi : s.LinkSound) (hs : ∀ n, n ≠ m → t.session n = s.session n)
    (ha : t.api = s.api) (hn : (s.session m).Next (t.session m))
    (h : SessionRoster p m s.b t.b (s.session m) (t.session m)) : t.LinkSound := by
  have hlinked : ¬ (s.session m).Unlinked → ¬ (t.session m).Unlinked := hn.linked
  have same : t.b.listeners = s.b.listeners →
      (∀ n, t.b.transitions n = true → s.b.transitions n = true) → t.LinkSound := by
    intro hl ht
    refine hi.of_session hs ha hlinked (hl ▸ hi.nodup) ?_ ?_ ?_ ht
    · rw [hl]
      exact fun hmem => hlinked (hi.linked m hmem)
    · rw [hl]
      exact fun n _ hmem => hmem
    · rw [hl]
      exact fun hmem _ => hmem
  generalize hpc : s.session m = pc at h
  generalize hpc' : t.session m = pc' at h
  cases h with
  | @prepare j _ hb =>
    refine same (by rw [hb]; rfl) fun n hn => ?_
    rw [hb, memberPrepare_transitions] at hn
    by_cases hnm : n = m
    · subst hnm
      simp at hn
    · rwa [Function.update_of_ne hnm] at hn
  | number hb =>
    refine same (by rw [hb]; rfl) fun n hn => ?_
    rw [hb] at hn
    by_cases hnm : n = m
    · subst hnm
      simpa [Broadcast.transitions, Broadcast.modify, memberNextId] using hn
    · simpa [Broadcast.transitions, Broadcast.modify, memberNextId, hnm] using hn
  | link hb =>
    have hun : (s.session m).Unlinked := by
      rw [hpc]
      trivial
    -- a session that has yet to link its member finds it off the list
    have hm : m ∉ s.b.listeners := fun hm => hi.linked m hm hun
    have hl : t.b.listeners = m :: s.b.listeners := by rw [hb, listenerLink_listeners]
    refine hi.of_session hs ha hlinked ?_ (fun _ => ?_) (fun n hnm hmem => ?_)
      (fun _ hlinked => absurd hun hlinked) fun n hn => ?_
    · rw [hl]
      exact List.nodup_cons.mpr ⟨hm, hi.nodup⟩
    · rw [hpc']
      exact id
    · rw [hl] at hmem
      exact (List.mem_cons.mp hmem).resolve_left hnm
    · rwa [hb, listenerLink_transitions] at hn
  | commit hflag hr =>
    exact same (listeners_of_roster hr) fun n hn => transitions_of_roster hr ▸ hn
  | lower hb =>
    refine same (by rw [hb]; rfl) fun n hn => ?_
    rw [hb, modifyFlags_transitions] at hn
    by_cases hnm : n = m
    · subst hnm
      simp at hn
    · rwa [Function.update_of_ne hnm] at hn
  | unlink hb =>
    obtain ⟨hmem, hnodup, htrans⟩ := listenerDel_list (p := p) (m := m) hi.nodup
    rw [← hb] at hmem hnodup htrans
    have hm : m ∉ t.b.listeners := fun hm => ((hmem m).mp hm).1 rfl
    exact hi.of_session hs ha hlinked hnodup (fun h => absurd h hm) (fun n _ h => ((hmem n).mp h).2)
      (fun _ _ => hm) fun n hn => htrans ▸ hn
  | keep _ hr => exact same (listeners_of_roster hr) fun n hn => transitions_of_roster hr ▸ hn

/-- The API thread `u` takes `m` off, and no other request can find it there from here on. -/
theorem Room.LinkSound.take_off {x : ℕ} (hi : s.LinkSound) (hs : t.session = s.session)
    (ha : ∀ v, v ≠ u → t.api v = s.api v) (hpc' : t.api u = .promote x m .raise)
    (hm : m ∈ s.b.listeners) (hb : t.b = listenerUnlink s.b m) : t.LinkSound := by
  have hl : t.b.listeners = s.b.listeners.erase m := by
    rw [hb]
    rfl
  have ht : t.b.transitions = s.b.transitions := by
    rw [hb]
    rfl
  have hsub : ∀ {n}, n ∉ s.b.listeners → n ∉ t.b.listeners := fun hn hmem =>
    hn (List.mem_of_mem_erase (hl ▸ hmem))
  refine hi.of_api hs ha (hl ▸ hi.nodup.erase m) (fun n hn => ?_) (fun n hn => ?_)
    (fun n hn => ?_) (fun n hn => ?_) (fun v n _ hn => hsub (hi.moved v n hn).1)
    fun v n _ hn => ht ▸ hi.lowered v n hn
  · exact hi.linked n (List.mem_of_mem_erase (hl ▸ hn))
  · have hf := hi.flagged n (ht ▸ hn)
    exact ⟨hsub hf.1, hf.2⟩
  · rw [hpc'] at hn
    obtain rfl := hn.1
    refine ⟨⟨?_, hi.linked m hm⟩, fun v _ hv => (hi.moved v m hv).1 hm⟩
    rw [hl]
    exact hi.nodup.not_mem_erase
  · rw [hpc'] at hn
    exact hn.2.elim

theorem Room.LinkSound.raise {x : ℕ} (hi : s.LinkSound) (hs : t.session = s.session)
    (ha : ∀ v, v ≠ u → t.api v = s.api v) (hpc : s.api u = .promote x m .raise)
    (hpc' : t.api u = .promote x m .lower)
    (hb : t.b = s.b.modifyFlags m fun f => { f with roleTransitionToSpeaker := true }) :
    t.LinkSound := by
  refine hi.of_flags hs ha (by rw [hb]; rfl) (fun n hn => ?_) (fun n hn => ?_) fun n hn => ?_
  · rw [hpc'] at hn
    rw [hpc]
    exact ⟨hn.1, trivial⟩
  · rw [hb, modifyFlags_transitions] at hn
    by_cases hnm : n = m
    · rw [hpc]
      exact .inr ⟨hnm.symm, trivial⟩
    · rw [Function.update_of_ne hnm] at hn
      exact .inl hn
  · rw [hpc'] at hn
    exact hn.2.elim

theorem Room.LinkSound.drop {x : ℕ} (hi : s.LinkSound) (hs : t.session = s.session)
    (ha : ∀ v, v ≠ u → t.api v = s.api v) (hpc : s.api u = .promote x m .drop)
    (hpc' : t.api u = .promote x m (.add .destroyed))
    (hb : t.b = s.b.modifyFlags m fun f => { f with roleTransitionToSpeaker := false }) :
    t.LinkSound := by
  have ht : t.b.transitions = Function.update s.b.transitions m false := by
    rw [hb, modifyFlags_transitions]
  refine hi.of_flags hs ha (by rw [hb]; rfl) (fun n hn => ?_) (fun n hn => .inl ?_) fun n hn => ?_
  · rw [hpc'] at hn
    rw [hpc]
    exact ⟨hn.1, trivial⟩
  · by_cases hnm : n = m
    · rw [ht, hnm, Function.update_self] at hn
      cases hn
    · rwa [ht, Function.update_of_ne hnm] at hn
  · rw [hpc'] at hn
    rw [ht, ← hn.1]
    exact Function.update_self ..

/-- The rollback: `u` has lowered the flag of `m`, and nobody else holds `m`. -/
theorem Room.LinkSound.put_back {x : ℕ} (hi : s.LinkSound) (hs : t.session = s.session)
    (ha : ∀ v, v ≠ u → t.api v = s.api v) (hpc : s.api u = .promote x m (.add .link))
    (hpc' : t.api u = .promote x m (.add .stats)) (hb : t.b = listenerLink s.b m) :
    t.LinkSound := by
  have hm : (s.api u).Moves m := hpc ▸ ⟨rfl, trivial⟩
  have hl : t.b.listeners = m :: s.b.listeners := by rw [hb, listenerLink_listeners]
  have ht : t.b.transitions = s.b.transitions := by rw [hb, listenerLink_transitions]
  have hout : ∀ {n}, n ∉ s.b.listeners → n ≠ m → n ∉ t.b.listeners := by
    intro n hn hnm hmem
    rw [hl] at hmem
    exact (List.mem_cons.mp hmem).elim hnm hn
  refine hi.of_api hs ha ?_ (fun n hn => ?_) (fun n hn => ?_) (fun n hn => ?_)
    (fun n hn => ?_) (fun v n hv hn => ?_) fun v n _ hn => ht ▸ hi.lowered v n hn
  · rw [hl]
    exact List.nodup_cons.mpr ⟨(hi.moved u m hm).1, hi.nodup⟩
  · rw [hl] at hn
    rcases List.mem_cons.mp hn with rfl | hn
    · exact (hi.moved u n hm).2
    · exact hi.linked n hn
  · rw [ht] at hn
    have hnm : n ≠ m := by
      rintro rfl
      rw [hi.lowered u n (hpc ▸ ⟨rfl, trivial⟩)] at hn
      cases hn
    have hf := hi.flagged n hn
    exact ⟨hout hf.1 hnm, hf.2⟩
  · rw [hpc'] at hn
    exact hn.2.elim
  · rw [hpc'] at hn
    exact hn.2.elim
  · refine hout (hi.moved v n hn).1 ?_
    rintro rfl
    exact hv (hi.alone v u n hn hm)

theorem Room.LinkSound.api (hi : s.LinkSound) (hs : t.session = s.session)
    (ha : ∀ v, v ≠ u → t.api v = s.api v) (h : ApiRoster p s.b t.b (s.api u) (t.api u)) :
    t.LinkSound := by
  generalize hpc : s.api u = pc at h
  generalize hpc' : t.api u = pc' at h
  cases h with
  | unlink hm hb => exact hi.take_off hs ha hpc' hm hb
  | raise hb => exact hi.raise hs ha hpc hpc' hb
  | drop hb => exact hi.drop hs ha hpc hpc' hb
  | link _ hb => exact hi.put_back hs ha hpc hpc' hb
  | keep hm hd hr =>
    have ht := transitions_of_roster hr
    refine hi.of_flags hs ha (listeners_of_roster hr) (fun n hn => ?_) (fun n hn => .inl (ht ▸ hn))
      fun n hn => ?_
    · rw [hpc]
      exact hm n (hpc' ▸ hn)
    · rw [ht]
      exact hi.lowered u n (hpc ▸ hd n (hpc' ▸ hn))

theorem Room.LinkSound.step (hi : s.LinkSound) (hs : roomStep p s a = some t) : t.LinkSound := by
  cases roomStep_roster hs with
  | session h hn hsess ha => exact hi.session hsess ha hn h
  | api h hsess ha => exact hi.api hsess ha h
  | @join m j hr hn hn' hsess ha =>
    have hun : (s.session m).Unlinked := by rcases hn with hn | hn <;> rw [hn] <;> trivial
    have hm : m ∉ s.b.listeners := fun hm => hi.linked m hm hun
    have hl := listeners_of_roster hr
    exact hi.of_session hsess ha (fun hlinked => absurd hun hlinked) (hl ▸ hi.nodup)
      (fun hmem => absurd (hl ▸ hmem) hm) (fun n _ hmem => hl ▸ hmem)
      (fun _ hlinked => absurd hun hlinked) fun n hn => transitions_of_roster hr ▸ hn
  | @enter _ u hr hsess hidle hu ha =>
    have hnot : ∀ {n}, ¬ (t.api u).Moves n := by
      intro n hm
      rcases hu with ⟨k, hu⟩ | hu <;> rw [hu] at hm <;> exact hm
    exact hi.api hsess ha (ApiRoster.other (p := p) (fun _ => hnot) hr)
  | keep hr hsess ha =>
    have hl := listeners_of_roster hr
    have ht := transitions_of_roster hr
    constructor
    · exact hl ▸ hi.nodup
    · rw [hl, hsess]
      exact hi.linked
    · rw [hl, ht, hsess]
      exact hi.flagged
    · rw [hl, hsess, ha]
      exact hi.moved
    · rw [ha]
      exact hi.alone
    · rw [ha, ht]
      exact hi.lowered

theorem Room.ListSound.init : Room.init.ListSound :=
  ⟨List.nodup_nil, nofun, nofun, fun _ _ => False.elim, fun _ _ _ => False.elim,
    fun _ _ => False.elim⟩

theorem Room.ListSound.linkSound (hi : s.ListSound) : s.LinkSound :=
  ⟨hi.nodup, fun m hm => (hi.listed m hm).linked, hi.flagged, hi.moved, hi.alone, hi.lowered⟩

/-- A session links and unlinks no member but its own. -/
theorem SessionRoster.others {pc pc' : SessionPc} (h : SessionRoster p n b b' pc pc')
    (hnodup : b.listeners.Nodup) (hmn : m ≠ n) (hm : m ∈ b'.listeners) : m ∈ b.listeners := by
  cases h with
  | prepare hb | number hb | lower hb =>
    rw [hb] at hm
    exact hm
  | link hb =>
    rw [hb, listenerLink_listeners] at hm
    exact (List.mem_cons.mp hm).resolve_left hmn
  | unlink hb =>
    rw [hb] at hm
    exact (((listenerDel_list hnodup).1 m).mp hm).2
  | commit _ hr | keep _ hr => exact listeners_of_roster hr ▸ hm

/-- The session of a member on the list is at a place where it may be listed. -/
theorem Room.LinkSound.listed_step (hi : s.LinkSound)
    (hlisted : ∀ m ∈ s.b.listeners, (s.session m).MayBeListed) (hg : RollbackInTime p s a)
    (hs : roomStep p s a = some t) (hm : m ∈ t.b.listeners) : (t.session m).MayBeListed := by
  cases roomStep_roster hs with
  | @session n c h hn hsess ha =>
    by_cases hmn : m = n
    · subst hmn
      generalize hpc : s.session m = pc at h
      generalize hpc' : t.session m = pc' at h ⊢
      have old : m ∈ s.b.listeners → pc.MayBeListed := fun hm => hpc ▸ hlisted m hm
      cases h with
      | prepare hb | number hb | lower hb =>
        rw [hb] at hm
        exact (old hm).elim
      | link => trivial
      -- a member whose flag is up is off the list, so its session may move on
      | commit hflag hr => exact absurd (listeners_of_roster hr ▸ hm) (hi.flagged m hflag).1
      | unlink hb =>
        rw [hb] at hm
        exact absurd rfl (((listenerDel_list hi.nodup).1 m).mp hm).1
      | keep hstay hr => exact hstay (old (listeners_of_roster hr ▸ hm))
    · rw [hsess m hmn]
      exact hlisted m (h.others hi.nodup hmn hm)
  | @api u c h hsess ha =>
    rw [hsess]
    generalize hpc : s.api u = pc at h
    generalize t.api u = pc' at h
    cases h with
    | unlink _ hb =>
      rw [hb] at hm
      exact hlisted m (List.mem_of_mem_erase hm)
    | raise hb | drop hb =>
      rw [hb] at hm
      exact hlisted m hm
    | @link x n hroom hb =>
      rw [hb, listenerLink_listeners] at hm
      obtain rfl | hm := List.mem_cons.mp hm
      -- here the session may have moved on, and the condition speaks
      · exact hg u c x m rfl hpc hroom
      · exact hlisted m hm
    | keep _ _ hr => exact hlisted m (listeners_of_roster hr ▸ hm)
  | @join n j hr hn _ hsess ha =>
    have hold := hlisted m (listeners_of_roster hr ▸ hm)
    by_cases hmn : m = n
    · subst hmn
      obtain hn | hn := hn <;> rw [hn] at hold <;> exact hold.elim
    · rwa [hsess m hmn]
  | enter hr hsess =>
    rw [hsess]
    exact hlisted m (listeners_of_roster hr ▸ hm)
  | keep hr hsess =>
    rw [hsess]
    exact hlisted m (listeners_of_roster hr ▸ hm)

theorem Room.ListSound.step (hi : s.ListSound) (hg : RollbackInTime p s a)
    (hs : roomStep p s a = some t) : t.ListSound :=
  have hl := hi.linkSound.step hs
  ⟨hl.nodup, fun _ hm => hi.linkSound.listed_step hi.listed hg hs hm, hl.flagged, hl.moved,
    hl.alone, hl.lowered⟩

/-- What the list promises: no member is on it after its call has returned and its
promotions are over, and none is on it and in the slot. -/
def Room.ListSafe (s : Room) : Prop :=
  (∀ m, s.session m = .returned → (∀ u x k, s.api u ≠ .promote x m k) → m ∉ s.b.listeners) ∧
    ∀ m, ¬ (m ∈ s.b.listeners ∧ s.b.current_speaker = some m)

theorem Room.ListSound.safe (hi : s.ListSound) (hslot : s.SlotSound) : s.ListSafe := by
  constructor
  · intro m hret _ hm
    have hl := hi.listed m hm
    rw [hret] at hl
    exact hl
  · rintro m ⟨hm, hcur⟩
    have hl := hi.listed m hm
    have hp := hslot.published m hcur
    cases hpc : s.session m with
    | add k => simp [hpc, SessionPc.Published] at hp
    | wait | lower | exitVariables | clear | speak => simp [hpc, SessionPc.MayBeListed] at hl
    | _ => simp [hpc, SessionPc.Published] at hp

/-- No member is left on the list, and none is on it while it is the speaker, as long
as a promotion that gives up puts its member back in time. -/
theorem listener_list_lifetime (hr : Run (roomStep p) Room.init h s)
    (hg : Meets (RollbackInTime p) h) : s.ListSafe := by
  have hi : s.ListSound := hr.invariant (fun _ _ _ hi hg hs => hi.step hg hs) hg .init
  exact hi.safe (slotSound_of_run hr)

def rollbackInTimeTest (s : Room) (a : RoomAction) : Bool :=
  match a with
  | .api u _ =>
    match s.api u with
    | .promote _ m (.add .link) => decide (s.session m).MayBeListed
    | _ => true
  | _ => true

theorem rollbackInTime_of_test (ht : rollbackInTimeTest s a = true) : RollbackInTime p s a := by
  rintro u c x m rfl hpc -
  simpa [rollbackInTimeTest, hpc] using ht

/-- A promotion gives up, puts the listener back, and the listener leaves. -/
theorem listener_list_lifetime_rollback : ∃ (h : List (Room × RoomAction)) (s : Room),
    Run (roomStep ⟨8, false, 16, false, false⟩) Room.init h s ∧ s.session 0 = .returned ∧
      (∃ x ∈ h, x.1.api 0 = .promote 0 0 (.add .link)) ∧ s.ListSafe := by
  obtain ⟨h, s, hr, hm, hv⟩ := exists_run_observing (roomStep ⟨8, false, 16, false, false⟩)
    rollbackInTimeTest Room.init
    (List.flatten [[.join 0 ⟨.listener, false, false⟩], List.replicate 9 (.session 0 .ok),
      [.call 0 (.member .promote 1)], List.replicate 10 (.api 0 .ok), [.api 0 .timeout, .api 0 .ok],
      List.replicate 4 (.session 0 .ok), List.replicate 8 (.api 0 .ok),
      List.replicate 6 (.session 0 .ok)])
    (fun h s => (s.session 0, h.any fun x => x.1.api 0 = .promote 0 0 (.add .link)))
    (v := (.returned, true)) (by decide)
  obtain ⟨h0, hlink⟩ := Prod.mk.inj hv
  refine ⟨h, s, hr, h0, by simpa using hlink, listener_list_lifetime hr ?_⟩
  exact hm.mono fun _ _ => rollbackInTime_of_test

/-- Put back after its session has seen the flag, the member becomes the speaker and
returns as a listener. -/
theorem listener_left_behind : ¬ ∀ (h : List (Room × RoomAction)) (s : Room),
    Run (roomStep ⟨8, false, 16, false, false⟩) Room.init h s → s.ListSafe := by
  refine not_forall_run (fun _ a => a.within 1)
    (List.flatten [[.join 0 ⟨.listener, false, false⟩], List.replicate 9 (.session 0 .ok),
      [.call 0 (.member .promote 1)], List.replicate 10 (.api 0 .ok), [.api 0 .timeout, .api 0 .ok],
      List.replicate 5 (.session 0 .ok), List.replicate 8 (.api 0 .ok),
      List.replicate 8 (.session 0 .ok), [.hangup 0], List.replicate 5 (.session 0 .ok),
      List.replicate 6 (.input 0 .ok), List.replicate 10 (.session 0 .ok)])
    (fun _ s => (s.session 0, s.api 0, s.b.listeners)) (v := (.returned, .idle, [0])) (by decide) ?_
  intro h s hr hm hv hsafe
  obtain ⟨h0, hv⟩ := Prod.mk.inj hv
  obtain ⟨hapi, hlist⟩ := Prod.mk.inj hv
  have hsmall : s.Small 1 := hr.invariant (I := Room.Small 1)
    (fun _ _ _ hi ha hs => hi.step ha hs) hm (Room.small_init (by decide))
  refine hsafe.1 0 h0 ?_ (by simp [hlist])
  have hidle := hsmall.api (P := fun _ pc => pc = .idle) (fun _ => rfl) fun u hu => by
    obtain rfl : u = 0 := by omega
    exact hapi
  intro u x k hpc
  rw [hidle u] at hpc
  cases hpc

end ModBroadcast
