import ModBroadcast.ListenerHeap
import ModBroadcast.ListenerList

namespace ModBroadcast

open Automaton DoublyLinked

/-- The pointers and the counter stand for the list of the broadcast and its counter. -/
structure ListenerHeap.Refines (q : ListenerHeap) (b : Broadcast) : Prop where
  represents : Represents q.links b.listeners
  count : q.listener_count = b.listener_count
  length : b.listener_count = b.listeners.length

def Room.listCall (s : Room) : RoomAction → Option HeapAction
  | .session m _ =>
    match s.session m with
    -- both tests are made before the lock is taken
    | .add .link => some (.add m false false)
    | .unlink => some (.del m s.b.listener_count)
    | _ => none
  | .api u _ =>
    match s.api u with
    | .promote _ m .unlink => some (.unlinkForPromotion m s.b.listener_count)
    | .promote _ m (.add .link) => some (.add m false false)
    | _ => none
  | _ => none

variable {p : RoomProfile} {q : ListenerHeap} {b b' : Broadcast} {s t : Room} {a : RoomAction}
  {h : List (Room × RoomAction)} {m : ℕ}

theorem ListenerHeap.Refines.create : ListenerHeap.create.Refines .create :=
  ⟨represents_empty, rfl, rfl⟩

theorem ListenerHeap.Refines.of_roster (hq : q.Refines b) (h : b'.roster = b.roster) :
    q.Refines b' := by
  constructor <;> simp only [listeners_of_roster h, count_of_roster h]
  exacts [hq.represents, hq.count, hq.length]

/-- The section of `broadcast_listener_add` under the lock does the same to both. -/
theorem ListenerHeap.Refines.add (hq : q.Refines b) (hm : m ∉ b.listeners) :
    (q.add p.max_listeners false false m).1.Refines (listenerAdd p b m .link).1 := by
  by_cases hfull : p.max_listeners ≤ b.listener_count
  · rw [add_refused fun ha => absurd ha.2.2 (Nat.not_lt.mpr (hq.count ▸ hfull))]
    simpa [listenerAdd, hfull] using hq
  · rw [add_admitted ⟨rfl, rfl, hq.count ▸ Nat.lt_of_not_le hfull⟩]
    simp only [listenerAdd, if_neg hfull]
    have hcount : (listenerLink b m).listener_count = b.listener_count + 1 := by
      unfold listenerLink
      split_ifs <;> rfl
    refine ⟨?_, ?_, ?_⟩
    · rw [listenerLink_listeners]
      exact insertHead_represents hq.represents hm
    · rw [hcount, hq.count]
    · rw [hcount, listenerLink_listeners, List.length_cons, hq.length]

/-- So does a removal. -/
theorem ListenerHeap.Refines.remove (hq : q.Refines b) (m : ℕ) :
    ∃ x, q.remove b.listener_count m = some x ∧
      x.1.Refines (if m ∈ b.listeners then listenerUnlink b m else b) := by
  have hcount := hq.count.trans hq.length
  obtain ⟨x, hx⟩ := Option.isSome_iff_exists.mp
    (remove_ends (m := m) hq.represents (Nat.le_of_eq hq.length.symm))
  refine ⟨x, hx, ?_⟩
  rw [remove_eq hq.represents hcount hx]
  by_cases hm : m ∈ b.listeners
  · simp only [if_pos hm]
    refine ⟨unlink_represents hq.represents hm, congrArg (· - 1) hq.count, ?_⟩
    rw [listenerUnlink, List.length_erase_of_mem hm, hq.length]
  · simpa only [if_neg hm] using hq

/-- A step that is no operation on the list leaves it alone. -/
theorem ListenerHeap.Refines.idle (hq : q.Refines s.b) (hs : roomStep p s a = some t)
    (hc : s.listCall a = none) : q.Refines t.b := by
  cases roomStep_roster hs with
  | join hr | enter hr | keep hr => exact hq.of_roster hr
  | @session m c h hn hsess ha =>
    generalize hpc : s.session m = pc at h
    generalize t.session m = pc' at h
    cases h with
    | link | unlink => simp [Room.listCall, hpc] at hc
    | prepare hb | number hb | lower hb =>
      rw [hb]
      exact ⟨hq.represents, hq.count, hq.length⟩
    | commit _ hr | keep _ hr => exact hq.of_roster hr
  | @api u c h hsess ha =>
    generalize hpc : s.api u = pc at h
    generalize t.api u = pc' at h
    cases h with
    | unlink | link => simp [Room.listCall, hpc] at hc
    | raise hb | drop hb =>
      rw [hb]
      exact ⟨hq.represents, hq.count, hq.length⟩
    | keep _ _ hr => exact hq.of_roster hr

/-- A member that is linked is not on the list. -/
theorem Room.LinkSound.adds_unlinked (hi : s.LinkSound) {destroyed locked : Bool}
    (hc : s.listCall a = some (.add m destroyed locked)) : m ∉ s.b.listeners := by
  cases a with
  | session n c =>
    simp only [Room.listCall] at hc
    split at hc
    · next hpc =>
      cases hc
      intro hm
      exact hi.linked m hm (by rw [hpc]; trivial)
    · cases hc
    · cases hc
  | api u c =>
    simp only [Room.listCall] at hc
    split at hc
    · cases hc
    · next hpc =>
      cases hc
      exact (hi.moved u m (by rw [hpc]; exact ⟨rfl, trivial⟩)).1
    · cases hc
  | _ => cases hc

/-- A step that is an operation on the list does it to both. -/
theorem ListenerHeap.Refines.call {c : HeapAction} (hq : q.Refines s.b) (hi : s.LinkSound)
    (hs : roomStep p s a = some t) (hc : s.listCall a = some c) :
    ∃ v, heapStep p.max_listeners q c = some v ∧ v.Refines t.b := by
  have hadd : ∀ m, c = .add m false false → m ∉ s.b.listeners := by
    rintro m rfl
    exact hi.adds_unlinked hc
  cases a with
  | session m ch =>
    obtain ⟨x, hx, rfl⟩ := Option.map_eq_some_iff.mp hs
    simp only [Room.listCall] at hc
    split at hc
    · next hpc =>
      cases hc
      rw [hpc] at hx
      refine ⟨_, rfl, (hq.add (p := p) (hadd m rfl)).of_roster ?_⟩
      simp only [appFunction] at hx
      split at hx <;> obtain rfl := Option.some.inj hx
      · rfl
      · rfl
      · exact roster_of_people (people_of_core hangup_core)
    · next hpc =>
      cases hc
      rw [hpc] at hx
      obtain rfl := Option.some.inj hx
      obtain ⟨y, hy, href⟩ := hq.remove m
      refine ⟨y.1, by simp [heapStep, ListenerHeap.del, hy], href.of_roster ?_⟩
      rw [listenerDel_roster]
      split_ifs <;> rfl
    · cases hc
  | api u ch =>
    obtain ⟨x, hx, rfl⟩ := Option.map_eq_some_iff.mp hs
    simp only [Room.listCall] at hc
    split at hc
    · next y m hpc =>
      cases hc
      rw [hpc] at hx
      obtain rfl := Option.some.inj hx
      obtain ⟨z, hz, href⟩ := hq.remove m
      refine ⟨z.1, by simp [heapStep, ListenerHeap.unlinkForPromotion, hz], ?_⟩
      simp only [requestPromotion, listenerUnlinkForPromotion]
      split_ifs at href ⊢ <;> exact href
    · next y m hpc =>
      cases hc
      rw [hpc] at hx
      obtain rfl := Option.some.inj hx
      exact ⟨_, rfl, hq.add (hadd m rfl)⟩
    · cases hc
  | _ => cases hc

/-- In every run of the room, what the sections of its steps under `listener_lock` do to the pointers
makes up the list of the broadcast, and no member is added that is on it. -/
theorem listener_pointers_follow (hr : Run (roomStep p) Room.init h s) :
    ∃ h' q, Run (heapStep p.max_listeners) .create h' q ∧ Meets AddsUnlinked h' ∧
      h'.map Prod.snd = h.filterMap (fun x => x.1.listCall x.2) ∧ q.Refines s.b := by
  obtain ⟨h', q, hrun, hm, hcalls, -, hq⟩ := hr.follow
    (R := fun s (q : ListenerHeap) => s.LinkSound ∧ q.Refines s.b) (c := Room.listCall)
    (f := AddsUnlinked)
    (fun _ _ _ _ hR hs hc => ⟨hR.1.step hs, hR.2.idle hs hc⟩)
    (fun s a t q c hR hs hc => by
      obtain ⟨v, hv, href⟩ := hR.2.call hR.1 hs hc
      refine ⟨?_, v, hv, hR.1.step hs, href⟩
      rintro m destroyed locked l rfl hl
      rw [hl.unique hR.2.represents]
      exact hR.1.adds_unlinked hc)
    ⟨.init, .create⟩
  exact ⟨h', q, hrun, hm, hcalls, hq⟩

/-- Two listeners come, and the first one is taken out for a promotion. -/
theorem listener_pointers_follow_promotion : ∃ (h : List (Room × RoomAction)) (s : Room),
    Run (roomStep ⟨8, false, 16, false, false⟩) Room.init h s ∧
      h.filterMap (fun x => x.1.listCall x.2) =
        [.unlinkForPromotion 0 2, .add 1 false false, .add 0 false false] ∧
      ∃ h' q, Run (heapStep 8) .create h' q ∧ Meets AddsUnlinked h' ∧
        h'.map Prod.snd = h.filterMap (fun x => x.1.listCall x.2) ∧ q.Refines s.b := by
  obtain ⟨h, s, hr, -, hv⟩ := exists_run_observing (roomStep ⟨8, false, 16, false, false⟩)
    (fun _ _ => true) Room.init
    (List.flatten [[.join 0 ⟨.listener, false, false⟩], List.replicate 9 (.session 0 .ok),
      [.join 1 ⟨.listener, false, false⟩], List.replicate 9 (.session 1 .ok),
      [.call 0 (.member .promote 1)], List.replicate 10 (.api 0 .ok)])
    (fun h _ => h.filterMap fun x => x.1.listCall x.2)
    (v := [.unlinkForPromotion 0 2, .add 1 false false, .add 0 false false]) (by decide)
  exact ⟨h, s, hr, hv, listener_pointers_follow hr⟩

end ModBroadcast
