import ModBroadcast.Figures
import ModBroadcast.Threads

namespace ModBroadcast

open Automaton

variable {p : RoomProfile} {b b' : Broadcast} {c : Choice} {m n : ℕ} {s t : Room} {a : RoomAction}
  {h : List (Room × RoomAction)}

def Place.calls : Place → Option (Option ℕ × SetSpeakerPc)
  | .session m (.speak _ k) => some (some m, k)
  | .session _ (.wait (.clear k)) => some (none, k)
  | .api (.clearSpeaker k) => some (none, k)
  | _ => none

def SetSpeakerPc.old : SetSpeakerPc → Option ℕ
  | .fire old => old
  | .stop old _ | .since old => some old
  | _ => none

def Place.displaced (pl : Place) : Option ℕ := pl.calls.bind fun x => x.2.old

theorem appFunction_calls {pc pc' : SessionPc} (h : appFunction p b m c pc = some (b', pc')) :
    (∀ new k, (Place.session m pc).calls = some (new, k) → ∃ z, setSpeaker b new c k = some (b', z) ∧
        (Place.session m pc').calls = z.resume (fun k' => some (new, k')) fun _ => none) ∧
      ((Place.session m pc).calls = none → ∀ new k', (Place.session m pc').calls = some (new, k') →
        k' = .first new) := by
  have hnext := appFunction_next h
  constructor
  · intro new k hk
    cases pc with
    | speak promoted k₀ =>
      obtain ⟨rfl, rfl⟩ := Prod.mk.inj (Option.some.inj hk)
      obtain ⟨⟨b₁, z⟩, hx, he⟩ := Option.map_eq_some_iff.mp h
      obtain ⟨rfl, rfl⟩ := Prod.mk.inj he
      refine ⟨z, hx, ?_⟩
      cases z with
      | run k' => rfl
      | ret ok => cases ok <;> cases promoted <;> rfl
    | wait w =>
      cases w with
      | clear k₀ =>
        obtain ⟨rfl, rfl⟩ := Prod.mk.inj (Option.some.inj hk)
        obtain ⟨x, hx, he⟩ := Option.map_eq_some_iff.mp h
        obtain ⟨⟨b₁, z⟩, hz, rfl⟩ := Option.map_eq_some_iff.mp hx
        obtain ⟨rfl, rfl⟩ := Prod.mk.inj he
        refine ⟨z, hz, ?_⟩
        cases z <;> rfl
      | _ => cases hk
    | _ => cases hk
  · intro hnone new k' hk'
    cases pc' with
    | speak promoted k₁ =>
      obtain ⟨rfl, rfl⟩ := Prod.mk.inj (Option.some.inj hk')
      obtain ⟨k₀, rfl, -⟩ | ⟨-, rfl⟩ := hnext.follows
      · cases hnone
      · rfl
    | wait w =>
      cases w with
      | clear k₁ =>
        obtain ⟨rfl, rfl⟩ := Prod.mk.inj (Option.some.inj hk')
        obtain ⟨w', rfl⟩ | hw := hnext.waits
        · obtain ⟨⟨b₁, z⟩, hx, he⟩ := Option.map_eq_some_iff.mp h
          obtain ⟨rfl, hz⟩ := Prod.mk.inj he
          cases z with
          | ret ok => cases hz
          | run w₁ =>
            cases hz
            obtain ⟨-, rfl⟩ | ⟨k₀, rfl, -⟩ := speakerMainWait_clear hx rfl
            · rfl
            · cases hnone
        · cases hw
      | _ => cases hk'
    | _ => cases hk'

theorem apiDispatch_calls {pc pc' : ApiPc} (h : apiDispatch p b c pc = some (b', pc')) :
    (∀ new k, (Place.api pc).calls = some (new, k) → ∃ z, setSpeaker b new c k = some (b', z) ∧
        (Place.api pc').calls = z.resume (fun k' => some (new, k')) fun _ => none) ∧
      ((Place.api pc).calls = none → ∀ new k', (Place.api pc').calls = some (new, k') →
        k' = .first new) := by
  constructor
  · intro new k hk
    cases pc with
    | clearSpeaker k₀ =>
      obtain ⟨rfl, rfl⟩ := Prod.mk.inj (Option.some.inj hk)
      obtain ⟨⟨b₁, z⟩, hx, he⟩ := Option.map_eq_some_iff.mp h
      obtain ⟨rfl, rfl⟩ := Prod.mk.inj he
      refine ⟨z, hx, ?_⟩
      cases z <;> rfl
    | _ => cases hk
  · intro hnone new k' hk'
    cases pc' with
    | clearSpeaker k₁ =>
      obtain ⟨rfl, rfl⟩ := Prod.mk.inj (Option.some.inj hk')
      cases apiDispatch_cases h with
      | clear => rfl
      | clearSpeaker => cases hnone
      | @resolve k _ _ _ _ _ hpc | @resolveSpeaker k _ _ _ _ _ hpc => cases k <;> cases hpc
    | _ => cases hk'

/-- A thread that is in a call makes a step of it, and one that is not begins at the
beginning. -/
theorem ThreadStep.calls {pl pl' : Place} (h : ThreadStep p b b' c pl pl') :
    (∀ new k, pl.calls = some (new, k) → ∃ z, setSpeaker b new c k = some (b', z) ∧
        pl'.calls = z.resume (fun k' => some (new, k')) fun _ => none) ∧
      (pl.calls = none → ∀ new k', pl'.calls = some (new, k') → k' = .first new) := by
  cases h with
  | session h => exact appFunction_calls h
  | api h => exact apiDispatch_calls h
  | call | shutdown => exact ⟨nofun, fun _ _ _ => nofun⟩
  | @join m j pc pc' h =>
    cases pc with
    | outside =>
      obtain ⟨x, -, he⟩ := Option.map_eq_some_iff.mp h
      obtain ⟨-, rfl⟩ := Prod.mk.inj he
      exact ⟨nofun, fun _ _ _ => nofun⟩
    | created =>
      obtain ⟨-, rfl⟩ := Prod.mk.inj (Option.some.inj h)
      refine ⟨nofun, fun _ _ _ hk => ?_⟩
      split_ifs at hk <;> cases hk
    | _ => cases h

/-- A call displaces the member that it finds in the slot. -/
theorem setSpeaker_old {new : Option ℕ} {k k' : SetSpeakerPc}
    (h : setSpeaker b new c k = some (b', .run k')) (ho : k'.old = some m) :
    k.old = some m ∨ k = .install ∧ b.current_speaker = some m := by
  cases k with
  | guard | audio | role | start =>
    rcases setSpeaker_next h with ⟨k₁, hk, hz⟩ | hz | ⟨-, hz⟩
    · cases hz
      cases k' <;> simp [SetSpeakerPc.Next, SetSpeakerPc.old] at hk ho
    · cases hz
    · cases hz
  | install =>
    obtain ⟨-, ⟨-, hz⟩ | ⟨-, hz⟩⟩ := setSpeaker_install h <;> cases hz
    exact .inr ⟨rfl, ho⟩
  | fire old =>
    cases old with
    | none => cases h
    | some o =>
      cases h
      exact .inl ho
  | stop old k =>
    obtain ⟨⟨y, k₁ | ok⟩, -, he⟩ := Option.map_eq_some_iff.mp h <;> cases he <;> exact .inl ho
  | since old => cases h

def WasSpeaker (h : List (Room × RoomAction)) (s : Room) (m : ℕ) : Prop :=
  s.b.current_speaker = some m ∨ ∃ x ∈ h, x.1.b.current_speaker = some m

theorem WasSpeaker.step (hw : WasSpeaker h s m) : WasSpeaker ((s, a) :: h) t m := by
  rcases hw with hc | ⟨x, hx, hc⟩
  · exact .inr ⟨(s, a), List.mem_cons_self, hc⟩
  · exact .inr ⟨x, List.mem_cons_of_mem _ hx, hc⟩

def DisplacesSpeakers (h : List (Room × RoomAction)) (s : Room) : Prop :=
  ∀ th m, (s.place th).displaced = some m → WasSpeaker h s m

theorem DisplacesSpeakers.init : DisplacesSpeakers [] Room.init := by
  rintro (m | u) n hd
  · by_cases hm : m = 0 <;>
      simp [Room.place, Room.init, hm, Place.displaced, Place.calls] at hd
  · cases hd

theorem DisplacesSpeakers.step (hi : DisplacesSpeakers h s) (hs : roomStep p s a = some t) :
    DisplacesSpeakers ((s, a) :: h) t := by
  intro th m hd
  cases roomStep_move hs with
  | background _ _ hpl =>
    rw [hpl] at hd
    exact (hi th m hd).step
  | @thread th' c _ _ hth hother _ =>
    by_cases hne : th = th'
    · subst hne
      obtain ⟨⟨new, k'⟩, hcall, hold⟩ := Option.bind_eq_some_iff.mp hd
      obtain ⟨hgo, hbegin⟩ := hth.calls
      cases hpl : (s.place th).calls with
      | none =>
        obtain rfl := hbegin hpl new k' hcall
        cases new <;> cases hold
      | some y =>
        obtain ⟨new', k⟩ := y
        obtain ⟨z, hz, hres⟩ := hgo new' k hpl
        rw [hcall] at hres
        cases z with
        | ret ok => cases hres
        | run k₁ =>
          cases hres
          rcases setSpeaker_old hz hold with ho | ⟨-, hcur⟩
          · exact (hi th m (by simp [Place.displaced, hpl, ho])).step
          · exact WasSpeaker.step (.inl hcur)
    · rw [hother th hne] at hd
      exact (hi th m hd).step

end ModBroadcast
