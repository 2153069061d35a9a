import ModBroadcast.App
import ModBroadcast.Counting
import ModBroadcast.Frames
import ModBroadcast.Registry

namespace ModBroadcast

open Automaton Counting

variable {ν : Type} [DecidableEq ν]

/-- A join without `exclusive` up to the place where it is a member; what the speakers do with the
object does not concern the listeners. -/
inductive FirstJoinPc (ν : Type)
  | outside
  | registry (j : JoinParams) (pc : RegistryPc ν)
  | prepare (j : JoinParams) (b : ℕ)
  | add (b : ℕ) (k : ListenerAddPc)
  | member (b : ℕ)
  | speaker (b : ℕ)
  | away
  deriving DecidableEq

/-- The registry and the broadcasts behind its objects; a join is the member of its number. -/
structure FirstJoins (ν : Type) where
  g : Globals ν
  room : ℕ → Broadcast
  place : ℕ → FirstJoinPc ν

inductive FirstJoinAction (ν : Type)
  | join (t : ℕ) (j : JoinParams)
  | step (t : ℕ) (c : RegistryChoice ν)

/-- The joins begin with the registry `g`; the broadcasts that they create are new. -/
def FirstJoins.init (g : Globals ν) : FirstJoins ν := ⟨g, fun _ => .create, fun _ => .outside⟩

/-- Where a join goes from the registry: on with the object, or away without one. -/
def RegistryPc.firstJoin (j : JoinParams) : RegistryPc ν → FirstJoinPc ν
  | .hold b _ => .prepare j b
  | .idle => .away
  | pc => .registry j pc

def firstAdd (b : ℕ) (x : Progress ListenerAddPc) : FirstJoinPc ν :=
  x.resume (.add b) fun ok => if ok then .member b else .away

def firstJoin (M : ℕ) (p : RoomProfile) (g : Globals ν) (room : ℕ → Broadcast) (t : ℕ)
    (c : RegistryChoice ν) : FirstJoinPc ν → Option (Globals ν × (ℕ → Broadcast) × FirstJoinPc ν)
  | .outside | .member _ | .speaker _ | .away => none
  | .registry j pc => (registryThread M g c pc).map fun x => (x.1, room, x.2.firstJoin j)
  | .prepare j b =>
    if c = .fail then some (g, room, .away)
    else
      some (g, Function.update room b (memberPrepare (room b) t j.role j.ghost),
        if j.role = .speaker then .speaker b else .add b .destroyed)
  | .add b k =>
    let (b', x) := listenerAdd p (room b) t k
    some (g, Function.update room b b', firstAdd b x)

def firstJoinStep (M : ℕ) (p : RoomProfile) (n : ν) (s : FirstJoins ν) :
    FirstJoinAction ν → Option (FirstJoins ν)
  | .join t j =>
    if s.place t = .outside ∧ ¬ j.exclusive then
      some { s with place := Function.update s.place t (.registry j (.lookup n false)) }
    else none
  | .step t c =>
    (firstJoin M p s.g s.room t c (s.place t)).map fun x =>
      ⟨x.1, x.2.1, Function.update s.place t x.2.2⟩

variable {M : ℕ} {p : RoomProfile} {n : ν} {s s' : FirstJoins ν} {a : FirstJoinAction ν}
  {c : RegistryChoice ν} {t u b : ℕ} {h : List (FirstJoins ν × FirstJoinAction ν)}

/-- No resource fails, and a listener comes to a room that is not full. -/
def NothingFails (p : RoomProfile) (s : FirstJoins ν) : FirstJoinAction ν → Prop
  | .step t c => c ≠ .fail ∧ ∀ b, s.place t = .add b .link →
      (s.room b).listener_count < p.max_listeners
  | .join _ _ => True

/-- A join does not come to the insertion of its name while another one stands between its lookup
and its insertion. -/
def InsertsAlone (s : FirstJoins ν) : FirstJoinAction ν → Prop
  | .step t _ => ∀ j n, s.place t = .registry j (.insert n) →
      ∀ u j', u ≠ t → s.place u ≠ .registry j' (.insert n)
  | .join _ _ => True

def FirstJoinPc.object : FirstJoinPc ν → Option ℕ
  | .registry _ (.found _ b _) | .registry _ (.alive _ b _) | .registry _ (.passed b _)
  | .registry _ (.bumped b _) | .registry _ (.seed b) | .prepare _ b | .add b _ | .member b
  | .speaker b => some b
  | _ => none

def FirstJoinPc.Reads : FirstJoinPc ν → Prop
  | .registry _ (.found ..) | .registry _ (.alive ..) | .registry _ (.passed ..)
  | .registry _ (.bumped ..) => True
  | _ => False

def FirstJoinPc.Listed (b : ℕ) : FirstJoinPc ν → Prop
  | .add b' .stats | .add b' .running | .member b' => b' = b
  | _ => False

def FirstJoinPc.Fits (n : ν) (found : Option ℕ) : FirstJoinPc ν → Prop
  | .outside => True
  | .registry _ (.lookup n' api) => n' = n ∧ api = false
  | .registry _ (.found n' b api) | .registry _ (.alive n' b api) =>
    n' = n ∧ api = false ∧ found = some b
  | .registry _ (.passed b api) | .registry _ (.bumped b api) => api = false ∧ found = some b
  | .registry _ (.insert n') => n' = n ∧ found = none
  | .registry _ (.seed b) | .prepare _ b | .add b _ | .member b | .speaker b => found = some b
  | _ => False

def FirstJoinPc.Underway : FirstJoinPc ν → Prop
  | .registry .. | .prepare .. | .add .. => True
  | _ => False

def FirstJoinPc.rank : FirstJoinPc ν → ℕ
  | .outside => 0
  | .registry _ (.lookup ..) => 1
  | .registry _ (.found ..) => 2
  | .registry _ (.alive ..) => 3
  | .registry _ (.passed ..) => 4
  | .registry _ (.bumped ..) => 5
  | .registry _ (.insert _) => 6
  | .registry _ (.seed _) => 7
  | .registry _ _ => 8
  | .prepare .. => 9
  | .add _ .destroyed => 10
  | .add _ .locked => 11
  | .add _ .link => 12
  | .add _ .stats => 13
  | .add _ .running => 14
  | .member _ | .speaker _ | .away => 15

/-- What the joins may expect of the registry that they begin with. -/
structure Globals.Ready (g : Globals ν) (M : ℕ) (n : ν) : Prop where
  absent : g.find n = none
  free : g.hash_readers = 0
  below : g.active_broadcasts.toNat < M
  space : ∃ N, ∀ b, N ≤ b → g.obj b = none

/-- Every join has the one object of the name or is on its way to it, every listener that is through
is a member, and while some join is underway some join can come further. -/
structure FirstJoins.Meet (M : ℕ) (p : RoomProfile) (n : ν) (s : FirstJoins ν) : Prop where
  taken : ∀ t, s.place t ≠ .away
  one : ∀ t b, (s.place t).object = some b → s.g.find n = some b
  member : ∀ t b, s.place t = .member b → t ∈ (s.room b).listeners
  moves : (∃ t, (s.place t).Underway) →
    ∃ t c s', c ≠ .fail ∧ firstJoinStep M p n s (.step t c) = some s' ∧
      (s.place t).rank < (s'.place t).rank

structure FirstJoins.Sound (M : ℕ) (n : ν) (s : FirstJoins ν) : Prop where
  fits : ∀ t, (s.place t).Fits n (s.g.find n)
  live : ∀ b, s.g.find n = some b → ∃ o, s.g.obj b = some o ∧ ¬ o.destroyed ∧ ¬ o.destruct
  below : s.g.find n = none → s.g.active_broadcasts.toNat < M
  unlocked : ∀ b, (s.room b).destroyed = false ∧ (s.room b).locked = false
  member : ∀ t b, (s.place t).Listed b → t ∈ (s.room b).listeners
  readers : Counts s.g.hash_readers {t | (s.place t).Reads}
  space : ∃ N, ∀ b, N ≤ b → s.g.obj b = none

theorem FirstJoins.Sound.init {g : Globals ν} (hg : g.Ready M n) :
    (FirstJoins.init g).Sound M n where
  fits _ := trivial
  live b hb := by cases hg.absent.symm.trans hb
  below _ := hg.below
  unlocked _ := ⟨rfl, rfl⟩
  member _ _ hl := hl.elim
  readers := by
    have hset : {t | ((FirstJoins.init g).place t).Reads} = ∅ := by
      ext t
      simp [FirstJoins.init, FirstJoinPc.Reads]
    rw [hset]
    simp [Counts, FirstJoins.init, hg.free]
  space := hg.space

omit [DecidableEq ν] in
theorem FirstJoinPc.Fits.object {k : FirstJoinPc ν} {found : Option ℕ} (h : k.Fits n found)
    (hb : k.object = some b) : found = some b := by
  cases k with
  | registry j pc =>
    cases pc with
    | found | alive =>
      obtain rfl := Option.some.inj hb
      exact h.2.2
    | passed | bumped =>
      obtain rfl := Option.some.inj hb
      exact h.2
    | seed =>
      obtain rfl := Option.some.inj hb
      exact h
    | _ => cases hb
  | prepare | add | member | speaker =>
    obtain rfl := Option.some.inj hb
    exact h
  | outside | away => cases hb

def Globals.Keeps (g g' : Globals ν) : Prop :=
  ∀ b, (g.obj b = none → g'.obj b = none) ∧
    ∀ o, g.obj b = some o → ∃ o', g'.obj b = some o' ∧ o'.destroyed = o.destroyed ∧
      o'.destruct = o.destruct

omit [DecidableEq ν] in
theorem Globals.Keeps.refl (g : Globals ν) : g.Keeps g :=
  fun _ => ⟨id, fun o ho => ⟨o, ho, rfl, rfl⟩⟩

omit [DecidableEq ν] in
theorem Globals.Keeps.modify (g : Globals ν) (b : ℕ) {f : Obj ν → Obj ν}
    (hf : ∀ o, (f o).destroyed = o.destroyed ∧ (f o).destruct = o.destruct) :
    g.Keeps (g.modify b f) := by
  intro b'
  by_cases hb : b' = b
  · subst hb
    refine ⟨fun hn => by simp [Globals.modify, hn], fun o ho => ⟨f o, ?_, (hf o).1, (hf o).2⟩⟩
    simp [Globals.modify, ho]
  · exact ⟨fun hn => by simpa [Globals.modify, hb] using hn,
      fun o ho => ⟨o, by simpa [Globals.modify, hb] using ho, rfl, rfl⟩⟩

/-- A step of one join that leaves the table and the rooms alone. -/
theorem FirstJoins.Sound.moved {g' : Globals ν} {k : FirstJoinPc ν} (hi : s.Sound M n)
    (hhash : g'.broadcast_hash = s.g.broadcast_hash)
    (hact : g'.active_broadcasts = s.g.active_broadcasts) (hobj : s.g.Keeps g')
    (hr : Follows (s.place t).Reads k.Reads s.g.hash_readers g'.hash_readers)
    (hk : k.Fits n (s.g.find n)) (hl : ∀ b, ¬ k.Listed b) :
    FirstJoins.Sound M n ⟨g', s.room, Function.update s.place t k⟩ := by
  have hfind : g'.find n = s.g.find n := by
    rw [Globals.find, hhash]
    rfl
  refine ⟨fun u => ?_, fun b hb => ?_, fun hn => ?_, hi.unlocked, fun u b hu => ?_, ?_, ?_⟩
  · rw [hfind]
    by_cases hut : u = t
    · subst hut
      simpa using hk
    · simpa [hut] using hi.fits u
  · obtain ⟨o, ho, hd, hx⟩ := hi.live b (by rw [← hfind]; exact hb)
    obtain ⟨o', ho', hd', hx'⟩ := (hobj b).2 o ho
    exact ⟨o', ho', by rwa [hd'], by rwa [hx']⟩
  · rw [hact]
    exact hi.below (by rw [← hfind]; exact hn)
  · by_cases hut : u = t
    · subst hut
      exact absurd (by simpa using hu) (hl b)
    · exact hi.member u b (by simpa [hut] using hu)
  · refine Counts.moves hi.readers (i := t) ?_ fun u hu => ?_
    · simpa using hr
    · simp [hu]
  · obtain ⟨N, hN⟩ := hi.space
    exact ⟨N, fun b hb => (hobj b).1 (hN b hb)⟩

theorem FirstJoins.Sound.readers_pos (hi : s.Sound M n) (ht : (s.place t).Reads) :
    0 < s.g.hash_readers := by
  have hpos := (Set.ncard_pos hi.readers.1).mpr ⟨t, ht⟩
  have := hi.readers.2
  omega

/-- The insertion section of the join that comes to it alone. -/
theorem FirstJoins.Sound.insert {j : JoinParams} {x : Globals ν × RegistryPc ν}
    (hi : s.Sound M n) (hk : s.place t = .registry j (.insert n))
    (hg : ∀ u j', u ≠ t → s.place u ≠ .registry j' (.insert n))
    (hx : createInsert M s.g n b = some x) :
    FirstJoins.Sound M n ⟨x.1, s.room, Function.update s.place t (x.2.firstJoin j)⟩ := by
  obtain ⟨-, habsent⟩ : n = n ∧ s.g.find n = none := by
    have hfit := hi.fits t
    rwa [hk] at hfit
  have hroom : ¬ ((s.g.find n).isSome ∨ M ≤ s.g.active_broadcasts.toNat) := by
    rw [habsent]
    have := hi.below habsent
    simp
    omega
  unfold createInsert at hx
  split_ifs at hx with hfree
  obtain rfl := Option.some.inj hx
  obtain ⟨hreaders, hfresh⟩ := not_or.mp hfree
  have hfind : ∀ {g' : Globals ν}, g'.broadcast_hash = (n, b) :: s.g.broadcast_hash →
      g'.find n = some b := fun hg' => by simp [Globals.find, hg']
  -- nobody else has found the name, or missed it and is not through
  have hother : ∀ u, u ≠ t → (s.place u).Fits n (some b) := by
    intro u hu
    have hfit := hi.fits u
    rw [habsent] at hfit
    cases hpc : s.place u with
    | outside => trivial
    | registry j' pc =>
      rw [hpc] at hfit
      cases pc with
      | lookup => exact hfit
      | insert n' =>
        obtain ⟨rfl, -⟩ := hfit
        exact absurd hpc (hg u j' hu)
      | found | alive => cases hfit.2.2
      | passed | bumped => cases hfit.2
      | seed => cases hfit
      | _ => exact hfit.elim
    | away =>
      rw [hpc] at hfit
      exact hfit.elim
    | _ =>
      rw [hpc] at hfit
      cases hfit
  refine ⟨fun u => ?_, fun b' hb' => ?_, fun hn => ?_, hi.unlocked, fun u b' hu => ?_, ?_, ?_⟩
  · rw [hfind rfl]
    by_cases hut : u = t
    · subst hut
      simp [RegistryPc.firstJoin, FirstJoinPc.Fits]
    · simpa [hut] using hother u hut
  · obtain rfl : b = b' := Option.some.inj ((hfind rfl).symm.trans hb')
    exact ⟨.create n, by simp, by simp [Obj.create], by simp [Obj.create]⟩
  · cases (hfind rfl).symm.trans hn
  · by_cases hut : u = t
    · subst hut
      simp [RegistryPc.firstJoin, FirstJoinPc.Listed] at hu
    · exact hi.member u b' (by simpa [hut] using hu)
  · refine Counts.moves hi.readers (i := t) (.stays ?_ rfl) fun u hu => ?_
    · simp [hk, RegistryPc.firstJoin, FirstJoinPc.Reads]
    · simp [hu]
  · obtain ⟨N, hN⟩ := hi.space
    refine ⟨max N (b + 1), fun b' hb' => ?_⟩
    have hle : N ≤ b' ∧ b + 1 ≤ b' := by omega
    have hne : b' ≠ b := by omega
    simpa [hne] using hN b' hle.1

/-- Where a join in the registry goes. -/
theorem FirstJoins.Sound.registry {j : JoinParams} {pc : RegistryPc ν}
    {x : Globals ν × RegistryPc ν} (hi : s.Sound M n) (hk : s.place t = .registry j pc)
    (hc : c ≠ .fail)
    (hg : ∀ n, pc = .insert n → ∀ u j', u ≠ t → s.place u ≠ .registry j' (.insert n))
    (hx : registryThread M s.g c pc = some x) :
    FirstJoins.Sound M n ⟨x.1, s.room, Function.update s.place t (x.2.firstJoin j)⟩ := by
  have hfit := hi.fits t
  rw [hk] at hfit
  have stays : ∀ {k : FirstJoinPc ν}, (k.Reads ↔ (FirstJoinPc.registry j pc).Reads) →
      Follows (s.place t).Reads k.Reads (s.g.hash_readers : ℤ) s.g.hash_readers :=
    fun hr => .stays (by rw [hr, hk]) rfl
  cases pc with
  | lookup n' api =>
    obtain ⟨rfl, rfl⟩ := hfit
    simp only [registryThread, findAndRef] at hx
    split at hx
    · next hnone =>
      obtain rfl := Option.some.inj hx
      exact hi.moved rfl rfl (.refl _) (stays Iff.rfl) ⟨rfl, hnone⟩ fun _ => id
    · next b hb =>
      obtain rfl := Option.some.inj hx
      refine hi.moved rfl rfl (.refl _) (.enters ?_ trivial (Nat.cast_succ _)) ⟨rfl, rfl, hb⟩
        fun _ => id
      rw [hk]
      exact id
  | found n' b api =>
    obtain ⟨rfl, rfl, hb⟩ := hfit
    obtain ⟨o, ho, hd, -⟩ := hi.live b hb
    simp only [registryThread, findAndRef, ho, Option.map_some, if_neg hd] at hx
    obtain rfl := Option.some.inj hx
    exact hi.moved rfl rfl (.refl _) (stays Iff.rfl) ⟨rfl, rfl, hb⟩ fun _ => id
  | alive n' b api =>
    obtain ⟨rfl, rfl, hb⟩ := hfit
    obtain ⟨o, ho, -, hd⟩ := hi.live b hb
    simp only [registryThread, findAndRef, ho, Option.map_some, if_neg hd] at hx
    obtain rfl := Option.some.inj hx
    exact hi.moved rfl rfl (.refl _) (stays Iff.rfl) ⟨rfl, hb⟩ fun _ => id
  | passed b api =>
    obtain ⟨rfl, hb⟩ := hfit
    obtain rfl := Option.some.inj hx
    exact hi.moved rfl rfl (.modify _ b fun _ => ⟨rfl, rfl⟩) (stays Iff.rfl) ⟨rfl, hb⟩ fun _ => id
  | bumped b api =>
    obtain ⟨rfl, hb⟩ := hfit
    obtain rfl := Option.some.inj hx
    have hread : (s.place t).Reads := by
      rw [hk]
      trivial
    have hpos := hi.readers_pos hread
    refine hi.moved rfl rfl (.refl _) (.leaves hread id ?_) hb fun _ => id
    simp only
    omega
  | seed b =>
    obtain rfl := Option.some.inj hx
    exact hi.moved rfl rfl (.modify _ b fun _ => ⟨rfl, rfl⟩) (stays Iff.rfl) hfit fun _ => id
  | insert n' =>
    obtain ⟨rfl, habsent⟩ := hfit
    simp only [registryThread] at hx
    split at hx
    · exact absurd rfl hc
    · exact hi.insert hk (hg n' rfl) hx
    · cases hx
  | idle | hold | destroy | sweep => exact hfit.elim

theorem listenerAdd_keeps (room : Broadcast) (t : ℕ) (k : ListenerAddPc) :
    (listenerAdd p room t k).1.destroyed = room.destroyed ∧
      (listenerAdd p room t k).1.locked = room.locked ∧
      ∀ u ∈ room.listeners, u ∈ (listenerAdd p room t k).1.listeners := by
  have enqueue : ∀ (b : Broadcast) (e : EventType) (i : ℕ), (enqueueEvent p b e i).destroyed =
      b.destroyed ∧ (enqueueEvent p b e i).locked = b.locked ∧
        (enqueueEvent p b e i).listeners = b.listeners := by
    intro b e i
    unfold enqueueEvent
    split_ifs <;> exact ⟨rfl, rfl, rfl⟩
  cases k with
  | destroyed | locked | running => exact ⟨rfl, rfl, fun _ => id⟩
  | link =>
    simp only [listenerAdd]
    split_ifs
    · exact ⟨rfl, rfl, fun _ => id⟩
    · simp only [listenerLink]
      split_ifs <;> exact ⟨rfl, rfl, fun _ => List.mem_cons_of_mem _⟩
  | stats =>
    simp only [listenerAdd]
    split_ifs
    · exact ⟨rfl, rfl, fun _ => id⟩
    · obtain ⟨hd, hl, hlist⟩ := enqueue { room with stat_listeners_joined := _ } .listenerJoin
        (room.member t).id
      refine ⟨hd, hl, fun u hu => ?_⟩
      rw [hlist]
      exact hu

omit [DecidableEq ν] in
/-- A listener that is not turned away comes one place further, and is listed from the link on. -/
theorem listenerAdd_place {room : Broadcast} {k : ListenerAddPc} (hd : room.destroyed = false)
    (hl : room.locked = false) (hroom : k = .link → room.listener_count < p.max_listeners)
    (hlist : (FirstJoinPc.add b k : FirstJoinPc ν).Listed b → t ∈ room.listeners) :
    (firstAdd b (listenerAdd p room t k).2 : FirstJoinPc ν).Fits n (some b) ∧
      ¬ (firstAdd b (listenerAdd p room t k).2 : FirstJoinPc ν).Reads ∧
      ∀ b', (firstAdd b (listenerAdd p room t k).2 : FirstJoinPc ν).Listed b' →
        b = b' ∧ t ∈ (listenerAdd p room t k).1.listeners := by
  cases k with
  | destroyed =>
    simp only [listenerAdd, hd]
    exact ⟨rfl, id, fun _ => False.elim⟩
  | locked =>
    simp only [listenerAdd, hl]
    exact ⟨rfl, id, fun _ => False.elim⟩
  | link =>
    have hlt : ¬ p.max_listeners ≤ room.listener_count := Nat.not_le_of_lt (hroom rfl)
    simp only [listenerAdd, if_neg hlt]
    refine ⟨rfl, id, fun _ hb => ⟨hb, ?_⟩⟩
    simp only [listenerLink]
    split_ifs <;> exact List.mem_cons_self
  | stats =>
    have hkeep := (listenerAdd_keeps (p := p) room t .stats).2.2 t (hlist rfl)
    have hnext : (listenerAdd p room t .stats).2 = .run .running := by
      simp only [listenerAdd]
      split_ifs <;> rfl
    rw [hnext]
    exact ⟨rfl, id, fun _ hb => ⟨hb, hkeep⟩⟩
  | running => exact ⟨rfl, id, fun _ hb => ⟨hb, hlist rfl⟩⟩

/-- A step of one join in the room of its object. -/
theorem FirstJoins.Sound.entered {room : Broadcast} {k : FirstJoinPc ν} (hi : s.Sound M n)
    (hread : ¬ (s.place t).Reads) (hk : k.Fits n (s.g.find n)) (hread' : ¬ k.Reads)
    (hroom : room.destroyed = false ∧ room.locked = false)
    (hlist : ∀ u ∈ (s.room b).listeners, u ∈ room.listeners)
    (hl : ∀ b', k.Listed b' → b = b' ∧ t ∈ room.listeners) :
    FirstJoins.Sound M n
      ⟨s.g, Function.update s.room b room, Function.update s.place t k⟩ := by
  refine ⟨fun u => ?_, hi.live, hi.below, fun b' => ?_, fun u b' hu => ?_, ?_, hi.space⟩
  · by_cases hut : u = t
    · subst hut
      simpa using hk
    · simpa [hut] using hi.fits u
  · by_cases hb : b' = b
    · subst hb
      simpa using hroom
    · simpa [hb] using hi.unlocked b'
  · by_cases hut : u = t
    · subst hut
      obtain ⟨rfl, hm⟩ := hl b' (by simpa using hu)
      simpa using hm
    · have hm := hi.member u b' (by simpa [hut] using hu)
      by_cases hb : b' = b
      · subst hb
        simpa using hlist u hm
      · simpa [hb] using hm
  · refine Counts.moves hi.readers (i := t) (.stays ?_ rfl) fun u hu => ?_
    · simp [hread, hread']
    · simp [hu]

theorem FirstJoins.Sound.step (hi : s.Sound M n) (hn : NothingFails p s a) (hg : InsertsAlone s a)
    (hs : firstJoinStep M p n s a = some s') : s'.Sound M n := by
  cases a with
  | join t j =>
    simp only [firstJoinStep] at hs
    split_ifs at hs with hidle
    obtain rfl := Option.some.inj hs
    refine hi.moved rfl rfl (.refl _) (.stays ?_ rfl) ⟨rfl, rfl⟩ fun _ => id
    rw [hidle.1]
    exact Iff.rfl
  | step t c =>
    obtain ⟨x, hx, rfl⟩ := Option.map_eq_some_iff.mp hs
    have hfit := hi.fits t
    cases hk : s.place t with
    | outside | member | speaker | away =>
      rw [hk] at hx
      cases hx
    | registry j pc =>
      rw [hk] at hx
      obtain ⟨y, hy, rfl⟩ := Option.map_eq_some_iff.mp hx
      exact hi.registry hk hn.1 (fun n' hpc => hg j n' (by rw [hk, hpc])) hy
    | prepare j b =>
      rw [hk] at hx hfit
      simp only [firstJoin, if_neg hn.1] at hx
      obtain rfl := Option.some.inj hx
      refine hi.entered (by rw [hk]; exact id) ?_ ?_ (hi.unlocked b) (fun _ => id) fun b' => ?_
      · split_ifs <;> exact hfit
      · split_ifs <;> exact id
      · split_ifs <;> exact False.elim
    | add b k =>
      rw [hk] at hx hfit
      obtain rfl := Option.some.inj hx
      obtain ⟨hd, hl⟩ := hi.unlocked b
      obtain ⟨hd', hl', hlist⟩ := listenerAdd_keeps (p := p) (s.room b) t k
      have hfound : s.g.find n = some b := hfit
      obtain ⟨hfit', hread, hlisted⟩ := listenerAdd_place (n := n) (t := t) (b := b) (p := p)
        (k := k) hd hl (fun he => hn.2 b (by rw [hk, he]))
        (fun hb => hi.member t b (by rw [hk]; exact hb))
      refine hi.entered (by rw [hk]; exact id) ?_ hread ⟨hd'.trans hd, hl'.trans hl⟩ hlist hlisted
      rw [hfound]
      exact hfit'

/-- A join does not go round in circles. -/
theorem firstJoin_advances {k : FirstJoinPc ν} {g : Globals ν} {room : ℕ → Broadcast}
    {x : Globals ν × (ℕ → Broadcast) × FirstJoinPc ν} {found : Option ℕ} (hk : k.Fits n found)
    (hx : firstJoin M p g room t c k = some x) : k.rank < x.2.2.rank := by
  cases k with
  | outside | member | speaker | away => cases hx
  | prepare j b =>
    simp only [firstJoin] at hx
    split_ifs at hx <;> obtain rfl := Option.some.inj hx <;> simp [FirstJoinPc.rank]
  | add b k =>
    obtain rfl := Option.some.inj hx
    cases k with
    | destroyed | locked | link | stats =>
      dsimp only
      split_ifs <;> simp [firstAdd, Progress.resume, FirstJoinPc.rank]
    | running => simp [firstAdd, Progress.resume, FirstJoinPc.rank]
  | registry j pc =>
    obtain ⟨⟨g', pc'⟩, hy, rfl⟩ := Option.map_eq_some_iff.mp hx
    cases pc with
    | lookup n' api =>
      obtain ⟨-, rfl⟩ := hk
      simp only [registryThread, findAndRef] at hy
      split at hy <;> obtain ⟨-, rfl⟩ := Prod.mk.inj (Option.some.inj hy) <;>
        simp [RegistryPc.firstJoin, FirstJoinPc.rank]
    | found n' b api | alive n' b api =>
      obtain ⟨-, rfl, -⟩ := hk
      obtain ⟨o, -, ho⟩ := Option.map_eq_some_iff.mp hy
      split_ifs at ho <;> obtain ⟨-, rfl⟩ := Prod.mk.inj ho <;>
        simp [RegistryPc.firstJoin, FirstJoinPc.rank]
    | passed | bumped | seed =>
      obtain ⟨-, rfl⟩ := Prod.mk.inj (Option.some.inj hy)
      simp [RegistryPc.firstJoin, FirstJoinPc.rank]
    | insert n' =>
      simp only [registryThread] at hy
      split at hy
      · obtain ⟨-, rfl⟩ := Prod.mk.inj (Option.some.inj hy)
        simp [RegistryPc.firstJoin, FirstJoinPc.rank]
      · unfold createInsert at hy
        split_ifs at hy <;> obtain ⟨-, rfl⟩ := Prod.mk.inj (Option.some.inj hy) <;>
          simp [RegistryPc.firstJoin, FirstJoinPc.rank]
      · cases hy
    | idle | hold | destroy | sweep => exact hk.elim

/-- Somebody can go on: who is outside of the lock, or else who is inside. -/
theorem FirstJoins.Sound.moves (hi : s.Sound M n) (hu : (s.place t).Underway) :
    ∃ t c s', c ≠ .fail ∧ firstJoinStep M p n s (.step t c) = some s' ∧
      (s.place t).rank < (s'.place t).rank := by
  have go : ∀ {u c}, c ≠ .fail → (firstJoin M p s.g s.room u c (s.place u)).isSome →
      ∃ t c s', c ≠ .fail ∧ firstJoinStep M p n s (.step t c) = some s' ∧
        (s.place t).rank < (s'.place t).rank := by
    intro u c hc hs
    obtain ⟨x, hx⟩ := Option.isSome_iff_exists.mp hs
    refine ⟨u, c, ⟨x.1, x.2.1, Function.update s.place u x.2.2⟩, hc, ?_, ?_⟩
    · simp [firstJoinStep, hx]
    · simpa using firstJoin_advances (hi.fits u) hx
  have hgo : (RegistryChoice.go : RegistryChoice ν) ≠ .fail := by simp
  -- a reader is never held up
  have reader : ∀ u, (s.place u).Reads →
      (firstJoin M p s.g s.room u .go (s.place u)).isSome := by
    intro u hr
    have hfit := hi.fits u
    generalize s.place u = k at hr hfit
    cases k with
    | registry j pc =>
      cases pc with
      | found n' b api | alive n' b api =>
        obtain ⟨o, ho, -⟩ := hi.live b hfit.2.2
        simp [firstJoin, registryThread, findAndRef, ho]
      | passed | bumped => rfl
      | _ => exact hr.elim
    | _ => exact hr.elim
  by_cases hr : ∃ u, (s.place u).Reads
  · obtain ⟨u, hr⟩ := hr
    exact go hgo (reader u hr)
  · have hreaders : s.g.hash_readers = 0 := by
      have hset : {t | (s.place t).Reads} = ∅ := Set.eq_empty_of_forall_notMem (not_exists.mp hr)
      have hcount := hi.readers.2
      rw [hset, Set.ncard_empty] at hcount
      exact_mod_cast hcount
    have hfit := hi.fits t
    have hno := not_exists.mp hr t
    cases hk : s.place t with
    | registry j pc =>
      rw [hk] at hfit hno
      cases pc with
      | lookup n' api =>
        refine go (u := t) hgo ?_
        rw [hk]
        simp only [firstJoin, registryThread, findAndRef]
        split <;> rfl
      | insert n' =>
        obtain ⟨N, hN⟩ := hi.space
        refine go (u := t) (c := .alloc N) (by simp) ?_
        rw [hk]
        simp only [firstJoin, registryThread, createInsert, hreaders, hN N (Nat.le_refl N)]
        split_ifs with h₁
        · simp at h₁
        all_goals rfl
      | seed b =>
        refine go (u := t) hgo ?_
        rw [hk]
        rfl
      | found | alive | passed | bumped => exact absurd trivial hno
      | _ => exact hfit.elim
    | prepare j b =>
      refine go (u := t) hgo ?_
      rw [hk]
      simp [firstJoin]
    | add b k =>
      refine go (u := t) hgo ?_
      rw [hk]
      rfl
    | _ =>
      rw [hk] at hu
      exact hu.elim

theorem FirstJoins.Sound.meet (hi : s.Sound M n) : s.Meet M p n where
  taken t hp := by
    have hfit := hi.fits t
    rw [hp] at hfit
    exact hfit
  one t _ ho := (hi.fits t).object ho
  member t b hp := hi.member t b (by rw [hp]; rfl)
  moves h := by
    obtain ⟨t, hu⟩ := h
    exact hi.moves hu

theorem first_joins_meet {g : Globals ν} (hg : g.Ready M n)
    (hr : Run (firstJoinStep M p n) (FirstJoins.init g) h s) (hn : Meets (NothingFails p) h)
    (hm : Meets InsertsAlone h) : s.Meet M p n :=
  (hr.invariant (I := FirstJoins.Sound M n) (fun _ _ _ hi hg hs => hi.step hg.1 hg.2 hs)
    (hn.and hm) (.init hg)).meet

def FirstJoinAction.thread : FirstJoinAction ν → ℕ
  | .join t _ | .step t _ => t

def firstJoinTest (p : RoomProfile) (s : FirstJoins ν) : FirstJoinAction ν → Bool
  | .step t c =>
    match s.place t with
    | .add b .link => c ≠ .fail ∧ (s.room b).listener_count < p.max_listeners
    | _ => c ≠ .fail
  | .join _ _ => true

def aloneTest (N : ℕ) (s : FirstJoins ν) : FirstJoinAction ν → Bool
  | .step t _ =>
    match s.place t with
    | .registry _ (.insert n) => (List.range N).all fun u =>
      match s.place u with
      | .registry _ (.insert n') => u = t ∨ n' ≠ n
      | _ => true
    | _ => true
  | .join _ _ => true

theorem nothingFails_of_test (ht : firstJoinTest p s a = true) : NothingFails p s a := by
  cases a with
  | join t j => trivial
  | step t c =>
    simp only [firstJoinTest] at ht
    split at ht
    · next b hk =>
      obtain ⟨hc, hlt⟩ := of_decide_eq_true ht
      refine ⟨hc, fun b' hb' => ?_⟩
      obtain ⟨rfl, -⟩ := FirstJoinPc.add.inj (hk.symm.trans hb')
      exact hlt
    · next hno => exact ⟨of_decide_eq_true ht, fun b hb => absurd hb (hno b)⟩

theorem insertsAlone_of_test {N : ℕ} (hi : ∀ t, N ≤ t → s.place t = .outside)
    (ht : aloneTest N s a = true) : InsertsAlone s a := by
  cases a with
  | join t j => trivial
  | step t c =>
    intro j n' hk u j' hu hu'
    have hlt : u < N := by
      by_contra hle
      rw [hi u (Nat.le_of_not_lt hle)] at hu'
      cases hu'
    simp only [aloneTest, hk, List.all_eq_true, List.mem_range] at ht
    have := ht u hlt
    rw [hu'] at this
    simp [hu] at this

theorem outside_step {N : ℕ} (hi : ∀ t, N ≤ t → s.place t = .outside) (ha : a.thread < N)
    (hs : firstJoinStep M p n s a = some s') : ∀ t, N ≤ t → s'.place t = .outside := by
  intro t ht
  have hne : t ≠ a.thread := by omega
  cases a with
  | join u j =>
    simp only [firstJoinStep] at hs
    split_ifs at hs
    obtain rfl := Option.some.inj hs
    simpa [show t ≠ u from hne] using hi t ht
  | step u c =>
    obtain ⟨x, -, rfl⟩ := Option.map_eq_some_iff.mp hs
    simpa [show t ≠ u from hne] using hi t ht

theorem ready_empty : (⟨[], 0, 0, fun _ => none⟩ : Globals ℕ).Ready 1 0 where
  absent := rfl
  free := rfl
  below := by decide
  space := ⟨0, fun _ _ => rfl⟩

/-- A second join begins while the first one creates the broadcast and looks the name up after
that. -/
theorem first_joins_meet_both :
    ∃ (h : List (FirstJoins ℕ × FirstJoinAction ℕ)) (s : FirstJoins ℕ),
      Run (firstJoinStep 1 ⟨8, false, 16, false, false⟩ 0)
        (FirstJoins.init ⟨[], 0, 0, fun _ => none⟩) h s ∧
      s.place 0 = .member 0 ∧ s.place 1 = .member 0 ∧
      s.Meet 1 ⟨8, false, 16, false, false⟩ 0 := by
  obtain ⟨h, s, hr, hm, hv⟩ := exists_run_observing
    (firstJoinStep 1 ⟨8, false, 16, false, false⟩ (0 : ℕ))
    (fun s a => a.thread < 2 && (firstJoinTest ⟨8, false, 16, false, false⟩ s a && aloneTest 2 s a))
    (FirstJoins.init ⟨[], 0, 0, fun _ => none⟩)
    (List.flatten [[.join 0 ⟨.listener, false, false⟩, .step 0 .go,
      .join 1 ⟨.listener, false, false⟩, .step 0 (.alloc 0)], List.replicate 5 (.step 1 .go),
      List.replicate 7 (.step 0 .go), List.replicate 6 (.step 1 .go)])
    (fun _ s => (s.place 0, s.place 1)) (v := (.member 0, .member 0)) (by decide)
  obtain ⟨h0, h1⟩ := Prod.mk.inj hv
  have htest := hm.mono fun _ _ h => Bool.and_eq_true_iff.mp h
  have hmeets : Meets InsertsAlone h := hr.meets_of_invariant
    (I := fun s => ∀ t, 2 ≤ t → s.place t = .outside)
    (fun _ _ _ hi hg hs => outside_step hi (of_decide_eq_true hg.1) hs)
    (fun _ _ _ hi hg _ => insertsAlone_of_test hi (Bool.and_eq_true_iff.mp hg.2).2) htest
    fun _ _ => rfl
  exact ⟨h, s, hr, h0, h1, first_joins_meet ready_empty hr
    (htest.mono fun _ _ h => nothingFails_of_test (Bool.and_eq_true_iff.mp h.2).1) hmeets⟩

/-- Both joins miss the name before one of them inserts it. -/
theorem first_joins_collide : ¬ ∀ (h : List (FirstJoins ℕ × FirstJoinAction ℕ)) (s : FirstJoins ℕ),
    Run (firstJoinStep 1 ⟨8, false, 16, false, false⟩ 0)
      (FirstJoins.init ⟨[], 0, 0, fun _ => none⟩) h s →
      Meets (NothingFails ⟨8, false, 16, false, false⟩) h →
        s.Meet 1 ⟨8, false, 16, false, false⟩ 0 := by
  refine not_forall_run (firstJoinTest ⟨8, false, 16, false, false⟩)
    [.join 0 ⟨.listener, false, false⟩, .join 1 ⟨.listener, false, false⟩, .step 0 .go, .step 1 .go,
      .step 0 (.alloc 0), .step 1 (.alloc 1)]
    (fun _ s => s.place 1) (v := .away) (by decide) ?_
  intro h s _ hm hv hall
  exact (hall (hm.mono fun _ _ => nothingFails_of_test)).taken 1 hv

end ModBroadcast
