import Mathlib.Logic.Function.Basic
import ModBroadcast.Automaton
import ModBroadcast.Config

namespace ModBroadcast

open Automaton

/-- The name that a join hands to `broadcast_create`: its own one, or what it has read from
`default_profile_name`. -/
inductive ProfileName
  | own (text : String)
  | default (name : Option PoolString)
  deriving DecidableEq

def ProfileName.text : ProfileName → Option String
  | .own text => if text = "" then none else some text
  | .default name => (name.map PoolString.text).filter (· ≠ "")

/-- A join that has found no broadcast, up to the clone of the profile. -/
inductive CreatePc
  | idle
  | fetch (prof : String)
  | pool (name : ProfileName)
  | lock (name : ProfileName)
  | find (name : ProfileName)
  | clone (src : BroadcastProfile)
  | unlock (prof : Option BroadcastProfile)
  | returned (prof : Option BroadcastProfile)
  deriving DecidableEq

/-- The stores of `broadcast_config_reload` and `broadcast_config_load`, in their order. -/
inductive ReloadPc
  | idle
  | profiles | groups | name | xml | pool | newPool
  | open_cfg (n : ℕ)
  | abort (n : ℕ)
  | storeXml (n : ℕ) (x : XmlConfig)
  | default (n : ℕ) (x : XmlConfig)
  | limits (n : ℕ) (x : XmlConfig)
  | settings (n : ℕ) (x : XmlConfig) (rest : List XmlParam)
  | tables (n : ℕ) (x : XmlConfig)
  | controls (n : ℕ) (x : XmlConfig)
  | commit (n : ℕ)

/-- `destroyed` are the configuration pools that are gone; `readers` and `writer` hold
`config_rwlock`. -/
structure Configuration where
  g : ConfigGlobals
  next_pool : ℕ
  destroyed : List ℕ
  readers : List ℕ
  writer : Option ℕ
  create : ℕ → CreatePc
  reload : ℕ → ReloadPc

inductive ConfigAction
  | join (v : ℕ) (prof : String)
  | create (v : ℕ) (ok : Bool)
  | reload (u : ℕ)
  | step (u : ℕ) (ok : Bool) (x : Option XmlConfig)

variable (switch_true : String → Bool)

def Configuration.init (x : XmlConfig) : Configuration :=
  ⟨configInit switch_true 0 x, 1, [], [], none, fun _ => .idle, fun _ => .idle⟩

/-- The next store of a reload; `ok` tells whether it gets a pool, `x` is the file. -/
def reloadStores (s : Configuration) (ok : Bool) (x : Option XmlConfig) :
    ReloadPc → Option (Configuration × ReloadPc)
  | .idle => none
  | .profiles => some ({ s with g := { s.g with profiles := [] } }, .groups)
  | .groups => some ({ s with g := { s.g with control_groups := [] } }, .name)
  | .name => some ({ s with g := { s.g with default_profile_name := none } }, .xml)
  | .xml => some ({ s with g := { s.g with config_xml := false } }, .pool)
  | .pool =>
    some ({ s with
      g := { s.g with config_pool := none }
      destroyed := s.g.config_pool.toList ++ s.destroyed }, .newPool)
  | .newPool =>
    if ok then some ({ s with next_pool := s.next_pool + 1 }, .open_cfg s.next_pool)
    else some ({ s with writer := none }, .idle)
  | .open_cfg n => some (s, match x with | some x => .storeXml n x | none => .abort n)
  | .abort n => some ({ s with destroyed := n :: s.destroyed, writer := none }, .idle)
  | .storeXml n x => some ({ s with g := { s.g with config_xml := true } }, .default n x)
  | .default n x =>
    some ({ s with g := { s.g with default_profile_name := some ⟨n, "default"⟩ } }, .limits n x)
  | .limits n x =>
    some ({ s with g := { s.g with
        max_broadcasts := 500
        event_ring_size := BROADCAST_EVENT_RING_SIZE } }, .settings n x (x.settings.getD []))
  | .settings n x (param :: rest) =>
    some ({ s with g := configSetting n s.g param }, .settings n x rest)
  | .settings n x [] => some (s, .tables n x)
  | .tables n x =>
    some ({ s with g := { s.g with profiles := bParseProfiles switch_true n x } }, .controls n x)
  | .controls n x =>
    some ({ s with g := { s.g with control_groups := bParseControlGroups x } }, .commit n)
  | .commit n => some ({ s with g := { s.g with config_pool := some n }, writer := none }, .idle)

/-- The next step of a join; `ok` tells whether `broadcast_create` gets its memory pool. -/
def createStep (s : Configuration) (v : ℕ) (ok : Bool) :
    CreatePc → Option (Configuration × CreatePc)
  | .idle | .returned _ => none
  -- read outside of `config_rwlock`
  | .fetch prof =>
    some (s, .pool (if prof = "" then .default s.g.default_profile_name else .own prof))
  | .pool name => some (s, if ok then .lock name else .returned none)
  | .lock name =>
    if s.writer = none then some ({ s with readers := v :: s.readers }, .find name) else none
  | .find name =>
    some (s, match findProfile s.g name.text with | some src => .clone src | none => .unlock none)
  | .clone src => some (s, .unlock (some src))
  | .unlock prof => some ({ s with readers := s.readers.erase v }, .returned prof)

def configStep (s : Configuration) : ConfigAction → Option Configuration
  | .join v prof =>
    if s.create v = .idle then
      some { s with create := Function.update s.create v (.fetch prof) }
    else none
  | .create v ok =>
    (createStep s v ok (s.create v)).map fun x =>
      { x.1 with create := Function.update s.create v x.2 }
  -- the write lock is granted
  | .reload u =>
    if s.writer = none ∧ s.readers = [] then
      some { s with writer := some u, reload := Function.update s.reload u .profiles }
    else none
  | .step u ok x =>
    (reloadStores switch_true s ok x (s.reload u)).map fun y =>
      { y.1 with reload := Function.update s.reload u y.2 }

variable {switch_true : String → Bool} {s t : Configuration} {a : ConfigAction} {u v n : ℕ}
  {h : List (Configuration × ConfigAction)}

def CreatePc.held : CreatePc → Option PoolString
  | .pool (.default name) | .lock (.default name) | .find (.default name) => name
  | _ => none

def CreatePc.Reads : CreatePc → Prop
  | .find _ | .clone _ | .unlock _ => True
  | _ => False

def ReloadPc.into : ReloadPc → Option ℕ
  | .open_cfg n | .abort n | .storeXml n _ | .default n _ | .limits n _ | .settings n _ _
  | .tables n _ | .controls n _ | .commit n => some n
  | _ => none

def ReloadPc.rest : ReloadPc → List XmlParam
  | .limits _ x => x.settings.getD []
  | .settings _ _ rest => rest
  | _ => []

def ReloadPc.Cleared : ReloadPc → Prop
  | .xml | .pool => True
  | _ => False

/-- A reload at this place has cleared the default name, the table of profiles or the pool, and has
not stored a new one. -/
def ReloadPc.NoName : ReloadPc → Prop
  | .xml | .pool | .newPool | .open_cfg _ | .abort _ | .storeXml _ _ | .default _ _ => True
  | _ => False

def ReloadPc.NoProfiles : ReloadPc → Prop
  | .idle | .profiles | .controls _ _ | .commit _ => False
  | _ => True

def ReloadPc.NoPool : ReloadPc → Prop
  | .idle | .profiles | .groups | .name | .xml | .pool => False
  | _ => True

def settingsDefault (text : String) (l : List XmlParam) : String :=
  l.foldl (fun text param =>
    if caseEq param.name "default-profile" ∧ param.value ≠ "" then param.value else text) text

def Configuration.writing (s : Configuration) : ReloadPc := (s.writer.map s.reload).getD .idle

def Configuration.generation (s : Configuration) : Option ℕ := s.writing.into.or s.g.config_pool

def Configuration.nameToCome (s : Configuration) : Option PoolString :=
  s.g.default_profile_name.map fun name => ⟨name.pool, settingsDefault name.text s.writing.rest⟩

def Configuration.Current (s : Configuration) (n : ℕ) : Prop :=
  n ∉ s.destroyed ∧ s.g.config_pool = some n

/-- What a join uses of the configuration is of the generation that it looks the profile up in. -/
def UsesOneGeneration (s : Configuration) : ConfigAction → Prop
  | .create v _ =>
    match s.create v with
    | .find name =>
      (∀ str, name = .default (some str) →
        s.Current str.pool ∧ s.g.default_profile_name = some str) ∧
        (∀ str, name.text = none → s.g.default_profile_name = some str → s.Current str.pool) ∧
        ∀ p, findProfile s.g name.text = some p → s.Current p.pool
    | .clone src => s.Current src.pool
    | _ => True
  | _ => True

/-- A join does not read a default name that the running load replaces, and no reload
destroys the pool of a name that a join has read and not looked up. -/
def NameInTime (s : Configuration) : ConfigAction → Prop
  | .create v _ => s.create v = .fetch "" → s.nameToCome = s.g.default_profile_name
  | .step u _ _ => s.reload u = .pool → ∀ v str, (s.create v).held = some str →
      s.g.config_pool ≠ some str.pool
  | _ => True

/-- What is in force and what a reload at the place `k` has stored so far. -/
structure TablesAt (g : ConfigGlobals) (next : ℕ) (destroyed : List ℕ) (k : ReloadPc) : Prop where
  noName : k.NoName → g.default_profile_name = none
  noProfiles : k.NoProfiles → g.profiles = []
  noPool : k.NoPool → g.config_pool = none
  live : ∀ n, k.into.or g.config_pool = some n → n < next ∧ n ∉ destroyed
  gone : ∀ n ∈ destroyed, n < next
  name : ∀ str, g.default_profile_name = some str → k.into.or g.config_pool = some str.pool
  profiles : ∀ p ∈ g.profiles, k.into.or g.config_pool = some p.pool

structure Configuration.TablesSound (s : Configuration) : Prop where
  writing : ∀ u, s.reload u ≠ .idle ↔ s.writer = some u
  tables : TablesAt s.g s.next_pool s.destroyed s.writing

structure Configuration.JoinsSound (s : Configuration) : Prop where
  reading : ∀ v, v ∈ s.readers ↔ (s.create v).Reads
  once : s.readers.Nodup
  excluded : s.writer ≠ none → s.readers = []
  found : ∀ v src, s.create v = .clone src → src ∈ s.g.profiles
  held : ∀ v str, (s.create v).held = some str → s.generation = some str.pool ∧
    (¬ s.writing.Cleared → s.nameToCome = some str)

theorem Configuration.TablesSound.at (hi : s.TablesSound) (hu : s.reload u ≠ .idle) :
    s.writer = some u ∧ s.writing = s.reload u := by
  have hw := (hi.writing u).mp hu
  exact ⟨hw, by simp [Configuration.writing, hw]⟩

theorem configSetting_name (param : XmlParam) (g : ConfigGlobals) {text : String}
    (hg : g.default_profile_name = some ⟨n, text⟩) :
    (configSetting n g param).default_profile_name =
      some ⟨n, settingsDefault text [param]⟩ := by
  unfold configSetting settingsDefault
  simp only [List.foldl_cons, List.foldl_nil]
  split_ifs <;> simp_all

theorem configSetting_pool {param : XmlParam} {g : ConfigGlobals} {str : PoolString}
    (h : (configSetting n g param).default_profile_name = some str) :
    str.pool = n ∨ g.default_profile_name = some str := by
  unfold configSetting at h
  split_ifs at h
  · exact .inl (by rw [← Option.some.inj h])
  all_goals exact .inr h

theorem configSetting_tables (param : XmlParam) (g : ConfigGlobals) :
    (configSetting n g param).profiles = g.profiles ∧
      (configSetting n g param).config_pool = g.config_pool := by
  unfold configSetting
  split_ifs <;> exact ⟨rfl, rfl⟩

theorem bParseProfiles_pool {x : XmlConfig} {p : BroadcastProfile}
    (hp : p ∈ bParseProfiles switch_true n x) : p.pool = n := by
  obtain ⟨y, -, hy⟩ := List.mem_filterMap.mp hp
  unfold bParseProfile at hy
  split_ifs at hy
  obtain rfl := Option.some.inj hy
  rfl

theorem reloadStores_writing {k' : ReloadPc} {ok : Bool} {x : Option XmlConfig}
    {s' : Configuration} (hi : s.TablesSound) (hu : s.reload u ≠ .idle)
    (hs : reloadStores switch_true s ok x (s.reload u) = some (s', k'))
    (ht : t = { s' with reload := Function.update s.reload u k' }) :
    t.writing = k' ∧ ∀ v, t.reload v ≠ .idle ↔ t.writer = some v := by
  obtain ⟨hw, -⟩ := hi.at hu
  have hother : ∀ v, v ≠ u → s.reload v = .idle := fun v hv => by
    by_contra hne
    exact hv (Option.some.inj (((hi.writing v).mp hne).symm.trans hw))
  -- the reload goes on with the lock, or gives it back at its end
  have hend : s'.writer = some u ∧ k' ≠ .idle ∨ s'.writer = none ∧ k' = .idle := by
    cases hk : s.reload u with
    | idle => exact absurd hk hu
    | newPool =>
      rw [hk] at hs
      simp only [reloadStores] at hs
      split_ifs at hs <;> obtain ⟨rfl, rfl⟩ := Prod.mk.inj (Option.some.inj hs)
      · exact .inl ⟨hw, by simp⟩
      · exact .inr ⟨rfl, rfl⟩
    | open_cfg n =>
      rw [hk] at hs
      obtain ⟨rfl, rfl⟩ := Prod.mk.inj (Option.some.inj hs)
      cases x <;> exact .inl ⟨hw, by simp⟩
    | settings n y rest =>
      rw [hk] at hs
      cases rest <;> obtain ⟨rfl, rfl⟩ := Prod.mk.inj (Option.some.inj hs) <;>
        exact .inl ⟨hw, by simp⟩
    | abort | commit =>
      rw [hk] at hs
      obtain ⟨rfl, rfl⟩ := Prod.mk.inj (Option.some.inj hs)
      exact .inr ⟨rfl, rfl⟩
    | _ =>
      rw [hk] at hs
      obtain ⟨rfl, rfl⟩ := Prod.mk.inj (Option.some.inj hs)
      exact .inl ⟨hw, by simp⟩
  subst ht
  rcases hend with ⟨hw', hne⟩ | ⟨hw', rfl⟩
  · refine ⟨by simp [Configuration.writing, hw'], fun v => ?_⟩
    by_cases hv : v = u
    · subst hv
      simp [hw', hne]
    · simp [hw', hv, hother v hv, Ne.symm hv]
  · refine ⟨by simp [Configuration.writing, hw'], fun v => ?_⟩
    by_cases hv : v = u
    · subst hv
      simp [hw']
    · simp [hw', hv, hother v hv]

theorem reloadStores_frame {k k' : ReloadPc} {ok : Bool} {x : Option XmlConfig} {s' : Configuration}
    (hs : reloadStores switch_true s ok x k = some (s', k')) :
    s'.create = s.create ∧ s'.readers = s.readers := by
  cases k with
  | idle => cases hs
  | newPool =>
    simp only [reloadStores] at hs
    split_ifs at hs <;> obtain ⟨rfl, rfl⟩ := Prod.mk.inj (Option.some.inj hs) <;> exact ⟨rfl, rfl⟩
  | settings n y rest =>
    cases rest <;> obtain ⟨rfl, rfl⟩ := Prod.mk.inj (Option.some.inj hs) <;> exact ⟨rfl, rfl⟩
  | _ =>
    obtain ⟨rfl, rfl⟩ := Prod.mk.inj (Option.some.inj hs)
    exact ⟨rfl, rfl⟩

theorem TablesAt.stores {k k' : ReloadPc} {ok : Bool} {x : Option XmlConfig} {s' : Configuration}
    (hi : TablesAt s.g s.next_pool s.destroyed k)
    (hs : reloadStores switch_true s ok x k = some (s', k')) :
    TablesAt s'.g s'.next_pool s'.destroyed k' := by
  obtain ⟨h1, h2, h3, h4, h5, h6, h7⟩ := hi
  cases k with
  | idle => cases hs
  | profiles | groups | name | xml | storeXml | default | limits =>
    obtain ⟨rfl, rfl⟩ := Prod.mk.inj (Option.some.inj hs)
    constructor <;> simp_all [ReloadPc.NoName, ReloadPc.NoProfiles, ReloadPc.NoPool, ReloadPc.into]
  | pool =>
    obtain ⟨rfl, rfl⟩ := Prod.mk.inj (Option.some.inj hs)
    refine ⟨h1, h2, fun _ => rfl, nofun, fun m hm => ?_, fun str hstr => ?_, fun p hp => ?_⟩
    · rcases List.mem_append.mp hm with hm | hm
      · exact (h4 m (Option.mem_toList.mp hm)).1
      · exact h5 m hm
    · cases (h1 trivial).symm.trans hstr
    · rw [h2 trivial] at hp
      cases hp
  | newPool =>
    have hname := h1 trivial
    have hprof := h2 trivial
    have hpool := h3 trivial
    simp only [reloadStores] at hs
    split_ifs at hs <;> obtain ⟨rfl, rfl⟩ := Prod.mk.inj (Option.some.inj hs)
    · refine ⟨h1, h2, h3, fun m hm => ?_, fun m hm => Nat.lt_succ_of_lt (h5 m hm), by simp [hname],
        by simp [hprof]⟩
      -- the new pool is none of the destroyed ones
      obtain rfl : s.next_pool = m := by simpa [ReloadPc.into] using hm
      exact ⟨Nat.lt_succ_self _, fun hd => Nat.lt_irrefl _ (h5 _ hd)⟩
    · exact ⟨nofun, nofun, nofun, by simp [ReloadPc.into, hpool], h5, by simp [hname],
        by simp [hprof]⟩
  | open_cfg n =>
    obtain ⟨rfl, rfl⟩ := Prod.mk.inj (Option.some.inj hs)
    cases x <;> exact ⟨h1, h2, h3, h4, h5, h6, h7⟩
  | abort n =>
    obtain ⟨rfl, rfl⟩ := Prod.mk.inj (Option.some.inj hs)
    have hname := h1 trivial
    have hprof := h2 trivial
    have hpool := h3 trivial
    refine ⟨nofun, nofun, nofun, by simp [ReloadPc.into, hpool], fun m hm => ?_, by simp [hname],
      by simp [hprof]⟩
    rcases List.mem_cons.mp hm with rfl | hm
    · exact (h4 m rfl).1
    · exact h5 m hm
  | settings n x rest =>
    cases rest with
    | nil =>
      obtain ⟨rfl, rfl⟩ := Prod.mk.inj (Option.some.inj hs)
      exact ⟨nofun, h2, h3, h4, h5, h6, h7⟩
    | cons param rest =>
      obtain ⟨rfl, rfl⟩ := Prod.mk.inj (Option.some.inj hs)
      obtain ⟨hp, hpool⟩ := configSetting_tables (n := n) param s.g
      refine ⟨nofun, fun _ => hp.trans (h2 trivial), fun _ => hpool.trans (h3 trivial), h4, h5,
        fun str hstr => ?_, fun p hm => h7 p (hp ▸ hm)⟩
      rcases configSetting_pool hstr with rfl | hold
      · rfl
      · exact h6 str hold
  | tables n x =>
    obtain ⟨rfl, rfl⟩ := Prod.mk.inj (Option.some.inj hs)
    refine ⟨nofun, nofun, fun _ => h3 trivial, h4, h5, h6, fun p hp => ?_⟩
    rw [bParseProfiles_pool hp]
    rfl
  | controls n x =>
    obtain ⟨rfl, rfl⟩ := Prod.mk.inj (Option.some.inj hs)
    exact ⟨nofun, nofun, fun _ => h3 trivial, h4, h5, h6, h7⟩
  | commit n =>
    obtain ⟨rfl, rfl⟩ := Prod.mk.inj (Option.some.inj hs)
    exact ⟨nofun, nofun, nofun, h4, h5, h6, h7⟩

theorem createStep_frame {ok : Bool} {k k' : CreatePc} {s' : Configuration}
    (hs : createStep s v ok k = some (s', k')) :
    s'.g = s.g ∧ s'.next_pool = s.next_pool ∧ s'.destroyed = s.destroyed ∧ s'.writer = s.writer ∧
      s'.reload = s.reload := by
  cases k with
  | idle | returned => cases hs
  | lock name =>
    simp only [createStep] at hs
    split_ifs at hs
    obtain ⟨rfl, rfl⟩ := Prod.mk.inj (Option.some.inj hs)
    exact ⟨rfl, rfl, rfl, rfl, rfl⟩
  | _ =>
    obtain ⟨rfl, rfl⟩ := Prod.mk.inj (Option.some.inj hs)
    exact ⟨rfl, rfl, rfl, rfl, rfl⟩

/-- A join takes the read lock when no reload has the write lock, and gives it back. -/
theorem createStep_readers {ok : Bool} {k k' : CreatePc} {s' : Configuration}
    (hs : createStep s v ok k = some (s', k')) :
    s'.readers = s.readers ∧ (k'.Reads ↔ k.Reads) ∨
      s'.readers = v :: s.readers ∧ s.writer = none ∧ ¬ k.Reads ∧ k'.Reads ∨
      s'.readers = s.readers.erase v ∧ k.Reads ∧ ¬ k'.Reads := by
  cases k with
  | idle | returned => cases hs
  | fetch prof =>
    obtain ⟨rfl, rfl⟩ := Prod.mk.inj (Option.some.inj hs)
    exact .inl ⟨rfl, Iff.rfl⟩
  | pool name =>
    obtain ⟨rfl, rfl⟩ := Prod.mk.inj (Option.some.inj hs)
    cases ok <;> exact .inl ⟨rfl, Iff.rfl⟩
  | lock name =>
    simp only [createStep] at hs
    split_ifs at hs with hw
    obtain ⟨rfl, rfl⟩ := Prod.mk.inj (Option.some.inj hs)
    exact .inr (.inl ⟨rfl, hw, id, trivial⟩)
  | find name =>
    obtain ⟨rfl, rfl⟩ := Prod.mk.inj (Option.some.inj hs)
    split <;> exact .inl ⟨rfl, Iff.rfl⟩
  | clone src =>
    obtain ⟨rfl, rfl⟩ := Prod.mk.inj (Option.some.inj hs)
    exact .inl ⟨rfl, Iff.rfl⟩
  | unlock prof =>
    obtain ⟨rfl, rfl⟩ := Prod.mk.inj (Option.some.inj hs)
    exact .inr (.inr ⟨rfl, trivial, id⟩)

/-- A string is held from its fetch on. -/
theorem createStep_held {ok : Bool} {k k' : CreatePc} {s' : Configuration} {str : PoolString}
    (hs : createStep s v ok k = some (s', k')) (hk : k'.held = some str) :
    k.held = some str ∨ k = .fetch "" ∧ s.g.default_profile_name = some str := by
  cases k with
  | idle | returned => cases hs
  | fetch prof =>
    obtain ⟨rfl, rfl⟩ := Prod.mk.inj (Option.some.inj hs)
    split_ifs at hk with hp
    · exact .inr ⟨by rw [hp], hk⟩
    · cases hk
  | pool name =>
    obtain ⟨rfl, rfl⟩ := Prod.mk.inj (Option.some.inj hs)
    cases ok with
    | true => cases name <;> exact .inl hk
    | false => cases hk
  | lock name =>
    simp only [createStep] at hs
    split_ifs at hs
    obtain ⟨rfl, rfl⟩ := Prod.mk.inj (Option.some.inj hs)
    cases name <;> exact .inl hk
  | find name =>
    obtain ⟨rfl, rfl⟩ := Prod.mk.inj (Option.some.inj hs)
    split at hk <;> cases hk
  | clone | unlock =>
    obtain ⟨rfl, rfl⟩ := Prod.mk.inj (Option.some.inj hs)
    cases hk

theorem findProfile_mem {g : ConfigGlobals} {name : Option String} {p : BroadcastProfile}
    (h : findProfile g name = some p) : p ∈ g.profiles := by
  unfold findProfile at h
  rcases Option.or_eq_some_iff.mp h with h | ⟨-, h⟩
  · exact List.mem_of_find?_eq_some h
  rcases Option.or_eq_some_iff.mp h with h | ⟨-, h⟩
  · exact List.mem_of_find?_eq_some h
  · exact List.mem_of_head? h

theorem createStep_found {ok : Bool} {k : CreatePc} {s' : Configuration} {src : BroadcastProfile}
    (hs : createStep s v ok k = some (s', .clone src)) : src ∈ s.g.profiles := by
  cases k with
  | idle | returned => cases hs
  | lock name =>
    simp only [createStep] at hs
    split_ifs at hs
    cases (Prod.mk.inj (Option.some.inj hs)).2
  | pool name =>
    cases ok <;> cases (Prod.mk.inj (Option.some.inj hs)).2
  | find name =>
    have hk := (Prod.mk.inj (Option.some.inj hs)).2
    split at hk
    · next p hp =>
      obtain rfl := CreatePc.clone.inj hk
      exact findProfile_mem hp
    · cases hk
  | _ => cases (Prod.mk.inj (Option.some.inj hs)).2

theorem Configuration.JoinsSound.create {ok : Bool} {k' : CreatePc} {s' : Configuration}
    (hi : s.JoinsSound) (htab : s.TablesSound) (hg : NameInTime s (.create v ok))
    (hs : createStep s v ok (s.create v) = some (s', k'))
    (ht : t = { s' with create := Function.update s.create v k' }) : t.JoinsSound := by
  obtain ⟨hgl, hnext, hdes, hw, hre⟩ := createStep_frame hs
  have htg : t.g = s.g := by rw [ht, hgl]
  have hwriting : t.writing = s.writing := by simp [Configuration.writing, ht, hw, hre]
  have hgen : t.generation = s.generation := by rw [Configuration.generation, hwriting, htg]; rfl
  have hcome : t.nameToCome = s.nameToCome := by rw [Configuration.nameToCome, hwriting, htg]; rfl
  have hown : t.create v = k' := by simp [ht]
  have hother : ∀ {n}, n ≠ v → t.create n = s.create n := fun hn => by simp [ht, hn]
  have hreaders : t.readers = s'.readers := by rw [ht]
  have hrd := createStep_readers hs
  refine ⟨fun n => ?_, ?_, fun hne => ?_, fun n src hn => ?_, fun n str hn => ?_⟩
  · rw [hreaders]
    by_cases hnv : n = v
    · subst hnv
      rw [hown]
      rcases hrd with ⟨hr, hk⟩ | ⟨hr, -, -, hk⟩ | ⟨hr, -, hk⟩
      · rw [hr, hk]
        exact hi.reading n
      · simp [hr, hk]
      · simp [hr, hk, hi.once.mem_erase_iff]
    · rw [hother hnv, ← hi.reading n]
      rcases hrd with ⟨hr, -⟩ | ⟨hr, -⟩ | ⟨hr, -⟩
      · rw [hr]
      · simp [hr, hnv]
      · simp [hr, List.mem_erase_of_ne hnv]
  · rw [hreaders]
    rcases hrd with ⟨hr, -⟩ | ⟨hr, -, hk, -⟩ | ⟨hr, -⟩
    · rw [hr]
      exact hi.once
    · rw [hr]
      exact List.nodup_cons.mpr ⟨fun hm => hk ((hi.reading v).mp hm), hi.once⟩
    · rw [hr]
      exact hi.once.erase v
  · have hne' : s.writer ≠ none := by
      rw [← hw]
      rw [ht] at hne
      exact hne
    have hnil := hi.excluded hne'
    rw [hreaders]
    rcases hrd with ⟨hr, -⟩ | ⟨-, hnone, -⟩ | ⟨hr, -⟩
    · rw [hr, hnil]
    · exact absurd hnone hne'
    · rw [hr, hnil]
      rfl
  · rw [htg]
    by_cases hnv : n = v
    · subst hnv
      rw [hown] at hn
      rw [hn] at hs
      exact createStep_found hs
    · exact hi.found n src (hother hnv ▸ hn)
  · rw [hgen, hwriting, hcome]
    by_cases hnv : n = v
    · subst hnv
      rw [hown] at hn
      rcases createStep_held hs hn with hold | ⟨hfetch, hstr⟩
      · exact hi.held n str hold
      · exact ⟨htab.tables.name str hstr, fun _ => (hg hfetch).trans hstr⟩
    · exact hi.held n str (hother hnv ▸ hn)

/-- While a reload is at work nobody reads, and what a join still holds is the name in force
or the one to come. -/
theorem reloadStores_held {k k' : ReloadPc} {ok : Bool} {x : Option XmlConfig} {s' : Configuration}
    {str : PoolString} (hi : TablesAt s.g s.next_pool s.destroyed k)
    (hs : reloadStores switch_true s ok x k = some (s', k'))
    (hg : k = .pool → s.g.config_pool ≠ some str.pool)
    (hgen : k.into.or s.g.config_pool = some str.pool)
    (hname : ¬ k.Cleared → s.g.default_profile_name.map
      (fun name => ⟨name.pool, settingsDefault name.text k.rest⟩) = some str) :
    k'.into.or s'.g.config_pool = some str.pool ∧
      (¬ k'.Cleared → s'.g.default_profile_name.map
        (fun name => ⟨name.pool, settingsDefault name.text k'.rest⟩) = some str) := by
  -- without a name nobody holds one, unless it has just been cleared
  have hnone : k.NoName → ¬ k.Cleared → False := by
    intro hn hc
    have := hname hc
    rw [hi.noName hn] at this
    cases this
  cases k with
  | idle => cases hs
  | newPool | open_cfg | abort | storeXml | default => exact (hnone trivial id).elim
  | pool => exact absurd hgen (hg rfl)
  | profiles | groups | tables | controls =>
    obtain ⟨rfl, rfl⟩ := Prod.mk.inj (Option.some.inj hs)
    exact ⟨hgen, fun _ => hname id⟩
  | commit n =>
    obtain ⟨rfl, rfl⟩ := Prod.mk.inj (Option.some.inj hs)
    exact ⟨hgen, fun _ => hname id⟩
  | name | xml =>
    obtain ⟨rfl, rfl⟩ := Prod.mk.inj (Option.some.inj hs)
    exact ⟨hgen, fun hc => absurd trivial hc⟩
  | limits n y =>
    obtain ⟨rfl, rfl⟩ := Prod.mk.inj (Option.some.inj hs)
    exact ⟨hgen, fun _ => hname id⟩
  | settings n y rest =>
    cases rest with
    | nil =>
      obtain ⟨rfl, rfl⟩ := Prod.mk.inj (Option.some.inj hs)
      exact ⟨hgen, fun _ => hname id⟩
    | cons param rest =>
      obtain ⟨rfl, rfl⟩ := Prod.mk.inj (Option.some.inj hs)
      refine ⟨hgen, fun _ => ?_⟩
      obtain ⟨old, hold, hstr⟩ := Option.map_eq_some_iff.mp (hname id)
      have hpool : old.pool = n := (Option.some.inj (hi.name old hold)).symm
      have hold' : s.g.default_profile_name = some ⟨n, old.text⟩ := by rw [hold, ← hpool]
      have hset := configSetting_name param s.g hold'
      rw [hset, ← hstr, ← hpool]
      rfl

theorem Configuration.nameToCome_idle (h : s.writing.rest = []) :
    s.nameToCome = s.g.default_profile_name := by
  rw [Configuration.nameToCome, h]
  cases s.g.default_profile_name <;> rfl

theorem Configuration.TablesSound.free (hi : s.TablesSound) (hw : s.writer = none) (v : ℕ) :
    s.reload v = .idle := by
  by_contra hne
  cases hw.symm.trans ((hi.writing v).mp hne)

theorem writing_of_free (hw : s.writer = none) : s.writing = .idle := by
  simp [Configuration.writing, hw]

theorem Configuration.TablesSound.step (hi : s.TablesSound)
    (hs : configStep switch_true s a = some t) : t.TablesSound := by
  cases a with
  | join v prof =>
    simp only [configStep] at hs
    split_ifs at hs
    obtain rfl := Option.some.inj hs
    exact ⟨hi.writing, hi.tables⟩
  | create v ok =>
    obtain ⟨⟨s', k'⟩, hk, rfl⟩ := Option.map_eq_some_iff.mp hs
    obtain ⟨hgl, hnext, hdes, hw, hre⟩ := createStep_frame hk
    have hwriting : Configuration.writing { s' with create := Function.update s.create v k' } =
        s.writing := by simp [Configuration.writing, hw, hre]
    refine ⟨fun u => ?_, ?_⟩
    · simp only [hre, hw]
      exact hi.writing u
    · rw [hwriting]
      simp only [hgl, hnext, hdes]
      exact hi.tables
  | reload u =>
    simp only [configStep] at hs
    split_ifs at hs with hfree
    obtain rfl := Option.some.inj hs
    have htables := hi.tables
    rw [writing_of_free hfree.1] at htables
    refine ⟨fun v => ?_, ?_⟩
    · by_cases hv : v = u
      · subst hv
        simp
      · simp [hv, hi.free hfree.1 v, Ne.symm hv]
    · simp only [Configuration.writing, Option.map_some, Option.getD_some, Function.update_self]
      exact ⟨nofun, nofun, nofun, htables.live, htables.gone, htables.name, htables.profiles⟩
  | step u ok x =>
    obtain ⟨⟨s', k'⟩, hk, ht⟩ := Option.map_eq_some_iff.mp hs
    have hu : s.reload u ≠ .idle := fun hidle => by
      rw [hidle] at hk
      cases hk
    obtain ⟨hwriting, hown⟩ := reloadStores_writing hi hu hk ht.symm
    have htables := hi.tables
    rw [(hi.at hu).2] at htables
    have hstores := htables.stores hk
    refine ⟨hown, ?_⟩
    rw [hwriting, ← ht]
    exact hstores

theorem Configuration.JoinsSound.step (hi : s.JoinsSound) (htab : s.TablesSound)
    (hg : NameInTime s a) (hs : configStep switch_true s a = some t) : t.JoinsSound := by
  cases a with
  | join v prof =>
    simp only [configStep] at hs
    split_ifs at hs with hidle
    obtain rfl := Option.some.inj hs
    refine ⟨fun n => ?_, hi.once, hi.excluded, fun n src hn => ?_, fun n str hn => ?_⟩
    · rw [hi.reading n]
      by_cases hnv : n = v
      · subst hnv
        simp [hidle, CreatePc.Reads]
      · simp [hnv]
    · by_cases hnv : n = v
      · subst hnv
        simp at hn
      · exact hi.found n src (by simpa [hnv] using hn)
    · by_cases hnv : n = v
      · subst hnv
        simp [CreatePc.held] at hn
      · exact hi.held n str (by simpa [hnv] using hn)
  | create v ok =>
    obtain ⟨⟨s', k'⟩, hk, rfl⟩ := Option.map_eq_some_iff.mp hs
    exact hi.create htab hg hk rfl
  | reload u =>
    simp only [configStep] at hs
    split_ifs at hs with hfree
    obtain rfl := Option.some.inj hs
    have hwriting := writing_of_free hfree.1
    refine ⟨hi.reading, hi.once, fun _ => hfree.2, hi.found, fun n str hn => ?_⟩
    obtain ⟨hgen, hname⟩ := hi.held n str hn
    rw [Configuration.generation, hwriting] at hgen
    have hcome := hname (by rw [hwriting]; exact id)
    rw [Configuration.nameToCome, hwriting] at hcome
    simp only [Configuration.generation, Configuration.nameToCome, Configuration.writing,
      Option.map_some, Option.getD_some, Function.update_self]
    exact ⟨hgen, fun _ => hcome⟩
  | step u ok x =>
    obtain ⟨⟨s', k'⟩, hk, ht⟩ := Option.map_eq_some_iff.mp hs
    have hu : s.reload u ≠ .idle := fun hidle => by
      rw [hidle] at hk
      cases hk
    obtain ⟨hw, hat⟩ := htab.at hu
    obtain ⟨hwriting, -⟩ := reloadStores_writing htab hu hk ht.symm
    have htables := htab.tables
    rw [hat] at htables
    have htg : t.g = s'.g := by rw [← ht]
    obtain ⟨hcreate, hreaders⟩ : t.create = s.create ∧ t.readers = s.readers := by
      have hframe := reloadStores_frame hk
      rw [← ht]
      exact hframe
    have hnobody : s.readers = [] := hi.excluded (by simp [hw])
    refine ⟨fun v => ?_, ?_, fun _ => hreaders.trans hnobody, fun v src hv => ?_,
      fun v str hv => ?_⟩
    · rw [hcreate, hreaders]
      exact hi.reading v
    · rw [hreaders]
      exact hi.once
    · have hread : v ∈ s.readers := (hi.reading v).mpr (by rw [← hcreate, hv]; trivial)
      rw [hnobody] at hread
      cases hread
    · rw [hcreate] at hv
      obtain ⟨hgen, hname⟩ := hi.held v str hv
      simp only [Configuration.generation, Configuration.nameToCome, hat] at hgen hname
      simp only [Configuration.generation, Configuration.nameToCome, hwriting, htg]
      exact reloadStores_held htables hk (fun hp => hg hp v str hv) hgen hname

theorem foldl_configSetting_pool (l : List XmlParam) (g : ConfigGlobals) :
    (l.foldl (configSetting n) g).config_pool = g.config_pool := by
  induction l generalizing g with
  | nil => rfl
  | cons param l ih => exact (ih _).trans (configSetting_tables param g).2

theorem foldl_configSetting_name {l : List XmlParam} {g : ConfigGlobals} {str : PoolString}
    (h : (l.foldl (configSetting n) g).default_profile_name = some str)
    (hg : ∀ old, g.default_profile_name = some old → old.pool = n) : str.pool = n := by
  induction l generalizing g with
  | nil => exact hg str h
  | cons param l ih => exact ih h fun old ho => (configSetting_pool ho).elim id (hg old)

theorem Configuration.TablesSound.init (x : XmlConfig) :
    (Configuration.init switch_true x).TablesSound := by
  have hpool : (configInit switch_true 0 x).config_pool = some 0 := foldl_configSetting_pool _ _
  refine ⟨fun u => by simp [Configuration.init], nofun, nofun, nofun, fun n hn => ?_, nofun,
    fun str hs => ?_, fun p hp => ?_⟩
  · obtain rfl : 0 = n := Option.some.inj (hpool.symm.trans hn)
    exact ⟨Nat.zero_lt_one, by simp [Configuration.init]⟩
  · refine hpool.trans (congrArg some (foldl_configSetting_name hs fun old ho => ?_).symm)
    rw [← Option.some.inj ho]
  · exact hpool.trans (congrArg some (bParseProfiles_pool hp).symm)

theorem Configuration.JoinsSound.init (x : XmlConfig) :
    (Configuration.init switch_true x).JoinsSound where
  reading v := by simp [Configuration.init, CreatePc.Reads]
  once := List.nodup_nil
  excluded _ := rfl
  found _ _ hc := by cases hc
  held _ _ hc := by cases hc

theorem Configuration.JoinsSound.uses (hj : s.JoinsSound) (htab : s.TablesSound)
    (a : ConfigAction) : UsesOneGeneration s a := by
  cases a with
  | create v ok =>
    -- a reader keeps the reloads out
    have free : (s.create v).Reads → s.writing = .idle := by
      intro hread
      refine writing_of_free ?_
      by_contra hne
      have := (hj.reading v).mpr hread
      rw [hj.excluded hne] at this
      cases this
    have current : s.writing = .idle → ∀ {n}, s.generation = some n → s.Current n := by
      intro hw n hn
      refine ⟨(htab.tables.live n hn).2, ?_⟩
      rwa [Configuration.generation, hw] at hn
    simp only [UsesOneGeneration]
    split
    · next name hk =>
      have hw := free (by rw [hk]; trivial)
      refine ⟨fun str hname => ?_, fun str _ hstr => current hw (htab.tables.name str hstr),
        fun p hp => current hw (htab.tables.profiles p (findProfile_mem hp))⟩
      obtain ⟨hgen, hcome⟩ := hj.held v str (by rw [hk, hname]; rfl)
      refine ⟨current hw hgen, ?_⟩
      rw [← Configuration.nameToCome_idle (by rw [hw]; rfl)]
      exact hcome (by rw [hw]; exact id)
    · next src hk =>
      exact current (free (by rw [hk]; trivial)) (htab.tables.profiles src (hj.found v src hk))
    · trivial
  | join | reload | step => trivial

theorem joins_use_one_generation {x : XmlConfig}
    (hr : Run (configStep switch_true) (Configuration.init switch_true x) h s)
    (hm : Meets NameInTime h) : Meets UsesOneGeneration h :=
  hr.meets_of_invariant (I := fun s => s.TablesSound ∧ s.JoinsSound)
    (fun _ _ _ hi hg hs => ⟨hi.1.step hs, hi.2.step hi.1 hg hs⟩)
    (fun _ a _ hi _ _ => hi.2.uses hi.1 a) hm ⟨.init x, .init x⟩

def ConfigAction.joins : ConfigAction → Option ℕ
  | .join v _ | .create v _ => some v
  | _ => none

def nameTest (n : ℕ) (s : Configuration) : ConfigAction → Bool
  | .create v _ => s.create v ≠ .fetch "" ∨ s.nameToCome = s.g.default_profile_name
  | .step u _ _ =>
    match s.reload u with
    | .pool => (List.range n).all fun v =>
      (s.create v).held.all fun str => s.g.config_pool ≠ some str.pool
    | _ => true
  | _ => true

theorem create_idle_step (hi : ∀ v, n ≤ v → s.create v = .idle)
    (ha : a.joins.all (· < n) = true) (hs : configStep switch_true s a = some t) :
    ∀ v, n ≤ v → t.create v = .idle := by
  intro v hv
  cases a with
  | join w prof =>
    have hw : w < n := by simpa [ConfigAction.joins] using ha
    simp only [configStep] at hs
    split_ifs at hs
    obtain rfl := Option.some.inj hs
    simpa [show v ≠ w by omega] using hi v hv
  | create w ok =>
    have hw : w < n := by simpa [ConfigAction.joins] using ha
    obtain ⟨x, -, rfl⟩ := Option.map_eq_some_iff.mp hs
    simpa [show v ≠ w by omega] using hi v hv
  | reload u =>
    simp only [configStep] at hs
    split_ifs at hs
    obtain rfl := Option.some.inj hs
    exact hi v hv
  | step u ok x =>
    obtain ⟨⟨s', k'⟩, hk, rfl⟩ := Option.map_eq_some_iff.mp hs
    simp only [(reloadStores_frame hk).1]
    exact hi v hv

theorem nameInTime_of_test (hi : ∀ v, n ≤ v → s.create v = .idle) (ht : nameTest n s a = true) :
    NameInTime s a := by
  cases a with
  | create v ok => exact fun hf => (of_decide_eq_true ht).resolve_left fun hne => hne hf
  | step u ok x =>
    intro hp v str hv
    by_cases hvn : n ≤ v
    · rw [hi v hvn] at hv
      cases hv
    · simp only [nameTest, hp, List.all_eq_true, List.mem_range] at ht
      have := ht v (Nat.lt_of_not_le hvn)
      rw [hv] at this
      simpa using this
  | join | reload => trivial

/-- A join with its own name waits for a reload, one without a name comes after it. -/
theorem joins_use_one_generation_after : ∃ (h : List (Configuration × ConfigAction))
    (s : Configuration), Run (configStep fun _ => false)
      (Configuration.init (fun _ => false) ⟨none, some [⟨"default", []⟩], none⟩) h s ∧
      s.destroyed = [0] ∧ Meets UsesOneGeneration h := by
  obtain ⟨h, s, hr, hm, hv⟩ := exists_run_observing (configStep fun _ => false)
    (fun s a => a.joins.all (· < 2) && nameTest 2 s a)
    (Configuration.init (fun _ => false) ⟨none, some [⟨"default", []⟩], none⟩)
    (List.flatten [[.join 0 "b", .create 0 true, .reload 0], List.replicate 15 (.step 0 true
      (some ⟨some [⟨"default-profile", "b"⟩], some [⟨"b", []⟩], none⟩)),
      [.join 1 ""], List.replicate 6 (.create 1 true), List.replicate 5 (.create 0 true)])
    (fun _ s => s.destroyed) (v := [0]) (by decide)
  have hmeets : Meets NameInTime h := hr.meets_of_invariant
    (I := fun s => ∀ v, 2 ≤ v → s.create v = .idle)
    (fun _ _ _ hi hg hs => create_idle_step hi (Bool.and_eq_true_iff.mp hg).1 hs)
    (fun _ _ _ hi hg _ => nameInTime_of_test hi (Bool.and_eq_true_iff.mp hg).2) hm fun _ _ => rfl
  exact ⟨h, s, hr, hv, joins_use_one_generation hr hmeets⟩

/-- A reload destroys the name between its fetch and its lookup. -/
theorem joins_use_destroyed_name : ¬ ∀ (h : List (Configuration × ConfigAction))
    (s : Configuration), Run (configStep fun _ => false)
      (Configuration.init (fun _ => false) ⟨none, some [⟨"default", []⟩], none⟩) h s →
      Meets UsesOneGeneration h := by
  refine not_forall_run (fun _ _ => true)
    (List.flatten [[.join 0 "", .create 0 true, .reload 0], List.replicate 15 (.step 0 true
      (some ⟨some [⟨"default-profile", "b"⟩], some [⟨"b", []⟩], none⟩)),
      List.replicate 3 (.create 0 true)])
    (fun h _ => h.any fun x => decide (x.1.create 0 = .find (.default (some ⟨0, "default"⟩)) ∧
      0 ∈ x.1.destroyed) && match x.2 with | .create 0 _ => true | _ => false)
    (v := true) (by decide) ?_
  intro h s _ _ hv hall
  obtain ⟨⟨s, a⟩, hx, hv⟩ := List.any_eq_true.mp hv
  obtain ⟨hstate, ha⟩ := Bool.and_eq_true_iff.mp hv
  obtain ⟨hk, hgone⟩ : s.create 0 = _ ∧ 0 ∈ s.destroyed := of_decide_eq_true hstate
  cases a with
  | create v ok =>
    cases v with
    | zero =>
      have huse := hall _ hx
      simp only [UsesOneGeneration, hk] at huse
      exact (huse.1 _ rfl).1.1 hgone
    | succ v => cases ha
  | join | reload | step => cases ha

/-- The configurations that the module has when no reload is at work. -/
inductive Configured (switch_true : String → Bool) : ConfigGlobals → Prop
  | init (x : XmlConfig) : Configured switch_true (configInit switch_true 0 x)
  | reload {g : ConfigGlobals} (pool : Option ℕ) (x : Option XmlConfig)
      (h : Configured switch_true g) : Configured switch_true (configReload switch_true pool x g).1

inductive ReloadAt (switch_true : String → Bool) (g₀ : ConfigGlobals) :
    ConfigGlobals → ReloadPc → Prop
  | profiles : ReloadAt switch_true g₀ g₀ .profiles
  | groups : ReloadAt switch_true g₀ { g₀ with profiles := [] } .groups
  | name : ReloadAt switch_true g₀ { g₀ with profiles := [], control_groups := [] } .name
  | xml : ReloadAt switch_true g₀
      { g₀ with profiles := [], control_groups := [], default_profile_name := none } .xml
  | pool : ReloadAt switch_true g₀
      { configRelease g₀ with config_pool := g₀.config_pool } .pool
  | newPool : ReloadAt switch_true g₀ (configRelease g₀) .newPool
  | open_cfg (n : ℕ) : ReloadAt switch_true g₀ (configRelease g₀) (.open_cfg n)
  | abort (n : ℕ) : ReloadAt switch_true g₀ (configRelease g₀) (.abort n)
  | storeXml (n : ℕ) (x : XmlConfig) : ReloadAt switch_true g₀ (configRelease g₀) (.storeXml n x)
  | default (n : ℕ) (x : XmlConfig) : ReloadAt switch_true g₀
      { configRelease g₀ with config_xml := true } (.default n x)
  | limits (n : ℕ) (x : XmlConfig) : ReloadAt switch_true g₀
      { configRelease g₀ with config_xml := true, default_profile_name := some ⟨n, "default"⟩ }
      (.limits n x)
  | settings (n : ℕ) (x : XmlConfig) (l rest : List XmlParam)
      (hl : x.settings.getD [] = l ++ rest) : ReloadAt switch_true g₀
      (l.foldl (configSetting n) (configDefaults n (configRelease g₀))) (.settings n x rest)
  | tables (n : ℕ) (x : XmlConfig) : ReloadAt switch_true g₀
      ((x.settings.getD []).foldl (configSetting n) (configDefaults n (configRelease g₀)))
      (.tables n x)
  | controls (n : ℕ) (x : XmlConfig) : ReloadAt switch_true g₀
      { (x.settings.getD []).foldl (configSetting n) (configDefaults n (configRelease g₀)) with
        profiles := bParseProfiles switch_true n x } (.controls n x)
  | commit (n : ℕ) (x : XmlConfig) : ReloadAt switch_true g₀
      (configLoad switch_true n (configRelease g₀) (some x)).1 (.commit n)
  | idle (pool : Option ℕ) (x : Option XmlConfig) : ReloadAt switch_true g₀
      (configReload switch_true pool x g₀).1 .idle

theorem ReloadAt.stores {g₀ : ConfigGlobals} {k k' : ReloadPc} {ok : Bool} {x : Option XmlConfig}
    {s' : Configuration} (hs : reloadStores switch_true s ok x k = some (s', k'))
    (h : ReloadAt switch_true g₀ s.g k) : ReloadAt switch_true g₀ s'.g k' := by
  generalize hg : s.g = g at h
  cases h with
  | idle => cases hs
  | profiles | groups | name | xml | pool | storeXml | default | controls | tables =>
    obtain ⟨rfl, rfl⟩ := Prod.mk.inj (Option.some.inj hs)
    simp only [hg]
    constructor
  | newPool =>
    simp only [reloadStores] at hs
    split_ifs at hs <;> obtain ⟨rfl, rfl⟩ := Prod.mk.inj (Option.some.inj hs) <;> rw [hg]
    · exact .open_cfg _
    · exact .idle none none
  | open_cfg n =>
    obtain ⟨rfl, rfl⟩ := Prod.mk.inj (Option.some.inj hs)
    rw [hg]
    cases x with
    | none => exact .abort n
    | some y => exact .storeXml n y
  | abort n =>
    obtain ⟨rfl, rfl⟩ := Prod.mk.inj (Option.some.inj hs)
    rw [hg]
    exact .idle (some n) none
  | limits n y =>
    obtain ⟨rfl, rfl⟩ := Prod.mk.inj (Option.some.inj hs)
    simp only [hg]
    exact .settings n y [] _ rfl
  | settings n y l rest hl =>
    cases rest with
    | nil =>
      obtain ⟨rfl, rfl⟩ := Prod.mk.inj (Option.some.inj hs)
      rw [List.append_nil] at hl
      rw [hg, ← hl]
      exact .tables n y
    | cons param rest =>
      obtain ⟨rfl, rfl⟩ := Prod.mk.inj (Option.some.inj hs)
      have happ : y.settings.getD [] = (l ++ [param]) ++ rest := by simp [hl]
      have hat : ReloadAt switch_true g₀ _ _ := .settings n y _ _ happ
      simpa only [hg, List.foldl_append, List.foldl_cons, List.foldl_nil] using hat
  | commit n y =>
    obtain ⟨rfl, rfl⟩ := Prod.mk.inj (Option.some.inj hs)
    rw [hg]
    exact .idle (some n) (some y)

/-- A configuration that no reload is at work on, or one in the middle of a reload. -/
def Configuration.Follows (switch_true : String → Bool) (s : Configuration) : Prop :=
  ∃ g, Configured switch_true g ∧
    (s.writing = .idle ∧ s.g = g ∨ ReloadAt switch_true g s.g s.writing)

theorem Configuration.Follows.configured (h : s.Follows switch_true) (hw : s.writing = .idle) :
    Configured switch_true s.g := by
  obtain ⟨g, hg, ⟨-, rfl⟩ | hat⟩ := h
  · exact hg
  · rw [hw] at hat
    generalize s.g = g' at hat
    cases hat with
    | idle pool x => exact hg.reload pool x

theorem Configuration.Follows.step (h : s.Follows switch_true) (hi : s.TablesSound)
    (hs : configStep switch_true s a = some t) : t.Follows switch_true := by
  have keep : t.g = s.g → t.writing = s.writing → t.Follows switch_true := by
    intro hg hw
    unfold Configuration.Follows
    rw [hg, hw]
    exact h
  cases a with
  | join v prof =>
    simp only [configStep] at hs
    split_ifs at hs
    obtain rfl := Option.some.inj hs
    exact keep rfl rfl
  | create v ok =>
    obtain ⟨⟨s', k'⟩, hk, rfl⟩ := Option.map_eq_some_iff.mp hs
    obtain ⟨hgl, -, -, hw, hre⟩ := createStep_frame hk
    exact keep hgl (by simp [Configuration.writing, hw, hre])
  | reload u =>
    simp only [configStep] at hs
    split_ifs at hs with hfree
    obtain rfl := Option.some.inj hs
    refine ⟨s.g, h.configured (writing_of_free hfree.1), .inr ?_⟩
    simp only [Configuration.writing, Option.map_some, Option.getD_some, Function.update_self]
    exact .profiles
  | step u ok x =>
    obtain ⟨⟨s', k'⟩, hk, ht⟩ := Option.map_eq_some_iff.mp hs
    have hu : s.reload u ≠ .idle := fun hidle => by
      rw [hidle] at hk
      cases hk
    obtain ⟨hwriting, -⟩ := reloadStores_writing hi hu hk ht.symm
    obtain ⟨g, hg, ⟨hidle, -⟩ | hat⟩ := h
    · exact absurd ((hi.at hu).2.symm.trans hidle) hu
    · rw [(hi.at hu).2] at hat
      have hstores := hat.stores hk
      refine ⟨g, hg, .inr ?_⟩
      rw [hwriting, ← ht]
      exact hstores

end ModBroadcast
