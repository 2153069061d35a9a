import Mathlib.Algebra.Order.Ring.Int
import Mathlib.Data.List.Basic
import ModBroadcast.Broadcast

namespace ModBroadcast

/-- A `param` element; an attribute that is missing reads as the empty string. -/
structure XmlParam where
  name : String
  value : String

structure XmlProfile where
  name : String
  params : List XmlParam

structure XmlControl where
  digits : String
  action : String
  data : String

structure XmlGroup where
  name : String
  controls : List XmlControl

structure XmlConfig where
  settings : Option (List XmlParam)
  profiles : Option (List XmlProfile)
  caller_controls : Option (List XmlGroup)

def caseEq (s t : String) : Bool := s.toList.map Char.toLower = t.toList.map Char.toLower

def isSpace (c : Char) : Bool := c = ' ' ∨ 9 ≤ c.toNat ∧ c.toNat ≤ 13

/-- `(uint32_t) atoi(s)`; the number saturates as a `long` and is cut to 32 bits. -/
def atoi (s : String) : ℕ :=
  let digits (l : List Char) : ℤ :=
    (l.takeWhile Char.isDigit).foldl (fun n c => 10 * n + (c.toNat - '0'.toNat)) 0
  let n := match s.toList.dropWhile isSpace with
    | '-' :: l => max (-digits l) (-2 ^ 63)
    | '+' :: l => min (digits l) (2 ^ 63 - 1)
    | l => min (digits l) (2 ^ 63 - 1)
  (n % 2 ^ 32).toNat

/-- `broadcast_profile_t`, with the pool that it and its strings live in. -/
structure BroadcastProfile where
  name : String
  pool : ℕ
  rate : ℕ
  interval_ms : ℕ
  channels : ℕ
  ring_size : ℕ
  max_lag_frames : ℕ
  speaker_override : Bool
  silence_window_ms : ℕ
  silence_policy : String
  moh_sound : String
  max_listeners : ℕ
  listener_pre_buffer_ms : ℕ
  timer_name : String
  energy_detection : Bool
  comfort_noise_level : ℕ
  agc : Bool
  enter_sound : String
  exit_sound : String
  kicked_sound : String
  locked_sound : String
  speaker_joined_sound : String
  verbose_events : Bool
  join_event_delay_ms : ℕ
  caller_controls : String
  auto_record : Bool
  record_template : String
  heartbeat_interval_sec : ℕ
  deriving DecidableEq

structure ControlBinding where
  digits : String
  action : ControlAction
  arg : Option String
  deriving DecidableEq

structure ControlGroup where
  name : String
  bindings : List ControlBinding
  deriving DecidableEq

structure PoolString where
  pool : ℕ
  text : String
  deriving DecidableEq

/-- What `broadcast_globals` holds of the configuration. -/
structure ConfigGlobals where
  config_pool : Option ℕ
  config_xml : Bool
  default_profile_name : Option PoolString
  profiles : List BroadcastProfile
  control_groups : List ControlGroup
  max_broadcasts : ℕ
  event_ring_size : ℕ
  deriving DecidableEq

def ConfigGlobals.zero : ConfigGlobals := ⟨none, false, none, [], [], 0, 0⟩

section Parse

-- `switch_true` of the core, which reads the flags
variable (switch_true : String → Bool)

/-- `b_param`: the first parameter of the name counts, even with an empty value. -/
def bParam (x : XmlProfile) (name dflt : String) : String :=
  match x.params.find? fun param => caseEq param.name name with
  | some param => if param.value = "" then dflt else param.value
  | none => dflt

/-- The value that `b_param_uint` and `b_param_bool` stop at: parameters with an empty
value are passed over. -/
def bParamValue (x : XmlProfile) (name : String) : Option String :=
  (x.params.find? fun param => caseEq param.name name ∧ param.value ≠ "").map XmlParam.value

def bParamUint (x : XmlProfile) (name : String) (dflt : ℕ) : ℕ :=
  ((bParamValue x name).map atoi).getD dflt

def bParamBool (x : XmlProfile) (name : String) (dflt : Bool) : Bool :=
  ((bParamValue x name).map switch_true).getD dflt

def BROADCAST_DEFAULT_RATE : ℕ := 8000
def BROADCAST_DEFAULT_INTERVAL_MS : ℕ := 20
def BROADCAST_DEFAULT_RING_SIZE : ℕ := 50
def BROADCAST_DEFAULT_MAX_LAG_FRAMES : ℕ := 10
def BROADCAST_EVENT_RING_SIZE : ℕ := 1024
def BROADCAST_MAX_FRAME_BYTES : ℕ := 1920

def bParseProfile (pool : ℕ) (x : XmlProfile) : Option BroadcastProfile :=
  if x.name = "" then none
  else some {
    name := x.name
    pool := pool
    rate := bParamUint x "rate" BROADCAST_DEFAULT_RATE
    interval_ms := bParamUint x "interval" BROADCAST_DEFAULT_INTERVAL_MS
    channels := bParamUint x "channels" 1
    ring_size := bParamUint x "ring-size" BROADCAST_DEFAULT_RING_SIZE
    max_lag_frames := bParamUint x "max-lag-frames" BROADCAST_DEFAULT_MAX_LAG_FRAMES
    speaker_override := bParamBool switch_true x "speaker-override" false
    silence_window_ms := bParamUint x "silence-window-ms" 800
    silence_policy := bParam x "silence-policy" "zero"
    moh_sound := bParam x "moh-sound" ""
    max_listeners := bParamUint x "max-listeners" 2000
    listener_pre_buffer_ms := bParamUint x "listener-pre-buffer-ms" 0
    timer_name := bParam x "timer-name" "timerfd"
    energy_detection := bParamBool switch_true x "energy-detection" true
    comfort_noise_level := bParamUint x "comfort-noise-level" 0
    agc := bParamBool switch_true x "agc" false
    enter_sound := bParam x "enter-sound" ""
    exit_sound := bParam x "exit-sound" ""
    kicked_sound := bParam x "kicked-sound" ""
    locked_sound := bParam x "locked-sound" ""
    speaker_joined_sound := bParam x "speaker-joined-sound" ""
    verbose_events := bParamBool switch_true x "verbose-events" false
    join_event_delay_ms := bParamUint x "join-event-delay-ms" 0
    caller_controls := bParam x "caller-controls" "default"
    auto_record := bParamBool switch_true x "auto-record" false
    record_template := bParam x "record-template"
      "/var/spool/freeswitch/broadcast/$\x7bname\x7d-$\x7bstrftime(%Y%m%d-%H%M%S)\x7d.wav"
    heartbeat_interval_sec := bParamUint x "heartbeat-interval-sec" 60 }

def bParseAction (s : String) : ControlAction :=
  if caseEq s "hangup" then .hangup
  else if caseEq s "request-speaker" then .requestSpeaker
  else if caseEq s "energy-up" then .energyUp
  else if caseEq s "energy-down" then .energyDown
  else if caseEq s "leave" then .leave
  else if caseEq s "mute-toggle" then .muteToggle
  else if caseEq s "vol-up" then .volUp
  else if caseEq s "vol-down" then .volDown
  else if caseEq s "vol-reset" then .volReset
  else if caseEq s "execute-app" then .executeApp
  else if caseEq s "lua" then .lua
  else if caseEq s "js" then .js
  else if caseEq s "transfer" then .transfer
  else if caseEq s "event" then .event
  else .none

/-- One `control` element; `digits` holds 15 characters. -/
def bParseControl (x : XmlControl) : Option ControlBinding :=
  let act := bParseAction x.action
  if x.digits = "" ∨ act = .none then none
  else
    some ⟨String.ofList (x.digits.toList.take 15), act, if x.data = "" then none else some x.data⟩

def bParseGroup (x : XmlGroup) : Option ControlGroup :=
  if x.name = "" then none else some ⟨x.name, x.controls.filterMap bParseControl⟩

def bParseControlGroups (x : XmlConfig) : List ControlGroup :=
  (x.caller_controls.getD []).filterMap bParseGroup

def bParseProfiles (pool : ℕ) (x : XmlConfig) : List BroadcastProfile :=
  (x.profiles.getD []).filterMap (bParseProfile switch_true pool)

def configSetting (pool : ℕ) (g : ConfigGlobals) (param : XmlParam) : ConfigGlobals :=
  if caseEq param.name "default-profile" ∧ param.value ≠ "" then
    { g with default_profile_name := some ⟨pool, param.value⟩ }
  else if caseEq param.name "max-broadcasts" ∧ param.value ≠ "" then
    { g with max_broadcasts := atoi param.value }
  else if caseEq param.name "event-ring-size" ∧ param.value ≠ "" then
    { g with event_ring_size := atoi param.value }
  else g

def configDefaults (pool : ℕ) (g : ConfigGlobals) : ConfigGlobals :=
  { g with
    config_xml := true
    default_profile_name := some ⟨pool, "default"⟩
    max_broadcasts := 500
    event_ring_size := BROADCAST_EVENT_RING_SIZE }

def configLoad (pool : ℕ) (g : ConfigGlobals) : Option XmlConfig → ConfigGlobals × Bool
  | none => (g, false)
  | some x =>
    let g := (x.settings.getD []).foldl (configSetting pool) (configDefaults pool g)
    ({ g with
      profiles := bParseProfiles switch_true pool x
      control_groups := bParseControlGroups x }, true)

/-- `switch_mod_load` up to the configuration: a pool, and the file loaded into it. -/
def configInit (pool : ℕ) (x : XmlConfig) : ConfigGlobals :=
  (configLoad switch_true pool { ConfigGlobals.zero with config_pool := some pool } (some x)).1

def configRelease (g : ConfigGlobals) : ConfigGlobals :=
  { g with
    profiles := []
    control_groups := []
    default_profile_name := none
    config_xml := false
    config_pool := none }

/-- `broadcast_config_reload`, with the pool and the file that it gets. -/
def configReload (pool : Option ℕ) (x : Option XmlConfig) (g : ConfigGlobals) :
    ConfigGlobals × Bool :=
  let g := configRelease g
  match pool with
  | none => (g, false)
  | some pool =>
    let (g, ok) := configLoad switch_true pool g x
    if ok then ({ g with config_pool := some pool }, true) else (g, false)

end Parse

/-- `b_config_find_profile_unlocked`; no name stands for NULL and for the empty string. -/
def findProfile (g : ConfigGlobals) (name : Option String) : Option BroadcastProfile :=
  let want := name.or (g.default_profile_name.map PoolString.text)
  (g.profiles.find? fun p => want.any (caseEq p.name)).or
    ((g.profiles.find? fun p => caseEq p.name "default").or g.profiles.head?)

def findControls (g : ConfigGlobals) (name : String) : Option ControlGroup :=
  if name = "" then none else g.control_groups.find? fun x => caseEq x.name name

/-- `b_listener_match_controls` up to the dispatch: the binding that the digits select. -/
def matchControls (g : ConfigGlobals) (caller_controls buf : String) : Option ControlBinding :=
  (findControls g caller_controls).bind fun x => x.bindings.find? fun bind => bind.digits = buf

variable {switch_true : String → Bool} {g g₀ : ConfigGlobals} {pool : Option ℕ} {n : ℕ}
  {x : Option XmlConfig} {y : XmlConfig}

/-- A reload fails without a pool or without the file, and leaves the released tables. -/
theorem configReload_failed (hf : (configReload switch_true pool x g).2 = false) :
    (configReload switch_true pool x g).1 = configRelease g := by
  cases pool with
  | none => rfl
  | some n =>
    cases x with
    | none => rfl
    | some y => cases hf

/-- The two states agree in everything that the module reads from the configuration. -/
structure ConfigGlobals.Same (g g' : ConfigGlobals) : Prop where
  profiles : g'.profiles = g.profiles
  control_groups : g'.control_groups = g.control_groups
  default_profile_name : g'.default_profile_name = g.default_profile_name
  max_broadcasts : g'.max_broadcasts = g.max_broadcasts
  event_ring_size : g'.event_ring_size = g.event_ring_size
  findProfile : ∀ name, findProfile g' name = findProfile g name
  matchControls : ∀ caller_controls buf,
    matchControls g' caller_controls buf = matchControls g caller_controls buf

def ConfigGlobals.Empty (g : ConfigGlobals) : Prop :=
  g.profiles = [] ∧ g.control_groups = [] ∧ g.default_profile_name = none

theorem configRelease_same_iff : g.Same (configRelease g) ↔ g.Empty := by
  constructor
  · intro h
    exact ⟨h.profiles.symm, h.control_groups.symm, h.default_profile_name.symm⟩
  · rintro ⟨hp, hg, hd⟩
    refine ⟨hp.symm, hg.symm, hd.symm, rfl, rfl, fun name => ?_, fun cc buf => ?_⟩
    · simp [ModBroadcast.findProfile, configRelease, hp]
    · simp [ModBroadcast.matchControls, findControls, configRelease, hg]

/-- A configuration that `broadcast_config_load` has just stored. -/
def ConfigGlobals.Loaded (switch_true : String → Bool) (g : ConfigGlobals) : Prop :=
  ∃ n g₀ x, configLoad switch_true n g₀ x = (g, true)

theorem configInit_loaded (n : ℕ) (y : XmlConfig) :
    (configInit switch_true n y).Loaded switch_true := ⟨n, _, some y, rfl⟩

theorem configSetting_default (param : XmlParam) (hg : g.default_profile_name.isSome) :
    (configSetting n g param).default_profile_name.isSome := by
  unfold configSetting
  split_ifs
  · rfl
  all_goals exact hg

theorem foldl_configSetting_default (l : List XmlParam) (hg : g.default_profile_name.isSome) :
    (l.foldl (configSetting n) g).default_profile_name.isSome := by
  induction l generalizing g with
  | nil => exact hg
  | cons param l ih => exact ih (configSetting_default param hg)

/-- A loaded configuration names a default profile. -/
theorem ConfigGlobals.Loaded.default_isSome (h : g.Loaded switch_true) :
    g.default_profile_name.isSome := by
  obtain ⟨n, g₀, x, h⟩ := h
  cases x with
  | none => cases h
  | some y =>
    obtain ⟨rfl, -⟩ := Prod.mk.inj h
    exact foldl_configSetting_default _ rfl

/-- A failed reload leaves no profile for a later `broadcast_create` and no binding for a later
digit. -/
theorem failed_reload_changes (hg : g.Loaded switch_true)
    (hf : (configReload switch_true pool x g).2 = false) :
    ¬ g.Same (configReload switch_true pool x g).1 ∧
      (∀ name, findProfile (configReload switch_true pool x g).1 name = none) ∧
      ∀ caller_controls buf,
        matchControls (configReload switch_true pool x g).1 caller_controls buf = none := by
  rw [configReload_failed hf]
  refine ⟨fun h => ?_, fun name => ?_, fun cc buf => ?_⟩
  · have hnone := (configRelease_same_iff.mp h).2.2
    have hsome := hg.default_isSome
    rw [hnone] at hsome
    cases hsome
  · simp [findProfile, configRelease]
  · simp [matchControls, findControls, configRelease]

/-- The file is gone when the configuration with the one profile is reloaded. -/
theorem failed_reload_changes_gone :
    ¬ (configInit (fun _ => false) 0 ⟨none, some [⟨"default", []⟩], none⟩).Same
        (configReload (fun _ => false) (some 1) none
          (configInit (fun _ => false) 0 ⟨none, some [⟨"default", []⟩], none⟩)).1 :=
  (failed_reload_changes (configInit_loaded 0 _) rfl).1

theorem failed_reload_not_harmless : ¬ ∀ (g : ConfigGlobals) (pool : Option ℕ)
    (x : Option XmlConfig), g.Loaded (fun _ => false) →
      (configReload (fun _ => false) pool x g).2 = false →
        g.Same (configReload (fun _ => false) pool x g).1 := by
  intro hall
  have hsame := hall (configInit (fun _ => false) 0 ⟨none, some [⟨"default", []⟩], none⟩) (some 1)
    none (configInit_loaded 0 _) rfl
  have hfind := hsame.findProfile none
  revert hfind
  decide

end ModBroadcast
