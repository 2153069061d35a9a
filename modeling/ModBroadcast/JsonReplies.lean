import ModBroadcast.JsonTemplate
import ModBroadcast.LockCode

namespace ModBroadcast

open JsonText

/-- What the core prints: `%.*f` of the quotient of two numbers, and a time by `switch_strftime`
with `%Y-%m-%d %H:%M:%S UTC`, or that there is no such time. -/
structure Printer where
  fixed (places num den : ℕ) : Text
  strftime (us : ℤ) : Option Text

/-- A number that is not negative is written with all the digits after its point. -/
def Printer.FixedNotation (printer : Printer) : Prop :=
  ∀ places num den, 0 < places → 0 < den →
    ∃ i f, IntPart i ∧ f.length = places ∧ (∀ c ∈ f, c.isDigit) ∧
      printer.fixed places num den = i ++ '.' :: f

def Printer.Calendar (printer : Printer) : Prop :=
  ∀ us t, printer.strftime us = some t → ∀ c ∈ t, c.isDigit ∨ c ∈ "-: UTC".toList

structure MemberReport where
  id : ℕ
  uuid : Text
  tag : Text
  display_name : Text
  joined_at : ℤ
  consumer_seq : ℕ
  resync_count : ℕ
  last_seen_seq_advance : ℤ

structure RecordingReport where
  target : Text
  samples_out : ℕ
  channels : ℕ

structure ProfileReport where
  name : Text
  rate : ℕ
  interval_ms : ℕ
  channels : ℕ

structure TickHistogram where
  bucket_us_50 : ℕ
  bucket_us_100 : ℕ
  bucket_us_200 : ℕ
  bucket_us_500 : ℕ
  bucket_us_1000 : ℕ
  bucket_us_5000 : ℕ
  bucket_us_20000 : ℕ
  bucket_us_over : ℕ

structure BroadcastReport where
  name : Text
  uuid_str : Text
  profile : Option ProfileReport
  interval_ms : ℕ
  listeners : List MemberReport
  listener_count : ℕ
  current_speaker : Option MemberReport
  speaks : Bool
  speaker_active_since : ℤ
  recordings : List RecordingReport
  cflags : BitVec 32
  destroyed : Bool
  created_at : ℤ
  producer_seq : ℕ
  producer_running : Bool
  producer_tick_count_for_avg : ℕ
  producer_tick_sum_us : ℕ
  producer_max_tick_us : ℤ
  producer_max_tick_seen_us : ℤ
  producer_tick_hist : TickHistogram
  stat_ticks : ℕ
  stat_missed_ticks : ℕ
  stat_speaker_silent_ticks : ℕ
  stat_listener_resyncs : ℕ
  stat_listeners_joined : ℕ
  stat_listeners_left : ℕ
  stat_events_dropped : ℕ
  stat_tick_drift_us_max : ℕ
  stat_peak_listeners : ℕ

/-- `BROADCAST_ENABLE_HISTOGRAM` is a choice of the build. -/
structure ModuleReport where
  BROADCAST_ENABLE_HISTOGRAM : Bool
  broadcasts : List BroadcastReport
  total_broadcasts_created : ℕ
  active_broadcasts : ℕ
  total_listeners_served : ℕ
  emitter_running : Bool
  module_load_us : ℤ
  now : ℤ

/-- The format, in pieces as a literal of the source may be, with the arguments of its
conversions. -/
def json (f : List String) (args : List (List Piece)) : List Piece :=
  format false (f.flatMap String.toList) args

def str (t : Text) : List Piece := [.text t]

def num (n : ℕ) : List Piece := [.number (Nat.toDigits 10 n)]

def intText : ℤ → Text
  | .ofNat n => Nat.toDigits 10 n
  | .negSucc n => '-' :: Nat.toDigits 10 (n + 1)

def int (i : ℤ) : List Piece := [.number (intText i)]

def hex (n : ℕ) : List Piece := [.text (Nat.toDigits 16 n)]

def truth (b : Bool) : List Piece := lits (if b then "true" else "false").toList

def comma (first : Bool) : List Piece := if first then [] else [.lit ',']

/-- `switch_copy_string` into a buffer of this size. -/
def copyString (size : ℕ) (t : Text) : Text := t.take (size - 1)

def pad2 (n : ℕ) : Text :=
  if n < 10 then '0' :: Nat.toDigits 10 n else Nat.toDigits 10 n

def asTime (n : ℕ) : ℤ := (BitVec.ofNat 64 n).toInt

def fmtUptimeHms (delta_us : ℤ) : Text :=
  let t := (BitVec.ofInt 64 (delta_us.tdiv 1000000)).toNat
  pad2 (t / 3600) ++ ':' :: (pad2 (t % 3600 / 60) ++ ':' :: pad2 (t % 60))

def fmtUtcFromUs (printer : Printer) (us : ℤ) : Text := (printer.strftime us).getD ['?']

def cfAdd (len : ℕ) (buf label : Text) : Text :=
  let buf := if 0 < buf.length ∧ buf.length + 1 < len then buf ++ ['|'] else buf
  if buf.length + label.length < len then buf ++ label else buf

def cflagLabels : List (ℕ × String) :=
  [(0, "RUNNING"), (1, "DESTRUCT"), (2, "LOCKED"), (3, "RECORDING"), (4, "PAUSE"),
    (5, "DYNAMIC"), (6, "PLAY_FILE")]

def cflagsToStr (len : ℕ) (cf : BitVec 32) : Text :=
  cflagLabels.foldl (fun buf x => if cf.getLsbD x.1 then cfAdd len buf x.2.toList else buf) []

def BroadcastReport.profileName (b : BroadcastReport) : Text :=
  (b.profile.map ProfileReport.name).getD []

def BroadcastReport.speakerId (b : BroadcastReport) : ℕ :=
  (b.current_speaker.map MemberReport.id).getD 0

def apiListItem (first : Bool) (b : BroadcastReport) : List Piece :=
  json ["%s\x7b\"name\":\"%s\",\"uuid\":\"%s\"", ",\"profile\":\"%s\",\"listeners\":%u",
      ",\"speaker_id\":%u,\"recording\":%s\x7d"]
    [comma first, str b.name, str b.uuid_str, str b.profileName, num b.listener_count,
      num b.speakerId, truth (b.cflags.getLsbD 3)]

def apiList (bs : List BroadcastReport) : List Piece :=
  json ["\x7b\"command\":\"list\",\"broadcasts\":["] [] ++ (items apiListItem true bs ++
    json ["],\"count\":%u\x7d\n"] [num (bs.length % 2 ^ 32)])

def apiModuleStats (g : ModuleReport) : List Piece :=
  let listeners_now := ((g.broadcasts.filter fun b => !b.destroyed).map
    BroadcastReport.listener_count).sum % 2 ^ 32
  json ["\x7b\"command\":\"stats\"", ",\"total_broadcasts_created\":%u",
      ",\"active_broadcasts\":%u", ",\"total_listeners_served\":%u",
      ",\"listeners_now\":%u,\"emitter_running\":%s", ",\"module_uptime_sec\":%ld\x7d\n"]
    [num g.total_broadcasts_created, num g.active_broadcasts, num g.total_listeners_served,
      num listeners_now, truth g.emitter_running, int ((g.now - g.module_load_us).tdiv 1000000)]

def tickMsAgo (now : ℤ) (m : MemberReport) : ℤ :=
  if 0 < m.last_seen_seq_advance ∧ m.last_seen_seq_advance ≤ now then
    (now - m.last_seen_seq_advance).tdiv 1000
  else -1

def apiListenerDetail (now : ℤ) (b : BroadcastReport) (m : MemberReport) : List Piece :=
  json ["\x7b\"command\":\"listener\",\"id\":%u", ",\"uuid\":\"%s\",\"tag\":\"%s\"",
      ",\"display_name\":\"%s\"", ",\"joined_at_us\":%ld,\"duration_ms\":%ld",
      ",\"lag\":%lu,\"resync\":%u", ",\"last_tick_ms_ago\":%ld\x7d\n"]
    [num m.id, str (copyString 64 m.uuid), str (copyString 256 m.tag),
      str (copyString 256 m.display_name), int m.joined_at,
      int ((now - m.joined_at).tdiv 1000), num (b.producer_seq - m.consumer_seq),
      num m.resync_count, int (tickMsAgo now m)]

def listenerNotFound : List Piece :=
  json ["\x7b\"command\":\"listener\"", ",\"result\":\"error\"",
      ",\"detail\":\"not found\"\x7d\n"] []

def RecordingReport.bytes_approx (r : RecordingReport) : ℕ :=
  r.samples_out * (if r.channels = 0 then 1 else r.channels) * 2 % 2 ^ 64

def recItem (r : RecordingReport) : List Piece :=
  json ["\x7b\"path\":\"%s\",\"bytes_approx\":%lu\x7d"] [str r.target, num r.bytes_approx]

/-- One turn of the loop that fills `rec_json`, a buffer of 1536 octets with the closing zero. -/
def recStep (rec_json : Text) (r : RecordingReport) : Text :=
  let rj := rec_json.length
  let rec_json := if 1 < rj ∧ rj + 2 < 1536 then rec_json ++ [','] else rec_json
  (rec_json ++ render (recItem r)).take 1535

def recJson (recs : List RecordingReport) : Text :=
  let rec_json := recs.foldl recStep ['[']
  if rec_json.length + 2 < 1536 then rec_json ++ [']'] else rec_json

def cfState (cf : BitVec 32) : Text :=
  if cf.getLsbD 1 then "DESTROYING".toList else if cf.getLsbD 4 then "PAUSED".toList
  else "RUNNING".toList

def avgTickUs (b : BroadcastReport) : ℤ :=
  if b.producer_tick_count_for_avg = 0 then 0
  else asTime (b.producer_tick_sum_us / b.producer_tick_count_for_avg)

def apiInfoName (b : BroadcastReport) : List Piece :=
  json ["\x7b\"command\":\"info\",\"name\":\"%s\"", ",\"uuid\":\"%s\",\"profile\":\"%s\"",
      ",\"profile_rate\":%u", ",\"profile_interval_ms\":%u", ",\"profile_channels\":%u,"]
    [str b.name, str b.uuid_str, str b.profileName,
      num ((b.profile.map ProfileReport.rate).getD 0),
      num ((b.profile.map ProfileReport.interval_ms).getD 0),
      num ((b.profile.map ProfileReport.channels).getD 0)]

def BroadcastReport.speakerText (b : BroadcastReport) (f : MemberReport → Text) : Text :=
  (b.current_speaker.map f).getD []

def spActiveSec (now : ℤ) (b : BroadcastReport) : ℤ :=
  if b.speaks ∧ 0 < b.speaker_active_since ∧ b.speaker_active_since ≤ now then
    (now - b.speaker_active_since).tdiv 1000000
  else 0

def apiInfoPeople (printer : Printer) (now : ℤ) (b : BroadcastReport) : List Piece :=
  let uptime_us := now - b.created_at
  json ["\"created_at_us\":%ld", ",\"created_utc\":\"%s\",\"uptime_sec\":%ld",
      ",\"uptime_hms\":\"%s\",\"listeners\":%u", ",\"listeners_peak\":%u,\"speaker_id\":%u",
      ",\"speaker_uuid\":\"%s\"", ",\"speaker_display\":\"%s\"", ",\"speaker_active_sec\":%ld,"]
    [int b.created_at, str (fmtUtcFromUs printer b.created_at),
      int (uptime_us.tdiv 1000000), str (fmtUptimeHms uptime_us),
      num b.listener_count, num b.stat_peak_listeners, num b.speakerId,
      str (copyString 64 (b.speakerText MemberReport.uuid)),
      str (copyString 256 (b.speakerText MemberReport.display_name)), int (spActiveSec now b)]

def missedPct (printer : Printer) (b : BroadcastReport) : Text :=
  if 0 < b.stat_ticks then printer.fixed 8 (100 * b.stat_missed_ticks) b.stat_ticks
  else printer.fixed 8 0 1

def tps (printer : Printer) (b : BroadcastReport) : Text :=
  if b.interval_ms = 0 then printer.fixed 4 0 1 else printer.fixed 4 1000 b.interval_ms

def maxTickAgeSec (now : ℤ) (b : BroadcastReport) : ℤ :=
  if 0 < b.producer_max_tick_seen_us ∧ b.producer_max_tick_seen_us ≤ now then
    (now - b.producer_max_tick_seen_us).tdiv 1000000
  else -1

def apiInfoTicks (printer : Printer) (now : ℤ) (b : BroadcastReport) : List Piece :=
  json ["\"producer_seq\":%lu,\"ticks\":%lu", ",\"missed_ticks\":%lu,\"missed_pct\":%.8f",
      ",\"producer_ticks_per_sec\":%.4f", ",\"avg_tick_us\":%ld,\"max_tick_us\":%ld",
      ",\"max_tick_age_sec\":%ld", ",\"drift_max_us\":%lu,\"resyncs\":%u",
      ",\"joined\":%u,\"left\":%u", ",\"events_dropped\":%u,"]
    [num b.producer_seq, num b.stat_ticks, num b.stat_missed_ticks,
      [.number (missedPct printer b)], [.number (tps printer b)], int (avgTickUs b),
      int b.producer_max_tick_us, int (maxTickAgeSec now b), num b.stat_tick_drift_us_max,
      num b.stat_listener_resyncs, num b.stat_listeners_joined, num b.stat_listeners_left,
      num b.stat_events_dropped]

def apiInfoFlags (b : BroadcastReport) : List Piece :=
  json ["\"cflags_hex\":\"0x%x\"", ",\"cflags_str\":\"%s\",\"state\":\"%s\"",
      ",\"recordings\":"]
    [hex b.cflags.toNat, str (cflagsToStr 128 b.cflags), str (cfState b.cflags)]

def apiInfoHead (printer : Printer) (now : ℤ) (b : BroadcastReport) : List Piece :=
  apiInfoName b ++ (apiInfoPeople printer now b ++ (apiInfoTicks printer now b ++ apiInfoFlags b))

def apiInfoWith (printer : Printer) (now : ℤ) (b : BroadcastReport) (recordings : List Piece) :
    List Piece :=
  apiInfoHead printer now b ++ json ["%s\x7d\n"] [recordings]

def apiInfo (printer : Printer) (now : ℤ) (b : BroadcastReport) : List Piece :=
  apiInfoWith printer now b (lits (recJson b.recordings))

def apiListenersItem (now : ℤ) (b : BroadcastReport) (first : Bool) (m : MemberReport) :
    List Piece :=
  json ["%s\x7b\"id\":%u,\"uuid\":\"%s\",\"lag\":%lu",
      ",\"resync\":%u,\"last_tick_ms_ago\":%ld\x7d"]
    [comma first, num m.id, str m.uuid, num (b.producer_seq - m.consumer_seq),
      num m.resync_count, int (tickMsAgo now m)]

def apiListeners (now : ℤ) (b : BroadcastReport) : List Piece :=
  json ["\x7b\"command\":\"listeners\",\"members\":["] [] ++
    (items (apiListenersItem now b) true b.listeners ++ json ["]\x7d\n"] [])

def apiStats (b : BroadcastReport) : List Piece :=
  json ["\x7b\"command\":\"stats\",\"ticks\":%u", ",\"missed_ticks\":%u",
      ",\"speaker_silent_ticks\":%u,\"resyncs\":%u", ",\"joined\":%u,\"left\":%u",
      ",\"events_dropped\":%u\x7d\n"]
    [num b.stat_ticks, num b.stat_missed_ticks, num b.stat_speaker_silent_ticks,
      num b.stat_listener_resyncs, num b.stat_listeners_joined, num b.stat_listeners_left,
      num b.stat_events_dropped]

def apiProducer (b : BroadcastReport) : List Piece :=
  json ["\x7b\"command\":\"producer\",\"running\":%s", ",\"producer_seq\":%lu,\"ticks\":%lu",
      ",\"missed_ticks\":%lu,\"avg_tick_us\":%ld", ",\"max_tick_us\":%ld",
      ",\"drift_max_us\":%lu\x7d\n"]
    [truth b.producer_running, num b.producer_seq, num b.stat_ticks, num b.stat_missed_ticks,
      int (avgTickUs b), int b.producer_max_tick_us, num b.stat_tick_drift_us_max]

def apiProducerHistogram (g : ModuleReport) (b : BroadcastReport) : List Piece :=
  let hist := b.producer_tick_hist
  if g.BROADCAST_ENABLE_HISTOGRAM then
    json ["\x7b\"command\":\"producer_histogram\"", ",\"b50\":%lu,\"b100\":%lu,\"b200\":%lu",
        ",\"b500\":%lu,\"b1000\":%lu,\"b5000\":%lu", ",\"b20000\":%lu,\"b_over\":%lu\x7d\n"]
      [num hist.bucket_us_50, num hist.bucket_us_100, num hist.bucket_us_200,
        num hist.bucket_us_500, num hist.bucket_us_1000, num hist.bucket_us_5000,
        num hist.bucket_us_20000, num hist.bucket_us_over]
  else
    json ["\x7b\"command\":\"producer_histogram\"", ",\"result\":\"disabled\"\x7d\n"] []

def BROADCAST_MODULE_VERSION : String := "mod_broadcast v1.0"

/-- What `broadcast_api_dispatch` answers with; `plain` is a line that it writes in either mode. -/
inductive ApiReply
  | plain (line : String)
  | usage
  | version
  | reload (ok : Bool)
  | list (bs : List BroadcastReport)
  | moduleStats
  | noSuchBroadcast
  | info (b : BroadcastReport)
  | listeners (b : BroadcastReport)
  | stats (b : BroadcastReport)
  | producer (b : BroadcastReport)
  | producerHistogram (b : BroadcastReport)
  | listenerDetail (b : BroadcastReport) (m : Option MemberReport)

def ApiReply.pieces (printer : Printer) (g : ModuleReport) : ApiReply → List Piece
  | .plain line => lits line.toList
  | .usage => json ["\x7b\"command\":\"\",\"result\":\"error\"", ",\"detail\":\"usage\"\x7d\n"] []
  | .version =>
    json ["\x7b\"command\":\"version\"", ",\"version\":\"%s\"\x7d\n"]
      [lits BROADCAST_MODULE_VERSION.toList]
  | .reload true => json ["\x7b\"command\":\"reload\"", ",\"result\":\"ok\"\x7d\n"] []
  | .reload false => json ["\x7b\"command\":\"reload\"", ",\"result\":\"error\"\x7d\n"] []
  | .list bs => apiList bs
  | .moduleStats => apiModuleStats g
  | .noSuchBroadcast =>
    json ["\x7b\"result\":\"error\"", ",\"detail\":\"no such broadcast\"\x7d\n"] []
  | .info b => apiInfo printer g.now b
  | .listeners b => apiListeners g.now b
  | .stats b => apiStats b
  | .producer b => apiProducer b
  | .producerHistogram b => apiProducerHistogram g b
  | .listenerDetail b (some m) => apiListenerDetail g.now b m
  | .listenerDetail _ none => listenerNotFound

def ModuleReport.findAndRef (g : ModuleReport) (name : String) : Option BroadcastReport :=
  if name = "" then none else
    (g.broadcasts.find? fun b => b.name = name.toList).filter fun b =>
      !b.destroyed && !b.cflags.getLsbD 1

def BroadcastReport.findMember (b : BroadcastReport) (id : ℕ) : Option MemberReport :=
  if id = 0 then none else
    (b.listeners.find? fun m => m.id = id).or (b.current_speaker.filter fun m => m.id = id)

def okLine (ok : Bool) : String := if ok then "+OK\n" else "-ERR\n"

def actLine (ok : Bool) (command : String) (args : List String) : String :=
  if (caseEq command "set_speaker" ∨ caseEq command "promote_listener") ∧ 1 ≤ args.length then
    okLine ok
  else if caseEq command "clear_speaker" then "+OK\n"
  else if caseEq command "kick" ∧ 1 ≤ args.length then okLine ok
  else if caseEq command "kick_all" ∨ caseEq command "lock" ∨ caseEq command "unlock" ∨
      caseEq command "pause" ∨ caseEq command "resume" then "+OK\n"
  else if caseEq command "record" ∧ 1 ≤ args.length then okLine ok
  else if caseEq command "norecord" ∨ caseEq command "destroy" then "+OK\n"
  else if caseEq command "dtmf" ∧ 2 ≤ args.length then okLine ok
  else if caseEq command "play" ∧ 1 ≤ args.length then okLine ok
  else if caseEq command "stop_play" then "+OK\n"
  else "-ERR unknown subcommand\n"

def commandReply (b : BroadcastReport) (ok : Bool) (command : String) (args : List String) :
    ApiReply :=
  if caseEq command "info" then .info b
  else if caseEq command "listeners" then .listeners b
  else if caseEq command "stats" then .stats b
  else if caseEq command "producer" ∧ 1 ≤ args.length ∧ caseEq (args.getD 0 "") "histogram" then
    .producerHistogram b
  else if caseEq command "producer" then .producer b
  else if caseEq command "listener" ∧ 1 ≤ args.length then
    .listenerDetail b (b.findMember (Locks.parseMemberId (args.getD 0 "")))
  else .plain (actLine ok command args)

def listFilter (argv : List String) (b : BroadcastReport) : Bool :=
  argv.headD "" = "" || caseEq (String.ofList b.name) (argv.headD "")

def broadcastReply (g : ModuleReport) (ok : Bool) (name : String) : List String → ApiReply
  | [] => .plain "-ERR\n"
  | command :: args => match g.findAndRef name with
    | none => .noSuchBroadcast
    | some b => commandReply b ok command args

/-- A command is read as far as its answer goes; whether it succeeds is the argument `ok`. -/
def apiReply (g : ModuleReport) (ok : Bool) (cmd : String) : List String → ApiReply
  | [] => if cmd = "" then .plain "-ERR\n" else .usage
  | name :: argv =>
    if name = "" then .usage
    else if caseEq name "version" then .version
    else if caseEq name "reload" then .reload ok
    else if caseEq name "list" then .list (g.broadcasts.filter (listFilter argv))
    else if caseEq name "stats" then .moduleStats
    else broadcastReply g ok name argv

def apiAnswer (core : Locks.Core) (g : ModuleReport) (ok : Bool) (cmd : String) (json : Bool) :
    ApiReply :=
  apiReply g ok cmd (Locks.apiWords core cmd json).2

/-- What `broadcast_api_dispatch` writes in JSON mode. -/
def apiOutput (core : Locks.Core) (printer : Printer) (g : ModuleReport) (ok : Bool) (cmd : String)
    (json : Bool) : Option Text :=
  if (Locks.apiWords core cmd json).1 then
    some (render ((apiAnswer core g ok cmd json).pieces printer g))
  else none

end ModBroadcast
