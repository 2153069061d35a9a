import ModBroadcast.JsonReplies

namespace ModBroadcast

open JsonText

/-- The members of an object, each with the strings of its value. -/
def entries (ms : List (String × List Text)) : List Text :=
  ms.flatMap fun m => m.1.toList :: m.2

def listEntries (b : BroadcastReport) : List Text :=
  entries [("name", [b.name]), ("uuid", [b.uuid_str]), ("profile", [b.profileName]),
    ("listeners", []), ("speaker_id", []), ("recording", [])]

def moduleStatsEntries : List Text :=
  entries [("command", ["stats".toList]), ("total_broadcasts_created", []),
    ("active_broadcasts", []), ("total_listeners_served", []), ("listeners_now", []),
    ("emitter_running", []), ("module_uptime_sec", [])]

def listenerDetailEntries (m : MemberReport) : List Text :=
  entries [("command", ["listener".toList]), ("id", []), ("uuid", [copyString 64 m.uuid]),
    ("tag", [copyString 256 m.tag]), ("display_name", [copyString 256 m.display_name]),
    ("joined_at_us", []), ("duration_ms", []), ("lag", []), ("resync", []),
    ("last_tick_ms_ago", [])]

def nameEntries (b : BroadcastReport) : List Text :=
  entries [("command", ["info".toList]), ("name", [b.name]), ("uuid", [b.uuid_str]),
    ("profile", [b.profileName]), ("profile_rate", []), ("profile_interval_ms", []),
    ("profile_channels", [])]

def peopleEntries (printer : Printer) (now : ℤ) (b : BroadcastReport) : List Text :=
  entries [("created_at_us", []), ("created_utc", [fmtUtcFromUs printer b.created_at]),
    ("uptime_sec", []), ("uptime_hms", [fmtUptimeHms (now - b.created_at)]),
    ("listeners", []), ("listeners_peak", []), ("speaker_id", []),
    ("speaker_uuid", [copyString 64 (b.speakerText MemberReport.uuid)]),
    ("speaker_display", [copyString 256 (b.speakerText MemberReport.display_name)]),
    ("speaker_active_sec", [])]

def tickEntries : List Text :=
  entries [("producer_seq", []), ("ticks", []), ("missed_ticks", []), ("missed_pct", []),
    ("producer_ticks_per_sec", []), ("avg_tick_us", []), ("max_tick_us", []),
    ("max_tick_age_sec", []), ("drift_max_us", []), ("resyncs", []), ("joined", []),
    ("left", []), ("events_dropped", [])]

def flagEntries (b : BroadcastReport) : List Text :=
  entries [("cflags_hex", ['0' :: 'x' :: Nat.toDigits 16 b.cflags.toNat]),
    ("cflags_str", [cflagsToStr 128 b.cflags]), ("state", [cfState b.cflags]), ("recordings", [])]

def infoEntries (printer : Printer) (now : ℤ) (b : BroadcastReport) : List Text :=
  nameEntries b ++ (peopleEntries printer now b ++ (tickEntries ++ flagEntries b))

def recEntries (r : RecordingReport) : List Text :=
  entries [("path", [r.target]), ("bytes_approx", [])]

def listenersEntries (m : MemberReport) : List Text :=
  entries [("id", []), ("uuid", [m.uuid]), ("lag", []), ("resync", []),
    ("last_tick_ms_ago", [])]

def statsEntries : List Text :=
  entries [("command", ["stats".toList]), ("ticks", []), ("missed_ticks", []),
    ("speaker_silent_ticks", []), ("resyncs", []), ("joined", []), ("left", []),
    ("events_dropped", [])]

def producerEntries : List Text :=
  entries [("command", ["producer".toList]), ("running", []), ("producer_seq", []),
    ("ticks", []), ("missed_ticks", []), ("avg_tick_us", []), ("max_tick_us", []),
    ("drift_max_us", [])]

def histogramEntries : List Text :=
  entries [("command", ["producer_histogram".toList]), ("b50", []), ("b100", []),
    ("b200", []), ("b500", []), ("b1000", []), ("b5000", []), ("b20000", []),
    ("b_over", [])]

/-- What an answer says; a plain line says nothing. -/
def ApiReply.strings (printer : Printer) (g : ModuleReport) : ApiReply → List Text
  | .plain _ => []
  | .usage =>
    entries [("command", [[]]), ("result", ["error".toList]), ("detail", ["usage".toList])]
  | .version =>
    entries [("command", ["version".toList]), ("version", [BROADCAST_MODULE_VERSION.toList])]
  | .reload ok =>
    entries [("command", ["reload".toList]), ("result", [(if ok then "ok" else "error").toList])]
  | .list bs =>
    entries [("command", ["list".toList]), ("broadcasts", [])] ++ bs.flatMap listEntries ++
      entries [("count", [])]
  | .moduleStats => moduleStatsEntries
  | .noSuchBroadcast =>
    entries [("result", ["error".toList]), ("detail", ["no such broadcast".toList])]
  | .info b => infoEntries printer g.now b ++ b.recordings.flatMap recEntries
  | .listeners b =>
    entries [("command", ["listeners".toList]), ("members", [])] ++
      b.listeners.flatMap listenersEntries
  | .stats _ => statsEntries
  | .producer _ => producerEntries
  | .producerHistogram _ =>
    if g.BROADCAST_ENABLE_HISTOGRAM then histogramEntries
    else entries [("command", ["producer_histogram".toList]), ("result", ["disabled".toList])]
  | .listenerDetail _ (some m) => listenerDetailEntries m
  | .listenerDetail _ none =>
    entries [("command", ["listener".toList]), ("result", ["error".toList]),
      ("detail", ["not found".toList])]

/-- The texts that come into an answer from outside. -/
def ApiReply.texts : ApiReply → List Text
  | .list bs => bs.flatMap fun b => [b.name, b.uuid_str, b.profileName]
  | .info b =>
    [b.name, b.uuid_str, b.profileName, copyString 64 (b.speakerText MemberReport.uuid),
      copyString 256 (b.speakerText MemberReport.display_name)] ++
      b.recordings.map RecordingReport.target
  | .listeners b => b.listeners.map MemberReport.uuid
  | .listenerDetail _ (some m) =>
    [copyString 64 m.uuid, copyString 256 m.tag, copyString 256 m.display_name]
  | _ => []

/-- What a recording takes in `rec_json`, with the bracket or the comma in front of it. -/
def RecordingReport.size (r : RecordingReport) : ℕ :=
  28 + r.target.length + (Nat.toDigits 10 r.bytes_approx).length

def ApiReply.fits : ApiReply → Prop
  | .info b => (b.recordings.map RecordingReport.size).sum ≤ 1533
  | _ => True

def asksBroadcast (command : String) (args : List String) : Prop :=
  caseEq command "info" ∨ caseEq command "listeners" ∨ caseEq command "stats" ∨
    caseEq command "producer" ∨ caseEq command "listener" ∧ 1 ≤ args.length

/-- The commands that are not answered by a plain line. -/
def asks (g : ModuleReport) (cmd : String) : List String → Prop
  | [] => cmd ≠ ""
  | name :: argv =>
    name = "" ∨ caseEq name "version" ∨ caseEq name "reload" ∨ caseEq name "list" ∨
      caseEq name "stats" ∨
      ∃ command args, argv = command :: args ∧
        (g.findAndRef name = none ∨ asksBroadcast command args)

/-- When the answer to a command is what it should be. -/
structure Answerable (core : Locks.Core) (g : ModuleReport) (ok : Bool) (cmd : String)
    (json : Bool) : Prop where
  asks : asks g cmd (Locks.apiWords core cmd json).2
  texts : ∀ t ∈ (apiAnswer core g ok cmd json).texts, Body t
  fits : (apiAnswer core g ok cmd json).fits

section

set_option maxRecDepth 20000

variable {printer : Printer} {g : ModuleReport} {now : ℤ} {b : BroadcastReport} {n : List Nest}

theorem scan_apiListItem (first : Bool) (b : BroadcastReport) :
    scan ⟨itemMode first, .array :: n, []⟩ (apiListItem first b) =
      some ⟨.after, .array :: n, listEntries b⟩ := by
  cases first <;> cases h : b.cflags.getLsbD 3 <;>
    simp only [apiListItem, h, json, listEntries, entries, List.flatMap_cons, List.flatMap_nil,
      String.reduceToList, List.cons_append, List.nil_append] <;> rfl

theorem scan_apiModuleStats : scan .start (apiModuleStats g) =
    some ⟨.after, [], moduleStatsEntries⟩ := by
  cases h : g.emitter_running <;>
    simp only [apiModuleStats, h, json, moduleStatsEntries, entries, List.flatMap_cons,
      List.flatMap_nil, String.reduceToList, List.cons_append, List.nil_append] <;> rfl

theorem scan_apiListenerDetail (m : MemberReport) : scan .start (apiListenerDetail now b m) =
    some ⟨.after, [], listenerDetailEntries m⟩ := by
  simp only [apiListenerDetail, json, listenerDetailEntries, entries, List.flatMap_cons,
    List.flatMap_nil, String.reduceToList, List.cons_append, List.nil_append]
  rfl

theorem scan_recItem (first : Bool) (r : RecordingReport) :
    scan ⟨itemMode first, .array :: n, []⟩ (comma first ++ recItem r) =
      some ⟨.after, .array :: n, recEntries r⟩ := by
  cases first <;>
    simp only [recItem, json, recEntries, entries, List.flatMap_cons, List.flatMap_nil,
      String.reduceToList, List.cons_append, List.nil_append] <;> rfl

theorem scan_apiInfoName : scan .start (apiInfoName b) =
    some ⟨.key false, [.object], nameEntries b⟩ := by
  simp only [apiInfoName, json, nameEntries, entries, List.flatMap_cons, List.flatMap_nil,
    String.reduceToList, List.cons_append, List.nil_append]
  rfl

theorem scan_apiInfoPeople : scan ⟨.key false, [.object], []⟩ (apiInfoPeople printer now b) =
    some ⟨.key false, [.object], peopleEntries printer now b⟩ := by
  simp only [apiInfoPeople, json, peopleEntries, entries, List.flatMap_cons, List.flatMap_nil,
    String.reduceToList, List.cons_append, List.nil_append]
  rfl

theorem scan_apiInfoTicks : scan ⟨.key false, [.object], []⟩ (apiInfoTicks printer now b) =
    some ⟨.key false, [.object], tickEntries⟩ := by
  simp only [apiInfoTicks, json, tickEntries, entries, List.flatMap_cons, List.flatMap_nil,
    String.reduceToList, List.cons_append, List.nil_append]
  rfl

theorem scan_apiInfoFlags : scan ⟨.key false, [.object], []⟩ (apiInfoFlags b) =
    some ⟨.value false, [.object], flagEntries b⟩ := by
  simp only [apiInfoFlags, json, flagEntries, entries, List.flatMap_cons, List.flatMap_nil,
    String.reduceToList, List.cons_append, List.nil_append]
  rfl

theorem scan_apiInfoHead : scan .start (apiInfoHead printer now b) =
    some ⟨.value false, [.object], infoEntries printer now b⟩ := by
  rw [apiInfoHead, scan_append scan_apiInfoName, scan_append (scan_from scan_apiInfoPeople),
    scan_append (scan_from scan_apiInfoTicks), scan_from scan_apiInfoFlags]
  simp only [infoEntries, List.append_assoc]

theorem scan_apiListenersItem (first : Bool) (m : MemberReport) :
    scan ⟨itemMode first, .array :: n, []⟩ (apiListenersItem now b first m) =
      some ⟨.after, .array :: n, listenersEntries m⟩ := by
  cases first <;>
    simp only [apiListenersItem, json, listenersEntries, entries, List.flatMap_cons,
      List.flatMap_nil, String.reduceToList, List.cons_append, List.nil_append] <;> rfl

theorem scan_apiStats : scan .start (apiStats b) = some ⟨.after, [], statsEntries⟩ := by
  simp only [apiStats, json, statsEntries, entries, List.flatMap_cons, List.flatMap_nil,
    String.reduceToList, List.cons_append, List.nil_append]
  rfl

theorem scan_apiProducer : scan .start (apiProducer b) = some ⟨.after, [], producerEntries⟩ := by
  cases h : b.producer_running <;>
    simp only [apiProducer, h, json, producerEntries, entries, List.flatMap_cons,
      List.flatMap_nil, String.reduceToList, List.cons_append, List.nil_append] <;> rfl

theorem scan_apiList (bs : List BroadcastReport) : scan .start (apiList bs) =
    some ⟨.after, [], entries [("command", ["list".toList]), ("broadcasts", [])] ++
      bs.flatMap listEntries ++ entries [("count", [])]⟩ := by
  have hpre : scan .start (json ["\x7b\"command\":\"list\",\"broadcasts\":["] []) =
      some ⟨.value true, [.array, .object],
        entries [("command", ["list".toList]), ("broadcasts", [])]⟩ := by
    simp only [json, entries, List.flatMap_cons, List.flatMap_nil, String.reduceToList,
      List.cons_append, List.nil_append, List.append_nil]
    rfl
  have hpost (first : Bool) : scan ⟨itemMode first, [.array, .object], []⟩
      (json ["],\"count\":%u\x7d\n"] [num (bs.length % 2 ^ 32)]) =
        some ⟨.after, [], entries [("count", [])]⟩ := by
    cases first <;>
      simp only [json, entries, List.flatMap_cons, List.flatMap_nil, String.reduceToList,
        List.append_nil] <;> rfl
  exact scan_array bs hpre scan_apiListItem hpost

theorem scan_apiListeners : scan .start (apiListeners now b) =
    some ⟨.after, [], entries [("command", ["listeners".toList]), ("members", [])] ++
      b.listeners.flatMap listenersEntries⟩ := by
  have hpre : scan .start (json ["\x7b\"command\":\"listeners\",\"members\":["] []) =
      some ⟨.value true, [.array, .object],
        entries [("command", ["listeners".toList]), ("members", [])]⟩ := by
    simp only [json, entries, List.flatMap_cons, List.flatMap_nil, String.reduceToList,
      List.cons_append, List.nil_append, List.append_nil]
    rfl
  have hpost (first : Bool) : scan ⟨itemMode first, [.array, .object], []⟩
      (json ["]\x7d\n"] []) = some ⟨.after, [], []⟩ := by
    cases first <;>
      simp only [json, List.flatMap_cons, List.flatMap_nil, String.reduceToList,
        List.append_nil] <;> rfl
  have hitem (first : Bool) (m : MemberReport) :
      scan ⟨itemMode first, [.array, .object], []⟩ (apiListenersItem now b first m) =
        some ⟨.after, [.array, .object], listenersEntries m⟩ := scan_apiListenersItem first m
  have hscan := scan_array b.listeners hpre hitem hpost
  rw [List.append_nil] at hscan
  exact hscan

theorem scan_apiProducerHistogram : scan .start (apiProducerHistogram g b) =
    some ⟨.after, [], (ApiReply.producerHistogram b).strings printer g⟩ := by
  cases hg : g.BROADCAST_ENABLE_HISTOGRAM <;>
    simp only [apiProducerHistogram, hg, json, ApiReply.strings, histogramEntries, entries,
      List.flatMap_cons, List.flatMap_nil, String.reduceToList, List.cons_append,
      List.nil_append, if_true, if_false, Bool.false_eq_true] <;> rfl

theorem scan_usage : scan .start (ApiReply.usage.pieces printer g) =
    some ⟨.after, [], ApiReply.usage.strings printer g⟩ := by
  simp only [ApiReply.pieces, json, ApiReply.strings, entries, List.flatMap_cons,
    List.flatMap_nil, String.reduceToList, List.cons_append, List.nil_append]
  rfl

theorem scan_version : scan .start (ApiReply.version.pieces printer g) =
    some ⟨.after, [], ApiReply.version.strings printer g⟩ := by
  simp only [ApiReply.pieces, BROADCAST_MODULE_VERSION, lits, json, ApiReply.strings, entries,
    List.flatMap_cons, List.flatMap_nil, String.reduceToList, List.cons_append, List.nil_append]
  rfl

theorem scan_reloadOk : scan .start ((ApiReply.reload true).pieces printer g) =
    some ⟨.after, [], (ApiReply.reload true).strings printer g⟩ := by
  simp only [ApiReply.pieces, json, ApiReply.strings, entries, List.flatMap_cons,
    List.flatMap_nil, String.reduceToList, List.cons_append, List.nil_append]
  rfl

theorem scan_reloadError : scan .start ((ApiReply.reload false).pieces printer g) =
    some ⟨.after, [], (ApiReply.reload false).strings printer g⟩ := by
  simp only [ApiReply.pieces, json, ApiReply.strings, entries, List.flatMap_cons,
    List.flatMap_nil, String.reduceToList, List.cons_append, List.nil_append]
  rfl

theorem scan_noSuchBroadcast : scan .start (ApiReply.noSuchBroadcast.pieces printer g) =
    some ⟨.after, [], ApiReply.noSuchBroadcast.strings printer g⟩ := by
  simp only [ApiReply.pieces, json, ApiReply.strings, entries, List.flatMap_cons,
    List.flatMap_nil, String.reduceToList, List.cons_append, List.nil_append]
  rfl

theorem scan_listenerNotFound : scan .start listenerNotFound =
    some ⟨.after, [], (ApiReply.listenerDetail b none).strings printer g⟩ := by
  simp only [listenerNotFound, json, ApiReply.strings, entries, List.flatMap_cons,
    List.flatMap_nil, String.reduceToList, List.cons_append, List.nil_append]
  rfl

end

def Within (ts : List Text) (ps : List Piece) : Prop := ∀ p ∈ ps, p.Fits ∨ ∃ t ∈ ts, p = .text t

section

variable {printer : Printer} {g : ModuleReport} {now : ℤ} {b : BroadcastReport}
  {ts us : List Text} {ps qs : List Piece}

theorem Within.mono (h : Within ts ps) (hs : ts ⊆ us) : Within us ps := fun p hp =>
  (h p hp).imp_right fun ⟨t, ht, he⟩ => ⟨t, hs ht, he⟩

theorem within_append (hp : Within ts ps) (hq : Within ts qs) : Within ts (ps ++ qs) :=
  List.forall_mem_append.mpr ⟨hp, hq⟩

theorem within_lits (t : Text) : Within ts (lits t) := by
  intro p hp
  obtain ⟨c, -, rfl⟩ := List.mem_map.mp hp
  exact .inl trivial

theorem within_json {f : List String} {args : List (List Piece)} (h : ∀ a ∈ args, Within ts a) :
    Within ts (json f args) :=
  forall_mem_format false (fun _ => .inl trivial) h

theorem within_of_fits {p : Piece} (h : p.Fits) : Within ts [p] :=
  List.forall_mem_singleton.mpr (.inl h)

theorem within_str {t : Text} (h : t ∈ ts) : Within ts (str t) :=
  List.forall_mem_singleton.mpr (.inr ⟨t, h, rfl⟩)

theorem within_plain {t : Text} (h : ∀ c ∈ t, plain c) : Within ts (str t) :=
  within_of_fits (body_of_plain h)

theorem within_num (k : ℕ) : Within ts (num k) :=
  within_of_fits (isNumber_of_intPart (intPart_toDigits k))

theorem within_int (i : ℤ) : Within ts (int i) := by
  refine within_of_fits ?_
  cases i with
  | ofNat k => exact isNumber_of_intPart (intPart_toDigits k)
  | negSucc k => exact isNumber_minus (intPart_toDigits (k + 1))

theorem within_hex (k : ℕ) : Within ts (hex k) :=
  within_plain (plain_toDigits (by decide) (by decide))

theorem within_fixed (hp : printer.FixedNotation) {places num den : ℕ} (h : 0 < places)
    (hd : 0 < den) : Within ts [.number (printer.fixed places num den)] := by
  obtain ⟨i, f, hi, hl, hf, he⟩ := hp places num den h hd
  have hne : f ≠ [] := List.ne_nil_of_length_pos (hl ▸ h)
  exact within_of_fits (he ▸ isNumber_fraction hi ⟨hne, hf⟩)

theorem within_truth (x : Bool) : Within ts (truth x) := within_lits _

theorem within_comma (first : Bool) : Within ts (comma first) := by
  cases first
  · exact within_of_fits trivial
  · exact List.forall_mem_nil _

theorem plain_pad2 (k : ℕ) : ∀ c ∈ pad2 k, plain c := by
  have hdigits := plain_toDigits (b := 10) (k := k) (by decide) (by decide)
  unfold pad2
  split_ifs
  · exact List.forall_mem_cons.mpr ⟨by decide, hdigits⟩
  · exact hdigits

theorem plain_fmtUptimeHms (us : ℤ) : ∀ c ∈ fmtUptimeHms us, plain c := by
  simp only [fmtUptimeHms, List.forall_mem_append, List.forall_mem_cons]
  exact ⟨plain_pad2 _, by decide, plain_pad2 _, by decide, plain_pad2 _⟩

theorem plain_fmtUtcFromUs (hc : printer.Calendar) (us : ℤ) :
    ∀ c ∈ fmtUtcFromUs printer us, plain c := by
  unfold fmtUtcFromUs
  cases h : printer.strftime us with
  | none => exact List.forall_mem_singleton.mpr rfl
  | some t =>
    have hmarks : ∀ c ∈ "-: UTC".toList, plain c := List.all_eq_true.mp rfl
    exact fun c hm => (hc us t h c hm).elim plain_of_isDigit (hmarks c)

theorem plain_cfAdd {len : ℕ} {buf label : Text} (hb : ∀ c ∈ buf, plain c)
    (hl : ∀ c ∈ label, plain c) : ∀ c ∈ cfAdd len buf label, plain c := by
  have hbar : ∀ c ∈ buf ++ ['|'], plain c :=
    List.forall_mem_append.mpr ⟨hb, List.forall_mem_singleton.mpr rfl⟩
  unfold cfAdd
  generalize hbuf : (if 0 < buf.length ∧ buf.length + 1 < len then buf ++ ['|'] else buf) = buf'
  have hb' : ∀ c ∈ buf', plain c := by
    rw [← hbuf]
    split_ifs
    · exact hbar
    · exact hb
  dsimp only
  split_ifs
  · exact List.forall_mem_append.mpr ⟨hb', hl⟩
  · exact hb'

theorem plain_cflagsToStr (len : ℕ) (cf : BitVec 32) : ∀ c ∈ cflagsToStr len cf, plain c := by
  have hlabels : ∀ x ∈ cflagLabels, x.2.toList.all plain := by decide
  refine List.foldlRecOn (motive := fun buf : Text => ∀ c ∈ buf, plain c) cflagLabels _
    (List.forall_mem_nil _) fun buf hb x hx => ?_
  split_ifs
  · exact plain_cfAdd hb (List.all_eq_true.mp (hlabels x hx))
  · exact hb

theorem plain_cfState (cf : BitVec 32) : ∀ c ∈ cfState cf, plain c := by
  unfold cfState
  split_ifs <;> exact List.all_eq_true.mp rfl

end

end ModBroadcast
