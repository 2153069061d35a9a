import ModBroadcast.JsonRecordings
import ModBroadcast.LockDiscipline

namespace ModBroadcast

open JsonText

variable {printer : Printer} {g : ModuleReport} {now : ℤ} {b : BroadcastReport}
  {ps : List Piece} {l : List Text}

def ApiReply.template (printer : Printer) (g : ModuleReport) : ApiReply → List Piece
  | .info b => apiInfoWith printer g.now b (recOpen b.recordings ++ [.lit ']'])
  | reply => reply.pieces printer g

variable {reply : ApiReply}

theorem apiInfoWith_eq : apiInfoWith printer now b ps =
    apiInfoHead printer now b ++ (ps ++ [.lit '\x7d', .lit '\n']) := by
  simp only [apiInfoWith, json, List.flatMap_cons, List.flatMap_nil, String.reduceToList,
    List.append_nil]
  rfl

theorem render_template (h : reply.fits) :
    render (reply.template printer g) = render (reply.pieces printer g) := by
  cases reply with
  | info b =>
    simp only [ApiReply.template, ApiReply.pieces, apiInfo, apiInfoWith_eq, render_append,
      render_lits]
    rw [recJson_of_le h, render_append]
  | _ => rfl

theorem scan_apiInfo (recs : List RecordingReport) :
    scan .start (apiInfoWith printer now b (recOpen recs ++ [.lit ']'])) =
      some ⟨.after, [], infoEntries printer now b ++ recs.flatMap recEntries⟩ := by
  have hpre : scan .start (apiInfoHead printer now b ++ [.lit '[']) =
      some ⟨.value true, [.array, .object], infoEntries printer now b⟩ := by
    rw [scan_append scan_apiInfoHead]
    rfl
  have hpost (first : Bool) : scan ⟨itemMode first, [.array, .object], []⟩
      [.lit ']', .lit '\x7d', .lit '\n'] = some ⟨.after, [], []⟩ := by
    cases first <;> rfl
  have hscan := scan_array recs hpre scan_recItem hpost
  rw [List.append_nil, List.append_assoc] at hscan
  rw [apiInfoWith_eq, ← hscan, recOpen, List.cons_append, List.cons_append, List.append_assoc]
  rfl

theorem scan_template (h : ∀ line, reply ≠ .plain line) :
    scan .start (reply.template printer g) = some ⟨.after, [], reply.strings printer g⟩ := by
  cases reply with
  | plain line => exact absurd rfl (h line)
  | usage => exact scan_usage
  | version => exact scan_version
  | reload ok =>
    cases ok
    · exact scan_reloadError
    · exact scan_reloadOk
  | list bs => exact scan_apiList bs
  | moduleStats => exact scan_apiModuleStats
  | noSuchBroadcast => exact scan_noSuchBroadcast
  | info b => exact scan_apiInfo b.recordings
  | listeners b => exact scan_apiListeners
  | stats b => exact scan_apiStats
  | producer b => exact scan_apiProducer
  | producerHistogram b => exact scan_apiProducerHistogram
  | listenerDetail b m =>
    cases m with
    | some m => exact scan_apiListenerDetail m
    | none => exact scan_listenerNotFound

theorem within_recOpen (recs : List RecordingReport) :
    Within (recs.map RecordingReport.target) (recOpen recs) := by
  refine List.forall_mem_cons.mpr ⟨.inl trivial, forall_mem_items fun first r hr => ?_⟩
  refine within_append (within_comma first) (within_json ?_)
  simp [within_num, within_str (List.mem_map_of_mem hr)]

theorem within_apiInfoHead (hf : printer.FixedNotation) (hc : printer.Calendar) :
    Within (ApiReply.info b).texts (apiInfoHead printer now b) := by
  have hpct : Within (ApiReply.info b).texts [.number (missedPct printer b)] := by
    unfold missedPct
    split_ifs with h
    · exact within_fixed hf (by decide) h
    · exact within_fixed hf (by decide) (by decide)
  have htps : Within (ApiReply.info b).texts [.number (tps printer b)] := by
    unfold tps
    split_ifs with h
    · exact within_fixed hf (by decide) (by decide)
    · exact within_fixed hf (by decide) (Nat.pos_of_ne_zero h)
  refine within_append (within_json ?_) (within_append (within_json ?_)
    (within_append (within_json ?_) (within_json ?_)))
  · simp [within_num, within_str, ApiReply.texts]
  · simp [within_num, within_int, within_str, within_plain (plain_fmtUptimeHms _),
      within_plain (plain_fmtUtcFromUs hc _), ApiReply.texts]
  · simp [within_num, within_int, hpct, htps]
  · simp [within_hex, within_plain (plain_cflagsToStr _ _), within_plain (plain_cfState _)]

/-- Nothing but the texts from outside can go wrong. -/
theorem within_template (hf : printer.FixedNotation) (hc : printer.Calendar) :
    Within reply.texts (reply.template printer g) := by
  cases reply with
  | plain line => exact within_lits _
  | usage | noSuchBroadcast => exact within_json (List.forall_mem_nil _)
  | version => exact within_json (List.forall_mem_singleton.mpr (within_lits _))
  | reload ok => cases ok <;> exact within_json (List.forall_mem_nil _)
  | list bs =>
    refine within_append (within_json (List.forall_mem_nil _)) (within_append ?_ ?_)
    · refine forall_mem_items fun first b hb => ?_
      have hitem : Within [b.name, b.uuid_str, b.profileName] (apiListItem first b) :=
        within_json (by simp [within_comma, within_str, within_num, within_truth])
      exact hitem.mono fun t ht => List.mem_flatMap.mpr ⟨b, hb, ht⟩
    · exact within_json (List.forall_mem_singleton.mpr (within_num _))
  | moduleStats => exact within_json (by simp [within_num, within_truth, within_int])
  | info b =>
    rw [ApiReply.template, apiInfoWith_eq]
    have hrecs : Within (ApiReply.info b).texts (recOpen b.recordings) :=
      (within_recOpen b.recordings).mono (List.subset_append_right _ _)
    exact within_append (within_apiInfoHead hf hc) (within_append
      (within_append hrecs (within_lits [']'])) (within_lits ['\x7d', '\n']))
  | listeners b =>
    refine within_append (within_json (List.forall_mem_nil _)) (within_append ?_ ?_)
    · refine forall_mem_items fun first m hm => within_json ?_
      simp [within_comma, within_num, within_int, within_str, ApiReply.texts,
        List.mem_map_of_mem hm]
    · exact within_json (List.forall_mem_nil _)
  | stats b => exact within_json (by simp [within_num])
  | producer b => exact within_json (by simp [within_num, within_truth, within_int])
  | producerHistogram b =>
    change Within [] (apiProducerHistogram g b)
    unfold apiProducerHistogram
    split_ifs
    · exact within_json (by simp [within_num])
    · exact within_json (List.forall_mem_nil _)
  | listenerDetail b m =>
    cases m with
    | none => exact within_json (List.forall_mem_nil _)
    | some m =>
      exact within_json (by simp [within_num, within_int, within_str, ApiReply.texts])

/-- The texts are what an answer should say. -/
theorem texts_subset_strings : reply.texts ⊆ reply.strings printer g := by
  cases reply with
  | plain | usage | version | reload | moduleStats | noSuchBroadcast | stats | producer
  | producerHistogram => exact List.nil_subset _
  | list bs =>
    intro t ht
    obtain ⟨b, hb, ht⟩ := List.mem_flatMap.mp ht
    have hmem : t ∈ listEntries b := by
      simp only [List.mem_cons, List.not_mem_nil, or_false] at ht
      rcases ht with rfl | rfl | rfl <;> simp [listEntries, entries]
    exact List.mem_append_left _ (List.mem_append_right _ (List.mem_flatMap.mpr ⟨b, hb, hmem⟩))
  | info b =>
    intro t ht
    rcases List.mem_append.mp ht with ht | ht
    · refine List.mem_append_left _ ?_
      simp only [List.mem_cons, List.not_mem_nil, or_false] at ht
      rcases ht with rfl | rfl | rfl | rfl | rfl <;>
        simp [infoEntries, nameEntries, peopleEntries, entries]
    · obtain ⟨r, hr, rfl⟩ := List.mem_map.mp ht
      refine List.mem_append_right _ (List.mem_flatMap.mpr ⟨r, hr, ?_⟩)
      simp [recEntries, entries]
  | listeners b =>
    intro t ht
    obtain ⟨m, hm, rfl⟩ := List.mem_map.mp ht
    refine List.mem_append_right _ (List.mem_flatMap.mpr ⟨m, hm, ?_⟩)
    simp [listenersEntries, entries]
  | listenerDetail b m =>
    cases m with
    | none => exact List.nil_subset _
    | some m =>
      intro t ht
      simp only [ApiReply.texts, List.mem_cons, List.not_mem_nil, or_false] at ht
      rcases ht with rfl | rfl | rfl <;> simp [ApiReply.strings, listenerDetailEntries, entries]

theorem sealed_template (hf : printer.FixedNotation) (hc : printer.Calendar)
    (h : ∀ t ∈ reply.texts, '"' ∉ t ∨ Body t) :
    ∀ p ∈ reply.template printer g, p.Sealed := by
  intro p hp
  rcases within_template hf hc p hp with hfits | ⟨t, ht, rfl⟩
  · cases p with
    | lit => trivial
    | text => exact .inr hfits
    | number => exact hfits
  · exact h t ht

theorem fits_template (hf : printer.FixedNotation) (hc : printer.Calendar)
    (h : ∀ t ∈ reply.texts, Body t) : ∀ p ∈ reply.template printer g, p.Fits := by
  intro p hp
  rcases within_template hf hc p hp with hfits | ⟨t, ht, rfl⟩
  · exact hfits
  · exact h t ht

/-- A closing brace and a blank cannot end what is two deep. -/
theorem run_deep {s s' : Reader} (hs : deep s.nest) (h : run s ['\x7d', '\n'] = some s') :
    s'.nest ≠ [] := by
  obtain ⟨s₁, hbrace, h⟩ := Option.bind_eq_some_iff.mp h
  obtain ⟨s₂, hblank, h⟩ := Option.bind_eq_some_iff.mp h
  obtain rfl := Option.some.inj h
  have hlength : 2 ≤ s.nest.length := of_decide_eq_true hs
  have hone := (step_nest hbrace).1
  rw [(step_nest hblank).2 rfl]
  exact List.ne_nil_of_length_pos (by omega)

/-- An answer with an array that breaks off is not read. -/
theorem fits_of_isObject (hf : printer.FixedNotation) (hc : printer.Calendar)
    (hs : ∀ t ∈ reply.texts, '"' ∉ t ∨ Body t)
    (h : IsObject (render (reply.pieces printer g)) l) : reply.fits := by
  cases reply with
  | info b =>
    refine Nat.le_of_not_lt fun hlong => ?_
    have hsealed := sealed_template (g := g) hf hc hs
    rw [ApiReply.template, apiInfoWith_eq, List.append_assoc, List.forall_mem_append,
      List.forall_mem_append] at hsealed
    obtain ⟨u, hu, hkeeps⟩ := unclosed_recJson hsealed.2.1 hlong
    rw [isObject_iff, ApiReply.pieces, apiInfo, apiInfoWith_eq, render_append, render_append,
      render_lits, hu, run_append] at h
    obtain ⟨s, hhead, hrest⟩ := Option.bind_eq_some_iff.mp h
    obtain rfl := eq_of_run scan_apiInfoHead hhead hsealed.1
    rw [run_append] at hrest
    obtain ⟨s', harray, hend⟩ := Option.bind_eq_some_iff.mp hrest
    exact run_deep (nest_of_keeps (hkeeps _) harray) hend rfl
  | _ => trivial

def Odd (line : String) : Prop := ∃ c t, line.toList = c :: t ∧ step .start c = none

theorem odd_okLine (ok : Bool) : Odd (okLine ok) := by
  cases ok
  · exact ⟨'-', "ERR\n".toList, rfl, rfl⟩
  · exact ⟨'+', "OK\n".toList, rfl, rfl⟩

theorem odd_actLine (ok : Bool) (command : String) (args : List String) :
    Odd (actLine ok command args) := by
  unfold actLine
  have hunknown : Odd "-ERR unknown subcommand\n" :=
    ⟨'-', "ERR unknown subcommand\n".toList, rfl, rfl⟩
  split_ifs
  all_goals first
    | exact odd_okLine ok
    | exact odd_okLine true
    | exact hunknown

theorem not_isObject_of_odd {line : String} (h : Odd line) :
    ¬ IsObject (render ((ApiReply.plain line).pieces printer g)) l := by
  obtain ⟨c, t, ht, hc⟩ := h
  rw [isObject_iff, ApiReply.pieces, render_lits, ht, run, hc]
  rintro ⟨⟩

variable {core : Locks.Core} {ok json : Bool} {cmd : String} {argv : List String} {out : Text}

theorem commandReply_of_asks {command : String} {args : List String}
    (h : asksBroadcast command args) (line : String) :
    commandReply b ok command args ≠ .plain line := by
  unfold commandReply
  split_ifs with h₁ h₂ h₃ h₄ h₅ h₆
  case neg =>
    rcases h with h | h | h | h | h
    · exact absurd h h₁
    · exact absurd h h₂
    · exact absurd h h₃
    · exact absurd h h₅
    · exact absurd h h₆
  all_goals exact ApiReply.noConfusion

theorem commandReply_of_not {command : String} {args : List String}
    (h : ¬ asksBroadcast command args) :
    commandReply b ok command args = .plain (actLine ok command args) := by
  simp only [asksBroadcast, not_or] at h
  obtain ⟨h₁, h₂, h₃, h₄, h₅⟩ := h
  rw [commandReply, if_neg h₁, if_neg h₂, if_neg h₃, if_neg fun h => h₄ h.1, if_neg h₄, if_neg h₅]

theorem broadcastReply_of_asks {name command : String} {args : List String}
    (h : g.findAndRef name = none ∨ asksBroadcast command args) (line : String) :
    broadcastReply g ok name (command :: args) ≠ .plain line := by
  cases hb : g.findAndRef name with
  | none =>
    simp only [broadcastReply, hb]
    exact ApiReply.noConfusion
  | some b =>
    have hasks : asksBroadcast command args := h.resolve_left (by rw [hb]; rintro ⟨⟩)
    simp only [broadcastReply, hb]
    exact commandReply_of_asks hasks line

theorem apiReply_of_asks (h : asks g cmd argv) (line : String) :
    apiReply g ok cmd argv ≠ .plain line := by
  cases argv with
  | nil =>
    rw [apiReply, if_neg h]
    exact ApiReply.noConfusion
  | cons name argv =>
    simp only [apiReply]
    split_ifs with h₁ h₂ h₃ h₄ h₅
    case neg =>
      rcases h with h | h | h | h | h | ⟨command, args, rfl, h⟩
      · exact absurd h h₁
      · exact absurd h h₂
      · exact absurd h h₃
      · exact absurd h h₄
      · exact absurd h h₅
      · exact broadcastReply_of_asks h line
    all_goals exact ApiReply.noConfusion

theorem apiReply_of_not (h : ¬ asks g cmd argv) :
    ∃ line, Odd line ∧ apiReply g ok cmd argv = .plain line := by
  cases argv with
  | nil => exact ⟨"-ERR\n", odd_okLine false, if_pos (not_not.mp h)⟩
  | cons name argv =>
    simp only [asks, not_or] at h
    obtain ⟨h₁, h₂, h₃, h₄, h₅, h⟩ := h
    simp only [apiReply, if_neg h₁, if_neg h₂, if_neg h₃, if_neg h₄, if_neg h₅]
    cases argv with
    | nil => exact ⟨"-ERR\n", odd_okLine false, rfl⟩
    | cons command args =>
      cases hb : g.findAndRef name with
      | none => exact absurd ⟨command, args, rfl, .inl hb⟩ h
      | some b =>
        have hnot : ¬ asksBroadcast command args := fun ha => h ⟨command, args, rfl, .inr ha⟩
        simp only [broadcastReply, hb]
        exact ⟨_, odd_actLine ok command args, commandReply_of_not hnot⟩

theorem output_eq (h : apiOutput core printer g ok cmd json = some out) :
    out = render ((apiAnswer core g ok cmd json).pieces printer g) := by
  unfold apiOutput at h
  split_ifs at h
  exact (Option.some.inj h).symm

theorem asks_of_isObject (h : apiOutput core printer g ok cmd json = some out)
    (hl : IsObject out l) : asks g cmd (Locks.apiWords core cmd json).2 := by
  by_contra hnot
  have hplain : ∃ line, Odd line ∧ apiAnswer core g ok cmd json = .plain line :=
    apiReply_of_not hnot
  obtain ⟨line, hodd, hreply⟩ := hplain
  rw [output_eq h, hreply] at hl
  exact not_isObject_of_odd hodd hl

theorem answerable_of_isObject (hf : printer.FixedNotation) (hc : printer.Calendar)
    (h : apiOutput core printer g ok cmd json = some out)
    (hl : IsObject out ((apiAnswer core g ok cmd json).strings printer g)) :
    Answerable core g ok cmd json := by
  have htexts : ∀ t ∈ (apiAnswer core g ok cmd json).texts, Body t := fun t ht =>
    body_of_isObject hl t (texts_subset_strings ht)
  refine ⟨asks_of_isObject h hl, htexts, ?_⟩
  rw [output_eq h] at hl
  exact fits_of_isObject hf hc (fun t ht => .inr (htexts t ht)) hl

theorem isObject_of_answerable (hf : printer.FixedNotation) (hc : printer.Calendar)
    (h : apiOutput core printer g ok cmd json = some out)
    (ha : Answerable core g ok cmd json) :
    IsObject out ((apiAnswer core g ok cmd json).strings printer g) := by
  rw [isObject_iff, output_eq h, ← render_template ha.fits]
  exact run_render (scan_template (apiReply_of_asks ha.asks)) (fits_template hf hc ha.texts)

/-- Without a quotation mark in a text there is only one object that an answer can be. -/
theorem strings_of_isObject (hf : printer.FixedNotation) (hc : printer.Calendar)
    (h : apiOutput core printer g ok cmd json = some out)
    (hq : ∀ t ∈ (apiAnswer core g ok cmd json).texts, '"' ∉ t) (hl : IsObject out l) :
    l = (apiAnswer core g ok cmd json).strings printer g := by
  have hsealed : ∀ t ∈ (apiAnswer core g ok cmd json).texts, '"' ∉ t ∨ Body t := fun t ht =>
    .inl (hq t ht)
  have hplain : ∀ line, apiAnswer core g ok cmd json ≠ .plain line :=
    apiReply_of_asks (asks_of_isObject h hl)
  rw [output_eq h] at hl
  have hfits := fits_of_isObject hf hc hsealed hl
  rw [isObject_iff, ← render_template hfits] at hl
  have hrun := eq_of_run (scan_template hplain) hl (sealed_template hf hc hsealed)
  exact congrArg Reader.strings hrun

/-- The output is the object that the answer should be if it is asked for, the texts in it can
stand in strings and the recordings have room; without a quotation mark in a text it is no other
object either. -/
theorem api_output_isObject_iff (hf : printer.FixedNotation) (hc : printer.Calendar)
    (h : apiOutput core printer g ok cmd json = some out) :
    (IsObject out ((apiAnswer core g ok cmd json).strings printer g) ↔
      Answerable core g ok cmd json) ∧
    ∀ l, IsObject out l → Answerable core g ok cmd json ∨
      ∃ t ∈ (apiAnswer core g ok cmd json).texts, '"' ∈ t := by
  refine ⟨⟨answerable_of_isObject hf hc h, isObject_of_answerable hf hc h⟩, fun l hl => ?_⟩
  refine or_iff_not_imp_right.mpr fun hq => answerable_of_isObject hf hc h ?_
  rw [← strings_of_isObject hf hc h (fun t ht hm => hq ⟨t, ht, hm⟩) hl]
  exact hl

def plainPrinter : Printer where
  fixed places num den :=
    let n := (2 * num * 10 ^ places + den) / (2 * den)
    Nat.toDigits 10 (n / 10 ^ places) ++
      '.' :: (List.range places).map fun i => (n / 10 ^ (places - 1 - i) % 10).digitChar
  strftime us := if us = 0 then some "1970-01-01 00:00:00 UTC".toList else none

theorem plainPrinter_fixedNotation : plainPrinter.FixedNotation := by
  intro places num den hp hd
  refine ⟨_, _, intPart_toDigits _, ?_, ?_, rfl⟩
  · simp
  · have hdigit : ∀ d < 10, d.digitChar.isDigit := by decide
    intro c hc
    obtain ⟨i, -, rfl⟩ := List.mem_map.mp hc
    exact hdigit _ (Nat.mod_lt _ (by decide))

theorem plainPrinter_calendar : plainPrinter.Calendar := by
  intro us t ht
  have ht : (if us = 0 then some "1970-01-01 00:00:00 UTC".toList else none) = some t := ht
  split_ifs at ht
  obtain rfl := Option.some.inj ht
  have hall : "1970-01-01 00:00:00 UTC".toList.all
      fun c => c.isDigit || "-: UTC".toList.contains c := rfl
  intro c hc
  simpa using List.all_eq_true.mp hall c hc

def lecture : BroadcastReport where
  name := "lecture".toList
  uuid_str := "b1".toList
  profile := some ⟨"default".toList, 48000, 20, 1⟩
  interval_ms := 20
  listeners := []
  listener_count := 0
  current_speaker := some ⟨1, "s1".toList, [], "Ada".toList, 0, 0, 0, 0⟩
  speaks := true
  speaker_active_since := 1
  recordings := [⟨"/tmp/lecture.wav".toList, 960, 1⟩]
  cflags := 0b1001
  destroyed := false
  created_at := 0
  producer_seq := 1
  producer_running := true
  producer_tick_count_for_avg := 1
  producer_tick_sum_us := 7
  producer_max_tick_us := 7
  producer_max_tick_seen_us := 1
  producer_tick_hist := ⟨1, 0, 0, 0, 0, 0, 0, 0⟩
  stat_ticks := 1
  stat_missed_ticks := 0
  stat_speaker_silent_ticks := 0
  stat_listener_resyncs := 0
  stat_listeners_joined := 0
  stat_listeners_left := 0
  stat_events_dropped := 0
  stat_tick_drift_us_max := 0
  stat_peak_listeners := 0

def lectureHall : ModuleReport := ⟨false, [lecture], 1, 1, 1, true, 0, 2000000⟩

theorem api_output_isObject_iff_lecture :
    ∃ out, apiOutput Locks.plainCore plainPrinter lectureHall true "--json lecture info" false =
      some out ∧ IsObject out ((ApiReply.info lecture).strings plainPrinter lectureHall) := by
  have hanswer : apiAnswer Locks.plainCore lectureHall true "--json lecture info" false =
      .info lecture := rfl
  have hout : apiOutput Locks.plainCore plainPrinter lectureHall true "--json lecture info" false =
      some (render ((ApiReply.info lecture).pieces plainPrinter lectureHall)) := rfl
  refine ⟨_, hout, ?_⟩
  rw [← hanswer]
  refine (api_output_isObject_iff plainPrinter_fixedNotation plainPrinter_calendar hout).1.mpr
    ⟨?_, ?_, ?_⟩
  · change asks lectureHall _ ["lecture", "info"]
    exact .inr (.inr (.inr (.inr (.inr ⟨"info", [], rfl, .inr (.inl rfl)⟩))))
  · change ∀ t ∈ (ApiReply.info lecture).texts, Body t
    have hplain : ∀ t ∈ (ApiReply.info lecture).texts, t.all plain := by decide
    exact fun t ht => body_of_plain (List.all_eq_true.mp (hplain t ht))
  · change (lecture.recordings.map RecordingReport.size).sum ≤ 1533
    decide

/-- A lock is answered by a plain line. -/
theorem lock_answer_not_isObject : ¬ ∀ (core : Locks.Core) (printer : Printer) (g : ModuleReport)
    (ok : Bool) (cmd : String) (json : Bool) (out : Text), printer.FixedNotation →
      printer.Calendar → apiOutput core printer g ok cmd json = some out →
        ∃ l, IsObject out l := by
  intro hall
  obtain ⟨l, hl⟩ := hall Locks.plainCore plainPrinter lectureHall true "--json lecture lock" false
    "+OK\n".toList plainPrinter_fixedNotation plainPrinter_calendar rfl
  cases isObject_iff.mp hl

end ModBroadcast
