import ModBroadcast.Config
import ModBroadcast.LockPrograms

namespace ModBroadcast.Locks

open LockPrograms LockPrograms.Prog

/-- A lock of a broadcast carries the broadcast's number, `audio_in_mutex` the member's. -/
inductive Lock
  | hash | config | control (b : ℕ) | speaker (b : ℕ) | listener (b : ℕ) | recording (b : ℕ)
  | audioIn (m : ℕ) | event (b : ℕ) | play (b : ℕ) | moh (b : ℕ) | id (b : ℕ)
  deriving DecidableEq

def Lock.nested : Lock → Bool
  | .hash | .config | .speaker _ | .listener _ | .recording _ => false
  | _ => true

/-- What a thread can find: an object of the hash, a member, a queued event, a binding. -/
structure Reading where
  broadcast : ℕ
  member : ℕ
  event : EventType
  action : ControlAction

instance : Inhabited Reading := ⟨⟨0, 0, .pause, .none⟩⟩

/-- The functions of the core that read the text of a call. -/
structure Core where
  switch_separate_string : String → Char → List String
  switch_true : String → Bool

abbrev Code := Prog Lock Reading

def rdlock (l : Lock) : Code := lock l .read
def wrlock (l : Lock) : Code := lock l .write
def mutexLock (l : Lock) : Code := lock l .write

/-- The queue can be missing or full; each way out gives the mutex back. -/
def enqueueEvent (b : ℕ) : Code :=
  branch skip (mutexLock (.event b) ++ branch (unlock (.event b)) (unlock (.event b)))

def findMemberById (b : ℕ) : Code :=
  rdlock (.listener b) ++ loop skip ++
  branch (unlock (.listener b))
    (unlock (.listener b) ++ rdlock (.speaker b) ++
      branch (unlock (.speaker b)) (unlock (.speaker b)))

def fireEvtMsg (b : ℕ) (type : EventType) : Code :=
  branch skip <| match type with
    | .listenerJoin | .listenerLeave | .listenerResync | .speakerRequest => findMemberById b
    | _ => skip

def fireCriticalEvent (b : ℕ) (type : EventType) : Code := fireEvtMsg b type

def emitQueue (b : ℕ) : Code :=
  mutexLock (.event b) ++
  loop (pick fun copy =>
    unlock (.event b) ++ fireEvtMsg b copy.event ++ mutexLock (.event b)) ++
  unlock (.event b)

def eventEmitterRun : Code :=
  loop (rdlock .hash ++ loop (branch skip (pick fun r => emitQueue r.broadcast)) ++ unlock .hash)

/-- Nothing is locked while the module is loaded, and a reload calls it inside its section. -/
def configLoad : Code := skip

def configUnload : Code := wrlock .config ++ unlock .config

def configReload : Code :=
  wrlock .config ++ branch (unlock .config) (configLoad ++ branch (unlock .config) (unlock .config))

def recordWriterRun (b : ℕ) : Code :=
  branch skip (loop (loop skip) ++ branch skip (enqueueEvent b))

def recordStart (b : ℕ) (k : Bool → Code) : Code :=
  branch (k false) <| branch (k false) <|
    wrlock (.recording b) ++ unlock (.recording b) ++
    branch (wrlock (.recording b) ++ unlock (.recording b) ++ k false) (enqueueEvent b ++ k true)

def recordStop (b : ℕ) : Code :=
  wrlock (.recording b) ++ loop skip ++ unlock (.recording b) ++ loop (enqueueEvent b)

def recordStopAll (b : ℕ) : Code := recordStop b

def memberNextId (b : ℕ) : Code := mutexLock (.id b) ++ unlock (.id b)

def listenerAdd (b : ℕ) (k : Bool → Code) : Code :=
  branch (k false) <| branch (k false) <|
    wrlock (.listener b) ++
    branch (unlock (.listener b) ++ k false)
      (branch skip (memberNextId b) ++ unlock (.listener b) ++
        branch skip (enqueueEvent b) ++ k true)

def listenerUnlinkForPromotion (b : ℕ) (k : Bool → Code) : Code :=
  wrlock (.listener b) ++ loop skip ++
  branch (unlock (.listener b) ++ k true) (unlock (.listener b) ++ k false)

def listenerDel (b : ℕ) : Code :=
  wrlock (.listener b) ++ loop skip ++ branch skip (branch skip (enqueueEvent b)) ++
  unlock (.listener b)

def speakerInputRun (b m : ℕ) : Code :=
  branch skip <| loop <| branch skip <|
    branch skip (enqueueEvent b) ++ mutexLock (.audioIn m) ++ unlock (.audioIn m)

def setSpeaker (b : ℕ) (member : Bool) (k : Bool → Code) : Code :=
  (if member then branch (k false) else id) <|
    wrlock (.speaker b) ++
    branch (unlock (.speaker b) ++ k true)
      (unlock (.speaker b) ++
        fireCriticalEvent b (if member then .speakerSet else .speakerClear) ++ k true)

def clearSpeaker (b : ℕ) : Code := setSpeaker b false fun _ => skip

def clearSpeakerIfCurrent (b : ℕ) : Code := wrlock (.speaker b) ++ unlock (.speaker b)

def requestPromotion (b : ℕ) : Code :=
  branch skip <| listenerUnlinkForPromotion b fun found =>
    if found then loop skip ++ branch skip (listenerAdd b fun _ => skip) else skip

def applySilencePolicy (b : ℕ) : Code := branch skip (mutexLock (.moh b) ++ unlock (.moh b))

def producerRun (b : ℕ) : Code :=
  branch skip <| loop <|
    branch skip (enqueueEvent b) ++ mutexLock (.play b) ++ unlock (.play b) ++
    rdlock (.speaker b) ++
    branch skip (pick fun r => mutexLock (.audioIn r.member) ++ unlock (.audioIn r.member)) ++
    unlock (.speaker b) ++ branch skip (applySilencePolicy b)

def findAndRef (name : String) (k : Option ℕ → Code) : Code :=
  if name = "" then k none else
    rdlock .hash ++ branch (unlock .hash ++ k none)
      (pick fun r => branch (unlock .hash ++ k none) (unlock .hash ++ k (some r.broadcast)))

/-- The profile's clone is made before the section of the hash, which ends early when the name is
taken, the limit is reached, or the producer does not start. -/
def create (name : String) (k : Option ℕ → Code) : Code :=
  if name = "" then k none else
    branch (k none) <|
      rdlock .config ++ unlock .config ++
      branch (k none) (pick fun r =>
        wrlock .hash ++
        branch (unlock .hash ++ k none)
          (unlock .hash ++ fireCriticalEvent r.broadcast .broadcastCreate ++
            branch skip (branch (enqueueEvent r.broadcast)
              (recordStart r.broadcast fun ok => if ok then skip else enqueueEvent r.broadcast)) ++
            k (some r.broadcast)))

def kickListener (b : ℕ) : Code := branch skip (enqueueEvent b)

def kickAllListeners (b : ℕ) : Code :=
  wrlock (.listener b) ++ loop skip ++ loop (enqueueEvent b) ++ unlock (.listener b)

def destroyGrace (b : ℕ) (announce_file : String) : Code :=
  enqueueEvent b ++
  (if announce_file = "" then skip else mutexLock (.play b) ++ unlock (.play b)) ++
  mutexLock (.play b) ++ unlock (.play b)

/-- The slot is emptied, the listeners are hung up, and the members are waited for. -/
def destroyMembers (b : ℕ) : Code :=
  wrlock (.speaker b) ++ unlock (.speaker b) ++
  rdlock (.listener b) ++ loop skip ++ unlock (.listener b) ++
  loop (rdlock (.listener b) ++ unlock (.listener b) ++
    rdlock (.speaker b) ++ unlock (.speaker b))

def destroyEx (b grace_ms : ℕ) (announce_file : String) : Code :=
  mutexLock (.control b) ++ unlock (.control b) ++
  (if 0 < grace_ms then destroyGrace b announce_file else skip) ++
  mutexLock (.control b) ++ unlock (.control b) ++
  mutexLock (.play b) ++ unlock (.play b) ++
  mutexLock (.moh b) ++ unlock (.moh b) ++
  recordStopAll b ++ destroyMembers b ++
  wrlock .hash ++ unlock .hash ++
  fireCriticalEvent b .broadcastDestroy

def destroyAll : Code :=
  loop (wrlock .hash ++ pick fun r => unlock .hash ++ destroyEx r.broadcast 0 "") ++
  wrlock .hash ++ unlock .hash

def runtimeHousekeeping : Code :=
  rdlock .hash ++
  loop (branch skip (pick fun r =>
    branch skip (rdlock (.speaker r.broadcast) ++ unlock (.speaker r.broadcast) ++
      enqueueEvent r.broadcast) ++
    wrlock (.listener r.broadcast) ++ loop skip ++ unlock (.listener r.broadcast))) ++
  unlock .hash

/-- The application or the script of a binding is code outside; it is not started without
an argument, nor when the module for its language is missing. -/
def dispatchControl (b : ℕ) : ControlAction → Code
  | .requestSpeaker | .event => enqueueEvent b
  | .executeApp | .lua | .js => branch skip foreign
  | _ => skip

/-- The binding is dispatched inside the section of `config_rwlock`. -/
def matchControls (b : ℕ) : Code :=
  branch skip <|
    rdlock .config ++
    branch (unlock .config)
      (loop skip ++
        branch (unlock .config) (pick fun bind => dispatchControl b bind.action ++ unlock .config))

def handleDtmf (b : ℕ) : Code := branch skip (matchControls b)

def listenerRun (b : ℕ) : Code :=
  branch skip (loop (loop (handleDtmf b) ++ branch skip (enqueueEvent b)))

def speakerMainWait (b : ℕ) : Code :=
  loop (loop (handleDtmf b) ++ rdlock (.speaker b) ++ unlock (.speaker b)) ++
  rdlock (.speaker b) ++
  branch (unlock (.speaker b) ++ clearSpeaker b) (unlock (.speaker b))

structure AppData where
  name : String
  profile : String
  params : String

def parseAppData (data : String) : AppData :=
  let copy (n : ℕ) (l : List Char) := String.ofList (l.take (n - 1))
  let name := data.toList.takeWhile fun c => c ≠ '@' ∧ c ≠ '+'
  match data.toList.dropWhile fun c => c ≠ '@' ∧ c ≠ '+' with
  | '@' :: rest =>
    ⟨copy 256 name, copy 128 (rest.takeWhile (· ≠ '+')),
      copy 1024 ((rest.dropWhile (· ≠ '+')).drop 1)⟩
  | '+' :: rest => ⟨copy 256 name, "", copy 1024 rest⟩
  | _ => ⟨copy 256 name, "", ""⟩

section

variable (core : Core)

/-- `b_param_get`: the value of the first `key=value`, as far as `olen` bytes hold it. -/
def paramGet (params key : String) (olen : ℕ) : Option String :=
  if params = "" then none else
    ((core.switch_separate_string params ',').map String.toList).findSome? fun l =>
      if '=' ∈ l ∧ caseEq (String.ofList (l.takeWhile (· ≠ '='))) key then
        some (String.ofList (((l.dropWhile (· ≠ '=')).drop 1).take (olen - 1)))
      else none

def paramRole (params : String) : MemberRole :=
  match paramGet core params "role" 32 with
  | some role => if caseEq role "speaker" then .speaker else .listener
  | none => .listener

def paramExclusive (params : String) : Bool :=
  match paramGet core params "exclusive" 8 with
  | some exclusive => core.switch_true exclusive
  | none => false

def visit (b : ℕ) : MemberRole → Code
  | .speaker =>
    rdlock (.speaker b) ++
    branch (unlock (.speaker b))
      (unlock (.speaker b) ++ memberNextId b ++
        setSpeaker b true fun ok =>
          if ok then speakerMainWait b ++ clearSpeakerIfCurrent b else skip)
  | _ =>
    listenerAdd b fun ok =>
      if ok then
        listenerRun b ++
        branch (setSpeaker b true fun ok => if ok then speakerMainWait b else skip)
          (listenerDel b) ++
        clearSpeakerIfCurrent b
      else skip

def appFunction (data : String) : Code :=
  if data = "" then skip else
    let app := parseAppData data
    if app.name = "" then skip else
      let join (b : ℕ) : Code := branch skip (visit b (paramRole core app.params))
      findAndRef app.name fun
        | some b => if paramExclusive core app.params then skip else join b
        | none => create app.name fun
          | some b => join b
          | none => skip

end

def parseMemberId (s : String) : ℕ :=
  if (s.toList.take 2).map Char.toLower = ['m', '_'] then atoi (String.ofList (s.toList.drop 2))
  else atoi s

def findMemberByIdStr (b : ℕ) (sid : String) (k : Bool → Code) : Code :=
  if parseMemberId sid = 0 then k false else
    rdlock (.listener b) ++ loop skip ++
    branch (unlock (.listener b) ++ k true)
      (unlock (.listener b) ++ rdlock (.speaker b) ++
        branch (unlock (.speaker b) ++ k true) (unlock (.speaker b) ++ k false))

def findMemberPinned (b : ℕ) (sid : String) (k : Bool → Code) : Code :=
  if parseMemberId sid = 0 then k false else
    rdlock (.listener b) ++ loop skip ++ unlock (.listener b) ++
    branch skip (rdlock (.speaker b) ++ unlock (.speaker b)) ++
    branch (k false) (branch (k false) (findMemberByIdStr b sid k))

def apiList (json : Bool) : Code :=
  rdlock .hash ++
  loop (branch skip (if json then
    pick fun r => rdlock (.speaker r.broadcast) ++ unlock (.speaker r.broadcast) else skip)) ++
  unlock .hash

def apiModuleStats : Code :=
  rdlock .hash ++
  loop (branch skip (pick fun r =>
    rdlock (.listener r.broadcast) ++ unlock (.listener r.broadcast))) ++
  unlock .hash

def apiListenerDetail (b : ℕ) (sid : String) : Code :=
  if parseMemberId sid = 0 then skip else
    rdlock (.listener b) ++ loop skip ++ unlock (.listener b) ++
    branch skip (rdlock (.speaker b) ++ unlock (.speaker b))

def apiInfo (b : ℕ) : Code :=
  rdlock (.speaker b) ++ unlock (.speaker b) ++
  rdlock (.recording b) ++ loop skip ++ unlock (.recording b) ++
  rdlock (.speaker b) ++ unlock (.speaker b)

def apiListeners (b : ℕ) : Code := rdlock (.listener b) ++ loop skip ++ unlock (.listener b)

def apiFlag (b : ℕ) : Code := mutexLock (.control b) ++ unlock (.control b) ++ enqueueEvent b

def apiPlay (b : ℕ) : Code :=
  mutexLock (.play b) ++ branch (unlock (.play b)) (unlock (.play b))

def apiStopPlay (b : ℕ) : Code := mutexLock (.play b) ++ unlock (.play b)

def apiCommand (b : ℕ) (command : String) (args : List String) : Code :=
  if caseEq command "info" then apiInfo b
  else if caseEq command "listeners" then apiListeners b
  else if caseEq command "stats" ∨ caseEq command "producer" then skip
  else if caseEq command "listener" ∧ 1 ≤ args.length then apiListenerDetail b (args.getD 0 "")
  else if (caseEq command "set_speaker" ∨ caseEq command "promote_listener") ∧ 1 ≤ args.length then
    findMemberPinned b (args.getD 0 "") fun found => if found then requestPromotion b else skip
  else if caseEq command "clear_speaker" then clearSpeaker b
  else if caseEq command "kick" ∧ 1 ≤ args.length then
    findMemberPinned b (args.getD 0 "") fun found =>
      if found then branch skip (kickListener b) else skip
  else if caseEq command "kick_all" then kickAllListeners b
  else if caseEq command "lock" ∨ caseEq command "unlock" ∨ caseEq command "pause" ∨
      caseEq command "resume" then apiFlag b
  else if caseEq command "record" ∧ 1 ≤ args.length then recordStart b fun _ => skip
  else if caseEq command "norecord" then recordStop b
  else if caseEq command "destroy" then destroyEx b (atoi (args.getD 0 "")) (args.getD 1 "")
  else if caseEq command "dtmf" ∧ 2 ≤ args.length then
    findMemberPinned b (args.getD 0 "") fun _ => skip
  else if caseEq command "play" ∧ 1 ≤ args.length then apiPlay b
  else if caseEq command "stop_play" then apiStopPlay b
  else skip

def cutPrefix (word : String) (p : List Char) : Option (List Char) :=
  if (p.take word.length).map Char.toLower = word.toList then some (p.drop word.length) else none

section

variable (core : Core)

def apiWords (cmd : String) (json : Bool) : Bool × List String :=
  if cmd = "" then (json, []) else
    let p := cmd.toList.dropWhile (· = ' ')
    let p := (cutPrefix "broadcast " p).getD p
    let words (p : List Char) := core.switch_separate_string (String.ofList (p.take 4095)) ' '
    match cutPrefix "--json " p with
    | some p => (true, words p)
    | none => (json, words p)

def apiDispatch (cmd : String) (json : Bool) : Code :=
  match apiWords core cmd json with
  | (_, []) => skip
  | (json, name :: argv) =>
    if name = "" ∨ caseEq name "version" then skip
    else if caseEq name "reload" then configReload
    else if caseEq name "list" then apiList json
    else if caseEq name "stats" then apiModuleStats
    else match argv with
      | [] => skip
      | command :: args => findAndRef name fun
        | some b => apiCommand b command args
        | none => skip

end

def moduleLoad : Code := configLoad

def moduleShutdown : Code := loop skip ++ destroyAll ++ configUnload

def moduleRuntime : Code := loop runtimeHousekeeping

inductive EntryPoint
  | load | shutdown | runtime | eventEmitter | producer (b : ℕ) | recordWriter (b : ℕ)
  | speakerInput (b m : ℕ) | app (data : String) | api (cmd : String)

/-- An application or a script can run the broadcast application and every API command. -/
def EntryPoint.callable : EntryPoint → Bool
  | .app _ | .api _ => true
  | _ => false

def procedures (core : Core) : Procedures Lock Reading EntryPoint where
  body
    | .load => moduleLoad
    | .shutdown => moduleShutdown
    | .runtime => moduleRuntime
    | .eventEmitter => eventEmitterRun
    | .producer b => producerRun b
    | .recordWriter b => recordWriterRun b
    | .speakerInput b m => speakerInputRun b m
    | .app data => appFunction core data
    | .api cmd => apiDispatch core cmd false
  callable := EntryPoint.callable
  nested := Lock.nested

end ModBroadcast.Locks
