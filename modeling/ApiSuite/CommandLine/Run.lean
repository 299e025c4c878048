import ApiSuite.CommandLine.Command
import ApiSuite.Report
import ApiSuite.Settings
import ApiSuite.Template.Usage

/-!
# Runs of the program

A run takes a command line to what it prints, logs and ends with, given the surroundings. A
fault while a command works is reported and ends the run with a failure; a crash is logged
before that. What crashes outside of a command's work, such as while settings are read, is
handed on.
-/

namespace ApiSuite.CommandLine

/-- How a run of the program ended. -/
structure Outcome where
  exitCode : Nat
  stdout : String
  stderr : String
  /-- The entries made before it was known what to log. -/
  notices : List Log.Entry
  /-- The records that are written out. -/
  records : List Log.Record
  /-- How the records are written out. -/
  output : Log.Output
  /-- The crash that ended the run, if one did. -/
  crash : Option Crash

/-- The exit code of a success. -/
def success : Nat := 0

/-- The exit code of a failure. -/
def failure : Nat := 1

/-- The exit code for a command line that cannot be used. -/
def misuse : Nat := 2

/-- The exit code of a run that was interrupted. -/
def interrupted : Nat := 130

/-- What a command answers: an exit code and texts. -/
structure Reply where
  exitCode : Nat
  stdout : String
  stderr : String
deriving DecidableEq, Repr

/-- A reply with an answer. -/
def Reply.answer (text : String) : Reply := ⟨success, text, ""⟩

/-- A reply with an error. -/
def Reply.failed (text : String) : Reply := ⟨failure, "", text ++ "\n"⟩

/-- The reply of an interrupted command. -/
def Reply.stopped : Reply := ⟨interrupted, "", "\n\nInterrupted by user.\n"⟩

/-! ### Faults -/

/-- The record of a crash while a command works. -/
def crashRecord : Log.Record :=
  ⟨"plyload.cli.common", .mk .error "unexpected_command_error" []⟩

/-- The reply to a fault while a command works, and the records made of it. -/
def Reply.ofFault : Fault → Reply × List Log.Record
  | .crash c => (.failed ("Error: " ++ c.message), [crashRecord])
  | e => (.failed e.report, [])

/-! ### Commands -/

/-- A text on a line of its own. -/
def line (s : String) : String := s ++ "\n"

/-- The reply with a value as JSON. -/
def Reply.ofValue (v : Value) : Except Fault Reply := v.report.map fun s => .answer (line s)

/-- The reply of the command `flow`. -/
def flowReply (p : Project) (file : String) (base : Option String) : Traced Reply := do
  let base ←
    match base with
    | some b => pure b
    | none => p.loadBase
  match ← Traced.ofExcept (p.loadFlow base file) with
  | none => pure (.failed (errorText ("Flow file not found or empty: " ++ file) [] none))
  | some f => Traced.ofExcept (Reply.ofValue (f.toValue true))

/-- The listing that the command `tests` prints. -/
def listing (p : Project) (directory : Option String) : Traced Listing := do
  let base ←
    match directory with
    | some d => pure d
    | none => p.loadBase
  p.loadListing base

/-- The reply with a listing. -/
def Reply.ofListing (form : ListingForm) (l : Listing) : Except Fault Reply :=
  match form with
  | .json => Reply.ofValue (l.toValue true)
  | .text => .ok (.answer (line l.plainText))

/-- The value that the command `value` prints. -/
def foundValue (p : Project) (policy : RequiredPolicy) (expression : String)
    (files : List String) : Traced (Option LocatedValue) := do
  let paths ←
    if files.isEmpty then do
      let o ← p.loadOptions none
      pure o.enabledValuesFiles
    else pure files
  let holders ← p.loadValues paths
  let r ← Traced.ofExcept (Resolver.ofHolders holders p.options.values policy)
  (r.getValue expression []).1

/-- The reply with the value of an expression. -/
def Reply.ofFound (expression : String) (located : Bool) :
    Option LocatedValue → Except Fault Reply
  | none => .ok (.failed (errorText ("No value for " ++ expression) [] none))
  | some v =>
    if located then
      Reply.ofValue (.ofFields
        [("value", v.value), ("location", Value.ofText? (v.location.map (·.path)))])
    else Reply.ofValue v.value

/-- What can use expressions in a file, none if it is missing or empty. -/
def usersIn (p : Project) (base file : String) :
    Except Fault (Option (List Template.User)) :=
  if Document.endsWith ".ply.flow" file then
    (p.loadFlow base file).map (·.map fun f => [.flow f])
  else (p.loadSuite base file).map (·.map fun s => s.requests.map .request)

/-- The reply of the command `expressions`. -/
def expressionsReply (p : Project) (file : String) (withReferences : Bool) : Traced Reply := do
  let base ← p.loadBase
  match ← Traced.ofExcept (usersIn p base file) with
  | none => pure (.failed (errorText ("File not found or empty: " ++ file) [] none))
  | some users => do
    let found ← Traced.ofExcept (users.mapM (Template.User.expressions withReferences))
    pure (.answer (String.join ((distinctNames found.flatten).map line)))

/-- The project that commands work on. -/
def projectOf (s : Surroundings) (settings : Settings) : Project where
  tree := s.tree
  here := Path.names s.directory
  options := settings.loadOptions s.env

/-- What a command does: its work, and the reply made of what comes of that. -/
def Command.work (s : Surroundings) (settings : Settings) :
    Command → Traced (Except Fault Reply)
  | .flow file base => .ok <$> flowReply (projectOf s settings) file base
  | .tests directory form => Reply.ofListing form <$> listing (projectOf s settings) directory
  | .value expression files trusted useEnvironment located =>
    Reply.ofFound expression located <$>
      foundValue (projectOf s (settings.adjusted trusted useEnvironment)) settings.policy
        expression files
  | .expressions file withReferences =>
    .ok <$> expressionsReply (projectOf s settings) file withReferences

/-! ### Runs -/

/-- The outcome of a run that printed something and logged nothing. -/
def Outcome.silent (r : Reply) (notices : List Log.Entry) : Outcome :=
  ⟨r.exitCode, r.stdout, r.stderr, notices, [], ⟨0, false⟩, none⟩

/-- The outcome for a command line that cannot be used. -/
def Outcome.ofUsage (e : UsageError) (notices : List Log.Entry) : Outcome :=
  .silent ⟨misuse, "", e.report⟩ notices

/-- The outcome of a run that crashed. -/
def Outcome.crashed (c : Crash) (notices : List Log.Entry) : Outcome :=
  { Outcome.silent ⟨failure, "", ""⟩ notices with crash := some c }

/-- What is known about settings that cannot be used. -/
def settingsDetails (e : ConfigError) : Except Fault (List String) :=
  if e.value.isNull then .ok (detail "Field" e.field)
  else do
    let text ← e.value.display.mapError fun e => .crash (.noText e)
    pure (detail "Field" e.field ++ ["Value: " ++ text])

/-- The outcome of a run whose settings cannot be used. -/
def Outcome.ofSettingsFault (f : Fault) (notices : List Log.Entry) : Outcome :=
  match f with
  | .crash c => .crashed c notices
  | .config e =>
    match settingsDetails e with
    | .ok details => .silent (.failed (errorText e.message details none)) notices
    | .error (.crash c) => .crashed c notices
    | .error f => .silent (.failed f.report) notices
  | f => .silent (.failed f.report) notices

/-- The record made when a command starts. -/
def startRecord : Log.Record := ⟨"asyncio", .mk .debug "Using selector: EpollSelector" []⟩

/-- How the records of a run are written out. -/
def outputOf (s : Surroundings) (g : General) (settings : Settings) : Log.Output :=
  Log.Output.ofEnvironment s.env settings.log.json
    ((g.threshold?.getD settings.log.level).rank : Int)

/-- The outcome of a command. -/
def Command.run (s : Surroundings) (g : General) (settings : Settings) (notices : List Log.Entry)
    (c : Command) : Outcome :=
  let output := outputOf s g settings
  let t := c.work s settings
  let made := startRecord :: t.log.map (Log.Record.mk programName)
  match t.result with
  | .error f =>
    let (r, more) := Reply.ofFault f
    { Outcome.silent r notices with output, records := output.shown (made ++ more) }
  | .ok (.ok r) => { Outcome.silent r notices with output, records := output.shown made }
  | .ok (.error (.crash c)) =>
    { Outcome.crashed c notices with output, records := output.shown made }
  | .ok (.error f) =>
    { Outcome.silent (.failed f.report) notices with output, records := output.shown made }

/-- The outcome of a run once it is known what is asked for. -/
def Invocation.run (s : Surroundings) : Invocation → Outcome
  | .version => .silent (.answer versionText) []
  | .help => .silent (.answer helpText) []
  | .idle g =>
    let t := Settings.load s g.config
    match t.result with
    | .error f => .ofSettingsFault f t.log
    | .ok _ => .silent (.answer helpText) t.log
  | .command g name arguments =>
    let t := Settings.load s g.config
    match t.result with
    | .error f => .ofSettingsFault f t.log
    | .ok settings =>
      let isDirectory (path : String) : Bool :=
        path != "" && (s.tree.find? path).any Entry.isDirectory
      match name.command isDirectory arguments with
      | .error e => .ofUsage e t.log
      | .ok none => .silent (.answer name.helpText) t.log
      | .ok (some c) => c.run s g settings t.log

/-- The outcome of a run with some arguments. -/
def run (s : Surroundings) (arguments : List String) : Outcome :=
  match Invocation.ofArguments arguments with
  | .error e => .ofUsage e []
  | .ok i => i.run s

end ApiSuite.CommandLine
