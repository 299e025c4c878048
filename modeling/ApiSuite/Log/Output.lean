import ApiSuite.Log
import ApiSuite.Schema.Basic
import ApiSuite.Values.Environment

/-!
# Log output

Entries are written out by named loggers. Those of a rank below the threshold are dropped; the
others are written as one JSON object each, or as lines for a console. Threshold and form come
from the environment unless the caller says otherwise.
-/

namespace ApiSuite.Log

/-- An entry with the name of the logger that made it. -/
structure Record where
  logger : String
  entry : Entry

/-- How entries are written out. -/
structure Output where
  /-- The rank from which on entries are written. -/
  threshold : Int
  /-- Whether entries are written as JSON. -/
  json : Bool
deriving DecidableEq, Repr

/-- The variable that names the threshold. -/
def levelVariable : String := "PLYLOAD_LOG_LEVEL"

/-- The variable that names the form. -/
def formatVariable : String := "PLYLOAD_LOG_FORMAT"

/-- The ranks that a threshold can be named by, in upper case. -/
def namedRanks : List (String × Int) :=
  [("CRITICAL", 50), ("FATAL", 50), ("ERROR", 40), ("WARN", 30), ("WARNING", 30), ("INFO", 20),
    ("DEBUG", 10), ("NOTSET", 0)]

/-- A letter in upper case, if it is one of the letters of ASCII, the dotless i or the long s,
which have ASCII letters as their capitals. -/
def capital (c : Char) : Char :=
  if c == 'ı' then 'I' else if c == 'ſ' then 'S' else c.toUpper

/-- A text with its letters in upper case. -/
def upperCase (s : String) : String := String.ofList (s.toList.map capital)

/-- A text with its ASCII letters in lower case. -/
def lowerCase (s : String) : String := String.ofList (s.toList.map Char.toLower)

/-- The name of the pattern that records are written by. It is looked up among the ranks, too, but
is none. -/
def patternName : String := "BASIC_FORMAT"

/-- The pattern that records are written by. -/
def pattern : String := "%(levelname)s:%(name)s:%(message)s"

/-- The rank that a name stands for, that of information if it is no name of a rank. -/
def rankOf (name : Option String) : Except Fault Int :=
  match name.map upperCase with
  | none => .ok 20
  | some n =>
    if n == patternName then .error (.crash (.noRank pattern))
    else .ok ((namedRanks.lookup n).getD 20)

/-- The threshold that an environment asks for. -/
def thresholdOf (env : Environment) : Except Fault Int := rankOf (env.lookup levelVariable)

/-- The output with a threshold, as JSON if that or the environment asks for it. -/
def Output.ofEnvironment (env : Environment) (json : Bool) (threshold : Int) : Output where
  threshold
  json := json || (env.lookup formatVariable).any fun f => lowerCase f == "json"

/-- Whether a record is written out. -/
def Output.shows (o : Output) (r : Record) : Bool := decide (o.threshold ≤ r.entry.level.rank)

/-- The records that are written out. -/
def Output.shown (o : Output) (records : List Record) : List Record := records.filter o.shows

/-- A record as an object. -/
def Record.fields (r : Record) : List (String × Value) :=
  [("event", .str r.entry.event), ("level", .str r.entry.level.name),
    ("logger", .str r.logger)].foldl (fun fs f => Schema.insertField f.1 f.2 fs) r.entry.fields

/-- A field of a record on a console. Texts stand as they are. -/
def fieldText (f : String × Value) : String := f.1 ++ "=" ++ f.2.displayText

/-- A record as it is shown on a console. -/
def Record.consoleText (r : Record) : String :=
  "[" ++ r.entry.level.name ++ "] " ++ r.entry.event ++ " [" ++ r.logger ++ "]" ++
    String.join (r.entry.fields.map fun f => " " ++ fieldText f)

/-- The number of lines that a record takes on a console. -/
def Record.consoleLines (r : Record) : Nat := r.consoleText.toList.count '\n' + 1

/-- The number of lines that some records take on a console. -/
def consoleLines (records : List Record) : Nat := records.foldl (fun n r => n + r.consoleLines) 0

end ApiSuite.Log
