import ApiSuite.Expression.Error
import ApiSuite.Value.Text

/-!
# Faults

What can stop an operation. A **known** fault is about a single document, expression or
setting: loaders contain it where it arises, report it and go on with the next document. A
**crash** is anything else, such as a number too large to be written or a file that is not
text; no loader handles it, and it ends the whole operation.
-/

namespace ApiSuite

/-- The numerals of an expression that can be too long, by the construct they belong to. -/
inductive NumeralPlace where
  | literal
  | index
deriving DecidableEq, Repr

/-- Why a sequence of octets is no text. -/
inductive EncodingFault where
  | start
  | continuation
  | truncated
deriving DecidableEq, Repr

/-- A failure that no loader handles. -/
inductive Crash where
  /-- A numeral of so many digits is to be read. -/
  | hugeNumeral (digits : Nat)
  /-- A numeral of so many digits stands in an expression. -/
  | hugeNumeralIn (place : NumeralPlace) (digits : Nat)
  /-- A text is no integer in the given base. -/
  | badInteger (base : Nat) (text : String)
  /-- A text is no float. -/
  | badFloat (text : String)
  /-- A text is too short to be a number. -/
  | emptyNumeral
  /-- A text marked as a day or time is neither. -/
  | badTimestamp
  /-- A mapping has no entry for a key. -/
  | missingKey (key : Value)
  /-- Numbers are no day or no time. -/
  | calendar (e : CalendarError)
  /-- An escape names no character. -/
  | codePoint
  /-- A value has no text. -/
  | noText (e : Value.TextError)
  /-- Octets from `first` to before `last` are no text; the first of them is `octet`. -/
  | encoding (fault : EncodingFault) (octet : UInt8) (first last : Nat)
  /-- A document holds a character that documents must not hold. -/
  | forbiddenCharacter
  /-- A directory stands where a file is to be read. -/
  | directory (path : String)
  /-- A setting given in the environment is no JSON. -/
  | badSetting (field : String)
  /-- Settings are keyed by something else than texts. -/
  | keyKind
  /-- A threshold for the log is named by a text that is no rank. -/
  | noRank (text : String)
  /-- A relative path is asked for where there is none. -/
  | emptyPath
  | other (message : String)

/-- What made a document unreadable. -/
inductive Cause where
  | yaml
  | json
  | validation
deriving DecidableEq, Repr

/-- What a document was to be read as. -/
inductive DocumentKind where
  | any
  | flow
  | request
  | values
deriving DecidableEq, Repr

/-- A document that cannot be read. -/
structure DocumentError where
  kind : DocumentKind
  message : String
  path : Option String
  line : Option Int
  cause : Option Cause
deriving Repr

/-- Settings or options that cannot be used: the field at fault and the value it was given. -/
structure ConfigError where
  message : String
  field : Option String
  value : Value

/-- What stops an operation. -/
inductive Fault where
  | expression (e : Expression.Error)
  | document (e : DocumentError)
  | config (e : ConfigError)
  | known (message : String)
  | crash (c : Crash)

/-- The wording of an encoding fault. -/
def EncodingFault.message : EncodingFault → String
  | .start => "invalid start byte"
  | .continuation => "invalid continuation byte"
  | .truncated => "unexpected end of data"

/-- The wording of what is no day or time. -/
def CalendarError.message : CalendarError → String
  | .year n => s!"year {n} is out of range"
  | .month => "month must be in 1..12"
  | .day => "day is out of range for month"
  | .hour => "hour must be in 0..23"
  | .minute => "minute must be in 0..59"
  | .second => "second must be in 0..59"
  | .offset minutes =>
    let seconds := minutes * 60
    let days := seconds.fdiv 86400
    let rest := seconds.fmod 86400
    let parts := (if days == 0 then [] else [s!"days={days}"]) ++
      (if rest == 0 then [] else [s!"seconds={rest}"])
    "offset must be a timedelta strictly between -timedelta(hours=24) and timedelta(hours=24), not datetime.timedelta(" ++
      ", ".intercalate parts ++ ")."

/-- The name of a construct whose numeral is too long. -/
def NumeralPlace.name : NumeralPlace → String
  | .literal => "number"
  | .index => "index_accessor"

/-- A text cut to `n` characters. -/
def cut (n : Nat) (s : String) : String := String.ofList (s.toList.take n)

/-- The wording of a crash. -/
def Crash.message : Crash → String
  | .hugeNumeral digits => Text.numeralLimitMessage digits
  | .hugeNumeralIn place digits =>
    "Error trying to process rule \"" ++ place.name ++ "\":\n\n" ++
      Text.numeralLimitMessage digits
  | .badInteger base text =>
    s!"invalid literal for int() with base {base}: " ++ cut 200 (Text.quoted text)
  | .badFloat text => "could not convert string to float: " ++ Text.quoted text
  | .emptyNumeral => "string index out of range"
  | .badTimestamp => "'NoneType' object has no attribute 'groupdict'"
  | .missingKey key => key.literal
  | .calendar e => e.message
  | .codePoint => "chr() arg not in range(0x110000)"
  | .noText e => e.message
  | .encoding fault octet first last =>
    let hex := "0x" ++ String.ofList (Text.hexDigits 2 octet.toNat)
    if last == first + 1 then
      s!"'utf-8' codec can't decode byte {hex} in position {first}: {fault.message}"
    else
      s!"'utf-8' codec can't decode bytes in position {first}-{last - 1}: {fault.message}"
  | .forbiddenCharacter => "<yaml>"
  | .directory path => "[Errno 21] Is a directory: " ++ Text.quoted path
  | .badSetting field =>
    "error parsing value for field \"" ++ field ++ "\" from source \"EnvSettingsSource\""
  | .keyKind => "keywords must be strings"
  | .noRank text => "Unknown level: " ++ Text.quoted text
  | .emptyPath => "no path specified"
  | .other message => message

/-- The wording of a fault. -/
def Fault.message : Fault → String
  | .expression e => e.message
  | .document e => e.message
  | .config e => e.message
  | .known message => message
  | .crash c => c.message

/-- Whether loaders contain a fault. -/
def Fault.isKnown : Fault → Bool
  | .crash _ => false
  | _ => true

/-- A document that is no flow or no request suite. -/
def DocumentError.bad (kind : DocumentKind) (path : String) (cause : Option Cause) :
    DocumentError where
  kind
  message :=
    match kind with
    | .request => "Bad request document: " ++ path
    | .values => "Bad values document: " ++ path
    | _ => "Bad flow document: " ++ path
  path := some path
  line := none
  cause

end ApiSuite
