import ApiSuite.Calendar
import ApiSuite.Text.Digit

/-!
# Tags

A **tag** says how the content of a node is to be read. Scalars without one have the tag that
their spelling suggests: `ApiSuite.Yaml.Tag.suggested` knows the spellings of null, truth
values, whole numbers, floats and timestamps, and two marks that only mean something as the
key of a mapping.
-/

namespace ApiSuite.Yaml

open Text

/-- How the content of a node is to be read. -/
inductive Tag where
  | null
  | bool
  | int
  | float
  | str
  | binary
  | timestamp
  | list
  | map
  | set
  | pairs
  /-- Pairs under another name. -/
  | orderedMap
  /-- The key of entries to be merged into a mapping. -/
  | merge
  /-- The key of the value that a mapping stands for. -/
  | value
  | other (name : String)
deriving DecidableEq, Repr

namespace Tag

/-- What the names of the known tags begin with. -/
def namespaceName : String := "tag:yaml.org,2002:"

/-- The full name of a tag. -/
def fullName : Tag → String
  | .null => namespaceName ++ "null"
  | .bool => namespaceName ++ "bool"
  | .int => namespaceName ++ "int"
  | .float => namespaceName ++ "float"
  | .str => namespaceName ++ "str"
  | .binary => namespaceName ++ "binary"
  | .timestamp => namespaceName ++ "timestamp"
  | .list => namespaceName ++ "seq"
  | .map => namespaceName ++ "map"
  | .set => namespaceName ++ "set"
  | .pairs => namespaceName ++ "pairs"
  | .orderedMap => namespaceName ++ "omap"
  | .merge => namespaceName ++ "merge"
  | .value => namespaceName ++ "value"
  | .other name => name

/-- The tags that mean something. -/
def known : List Tag :=
  [.null, .bool, .int, .float, .str, .binary, .timestamp, .list, .map, .set, .pairs,
    .orderedMap, .merge, .value]

/-- The tag of a full name. -/
def ofName (name : String) : Tag :=
  match known.find? fun t => t.fullName == name with
  | some tag => tag
  | none => .other name

/-! ### Spellings -/

/-- A digit or an underscore. -/
def isLoose (x : Char) : Bool := isAsciiDigit x || x == '_'

/-- A text without its sign. -/
def unsigned : List Char → List Char
  | '-' :: cs => cs
  | '+' :: cs => cs
  | cs => cs

/-- A digit followed by digits and underscores. -/
def isLooseNumber : List Char → Bool
  | [] => false
  | c :: cs => isAsciiDigit c && cs.all isLoose

/-- A text split at its colons. -/
def splitColons : List Char → List (List Char)
  | [] => [[]]
  | ':' :: cs => [] :: splitColons cs
  | c :: cs =>
    match splitColons cs with
    | [] => [[c]]
    | part :: parts => (c :: part) :: parts

/-- A number below sixty, in one or two digits. -/
def isSixtieth : List Char → Bool
  | [c] => isAsciiDigit c
  | [c, d] => '0' ≤ c && c ≤ '5' && isAsciiDigit d
  | _ => false

/-- Digits of a base after a mark of the base, with underscores. -/
def isBased (isDigit : Char → Bool) (cs : List Char) : Bool :=
  !cs.isEmpty && cs.all fun x => isDigit x || x == '_'

/-- A hexadecimal digit. -/
def isHexDigit (x : Char) : Bool :=
  isAsciiDigit x || ('a' ≤ x && x ≤ 'f') || ('A' ≤ x && x ≤ 'F')

/-- A number in base sixty. -/
def isSixties (begins : List Char → Bool) (cs : List Char) : Bool :=
  match splitColons cs with
  | first :: part :: parts => begins first && (part :: parts).all isSixtieth
  | _ => false

/-- Whether a number begins with another digit than zero. -/
def isPositive (cs : List Char) : Bool := isLooseNumber cs && cs.head? != some '0'

/-- The spelling of a whole number. -/
def spellsInt (cs : List Char) : Bool :=
  match unsigned cs with
  | '0' :: 'b' :: ds => isBased (fun x => x == '0' || x == '1') ds
  | '0' :: 'x' :: ds => isBased isHexDigit ds
  | ['0'] => true
  | '0' :: ds => isBased (fun x => '0' ≤ x && x ≤ '7') ds
  | ds => isPositive ds || isSixties isPositive ds

/-- An exponent with its sign, or nothing. -/
def isExponent : List Char → Bool
  | [] => true
  | e :: s :: ds =>
    (e == 'e' || e == 'E') && (s == '-' || s == '+') && !ds.isEmpty && ds.all isAsciiDigit
  | _ => false

/-- The digits after a point, and an exponent. -/
def isFraction (cs : List Char) : Bool := isExponent (cs.dropWhile isLoose)

/-- The spelling of a float. -/
def spellsFloat (cs : List Char) : Bool :=
  let body := unsigned cs
  let word := String.ofList body
  if [".inf", ".Inf", ".INF"].contains word then true
  else if [".nan", ".NaN", ".NAN"].contains (String.ofList cs) then true
  else
    let whole := body.takeWhile (· != '.')
    match body.dropWhile (· != '.') with
    | [] => false
    | _ :: fraction =>
      if whole.isEmpty then
        cs.head? == some '.' && fraction.head?.any isAsciiDigit && isFraction fraction
      else if isLooseNumber whole then isFraction fraction
      else isSixties isLooseNumber whole && fraction.all isLoose

/-! ### Timestamps -/

/-- A clock time as it is written; the offset is in minutes. -/
structure WrittenClock where
  hour : Nat
  minute : Nat
  second : Nat
  fraction : List Char
  offset : Option Int
deriving Repr

/-- A day as it is written, with a clock time or without. -/
structure Timestamp where
  year : Nat
  month : List Char
  day : List Char
  clock : Option WrittenClock
deriving Repr

/-- Between `least` and `most` digits, as many as there are, and the rest. -/
def digits? (least most : Nat) (cs : List Char) : Option (List Char × List Char) :=
  let ds := (cs.take most).takeWhile isAsciiDigit
  if ds.length < least then none else some (ds, cs.drop ds.length)

/-- The rest after a character. -/
def expect? (x : Char) : List Char → Option (List Char)
  | c :: cs => if c == x then some cs else none
  | [] => none

/-- The number that ASCII digits denote. -/
def number (ds : List Char) : Nat := (foldDigits? 0 ds).getD 0

/-- A space or a tab. -/
def isGapCharacter (x : Char) : Bool := x == ' ' || x == '\t'

/-- The offset at the end of a timestamp, in minutes; none written is none. -/
def offset? (cs : List Char) : Option (Option Int) :=
  match cs.dropWhile isGapCharacter with
  | [] => if cs.isEmpty then some none else none
  | ['Z'] => some (some 0)
  | sign :: more =>
    if sign == '-' || sign == '+' then do
      let (hours, rest) ← digits? 1 2 more
      let minutes ←
        match rest with
        | [] => some []
        | rest => do
          let (ds, rest) ← digits? 2 2 (← expect? ':' rest)
          if rest.isEmpty then some ds else none
      let total : Int := number hours * 60 + number minutes
      pure (some (if sign == '-' then -total else total))
    else none

/-- The clock time of a timestamp. -/
def clock? (cs : List Char) : Option WrittenClock := do
  let (hour, cs) ← digits? 1 2 cs
  let (minute, cs) ← digits? 2 2 (← expect? ':' cs)
  let (second, cs) ← digits? 2 2 (← expect? ':' cs)
  let (fraction, cs) :=
    match cs with
    | '.' :: cs => (cs.takeWhile isAsciiDigit, cs.dropWhile isAsciiDigit)
    | cs => ([], cs)
  let offset ← offset? cs
  pure ⟨number hour, number minute, number second, fraction, offset⟩

/-- What a timestamp spells. -/
def timestamp? (cs : List Char) : Option Timestamp := do
  let (year, cs) ← digits? 4 4 cs
  let (month, cs) ← digits? 1 2 (← expect? '-' cs)
  let (day, cs) ← digits? 1 2 (← expect? '-' cs)
  let clock ←
    match cs with
    | [] => some none
    | c :: more =>
      if c == 'T' || c == 't' then (clock? more).map some
      else if isGapCharacter c then (clock? (more.dropWhile isGapCharacter)).map some
      else none
  pure ⟨number year, month, day, clock⟩

/-- The spelling of a timestamp: a day on its own has two digits for month and day. -/
def spellsTimestamp (cs : List Char) : Bool :=
  match timestamp? cs with
  | none => false
  | some t => t.clock.isSome || (t.month.length == 2 && t.day.length == 2)

/-! ### The tag a spelling suggests -/

/-- The words for truth values. -/
def boolWords : List String :=
  ["yes", "Yes", "YES", "no", "No", "NO", "true", "True", "TRUE", "false", "False", "FALSE",
    "on", "On", "ON", "off", "Off", "OFF"]

/-- The words for null. -/
def nullWords : List String := ["~", "null", "Null", "NULL"]

/-- A text without a line feed at its end. -/
def withoutFeed (cs : List Char) : List Char :=
  if cs.length > 1 && cs.getLast? == some '\n' then cs.dropLast else cs

/-- The tag that the spelling of a scalar suggests. A line feed at its end does not count. -/
def suggested (text : String) : Tag :=
  let cs := withoutFeed text.toList
  let word := String.ofList cs
  if text == "" || nullWords.contains word then .null
  else if boolWords.contains word then .bool
  else if spellsFloat cs then .float
  else if spellsInt cs then .int
  else if word == "<<" then .merge
  else if spellsTimestamp cs then .timestamp
  else if word == "=" then .value
  else if ["!", "&", "*"].contains word then .other (namespaceName ++ "yaml")
  else .str

end Tag

end ApiSuite.Yaml
