import ApiSuite.Value.Basic
import ApiSuite.Decimal.Shortest
import ApiSuite.Text.Digit
import ApiSuite.Text.Quoted

/-!
# Values as text

A scalar standing alone is shown by its **display** text: a text as it is, a number in
decimal, a day in the international standard form. Inside a collection every value is shown
by its **literal** text, in which texts are quoted and days and times name their parts.
Integers past the numeral limit have neither.
-/

namespace ApiSuite

namespace Value

/-- Joins texts with a separator. -/
def joined (separator : String) (parts : List String) : String :=
  separator.intercalate parts

/-- The literal text of an offset from universal time, given in minutes. -/
def offsetLiteral (minutes : Int) : String :=
  if minutes == 0 then "datetime.timezone.utc"
  else
    let seconds := minutes * 60
    let days := seconds.fdiv 86400
    let rest := seconds.fmod 86400
    let parts := (if days == 0 then [] else [s!"days={days}"]) ++
      (if rest == 0 then [] else [s!"seconds={rest}"])
    "datetime.timezone(datetime.timedelta(" ++ joined ", " parts ++ "))"

/-- The literal text of a day. -/
def dateLiteral (d : Date) : String :=
  s!"datetime.date({d.year}, {d.month}, {d.day})"

/-- The literal text of a time: seconds and microseconds are left out from the end while they
are zero. -/
def datetimeLiteral (t : DateTime) : String :=
  let fine :=
    if t.microsecond != 0 then [toString t.second, toString t.microsecond]
    else if t.second != 0 then [toString t.second]
    else []
  let numbers := [t.date.year, t.date.month, t.date.day, t.hour, t.minute].map toString ++ fine
  let offset := match t.offset with
    | some m => ["tzinfo=" ++ offsetLiteral m]
    | none => []
  "datetime.datetime(" ++ joined ", " (numbers ++ offset) ++ ")"

/-- The text of a truth value. -/
def boolLiteral (b : Bool) : String := if b then "True" else "False"

mutual

/-- The text that shows a value inside a collection. -/
def literal : Value → String
  | .null => "None"
  | .bool b => boolLiteral b
  | .int n => toString n
  | .float x => Decimal.plain.render x
  | .str s => Text.quoted s
  | .bytes bs => Text.quotedOctets bs
  | .date d => dateLiteral d
  | .datetime t => datetimeLiteral t
  | .list items => "[" ++ joined ", " (literals items) ++ "]"
  | .tuple [item] => "(" ++ literal item ++ ",)"
  | .tuple items => "(" ++ joined ", " (literals items) ++ ")"
  | .set [] => "set()"
  | .set items => "\x7b" ++ joined ", " (literals items) ++ "\x7d"
  | .object entries => "\x7b" ++ joined ", " (entryLiterals entries) ++ "\x7d"

/-- The literal texts of the members of a collection. -/
def literals : List Value → List String
  | [] => []
  | v :: vs => literal v :: literals vs

/-- The literal texts of the entries of an object. -/
def entryLiterals : List (Value × Value) → List String
  | [] => []
  | (k, v) :: es => (literal k ++ ": " ++ literal v) :: entryLiterals es

end

/-- Whether an integer has more digits than numerals may have. -/
def isHuge (n : Int) : Bool := Decimal.tenPow Text.numeralLimit ≤ n.natAbs

mutual

/-- Whether an integer past the numeral limit occurs in a value. -/
def holdsHuge : Value → Bool
  | .int n => isHuge n
  | .list items | .tuple items | .set items => holdsHugeAmong items
  | .object entries => holdsHugeEntry entries
  | _ => false

/-- Whether an integer past the numeral limit occurs among some values. -/
def holdsHugeAmong : List Value → Bool
  | [] => false
  | v :: vs => holdsHuge v || holdsHugeAmong vs

/-- Whether an integer past the numeral limit occurs among some entries. -/
def holdsHugeEntry : List (Value × Value) → Bool
  | [] => false
  | (k, v) :: es => holdsHuge k || holdsHuge v || holdsHugeEntry es

end

/-- Why a value has no text. -/
inductive TextError where
  /-- An integer past the numeral limit occurs in it. -/
  | hugeNumeral
  /-- A value of this kind occurs in it where structured text has no form for it. -/
  | noForm (kind : String)
  /-- A key of this kind occurs in it. -/
  | keyForm (kind : String)
deriving DecidableEq, Repr

/-- The display text of a value, whatever its size. -/
def displayText : Value → String
  | .str s => s
  | .date d => d.iso
  | .datetime t => t.iso " "
  | v => literal v

/-- The text that shows a value standing alone. -/
def display (v : Value) : Except TextError String :=
  if v.holdsHuge then .error .hugeNumeral else .ok v.displayText

/-- A text displays as itself. -/
@[simp] theorem display_str (s : String) : display (.str s) = .ok s := by
  simp [display, holdsHuge, displayText]

end Value

/-- The wording of a missing text. -/
def Value.TextError.message : Value.TextError → String
  | .hugeNumeral => s!"Exceeds the limit ({Text.numeralLimit} digits) for integer string conversion; use sys.set_int_max_str_digits() to increase the limit"
  | .noForm kind => s!"Object of type {kind} is not JSON serializable"
  | .keyForm kind => s!"keys must be str, int, float, bool or None, not {kind}"

end ApiSuite
