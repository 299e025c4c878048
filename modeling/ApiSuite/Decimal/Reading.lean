import ApiSuite.Decimal.Shortest
import ApiSuite.Text.Blank
import ApiSuite.Text.Digit

/-!
# Reading decimal numerals

Numerals are read in two steps: a scan that splits the text into sign, digits and exponent,
and a conversion of the digits to the nearest number. `ApiSuite.Decimal.readInt?` and
`ApiSuite.Decimal.readFloat?` accept the free form of numerals: blanks around them, a sign,
the digits of any script and single underscores between digits.
-/

namespace ApiSuite.Decimal

open Text

/-- Positive infinity. -/
def infinity : Float := Float.ofBits 0x7ff0000000000000

/-- What is no number. -/
def notANumber : Float := Float.ofBits 0x7ff8000000000000

/-- The float nearest to `m · 10 ^ e`: infinity beyond the largest, zero below the least. -/
def nearest (m : Nat) (e : Int) : Float :=
  if m == 0 then 0.0
  else
    let place := (digitCount m : Int) + e
    if place > 400 then infinity
    else if place < -400 then 0.0
    else if e < 0 then Float.ofScientific m true e.natAbs
    else Float.ofScientific m false e.natAbs

/-- A float with the given sign. -/
def withSign (negative : Bool) (x : Float) : Float :=
  if negative then -x else x

/-- The value of a run of digits, leading zeros allowed. -/
def digitsValue (cs : List Char) : Nat :=
  (foldDigits? 0 cs).getD 0

/-- The float written with these digits before and after the point and this exponent. -/
def ofParts (negative : Bool) (whole fraction : List Char) (exponent : Int) : Float :=
  withSign negative (nearest (digitsValue (whole ++ fraction)) (exponent - fraction.length))

/-- Splits a leading sign off: whether it is a minus, and the rest. -/
def splitSign : List Char → Bool × List Char
  | '-' :: cs => (true, cs)
  | '+' :: cs => (false, cs)
  | cs => (false, cs)

/-- A run of digits in which single underscores may stand between two digits, without them,
and the rest; `afterDigit` says whether a digit has just been read. `none` when an underscore
does not stand between two digits. -/
def digitRun? (afterDigit : Bool) : List Char → Option (List Char × List Char)
  | [] => some ([], [])
  | '_' :: c :: cs =>
    if afterDigit && isDecimalDigit c then
      (digitRun? true cs).map fun (ds, rest) => (c :: ds, rest)
    else none
  | c :: cs =>
    if isDecimalDigit c then (digitRun? true cs).map fun (ds, rest) => (c :: ds, rest)
    else some ([], c :: cs)

/-- The digits of an integer numeral in free form, with its sign. -/
def integerDigits? (cs : List Char) : Option (Bool × List Char) :=
  let (negative, body) := splitSign (trim cs)
  match digitRun? false body with
  | some (d :: ds, []) => some (negative, d :: ds)
  | _ => none

/-- An integer numeral in free form. -/
def readInt? (cs : List Char) : Option Int :=
  match integerDigits? cs with
  | some (negative, ds) =>
    let n : Int := digitsValue ds
    some (if negative then -n else n)
  | none => none

/-- The exponent part of a float numeral; the whole rest must be consumed. -/
def exponent? : List Char → Option Int
  | [] => some 0
  | c :: cs =>
    if c == 'e' || c == 'E' then
      let (negative, body) := splitSign cs
      match digitRun? false body with
      | some (d :: ds, []) =>
        let n : Int := digitsValue (d :: ds)
        some (if negative then -n else n)
      | _ => none
    else none

/-- The digits of a float numeral without its sign. -/
def floatBody? (negative : Bool) (cs : List Char) : Option Float := do
  let (whole, rest) ← digitRun? false cs
  let (fraction, rest) ←
    match rest with
    | '.' :: more => digitRun? false more
    | _ => some ([], rest)
  if whole.isEmpty && fraction.isEmpty then none
  else
    let e ← exponent? rest
    pure (ofParts negative whole fraction e)

/-- The words that denote infinity or no number, in lower case. -/
def floatWord? (negative : Bool) (word : String) : Option Float :=
  if word == "inf" || word == "infinity" then some (withSign negative infinity)
  else if word == "nan" then some notANumber
  else none

/-- A float numeral in free form, or one of the words for infinity and no number in any
case. -/
def readFloat? (cs : List Char) : Option Float :=
  let (negative, body) := splitSign (trim cs)
  match floatWord? negative (String.ofList (body.map Char.toLower)) with
  | some x => some x
  | none => floatBody? negative body

end ApiSuite.Decimal
