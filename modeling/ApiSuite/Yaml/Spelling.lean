import ApiSuite.Decimal.Reading
import ApiSuite.Fault
import ApiSuite.Yaml.Tag

/-!
# What scalars spell

The reading of a scalar by its tag. A scalar may be tagged as something that it does not
spell; reading it then crashes, as numbers and days do that do not exist.
-/

namespace ApiSuite.Yaml

open Text

/-- A text without underscores. -/
def withoutUnderscores (cs : List Char) : List Char := cs.filter (· != '_')

/-! ### Numbers -/

/-- The value of a digit in a base. -/
def digitIn? (base : Nat) (x : Char) : Option Nat :=
  let value :=
    match decimalDigit? x with
    | some d => some d
    | none =>
      if 'a' ≤ x && x ≤ 'z' then some (x.toNat - 'a'.toNat + 10)
      else if 'A' ≤ x && x ≤ 'Z' then some (x.toNat - 'A'.toNat + 10)
      else none
  value.filter (· < base)

/-- The number that a non-empty run of digits denotes in a base. -/
def digitsIn? (base : Nat) (cs : List Char) : Option Nat :=
  if cs.isEmpty then none else cs.foldlM (fun n x => (digitIn? base x).map (base * n + ·)) 0

/-- The letter that marks a base. -/
def baseMark? (base : Nat) : Option Char :=
  if base == 2 then some 'b' else if base == 8 then some 'o' else if base == 16 then some 'x'
  else none

/-- A numeral without the mark of its base. -/
def withoutMark (base : Nat) (cs : List Char) : List Char :=
  match cs with
  | '0' :: x :: rest => if baseMark? base == some x.toLower then rest else cs
  | _ => cs

/-- A number in a base that is a power of two, with a sign or none and the mark of the base or
none. -/
def basedInt (base : Nat) (cs : List Char) : Except Crash Int :=
  let (negative, body) := Decimal.splitSign (trim cs)
  match digitsIn? base (withoutMark base body) with
  | some n => .ok (if negative then -(n : Int) else n)
  | none => .error (.badInteger base (String.ofList cs))

/-- A decimal number. -/
def decimalInt (cs : List Char) : Except Crash Int :=
  match Decimal.integerDigits? cs with
  | none => .error (.badInteger 10 (String.ofList cs))
  | some (_, ds) =>
    if numeralLimit < ds.length then .error (.hugeNumeral ds.length)
    else .ok ((Decimal.readInt? cs).getD 0)

/-- A number in base sixty, its parts being decimal numbers. -/
def sixties (parts : List (List Char)) : Except Crash Int :=
  parts.foldlM (fun n part => (decimalInt part).map (60 * n + ·)) 0

/-- A whole number without its sign. -/
def unsignedInt (cs : List Char) : Except Crash Int :=
  match cs with
  | ['0'] => .ok 0
  | '0' :: 'b' :: ds => basedInt 2 ds
  | '0' :: 'x' :: ds => basedInt 16 ds
  | '0' :: _ => basedInt 8 cs
  | [] => .error .emptyNumeral
  | _ => if cs.contains ':' then sixties (Tag.splitColons cs) else decimalInt cs

/-- The whole number that a scalar spells. -/
def spelledInt (text : String) : Except Crash Int :=
  match withoutUnderscores text.toList with
  | [] => .error .emptyNumeral
  | '-' :: cs => (unsignedInt cs).map (- ·)
  | '+' :: cs => unsignedInt cs
  | cs => unsignedInt cs

/-- A decimal float. -/
def decimalFloat (cs : List Char) : Except Crash Float :=
  match Decimal.readFloat? cs with
  | some x => .ok x
  | none => .error (.badFloat (String.ofList cs))

/-- The sum of parts, the last first, each times a further power of sixty. -/
def sumSixties (power : Nat) (sum : Float) : List (List Char) → Except Crash Float
  | [] => .ok sum
  | part :: parts => do
    let x ← decimalFloat part
    sumSixties (60 * power) (sum + x * Decimal.nearest power 0) parts

/-- Checks that all parts are floats, from the first on. -/
def checkFloats (parts : List (List Char)) : Except Crash Unit :=
  parts.forM fun part => (decimalFloat part).map fun _ => ()

/-- A float without its sign. -/
def unsignedFloat (cs : List Char) : Except Crash Float :=
  let word := String.ofList cs
  if word == ".inf" then .ok Decimal.infinity
  else if word == ".nan" then .ok Decimal.notANumber
  else if cs.contains ':' then do
    let parts := Tag.splitColons cs
    checkFloats parts
    sumSixties 1 0.0 parts.reverse
  else decimalFloat cs

/-- The float that a scalar spells. -/
def spelledFloat (text : String) : Except Crash Float :=
  match (withoutUnderscores text.toList).map Char.toLower with
  | [] => .error .emptyNumeral
  | '-' :: cs => (unsignedFloat cs).map fun x => if x.isNaN then x else -x
  | '+' :: cs => unsignedFloat cs
  | cs => unsignedFloat cs

/-! ### Words -/

/-- The words for truth values. -/
def truthWords : List (String × Bool) :=
  [("yes", true), ("no", false), ("true", true), ("false", false), ("on", true), ("off", false)]

/-- The truth value that a scalar spells. -/
def spelledBool (text : String) : Except Crash Bool :=
  let word := String.ofList (text.toList.map Char.toLower)
  match truthWords.lookup word with
  | some b => .ok b
  | none => .error (.missingKey (.str word))

/-! ### Days and times -/

/-- The microseconds that the digits after a point denote; further digits are dropped. -/
def microseconds (ds : List Char) : Nat :=
  let six := ds.take 6
  Tag.number six * Decimal.tenPow (6 - six.length)

/-- The day or time that a scalar spells. -/
def spelledTimestamp (text : String) : Except Crash Value :=
  match Tag.timestamp? (Tag.withoutFeed text.toList) with
  | none => .error .badTimestamp
  | some t =>
    let date := Date.make t.year (Tag.number t.month) (Tag.number t.day)
    match t.clock with
    | none =>
      match date with
      | .ok d => .ok (.date d)
      | .error e => .error (.calendar e)
    | some c =>
      match DateTime.make date c.hour c.minute c.second (microseconds c.fraction) c.offset with
      | .ok t => .ok (.datetime t)
      | .error e => .error (.calendar e)

/-! ### Octets -/

/-- The value of a digit in base sixty-four. -/
def digit64? (x : Char) : Option Nat :=
  if 'A' ≤ x && x ≤ 'Z' then some (x.toNat - 'A'.toNat)
  else if 'a' ≤ x && x ≤ 'z' then some (x.toNat - 'a'.toNat + 26)
  else if isAsciiDigit x then some (x.toNat - '0'.toNat + 52)
  else if x == '+' then some 62
  else if x == '/' then some 63
  else none

/-- The octets that digits in base sixty-four spell, `place` digits of a group of four having
been read with `left` as the bits not yet used, and `pads` marks of padding. Other characters
are skipped, and full padding ends the text. -/
def octets64? (place left pads : Nat) : List Char → Option (List UInt8)
  | [] => if place == 0 then some [] else none
  | c :: cs =>
    if c == '=' then
      if place < 2 then octets64? place left pads cs
      else if 4 ≤ place + pads + 1 then some []
      else octets64? place left (pads + 1) cs
    else
      match digit64? c with
      | none => octets64? place left pads cs
      | some d =>
        match place with
        | 0 => octets64? 1 d 0 cs
        | 1 => (octets64? 2 (d % 16) 0 cs).map (UInt8.ofNat (left * 4 + d / 16) :: ·)
        | 2 => (octets64? 3 (d % 4) 0 cs).map (UInt8.ofNat (left * 16 + d / 4) :: ·)
        | _ => (octets64? 0 0 0 cs).map (UInt8.ofNat (left * 64 + d) :: ·)

/-- The octets that a scalar spells. -/
def spelledOctets? (text : String) : Option (List UInt8) :=
  if text.toList.all fun x => x.toNat < 128 then octets64? 0 0 0 text.toList else none

end ApiSuite.Yaml
