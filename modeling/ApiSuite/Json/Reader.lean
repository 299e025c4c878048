import ApiSuite.Value.Order
import ApiSuite.Decimal.Reading

/-!
# Reading JSON

`ApiSuite.Json.read` reads one JSON value from a text that holds nothing else but blanks
around it. Beyond the standard it accepts the names of the infinite numbers and of what is
no number. Of several entries with one key the last counts, at the place of the first.

A failure says what was expected and where: every reading function works on the characters
not yet read, and an error carries those that were left at the fault, from which its offset
and line follow.
-/

namespace ApiSuite.Json

/-- What is wrong with a text. -/
inductive Reason where
  | value
  | name
  | colon
  | comma
  | extraData
  | unterminatedText
  | controlCharacter
  | escape
  | unicodeEscape
  | byteOrderMark
deriving DecidableEq, Repr

/-- The wording of a reason. -/
def Reason.message : Reason → String
  | .value => "Expecting value"
  | .name => "Expecting property name enclosed in double quotes"
  | .colon => "Expecting ':' delimiter"
  | .comma => "Expecting ',' delimiter"
  | .extraData => "Extra data"
  | .unterminatedText => "Unterminated string starting at"
  | .controlCharacter => "Invalid control character at"
  | .escape => "Invalid \\escape"
  | .unicodeEscape => "Invalid \\uXXXX escape"
  | .byteOrderMark => "Unexpected UTF-8 BOM (decode using utf-8-sig)"

/-- Why reading stopped: a fault with the characters not yet read there, or an integer with
more digits than numerals may have. -/
inductive Stop where
  | fault (reason : Reason) (rest : List Char)
  | hugeNumeral (digits : Nat)

/-- A fault with its place. Lines and columns count from one, offsets from zero. -/
structure Error where
  reason : Reason
  offset : Nat
  line : Nat
  column : Nat
deriving DecidableEq, Repr

/-- The fault at an offset of a text. -/
def Error.at (text : List Char) (reason : Reason) (offset : Nat) : Error :=
  let before := text.take offset
  { reason, offset,
    line := before.count '\n' + 1,
    column := (before.reverse.takeWhile (· != '\n')).length + 1 }

/-- A fault with its reason and place in words. -/
def Error.describe (e : Error) : String :=
  s!"{e.reason.message}: line {e.line} column {e.column} (char {e.offset})"

/-- Why a text is no JSON value. -/
inductive Failure where
  | malformed (error : Error)
  | hugeNumeral (digits : Nat)
deriving DecidableEq, Repr

/-- The characters that may stand between tokens. -/
def isSpace (c : Char) : Bool := c == ' ' || c == '\t' || c == '\n' || c == '\r'

/-- The text after its leading spaces. -/
def skip (cs : List Char) : List Char := cs.dropWhile isSpace

/-- The value of a hexadecimal digit. -/
def hexValue? (c : Char) : Option Nat :=
  if '0' ≤ c && c ≤ '9' then some (c.toNat - '0'.toNat)
  else if 'a' ≤ c && c ≤ 'f' then some (c.toNat - 'a'.toNat + 10)
  else if 'A' ≤ c && c ≤ 'F' then some (c.toNat - 'A'.toNat + 10)
  else none

/-- The number that four hexadecimal digits denote. -/
def unit? (a b c d : Char) : Option Nat := do
  let w ← hexValue? a
  let x ← hexValue? b
  let y ← hexValue? c
  let z ← hexValue? d
  pure (((w * 16 + x) * 16 + y) * 16 + z)

/-- The character that a simple escape stands for. -/
def escape? (c : Char) : Option Char :=
  if c == '"' || c == '\\' || c == '/' then some c
  else if c == 'b' then some (Char.ofNat 8)
  else if c == 'f' then some (Char.ofNat 12)
  else if c == 'n' then some '\n'
  else if c == 'r' then some '\r'
  else if c == 't' then some '\t'
  else none

/-- Whether a code unit is the first half of a pair. -/
def isHighHalf (n : Nat) : Bool := 0xd800 ≤ n && n ≤ 0xdbff

/-- Whether a code unit is the second half of a pair. -/
def isLowHalf (n : Nat) : Bool := 0xdc00 ≤ n && n ≤ 0xdfff

/-- The character of a code unit; a half without its partner becomes the replacement
character. -/
def ofUnit (n : Nat) : Char :=
  if isHighHalf n || isLowHalf n then Char.ofNat 0xfffd else Char.ofNat n

/-- The character of a pair of halves. -/
def ofPair (high low : Nat) : Char :=
  Char.ofNat (0x10000 + (high - 0xd800) * 0x400 + (low - 0xdc00))

/-- The characters of a sequence of code units, in which two adjacent halves of a pair make
one character. -/
def joinHalves : List Nat → List Char
  | [] => []
  | [n] => [ofUnit n]
  | high :: low :: rest =>
    if isHighHalf high && isLowHalf low then ofPair high low :: joinHalves rest
    else ofUnit high :: joinHalves (low :: rest)

/-- The code units of a text up to its closing quote, and the rest after the quote.
`opening` are the characters from the opening quote on, for the report that the text does not
end. An escape of a code unit has four digits and more characters after them. -/
def readUnits (opening : List Char) : List Char → Except Stop (List Nat × List Char)
  | [] => .error (.fault .unterminatedText opening)
  | '"' :: rest => .ok ([], rest)
  | ['\\'] => .error (.fault .unterminatedText opening)
  | '\\' :: 'u' :: a :: b :: c :: d :: e :: more =>
    match unit? a b c d with
    | none => .error (.fault .unicodeEscape ('u' :: a :: b :: c :: d :: e :: more))
    | some n => do
      let (units, rest) ← readUnits opening (e :: more)
      pure (n :: units, rest)
  | '\\' :: 'u' :: more => .error (.fault .unicodeEscape ('u' :: more))
  | '\\' :: c :: more =>
    match escape? c with
    | some x => do
      let (units, rest) ← readUnits opening more
      pure (x.toNat :: units, rest)
    | none => .error (.fault .escape ('\\' :: c :: more))
  | c :: more =>
    if c.toNat ≤ 0x1f then .error (.fault .controlCharacter (c :: more))
    else do
      let (units, rest) ← readUnits opening more
      pure (c.toNat :: units, rest)

/-- The text up to its closing quote, and the rest after the quote. -/
def readText (opening cs : List Char) : Except Stop (String × List Char) :=
  (readUnits opening cs).map fun (units, rest) => (String.ofList (joinHalves units), rest)

/-- The leading ASCII digits and the rest. -/
def asciiDigits (cs : List Char) : List Char × List Char :=
  (cs.takeWhile Text.isAsciiDigit, cs.dropWhile Text.isAsciiDigit)

/-- The fraction after a whole number, if one stands there: a point and at least one digit. -/
def fraction? : List Char → Option (List Char × List Char)
  | '.' :: cs =>
    match asciiDigits cs with
    | ([], _) => none
    | (ds, rest) => some (ds, rest)
  | _ => none

/-- The exponent of a number, if one stands there: the letter, a sign or none, and at least
one digit. -/
def exponent? : List Char → Option (Int × List Char)
  | c :: cs =>
    if c == 'e' || c == 'E' then
      let (negative, body) := Decimal.splitSign cs
      match asciiDigits body with
      | ([], _) => none
      | (ds, rest) =>
        let n : Int := Decimal.digitsValue ds
        some (if negative then -n else n, rest)
    else none
  | [] => none

/-- The whole part of a number: a zero, or digits that do not start with one. -/
def whole? : List Char → Option (List Char × List Char)
  | '0' :: rest => some (['0'], rest)
  | cs =>
    match asciiDigits cs with
    | ([], _) => none
    | (ds, rest) => some (ds, rest)

/-- The integer or float at the head of a text. -/
def readNumber (cs : List Char) : Except Stop (Value × List Char) :=
  let (negative, body) :=
    match cs with
    | '-' :: more => (true, more)
    | _ => (false, cs)
  match whole? body with
  | none => .error (.fault .value cs)
  | some (ds, rest) =>
    match fraction? rest, exponent? rest with
    | none, none =>
      if Text.numeralLimit < ds.length then .error (.hugeNumeral ds.length)
      else
        let n : Int := Decimal.digitsValue ds
        .ok (.int (if negative then -n else n), rest)
    | none, some (e, rest) => .ok (.float (Decimal.ofParts negative ds [] e), rest)
    | some (fs, rest), _ =>
      match exponent? rest with
      | some (e, rest) => .ok (.float (Decimal.ofParts negative ds fs e), rest)
      | none => .ok (.float (Decimal.ofParts negative ds fs 0), rest)

/-- The text after a word that stands at its head. -/
def afterWord? : List Char → List Char → Option (List Char)
  | [], cs => some cs
  | w :: ws, c :: cs => if w == c then afterWord? ws cs else none
  | _ :: _, [] => none

/-- The scalars that are written as a word. -/
def words : List (String × Value) :=
  [("null", .null), ("true", .bool true), ("false", .bool false),
    ("NaN", .float Decimal.notANumber), ("Infinity", .float Decimal.infinity),
    ("-Infinity", .float (-Decimal.infinity))]

/-- The value of the word at the head of a text, if one stands there. -/
def readWord? (cs : List Char) : Option (Value × List Char) :=
  words.findSome? fun (word, v) => (afterWord? word.toList cs).map fun rest => (v, rest)

mutual

/-- The value at the head of a text. `fuel` bounds the number of tokens. -/
def readValue (fuel : Nat) (cs : List Char) : Except Stop (Value × List Char) :=
  match fuel with
  | 0 => .error (.fault .value cs)
  | fuel + 1 =>
    match cs with
    | '"' :: more => do
      let (s, rest) ← readText cs more
      pure (.str s, rest)
    | '{' :: more =>
      match skip more with
      | '}' :: rest => .ok (.object [], rest)
      | inner => readEntries fuel [] inner
    | '[' :: more =>
      match skip more with
      | ']' :: rest => .ok (.list [], rest)
      | inner => readItems fuel [] inner
    | _ =>
      match readWord? cs with
      | some found => .ok found
      | none => readNumber cs

/-- The remaining items of a list, of which `seen` have been read in reverse order. -/
def readItems (fuel : Nat) (seen : List Value) (cs : List Char) :
    Except Stop (Value × List Char) :=
  match fuel with
  | 0 => .error (.fault .value cs)
  | fuel + 1 => do
    let (v, rest) ← readValue fuel cs
    match skip rest with
    | ']' :: rest => pure (.list (v :: seen).reverse, rest)
    | ',' :: rest => readItems fuel (v :: seen) (skip rest)
    | rest => .error (.fault .comma rest)

/-- The remaining entries of an object, of which `seen` have been read. -/
def readEntries (fuel : Nat) (seen : List (Value × Value)) (cs : List Char) :
    Except Stop (Value × List Char) :=
  match fuel with
  | 0 => .error (.fault .value cs)
  | fuel + 1 =>
    match cs with
    | '"' :: more => do
      let (key, rest) ← readText cs more
      match skip rest with
      | ':' :: rest => do
        let (v, rest) ← readValue fuel (skip rest)
        let seen := Value.insert (.str key) v seen
        match skip rest with
        | '}' :: rest => pure (.object seen, rest)
        | ',' :: rest => readEntries fuel seen (skip rest)
        | rest => .error (.fault .comma rest)
      | rest => .error (.fault .colon rest)
    | _ => .error (.fault .name cs)

end

/-- The value of a whole text, blanks around it aside. -/
def readWhole (cs : List Char) : Except Stop Value := do
  if cs.head? == some (Char.ofNat 0xfeff) then .error (.fault .byteOrderMark cs)
  let (v, rest) ← readValue (cs.length + 1) (skip cs)
  match skip rest with
  | [] => pure v
  | rest => .error (.fault .extraData rest)

/-- The JSON value that a text holds. -/
def read (s : String) : Except Failure Value :=
  let cs := s.toList
  match readWhole cs with
  | .ok v => .ok v
  | .error (.hugeNumeral n) => .error (.hugeNumeral n)
  | .error (.fault reason rest) => .error (.malformed (.at cs reason (cs.length - rest.length)))

end ApiSuite.Json
