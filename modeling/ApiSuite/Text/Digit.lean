/-!
# Decimal digits

Numerals in expressions and documents may be written in the digits of any script. A
**decimal digit** is a character of the Unicode class Nd: these come in runs of ten, from
the digit zero of a script to its digit nine, so the table holds the zeros only. A wider
class adds the characters that denote a digit without being used to write numerals, such
as superscripts; a text of such characters looks like a numeral but does not read as one.
-/

namespace ApiSuite.Text

/-- The digit zero of every script that writes decimal numerals. -/
def digitZeros : List Nat :=
  [48, 1632, 1776, 1984, 2406, 2534, 2662, 2790, 2918, 3046, 3174, 3302, 3430, 3558, 3664,
   3792, 3872, 4160, 4240, 6112, 6160, 6470, 6608, 6784, 6800, 6992, 7088, 7232, 7248,
   42528, 43216, 43264, 43472, 43504, 43600, 44016, 65296, 66720, 68912, 69734, 69872,
   69942, 70096, 70384, 70736, 70864, 71248, 71360, 71472, 71904, 72016, 72784, 73040,
   73120, 92768, 92864, 93008, 120782, 120792, 120802, 120812, 120822, 123200, 123632,
   125264, 130032]

/-- The value of a decimal digit of any script. -/
def decimalDigit? (c : Char) : Option Nat :=
  (digitZeros.find? fun z => z ≤ c.toNat && c.toNat ≤ z + 9).map (c.toNat - ·)

/-- A digit that numerals are written with. -/
def isDecimalDigit (c : Char) : Bool :=
  (decimalDigit? c).isSome

/-- The characters that denote a digit and are no decimal digits, as closed ranges. -/
def digitSigns : List (Nat × Nat) :=
  [(178, 179), (185, 185), (4969, 4977), (6618, 6618), (8304, 8304), (8308, 8313),
   (8320, 8329), (9312, 9320), (9332, 9340), (9352, 9360), (9450, 9450), (9461, 9469),
   (9471, 9471), (10102, 10110), (10112, 10120), (10122, 10130), (68160, 68163),
   (69216, 69224), (69714, 69722), (127232, 127242)]

/-- A character that denotes a digit: a decimal digit or a digit sign. -/
def isDigitSign (c : Char) : Bool :=
  isDecimalDigit c || digitSigns.any fun r => r.1 ≤ c.toNat && c.toNat ≤ r.2

/-- The number that a run of decimal digits denotes, continuing from `acc`; `none` if some
character is no decimal digit. -/
def foldDigits? (acc : Nat) : List Char → Option Nat
  | [] => some acc
  | c :: cs =>
    match decimalDigit? c with
    | some d => foldDigits? (10 * acc + d) cs
    | none => none

/-- The number that a non-empty run of decimal digits denotes. -/
def readNat? (cs : List Char) : Option Nat :=
  if cs.isEmpty then none else foldDigits? 0 cs

/-- An ASCII decimal digit. -/
def isAsciiDigit (c : Char) : Bool :=
  '0' ≤ c && c ≤ '9'

/-- A decimal digit is one of ASCII or lies beyond the Latin, Greek and Cyrillic scripts. -/
theorem isDecimalDigit_range {c : Char} (h : isDecimalDigit c) :
    (48 ≤ c.toNat ∧ c.toNat ≤ 57) ∨ 1632 ≤ c.toNat := by
  simp only [isDecimalDigit, decimalDigit?, Option.isSome_map] at h
  obtain ⟨z, hz⟩ := Option.isSome_iff_exists.mp h
  have hmem : z = 48 ∨ 1632 ≤ z :=
    (by decide : ∀ z ∈ digitZeros, z = 48 ∨ 1632 ≤ z) z (List.mem_of_find?_eq_some hz)
  have hrange := List.find?_some hz
  simp only [Bool.and_eq_true, decide_eq_true_eq] at hrange
  omega

/-- Numerals longer than this many digits are refused in either direction: they are neither
read from text nor written to it. -/
def numeralLimit : Nat := 4300

/-- The reason given for refusing a numeral of `digits` digits. -/
def numeralLimitMessage (digits : Nat) : String :=
  s!"Exceeds the limit ({numeralLimit} digits) for integer string conversion: value has {digits} digits; use sys.set_int_max_str_digits() to increase the limit"

end ApiSuite.Text
