import ApiSuite.Decimal.Exact

/-!
# The shortest decimal that reads back

A float is written with the fewest significant digits that read back as the same float and,
among the decimals with that many digits, with the one nearest to it. The reals that read
back as `m · 2 ^ e` form an interval around it, which holds its end points exactly when `m`
is even. For one, two, up to seventeen digits the two neighbours of the number on the
decimal grid with that many digits are tried in exact arithmetic; the first grid with a
neighbour in the interval supplies the digits.

The number is then laid out by a `ApiSuite.Decimal.Layout`: which decimal exponents are
written positionally, and how the rest are marked.
-/

namespace ApiSuite.Decimal

/-- A positive rational number. -/
structure Ratio where
  num : Nat
  den : Nat

/-- The number `m · 2 ^ e`. -/
def Ratio.dyadic (m : Nat) (e : Int) : Ratio :=
  ⟨m * twoPow e.toNat, twoPow (-e).toNat⟩

/-- The number divided by `10 ^ k`. -/
def Ratio.scale (r : Ratio) (k : Int) : Ratio :=
  ⟨r.num * tenPow (-k).toNat, r.den * tenPow k.toNat⟩

/-- The number of decimal digits of `n`. -/
def digitCount (n : Nat) : Nat := (Nat.toDigits 10 n).length

/-- A number lies below the power of ten that its digits leave out. -/
theorem lt_tenPow_digitCount (n : Nat) : n < tenPow (digitCount n) :=
  (Nat.length_toDigits_le_iff (by decide) Nat.length_toDigits_pos).mp (Nat.le_refl _)

/-- A positive number is at least the power of ten at its first digit. -/
theorem tenPow_digitCount_le {n : Nat} (h : n ≠ 0) : tenPow (digitCount n - 1) ≤ n := by
  rcases Nat.eq_zero_or_pos (digitCount n - 1) with hzero | hpos
  · rw [hzero]
    exact Nat.one_le_iff_ne_zero.mpr h
  · have hlong : ¬(Nat.toDigits 10 n).length ≤ digitCount n - 1 := by
      rw [digitCount] at hpos ⊢
      omega
    rw [Nat.length_toDigits_le_iff (by decide) hpos] at hlong
    exact Nat.le_of_not_lt hlong

/-- The least `j ≥ 1` with `num · 10 ^ j ≥ den`, searched up to `fuel` places. -/
def leadingPlace (num den : Nat) : Nat → Nat → Nat
  | 0, j => j
  | fuel + 1, j => if den ≤ num * tenPow j then j else leadingPlace num den fuel (j + 1)

/-- The decimal exponent of a positive number: the place of its first digit. -/
def Ratio.place (r : Ratio) : Int :=
  if r.den ≤ r.num then (digitCount (r.num / r.den) : Int) - 1
  else -(leadingPlace r.num r.den 400 1 : Int)

/-- The interval of numbers that read back as a float, with the float itself; all three are
multiples of one unit. -/
structure Span where
  low : Nat
  value : Nat
  high : Nat
  closed : Bool
  unit : Ratio

/-- The interval of the float `m · 2 ^ e`. Below a power of two the floats lie twice as
dense, so that the lower half-gap is a quarter there. -/
def Span.of (m : Nat) (e : Int) : Span where
  low := if m == twoPow 52 && e > -1074 then 4 * m - 1 else 4 * m - 2
  value := 4 * m
  high := 4 * m + 2
  closed := m % 2 == 0
  unit := Ratio.dyadic 1 (e - 2)

/-- Whether the grid point `c`, in multiples of the unit's numerator over `grid`, lies in the
interval. -/
def Span.holds (s : Span) (unit : Ratio) (c : Nat) : Bool :=
  let point := c * unit.den
  if s.closed then s.low * unit.num ≤ point && point ≤ s.high * unit.num
  else s.low * unit.num < point && point < s.high * unit.num

/-- The neighbour of the float on the grid `10 ^ k` that reads back as it, the nearer one if
both do, and the even one at equal distance. -/
def Span.neighbour? (s : Span) (k : Int) : Option Nat :=
  let unit := s.unit.scale k
  let exact := s.value * unit.num
  let below := exact / unit.den
  let rest := exact - below * unit.den
  let above := below + 1
  match s.holds unit below && below != 0, s.holds unit above with
  | true, true =>
    if 2 * rest < unit.den || (2 * rest == unit.den && below % 2 == 0) then some below
    else some above
  | true, false => some below
  | false, true => some above
  | false, false => none

/-- The digits found on the first grid with a hit, from `n` digits on, and the exponent of
that grid. -/
def Span.search (s : Span) (place : Int) : Nat → Nat → Nat × Int
  | 0, n => (s.value * (s.unit.scale (place + 1 - n)).num / (s.unit.scale (place + 1 - n)).den,
      place + 1 - n)
  | fuel + 1, n =>
    match s.neighbour? (place + 1 - n) with
    | some c => (c, place + 1 - n)
    | none => s.search place fuel (n + 1)

/-- The significant digits of a positive float and the place of the first of them. -/
def shortest (m : Nat) (e : Int) : List Char × Int :=
  let place := (Ratio.dyadic m e).place
  let (c, k) := (Span.of m e).search place 17 1
  let digits := Nat.toDigits 10 c
  let kept := (digits.reverse.dropWhile (· == '0')).reverse
  (kept, k + digits.length - 1)

/-- How a float is laid out around its digits. -/
structure Layout where
  /-- The decimal exponents written positionally, as a half-open range. -/
  positional : Int × Int
  /-- The fewest digits of a written exponent. -/
  exponentWidth : Nat
  /-- The texts of infinity and of what is no number. -/
  infinity : String
  notANumber : String

/-- A run of `n` zeros. -/
def zeros (n : Nat) : List Char := List.replicate n '0'

/-- The digits of a positive number laid out. -/
def Layout.digits (l : Layout) (ds : List Char) (place : Int) : List Char :=
  if l.positional.1 ≤ place && place < l.positional.2 then
    if place < 0 then '0' :: '.' :: zeros (-place - 1).toNat ++ ds
    else
      let whole := place.toNat + 1
      if ds.length ≤ whole then ds ++ zeros (whole - ds.length) ++ ['.', '0']
      else ds.take whole ++ '.' :: ds.drop whole
  else
    let mark := if place < 0 then ['e', '-'] else ['e', '+']
    let power := Nat.toDigits 10 place.natAbs
    let mantissa :=
      match ds with
      | [] => []
      | [d] => [d]
      | d :: more => d :: '.' :: more
    mantissa ++ mark ++ zeros (l.exponentWidth - power.length) ++ power

/-- A float as text. -/
def Layout.render (l : Layout) (x : Float) : String :=
  match ofFloat x with
  | .notANumber => l.notANumber
  | .infinite negative => if negative then "-" ++ l.infinity else l.infinity
  | .finite m e =>
    let body :=
      if m == 0 then ['0', '.', '0']
      else
        let (ds, place) := shortest m.natAbs e
        l.digits ds place
    String.ofList (if signBit x then '-' :: body else body)

/-- Numbers from a ten-thousandth up to ten thousand million millions are written
positionally, always with a fraction; exponents have at least two digits. -/
def plain : Layout where
  positional := (-4, 16)
  exponentWidth := 2
  infinity := "inf"
  notANumber := "nan"

end ApiSuite.Decimal
