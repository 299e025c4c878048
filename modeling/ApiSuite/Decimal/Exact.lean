/-!
# Exact comparison of integers and floats

An integer and a float are compared by the numbers they denote, never by rounding one of
them to the type of the other. Each is read as a `ApiSuite.Decimal.Quantity`: not a number, an
infinity, or `m · 2 ^ e` with an integer `m`. Two such numbers are brought to the smaller of
their exponents and their integer parts compared.
-/

namespace ApiSuite.Decimal

/-- What a float or an integer denotes. -/
inductive Quantity where
  | notANumber
  | infinite (negative : Bool)
  /-- The number `m · 2 ^ e`. -/
  | finite (m : Int) (e : Int)

/-- A power of two. -/
def twoPow (n : Nat) : Nat := Nat.pow 2 n

/-- A power of ten. -/
def tenPow (n : Nat) : Nat := Nat.pow 10 n

/-- The sign bit of a float. -/
def signBit (x : Float) : Bool :=
  x.toBits >>> 63 == 1

/-- What a float denotes, read off its sign, exponent and fraction bits. -/
def ofFloat (x : Float) : Quantity :=
  let bits : Nat := x.toBits.toNat
  let negative := bits / twoPow 63 % 2 == 1
  let biased : Nat := bits / twoPow 52 % 2048
  let fraction : Nat := bits % twoPow 52
  let signed (n : Nat) : Int := if negative then -(n : Int) else (n : Int)
  if biased == 2047 then
    if fraction == 0 then .infinite negative else .notANumber
  else if biased == 0 then .finite (signed fraction) (-1074)
  else .finite (signed (twoPow 52 + fraction)) ((biased : Int) - 1075)

/-- What an integer denotes. -/
def ofInt (n : Int) : Quantity := .finite n 0

/-- The order of two numbers; `none` when one of them is not a number. -/
def Quantity.compare? : Quantity → Quantity → Option Ordering
  | .notANumber, _ => none
  | _, .notANumber => none
  | .infinite a, .infinite b =>
    some (if a == b then .eq else if a then .lt else .gt)
  | .infinite a, .finite _ _ => some (if a then .lt else .gt)
  | .finite _ _, .infinite b => some (if b then .gt else .lt)
  | .finite m e, .finite n f =>
    let low := min e f
    some (compare (m * twoPow (e - low).toNat) (n * twoPow (f - low).toNat))

/-- A float that denotes an integer, as that integer. -/
def toInt? (x : Float) : Option Int :=
  match ofFloat x with
  | .finite m e =>
    if 0 ≤ e then some (m * twoPow e.toNat)
    else if m % twoPow (-e).toNat == 0 then some (m / twoPow (-e).toNat) else none
  | _ => none

end ApiSuite.Decimal
