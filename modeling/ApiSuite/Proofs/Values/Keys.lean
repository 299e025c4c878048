import ApiSuite.Value.Order
import Mathlib.Data.Int.Cast.Lemmas
import Mathlib.Data.Rat.Lemmas
import Mathlib.Algebra.Order.Field.Power

/-!
# When two keys are the same

The keys of documents are scalars, and two of them are the same if they denote the same thing:
texts, octets and days if they are equal, times if they fall on one instant, and truth values,
integers and floats if they are one number. Each scalar has a **canonical key**
(`ApiSuite.Value.key?`), a number for whatever denotes it, and two scalars are the same exactly if
their canonical keys are equal (`ApiSuite.Value.same_iff`). So being the same is an equivalence on
scalars, which is what an object needs to have one entry a key.
-/

namespace ApiSuite

namespace Decimal

/-- What a quantity is on the line of numbers. -/
inductive Point where
  | notANumber
  | infinite (negative : Bool)
  | finite (q : ℚ)

/-- The point of a quantity. -/
def Quantity.point : Quantity → Point
  | .notANumber => .notANumber
  | .infinite negative => .infinite negative
  | .finite m e => .finite (m * 2 ^ e)

theorem pow_sub_mul {e low : ℤ} (h : low ≤ e) :
    ((2 : ℚ) ^ (e - low).toNat) * 2 ^ low = 2 ^ e := by
  rw [← zpow_natCast, ← zpow_add₀ two_ne_zero, Int.toNat_of_nonneg (by omega)]
  congr 1
  omega

theorem cast_scaled {m e low : ℤ} (h : low ≤ e) :
    ((m * twoPow (e - low).toNat : ℤ) : ℚ) * 2 ^ low = m * 2 ^ e := by
  rw [← pow_sub_mul h, ← mul_assoc]
  simp [twoPow]

/-- **Brought to one exponent, two quantities are equal exactly if they are one number.** -/
theorem scaled_eq_iff (m n e f : ℤ) :
    m * twoPow (e - min e f).toNat = n * twoPow (f - min e f).toNat ↔
      (m : ℚ) * 2 ^ e = n * 2 ^ f := by
  have hpos : (2 : ℚ) ^ min e f ≠ 0 := zpow_ne_zero _ two_ne_zero
  rw [← cast_scaled (min_le_left e f), ← cast_scaled (min_le_right e f), mul_left_inj' hpos,
    Int.cast_inj]

theorem compare?_eq_iff {p q : Quantity} (hp : p ≠ .notANumber) :
    p.compare? q = some .eq ↔ p.point = q.point := by
  cases p with
  | notANumber => exact absurd rfl hp
  | infinite a =>
    cases q with
    | infinite b => cases a <;> cases b <;> simp [Quantity.compare?, Quantity.point]
    | _ => cases a <;> simp [Quantity.compare?, Quantity.point]
  | finite m e =>
    cases q with
    | notANumber => simp [Quantity.compare?, Quantity.point]
    | infinite b => cases b <;> simp [Quantity.compare?, Quantity.point]
    | finite n f =>
      simp only [Quantity.compare?, Quantity.point, Option.some.injEq, compare_eq_iff_eq,
        scaled_eq_iff, Point.finite.injEq]

end Decimal

namespace Value

open Decimal

theorem sameNumber_iff {p q : Quantity} : sameNumber p q ↔ p.point = q.point := by
  cases p with
  | notANumber => cases q <;> simp [sameNumber, Quantity.compare?, Quantity.point]
  | infinite a =>
    rw [sameNumber, beq_iff_eq, compare?_eq_iff (by simp)]
    simp
  | finite m e =>
    rw [sameNumber, beq_iff_eq, compare?_eq_iff (by simp)]
    simp

/-- What a scalar denotes. -/
inductive Key where
  | null
  | number (p : Point)
  | text (s : String)
  | octets (bytes : List UInt8)
  | day (d : Date)
  | time (zoned : Bool) (instant : Int)

/-- The canonical key of a scalar; a collection has none. -/
def key? : Value → Option Key
  | .null => some .null
  | .bool b => some (.number (ofInt (if b then 1 else 0)).point)
  | .int n => some (.number (ofInt n).point)
  | .float x => some (.number (ofFloat x).point)
  | .str s => some (.text s)
  | .bytes octets => some (.octets octets)
  | .date d => some (.day d)
  | .datetime t => some (.time t.offset.isSome t.instant)
  | .list _ | .tuple _ | .set _ | .object _ => none

/-- A value is a scalar. -/
def IsScalar (v : Value) : Prop := v.key? ≠ none

theorem compare?_datetime_iff {s t : DateTime} :
    s.compare? t = some .eq ↔ s.offset.isSome = t.offset.isSome ∧ s.instant = t.instant := by
  simp [DateTime.compare?]

/-- **Two scalars are the same** exactly if their canonical keys are equal. -/
theorem same_iff {a b : Value} (h : a.IsScalar) : same a b ↔ a.key? = b.key? := by
  cases a with
  | bool c => cases b <;> simp [same, sameAsNumber, number?, key?, sameNumber_iff]
  | int n => cases b <;> simp [same, sameAsNumber, number?, key?, sameNumber_iff]
  | float x => cases b <;> simp [same, sameAsNumber, number?, key?, sameNumber_iff]
  | datetime t => cases b <;> simp [same, key?, compare?_datetime_iff]
  | list | tuple | set | object => exact absurd rfl h
  | _ => cases b <;> simp [same, key?]

end Value

end ApiSuite
