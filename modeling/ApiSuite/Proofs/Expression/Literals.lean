import ApiSuite.Proofs.Decimal.Scientific
import ApiSuite.Proofs.Expression.Grammar

/-!
# The values of numerals

A numeral of the grammar denotes one value, and it is the value that the parser computes
(`ApiSuite.Expression.denotes_iff`). For an integer this is place-value notation
(`ApiSuite.Decimal.denotesNat_iff`). For a float it is correct rounding: what is computed is rounded
to the nearest (`ApiSuite.Decimal.rounds_ofParts`), and nothing else is
(`ApiSuite.Decimal.Rounds.unique`).
-/

namespace ApiSuite

namespace Decimal

/-- **Digits with a point and an exponent are read as the float nearest to their number.** -/
theorem rounds_ofParts {negative : Bool} {whole fraction : List Char} {n : ℕ}
    (h : DenotesNat (whole ++ fraction) n) (e : ℤ) :
    Rounds negative (n * 10 ^ (e - fraction.length)) (ofParts negative whole fraction e) := by
  rw [ofParts, (denotesNat_iff.mp h).2]
  exact rounds_withSign negative (rounds_nearest n _)

example : ofParts false ['1'] ['5'] 0 = 1.5 := by decide +kernel

end Decimal

namespace Expression

open Decimal Text

theorem IsNumeral.isDecimalDigit {ds : List Char} (h : IsNumeral ds) :
    ∀ d ∈ ds, isDecimalDigit d :=
  fun d hd => isDecimalDigit_iff.mpr (h.2 d hd)

variable {negative : Bool} {whole : List Char} {fraction : Option (List Char)} {v : Value}

/-- What denotes a value consists of digits. -/
theorem Denotes.areDigits (h : Denotes negative whole fraction v) :
    AreDigits (whole ++ fraction.getD []) := by
  cases h with
  | integer h => simpa using h.areDigits
  | decimal h _ => exact h.areDigits

/-- A number is spelled by digits. -/
theorem areDigits_of_spelled {cs : List Char}
    (h : (Token.number negative whole fraction).Spelled cs) :
    AreDigits (whole ++ fraction.getD []) := by
  cases h with
  | integer hw => simpa using hw.2
  | decimal hw hf => exact hw.2.append hf.2

theorem denotes_numeral (h : AreDigits (whole ++ fraction.getD [])) :
    Denotes negative whole fraction (numeral negative whole fraction) := by
  obtain ⟨n, hn⟩ := h.exists_denotesNat
  cases fraction with
  | none =>
    rw [Option.getD_none, List.append_nil] at hn
    rw [numeral, (denotesNat_iff.mp hn).2]
    exact .integer hn
  | some fraction =>
    have hrounds := @rounds_ofParts negative whole fraction n hn 0
    rw [zero_sub, zpow_neg, zpow_natCast, ← div_eq_mul_inv] at hrounds
    exact .decimal hn hrounds

theorem Denotes.unique {w : Value} (h : Denotes negative whole fraction v)
    (h' : Denotes negative whole fraction w) : v = w := by
  cases h with
  | integer hn =>
    cases h' with
    | integer hn' => rw [hn.unique hn']
  | decimal hn hx =>
    cases h' with
    | decimal hn' hx' =>
      obtain rfl := hn.unique hn'
      rw [hx.unique hx']

/-- **A numeral denotes the value that is computed for it**, and no other. -/
theorem denotes_iff : Denotes negative whole fraction v ↔
    AreDigits (whole ++ fraction.getD []) ∧ v = numeral negative whole fraction := by
  constructor
  · intro h
    exact ⟨h.areDigits, h.unique (denotes_numeral h.areDigits)⟩
  · rintro ⟨hdigits, rfl⟩
    exact denotes_numeral hdigits

example : numeral true ['4', '2'] none = .int (-42) := rfl

end Expression

end ApiSuite
