import ApiSuite.Decimal.Reading
import Mathlib.Data.List.Forall2
import Mathlib.Data.List.Pairwise
import Mathlib.Data.Nat.Digits.Defs
import Mathlib.Tactic.Ring

/-!
# What digits denote

A digit of any script stands `d` places after the digit zero of that script
(`ApiSuite.Decimal.IsDigit`), and a run of digits denotes the number in which each of them counts
ten times as much as the next one (`ApiSuite.Decimal.DenotesNat`). Reading a run from left to right
(`ApiSuite.Decimal.digitsValue`) comes to that number: the digits zero of the scripts lie at least
ten apart, so that a character is a digit of one script only.
-/

namespace ApiSuite.Decimal

open Text

/-- A character that is the digit `d` of some script. -/
def IsDigit (c : Char) (d : ℕ) : Prop := d < 10 ∧ ∃ z ∈ digitZeros, c.toNat = z + d

/-- Digits, with the number that they denote in place-value notation. -/
def DenotesNat (cs : List Char) (n : ℕ) : Prop :=
  ∃ ds, List.Forall₂ IsDigit cs ds ∧ n = Nat.ofDigits 10 ds.reverse

/-- Digits only. -/
def AreDigits (cs : List Char) : Prop := ∀ c ∈ cs, ∃ d, IsDigit c d

/-! ### One digit -/

theorem pairwise_digitZeros : digitZeros.Pairwise fun x y => x + 10 ≤ y := by
  decide +kernel

/-- No two scripts have a digit in common. -/
theorem eq_of_mem_digitZeros : ∀ ⦃x⦄, x ∈ digitZeros → ∀ ⦃y⦄, y ∈ digitZeros →
    x < y + 10 → y < x + 10 → x = y := by
  refine List.Pairwise.forall_of_forall_of_flip (fun _ _ _ _ => rfl) ?_ ?_
  · exact pairwise_digitZeros.imp fun h _ _ => by omega
  · exact pairwise_digitZeros.imp fun h => show _ < _ → _ < _ → _ from fun _ _ => by omega

theorem decimalDigit?_eq_some_iff {c : Char} {d : ℕ} :
    decimalDigit? c = some d ↔ IsDigit c d := by
  unfold decimalDigit?
  rw [Option.map_eq_some_iff]
  constructor
  · rintro ⟨z, hfind, rfl⟩
    have hrange := List.find?_some hfind
    simp only [Bool.and_eq_true, decide_eq_true_eq] at hrange
    exact ⟨by omega, z, List.mem_of_find?_eq_some hfind, by omega⟩
  · rintro ⟨hd, z, hz, hc⟩
    have hsome : (digitZeros.find? fun z => z ≤ c.toNat && c.toNat ≤ z + 9).isSome := by
      rw [List.find?_isSome]
      exact ⟨z, hz, by simp only [Bool.and_eq_true, decide_eq_true_eq]; omega⟩
    obtain ⟨z', hfind⟩ := Option.isSome_iff_exists.mp hsome
    have hrange := List.find?_some hfind
    simp only [Bool.and_eq_true, decide_eq_true_eq] at hrange
    obtain rfl := eq_of_mem_digitZeros (List.mem_of_find?_eq_some hfind) hz (by omega) (by omega)
    exact ⟨z', hfind, by omega⟩

theorem isDecimalDigit_iff {c : Char} : isDecimalDigit c ↔ ∃ d, IsDigit c d := by
  simp only [isDecimalDigit, Option.isSome_iff_exists, decimalDigit?_eq_some_iff]

/-! ### A run of digits -/

theorem decimalDigit?_eq_none_iff {c : Char} : decimalDigit? c = none ↔ ∀ d, ¬IsDigit c d := by
  simp only [Option.eq_none_iff_forall_ne_some, ne_eq, decimalDigit?_eq_some_iff]

/-- Each digit that is read makes ten times as much of what has been read before it. -/
theorem foldDigits?_eq_some_iff {acc n : ℕ} {cs : List Char} :
    foldDigits? acc cs = some n ↔ ∃ ds, List.Forall₂ IsDigit cs ds ∧
      n = acc * 10 ^ ds.length + Nat.ofDigits 10 ds.reverse := by
  induction cs generalizing acc with
  | nil => simp [foldDigits?, eq_comm]
  | cons c cs ih =>
    have hplace (d : ℕ) (ds : List ℕ) :
        (10 * acc + d) * 10 ^ ds.length + Nat.ofDigits 10 ds.reverse =
          acc * 10 ^ (d :: ds).length + Nat.ofDigits 10 (d :: ds).reverse := by
      rw [List.reverse_cons, Nat.ofDigits_append, Nat.ofDigits_singleton, List.length_reverse,
        List.length_cons, pow_succ]
      ring
    rw [foldDigits?]
    cases hc : decimalDigit? c with
    | none =>
      rw [decimalDigit?_eq_none_iff] at hc
      simp only [reduceCtorEq, false_iff]
      rintro ⟨ds, hall, -⟩
      cases hall with
      | cons hd _ => exact hc _ hd
    | some d =>
      rw [decimalDigit?_eq_some_iff] at hc
      simp only [ih]
      constructor
      · rintro ⟨ds, hall, rfl⟩
        exact ⟨d :: ds, .cons hc hall, hplace d ds⟩
      · rintro ⟨ds, hall, rfl⟩
        cases hall with
        | @cons _ d' _ ds hd hall =>
          obtain rfl : d = d' := by
            rw [← decimalDigit?_eq_some_iff] at hc hd
            exact Option.some.inj (hc.symm.trans hd)
          exact ⟨ds, hall, (hplace d ds).symm⟩

theorem foldDigits?_zero_eq_some_iff {cs : List Char} {n : ℕ} :
    foldDigits? 0 cs = some n ↔ DenotesNat cs n := by
  simp only [foldDigits?_eq_some_iff, zero_mul, zero_add]
  rfl

theorem AreDigits.exists_denotesNat {cs : List Char} (h : AreDigits cs) : ∃ n, DenotesNat cs n := by
  induction cs with
  | nil => exact ⟨_, [], .nil, rfl⟩
  | cons c cs ih =>
    obtain ⟨hc, hcs⟩ := List.forall_mem_cons.mp h
    obtain ⟨d, hd⟩ := hc
    obtain ⟨-, ds, hds, -⟩ := ih hcs
    exact ⟨_, d :: ds, .cons hd hds, rfl⟩

theorem DenotesNat.areDigits {cs : List Char} {n : ℕ} (h : DenotesNat cs n) : AreDigits cs := by
  obtain ⟨ds, hall, -⟩ := h
  induction hall with
  | nil => exact fun c hc => absurd hc List.not_mem_nil
  | cons hd _ ih => exact List.forall_mem_cons.mpr ⟨⟨_, hd⟩, ih⟩

theorem AreDigits.append {cs ds : List Char} (hcs : AreDigits cs) (hds : AreDigits ds) :
    AreDigits (cs ++ ds) :=
  List.forall_mem_append.mpr ⟨hcs, hds⟩

/-- **A run of digits is read as the number that it denotes.** -/
theorem denotesNat_iff {cs : List Char} {n : ℕ} :
    DenotesNat cs n ↔ AreDigits cs ∧ digitsValue cs = n := by
  constructor
  · intro h
    refine ⟨h.areDigits, ?_⟩
    rw [digitsValue, foldDigits?_zero_eq_some_iff.mpr h, Option.getD_some]
  · rintro ⟨hdigits, rfl⟩
    obtain ⟨n, h⟩ := hdigits.exists_denotesNat
    rwa [digitsValue, foldDigits?_zero_eq_some_iff.mpr h, Option.getD_some]

theorem DenotesNat.unique {cs : List Char} {m n : ℕ} (h : DenotesNat cs m) (h' : DenotesNat cs n) :
    m = n :=
  (denotesNat_iff.mp h).2.symm.trans (denotesNat_iff.mp h').2

end ApiSuite.Decimal
