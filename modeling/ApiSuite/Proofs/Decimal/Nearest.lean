import ApiSuite.Decimal.Exact
import Mathlib

/-!
# The float nearest to a number

Which float a number is rounded to, said by the floats that there are and not by a way to find
it. The finite floats denote, up to their sign, the `ApiSuite.Decimal.IsMagnitude`s: an integer of
53 binary digits times a power of two. A number is rounded to the nearest of them; of two that
are equally near, to the one with the even integer; and to infinity from halfway between the
largest of them and the next power of two on (`ApiSuite.Decimal.Rounds`).

Most magnitudes can be written in several ways, `m · 2 ^ e` with another `m` for another `e`. A
float holds the way that `ApiSuite.Decimal.IsCanonical` describes, and it is that `m` which has
to be even. With it the nearest is the only one (`ApiSuite.Decimal.IsNearest.unique`): two
canonical magnitudes at the same distance on either side of a number are neighbours on one grid,
so that one of their integers is odd.
-/

namespace ApiSuite.Decimal

/-- The numbers that a finite float denotes, up to their sign. -/
def IsMagnitude (r : ℚ) : Prop :=
  ∃ (m : ℕ) (e : ℤ), m < 2 ^ 53 ∧ -1074 ≤ e ∧ e ≤ 971 ∧ r = m * 2 ^ e

/-- The way a float holds the magnitude `m · 2 ^ e`: with all 53 digits, unless it lies too close
to zero. -/
structure IsCanonical (m : ℕ) (e : ℤ) : Prop where
  lt : m < 2 ^ 53
  exponent_ge : -1074 ≤ e
  exponent_le : e ≤ 971
  full : 2 ^ 52 ≤ m ∨ e = -1074

/-- No magnitude is nearer to `q` than `m · 2 ^ e`, and where another one is as near, `m` is
even. -/
structure IsNearest (q : ℚ) (m : ℕ) (e : ℤ) : Prop where
  le : ∀ r, IsMagnitude r → |m * 2 ^ e - q| ≤ |r - q|
  even : ∀ r, IsMagnitude r → r ≠ m * 2 ^ e → |r - q| = |m * 2 ^ e - q| → Even m

/-- From here on numbers are rounded to infinity: halfway between the largest magnitude, with 53
digits one, and the next number on its grid. -/
def overflow : ℚ := (2 ^ 53 - 1 / 2) * 2 ^ (971 : ℤ)

/-- An integer with a sign. -/
def signed (negative : Bool) (n : ℕ) : ℤ := if negative then -n else n

/-- **The float that a number is rounded to**, given its sign and its distance `q` from zero. -/
inductive Rounds (negative : Bool) (q : ℚ) (x : Float) : Prop
  | finite {m : ℕ} {e : ℤ} : q < overflow → IsNearest q m e → signBit x = negative →
      ofFloat x = .finite (signed negative m) e → Rounds negative q x
  | infinite : overflow ≤ q → ofFloat x = .infinite negative → Rounds negative q x

/-! ### Canonical magnitudes -/

section Canonical

variable {m n : ℕ} {e f : ℤ}

theorem two_zpow_pos (e : ℤ) : (0 : ℚ) < 2 ^ e := zpow_pos (by norm_num) e

theorem IsCanonical.isMagnitude (h : IsCanonical m e) : IsMagnitude (m * 2 ^ e) :=
  ⟨m, e, h.lt, h.exponent_ge, h.exponent_le, rfl⟩

/-- A number on a coarse grid lies on every finer one. -/
theorem exists_eq_mul_two_zpow (n : ℕ) (h : e ≤ f) : ∃ k : ℕ, (n : ℚ) * 2 ^ f = k * 2 ^ e := by
  refine ⟨n * 2 ^ (f - e).toNat, ?_⟩
  have hexp : (f : ℤ) = (f - e).toNat + e := by omega
  conv_lhs => rw [hexp, zpow_add₀ (by norm_num : (2 : ℚ) ≠ 0), zpow_natCast]
  push_cast
  ring

/-- What has 53 digits on one grid is below what has as many on a coarser one. -/
theorem mul_two_zpow_lt (hn : n < 2 ^ 53) (hlt : f < e) : (n : ℚ) * 2 ^ f < 2 ^ 52 * 2 ^ e := by
  have hn' : (n : ℚ) < 2 ^ 53 := by exact_mod_cast hn
  calc (n : ℚ) * 2 ^ f < 2 ^ 53 * 2 ^ f := mul_lt_mul_of_pos_right hn' (two_zpow_pos f)
    _ = 2 ^ 52 * 2 ^ (f + 1) := by rw [zpow_add_one₀ (by norm_num)]; ring
    _ ≤ 2 ^ 52 * 2 ^ e :=
        mul_le_mul_of_nonneg_left (zpow_le_zpow_right₀ (by norm_num) hlt) (by norm_num)

/-- What has a smaller exponent than a canonical magnitude is smaller. -/
theorem IsCanonical.lt_of_exponent_lt (h : IsCanonical m e) (hn : n < 2 ^ 53) (hf : -1074 ≤ f)
    (hlt : f < e) : (n : ℚ) * 2 ^ f < m * 2 ^ e := by
  have hm : (2 : ℚ) ^ 52 ≤ m := by exact_mod_cast h.full.resolve_right (by omega)
  exact (mul_two_zpow_lt hn hlt).trans_le (mul_le_mul_of_nonneg_right hm (two_zpow_pos e).le)

/-- A magnitude is written canonically in one way only. -/
theorem IsCanonical.eq_of_eq (h : IsCanonical m e) (h' : IsCanonical n f)
    (heq : (m : ℚ) * 2 ^ e = n * 2 ^ f) : m = n ∧ e = f := by
  rcases lt_trichotomy e f with hlt | rfl | hlt
  · exact absurd heq (h'.lt_of_exponent_lt h.lt h.exponent_ge hlt).ne
  · exact ⟨by exact_mod_cast mul_right_cancel₀ (two_zpow_pos e).ne' heq, rfl⟩
  · exact absurd heq (h.lt_of_exponent_lt h'.lt h'.exponent_ge hlt).ne'

/-- The next point of its own grid is at most the next canonical magnitude. -/
theorem IsCanonical.succ_le (h : IsCanonical m e) (h' : IsCanonical n f)
    (hlt : (m : ℚ) * 2 ^ e < n * 2 ^ f) : ((m + 1 : ℕ) : ℚ) * 2 ^ e ≤ n * 2 ^ f := by
  have hef : e ≤ f := by
    by_contra hc
    exact absurd hlt (h.lt_of_exponent_lt h'.lt h'.exponent_ge (by omega)).not_gt
  obtain ⟨k, hk⟩ := exists_eq_mul_two_zpow n hef
  rw [hk] at hlt ⊢
  have hmk : m < k := by exact_mod_cast lt_of_mul_lt_mul_right hlt (two_zpow_pos e).le
  exact mul_le_mul_of_nonneg_right (by exact_mod_cast hmk) (two_zpow_pos e).le

/-- After an even integer there is another of 53 digits. -/
theorem IsCanonical.succ_of_even (h : IsCanonical m e) (heven : Even m) :
    IsCanonical (m + 1) e where
  lt := by
    have hlt := h.lt
    obtain ⟨k, rfl⟩ := heven
    omega
  exponent_ge := h.exponent_ge
  exponent_le := h.exponent_le
  full := h.full.imp_left fun hle => hle.trans (Nat.le_succ m)

end Canonical

/-! ### The nearest magnitude is the only one -/

section Unique

variable {q : ℚ} {m n : ℕ} {e f : ℤ}

/-- Of two different canonical magnitudes that are nearest to a number, the lower is not even. -/
theorem IsNearest.not_lt (hm : IsCanonical m e) (hn : IsCanonical n f) (h : IsNearest q m e)
    (h' : IsNearest q n f) : ¬(m : ℚ) * 2 ^ e < n * 2 ^ f := by
  intro hlt
  have hdist : |(m : ℚ) * 2 ^ e - q| = |n * 2 ^ f - q| :=
    le_antisymm (h.le _ hn.isMagnitude) (h'.le _ hm.isMagnitude)
  have hmid : q - m * 2 ^ e = n * 2 ^ f - q := by
    rcases abs_eq_abs.mp hdist with heq | heq <;> linarith
  have hevenm : Even m := h.even _ hn.isMagnitude hlt.ne' hdist.symm
  have hevenn : Even n := h'.even _ hm.isMagnitude hlt.ne hdist
  have hsucc := hm.succ_of_even hevenm
  have hle := hm.succ_le hn hlt
  -- between the two there is room for one more, which would be nearer
  have hge : (n : ℚ) * 2 ^ f ≤ ((m + 1 : ℕ) : ℚ) * 2 ^ e := by
    by_contra hc
    have hnear := h.le _ hsucc.isMagnitude
    have hstep : (m : ℚ) * 2 ^ e < ((m + 1 : ℕ) : ℚ) * 2 ^ e :=
      mul_lt_mul_of_pos_right (by exact_mod_cast Nat.lt_succ_self m) (two_zpow_pos e)
    rw [abs_of_nonpos (by linarith), le_abs] at hnear
    rcases hnear with hnear | hnear <;> linarith
  obtain ⟨rfl, -⟩ := hn.eq_of_eq hsucc (le_antisymm hge hle)
  exact (Nat.not_even_iff_odd.mpr hevenm.add_one) hevenn

/-- **There is one nearest magnitude**, the even one of two. -/
theorem IsNearest.unique (hm : IsCanonical m e) (hn : IsCanonical n f) (h : IsNearest q m e)
    (h' : IsNearest q n f) : m = n ∧ e = f := by
  refine hm.eq_of_eq hn ?_
  rcases lt_trichotomy ((m : ℚ) * 2 ^ e) (n * 2 ^ f) with hlt | heq | hlt
  · exact absurd hlt (h.not_lt hm hn h')
  · exact heq
  · exact absurd hlt (h'.not_lt hn hm h)

end Unique

end ApiSuite.Decimal
