import ApiSuite.Decimal.Reading
import ApiSuite.Proofs.Decimal.Rounding

/-!
# Decimal numerals to the nearest float

A numeral is a mantissa and a power of ten, and the float that is computed for it is the one
nearest to `m · 10 ^ e` (`ApiSuite.Decimal.rounds_nearest`). The computation has several ways to
it. A numeral that is out of range by the count of its digits alone is infinite or zero. A small
mantissa and a small power of ten are floats themselves, and one multiplication or one division is
all that is rounded (`ApiSuite.Decimal.rounds_small`). Any other is multiplied or divided without
limits, and then rounded (`ApiSuite.Decimal.rounds_model_ofScientific`).

In each of them one number is rounded once, so that nothing is lost on the way. A product of exact
mantissas is exact, and a quotient stands where its remainder says
(`ApiSuite.Decimal.stands_div`).
-/

namespace ApiSuite.Decimal

open Float.Model Float.Model.UnpackedFloat

/-! ### Products and quotients -/

section Arithmetic

variable {m₁ m₂ m : ℕ} {e₁ e₂ e : ℤ}

theorem rounds_mul (h₁ : 0 < m₁) (h₂ : 0 < m₂) (hlong : 2 ^ 52 ≤ m₁) :
    Rounds false (m₁ * 2 ^ e₁ * (m₂ * 2 ^ e₂))
      (packed (mul Format.binary64 (.finite .positive m₁ e₁ h₁) (.finite .positive m₂ e₂ h₂))) := by
  have hlog : 52 ≤ (m₁ * m₂).log2 :=
    (Nat.le_log2 (Nat.mul_pos h₁ h₂).ne').mpr (hlong.trans (Nat.le_mul_of_pos_right m₁ h₂))
  have hvalue : (m₁ : ℚ) * 2 ^ e₁ * (m₂ * 2 ^ e₂) = (m₁ * m₂ : ℕ) * 2 ^ (e₁ + e₂) := by
    rw [zpow_add₀ (by norm_num)]
    push_cast
    ring
  rw [hvalue]
  exact rounds_roundWithAccuracy (.exact rfl) (.inl hlog)

/-- A quotient of integers stands where its remainder says. -/
theorem stands_div (m : ℕ) {n : ℕ} (hn : 0 < n) :
    Stands (m / n) ((m : ℚ) / n) (accuracyOfFraction (m % n) n) := by
  have hn' : (0 : ℚ) < n := by exact_mod_cast hn
  have hm : (m : ℚ) / n = (m / n : ℕ) + (m % n : ℕ) / n := by
    have : (m : ℚ) = n * (m / n : ℕ) + (m % n : ℕ) := by exact_mod_cast (Nat.div_add_mod m n).symm
    rw [this]
    field_simp
  have hrest : ((m % n : ℕ) : ℚ) / n < 1 := by
    rw [div_lt_one hn']
    exact_mod_cast Nat.mod_lt m hn
  unfold accuracyOfFraction
  split
  · rename_i hzero
    exact .exact (by rw [hm, hzero, Nat.cast_zero, zero_div, add_zero])
  · rename_i hne
    have hpos : 0 < ((m % n : ℕ) : ℚ) / n :=
      div_pos (by exact_mod_cast Nat.pos_of_ne_zero hne) hn'
    rcases lt_trichotomy (2 * (m % n)) n with hlt | heq | hgt
    · have hhalf : ((m % n : ℕ) : ℚ) / n < 1 / 2 := by
        rw [div_lt_div_iff₀ hn' two_pos]
        exact_mod_cast (by omega : m % n * 2 < 1 * n)
      rw [Nat.compare_eq_lt.mpr hlt]
      exact .belowHalf (by linarith) (by linarith)
    · have hhalf : ((m % n : ℕ) : ℚ) / n = 1 / 2 := by
        rw [div_eq_div_iff hn'.ne' two_ne_zero]
        exact_mod_cast (by omega : m % n * 2 = 1 * n)
      rw [Nat.compare_eq_eq.mpr heq]
      exact .half (by linarith)
    · have hhalf : 1 / 2 < ((m % n : ℕ) : ℚ) / n := by
        rw [div_lt_div_iff₀ two_pos hn']
        exact_mod_cast (by omega : 1 * n < m % n * 2)
      rw [Nat.compare_eq_gt.mpr hgt]
      exact .aboveHalf (by linarith) (by linarith)

theorem rounds_div (h₁ : 0 < m₁) (h₂ : 0 < m₂) :
    Rounds false (m₁ * 2 ^ e₁ / (m₂ * 2 ^ e₂))
      (packed (div Format.binary64 (.finite .positive m₁ e₁ h₁) (.finite .positive m₂ e₂ h₂))) := by
  obtain ⟨t, ht⟩ : ∃ t, t = min (e₁ - e₂) (Format.binary64.targetExponent
    (totalExponent m₁ e₁ - totalExponent m₂ e₂)) := ⟨_, rfl⟩
  obtain ⟨n, hn⟩ : ∃ n : ℕ, n = (e₁ - e₂ - t).toNat := ⟨_, rfl⟩
  have hdiv : div Format.binary64 (.finite .positive m₁ e₁ h₁) (.finite .positive m₂ e₂ h₂) =
      roundWithAccuracy Format.binary64 .positive (m₁ * 2 ^ n / m₂) t
        (accuracyOfFraction (m₁ * 2 ^ n % m₂) m₂) := by
    rw [UnpackedFloat.div, divCore, ← ht, ← hn, Nat.shiftLeft_eq]
    rfl
  have hvalue : (m₁ : ℚ) * 2 ^ e₁ / (m₂ * 2 ^ e₂) = (m₁ * 2 ^ n : ℕ) / m₂ * 2 ^ t := by
    have hexp : (2 : ℚ) ^ e₁ = 2 ^ t * 2 ^ n * 2 ^ e₂ := by
      rw [← zpow_natCast, ← zpow_add₀ (by norm_num), ← zpow_add₀ (by norm_num)]
      congr 1
      omega
    have hpos := two_zpow_pos e₂
    rw [hexp]
    push_cast
    field_simp
  have hlong : 52 ≤ (m₁ * 2 ^ n / m₂).log2 ∨ t ≤ -1074 := by
    rw [targetExponent_eq, totalExponent, totalExponent] at ht
    rcases le_or_gt t (-1074) with hle | hgt
    · exact .inr hle
    · have hquotient : 2 ^ 52 ≤ m₁ * 2 ^ n / m₂ := by
        rw [Nat.le_div_iff_mul_le h₂]
        calc 2 ^ 52 * m₂ ≤ 2 ^ 52 * 2 ^ (m₂.log2 + 1) :=
              Nat.mul_le_mul_left _ Nat.lt_log2_self.le
          _ = 2 ^ (52 + (m₂.log2 + 1)) := (Nat.pow_add 2 _ _).symm
          _ ≤ 2 ^ (m₁.log2 + n) := Nat.pow_le_pow_right two_pos (by omega)
          _ = 2 ^ m₁.log2 * 2 ^ n := Nat.pow_add 2 _ _
          _ ≤ m₁ * 2 ^ n := Nat.mul_le_mul_right _ (Nat.log2_self_le h₁.ne')
      exact .inl ((Nat.le_log2 (lt_of_lt_of_le (by decide) hquotient).ne').mpr hquotient)
  rw [hdiv, hvalue]
  exact rounds_roundWithAccuracy (stands_div _ h₂) hlong

/-- An integer is first brought to as many digits as fit. -/
theorem rounds_round (hm : 0 < m) :
    Rounds false m (packed (UnpackedFloat.round Format.binary64 .positive m 0)) := by
  obtain ⟨n, hn⟩ : ∃ n : ℕ, n = 52 - m.log2 := ⟨_, rfl⟩
  have hround : UnpackedFloat.round Format.binary64 .positive m 0 =
      roundWithAccuracy Format.binary64 .positive (m * 2 ^ n) (-n) .exact := by
    have hshift : (0 - max (totalExponent m 0 - 53) (-1074)).toNat = n := by
      rw [totalExponent]
      omega
    rw [UnpackedFloat.round, targetExponent_eq, decreaseExponent, hshift, Nat.shiftLeft_eq,
      zero_sub]
  have hlong : 52 ≤ (m * 2 ^ n).log2 := by
    rw [Nat.le_log2 (by positivity)]
    calc 2 ^ 52 ≤ 2 ^ (m.log2 + n) := Nat.pow_le_pow_right two_pos (by omega)
      _ = 2 ^ m.log2 * 2 ^ n := Nat.pow_add 2 _ _
      _ ≤ m * 2 ^ n := Nat.mul_le_mul_right _ (Nat.log2_self_le hm.ne')
  have hvalue : (m : ℚ) = (m * 2 ^ n : ℕ) * 2 ^ (-n : ℤ) := by
    rw [zpow_neg, zpow_natCast]
    push_cast
    field_simp
  rw [hround, hvalue]
  exact rounds_roundWithAccuracy (.exact rfl) (.inl hlong)

end Arithmetic

/-! ### Out of range -/

section Range

variable {q r : ℚ}

theorem rounds_infinity (h : 2 ^ (1024 : ℤ) ≤ q) : Rounds false q infinity := by
  refine .infinite (le_trans ?_ h) rfl
  calc overflow ≤ 2 ^ 53 * 2 ^ (971 : ℤ) :=
        mul_le_mul_of_nonneg_right (by norm_num) (two_zpow_pos _).le
    _ = 2 ^ (1024 : ℤ) := by
        rw [← zpow_natCast, ← zpow_add₀ (by norm_num)]
        rfl

theorem rounds_zero (hpos : 0 ≤ q) (h : q ≤ 2 ^ (-1075 : ℤ)) : Rounds false q 0.0 := by
  have hq : q = q * 2 ^ (1074 : ℤ) * 2 ^ (-1074 : ℤ) := by
    rw [mul_assoc, ← zpow_add₀ (by norm_num)]
    norm_num
  have hle : q * 2 ^ (1074 : ℤ) ≤ 1 / 2 := by
    calc q * 2 ^ (1074 : ℤ) ≤ 2 ^ (-1075 : ℤ) * 2 ^ (1074 : ℤ) :=
          mul_le_mul_of_nonneg_right h (two_zpow_pos _).le
      _ = 1 / 2 := by
          rw [← zpow_add₀ (by norm_num)]
          norm_num
  have hint : IsNearestInt (q * 2 ^ (1074 : ℤ)) 0 := by
    refine ⟨?_, fun _ => Even.zero⟩
    rw [Nat.cast_zero, zero_sub, abs_neg, abs_of_nonneg (mul_nonneg hpos (two_zpow_pos _).le)]
    exact hle
  have hzero : packed (carried 0 (-1074)) = 0.0 := by decide +kernel
  rw [hq, ← hzero]
  exact rounds_packed_carried (by decide) hint (by linarith) (.inr rfl)

end Range

/-! ### Decimal exponents -/

section Scientific

variable {q : ℚ} {m : ℕ} {e : ℤ}

theorem two_zpow_le_ten_zpow (h : 0 ≤ e) : (2 : ℚ) ^ (3 * e) ≤ 10 ^ e := by
  rw [zpow_mul]
  exact zpow_le_zpow_left₀ h (by norm_num) (by norm_num)

theorem ten_zpow_le_two_zpow (h : e ≤ 0) : (10 : ℚ) ^ e ≤ 2 ^ (3 * e) := by
  have hinv := inv_anti₀ (two_zpow_pos _) (two_zpow_le_ten_zpow (Int.neg_nonneg.mpr h))
  rwa [zpow_neg, inv_inv, mul_neg, zpow_neg, inv_inv] at hinv

theorem rounds_infinity_of_ten_zpow_le (he : 1024 ≤ 3 * e) (h : 10 ^ e ≤ q) :
    Rounds false q infinity := by
  refine rounds_infinity ?_
  calc (2 : ℚ) ^ (1024 : ℤ) ≤ 2 ^ (3 * e) := zpow_le_zpow_right₀ (by norm_num) he
    _ ≤ 10 ^ e := two_zpow_le_ten_zpow (by omega)
    _ ≤ q := h

/-- **A decimal mantissa with an exponent is rounded to the nearest float.** -/
theorem rounds_model_ofScientific (hm : 0 < m) :
    Rounds false (m * 10 ^ e) (Float.ofModel (Float.Model.ofScientific m e)) := by
  change Rounds false _ (packed (UnpackedFloat.ofScientific Format.binary64 m e))
  have hbits : (2 : ℤ) ^ Format.binary64.exponentBits = 2048 := by norm_num
  unfold UnpackedFloat.ofScientific
  rw [dif_neg hm.ne', hbits]
  split
  · rename_i hlarge
    have hinfinity : packed (.infinity .positive) = infinity := by decide +kernel
    have hle : (10 : ℚ) ^ e ≤ m * 10 ^ e :=
      le_mul_of_one_le_left (by positivity) (by exact_mod_cast hm)
    rw [hinfinity]
    exact rounds_infinity_of_ten_zpow_le (by omega) hle
  split
  · rename_i hsmall
    have hzero : packed (.zero .positive) = 0.0 := by decide +kernel
    rw [hzero]
    refine rounds_zero (by positivity) ?_
    have hm2 : (m : ℚ) ≤ 2 ^ ((m.log2 : ℤ) + 1) := by
      exact_mod_cast (Nat.lt_log2_self (n := m)).le
    calc (m : ℚ) * 10 ^ e ≤ 2 ^ ((m.log2 : ℤ) + 1) * 2 ^ (3 * e) :=
          mul_le_mul hm2 (ten_zpow_le_two_zpow (by omega)) (by positivity) (by positivity)
      _ = 2 ^ ((m.log2 : ℤ) + 1 + 3 * e) := (zpow_add₀ (by norm_num) _ _).symm
      _ ≤ 2 ^ (-1075 : ℤ) := zpow_le_zpow_right₀ (by norm_num) (by omega)
  split
  · rename_i hnonneg
    have hpower : ((10 ^ e.toNat : ℕ) : ℚ) = 10 ^ e := by
      rw [Nat.cast_pow, ← zpow_natCast, Int.toNat_of_nonneg hnonneg]
      rfl
    have hshift : ((m <<< 53 : ℕ) : ℚ) * 2 ^ (-53 : ℤ) = m := by
      rw [Nat.shiftLeft_eq, Nat.cast_mul, mul_assoc]
      norm_num
    have hround := @rounds_mul (m <<< 53) (10 ^ e.toNat) (-53) 0
      (by rw [Nat.shiftLeft_eq]; omega) (by positivity) (by rw [Nat.shiftLeft_eq]; omega)
    rwa [hshift, hpower, zpow_zero, mul_one] at hround
  · rename_i hneg
    have hpower : ((10 ^ (-e).toNat : ℕ) : ℚ) = (10 ^ e)⁻¹ := by
      rw [Nat.cast_pow, ← zpow_natCast, Int.toNat_of_nonneg (by omega), ← zpow_neg]
      rfl
    have hround := @rounds_div m (10 ^ (-e).toNat) 0 0 hm (by positivity)
    rwa [hpower, zpow_zero, mul_one, mul_one, div_inv_eq_mul] at hround

end Scientific

/-! ### Small mantissas and exponents -/

section Small

variable {q : ℚ} {x : Float} {m k : ℕ}

theorem IsMagnitude.lt_overflow (h : IsMagnitude q) : q < overflow := by
  obtain ⟨m, e, hm, -, he, rfl⟩ := h
  have hm' : (m : ℚ) + 1 ≤ 2 ^ 53 := by exact_mod_cast hm
  exact lt_overflow_of_half (by linarith) he

/-- A magnitude is rounded to itself. -/
theorem Rounds.exists_unpack_eq (h : Rounds false q x) (hq : IsMagnitude q) (hpos : 0 < q) :
    ∃ (m : ℕ) (e : ℤ) (hm : 0 < m), x.toModel.unpack = .finite .positive m e hm ∧
      m * 2 ^ e = q ∧ IsCanonical m e := by
  cases h with
  | @finite m e _ hnear hsign hvalue =>
    have hzero : |(m : ℚ) * 2 ^ e - q| ≤ 0 := by simpa using hnear.le q hq
    have heq : (m : ℚ) * 2 ^ e = q := sub_eq_zero.mp (abs_nonpos_iff.mp hzero)
    have hm : 0 < m := by
      rcases Nat.eq_zero_or_pos m with rfl | hm
      · rw [Nat.cast_zero, zero_mul] at heq
        exact absurd heq hpos.ne
      · exact hm
    refine ⟨m, e, hm, ?_, heq, isCanonical_of_ofFloat hvalue⟩
    rw [ofFloat_eq] at hvalue
    rw [signBit_eq] at hsign
    exact eq_of_quantity_eq hvalue (isMinus_injective hsign)
  | infinite hle _ => exact absurd hq.lt_overflow hle.not_gt

theorem isMagnitude_natCast (hm : m < 2 ^ 53) : IsMagnitude m :=
  ⟨m, 0, hm, by decide, by decide, by rw [zpow_zero, mul_one]⟩

theorem isMagnitude_ten_pow (hk : k ≤ 22) : IsMagnitude (10 ^ k) := by
  refine ⟨5 ^ k, k, ?_, by omega, by omega, ?_⟩
  · exact (Nat.pow_le_pow_right (by decide) hk).trans_lt (by decide)
  · rw [zpow_natCast, Nat.cast_pow, ← mul_pow]
    norm_num

theorem toFloat_toUInt64 (hm : 0 < m) (hlt : m < 2 ^ 53) :
    m.toUInt64.toFloat = packed (UnpackedFloat.round Format.binary64 .positive m 0) := by
  have htoNat : m.toUInt64.toNat = m := UInt64.toNat_ofNat_of_lt (hlt.trans (by decide))
  change packed (UnpackedFloat.ofInt Format.binary64 (m.toUInt64.toNat : ℤ)) = _
  rw [htoNat, UnpackedFloat.ofInt, UnpackedFloat.normalize,
    Int.compare_eq_gt.mpr (by exact_mod_cast hm)]
  rfl

theorem powersOfTen_eq (k : Fin 23) :
    Float.exactlyRepresentablePowersOfTen[k] =
      packed (UnpackedFloat.round Format.binary64 .positive (10 ^ (k : ℕ)) 0) := by
  decide +kernel +revert

/-- A small mantissa and a small power of ten are floats, and only their product or quotient is
rounded. -/
theorem rounds_small (hm : 0 < m) (hlt : m < 2 ^ 53) (k : Fin 23) :
    Rounds false (m * 10 ^ (k : ℕ))
        (m.toUInt64.toFloat * Float.exactlyRepresentablePowersOfTen[k]) ∧
      Rounds false (m / 10 ^ (k : ℕ))
        (m.toUInt64.toFloat / Float.exactlyRepresentablePowersOfTen[k]) := by
  obtain ⟨m₁, e₁, h₁, hx, hm₁, hcanonical⟩ :=
    (rounds_round hm).exists_unpack_eq (isMagnitude_natCast hlt) (by exact_mod_cast hm)
  have hten := @rounds_round (10 ^ (k : ℕ)) (by positivity)
  rw [Nat.cast_pow] at hten
  obtain ⟨m₂, e₂, h₂, hy, hm₂, -⟩ :=
    hten.exists_unpack_eq (isMagnitude_ten_pow (by omega)) (by positivity)
  rw [toFloat_toUInt64 hm hlt, powersOfTen_eq]
  constructor
  · have hfull : 2 ^ 52 ≤ m₁ := by
      refine hcanonical.full.resolve_right fun hmin => ?_
      have hlow := mul_two_zpow_lt hcanonical.lt (hmin.trans_lt (by decide : -1074 < (-52 : ℤ)))
      have hone : (1 : ℚ) ≤ m := by exact_mod_cast hm
      rw [hm₁] at hlow
      norm_num at hlow
      linarith
    have h := @rounds_mul m₁ m₂ e₁ e₂ h₁ h₂ hfull
    rw [hm₁, hm₂, ← hx, ← hy] at h
    exact h
  · have h := @rounds_div m₁ m₂ e₁ e₂ h₁ h₂
    rw [hm₁, hm₂, ← hx, ← hy] at h
    exact h

/-- **A mantissa with a decimal exponent is read as the nearest float.** -/
theorem rounds_ofScientific (hm : 0 < m) (k : ℕ) :
    Rounds false (m * 10 ^ (k : ℤ)) (Float.ofScientific m false k) ∧
      Rounds false (m * 10 ^ (-k : ℤ)) (Float.ofScientific m true k) := by
  by_cases hsmall : m < 2 ^ 53 ∧ k ≤ 22
  · rw [Float.ofScientific, Float.ofScientific, dif_pos hsmall, dif_pos hsmall, zpow_neg,
      zpow_natCast, ← div_eq_mul_inv]
    exact rounds_small hm hsmall.1 ⟨k, by omega⟩
  · rw [Float.ofScientific, Float.ofScientific, dif_neg hsmall, dif_neg hsmall]
    exact ⟨rounds_model_ofScientific hm, Int.negOfNat_eq ▸ rounds_model_ofScientific hm⟩

end Small

/-! ### Numerals -/

theorem ten_zpow_digitCount_le (hm : 0 < m) : (10 : ℚ) ^ ((digitCount m : ℤ) - 1) ≤ m := by
  have hcount : 1 ≤ digitCount m := Nat.length_toDigits_pos
  have hle : 10 ^ (digitCount m - 1) ≤ m := tenPow_digitCount_le hm.ne'
  rw [← Nat.cast_pred hcount, zpow_natCast]
  exact_mod_cast hle

theorem lt_ten_zpow_digitCount (m : ℕ) : (m : ℚ) < 10 ^ (digitCount m : ℤ) := by
  have hlt : m < 10 ^ digitCount m := lt_tenPow_digitCount m
  rw [zpow_natCast]
  exact_mod_cast hlt

/-- **A numeral is read as the float nearest to it.** -/
theorem rounds_nearest (m : ℕ) (e : ℤ) : Rounds false (m * 10 ^ e) (nearest m e) := by
  unfold nearest
  split
  · rename_i hzero
    rw [eq_of_beq hzero, Nat.cast_zero, zero_mul]
    exact rounds_zero le_rfl (two_zpow_pos _).le
  rename_i hne
  have hm : 0 < m := Nat.pos_of_ne_zero fun h => hne (beq_iff_eq.mpr h)
  have hpos : (0 : ℚ) < 10 ^ e := zpow_pos (by norm_num) e
  simp only
  split
  · rename_i hlarge
    refine @rounds_infinity_of_ten_zpow_le _ ((digitCount m : ℤ) - 1 + e) (by omega) ?_
    calc (10 : ℚ) ^ ((digitCount m : ℤ) - 1 + e) = 10 ^ ((digitCount m : ℤ) - 1) * 10 ^ e :=
          zpow_add₀ (by norm_num) _ _
      _ ≤ m * 10 ^ e := mul_le_mul_of_nonneg_right (ten_zpow_digitCount_le hm) hpos.le
  split
  · rename_i hsmall
    refine rounds_zero (by positivity) ?_
    calc (m : ℚ) * 10 ^ e ≤ 10 ^ (digitCount m : ℤ) * 10 ^ e :=
          mul_le_mul_of_nonneg_right (lt_ten_zpow_digitCount m).le hpos.le
      _ = 10 ^ ((digitCount m : ℤ) + e) := (zpow_add₀ (by norm_num) _ _).symm
      _ ≤ 2 ^ (3 * ((digitCount m : ℤ) + e)) := ten_zpow_le_two_zpow (by omega)
      _ ≤ 2 ^ (-1075 : ℤ) := zpow_le_zpow_right₀ (by norm_num) (by omega)
  split
  · rename_i hneg
    have h := (rounds_ofScientific hm e.natAbs).2
    rwa [Int.ofNat_natAbs_of_nonpos hneg.le, neg_neg] at h
  · rename_i hnonneg
    have h := (rounds_ofScientific hm e.natAbs).1
    rwa [Int.natAbs_of_nonneg (not_lt.mp hnonneg)] at h

/-- The float of a numeral with a sign. -/
theorem rounds_withSign {q : ℚ} {x : Float} (negative : Bool) (h : Rounds false q x) :
    Rounds negative q (withSign negative x) := by
  cases negative with
  | false => exact h
  | true => exact h.neg

end ApiSuite.Decimal
