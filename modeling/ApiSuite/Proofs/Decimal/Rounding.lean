import ApiSuite.Proofs.Decimal.Binary

/-!
# Rounding a mantissa

The arithmetic of floats rounds a mantissa and an exponent to a float in four moves. It shifts the
mantissa to the right until 53 digits are left, or until the exponent is the least there is, and
keeps of the digits it drops whether they are less than half a unit, half a unit or more. It rounds
the mantissa to an integer by that. It shifts once more, in case this made a digit too many. It
packs what comes out, as infinity if the exponent is too large.

Two facts carry the proof that the outcome is the nearest float
(`ApiSuite.Decimal.rounds_roundWithAccuracy`). What is kept of the dropped digits tells on which
side of the middle between two integers the number stands, and halving it with every shift keeps
that so (`ApiSuite.Decimal.Stands.shiftRight`). And the nearest point of the grid that the shift
leads to is the nearest magnitude of all, because magnitudes that lie on no such grid are smaller
than every number of 53 digits on it (`ApiSuite.Decimal.isNearest_of_grid`).

The mantissa has to have 53 digits to begin with, or an exponent below the least, for shifting to
the left is no part of this.
-/

namespace ApiSuite.Decimal

open Float.Model Float.Model.UnpackedFloat

/-! ### To the nearest integer -/

/-- An integer nearest to a number, the even one of two. -/
structure IsNearestInt (r : ℚ) (k : ℕ) : Prop where
  near : |k - r| ≤ 1 / 2
  even : |k - r| = 1 / 2 → Even k

section Integer

variable {r : ℚ} {k : ℕ}

theorem IsNearestInt.le_of_lt (h : IsNearestInt r k) (n : ℕ) (hr : r < n) : k ≤ n := by
  have habs := (abs_le.mp h.near).2
  have hlt : (k : ℚ) < n + 1 := by linarith
  exact Nat.lt_succ_iff.mp (by exact_mod_cast hlt)

theorem IsNearestInt.ge_of_le (h : IsNearestInt r k) (n : ℕ) (hr : n ≤ r) : n ≤ k := by
  have habs := (abs_le.mp h.near).1
  have hlt : (n : ℚ) < k + 1 := by linarith
  exact Nat.lt_succ_iff.mp (by exact_mod_cast hlt)

theorem IsNearestInt.lt_half (h : IsNearestInt r k) {n : ℕ} (hn : Even n) (hk : k < n) :
    r < n - 1 / 2 := by
  have hk' : (k : ℚ) + 1 ≤ n := by exact_mod_cast hk
  have hnear := (abs_le.mp h.near).1
  refine lt_of_le_of_ne (by linarith) fun heq => ?_
  -- at the half itself, the lower integer would be odd
  have hlast : n = k + 1 := by
    have : (n : ℚ) = k + 1 := by linarith
    exact_mod_cast this
  have hdist : (k : ℚ) - r = -(1 / 2) := by
    rw [heq, hlast]
    push_cast
    ring
  have heven : Even k := h.even (by rw [hdist]; norm_num)
  exact absurd hn (by rw [hlast]; exact Nat.not_even_iff_odd.mpr heven.add_one)

/-- Another integer is half a unit away at least. -/
theorem IsNearestInt.half_le (h : IsNearestInt r k) {j : ℕ} (hj : j ≠ k) : 1 / 2 ≤ |j - r| := by
  have hstep : (1 : ℚ) ≤ |(j : ℚ) - k| := by
    have : (1 : ℤ) ≤ |(j : ℤ) - k| := Int.one_le_abs (by omega)
    exact_mod_cast this
  have htriangle : |(j : ℚ) - k| ≤ |j - r| + |k - r| := by
    have := abs_sub_le (j : ℚ) r k
    rwa [abs_sub_comm r k] at this
  linarith [h.near]

theorem IsNearestInt.le (h : IsNearestInt r k) (j : ℕ) : |k - r| ≤ |j - r| := by
  rcases eq_or_ne j k with rfl | hj
  · exact le_rfl
  · exact h.near.trans (h.half_le hj)

theorem IsNearestInt.even_of_eq (h : IsNearestInt r k) {j : ℕ} (hj : j ≠ k)
    (heq : |(j : ℚ) - r| = |k - r|) : Even k :=
  h.even (le_antisymm h.near (heq ▸ h.half_le hj))

end Integer

/-! ### On the grid of a magnitude -/

section Grid

variable {r : ℚ} {k : ℕ} {t : ℤ}

/-- **The nearest point of its own grid is the nearest magnitude**: all others that are as large
lie on this grid, and the smaller ones lie beyond one that does. -/
theorem isNearest_of_grid (h : IsNearestInt r k) (hfull : 2 ^ 52 ≤ r ∨ t = -1074) :
    IsNearest (r * 2 ^ t) k t := by
  have hpos := two_zpow_pos t
  have hdist (j : ℕ) : |(j : ℚ) * 2 ^ t - r * 2 ^ t| = |j - r| * 2 ^ t := by
    rw [← sub_mul, abs_mul, abs_of_pos hpos]
  have hgrid (j : ℕ) : |(k : ℚ) * 2 ^ t - r * 2 ^ t| ≤ |j * 2 ^ t - r * 2 ^ t| := by
    rw [hdist, hdist]
    exact mul_le_mul_of_nonneg_right (h.le j) hpos.le
  have hother (s : ℚ) (hs : IsMagnitude s) :
      |k * 2 ^ t - r * 2 ^ t| < |s - r * 2 ^ t| ∨ ∃ j : ℕ, s = j * 2 ^ t := by
    obtain ⟨m, e, hm, he, -, rfl⟩ := hs
    rcases le_or_gt t e with hte | het
    · exact .inr (exists_eq_mul_two_zpow m hte)
    · have hlow : (2 ^ 52 : ℚ) * 2 ^ t ≤ r * 2 ^ t :=
        mul_le_mul_of_nonneg_right (hfull.resolve_right (by omega)) hpos.le
      have hsmall := mul_two_zpow_lt hm het
      refine .inl ((hgrid (2 ^ 52)).trans_lt ?_)
      push_cast
      rw [abs_of_nonpos (by linarith), abs_of_neg (by linarith)]
      linarith
  constructor
  · intro s hs
    rcases hother s hs with hlt | ⟨j, rfl⟩
    · exact hlt.le
    · exact hgrid j
  · intro s hs hne heq
    rcases hother s hs with hlt | ⟨j, rfl⟩
    · exact absurd heq hlt.ne'
    · rw [hdist, hdist] at heq
      exact h.even_of_eq (fun hj => hne (by rw [hj])) (mul_right_cancel₀ hpos.ne' heq)

/-- The same magnitude in another way is as near. -/
theorem IsNearest.congr {q : ℚ} {m : ℕ} {e : ℤ} (h : IsNearest q k t)
    (hvalue : (m : ℚ) * 2 ^ e = k * 2 ^ t) (heven : Even k → Even m) : IsNearest q m e where
  le := hvalue ▸ h.le
  even r hr hne heq := heven (h.even r hr (hvalue ▸ hne) (hvalue ▸ heq))

end Grid

/-! ### Overflow -/

section Overflow

variable {r : ℚ} {t : ℤ}

theorem lt_overflow (hr : r < 2 ^ 53) (ht : t ≤ 970) : r * 2 ^ t < overflow := by
  calc r * 2 ^ t < 2 ^ 53 * 2 ^ t := mul_lt_mul_of_pos_right hr (two_zpow_pos t)
    _ ≤ 2 ^ 53 * 2 ^ (970 : ℤ) :=
        mul_le_mul_of_nonneg_left (zpow_le_zpow_right₀ (by norm_num) ht) (by norm_num)
    _ = 2 ^ 52 * 2 ^ (971 : ℤ) := by
        rw [show (971 : ℤ) = 970 + 1 from rfl, zpow_add_one₀ (by norm_num)]
        ring
    _ ≤ overflow := mul_le_mul_of_nonneg_right (by norm_num) (two_zpow_pos _).le

theorem lt_overflow_of_half (hr : r < 2 ^ 53 - 1 / 2) (ht : t ≤ 971) : r * 2 ^ t < overflow :=
  calc r * 2 ^ t < (2 ^ 53 - 1 / 2) * 2 ^ t := mul_lt_mul_of_pos_right hr (two_zpow_pos t)
    _ ≤ overflow :=
        mul_le_mul_of_nonneg_left (zpow_le_zpow_right₀ (by norm_num) ht) (by norm_num)

theorem overflow_le (hr : 2 ^ 53 - 1 / 2 ≤ r) (ht : 971 ≤ t) : overflow ≤ r * 2 ^ t := by
  exact mul_le_mul hr (zpow_le_zpow_right₀ (by norm_num) ht) (two_zpow_pos _).le
    (le_trans (by norm_num) hr)

end Overflow

/-! ### Carrying and packing -/

/-- The float with an unpacked form. -/
def packed (u : UnpackedFloat) : Float := Float.ofModel (Float.Model.pack u)

/-- A rounded integer as an unpacked float. Rounding may make a digit too many. -/
def carried (k : ℕ) (t : ℤ) : UnpackedFloat :=
  if h : k = 0 then .zero .positive
  else if k < 2 ^ 53 then .finite .positive k t (Nat.pos_of_ne_zero h)
  else .finite .positive (2 ^ 52) (t + 1) (by decide)

section Packed

variable {q r : ℚ} {k m : ℕ} {e t : ℤ}

theorem rounds_packed {u : UnpackedFloat} (hlt : q < overflow) (hnear : IsNearest q m e)
    (hpackable : IsPackable u) (hsign : sign u = .positive) (hvalue : quantity u = .finite m e) :
    Rounds false q (packed u) := by
  have hunpack : (packed u).toModel.unpack = u := unpack_pack hpackable
  refine .finite hlt hnear ?_ ?_
  · rw [signBit_eq, hunpack, hsign]
    rfl
  · rw [ofFloat_eq, hunpack, hvalue]
    rfl

theorem rounds_packed_infinite (hm : 0 < m) (hle : overflow ≤ q) (he : 971 < e) :
    Rounds false q (packed (.finite .positive m e hm)) := by
  refine .infinite hle ?_
  rw [packed, pack_eq_infinity hm he, ofFloat_eq]
  exact congrArg quantity (@unpack_pack (.infinity .positive) trivial)

/-- **Rounding to the nearest integer on the grid of a number is rounding to the nearest float**,
infinity included. -/
theorem rounds_packed_carried (ht : -1074 ≤ t) (h : IsNearestInt r k) (hlt : r < 2 ^ 53)
    (hfull : 2 ^ 52 ≤ r ∨ t = -1074) : Rounds false (r * 2 ^ t) (packed (carried k t)) := by
  have hnear := isNearest_of_grid h hfull
  have hk : k ≤ 2 ^ 53 := h.le_of_lt _ (by exact_mod_cast hlt)
  have hkfull : 2 ^ 52 ≤ k ∨ t = -1074 :=
    hfull.imp_left fun hr => h.ge_of_le _ (by exact_mod_cast hr)
  unfold carried
  split
  · rename_i hzero
    obtain rfl := hzero
    obtain rfl : t = -1074 := by omega
    exact rounds_packed (lt_overflow hlt (by decide)) hnear trivial rfl rfl
  · rename_i hpos
    split
    · rename_i hsmall
      rcases le_or_gt t 971 with hle | hgt
      · have hhalf : r < 2 ^ 53 - 1 / 2 := by
          exact_mod_cast h.lt_half (by decide) hsmall
        exact rounds_packed (lt_overflow_of_half hhalf hle) hnear ⟨hsmall, ht, hle, hkfull⟩ rfl rfl
      · have hr : 2 ^ 52 ≤ r := hfull.resolve_right (by omega)
        refine rounds_packed_infinite _ ?_ hgt
        calc overflow ≤ r * 2 * 2 ^ (t - 1) := overflow_le (by linarith) (by omega)
          _ = r * 2 ^ t := by rw [mul_assoc, ← zpow_one_add₀ (by norm_num)]; congr 2; omega
    · obtain rfl : k = 2 ^ 53 := by omega
      have hcarry : IsNearest (r * 2 ^ t) (2 ^ 52) (t + 1) :=
        hnear.congr (by rw [zpow_add_one₀ (by norm_num)]; push_cast; ring) fun _ => by decide
      have hhalf : 2 ^ 53 - 1 / 2 ≤ r := by
        have := (abs_le.mp h.near).2
        push_cast at this
        linarith
      rcases le_or_gt t 970 with hle | hgt
      · exact rounds_packed (lt_overflow hlt hle) hcarry
          ⟨by decide, by omega, by omega, .inl le_rfl⟩ rfl rfl
      · exact rounds_packed_infinite _ (overflow_le hhalf hgt) (by omega)

end Packed

/-! ### Shifting and rounding -/

/-- A number from `m` up to `m + 1`, with its place there as an accuracy. -/
inductive Stands (m : ℕ) (r : ℚ) : Accuracy → Prop
  | exact : r = m → Stands m r .exact
  | belowHalf : m < r → r < m + 1 / 2 → Stands m r (.inexact .lt)
  | half : r = m + 1 / 2 → Stands m r (.inexact .eq)
  | aboveHalf : m + 1 / 2 < r → r < m + 1 → Stands m r (.inexact .gt)

section Shifting

variable {m : ℕ} {r : ℚ} {a : Accuracy} {em : ExtendedMantissa}

theorem Stands.le (h : Stands m r a) : (m : ℚ) ≤ r := by
  cases h <;> linarith

theorem Stands.lt_succ (h : Stands m r a) : r < m + 1 := by
  cases h <;> linarith

/-- The accuracy decides which integer is nearest. -/
theorem Stands.isNearestInt (h : Stands m r a) : IsNearestInt r (a.roundToNearestEven m) := by
  cases h with
  | exact heq =>
    have hdist : |(m : ℚ) - r| = 0 := by rw [heq, sub_self, abs_zero]
    constructor <;> rw [Accuracy.roundToNearestEven, hdist] <;> norm_num
  | belowHalf hgt hlt =>
    have hdist : |(m : ℚ) - r| = r - m := by rw [abs_of_neg (by linarith)]; ring
    constructor <;> rw [Accuracy.roundToNearestEven, hdist]
    · linarith
    · intro heq
      linarith
  | half heq =>
    rcases Nat.mod_two_eq_zero_or_one m with hmod | hmod <;>
      rw [Accuracy.roundToNearestEven, hmod]
    · have hdist : |((m + 0 : ℕ) : ℚ) - r| = 1 / 2 := by
        rw [heq, Nat.add_zero, abs_of_neg (by linarith)]
        ring
      exact ⟨hdist.le, fun _ => Nat.even_iff.mpr (by omega)⟩
    · have hdist : |((m + 1 : ℕ) : ℚ) - r| = 1 / 2 := by
        rw [heq, Nat.cast_succ, abs_of_pos (by linarith)]
        ring
      exact ⟨hdist.le, fun _ => Nat.even_iff.mpr (by omega)⟩
  | aboveHalf hgt hlt =>
    have hdist : |((m + 1 : ℕ) : ℚ) - r| = m + 1 - r := by
      push_cast
      exact abs_of_pos (by linarith)
    constructor <;> rw [Accuracy.roundToNearestEven, hdist]
    · linarith
    · intro heq
      linarith

/-- One place to the right halves a number. -/
theorem Stands.shiftRightOne (h : Stands em.mantissa r em.accuracy) :
    Stands em.shiftRightOne.mantissa (r / 2) em.shiftRightOne.accuracy := by
  obtain ⟨m, roundBit, stickyBit⟩ := em
  have hm : (m : ℚ) = 2 * (m / 2 : ℕ) + (m % 2 : ℕ) := by exact_mod_cast (Nat.div_add_mod m 2).symm
  -- what is shifted out becomes the half, and what was shifted out before is less than that
  rcases Nat.mod_two_eq_zero_or_one m with hmod | hmod <;> rw [hmod] at hm <;> push_cast at hm <;>
    cases roundBit <;> cases stickyBit <;>
    simp only [ExtendedMantissa.shiftRightOne, ExtendedMantissa.accuracy, hmod] at h ⊢ <;>
    cases h <;> constructor <;> linarith

theorem Stands.shiftRight (h : Stands em.mantissa r em.accuracy) (n : ℕ) :
    Stands (em >>> n).mantissa (r / 2 ^ n) (em >>> n).accuracy := by
  induction n with
  | zero =>
    rw [pow_zero, div_one]
    exact h
  | succ n ih =>
    have := ih.shiftRightOne
    rwa [div_div, ← pow_succ] at this

end Shifting

section Rounding

variable {m : ℕ} {r : ℚ} {a : Accuracy} {e : ℤ}

/-- The grid of the numbers whose first binary digit is in a given place. -/
theorem targetExponent_eq (place : ℤ) :
    Format.binary64.targetExponent place = max (place - 53) (-1074) := by
  have hmin : Format.binary64.minExponent = -1074 := by decide
  rw [Format.targetExponent, hmin]
  rfl

theorem ofMantissaAndAccuracy_mantissa (m : ℕ) (a : Accuracy) :
    (ExtendedMantissa.ofMantissaAndAccuracy m a).mantissa = m := by
  cases a with
  | exact => rfl
  | inexact o => cases o <;> rfl

theorem ofMantissaAndAccuracy_accuracy (m : ℕ) (a : Accuracy) :
    (ExtendedMantissa.ofMantissaAndAccuracy m a).accuracy = a := by
  cases a with
  | exact => rfl
  | inexact o => cases o <;> rfl

theorem shiftToTargetExponent_of_lt {k : ℕ} {t : ℤ} (hk : k < 2 ^ 53) (ht : -1074 ≤ t) :
    shiftToTargetExponent Format.binary64 k t .exact = (⟨k, false, false⟩, t) := by
  have hlog : k.log2 ≤ 52 := by
    rcases Nat.eq_zero_or_pos k with rfl | hpos
    · decide
    · exact Nat.lt_succ_iff.mp ((Nat.log2_lt hpos.ne').mpr hk)
  have hshift : (max (totalExponent k t - 53) (-1074) - t).toNat = 0 := by
    rw [totalExponent]
    omega
  rw [shiftToTargetExponent, targetExponent_eq, shiftToExponent, hshift]
  simp [HShiftRight.hShiftRight, Nat.repeat, ExtendedMantissa.ofMantissaAndAccuracy]

theorem shiftToTargetExponent_carry {t : ℤ} (ht : -1074 ≤ t) :
    shiftToTargetExponent Format.binary64 (2 ^ 53) t .exact = (⟨2 ^ 52, false, false⟩, t + 1) := by
  have hshift : (max (totalExponent (2 ^ 53) t - 53) (-1074) - t).toNat = 1 := by
    rw [totalExponent, Nat.log2_two_pow]
    omega
  rw [shiftToTargetExponent, targetExponent_eq, shiftToExponent, hshift]
  rfl

/-- The second shift of rounding takes a carry back. -/
theorem roundWithAccuracy_eq {k : ℕ} {t : ℤ} {em : ExtendedMantissa}
    (hshift : shiftToTargetExponent Format.binary64 m e a = (em, t))
    (hk : em.roundedMantissa = k) (hle : k ≤ 2 ^ 53) (ht : -1074 ≤ t) :
    roundWithAccuracy Format.binary64 .positive m e a = carried k t := by
  rw [roundWithAccuracy, hshift]
  rcases hle.lt_or_eq with hlt | rfl
  · simp only [hk, shiftToTargetExponent_of_lt hlt ht, carried, hlt, if_true]
  · simp only [hk, shiftToTargetExponent_carry ht]
    rfl

/-- **Rounding a mantissa with its accuracy rounds the number to the nearest float**, if the
mantissa is long enough. -/
theorem rounds_roundWithAccuracy (h : Stands m r a) (hlong : 52 ≤ m.log2 ∨ e ≤ -1074) :
    Rounds false (r * 2 ^ e) (packed (roundWithAccuracy Format.binary64 .positive m e a)) := by
  obtain ⟨t, ht⟩ : ∃ t : ℤ, t = max (m.log2 + 1 + e - 53) (-1074) := ⟨_, rfl⟩
  obtain ⟨n, hn⟩ : ∃ n : ℕ, t = e + n := ⟨(t - e).toNat, by omega⟩
  obtain ⟨em, hem⟩ : ∃ em, em = ExtendedMantissa.ofMantissaAndAccuracy m a >>> n := ⟨_, rfl⟩
  have hstands : Stands em.mantissa (r / 2 ^ n) em.accuracy := by
    rw [hem]
    refine Stands.shiftRight ?_ n
    rwa [ofMantissaAndAccuracy_mantissa, ofMantissaAndAccuracy_accuracy]
  have hint : IsNearestInt (r / 2 ^ n) em.roundedMantissa := hstands.isNearestInt
  have hvalue : r * 2 ^ e = r / 2 ^ n * 2 ^ t := by
    rw [hn, zpow_add₀ (by norm_num), zpow_natCast]
    field_simp
  have hlt : r / 2 ^ n < 2 ^ 53 := by
    rw [div_lt_iff₀ (by positivity), ← pow_add]
    calc r < m + 1 := h.lt_succ
      _ ≤ 2 ^ (m.log2 + 1) := by exact_mod_cast Nat.lt_log2_self
      _ ≤ 2 ^ (53 + n) := pow_le_pow_right₀ (by norm_num) (by omega)
  have hfull : 2 ^ 52 ≤ r / 2 ^ n ∨ t = -1074 := by
    rcases eq_or_ne t (-1074) with hmin | hmin
    · exact .inr hmin
    · have hlog : m.log2 = 52 + n := by omega
      have hm : m ≠ 0 := by
        rintro rfl
        exact absurd hlog (by rw [Nat.log2_zero]; omega)
      rw [le_div_iff₀ (by positivity), ← pow_add, ← hlog]
      exact .inl (le_trans (by exact_mod_cast Nat.log2_self_le hm) h.le)
  have hshift : shiftToTargetExponent Format.binary64 m e a = (em, t) := by
    have hamount : (t - e).toNat = n := by omega
    rw [shiftToTargetExponent, targetExponent_eq, totalExponent, ← ht, shiftToExponent, hamount,
      hem, hn]
  rw [hvalue, roundWithAccuracy_eq hshift rfl (hint.le_of_lt _ (by exact_mod_cast hlt)) (by omega)]
  exact rounds_packed_carried (by omega) hint hlt hfull

end Rounding

end ApiSuite.Decimal
