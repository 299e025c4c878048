import ApiSuite.Proofs.Decimal.Nearest

/-!
# The bits of a float

The bits of a float are read in two ways here. `ApiSuite.Decimal.ofFloat` takes the fields out of
the machine word, and gives the number that the float denotes. The arithmetic of floats unpacks the
same bits to a sign, a mantissa and an exponent, computes with these and packs the outcome. The two
readings agree (`ApiSuite.Decimal.ofFloat_eq`), and packing loses nothing of a canonical number
(`ApiSuite.Decimal.unpack_pack`).

So a float is determined by the number it denotes and its sign
(`ApiSuite.Decimal.eq_of_ofFloat_eq`), and since there is only one nearest magnitude, a number is
rounded to one float only (`ApiSuite.Decimal.Rounds.unique`).
-/

namespace ApiSuite.Decimal

open Float.Model Float.Model.UnpackedFloat

/-! ### Unpacked floats -/

/-- Whether a sign is a minus. -/
def isMinus : Sign → Bool
  | .negative => true
  | .positive => false

/-- The number that an unpacked float stands for. -/
def quantity : UnpackedFloat → Quantity
  | .infinity s => .infinite (isMinus s)
  | .notANumber => .notANumber
  | .zero _ => .finite 0 (-1074)
  | .finite s m e _ => .finite (signed (isMinus s) m) e

/-- The sign of an unpacked float; what is no number counts as positive. -/
def sign : UnpackedFloat → Sign
  | .infinity s => s
  | .notANumber => .positive
  | .zero s => s
  | .finite s _ _ _ => s

/-! ### The fields of the word -/

section Fields

variable (b : BitVec 64)

theorem toNat_mantissa : (@unpackMantissa Format.binary64 b).toNat = b.toNat % 2 ^ 52 := by
  rw [unpackMantissa_def]
  simp

theorem toNat_exponent : (@unpackExponent Format.binary64 b).toNat = b.toNat / 2 ^ 52 % 2048 := by
  rw [unpackExponent_def]
  simp [Nat.shiftRight_eq_div_pow]

theorem toNat_sign : (@unpackSign Format.binary64 b).toNat = b.toNat / 2 ^ 63 % 2 := by
  rw [unpackSign_def]
  simp [Nat.shiftRight_eq_div_pow]

theorem isMinus_ofBitVec : isMinus (Sign.ofBitVec (@unpackSign Format.binary64 b)) =
    (b.toNat / 2 ^ 63 % 2 == 1) := by
  rw [← toNat_sign]
  generalize @unpackSign Format.binary64 b = s
  decide +revert

theorem toNat_append_one (m : BitVec 52) : (1#1 ++ m).toNat = 2 ^ 52 + m.toNat := by
  rw [BitVec.toNat_append, ← Nat.shiftLeft_add_eq_or_of_lt m.isLt]
  simp [Nat.shiftLeft_eq]

end Fields

theorem eq_neg_one_iff (e : BitVec 11) : e = -1#11 ↔ e.toNat = 2047 := by
  rw [← BitVec.toNat_inj]
  rfl

theorem eq_zero_iff {w : ℕ} (v : BitVec w) : v = 0#w ↔ v.toNat = 0 := by
  rw [← BitVec.toNat_inj, BitVec.toNat_ofNat, Nat.zero_mod]

/-- **The bits of a float are read as its unpacked form says.** -/
theorem ofFloat_eq (x : Float) : ofFloat x = quantity x.toModel.unpack := by
  change ofFloat x = quantity (UnpackedFloat.unpack Format.binary64 x.toBits.toBitVec)
  simp only [ofFloat, show twoPow 63 = 2 ^ 63 from rfl, show twoPow 52 = 2 ^ 52 from rfl,
    ← UInt64.toNat_toBitVec, ← isMinus_ofBitVec, ← toNat_mantissa, ← toNat_exponent]
  generalize x.toBits.toBitVec = b
  unfold UnpackedFloat.unpack
  simp only [eq_neg_one_iff, eq_zero_iff, beq_iff_eq]
  split
  · split <;> rfl
  · split
    · rename_i hexponent
      by_cases hmantissa : (@unpackMantissa Format.binary64 b).toNat = 0
      · simp [quantity, hmantissa]
      · simp only [hmantissa, dite_false, quantity, hexponent]
        rfl
    · simp only [quantity, toNat_append_one]
      rfl

theorem signBit_eq_toNat (x : Float) : signBit x = (x.toBits.toNat / 2 ^ 63 % 2 == 1) := by
  have hlt : x.toBits.toNat < 2 ^ 64 := x.toBits.toNat_lt
  rw [signBit, Bool.eq_iff_iff, beq_iff_eq, beq_iff_eq, ← UInt64.toNat_inj, UInt64.toNat_shiftRight]
  simp only [UInt64.reduceToNat, Nat.reduceMod, Nat.shiftRight_eq_div_pow]
  omega

/-- The sign bit of a float is the sign of its unpacked form. -/
theorem signBit_eq (x : Float) : signBit x = isMinus (sign x.toModel.unpack) := by
  rw [signBit_eq_toNat, ← UInt64.toNat_toBitVec, ← isMinus_ofBitVec]
  change _ = isMinus (sign (UnpackedFloat.unpack Format.binary64 x.toBits.toBitVec))
  have hvalid := x.toModel.valid.eq_packedNaN
  change @unpackExponent Format.binary64 x.toBits.toBitVec = _ →
    @unpackMantissa Format.binary64 x.toBits.toBitVec ≠ _ →
      x.toBits.toBitVec = packedNaN Format.binary64 at hvalid
  generalize x.toBits.toBitVec = b at hvalid ⊢
  unfold UnpackedFloat.unpack
  simp only
  split
  · rename_i hexponent
    split
    · rfl
    · rename_i hmantissa
      rw [hvalid hexponent hmantissa, packedNaN, unpackSign_packComponents]
      rfl
  · split
    · split <;> rfl
    · rfl

/-! ### Packing -/

/-- What packing keeps: a finite number that is held canonically, and what is not finite. -/
def IsPackable : UnpackedFloat → Prop
  | .finite _ m e _ => IsCanonical m e
  | _ => True

theorem isPackable_unpack (x : Float) : IsPackable x.toModel.unpack := by
  change IsPackable (UnpackedFloat.unpack Format.binary64 x.toBits.toBitVec)
  generalize x.toBits.toBitVec = b
  have hmantissa : (@unpackMantissa Format.binary64 b).toNat < 2 ^ 52 := BitVec.isLt _
  have hexponent : (@unpackExponent Format.binary64 b).toNat < 2 ^ 11 := BitVec.isLt _
  have hbias : Format.binary64.exponentBias = 1023 := by decide
  unfold UnpackedFloat.unpack
  simp only [eq_neg_one_iff, eq_zero_iff]
  split
  · split <;> exact trivial
  · split
    · split
      · exact trivial
      · simp only [IsPackable, hbias]
        constructor <;> omega
    · simp only [IsPackable, hbias, toNat_append_one]
      constructor <;> omega

theorem unpack_packComponents_normal (s : Sign) {e : BitVec 11} (m : BitVec 52)
    (hzero : e.toNat ≠ 0) (hinfinity : e.toNat ≠ 2047) :
    UnpackedFloat.unpack Format.binary64 (packComponents Format.binary64 s e m) =
      .finite s (2 ^ 52 + m.toNat) ((e.toNat : ℤ) - 1075) (by omega) := by
  unfold UnpackedFloat.unpack
  simp only [unpackMantissa_packComponents, unpackExponent_packComponents,
    unpackSign_packComponents, Sign.ofBitVec_toBitVec, eq_neg_one_iff, eq_zero_iff,
    hinfinity, hzero, if_false, toNat_append_one]
  rfl

theorem unpack_packComponents_subnormal (s : Sign) {m : BitVec 52} (hm : 0 < m.toNat) :
    UnpackedFloat.unpack Format.binary64 (packComponents Format.binary64 s 0#11 m) =
      .finite s m.toNat (-1074) hm := by
  unfold UnpackedFloat.unpack
  simp only [unpackMantissa_packComponents, unpackExponent_packComponents,
    unpackSign_packComponents, Sign.ofBitVec_toBitVec, eq_neg_one_iff, eq_zero_iff, hm.ne',
    dite_false]
  rfl

/-- Packing loses nothing of a canonical number. -/
theorem unpack_pack {u : UnpackedFloat} (h : IsPackable u) : (Float.Model.pack u).unpack = u := by
  change UnpackedFloat.unpack Format.binary64 (UnpackedFloat.pack Format.binary64 u) = u
  cases u with
  | infinity s => cases s <;> rfl
  | notANumber => rfl
  | zero s => cases s <;> rfl
  | finite s m e hm =>
    obtain ⟨hlt, hge, hle, hfull⟩ := h
    have hbias : Format.binary64.exponentBias = 1023 := by decide
    have hbiased : ¬2 ^ 11 ≤ (e + 1023 + 52).toNat + 1 := by omega
    have hlog : m.log2 + 1 = Format.binary64.mantissaBits ↔ 2 ^ 52 ≤ m := by
      rw [← Nat.le_log2 hm.ne']
      have := (Nat.log2_lt hm.ne').mpr hlt
      simp only [Format.mantissaBits]
      omega
    unfold UnpackedFloat.pack
    simp only [hbias, hbiased, Nat.cast_ofNat, if_false, hlog]
    split
    · have hexponent : (BitVec.ofNat 11 (e + 1023 + 52).toNat).toNat = (e + 1023 + 52).toNat := by
        rw [BitVec.toNat_ofNat, Nat.mod_eq_of_lt (by omega)]
      have hmantissa : (BitVec.ofNat 52 m).toNat = m - 2 ^ 52 := by
        rw [BitVec.toNat_ofNat]
        omega
      rw [unpack_packComponents_normal _ _ (by omega) (by omega)]
      simp only [finite.injEq, hexponent, hmantissa, true_and]
      omega
    · have hmantissa : (BitVec.ofNat 52 m).toNat = m := by
        rw [BitVec.toNat_ofNat]
        omega
      rw [unpack_packComponents_subnormal _ (by omega)]
      simp only [finite.injEq, hmantissa, true_and]
      omega

/-- A number with too large an exponent is packed as infinity. -/
theorem pack_eq_infinity {s : Sign} {m : ℕ} {e : ℤ} (hm : 0 < m) (he : 971 < e) :
    Float.Model.pack (.finite s m e hm) = Float.Model.pack (.infinity s) := by
  have hbias : Format.binary64.exponentBias = 1023 := by decide
  have hbiased : 2 ^ 11 ≤ (e + 1023 + 52).toNat + 1 := by omega
  unfold Float.Model.pack UnpackedFloat.pack
  simp only [hbias, hbiased, Nat.cast_ofNat, if_true]

/-- A float is packed from its unpacked form. -/
theorem pack_unpack_toModel (x : Float) : Float.ofModel (Float.Model.pack x.toModel.unpack) = x :=
  Float.ofBits_toBits x

/-! ### The sign -/

@[simp]
theorem natAbs_signed (negative : Bool) (n : ℕ) : (signed negative n).natAbs = n := by
  cases negative <;> simp [signed]

theorem signed_not (negative : Bool) (n : ℕ) : signed (!negative) n = -signed negative n := by
  cases negative <;> simp [signed]

/-- What is denoted with the other sign. -/
def Quantity.neg : Quantity → Quantity
  | .notANumber => .notANumber
  | .infinite negative => .infinite !negative
  | .finite m e => .finite (-m) e

theorem isMinus_neg (s : Sign) : isMinus (-s) = !isMinus s := by cases s <;> rfl

theorem isPackable_neg {u : UnpackedFloat} (h : IsPackable u) : IsPackable u.neg := by
  cases u with
  | finite s m e hm => exact h
  | _ => exact trivial

theorem unpack_neg (x : Float) : (-x).toModel.unpack = x.toModel.unpack.neg :=
  unpack_pack (isPackable_neg (isPackable_unpack x))

/-- The negative of a float denotes the number with the other sign. -/
theorem ofFloat_neg (x : Float) : ofFloat (-x) = (ofFloat x).neg := by
  rw [ofFloat_eq, ofFloat_eq, unpack_neg]
  cases x.toModel.unpack <;>
    simp [quantity, UnpackedFloat.neg, Quantity.neg, isMinus_neg, signed_not]

theorem signBit_neg {x : Float} (h : ofFloat x ≠ .notANumber) : signBit (-x) = !signBit x := by
  rw [ofFloat_eq] at h
  rw [signBit_eq, signBit_eq, unpack_neg]
  cases hu : x.toModel.unpack with
  | notANumber => exact absurd (by rw [hu]; rfl) h
  | _ => simp [UnpackedFloat.neg, sign, isMinus_neg]

/-! ### A float is what it denotes -/

theorem isMinus_injective : Function.Injective isMinus := by
  intro s t h
  cases s <;> cases t <;> first | rfl | exact absurd h (by decide)

theorem signed_inj {negative : Bool} {m n : ℕ} : signed negative m = signed negative n ↔ m = n := by
  cases negative <;> simp [signed]

theorem signed_eq_zero_iff {negative : Bool} {n : ℕ} : signed negative n = 0 ↔ n = 0 := by
  rw [← Int.natAbs_eq_zero, natAbs_signed]

theorem eq_of_quantity_eq {u v : UnpackedFloat} (h : quantity u = quantity v)
    (hsign : sign u = sign v) : u = v := by
  cases u with
  | infinity s =>
    cases v with
    | infinity t => exact congrArg _ hsign
    | _ => simp [quantity] at h
  | notANumber =>
    cases v with
    | notANumber => rfl
    | _ => simp [quantity] at h
  | zero s =>
    cases v with
    | zero t => exact congrArg _ hsign
    | finite t n f hn =>
      simp only [quantity, Quantity.finite.injEq] at h
      exact absurd (signed_eq_zero_iff.mp h.1.symm) hn.ne'
    | _ => simp [quantity] at h
  | finite s m e hm =>
    cases v with
    | zero t =>
      simp only [quantity, Quantity.finite.injEq] at h
      exact absurd (signed_eq_zero_iff.mp h.1) hm.ne'
    | finite t n f hn =>
      obtain rfl : s = t := hsign
      simp only [quantity, Quantity.finite.injEq, signed_inj] at h
      obtain ⟨rfl, rfl⟩ := h
      rfl
    | _ => simp [quantity] at h

/-- **A float is determined by the number it denotes and its sign.** -/
theorem eq_of_ofFloat_eq {x y : Float} (h : ofFloat x = ofFloat y) (hsign : signBit x = signBit y) :
    x = y := by
  rw [ofFloat_eq, ofFloat_eq] at h
  rw [signBit_eq, signBit_eq] at hsign
  rw [← pack_unpack_toModel x, ← pack_unpack_toModel y,
    eq_of_quantity_eq h (isMinus_injective hsign)]

theorem isCanonical_of_ofFloat {x : Float} {negative : Bool} {m : ℕ} {e : ℤ}
    (h : ofFloat x = .finite (signed negative m) e) : IsCanonical m e := by
  have hpackable := isPackable_unpack x
  rw [ofFloat_eq] at h
  cases hu : x.toModel.unpack with
  | infinity s => simp [hu, quantity] at h
  | notANumber => simp [hu, quantity] at h
  | zero s =>
    simp only [hu, quantity, Quantity.finite.injEq] at h
    obtain rfl := signed_eq_zero_iff.mp h.1.symm
    obtain rfl := h.2
    constructor <;> decide
  | finite s n f hn =>
    rw [hu] at hpackable
    simp only [hu, quantity, Quantity.finite.injEq] at h
    have hm : n = m := by rw [← natAbs_signed (isMinus s) n, h.1, natAbs_signed]
    rw [← hm, ← h.2]
    exact hpackable

theorem signBit_of_infinite {x : Float} {negative : Bool} (h : ofFloat x = .infinite negative) :
    signBit x = negative := by
  rw [ofFloat_eq] at h
  rw [signBit_eq]
  cases hu : x.toModel.unpack <;> simp_all [quantity, sign]

/-! ### Rounding -/

variable {negative : Bool} {q : ℚ} {x y : Float}

/-- **A number is rounded to one float only.** -/
theorem Rounds.unique (h : Rounds negative q x) (h' : Rounds negative q y) : x = y := by
  cases h with
  | finite hlt hnear hsign hvalue =>
    cases h' with
    | finite hlt' hnear' hsign' hvalue' =>
      obtain ⟨rfl, rfl⟩ := hnear.unique (isCanonical_of_ofFloat hvalue)
        (isCanonical_of_ofFloat hvalue') hnear'
      exact eq_of_ofFloat_eq (hvalue.trans hvalue'.symm) (hsign.trans hsign'.symm)
    | infinite hle' _ => exact absurd hlt hle'.not_gt
  | infinite hle hvalue =>
    cases h' with
    | finite hlt' _ _ _ => exact absurd hlt' hle.not_gt
    | infinite _ hvalue' =>
      exact eq_of_ofFloat_eq (hvalue.trans hvalue'.symm)
        ((signBit_of_infinite hvalue).trans (signBit_of_infinite hvalue').symm)

/-- Below zero the same magnitudes are nearest. -/
theorem Rounds.neg (h : Rounds negative q x) : Rounds (!negative) q (-x) := by
  cases h with
  | finite hlt hnear hsign hvalue =>
    refine .finite hlt hnear ?_ ?_
    · rw [signBit_neg (by simp [hvalue]), hsign]
    · rw [ofFloat_neg, hvalue, signed_not]
      rfl
  | infinite hle hvalue =>
    refine .infinite hle ?_
    rw [ofFloat_neg, hvalue]
    rfl

end ApiSuite.Decimal
