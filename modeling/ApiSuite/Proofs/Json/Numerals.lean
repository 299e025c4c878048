import ApiSuite.Json.Printer
import ApiSuite.Json.Reader
import Mathlib.Data.List.DropRight
import Mathlib.Tactic.Ring

/-!
# Numbers that are written read back

An integer is written as its digits, after a minus if it is negative, and it is read back as itself
whatever follows, unless what follows goes on with the number (`ApiSuite.Json.EndsNumber`).

A float is written with a point, an exponent or both, so it is read back as a float. That there is a
float to be read rests on the search for its digits (`ApiSuite.Decimal.shortest`): the number it
comes to is not zero, even if it were to go past the last of its grids, so the digits begin with one
that is not zero (`ApiSuite.Decimal.shortest_digits`) and can stand before a point.
-/

namespace ApiSuite

open Text

/-! ### Digits -/

namespace Text

theorem isAsciiDigit_iff {c : Char} : isAsciiDigit c = true ↔ 48 ≤ c.toNat ∧ c.toNat ≤ 57 := by
  rw [isAsciiDigit, Bool.and_eq_true, decide_eq_true_eq, decide_eq_true_eq]
  exact Iff.rfl

theorem isAsciiDigit_of_isDigit {c : Char} (h : c.isDigit = true) : isAsciiDigit c = true := by
  rw [Char.isDigit, Bool.and_eq_true, decide_eq_true_eq, decide_eq_true_eq] at h
  exact isAsciiDigit_iff.mpr h

/-- Digits only. -/
def AllDigits (cs : List Char) : Prop := ∀ c ∈ cs, isAsciiDigit c = true

theorem allDigits_toDigits (n : Nat) : AllDigits (Nat.toDigits 10 n) := fun _ hc =>
  isAsciiDigit_of_isDigit (Nat.isDigit_of_mem_toDigits (by decide) (by decide) hc)

theorem AllDigits.append {cs ds : List Char} (hcs : AllDigits cs) (hds : AllDigits ds) :
    AllDigits (cs ++ ds) := fun c hc => (List.mem_append.mp hc).elim (hcs c) (hds c)

theorem allDigits_zeros (n : Nat) : AllDigits (Decimal.zeros n) := by
  intro c hc
  rw [List.eq_of_mem_replicate hc]
  rfl

theorem decimalDigit?_of_isAsciiDigit {c : Char} (h : isAsciiDigit c = true) :
    decimalDigit? c = some (c.toNat - '0'.toNat) := by
  obtain ⟨hlow, hhigh⟩ := isAsciiDigit_iff.mp h
  have hfirst : digitZeros.find? (fun z => decide (z ≤ c.toNat) && decide (c.toNat ≤ z + 9)) =
      some 48 := by
    refine List.find?_cons_of_pos ?_
    simp only [Bool.and_eq_true, decide_eq_true_eq]
    exact ⟨hlow, hhigh⟩
  rw [decimalDigit?, hfirst]
  rfl

theorem foldDigits?_of_allDigits {cs : List Char} (h : AllDigits cs) (acc : Nat) :
    foldDigits? acc cs = some (Nat.ofDigitChars 10 cs acc) := by
  induction cs generalizing acc with
  | nil => simp [foldDigits?]
  | cons c cs ih =>
    obtain ⟨hc, hcs⟩ := List.forall_mem_cons.mp h
    rw [foldDigits?, decimalDigit?_of_isAsciiDigit hc, Nat.ofDigitChars_cons]
    exact ih hcs _

/-- **The digits of a number denote it.** -/
theorem digitsValue_toDigits (n : Nat) : Decimal.digitsValue (Nat.toDigits 10 n) = n := by
  rw [Decimal.digitsValue, foldDigits?_of_allDigits (allDigits_toDigits n),
    Nat.ofDigitChars_ten_toDigits]
  rfl

/-- The digits of a positive number begin with one that is not zero. -/
theorem toDigits_head {n : Nat} (h : n ≠ 0) :
    ∃ d ds, Nat.toDigits 10 n = d :: ds ∧ d ≠ '0' := by
  induction n using Nat.strongRecOn with
  | ind n ih =>
    rw [Nat.toDigits_eq_if (by decide)]
    split
    · exact ⟨_, [], rfl, fun heq => h (Nat.digitChar_eq_zero.mp heq)⟩
    · have hdiv : n / 10 ≠ 0 := by omega
      obtain ⟨d, ds, hds, hd⟩ := ih (n / 10) (by omega) hdiv
      exact ⟨d, ds ++ [_], by rw [hds]; rfl, hd⟩

end Text

namespace Decimal

/-! ### The digits of a float -/

section Floats

variable {num den fuel j m n c : Nat} {e place k : Int} {s : Span} {x : Float}

/-- The search for the first place comes to an end if there is one within its fuel. -/
theorem le_of_leadingPlace (h : den ≤ num * tenPow (j + fuel)) :
    den ≤ num * tenPow (leadingPlace num den fuel j) := by
  induction fuel generalizing j with
  | zero => exact h
  | succ fuel ih =>
    rw [leadingPlace]
    split
    · assumption
    · exact ih (by rwa [Nat.add_right_comm, Nat.add_assoc])

/-- **A number is at least the power of ten at its place.** -/
theorem Ratio.tenPow_place_le {r : Ratio} (hden : r.den ≠ 0)
    (h : r.den ≤ r.num * tenPow 401) :
    r.den * tenPow r.place.toNat ≤ r.num * tenPow (-r.place).toNat := by
  unfold Ratio.place
  split
  · rename_i hle
    have hquotient : r.num / r.den ≠ 0 := (Nat.div_pos hle (Nat.pos_of_ne_zero hden)).ne'
    have hcount : 1 ≤ digitCount (r.num / r.den) := Nat.length_toDigits_pos
    have htoNat : ((digitCount (r.num / r.den) : Int) - 1).toNat =
        digitCount (r.num / r.den) - 1 := by omega
    have hneg : (-((digitCount (r.num / r.den) : Int) - 1)).toNat = 0 := by omega
    rw [htoNat, hneg]
    calc r.den * tenPow (digitCount (r.num / r.den) - 1)
        ≤ r.den * (r.num / r.den) := Nat.mul_le_mul_left _ (tenPow_digitCount_le hquotient)
      _ ≤ r.num := Nat.mul_div_le _ _
      _ = r.num * tenPow 0 := (Nat.mul_one _).symm
  · have hplace : r.den ≤ r.num * tenPow (leadingPlace r.num r.den 400 1) := le_of_leadingPlace h
    have htoNat : (-(leadingPlace r.num r.den 400 1 : Int)).toNat = 0 := by omega
    rw [htoNat, Int.neg_neg, Int.toNat_natCast]
    exact (Nat.mul_one _).trans_le hplace

/-- The point of a grid that is tried is never zero. -/
theorem Span.neighbour?_ne_zero (h : s.neighbour? k = some c) : c ≠ 0 := by
  unfold Span.neighbour? at h
  dsimp only at h
  split at h
  · rename_i hbelow habove
    have hne := (Bool.and_eq_true _ _ ▸ hbelow).2
    split at h
    · cases h
      simpa using hne
    · cases h
      exact Nat.succ_ne_zero _
  · rename_i hbelow habove
    have hne := (Bool.and_eq_true _ _ ▸ hbelow).2
    cases h
    simpa using hne
  · cases h
    exact Nat.succ_ne_zero _
  · cases h

/-- The search for digits comes to a number that is not zero if the float is not less than a unit of
the grid after the last one. -/
theorem Span.search_ne_zero
    (hden : (s.unit.scale (place + 1 - (n + fuel : Nat))).den ≠ 0)
    (h : (s.unit.scale (place + 1 - (n + fuel : Nat))).den ≤
      s.value * (s.unit.scale (place + 1 - (n + fuel : Nat))).num) :
    (s.search place fuel n).1 ≠ 0 := by
  induction fuel generalizing n with
  | zero => exact (Nat.div_pos h (Nat.pos_of_ne_zero hden)).ne'
  | succ fuel ih =>
    rw [Span.search]
    split
    · rename_i hsome
      exact Span.neighbour?_ne_zero hsome
    · have hgrid : n + (fuel + 1) = n + 1 + fuel := by omega
      rw [hgrid] at hden h
      exact ih hden h

/-- The number `m · 2 ^ e` in the units of its interval, a quarter of its last place. -/
theorem Span.value_mul_unit (m : Nat) (e : Int) :
    (Span.of m e).value * (Span.of m e).unit.num * (Ratio.dyadic m e).den =
      (Ratio.dyadic m e).num * (Span.of m e).unit.den := by
  show 4 * m * (1 * 2 ^ (e - 2).toNat) * 2 ^ (-e).toNat =
    m * 2 ^ e.toNat * 2 ^ (-(e - 2)).toNat
  -- the exponents on the two sides are the same in each place that `e` can be in
  have hexp : 2 + (e - 2).toNat + (-e).toNat = e.toNat + (-(e - 2)).toNat := by omega
  calc 4 * m * (1 * 2 ^ (e - 2).toNat) * 2 ^ (-e).toNat
      = m * 2 ^ (2 + (e - 2).toNat + (-e).toNat) := by
        rw [Nat.pow_add, Nat.pow_add]
        ring
    _ = m * 2 ^ e.toNat * 2 ^ (-(e - 2)).toNat := by
        rw [hexp, Nat.pow_add]
        ring

theorem tenPow_eq (n : Nat) : tenPow n = 10 ^ n := rfl

theorem twoPow_le_twoPow (h : j ≤ n) : twoPow j ≤ twoPow n :=
  Nat.pow_le_pow_right (by decide) h

theorem tenPow_le_tenPow (h : j ≤ n) : tenPow j ≤ tenPow n :=
  Nat.pow_le_pow_right (by decide) h

/-- A float is never less than a unit of the grid after the last one that is searched. -/
theorem Span.grid_le (hm : m ≠ 0) (he : -1074 ≤ e) (hplace : place = (Ratio.dyadic m e).place) :
    ((Span.of m e).unit.scale (place - 17)).den ≤
      (Span.of m e).value * ((Span.of m e).unit.scale (place - 17)).num := by
  have hden : (Ratio.dyadic m e).den ≠ 0 := (Nat.two_pow_pos _).ne'
  have hsmall : (Ratio.dyadic m e).den ≤ (Ratio.dyadic m e).num * tenPow 401 :=
    calc twoPow (-e).toNat ≤ twoPow 1074 := twoPow_le_twoPow (by omega)
      _ ≤ tenPow 401 := by decide +kernel
      _ ≤ m * twoPow e.toNat * tenPow 401 :=
        Nat.le_mul_of_pos_left _ (Nat.mul_pos (Nat.pos_of_ne_zero hm) (Nat.two_pow_pos _))
  have hleast := Ratio.tenPow_place_le hden hsmall
  rw [← hplace] at hleast
  set num := (Span.of m e).unit.num
  set den := (Span.of m e).unit.den
  have hunit : den * tenPow place.toNat ≤ (Span.of m e).value * num * tenPow (-place).toNat := by
    refine Nat.le_of_mul_le_mul_left ?_ (Nat.pos_of_ne_zero hden)
    calc (Ratio.dyadic m e).den * (den * tenPow place.toNat)
        = den * ((Ratio.dyadic m e).den * tenPow place.toNat) := by ring
      _ ≤ den * ((Ratio.dyadic m e).num * tenPow (-place).toNat) := Nat.mul_le_mul_left _ hleast
      _ = (Ratio.dyadic m e).num * den * tenPow (-place).toNat := by ring
      _ = (Span.of m e).value * num * (Ratio.dyadic m e).den * tenPow (-place).toNat := by
        rw [Span.value_mul_unit]
      _ = _ := by ring
  calc den * tenPow (place - 17).toNat
      ≤ den * tenPow place.toNat := Nat.mul_le_mul_left _ (tenPow_le_tenPow (by omega))
    _ ≤ (Span.of m e).value * num * tenPow (-place).toNat := hunit
    _ ≤ (Span.of m e).value * num * tenPow (-(place - 17)).toNat :=
      Nat.mul_le_mul_left _ (tenPow_le_tenPow (by omega))
    _ = (Span.of m e).value * (num * tenPow (-(place - 17)).toNat) := Nat.mul_assoc _ _ _

/-- **The digits of a float begin with one that is not zero.** -/
theorem shortest_digits (hm : m ≠ 0) (he : -1074 ≤ e) :
    ∃ d ds, (shortest m e).1 = d :: ds ∧ d ≠ '0' ∧ Text.AllDigits (d :: ds) := by
  have hgrid : (Ratio.dyadic m e).place + 1 - ((1 + 17 : Nat) : Int) =
      (Ratio.dyadic m e).place - 17 := by omega
  have hunit : ((Span.of m e).unit.scale ((Ratio.dyadic m e).place - 17)).den ≠ 0 :=
    (Nat.mul_pos (Nat.two_pow_pos _) (Nat.pow_pos (by decide))).ne'
  have hc : ((Span.of m e).search (Ratio.dyadic m e).place 17 1).1 ≠ 0 := by
    refine Span.search_ne_zero ?_ ?_
    · rw [hgrid]
      exact hunit
    · rw [hgrid]
      exact Span.grid_le hm he rfl
  obtain ⟨d, ds, hdigits, hd⟩ := Text.toDigits_head hc
  have hall := Text.allDigits_toDigits ((Span.of m e).search (Ratio.dyadic m e).place 17 1).1
  show ∃ d ds, List.rdropWhile (· == '0')
    (Nat.toDigits 10 ((Span.of m e).search (Ratio.dyadic m e).place 17 1).1) = d :: ds ∧ _
  -- the digits without the zeros at their end begin as they do with them
  rw [hdigits] at hall ⊢
  obtain ⟨dropped, hdropped⟩ := List.rdropWhile_prefix (· == '0') (l := d :: ds)
  cases hkept : List.rdropWhile (· == '0') (d :: ds) with
  | nil =>
    have hzero := List.rdropWhile_eq_nil_iff.mp hkept d List.mem_cons_self
    exact absurd (eq_of_beq hzero) hd
  | cons d' kept =>
    rw [hkept] at hdropped
    obtain ⟨rfl, rfl⟩ := List.cons.inj hdropped
    exact ⟨d', kept, rfl, hd, fun c hc => hall c (List.mem_append_left dropped hc)⟩

/-- The least exponent of a float. -/
theorem le_of_ofFloat {m : Int} (h : ofFloat x = .finite m e) : -1074 ≤ e := by
  unfold ofFloat at h
  dsimp only at h
  split at h
  · split at h <;> cases h
  · split at h
    · cases h
      exact Int.le_refl _
    · rename_i hbiased
      cases h
      have hne : x.toBits.toNat / twoPow 52 % 2048 ≠ 0 := fun heq => hbiased (by simp [heq])
      omega

end Floats

end Decimal

/-! ### Reading a number -/

namespace Json

/-- A text that does not go on with a number that it follows. -/
def EndsNumber (rest : List Char) : Prop :=
  ∀ c ∈ rest.head?, isAsciiDigit c = false ∧ c ≠ '.' ∧ c ≠ 'e' ∧ c ≠ 'E'

section Numbers

variable {ds fs rest : List Char} {c d : Char} {n : Int} {negative : Bool} {x : Float}

theorem asciiDigits_append (hds : AllDigits ds) (hrest : ∀ c ∈ rest.head?, isAsciiDigit c = false) :
    asciiDigits (ds ++ rest) = (ds, rest) := by
  have hnone : rest.takeWhile isAsciiDigit = [] ∧ rest.dropWhile isAsciiDigit = rest := by
    rcases rest with _ | ⟨c, rest⟩
    · exact ⟨rfl, rfl⟩
    · have hc := hrest c rfl
      exact ⟨List.takeWhile_cons_of_neg (by simp [hc]), List.dropWhile_cons_of_neg (by simp [hc])⟩
  rw [asciiDigits, List.takeWhile_append_of_pos hds, List.dropWhile_append_of_pos hds, hnone.1,
    hnone.2, List.append_nil]

/-- A whole part is a zero, or it begins with another digit. -/
def IsWhole (ds : List Char) : Prop :=
  AllDigits ds ∧ (ds = ['0'] ∨ ∃ d more, ds = d :: more ∧ d ≠ '0')

theorem isWhole_toDigits (n : Nat) : IsWhole (Nat.toDigits 10 n) := by
  refine ⟨allDigits_toDigits n, ?_⟩
  by_cases h : n = 0
  · exact .inl (by rw [h, Nat.toDigits_zero])
  · exact .inr (toDigits_head h)

theorem whole?_append (h : IsWhole ds) (hrest : ∀ c ∈ rest.head?, isAsciiDigit c = false) :
    whole? (ds ++ rest) = some (ds, rest) := by
  obtain ⟨hall, rfl | ⟨d, more, rfl, hd⟩⟩ := h
  · rfl
  · have hdigits := asciiDigits_append hall hrest
    rw [List.cons_append] at hdigits ⊢
    unfold whole?
    split
    · rename_i heq
      exact absurd (List.cons.inj heq).1 hd
    · rw [hdigits]

theorem fraction?_of_endsNumber (h : EndsNumber rest) : fraction? rest = none := by
  rcases rest with _ | ⟨c, rest⟩
  · rfl
  · have hc := (h c rfl).2.1
    unfold fraction?
    split
    · rename_i heq
      exact absurd (List.cons.inj heq).1 hc
    · rfl

theorem exponent?_of_endsNumber (h : EndsNumber rest) : exponent? rest = none := by
  rcases rest with _ | ⟨c, rest⟩
  · rfl
  · obtain ⟨-, -, hlower, hupper⟩ := h c rfl
    simp [exponent?, hlower, hupper]

theorem EndsNumber.noDigit (h : EndsNumber rest) : ∀ c ∈ rest.head?, isAsciiDigit c = false :=
  fun c hc => (h c hc).1

/-- A number behind its sign. -/
def signed (negative : Bool) (cs : List Char) : List Char := if negative then '-' :: cs else cs

theorem IsWhole.head (h : IsWhole ds) : ∃ d more, ds = d :: more ∧ isAsciiDigit d = true := by
  obtain ⟨hall, rfl | ⟨d, more, rfl, -⟩⟩ := h
  · exact ⟨'0', [], rfl, rfl⟩
  · exact ⟨d, more, rfl, hall d List.mem_cons_self⟩

/-- A first digit is no minus. -/
theorem ne_minus (h : isAsciiDigit d = true) : d ≠ '-' := by
  rintro rfl
  exact absurd h (by decide)

/-- What a number comes to once its sign and its whole part have been read. -/
def afterWhole (negative : Bool) (ds rest : List Char) : Except Stop (Value × List Char) :=
  match fraction? rest, exponent? rest with
  | none, none =>
    if numeralLimit < ds.length then .error (.hugeNumeral ds.length)
    else
      let n : Int := Decimal.digitsValue ds
      .ok (.int (if negative then -n else n), rest)
  | none, some (e, rest) => .ok (.float (Decimal.ofParts negative ds [] e), rest)
  | some (fs, rest), _ =>
    match exponent? rest with
    | some (e, rest) => .ok (.float (Decimal.ofParts negative ds fs e), rest)
    | none => .ok (.float (Decimal.ofParts negative ds fs 0), rest)

theorem readNumber_signed (hds : IsWhole ds) (hrest : ∀ c ∈ rest.head?, isAsciiDigit c = false)
    (negative : Bool) :
    readNumber (signed negative (ds ++ rest)) = afterWhole negative ds rest := by
  have hwhole := whole?_append hds hrest
  cases negative with
  | true =>
    show readNumber ('-' :: (ds ++ rest)) = _
    simp only [readNumber, hwhole]
    rfl
  | false =>
    show readNumber (ds ++ rest) = _
    obtain ⟨d, more, rfl, hd⟩ := hds.head
    rw [List.cons_append] at hwhole ⊢
    simp only [readNumber, List.cons.injEq, ne_minus hd, false_and, imp_false, not_false_eq_true,
      implies_true, hwhole]
    rfl

/-- **An integer is read back**, whatever follows that does not go on with it. -/
theorem readNumber_integer (hds : IsWhole ds) (hlimit : ds.length ≤ numeralLimit)
    (hrest : EndsNumber rest) :
    readNumber (signed negative (ds ++ rest)) =
      .ok (.int (if negative then -(Decimal.digitsValue ds : Int) else Decimal.digitsValue ds),
        rest) := by
  rw [readNumber_signed hds hrest.noDigit, afterWhole, fraction?_of_endsNumber hrest,
    exponent?_of_endsNumber hrest]
  exact if_neg (Nat.not_lt.mpr hlimit)

theorem fraction?_point (hne : fs ≠ []) (hfs : AllDigits fs)
    (hrest : ∀ c ∈ rest.head?, isAsciiDigit c = false) :
    fraction? ('.' :: (fs ++ rest)) = some (fs, rest) := by
  obtain ⟨f, more, rfl⟩ := List.exists_cons_of_ne_nil hne
  rw [fraction?, asciiDigits_append hfs hrest]

/-- An exponent as it is written, with its sign. -/
def exponentText (place : Int) (width : Nat) : List Char :=
  'e' :: (if place < 0 then '-' else '+') ::
    (Decimal.zeros (width - (Nat.toDigits 10 place.natAbs).length) ++
      Nat.toDigits 10 place.natAbs)

/-- An exponent is read up to where its digits end. -/
theorem exponent?_exponentText (place : Int) (width : Nat) :
    ∃ e, ∀ rest, (∀ c ∈ rest.head?, isAsciiDigit c = false) →
      exponent? (exponentText place width ++ rest) = some (e, rest) := by
  set power := Decimal.zeros (width - (Nat.toDigits 10 place.natAbs).length) ++
    Nat.toDigits 10 place.natAbs with hpower
  have hdigits : AllDigits power := (allDigits_zeros _).append (allDigits_toDigits _)
  obtain ⟨p, more, hcons⟩ : ∃ p more, power = p :: more :=
    List.exists_cons_of_ne_nil (by simp [hpower, Nat.toDigits_ne_nil])
  refine ⟨if place < 0 then -(Decimal.digitsValue power : Int) else Decimal.digitsValue power,
    fun rest hrest => ?_⟩
  have happend := asciiDigits_append hdigits hrest
  have htext : exponentText place width ++ rest =
      'e' :: (if place < 0 then '-' else '+') :: (power ++ rest) := rfl
  rw [hcons] at happend htext ⊢
  rw [htext]
  split <;>
    simp only [exponent?, Decimal.splitSign, happend] <;> rfl

theorem IsWhole.cons_append (hd : d ≠ '0') (hds : AllDigits (d :: ds)) (hfs : AllDigits fs) :
    IsWhole (d :: ds ++ fs) :=
  ⟨hds.append hfs, .inr ⟨d, ds ++ fs, rfl, hd⟩⟩

/-- A whole part with a fraction. -/
theorem readNumber_point (hds : IsWhole ds) (hne : fs ≠ []) (hfs : AllDigits fs)
    (hrest : EndsNumber rest) (negative : Bool) :
    readNumber (signed negative (ds ++ '.' :: fs ++ rest)) =
      .ok (.float (Decimal.ofParts negative ds fs 0), rest) := by
  have hpoint : ∀ c ∈ ('.' :: (fs ++ rest)).head?, isAsciiDigit c = false := by
    simp only [List.head?_cons, Option.mem_some_iff, forall_eq']
    decide
  rw [List.append_assoc, List.cons_append, readNumber_signed hds hpoint, afterWhole,
    fraction?_point hne hfs hrest.noDigit]
  simp only [exponent?_of_endsNumber hrest]

/-- A whole part with an exponent, and perhaps a fraction between them. -/
theorem readNumber_exponent (hds : IsWhole ds) (hfs : AllDigits fs) (place : Int) (width : Nat)
    (negative : Bool) :
    ∃ y, ∀ rest, EndsNumber rest →
      readNumber (signed negative
        (ds ++ (if fs = [] then [] else '.' :: fs) ++ exponentText place width ++ rest)) =
          .ok (.float y, rest) := by
  obtain ⟨e, hexponent⟩ := exponent?_exponentText place width
  refine ⟨Decimal.ofParts negative ds fs e, fun rest hrest => ?_⟩
  have hread := hexponent rest hrest.noDigit
  have hletter : ∀ c ∈ (exponentText place width ++ rest).head?, isAsciiDigit c = false := by
    simp only [exponentText, List.cons_append, List.head?_cons, Option.mem_some_iff, forall_eq']
    decide
  split
  · rename_i hnil
    have hnone : fraction? (exponentText place width ++ rest) = none := rfl
    rw [List.append_nil, List.append_assoc, readNumber_signed hds hletter, afterWhole, hnone, hread,
      hnil]
  · rename_i hne
    have hpoint : ∀ c ∈ ('.' :: (fs ++ (exponentText place width ++ rest))).head?,
        isAsciiDigit c = false := by
      simp only [List.head?_cons, Option.mem_some_iff, forall_eq']
      decide
    rw [List.append_assoc, List.append_assoc, List.cons_append, readNumber_signed hds hpoint,
      afterWhole, fraction?_point hne hfs hletter]
    simp only [hread]

/-- **The digits of a float are read as a float**, whatever follows that does not go on with
them. -/
theorem readNumber_digits (hd : d ≠ '0') (hds : AllDigits (d :: ds)) (place : Int)
    (negative : Bool) :
    ∃ y, ∀ rest, EndsNumber rest →
      readNumber (signed negative (floatLayout.digits (d :: ds) place ++ rest)) =
        .ok (.float y, rest) := by
  have hzeros := allDigits_zeros
  unfold Decimal.Layout.digits
  split
  · split
    · -- a zero before the point, and more after it
      have hwhole : IsWhole ['0'] := ⟨by simp [AllDigits, isAsciiDigit], .inl rfl⟩
      exact ⟨_, fun rest hrest => readNumber_point hwhole (by simp) ((hzeros _).append hds) hrest
        negative⟩
    · dsimp only
      split
      · -- the digits end before the point
        have hwhole := IsWhole.cons_append hd hds (hzeros (place.toNat + 1 - (d :: ds).length))
        have hfraction : AllDigits ['0'] := by simp [AllDigits, isAsciiDigit]
        exact ⟨_, fun rest hrest => readNumber_point hwhole (by simp) hfraction hrest negative⟩
      · -- the point stands between the digits
        rename_i hlong
        have htake : IsWhole ((d :: ds).take (place.toNat + 1)) :=
          ⟨fun c hc => hds c (List.mem_of_mem_take hc), .inr ⟨d, _, rfl, hd⟩⟩
        have hdrop : (d :: ds).drop (place.toNat + 1) ≠ [] := by
          rw [Ne, List.drop_eq_nil_iff]
          exact hlong
        have hfraction : AllDigits ((d :: ds).drop (place.toNat + 1)) :=
          fun c hc => hds c (List.mem_of_mem_drop hc)
        exact ⟨_, fun rest hrest => readNumber_point htake hdrop hfraction hrest negative⟩
  · -- one digit before the point, and an exponent
    have hwhole : IsWhole [d] :=
      ⟨fun c hc => hds c (List.mem_of_mem_take (i := 1) hc), .inr ⟨d, [], rfl, hd⟩⟩
    have hmore : AllDigits ds := fun c hc => hds c (List.mem_cons_of_mem d hc)
    obtain ⟨y, hy⟩ := readNumber_exponent hwhole hmore place floatLayout.exponentWidth negative
    refine ⟨y, fun rest hrest => ?_⟩
    rw [← hy rest hrest, exponentText]
    rcases ds with _ | ⟨d', ds⟩
    · by_cases hneg : place < 0 <;> simp [hneg]
    · by_cases hneg : place < 0 <;> simp [hneg]

end Numbers

end Json

end ApiSuite
