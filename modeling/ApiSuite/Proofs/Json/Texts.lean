import ApiSuite.Json.Printer
import ApiSuite.Json.Reader
import Mathlib.Tactic.SplitIfs

/-!
# Texts that are written read back

A text is written in code units: most characters are one, and those past the first plane are a pair
of halves (`ApiSuite.Json.units`). Each character is written so that reading it gives its code units
and goes on behind it (`ApiSuite.Json.readUnits_escaped`), and the code units of a text put together
again are the text (`ApiSuite.Json.joinHalves_units`). So a text in its quotes is read back as
itself, whatever follows (`ApiSuite.Json.readText_quote`).
-/

namespace ApiSuite.Json

/-! ### Escapes of code units -/

section Escapes

variable {n : Nat} {opening rest : List Char} {c : Char}

theorem hexValue?_hexDigit (h : n < 16) : hexValue? (Text.hexDigit n) = some n := by
  have hall : ∀ i : Fin 16, hexValue? (Text.hexDigit i) = some i.val := by decide +kernel
  exact hall ⟨n, h⟩

theorem hexDigits_four (n : Nat) :
    Text.hexDigits 4 n =
      [Text.hexDigit (n / 4096 % 16), Text.hexDigit (n / 256 % 16), Text.hexDigit (n / 16 % 16),
        Text.hexDigit (n % 16)] := by
  simp [Text.hexDigits, Nat.div_div_eq_div_mul]

/-- The digits of a code unit denote it. -/
theorem unit?_hexDigits (h : n < 0x10000) :
    unit? (Text.hexDigit (n / 4096 % 16)) (Text.hexDigit (n / 256 % 16))
      (Text.hexDigit (n / 16 % 16)) (Text.hexDigit (n % 16)) = some n := by
  have hdigit (k : Nat) : hexValue? (Text.hexDigit (k % 16)) = some (k % 16) :=
    hexValue?_hexDigit (Nat.mod_lt k (by decide))
  simp only [unit?, hdigit, Option.bind_eq_bind, Option.bind_some]
  show some _ = some n
  congr 1
  omega

/-- An escape of a code unit is read, if more follows. -/
theorem readUnits_unitEscape (h : n < 0x10000) (hrest : rest ≠ []) :
    readUnits opening (unitEscape n ++ rest) =
      (readUnits opening rest).map fun out => (n :: out.1, out.2) := by
  obtain ⟨e, more, rfl⟩ := List.exists_cons_of_ne_nil hrest
  rw [unitEscape, hexDigits_four]
  simp only [List.cons_append, List.nil_append]
  rw [readUnits]
  rw [unit?_hexDigits h]
  cases readUnits opening (e :: more) <;> rfl

end Escapes

/-! ### Characters and their code units -/

/-- The code units of a character. -/
def units (c : Char) : List Nat :=
  if c.toNat ≤ 0xffff then [c.toNat]
  else [0xd800 + (c.toNat - 0x10000) / 0x400, 0xdc00 + (c.toNat - 0x10000) % 0x400]

section Characters

variable {opening rest : List Char} {c : Char}

theorem toNat_lt (c : Char) : c.toNat < 0x110000 := by
  have h : c.toNat < 0xd800 ∨ 0xdfff < c.toNat ∧ c.toNat < 0x110000 := c.valid
  omega

/-- A character is no half of a pair. -/
theorem not_half (c : Char) : isHighHalf c.toNat = false ∧ isLowHalf c.toNat = false := by
  have h : c.toNat < 0xd800 ∨ 0xdfff < c.toNat ∧ c.toNat < 0x110000 := c.valid
  simp only [isHighHalf, isLowHalf, Bool.and_eq_false_iff, decide_eq_false_iff_not]
  omega

/-- A simple escape is read as the character that it stands for. -/
theorem readUnits_escape {e : Char} (he : escape? e = some c) :
    readUnits opening ('\\' :: e :: rest) =
      (readUnits opening rest).map fun out => (c.toNat :: out.1, out.2) := by
  have hne : e ≠ 'u' := by
    rintro rfl
    have hnone : escape? 'u' = none := by decide
    cases hnone.symm.trans he
  rw [readUnits.eq_def]
  split
  · simp_all
  · rename_i heq
    exact absurd (List.cons.inj heq).1 (by decide)
  · simp_all
  · rename_i heq
    exact absurd (List.cons.inj (List.cons.inj heq).2).1 hne
  · rename_i heq
    exact absurd (List.cons.inj (List.cons.inj heq).2).1 hne
  · rename_i heq
    obtain ⟨rfl, rfl⟩ := List.cons.inj (List.cons.inj heq).2
    rw [he]
    dsimp only
    cases readUnits opening rest <;> rfl
  · rename_i hnot heq
    obtain ⟨rfl, rfl⟩ := List.cons.inj heq
    exact absurd rfl (hnot _ _ rfl)

/-- A character that needs no escape is read as it is. -/
theorem readUnits_plain (hlow : 0x20 ≤ c.toNat) (hquote : c ≠ '"') (hslash : c ≠ '\\') :
    readUnits opening (c :: rest) =
      (readUnits opening rest).map fun out => (c.toNat :: out.1, out.2) := by
  rw [readUnits.eq_def]
  split
  · simp_all
  · rename_i heq
    exact absurd (List.cons.inj heq).1 hquote
  · rename_i heq
    exact absurd (List.cons.inj heq).1 hslash
  · rename_i heq
    exact absurd (List.cons.inj heq).1 hslash
  · rename_i heq
    exact absurd (List.cons.inj heq).1 hslash
  · rename_i heq
    exact absurd (List.cons.inj heq).1 hslash
  · rename_i heq
    obtain ⟨rfl, rfl⟩ := List.cons.inj heq
    rw [if_neg (by omega)]
    cases readUnits opening rest <;> rfl

/-- **Reading a written character gives its code units** and goes on behind it. -/
theorem readUnits_escaped (c : Char) (hrest : rest ≠ []) :
    readUnits opening (escaped c ++ rest) =
      (readUnits opening rest).map fun out => (units c ++ out.1, out.2) := by
  have hsimple : ∀ {e : Char}, escape? e = some c → c.toNat ≤ 0xffff →
      readUnits opening (['\\', e] ++ rest) =
        (readUnits opening rest).map fun out => (units c ++ out.1, out.2) := by
    intro e he hc
    rw [units, if_pos hc]
    exact readUnits_escape he
  unfold escaped
  dsimp only
  split_ifs with hquote hslash hfeed hreturn htab hback hform hplain hshort
  · obtain rfl := eq_of_beq hquote
    exact hsimple rfl (by decide)
  · obtain rfl := eq_of_beq hslash
    exact hsimple rfl (by decide)
  · obtain rfl := eq_of_beq hfeed
    exact hsimple rfl (by decide)
  · obtain rfl := eq_of_beq hreturn
    exact hsimple rfl (by decide)
  · obtain rfl := eq_of_beq htab
    exact hsimple rfl (by decide)
  · have hc : c = Char.ofNat 8 := by rw [← eq_of_beq hback, Char.ofNat_toNat]
    subst hc
    exact hsimple rfl (by decide)
  · have hc : c = Char.ofNat 12 := by rw [← eq_of_beq hform, Char.ofNat_toNat]
    subst hc
    exact hsimple rfl (by decide)
  · simp only [Bool.and_eq_true, decide_eq_true_eq] at hplain
    rw [units, if_pos (by omega)]
    exact readUnits_plain hplain.1 (by simpa using hquote) (by simpa using hslash)
  · rw [units, if_pos hshort]
    exact readUnits_unitEscape (by omega) hrest
  · -- past the first plane there are two escapes, and more follows the first
    have hlt := toNat_lt c
    have hhigh : 0xd800 + (c.toNat - 0x10000) / 0x400 < 0x10000 := by omega
    have hlow : 0xdc00 + (c.toNat - 0x10000) % 0x400 < 0x10000 := by omega
    rw [units, if_neg hshort, List.append_assoc, readUnits_unitEscape hhigh (by simp [unitEscape]),
      readUnits_unitEscape hlow hrest]
    cases readUnits opening rest <;> rfl

/-- **The code units of a text make up the text.** -/
theorem joinHalves_units (cs : List Char) : joinHalves (cs.flatMap units) = cs := by
  induction cs with
  | nil => rfl
  | cons c cs ih =>
    obtain ⟨hhigh, hlow⟩ := not_half c
    rw [List.flatMap_cons, units]
    split
    · have hunit : ofUnit c.toNat = c := by simp [ofUnit, hhigh, hlow]
      show joinHalves (c.toNat :: cs.flatMap units) = c :: cs
      cases hrest : cs.flatMap units with
      | nil =>
        rw [hrest] at ih
        rw [joinHalves, hunit, ← ih]
        rfl
      | cons n ns =>
        rw [hrest] at ih
        rw [joinHalves, if_neg (by simp [hhigh]), hunit, ih]
    · have hlt := toNat_lt c
      have hpair : isHighHalf (0xd800 + (c.toNat - 0x10000) / 0x400) = true ∧
          isLowHalf (0xdc00 + (c.toNat - 0x10000) % 0x400) = true := by
        simp only [isHighHalf, isLowHalf, Bool.and_eq_true, decide_eq_true_eq]
        omega
      have hsum : 0x10000 + (0xd800 + (c.toNat - 0x10000) / 0x400 - 0xd800) * 0x400 +
          (0xdc00 + (c.toNat - 0x10000) % 0x400 - 0xdc00) = c.toNat := by
        omega
      have hchar : ofPair (0xd800 + (c.toNat - 0x10000) / 0x400)
          (0xdc00 + (c.toNat - 0x10000) % 0x400) = c := by
        rw [ofPair, hsum, Char.ofNat_toNat]
      show joinHalves (_ :: _ :: cs.flatMap units) = c :: cs
      rw [joinHalves, if_pos (by simp [hpair]), hchar, ih]

end Characters

/-! ### Texts in their quotes -/

/-- Reading written characters up to the closing quote gives the code units of all of them. -/
theorem readUnits_flatMap (opening cs rest : List Char) :
    readUnits opening (cs.flatMap escaped ++ '"' :: rest) = .ok (cs.flatMap units, rest) := by
  induction cs with
  | nil =>
    rw [List.flatMap_nil, List.nil_append, readUnits]
    rfl
  | cons c cs ih =>
    rw [List.flatMap_cons, List.append_assoc, readUnits_escaped c (by simp), ih]
    rfl

/-- **A text in its quotes is read back**, and what follows it is left. -/
theorem readText_quote (s : String) (opening rest : List Char) :
    readText opening (s.toList.flatMap escaped ++ '"' :: rest) = .ok (s, rest) := by
  rw [readText, readUnits_flatMap]
  show Except.ok (String.ofList (joinHalves (s.toList.flatMap units)), rest) = _
  rw [joinHalves_units, String.ofList_toList]

end ApiSuite.Json
