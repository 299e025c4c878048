/-!
# Blank characters and trimming

Texts read from documents are trimmed by one rule throughout: a **blank** is a
character of the Unicode white-space class together with the four information
separators U+001C to U+001F. `ApiSuite.Text.trim` removes blanks from both ends of a
character sequence and nothing else.
-/

namespace ApiSuite.Text

/-- A character that trimming removes: Unicode white space, or one of the four
information separators. -/
def isBlank (c : Char) : Bool :=
  let n := c.toNat
  (9 ≤ n && n ≤ 13) || (0x1c ≤ n && n ≤ 0x20) || n == 0x85 || n == 0xa0 || n == 0x1680 ||
    (0x2000 ≤ n && n ≤ 0x200a) || n == 0x2028 || n == 0x2029 || n == 0x202f || n == 0x205f ||
    n == 0x3000

/-- The text after its leading blanks. -/
def trimStart (cs : List Char) : List Char :=
  cs.dropWhile isBlank

/-- The text before its trailing blanks. -/
def trimEnd (cs : List Char) : List Char :=
  (cs.reverse.dropWhile isBlank).reverse

/-- The text without the blanks at its two ends. -/
def trim (cs : List Char) : List Char :=
  trimEnd (trimStart cs)

/-- `trim` on strings. -/
def strip (s : String) : String :=
  String.ofList (trim s.toList)

@[simp] theorem trim_nil : trim [] = [] := rfl

section Ends

variable {c : Char} {cs ds : List Char}

theorem trimEnd_append :
    trimEnd (cs ++ ds) = if trimEnd ds = [] then trimEnd cs else cs ++ trimEnd ds := by
  rw [trimEnd, List.reverse_append, List.dropWhile_append]
  simp only [trimEnd, List.reverse_eq_nil_iff, List.isEmpty_iff]
  split
  · rfl
  · rw [List.reverse_append, List.reverse_reverse]

theorem trimEnd_append_blank (hc : isBlank c) : trimEnd (cs ++ [c]) = trimEnd cs := by
  rw [trimEnd_append, if_pos]
  simp [trimEnd, hc]

/-- A blank before a text makes no difference to what it is trimmed to. -/
theorem trim_blank_cons (hc : isBlank c) (cs : List Char) : trim (c :: cs) = trim cs := by
  rw [trim, trimStart, List.dropWhile_cons_of_pos hc]
  rfl

/-- A blank after a text makes no difference to what it is trimmed to. -/
theorem trim_append_blank (hc : isBlank c) (cs : List Char) : trim (cs ++ [c]) = trim cs := by
  rw [trim, trimStart, List.dropWhile_append]
  split
  · rename_i hnil
    rw [trim, trimStart, List.isEmpty_iff.mp hnil]
    simp [hc]
  · exact trimEnd_append_blank hc

theorem trim_trimEnd (cs : List Char) : trim (trimEnd cs) = trim cs := by
  suffices h : ∀ ds : List Char, trim (ds.dropWhile isBlank).reverse = trim ds.reverse by
    have hcs := h cs.reverse
    rwa [List.reverse_reverse] at hcs
  intro ds
  induction ds with
  | nil => rfl
  | cons c ds ih =>
    by_cases hc : isBlank c
    · rw [List.dropWhile_cons_of_pos hc, ih, List.reverse_cons, trim_append_blank hc]
    · rw [List.dropWhile_cons_of_neg hc]

end Ends

end ApiSuite.Text
