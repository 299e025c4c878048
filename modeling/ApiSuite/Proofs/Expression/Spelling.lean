import ApiSuite.Proofs.Expression.Tokens
import Mathlib.Data.List.Basic
import Mathlib.Data.List.Induction
import Mathlib.Data.List.TakeWhile

/-!
# What a spelling looks like from outside

A text that spells tokens is taken here as a text, whatever the tokens are. What is used of them is
that each is either a quotation or free of blanks, quotes and braces
(`ApiSuite.Expression.Token.Spelled.bare_or_quotes`). Two things follow for the whole text.

* The blanks at its ends may go: it still spells the same tokens when it is trimmed
  (`ApiSuite.Expression.Spells.trim`).
* Its quotes come in pairs, and a brace stands inside a pair. So a text that is cut off at a
  closing brace is cut off in a quotation, and spells nothing any more
  (`ApiSuite.Expression.not_spells_of_cut`).
-/

namespace ApiSuite.Expression

open Text

/-! ### The characters of a token -/

/-- A character of a token that is no quotation: it is no blank, no quote and no brace. -/
structure IsBare (c : Char) : Prop where
  notBlank : isBlank c = false
  notQuote : c ≠ '\'' ∧ c ≠ '"'
  notBrace : c ≠ '{' ∧ c ≠ '}'

instance (c : Char) : Decidable (IsBare c) :=
  decidable_of_iff (isBlank c = false ∧ (c ≠ '\'' ∧ c ≠ '"') ∧ c ≠ '{' ∧ c ≠ '}')
    ⟨fun ⟨hblank, hquote, hbrace⟩ => ⟨hblank, hquote, hbrace⟩,
      fun h => ⟨h.notBlank, h.notQuote, h.notBrace⟩⟩

section Characters

variable {c : Char} {cs sp : List Char} {t : Token}

/-- No digit is a blank, in any script. -/
theorem isBlank_of_isDecimalDigit (h : isDecimalDigit c) : isBlank c = false := by
  simp only [isDecimalDigit, decimalDigit?, Option.isSome_map] at h
  obtain ⟨z, hz⟩ := Option.isSome_iff_exists.mp h
  have hapart : (32 < z ∧ z + 9 < 133) ∨ (160 < z ∧ z + 9 < 5760) ∨ (5760 < z ∧ z + 9 < 8192) ∨
      (8287 < z ∧ z + 9 < 12288) ∨ 12288 < z :=
    (by decide : ∀ z ∈ digitZeros, (32 < z ∧ z + 9 < 133) ∨ (160 < z ∧ z + 9 < 5760) ∨
      (5760 < z ∧ z + 9 < 8192) ∨ (8287 < z ∧ z + 9 < 12288) ∨ 12288 < z) z
      (List.mem_of_find?_eq_some hz)
  have hrange := List.find?_some hz
  simp only [Bool.and_eq_true, decide_eq_true_eq] at hrange
  rw [Bool.eq_false_iff]
  intro hblank
  simp only [isBlank, Bool.or_eq_true, Bool.and_eq_true, decide_eq_true_eq, beq_iff_eq] at hblank
  omega

theorem isBare_of_isDecimalDigit (h : isDecimalDigit c) : IsBare c := by
  refine ⟨isBlank_of_isDecimalDigit h, ⟨?_, ?_⟩, ?_, ?_⟩
  all_goals
    rintro rfl
    exact absurd h (by decide)

theorem isBare_of_continuesName (h : ContinuesName c) : IsBare c := by
  rw [← isNamePart_iff] at h
  refine ⟨?_, ⟨?_, ?_⟩, ?_, ?_⟩
  · rw [Bool.eq_false_iff]
    intro hblank
    simp only [isNamePart, isNameStart, Bool.or_eq_true, Bool.and_eq_true, decide_eq_true_eq,
      beq_iff_eq, Char.le_def, UInt32.le_iff_toNat_le] at h
    simp only [isBlank, Bool.or_eq_true, Bool.and_eq_true, decide_eq_true_eq, beq_iff_eq] at hblank
    rcases h with ((((⟨hl, hu⟩ | ⟨hl, hu⟩) | rfl) | rfl) | ⟨hl, hu⟩) | rfl
    all_goals simp only [Char.toNat] at *
    all_goals simp at *
    all_goals omega
  all_goals
    rintro rfl
    exact absurd h (by decide)

theorem bare_of_isNumeral {ds : List Char} (h : IsNumeral ds) : ∀ c ∈ ds, IsBare c :=
  fun c hc => isBare_of_isDecimalDigit (h.isDecimalDigit c hc)

theorem bare_of_all (h : cs.all fun c => decide (IsBare c)) : ∀ c ∈ cs, IsBare c :=
  fun c hc => of_decide_eq_true (List.all_eq_true.mp h c hc)

theorem bare_signChars (negative : Bool) : ∀ c ∈ signChars negative, IsBare c :=
  bare_of_all (by cases negative <;> decide)

theorem bare_append {ds : List Char} (hcs : ∀ c ∈ cs, IsBare c) (hds : ∀ c ∈ ds, IsBare c) :
    ∀ c ∈ cs ++ ds, IsBare c :=
  fun c hc => (List.mem_append.mp hc).elim (hcs c) (hds c)

/-- **A token is a quotation, or it is free of blanks, quotes and braces.** -/
theorem Token.Spelled.bare_or_quotes (h : t.Spelled sp) :
    (∀ c ∈ sp, IsBare c) ∨ ∃ body, Quotes body sp := by
  cases h with
  | @name c cs hc hcs =>
    refine .inl (List.forall_mem_cons.mpr ⟨?_, fun d hd => isBare_of_continuesName (hcs d hd)⟩)
    exact isBare_of_continuesName (.inl hc)
  | @integer n w hw => exact .inl (bare_append (bare_signChars n) (bare_of_isNumeral hw))
  | @decimal n w f hw hf =>
    refine .inl (bare_append (bare_append (bare_signChars n) (bare_of_isNumeral hw)) ?_)
    exact List.forall_mem_cons.mpr ⟨by decide, bare_of_isNumeral hf⟩
  | index hds => exact .inl (bare_of_isNumeral hds)
  | text hq | key hq => exact .inr ⟨_, hq⟩
  | comparison op =>
    exact .inl (bare_of_all (by rcases op with - | - | - | - | (- | - | - | -) <;> decide))
  | _ => exact .inl (bare_of_all (by decide))

theorem Token.Spelled.ne_nil (h : t.Spelled sp) : sp ≠ [] := by
  cases h with
  | @integer n w hw => exact fun h0 => hw.1 (List.append_eq_nil_iff.mp h0).2
  | @decimal n w f hw hf => exact fun h0 => nomatch (List.append_eq_nil_iff.mp h0).2
  | index hds => exact hds.1
  | text hq | key hq => cases hq <;> simp
  | comparison op => rcases op with - | - | - | - | (- | - | - | -) <;> decide
  | _ => simp

theorem Quotes.ends {body : List Char} (h : Quotes body sp) :
    ∃ q, (q = '\'' ∨ q = '"') ∧ q ∉ body ∧ sp = q :: (body ++ [q]) := by
  cases h with
  | single hq => exact ⟨_, .inl rfl, hq, rfl⟩
  | double hq => exact ⟨_, .inr rfl, hq, rfl⟩

theorem isBlank_of_quote (h : c = '\'' ∨ c = '"') : isBlank c = false := by
  rcases h with rfl | rfl <;> decide

/-- A token does not begin with a blank. -/
theorem Token.Spelled.head (h : t.Spelled sp) : ∃ c more, sp = c :: more ∧ isBlank c = false := by
  rcases h.bare_or_quotes with hbare | ⟨body, hq⟩
  · cases sp with
    | nil => exact absurd rfl h.ne_nil
    | cons c more => exact ⟨c, more, rfl, (hbare c List.mem_cons_self).notBlank⟩
  · obtain ⟨q, hquote, -, rfl⟩ := hq.ends
    exact ⟨q, _, rfl, isBlank_of_quote hquote⟩

/-- A token does not end with a blank. -/
theorem Token.Spelled.last (h : t.Spelled sp) : ∃ more c, sp = more ++ [c] ∧ isBlank c = false := by
  rcases h.bare_or_quotes with hbare | ⟨body, hq⟩
  · obtain ⟨more, c, rfl⟩ := List.eq_nil_or_concat' sp |>.resolve_left h.ne_nil
    exact ⟨more, c, rfl, (hbare c (by simp)).notBlank⟩
  · obtain ⟨q, hquote, -, rfl⟩ := hq.ends
    exact ⟨q :: body, q, rfl, isBlank_of_quote hquote⟩

end Characters

/-! ### Blanks at the ends -/

section Blanks

variable {cs sp : List Char} {ts : List Token}

theorem isBlank_of_isWhite {c : Char} (h : IsWhite c) : isBlank c := by
  simp only [IsWhite, List.mem_cons, List.not_mem_nil, or_false] at h
  rcases h with rfl | rfl | rfl | rfl | rfl <;> decide

theorem Spells.trimStart (h : Spells ts cs) : Spells ts (trimStart cs) := by
  cases h with
  | nil hblanks =>
    have hnil : cs.dropWhile isBlank = [] :=
      List.dropWhile_eq_nil_iff.mpr fun c hc => isBlank_of_isWhite (hblanks c hc)
    rw [Text.trimStart, hnil]
    exact .nil (by simp)
  | @cons t ts blanks sp rest hblanks hsp hrest =>
    obtain ⟨c, more, rfl, hc⟩ := hsp.head
    rw [Text.trimStart, List.dropWhile_append_of_pos fun c hc => isBlank_of_isWhite (hblanks c hc),
      List.cons_append, List.dropWhile_cons_of_neg (by simp [hc])]
    exact .token hsp hrest

theorem Spells.trimEnd (h : Spells ts cs) : Spells ts (trimEnd cs) := by
  induction h with
  | @nil blanks hblanks =>
    have hnil : blanks.reverse.dropWhile isBlank = [] := by
      refine List.dropWhile_eq_nil_iff.mpr fun c hc => isBlank_of_isWhite (hblanks c ?_)
      exact List.mem_reverse.mp hc
    rw [Text.trimEnd, hnil]
    exact .nil (by simp)
  | @cons t ts blanks sp rest hblanks hsp hrest ih =>
    have hsame : Text.trimEnd (blanks ++ (sp ++ rest)) = blanks ++ (sp ++ Text.trimEnd rest) := by
      rw [← List.append_assoc, trimEnd_append]
      split
      · -- only blanks are left after the token, which itself ends with something else
        rename_i hnil
        obtain ⟨more, c, rfl, hc⟩ := hsp.last
        rw [hnil, List.append_nil, ← List.append_assoc, trimEnd_append, if_neg]
        · simp [Text.trimEnd, hc]
        · simp [Text.trimEnd, hc]
      · rw [List.append_assoc]
    rw [hsame]
    exact .cons hblanks hsp ih

/-- **The blanks around a spelling make no difference.** -/
theorem Spells.trim (h : Spells ts cs) : Spells ts (trim cs) := h.trimStart.trimEnd

/-- A text is what it is when it is trimmed, between blanks. -/
theorem exists_blanks (cs : List Char) :
    ∃ before after, cs = before ++ (Text.trim cs ++ after) ∧ (∀ c ∈ before, isBlank c) ∧
      ∀ c ∈ after, isBlank c := by
  have hend : Text.trimStart cs = Text.trim cs ++
      ((Text.trimStart cs).reverse.takeWhile isBlank).reverse := by
    have h := congrArg List.reverse
      (List.takeWhile_append_dropWhile (p := isBlank) (l := (Text.trimStart cs).reverse))
    rw [List.reverse_append, List.reverse_reverse] at h
    exact h.symm
  refine ⟨cs.takeWhile isBlank, ((Text.trimStart cs).reverse.takeWhile isBlank).reverse, ?_, ?_, ?_⟩
  · rw [← hend, Text.trimStart, List.takeWhile_append_dropWhile]
  · exact fun c hc => List.all_eq_true.mp List.all_takeWhile c hc
  · exact fun c hc => List.all_eq_true.mp List.all_takeWhile c (List.mem_reverse.mp hc)

end Blanks

/-! ### Quotes and braces -/

/-- The quote that is open after a character, given the one that was open before it. -/
def quoteStep (quote : Option Char) (c : Char) : Option Char :=
  match quote with
  | none => if c = '\'' ∨ c = '"' then some c else none
  | some q => if c = q then none else some q

/-- The quote that is open at the end of a text. -/
def openQuote (cs : List Char) : Option Char := cs.foldl quoteStep none

section Quotes

variable {cs ds sp before after : List Char} {ts : List Token} {t : Token} {c q : Char}

/-- A character of two texts that follow each other is in the one or in the other. -/
theorem cut_of_append (h : before ++ c :: after = cs ++ ds) :
    (∃ more, cs = before ++ c :: more) ∨ ∃ more, before = cs ++ more ∧ more ++ c :: after = ds := by
  rcases List.append_eq_append_iff.mp h with ⟨more, rfl, hafter⟩ | ⟨more, rfl, hmore⟩
  · cases more with
    | nil => exact .inr ⟨[], by simp, hafter⟩
    | cons d more =>
      obtain ⟨rfl, -⟩ := List.cons.inj hafter
      exact .inl ⟨more, rfl⟩
  · exact .inr ⟨more, rfl, hmore.symm⟩

theorem foldl_quoteStep_bare (h : ∀ c ∈ cs, c ≠ '\'' ∧ c ≠ '"') :
    cs.foldl quoteStep none = none := by
  induction cs with
  | nil => rfl
  | cons c cs ih =>
    obtain ⟨hc, hcs⟩ := List.forall_mem_cons.mp h
    rw [List.foldl_cons, quoteStep, if_neg (by simp [hc]), ih hcs]

theorem foldl_quoteStep_quoted (h : q ∉ cs) : cs.foldl quoteStep (some q) = some q := by
  induction cs with
  | nil => rfl
  | cons c cs ih =>
    rw [List.mem_cons, not_or] at h
    rw [List.foldl_cons, quoteStep, if_neg (Ne.symm h.1), ih h.2]

theorem openQuote_append (h : openQuote cs = none) : openQuote (cs ++ ds) = openQuote ds := by
  rw [openQuote, List.foldl_append, show cs.foldl quoteStep none = none from h, openQuote]

/-- What is open is a quote. -/
theorem quote_of_openQuote (h : openQuote cs = some q) : q = '\'' ∨ q = '"' := by
  induction cs using List.reverseRecOn generalizing q with
  | nil => cases h
  | append_singleton cs c ih =>
    rw [openQuote, List.foldl_append, List.foldl_cons, List.foldl_nil, ← openQuote] at h
    cases hcs : openQuote cs with
    | none =>
      rw [hcs, quoteStep] at h
      split at h
      · rename_i hc
        cases h
        exact hc
      · cases h
    | some q' =>
      rw [hcs, quoteStep] at h
      split at h
      · cases h
      · cases h
        exact ih hcs

theorem openQuote_of_blanks (h : ∀ c ∈ cs, isBlank c) : openQuote cs = none := by
  refine foldl_quoteStep_bare fun c hc => ⟨?_, ?_⟩
  all_goals
    rintro rfl
    exact absurd (h _ hc) (by decide)

/-- The blanks around a text open and close no quote. -/
theorem openQuote_trim (cs : List Char) : openQuote (trim cs) = openQuote cs := by
  obtain ⟨before, after, hcs, hbefore, hafter⟩ := exists_blanks cs
  conv_rhs => rw [hcs]
  rw [openQuote_append (openQuote_of_blanks hbefore)]
  -- a quote that is open at the end of the trimmed text is not closed by a blank
  cases hq : openQuote (trim cs) with
  | none => rw [openQuote_append hq, openQuote_of_blanks hafter]
  | some q =>
    have hnot : q ∉ after := fun hmem =>
      absurd (hafter q hmem) (by simp [isBlank_of_quote (quote_of_openQuote hq)])
    rw [openQuote, List.foldl_append, show (trim cs).foldl quoteStep none = some q from hq,
      foldl_quoteStep_quoted hnot]

/-- A token closes the quote that it opens. -/
theorem Token.Spelled.openQuote (h : t.Spelled sp) : openQuote sp = none := by
  rcases h.bare_or_quotes with hbare | ⟨body, hq⟩
  · exact foldl_quoteStep_bare fun c hc => (hbare c hc).notQuote
  · obtain ⟨q, hquote, hbody, rfl⟩ := hq.ends
    rw [Expression.openQuote, List.foldl_cons, quoteStep, if_pos hquote, List.foldl_append,
      foldl_quoteStep_quoted hbody]
    simp [quoteStep]

/-- **The quotes of a spelling come in pairs.** -/
theorem Spells.openQuote (h : Spells ts cs) : openQuote cs = none := by
  induction h with
  | nil hblanks => exact openQuote_of_blanks fun c hc => isBlank_of_isWhite (hblanks c hc)
  | @cons t ts blanks sp rest hblanks hsp hrest ih =>
    have hnone := openQuote_of_blanks fun c hc => isBlank_of_isWhite (hblanks c hc)
    rw [openQuote_append hnone, openQuote_append hsp.openQuote, ih]

/-- A brace in a token stands in a quotation. -/
theorem Token.Spelled.quoted (hc : c = '{' ∨ c = '}') (h : t.Spelled (before ++ c :: after)) :
    Expression.openQuote before ≠ none := by
  rcases h.bare_or_quotes with hbare | ⟨body, hq⟩
  · exact absurd hc (not_or.mpr (hbare c (by simp)).notBrace)
  · obtain ⟨q, hquote, hbody, heq⟩ := hq.ends
    cases before with
    | nil =>
      obtain ⟨rfl, -⟩ := List.cons.inj heq
      rcases hc with rfl | rfl <;> exact absurd hquote (by decide)
    | cons d before =>
      obtain ⟨rfl, htail⟩ := List.cons.inj heq
      have hnot : d ∉ before := by
        rcases cut_of_append htail with ⟨more, rfl⟩ | ⟨more, rfl, hmore⟩
        · exact fun hmem => hbody (by simp [hmem])
        · -- behind the body there is only the closing quote
          cases more with
          | nil => simpa using hbody
          | cons x more => exact absurd (congrArg List.length hmore) (by simp)
      rw [Expression.openQuote, List.foldl_cons, quoteStep, if_pos hquote,
        foldl_quoteStep_quoted hnot]
      simp

/-- A brace is no blank. -/
theorem not_mem_of_blanks (hc : c = '{' ∨ c = '}') (h : ∀ d ∈ cs, isBlank d) : c ∉ cs := by
  intro hmem
  rcases hc with rfl | rfl <;> exact absurd (h _ hmem) (by decide)

/-- **A brace in a spelling stands in a quotation.** -/
theorem Spells.quoted (hc : c = '{' ∨ c = '}') (h : Spells ts (before ++ c :: after)) :
    Expression.openQuote before ≠ none := by
  generalize hcs : before ++ c :: after = cs at h
  induction h generalizing before with
  | @nil blanks hblanks =>
    have hnot := not_mem_of_blanks hc fun d hd => isBlank_of_isWhite (hblanks d hd)
    exact absurd (by simp [← hcs]) hnot
  | @cons t ts blanks sp rest hblanks hsp hrest ih =>
    have hblank : ∀ d ∈ blanks, isBlank d := fun d hd => isBlank_of_isWhite (hblanks d hd)
    -- the brace is in the token or behind it, and what is before the token leaves no quote open
    rcases cut_of_append hcs with ⟨more, rfl⟩ | ⟨more, rfl, htoken⟩
    · exact absurd (by simp) (not_mem_of_blanks hc hblank)
    rw [openQuote_append (openQuote_of_blanks hblank)]
    rcases cut_of_append htoken with ⟨inner, rfl⟩ | ⟨inner, rfl, hinner⟩
    · exact hsp.quoted hc
    · rw [openQuote_append hsp.openQuote]
      exact ih hinner

/-- So does a brace in a text that is a spelling when it is trimmed. -/
theorem quoted_of_spells_trim (hc : c = '{' ∨ c = '}')
    (h : Spells ts (trim (before ++ c :: after))) : openQuote before ≠ none := by
  obtain ⟨leading, trailing, hcs, hleading, htrailing⟩ := exists_blanks (before ++ c :: after)
  rcases cut_of_append hcs with ⟨more, rfl⟩ | ⟨inner, rfl, hinner⟩
  · exact absurd (by simp) (not_mem_of_blanks hc hleading)
  rw [openQuote_append (openQuote_of_blanks hleading)]
  rcases cut_of_append hinner with ⟨more, hmore⟩ | ⟨more, -, hmore⟩
  · rw [hmore] at h
    exact h.quoted hc
  · exact absurd (by simp [← hmore]) (not_mem_of_blanks hc htrailing)

/-- **A spelling that is cut off at a closing brace is none any more.** -/
theorem not_spells_of_cut (h : Spells ts (trim (before ++ '}' :: after))) {us : List Token} :
    ¬Spells us (trim before) := by
  intro hcut
  refine quoted_of_spells_trim (.inr rfl) h ?_
  rw [← openQuote_trim, hcut.openQuote]

end Quotes

end ApiSuite.Expression
