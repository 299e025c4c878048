import ApiSuite.Proofs.Expression.Stack

/-!
# Tokenizing undoes spelling

A text is cut into tokens from left to right, each as long as it can be. The grammar does not
say so: it lets a text be any spelling of the tokens. The two agree because of what the
grammar puts next to what. A name is never followed by a character that could prolong it, nor
a number by a digit or a point, nor a comparison by an equals sign; which token may follow is
what `ApiSuite.Expression.Chain` says, and what can prolong a token is
`ApiSuite.Expression.Token.Ends`.

Each reader of the tokenizer is characterized by a pair of lemmas: what it reads is spelled by
what it takes (`..._eq_some`), and what is spelled is read if nothing prolongs it
(`..._append`). `ApiSuite.Expression.tokenizeFrom_iff` puts them together.
-/

namespace ApiSuite.Expression

open Text

/-! ### Runs of characters -/

/-- Whether a text has no character of a class at its head. -/
def Stops (p : Char → Bool) (cs : List Char) : Prop := ∀ c ∈ cs.head?, p c = false

section Stops

variable {p : Char → Bool} {cs rest : List Char}

theorem eq_false_of_all {marks : List Char} (h : marks.all fun c => !p c) :
    ∀ c ∈ marks, p c = false := by
  intro c hc
  exact (Bool.not_eq_true' _).mp (List.all_eq_true.mp h c hc)

theorem takeWhile_append_of_stops (hcs : ∀ c ∈ cs, p c) (h : Stops p rest) :
    (cs ++ rest).takeWhile p = cs := by
  rw [List.takeWhile_append_of_pos hcs]
  cases rest with
  | nil => simp
  | cons c rest => simp [h c rfl]

theorem dropWhile_append_of_stops (hcs : ∀ c ∈ cs, p c) (h : Stops p rest) :
    (cs ++ rest).dropWhile p = rest := by
  rw [List.dropWhile_append_of_pos hcs]
  cases rest with
  | nil => simp
  | cons c rest => simp [h c rfl]

end Stops

/-! ### Characters -/

theorem isDecimalDigit_of_isNameStart {c : Char} (h : isNameStart c) :
    isDecimalDigit c = false := by
  rw [Bool.eq_false_iff]
  intro hd
  have hrange := isDecimalDigit_range hd
  simp only [isNameStart, Bool.or_eq_true, Bool.and_eq_true, decide_eq_true_eq, beq_iff_eq,
    Char.le_def, UInt32.le_iff_toNat_le] at h
  rcases h with ((⟨hl, hu⟩ | ⟨hl, hu⟩) | rfl) | rfl
  all_goals simp only [Char.toNat] at *
  all_goals simp at *
  all_goals omega

/-- The five characters that may stand between tokens prolong none. -/
theorem not_mem_of_isSpace {c : Char} (h : isSpace c) :
    isNamePart c = false ∧ isDecimalDigit c = false ∧ c ≠ '.' ∧ c ≠ '=' := by
  simp only [isSpace, Bool.or_eq_true, beq_iff_eq] at h
  rcases h with (((rfl | rfl) | rfl) | rfl) | rfl <;> decide

/-! ### Names, numerals and quotations -/

section Readers

variable {cs rest body : List Char} {s : String}

theorem name?_eq_some (h : name? cs = some (s, rest)) :
    ∃ sp, cs = sp ++ rest ∧ (Token.name s).Spelled sp := by
  cases cs with
  | nil => simp [name?] at h
  | cons c cs =>
    simp only [name?] at h
    split at h
    · rename_i hc
      obtain ⟨rfl, rfl⟩ := Prod.mk.inj (Option.some.inj h)
      refine ⟨c :: cs.takeWhile isNamePart, by simp, .name (isNameStart_iff.mp hc) ?_⟩
      exact fun d hd => isNamePart_iff.mp (List.all_eq_true.mp List.all_takeWhile d hd)
    · exact absurd h (by simp)

theorem name?_append {sp : List Char} (h : (Token.name s).Spelled sp)
    (hr : Stops isNamePart rest) : name? (sp ++ rest) = some (s, rest) := by
  cases h with
  | @name c cs hc hcs =>
    have hparts := isNamePart_of_continuesName hcs
    simp [name?, isNameStart_iff.mpr hc, takeWhile_append_of_stops hparts hr,
      dropWhile_append_of_stops hparts hr]

theorem digits?_eq_some {ds : List Char} (h : digits? cs = some (ds, rest)) :
    cs = ds ++ rest ∧ IsNumeral ds := by
  unfold digits? at h
  split at h
  · exact absurd h (by simp)
  · rename_i ds' hne
    obtain ⟨rfl, rfl⟩ := Prod.mk.inj (Option.some.inj h)
    refine ⟨List.takeWhile_append_dropWhile.symm, fun h0 => hne h0, fun d hd => ?_⟩
    exact Decimal.isDecimalDigit_iff.mp (List.all_eq_true.mp List.all_takeWhile d hd)

theorem digits?_append {ds : List Char} (h : IsNumeral ds) (hr : Stops isDecimalDigit rest) :
    digits? (ds ++ rest) = some (ds, rest) := by
  unfold digits?
  rw [takeWhile_append_of_stops h.isDecimalDigit hr, dropWhile_append_of_stops h.isDecimalDigit hr]
  cases ds with
  | nil => exact absurd rfl h.1
  | cons d ds => rfl

theorem digits?_eq_none (h : Stops isDecimalDigit cs) : digits? cs = none := by
  unfold digits?
  cases cs with
  | nil => rfl
  | cons c cs => simp [h c rfl]

theorem untilQuote_append {q : Char} (h : q ∉ body) :
    untilQuote q (body ++ q :: rest) = some (body, rest) := by
  induction body with
  | nil => simp [untilQuote]
  | cons c body ih =>
    have hc : ¬c = q := fun hc => h (by simp [hc])
    simp [untilQuote, hc, ih fun hq => h (List.mem_cons_of_mem _ hq)]

theorem text?_eq_some (h : text? cs = some (s, rest)) :
    ∃ body sp, cs = sp ++ rest ∧ Quotes body sp ∧ s = String.ofList body := by
  cases cs with
  | nil => simp [text?] at h
  | cons c cs =>
    simp only [text?] at h
    split at h
    · rename_i hc
      obtain ⟨⟨body, r⟩, hb, hr⟩ := Option.map_eq_some_iff.mp h
      obtain ⟨rfl, rfl⟩ := Prod.mk.inj hr
      obtain ⟨rfl, hq⟩ := untilQuote_eq_some hb
      refine ⟨body, c :: body ++ [c], by simp, ?_, rfl⟩
      simp only [Bool.or_eq_true, beq_iff_eq] at hc
      rcases hc with rfl | rfl
      · exact .single hq
      · exact .double hq
    · exact absurd h (by simp)

theorem text?_append {sp : List Char} (h : Quotes body sp) :
    text? (sp ++ rest) = some (String.ofList body, rest) := by
  cases h with
  | single hq => simp [text?, untilQuote_append hq]
  | double hq => simp [text?, untilQuote_append hq]

end Readers

/-! ### Numbers -/

section Numbers

variable {cs rest whole fraction : List Char} {negative : Bool} {t : Token}

/-- The number at the head of a text after its sign. -/
def unsigned? (negative : Bool) (cs : List Char) : Option (Token × List Char) :=
  match digits? cs with
  | none => none
  | some (whole, rest) =>
    match rest with
    | '.' :: more =>
      match digits? more with
      | some (fraction, rest) => some (.number negative whole (some fraction), rest)
      | none => some (.number negative whole none, rest)
    | _ => some (.number negative whole none, rest)

theorem number?_minus : number? ('-' :: cs) = unsigned? true cs := rfl

theorem number?_of_ne (h : ∀ more, cs ≠ '-' :: more) : number? cs = unsigned? false cs := by
  unfold number?
  split
  · rename_i hmatch
    split at hmatch
    · exact absurd rfl (h _)
    · obtain ⟨rfl, rfl⟩ := Prod.mk.inj hmatch
      rfl

theorem unsigned?_eq_some (h : unsigned? negative cs = some (t, rest)) :
    ∃ sp, signChars negative ++ cs = sp ++ rest ∧ t.Spelled sp ∧
      ∃ w f, t = .number negative w f := by
  unfold unsigned? at h
  split at h
  · exact absurd h (by simp)
  · rename_i whole rest' hw
    obtain ⟨rfl, hwhole⟩ := digits?_eq_some hw
    split at h
    · rename_i more
      split at h
      · rename_i fraction rest'' hf
        obtain ⟨rfl, rfl⟩ := Prod.mk.inj (Option.some.inj h)
        obtain ⟨rfl, hfraction⟩ := digits?_eq_some hf
        exact ⟨_, by simp, .decimal hwhole hfraction, _, _, rfl⟩
      · obtain ⟨rfl, rfl⟩ := Prod.mk.inj (Option.some.inj h)
        exact ⟨_, by simp, .integer hwhole, _, _, rfl⟩
    · obtain ⟨rfl, rfl⟩ := Prod.mk.inj (Option.some.inj h)
      exact ⟨_, by simp, .integer hwhole, _, _, rfl⟩

theorem unsigned?_integer (h : IsNumeral whole)
    (hr : Stops (fun c => isDecimalDigit c || c == '.') rest) :
    unsigned? negative (whole ++ rest) = some (.number negative whole none, rest) := by
  have hstops : Stops isDecimalDigit rest := fun c hc => (Bool.or_eq_false_iff.mp (hr c hc)).1
  unfold unsigned?
  rw [digits?_append h hstops]
  cases rest with
  | nil => rfl
  | cons c rest =>
    have hpoint : ¬c = '.' := by simpa using (Bool.or_eq_false_iff.mp (hr c rfl)).2
    simp [hpoint]

theorem unsigned?_decimal (hw : IsNumeral whole) (hf : IsNumeral fraction)
    (hr : Stops isDecimalDigit rest) :
    unsigned? negative (whole ++ '.' :: (fraction ++ rest)) =
      some (.number negative whole (some fraction), rest) := by
  have hstops : Stops isDecimalDigit ('.' :: (fraction ++ rest)) := by
    rintro c ⟨⟩
    decide
  unfold unsigned?
  -- the point ends the whole part, and the fraction goes on up to the next sign that is no digit
  rw [digits?_append hw hstops]
  simp only
  rw [digits?_append hf hr]

theorem number?_eq_some (h : number? cs = some (t, rest)) :
    ∃ sp, cs = sp ++ rest ∧ t.Spelled sp ∧ ∃ n w f, t = .number n w f := by
  by_cases hm : ∃ more, cs = '-' :: more
  · obtain ⟨more, rfl⟩ := hm
    obtain ⟨sp, heq, hsp, w, f, rfl⟩ := unsigned?_eq_some (number?_minus ▸ h)
    exact ⟨sp, heq, hsp, true, w, f, rfl⟩
  · rw [number?_of_ne fun more he => hm ⟨more, he⟩] at h
    obtain ⟨sp, heq, hsp, w, f, rfl⟩ := unsigned?_eq_some h
    exact ⟨sp, heq, hsp, false, w, f, rfl⟩

/-- A numeral does not begin with a minus sign. -/
theorem IsNumeral.append_ne_minus (h : IsNumeral whole) : ∀ more, whole ++ rest ≠ '-' :: more := by
  intro more he
  cases whole with
  | nil => exact h.1 rfl
  | cons d ds =>
    obtain ⟨rfl, -⟩ := List.cons.inj he
    exact absurd (h.isDecimalDigit '-' (by simp)) (by decide)

/-- Reading a number is reading its sign and then the rest. -/
theorem number?_sign (h : ∀ more, cs ≠ '-' :: more) :
    number? (signChars negative ++ cs) = unsigned? negative cs := by
  cases negative with
  | false => exact number?_of_ne h
  | true => exact number?_minus

theorem number?_integer (h : IsNumeral whole)
    (hr : Stops (fun c => isDecimalDigit c || c == '.') rest) :
    number? (signChars negative ++ whole ++ rest) = some (.number negative whole none, rest) := by
  rw [List.append_assoc, number?_sign h.append_ne_minus, unsigned?_integer h hr]

theorem number?_decimal (hw : IsNumeral whole) (hf : IsNumeral fraction)
    (hr : Stops isDecimalDigit rest) :
    number? (signChars negative ++ whole ++ '.' :: fraction ++ rest) =
      some (.number negative whole (some fraction), rest) := by
  rw [show signChars negative ++ whole ++ '.' :: fraction ++ rest =
      signChars negative ++ (whole ++ '.' :: (fraction ++ rest)) by simp,
    number?_sign hw.append_ne_minus, unsigned?_decimal hw hf hr]

end Numbers

/-! ### Tokens of every kind -/

section Tokens

variable {cs rest sp : List Char} {t : Token}

theorem comparison?_eq_some {op : Comparison} (h : comparison? cs = some (op, rest)) :
    cs = op.spelling.toList ++ rest := by
  unfold comparison? at h
  split at h <;> cases h <;> rfl

theorem comparison?_append (op : Comparison) (hr : Stops (· == '=') rest) :
    comparison? (op.spelling.toList ++ rest) = some (op, rest) := by
  have hne : ∀ more, rest ≠ '=' :: more := by
    rintro more rfl
    exact absurd (hr '=' rfl) (by decide)
  rcases op with - | - | - | - | (- | - | - | -) <;> cases rest <;>
    simp_all [comparison?, Comparison.spelling]

/-! A word is a constant exactly when it is reserved. -/

theorem name_spelled_eq {s : String} (h : (Token.name s).Spelled sp) : sp = s.toList := by
  cases h with
  | name hc hcs => simp

theorem ofWord_of_not_reserved {s : String} (h : ¬IsReserved s) : ofWord s = .name s := by
  simp only [IsReserved, not_or] at h
  simp [ofWord, h]

theorem ofWord_spelled {s : String} (h : (Token.name s).Spelled sp) :
    (ofWord s).Spelled sp ∧ Mode.operand.Admits (ofWord s) := by
  by_cases hs : IsReserved s
  · rw [name_spelled_eq h]
    rcases hs with rfl | rfl | rfl
    · exact ⟨.yes, trivial⟩
    · exact ⟨.no, trivial⟩
    · exact ⟨.null, trivial⟩
  · rw [ofWord_of_not_reserved hs]
    exact ⟨h, hs⟩

/-- A constant is spelled by a word that is read as this constant. -/
theorem constant_spelled {v : Value} (h : (Token.constant v).Spelled sp) :
    ∃ s, (Token.name s).Spelled sp ∧ ofWord s = .constant v := by
  cases h with
  | yes => exact ⟨_, .word (by decide) (by decide), by simp [ofWord]⟩
  | no => exact ⟨_, .word (by decide) (by decide), by simp [ofWord]⟩
  | null => exact ⟨_, .word (by decide) (by decide), by simp [ofWord]⟩

/-! What a reader takes is a token of its mode, spelled by the characters that it takes. -/

theorem operand?_eq_some (h : operand? cs = some (t, rest)) :
    ∃ sp, cs = sp ++ rest ∧ t.Spelled sp ∧ Mode.operand.Admits t := by
  unfold operand? at h
  split at h
  · obtain ⟨rfl, rfl⟩ := Prod.mk.inj (Option.some.inj h)
    exact ⟨_, rfl, .not, trivial⟩
  · obtain ⟨rfl, rfl⟩ := Prod.mk.inj (Option.some.inj h)
    exact ⟨_, rfl, .openParen, trivial⟩
  · split at h
    · rename_i s rest' hn
      obtain ⟨rfl, rfl⟩ := Prod.mk.inj (Option.some.inj h)
      obtain ⟨sp, rfl, hsp⟩ := name?_eq_some hn
      exact ⟨sp, rfl, ofWord_spelled hsp⟩
    · split at h
      · rename_i found hn
        obtain rfl := Option.some.inj h
        obtain ⟨sp, rfl, hsp, n, w, f, rfl⟩ := number?_eq_some hn
        exact ⟨sp, rfl, hsp, areDigits_of_spelled hsp⟩
      · obtain ⟨⟨s, r⟩, hq, hr⟩ := Option.map_eq_some_iff.mp h
        obtain ⟨rfl, rfl⟩ := Prod.mk.inj hr
        obtain ⟨body, sp, rfl, hsp, rfl⟩ := text?_eq_some hq
        exact ⟨sp, rfl, .text hsp, trivial⟩

theorem operator?_eq_some (h : operator? cs = some (t, rest)) :
    ∃ sp, cs = sp ++ rest ∧ t.Spelled sp ∧ Mode.operator.Admits t := by
  unfold operator? at h
  split at h
  · obtain ⟨rfl, rfl⟩ := Prod.mk.inj (Option.some.inj h)
    exact ⟨_, rfl, .or, trivial⟩
  · obtain ⟨rfl, rfl⟩ := Prod.mk.inj (Option.some.inj h)
    exact ⟨_, rfl, .and, trivial⟩
  · obtain ⟨rfl, rfl⟩ := Prod.mk.inj (Option.some.inj h)
    exact ⟨_, rfl, .question, trivial⟩
  · obtain ⟨rfl, rfl⟩ := Prod.mk.inj (Option.some.inj h)
    exact ⟨_, rfl, .colon, trivial⟩
  · obtain ⟨rfl, rfl⟩ := Prod.mk.inj (Option.some.inj h)
    exact ⟨_, rfl, .closeParen, trivial⟩
  · obtain ⟨⟨op, r⟩, hq, hr⟩ := Option.map_eq_some_iff.mp h
    obtain ⟨rfl, rfl⟩ := Prod.mk.inj hr
    exact ⟨_, comparison?_eq_some hq, .comparison op, trivial⟩

/-- **A token is read from a spelling of it**, and belongs to the mode it is looked for in. -/
theorem token?_eq_some {m : Mode} (h : token? m cs = some (t, rest)) :
    ∃ sp, cs = sp ++ rest ∧ t.Spelled sp ∧ m.Admits t := by
  cases m with
  | operand => exact operand?_eq_some h
  | operator => exact operator?_eq_some h
  | accessor =>
    simp only [token?] at h
    split at h
    · obtain ⟨rfl, rfl⟩ := Prod.mk.inj (Option.some.inj h)
      exact ⟨_, rfl, .dot, trivial⟩
    · obtain ⟨rfl, rfl⟩ := Prod.mk.inj (Option.some.inj h)
      exact ⟨_, rfl, .openBracket, trivial⟩
    · obtain ⟨sp, heq, hsp, hm⟩ := operator?_eq_some h
      exact ⟨sp, heq, hsp, hm.accessor⟩
  | member =>
    obtain ⟨⟨s, r⟩, hn, hr⟩ := Option.map_eq_some_iff.mp h
    obtain ⟨rfl, rfl⟩ := Prod.mk.inj hr
    obtain ⟨sp, rfl, hsp⟩ := name?_eq_some hn
    exact ⟨sp, rfl, hsp, trivial⟩
  | subscript =>
    simp only [token?] at h
    split at h
    · rename_i hd
      obtain ⟨rfl, rfl⟩ := Prod.mk.inj (Option.some.inj h)
      obtain ⟨rfl, hds⟩ := digits?_eq_some hd
      exact ⟨_, rfl, .index hds, hds.2⟩
    · obtain ⟨⟨s, r⟩, hq, hr⟩ := Option.map_eq_some_iff.mp h
      obtain ⟨rfl, rfl⟩ := Prod.mk.inj hr
      obtain ⟨body, sp, rfl, hsp, rfl⟩ := text?_eq_some hq
      exact ⟨sp, rfl, .key hsp, trivial⟩
  | closing =>
    simp only [token?] at h
    split at h
    · obtain ⟨rfl, rfl⟩ := Prod.mk.inj (Option.some.inj h)
      exact ⟨_, rfl, .closeBracket, trivial⟩
    · exact absurd h (by simp)

/-! ### What is spelled is read -/

/-- Whether the text after a token cannot prolong it. -/
def Token.Ends : Token → List Char → Prop
  | .name _, rest | .constant _, rest => Stops isNamePart rest
  | .number _ _ none, rest => Stops (fun c => isDecimalDigit c || c == '.') rest
  | .number _ _ (some _), rest | .index _, rest => Stops isDecimalDigit rest
  | .comparison _, rest => Stops (· == '=') rest
  | _, _ => True

/-- A name is read as the token of its word. -/
theorem operand?_word {s : String} (h : name? cs = some (s, rest)) :
    operand? cs = some (ofWord s, rest) := by
  unfold operand?
  split
  · exact absurd h (by simp [name?, show isNameStart '!' = false by decide])
  · exact absurd h (by simp [name?, show isNameStart '(' = false by decide])
  · rw [h]

/-- The readers of names and of the two tokens of one character leave a text alone that begins
with a digit, a minus sign or a quote. -/
theorem operand?_of_head {c : Char} {more : List Char}
    (hc : isDecimalDigit c ∨ c = '-' ∨ c = '\'' ∨ c = '"') :
    operand? (c :: more) =
      match number? (c :: more) with
      | some found => some found
      | none => (text? (c :: more)).map fun (s, rest) => (.text s, rest) := by
  have hname : isNameStart c = false := by
    rcases hc with hd | rfl | rfl | rfl
    · rw [Bool.eq_false_iff]
      intro hn
      rw [isDecimalDigit_of_isNameStart hn] at hd
      exact absurd hd (by simp)
    all_goals decide
  have hmarks : c ≠ '!' ∧ c ≠ '(' := by
    rcases hc with hd | rfl | rfl | rfl
    · constructor
      all_goals
        rintro rfl
        exact absurd hd (by decide)
    all_goals decide
  unfold operand?
  split
  · rename_i heq
    exact absurd (List.cons.inj heq).1 hmarks.1
  · rename_i heq
    exact absurd (List.cons.inj heq).1 hmarks.2
  · have hnone : name? (c :: more) = none := by simp [name?, hname]
    cases hnumber : number? (c :: more) <;> simp [hnone]

/-- A number begins with a digit or a minus sign. -/
theorem number_head {n : Bool} {w : List Char} {f : Option (List Char)}
    (h : (Token.number n w f).Spelled sp) :
    ∃ c more, sp = c :: more ∧ (isDecimalDigit c ∨ c = '-') := by
  cases n with
  | true => cases h <;> exact ⟨_, _, rfl, .inr rfl⟩
  | false =>
    cases w with
    | nil =>
      cases h with
      | integer hw => exact absurd rfl hw.1
      | decimal hw _ => exact absurd rfl hw.1
    | cons d ds =>
      cases h with
      | integer hw => exact ⟨d, _, rfl, .inl (hw.isDecimalDigit d (by simp))⟩
      | decimal hw _ => exact ⟨d, _, rfl, .inl (hw.isDecimalDigit d (by simp))⟩

/-- Where a number is spelled, an operand is read as a number. -/
theorem operand?_number {n : Bool} {w : List Char} {f : Option (List Char)}
    (hsp : (Token.number n w f).Spelled sp) (h : number? (sp ++ rest) = some (t, cs)) :
    operand? (sp ++ rest) = some (t, cs) := by
  obtain ⟨c, more, rfl, hc⟩ := number_head hsp
  rw [List.cons_append] at h ⊢
  rw [operand?_of_head (hc.imp_right .inl), h]

theorem operand?_text {body : List Char} (h : Quotes body sp) :
    operand? (sp ++ rest) = some (.text (String.ofList body), rest) := by
  obtain ⟨c, more, rfl, hc⟩ : ∃ c more, sp = c :: more ∧ (c = '\'' ∨ c = '"') := by
    cases h with
    | single _ => exact ⟨_, _, rfl, .inl rfl⟩
    | double _ => exact ⟨_, _, rfl, .inr rfl⟩
  have hnumber : number? (c :: more ++ rest) = none := by
    have hne : ∀ cs, c :: more ++ rest ≠ '-' :: cs := by
      intro cs he
      obtain ⟨rfl, -⟩ := List.cons.inj he
      exact absurd hc (by decide)
    have hstops : Stops isDecimalDigit (c :: more ++ rest) := by
      rintro _ ⟨⟩
      rcases hc with rfl | rfl <;> decide
    rw [number?_of_ne hne, unsigned?, digits?_eq_none hstops]
  have htext : text? (c :: more ++ rest) = some (String.ofList body, rest) := text?_append h
  rw [List.cons_append] at hnumber htext ⊢
  rw [operand?_of_head (.inr (.inr hc)), hnumber, htext]
  rfl

theorem operator?_comparison (op : Comparison) (hr : Stops (· == '=') rest) :
    operator? (op.spelling.toList ++ rest) = some (.comparison op, rest) := by
  unfold operator?
  split
  case h_6 =>
    rw [comparison?_append op hr]
    rfl
  all_goals
    rename_i heq
    rcases op with - | - | - | - | (- | - | - | -) <;> simp [Comparison.spelling] at heq

theorem operand?_append (hm : Mode.operand.Admits t) (hsp : t.Spelled sp) (hr : t.Ends rest) :
    operand? (sp ++ rest) = some (t, rest) := by
  cases t with
  | name s => rw [operand?_word (name?_append hsp hr), ofWord_of_not_reserved hm]
  | constant v =>
    obtain ⟨s, hs, hv⟩ := constant_spelled hsp
    rw [operand?_word (name?_append hs hr), hv]
  | number n w f =>
    cases hsp with
    | integer hw => exact operand?_number (.integer hw) (number?_integer hw hr)
    | decimal hw hf => exact operand?_number (.decimal hw hf) (number?_decimal hw hf hr)
  | text s =>
    cases hsp with
    | text hq => exact operand?_text hq
  | not =>
    cases hsp
    rfl
  | openParen =>
    cases hsp
    rfl
  | _ => exact hm.elim

theorem operator?_append (hm : Mode.operator.Admits t) (hsp : t.Spelled sp) (hr : t.Ends rest) :
    operator? (sp ++ rest) = some (t, rest) := by
  cases t with
  | comparison op =>
    cases hsp
    exact operator?_comparison op hr
  | or | and | question | colon | closeParen =>
    cases hsp
    rfl
  | _ => exact hm.elim

/-- An operator after a path is looked for as it is after any operand. -/
theorem token?_accessor (hm : Mode.operator.Admits t) (hsp : t.Spelled sp) :
    token? .accessor (sp ++ rest) = operator? (sp ++ rest) := by
  cases t with
  | comparison op =>
    -- what an accessor begins with is no comparison, but only its spelling tells
    cases hsp
    rcases op with - | - | - | - | (- | - | - | -) <;> rfl
  | or | and | question | colon | closeParen =>
    cases hsp
    rfl
  | _ => exact hm.elim

/-- **What is spelled is read**, if nothing prolongs it. -/
theorem token?_append {m : Mode} (hm : m.Admits t) (hsp : t.Spelled sp) (hr : t.Ends rest) :
    token? m (sp ++ rest) = some (t, rest) := by
  cases m with
  | operand => exact operand?_append hm hsp hr
  | operator => exact operator?_append hm hsp hr
  | accessor =>
    rcases hm.accessor_cases with ho | rfl | rfl
    · rw [token?_accessor ho hsp]
      exact operator?_append ho hsp hr
    all_goals
      cases hsp
      rfl
  | member =>
    cases t with
    | name s => simp [token?, name?_append hsp hr]
    | _ => exact hm.elim
  | subscript =>
    cases t with
    | index ds =>
      cases hsp with
      | index hds => simp [token?, digits?_append hds hr]
    | key s =>
      cases hsp with
      | key hq =>
        -- an index is tried first, and a quote is no digit
        have hstops : Stops isDecimalDigit (sp ++ rest) := by
          cases hq <;> rintro _ ⟨⟩ <;> decide
        simp [token?, digits?_eq_none hstops, text?_append hq]
    | _ => exact hm.elim
  | closing =>
    cases t with
    | closeBracket =>
      cases hsp
      rfl
    | _ => exact hm.elim

/-! ### What stands next to what -/

/-- The characters that a token of a mode can begin with. -/
def Mode.Starts : Mode → Char → Prop
  | .operand, c => c ∉ ['=', '@', '~']
  | .operator, c => c ∈ ['=', '!', '<', '>', '|', '&', '?', ':', ')']
  | .accessor, c => c ∈ ['=', '!', '<', '>', '|', '&', '?', ':', ')', '.', '[']
  | .closing, c => c = ']'
  | _, _ => True

theorem spelling_head (op : Comparison) :
    ∃ c more, op.spelling.toList = c :: more ∧ c ∈ ['=', '!', '<', '>'] := by
  rcases op with - | - | - | - | (- | - | - | -) <;> simp [Comparison.spelling]

theorem starts_operator (hm : Mode.operator.Admits t) (hsp : t.Spelled sp) :
    ∃ c more, sp = c :: more ∧ Mode.operator.Starts c := by
  cases t with
  | comparison op =>
    cases hsp
    obtain ⟨c, more, heq, hc⟩ := spelling_head op
    exact ⟨c, more, heq, List.mem_append_left ['|', '&', '?', ':', ')'] hc⟩
  | or | and | question | colon | closeParen =>
    cases hsp
    exact ⟨_, _, rfl, by simp [Mode.Starts]⟩
  | _ => exact hm.elim

theorem starts_operand (hm : Mode.operand.Admits t) (hsp : t.Spelled sp) :
    ∃ c more, sp = c :: more ∧ Mode.operand.Starts c := by
  have hdigit : ∀ {d : Char}, isDecimalDigit d → d ∉ ['=', '@', '~'] := by
    intro d hd hmem
    simp only [List.mem_cons, List.not_mem_nil, or_false] at hmem
    rcases hmem with rfl | rfl | rfl <;> exact absurd hd (by decide)
  cases hsp with
  | @name c cs hc hcs =>
    refine ⟨c, cs, rfl, ?_⟩
    intro hmem
    simp only [List.mem_cons, List.not_mem_nil, or_false] at hmem
    rcases hmem with rfl | rfl | rfl <;> exact absurd hc (by decide)
  | @integer n w hw | @decimal n w f hw hf =>
    cases n with
    | true => exact ⟨'-', _, rfl, by simp [Mode.Starts]⟩
    | false =>
      cases w with
      | nil => exact absurd rfl hw.1
      | cons d ds => exact ⟨d, _, rfl, hdigit (hw.isDecimalDigit d (by simp))⟩
  | text hq => cases hq <;> exact ⟨_, _, rfl, by simp [Mode.Starts]⟩
  | yes | no | null | not | openParen => exact ⟨_, _, rfl, by simp [Mode.Starts]⟩
  | _ => exact hm.elim

/-- A token of a mode begins with a character of that mode, and is not empty. -/
theorem starts_of_spelled {m : Mode} (hm : m.Admits t) (hsp : t.Spelled sp) :
    ∃ c more, sp = c :: more ∧ m.Starts c := by
  cases m with
  | operand => exact starts_operand hm hsp
  | operator => exact starts_operator hm hsp
  | accessor =>
    rcases hm.accessor_cases with ho | rfl | rfl
    · obtain ⟨c, more, heq, hc⟩ := starts_operator ho hsp
      exact ⟨c, more, heq, List.mem_append_left ['.', '['] hc⟩
    all_goals
      cases hsp
      exact ⟨_, _, rfl, by simp [Mode.Starts]⟩
  | member =>
    cases t with
    | name s =>
      cases hsp
      exact ⟨_, _, rfl, trivial⟩
    | _ => exact hm.elim
  | subscript =>
    cases t with
    | key s =>
      cases hsp with
      | key hq => cases hq <;> exact ⟨_, _, rfl, trivial⟩
    | index ds =>
      cases hsp with
      | index hds =>
        cases sp with
        | nil => exact absurd rfl hds.1
        | cons d ds => exact ⟨d, ds, rfl, trivial⟩
    | _ => exact hm.elim
  | closing =>
    cases t with
    | closeBracket =>
      cases hsp
      exact ⟨_, _, rfl, rfl⟩
    | _ => exact hm.elim

/-- No token begins with a space. -/
theorem stops_isSpace_of_spelled (hsp : t.Spelled sp) : Stops isSpace (sp ++ rest) := by
  have hdigit : ∀ d : Char, isDecimalDigit d → isSpace d = false := by
    intro d hd
    rw [Bool.eq_false_iff]
    intro hspace
    exact absurd hd (by simp [(not_mem_of_isSpace hspace).2.1])
  have hnumeral : ∀ w more : List Char, IsNumeral w → Stops isSpace (w ++ more) := by
    intro w more hw
    cases w with
    | nil => exact absurd rfl hw.1
    | cons d ds =>
      rintro _ ⟨⟩
      exact hdigit d (hw.isDecimalDigit d (by simp))
  cases hsp with
  | @name c cs hc hcs =>
    rintro _ ⟨⟩
    rw [Bool.eq_false_iff]
    intro hspace
    exact absurd (not_mem_of_isSpace hspace).1 (by simp [isNamePart, isNameStart_iff.mpr hc])
  | @integer n w hw =>
    cases n with
    | true =>
      rintro _ ⟨⟩
      decide
    | false => exact hnumeral w rest hw
  | @decimal n w f hw hf =>
    cases n with
    | true =>
      rintro _ ⟨⟩
      decide
    | false =>
      rw [signChars, List.append_assoc]
      exact hnumeral w _ hw
  | index hds => exact hnumeral _ rest hds
  | text hq | key hq => cases hq <;> rintro _ ⟨⟩ <;> decide
  | comparison op =>
    obtain ⟨c, more, heq, hc⟩ := spelling_head op
    rw [heq]
    rintro _ ⟨⟩
    exact eq_false_of_all (by decide) c hc
  | _ =>
    rintro _ ⟨⟩
    decide

/-- What begins with a space or a character of the next mode does not prolong a token. -/
theorem ends_of_head (h : ∀ c ∈ rest.head?, isSpace c ∨ t.next.Starts c) : t.Ends rest := by
  have hstops : ∀ p : Char → Bool, (∀ c, isSpace c → p c = false) →
      (∀ c, t.next.Starts c → p c = false) → Stops p rest := by
    intro p hspace hnext c hc
    exact (h c hc).elim (hspace c) (hnext c)
  cases t with
  | name s =>
    exact hstops _ (fun c hc => (not_mem_of_isSpace hc).1) (by
      exact eq_false_of_all (by decide))
  | constant v =>
    exact hstops _ (fun c hc => (not_mem_of_isSpace hc).1) (by
      exact eq_false_of_all (by decide))
  | number n w f =>
    cases f with
    | none =>
      refine hstops _ (fun c hc => ?_) (by
        exact eq_false_of_all (by decide))
      obtain ⟨-, hdigit, hpoint, -⟩ := not_mem_of_isSpace hc
      simp [hdigit, hpoint]
    | some f =>
      exact hstops _ (fun c hc => (not_mem_of_isSpace hc).2.1) (by
        exact eq_false_of_all (by decide))
  | index ds =>
    refine hstops _ (fun c hc => (not_mem_of_isSpace hc).2.1) ?_
    rintro c rfl
    decide
  | comparison op =>
    refine hstops _ (fun c hc => ?_) (fun c hc => ?_)
    · exact beq_eq_false_iff_ne.mpr (not_mem_of_isSpace hc).2.2.2
    · exact beq_eq_false_iff_ne.mpr (List.ne_of_not_mem_cons hc)
  | _ => trivial

end Tokens

/-- The head of a spelling is a space or a character that the first token begins with. -/
theorem Spells.head {m : Mode} {ts : List Token} {cs : List Char} (h : Spells ts cs)
    (hc : Chain m ts) : ∀ c ∈ cs.head?, isSpace c ∨ m.Starts c := by
  cases h with
  | @nil blanks hblanks =>
    intro c hhead
    exact .inl (isSpace_of_isWhite hblanks c (List.mem_of_mem_head? hhead))
  | @cons t ts blanks sp rest hblanks hsp hrest =>
    cases hc with
    | cons hm _ =>
      cases blanks with
      | cons b blanks =>
        rintro c ⟨⟩
        exact .inl (isSpace_of_isWhite hblanks b (by simp))
      | nil =>
        obtain ⟨c, more, rfl, hstart⟩ := starts_of_spelled hm hsp
        rintro _ ⟨⟩
        exact .inr hstart

/-! ### Tokenizing -/

section Tokenizing

variable {m : Mode} {offset : Nat} {cs : List Char}

theorem tokenizeFrom_blank (h : cs.dropWhile isSpace = []) :
    tokenizeFrom m offset cs = ([], .complete) := by
  rw [tokenizeFrom]
  split
  · rfl
  · rename_i hne
    exact absurd (h.symm.trans hne) (by simp)

theorem tokenizeFrom_token {c : Char} {more rest : List Char} {t : Token}
    (h : cs.dropWhile isSpace = c :: more) (ht : token? m (c :: more) = some (t, rest)) :
    ∃ start offset', tokenizeFrom m offset cs =
      (⟨t, start⟩ :: (tokenizeFrom t.next offset' rest).1,
        (tokenizeFrom t.next offset' rest).2) := by
  rw [tokenizeFrom]
  split
  · rename_i hnil
    exact absurd (h.symm.trans hnil) (by simp)
  · rename_i c' more' heq
    obtain ⟨rfl, rfl⟩ := List.cons.inj (h.symm.trans heq)
    split
    · rename_i hnone
      exact absurd (ht.symm.trans hnone) (by simp)
    · rename_i t' rest' hsome
      obtain ⟨rfl, rfl⟩ := Prod.mk.inj (Option.some.inj (ht.symm.trans hsome))
      exact ⟨_, _, rfl⟩

/-- What is skipped before a token is white. -/
theorem isWhite_of_mem_takeWhile : ∀ c ∈ cs.takeWhile isSpace, IsWhite c :=
  fun c hc => isSpace_iff.mp (List.all_eq_true.mp List.all_takeWhile c hc)

/-- What a complete run of the tokenizer lists is spelled by the text, and chains. -/
theorem spells_of_complete (h : (tokenizeFrom m offset cs).2 = .complete) :
    Spells ((tokenizeFrom m offset cs).1.map (·.token)) cs ∧
      Chain m ((tokenizeFrom m offset cs).1.map (·.token)) := by
  fun_induction tokenizeFrom m offset cs with
  | case1 m offset cs body hbody =>
    refine ⟨.nil fun c hc => ?_, .nil m⟩
    have hall : cs.takeWhile isSpace = cs := by
      simpa [show cs.dropWhile isSpace = [] from hbody] using
        List.takeWhile_append_dropWhile (p := isSpace) (l := cs)
    exact isWhite_of_mem_takeWhile c (hall ▸ hc)
  | case2 => exact absurd h (by simp)
  | case3 m offset cs body c more hbody start t rest ht ts ending heq ih =>
    rw [heq] at ih
    obtain ⟨hspells, hchain⟩ := ih h
    obtain ⟨sp, hsp, hspelled, hm⟩ := token?_eq_some ht
    have hcs : cs = cs.takeWhile isSpace ++ (sp ++ rest) := by
      rw [← hsp, ← show cs.dropWhile isSpace = c :: more from hbody,
        List.takeWhile_append_dropWhile]
    refine ⟨?_, .cons hm hchain⟩
    rw [hcs]
    exact .cons isWhite_of_mem_takeWhile hspelled hspells

/-- A spelling of tokens that chain is cut into these tokens, wherever it stands. -/
theorem complete_of_spells {ts : List Token} (h : Spells ts cs) (hc : Chain m ts) :
    (tokenizeFrom m offset cs).2 = .complete ∧
      (tokenizeFrom m offset cs).1.map (·.token) = ts := by
  induction h generalizing m offset with
  | @nil blanks hblanks =>
    have hnil : blanks.dropWhile isSpace = [] := by
      rw [← List.append_nil blanks,
        dropWhile_append_of_stops (isSpace_of_isWhite hblanks) (by simp [Stops])]
    rw [tokenizeFrom_blank hnil]
    exact ⟨rfl, rfl⟩
  | @cons t ts blanks sp rest hblanks hsp hrest ih =>
    cases hc with
    | cons hm hc =>
      obtain ⟨c, more, rfl, -⟩ := starts_of_spelled hm hsp
      have hread := token?_append hm hsp (ends_of_head (hrest.head hc))
      have hbody : (blanks ++ (c :: more ++ rest)).dropWhile isSpace = c :: (more ++ rest) :=
        dropWhile_append_of_stops (isSpace_of_isWhite hblanks) (stops_isSpace_of_spelled hsp)
      obtain ⟨start, offset', heq⟩ := @tokenizeFrom_token m offset _ c _ rest t hbody hread
      obtain ⟨hcomplete, htokens⟩ := @ih _ offset' hc
      rw [heq]
      exact ⟨hcomplete, by simp [htokens]⟩

/-- **Tokenizing finds the tokens that chain, and no others**: a text is cut to its end into
given tokens exactly when it is a spelling of them and each belongs where it stands. -/
theorem tokenizeFrom_iff {ts : List Token} :
    ((tokenizeFrom m offset cs).2 = .complete ∧
      (tokenizeFrom m offset cs).1.map (·.token) = ts) ↔ Spells ts cs ∧ Chain m ts := by
  constructor
  · rintro ⟨hcomplete, rfl⟩
    exact spells_of_complete hcomplete
  · rintro ⟨hspells, hchain⟩
    exact complete_of_spells hspells hchain

end Tokenizing

end ApiSuite.Expression
