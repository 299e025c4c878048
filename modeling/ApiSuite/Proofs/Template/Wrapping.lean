import ApiSuite.Proofs.Expression.Spelling
import ApiSuite.Proofs.Template.Parts

/-!
# Putting an expression in a wrapper

What the grammar takes for an expression can be put in a wrapper and resolved. The wrapper is looked
for by its characters alone, though: the scanner knows nothing of quotations, so that a closing
brace in one ends the expression, and it does not go past a line break, which the grammar takes for
a blank. So what is resolved depends on which of the two stands first in the expression
(`ApiSuite.Template.resolve_toExpression_compared`).

| what stands first | what the scanner finds | what is resolved |
|---|---|---|
| neither is there | the whole text | what the expression evaluates to |
| a closing brace | the text up to it, cut off in a quotation | nothing |
| a line break | nothing that begins at the wrapper | the rest, as a text |

That nothing is resolved in the second case rests on the grammar: an expression cut off at a closing
brace is cut off in a quotation, and is none any more (`ApiSuite.Expression.not_spells_of_cut`). A
text that has a wrapper of its own is no exception: what is left of it begins with an opening, whose
brace stands in no quotation.
-/

namespace ApiSuite.Template

open Expression Text

/-! ### What an evaluation comes to -/

/-- What an evaluation comes to where anything wrong with the expression counts as no value. -/
def valueOrNone : Except Fault Value → Except Fault (Option Value)
  | .ok v => .ok (present v)
  | .error (.expression _) => .ok none
  | .error fault => .error fault

section Evaluation

variable {trusted : Bool} {context : Value} {s t : String} {x : Expression}

theorem result_evaluatePart (hp : isPattern s = false) :
    (evaluatePart trusted context s).result = valueOrNone (evaluate trusted context s) := by
  cases he : evaluate trusted context s with
  | ok v =>
    simp only [evaluatePart, hp, he]
    rfl
  | error fault =>
    rcases evaluate_error he with ⟨e, rfl⟩ | ⟨c, rfl⟩
    · exact evaluatePart_of_expression_error he
    · exact evaluatePart_of_crash hp he

/-- Texts that are read as the same expression come to the same, up to what their errors say. -/
theorem valueOrNone_congr (hs : parse s = .ok x) (ht : parse t = .ok x) :
    valueOrNone (evaluate trusted context s) = valueOrNone (evaluate trusted context t) := by
  by_cases ha : Allowed trusted x
  · rw [evaluate_of_parse hs ha, evaluate_of_parse ht ha]
    rcases value context x with stop | v
    · cases stop <;> rfl
    · rfl
  · rw [evaluate_of_not_allowed hs ha, evaluate_of_not_allowed ht ha]
    rfl

end Evaluation

/-! ### The first closing brace or line break -/

section First

variable {trusted : Bool} {context : Value} {s : String} {x : Expression}
  {before after : List Char}

/-- **An expression without closing braces and line breaks is resolved to what it evaluates
to.** -/
theorem result_resolve_toExpression (hp : parse s = .ok x) (hbrace : '}' ∉ s.toList)
    (hbreak : '\n' ∉ s.toList) :
    (resolve trusted context (toExpression s)).result =
      valueOrNone (evaluate trusted context s) := by
  have htail : '}' ∉ s.toList.tail := fun h => hbrace (List.mem_of_mem_tail h)
  obtain ⟨c, cs, hs, -⟩ := head_of_parse htail hp
  have hlone : split (toExpression s).toList = [.embedded s.toList] := by
    rw [toList_toExpression]
    exact split_wrap (isBody_of_not_mem (by simp [hs]) hbrace hbreak)
  have hread : parse (toExpression s) = .ok x := (parse_toExpression htail).mpr hp
  rw [resolve_of_lone hlone, embeddedText_toList,
    result_evaluatePart (by
      rw [← embeddedText_toList] at hread ⊢
      exact not_isPattern_of_parse hread)]
  exact valueOrNone_congr hread hp

/-- **What an expression is cut off to at a closing brace is a rendering of nothing**, blanks aside,
and is not empty. -/
theorem not_renders_of_cut (hp : parse s = .ok x) (hs : s.toList = before ++ '}' :: after) :
    before ≠ [] ∧ ∀ y, ¬Renders (trim before) y := by
  obtain ⟨cs, hholds⟩ := exists_holds s
  obtain ⟨ts, hspells, -⟩ := (parse_eq_ok_iff hholds).mp hp
  rcases hholds with ⟨body, hbody, -⟩ | ⟨-, rfl⟩
  · -- the text is in a wrapper, and what is left of it begins with the opening
    obtain ⟨leading, trailing, hcs, hleading, -⟩ := exists_blanks s.toList
    rw [hbody, hs, show leading ++ ('$' :: '{' :: (body ++ ['}']) ++ trailing) =
      (leading ++ ['$', '{']) ++ (body ++ '}' :: trailing) by simp] at hcs
    rcases cut_of_append hcs with ⟨more, hmore⟩ | ⟨inner, rfl, -⟩
    · have hmem : '}' ∈ leading ++ ['$', '{'] := by simp [hmore]
      exact absurd (by simpa using hmem) (not_mem_of_blanks (.inr rfl) hleading)
    · refine ⟨by simp, fun y hy => ?_⟩
      obtain ⟨us, hus, -⟩ := hy
      rw [show leading ++ ['$', '{'] ++ inner = (leading ++ ['$']) ++ '{' :: inner by simp] at hus
      refine quoted_of_spells_trim (.inl rfl) hus ?_
      rw [openQuote_append (openQuote_of_blanks hleading)]
      rfl
  · rw [hs] at hspells
    have hcut : ∀ us, ¬Spells us (trim before) := fun us => not_spells_of_cut hspells
    refine ⟨?_, fun y hy => ?_⟩
    · rintro rfl
      exact hcut [] (.nil (by simp))
    · obtain ⟨us, hus, -⟩ := hy
      exact hcut us hus

/-- **An expression with a closing brace before any line break is resolved to nothing.** -/
theorem result_resolve_toExpression_of_brace (hp : parse s = .ok x)
    (hs : s.toList = before ++ '}' :: after) (hbrace : '}' ∉ before) (hbreak : '\n' ∉ before) :
    (resolve trusted context (toExpression s)).result = .ok none := by
  obtain ⟨hne, hcut⟩ := not_renders_of_cut hp hs
  have hsplit : split (toExpression s).toList = .embedded before :: split (after ++ ['}']) := by
    have htext : wrap s.toList = wrap before ++ (after ++ ['}']) := by simp [wrap, hs]
    rw [toList_toExpression, htext]
    exact split_wrap_append (isBody_of_not_mem hne hbrace hbreak) _
  have hlone : ¬IsLone (toExpression s) := by
    rintro ⟨body, hbody⟩
    obtain ⟨-, hnil⟩ := List.cons.inj (hsplit.symm.trans hbody)
    have hjoin := join_split (after ++ ['}'])
    rw [hnil] at hjoin
    cases after <;> cases hjoin
  -- what the scanner takes for the expression is malformed, and that ends the resolution
  have hnone : (evaluatePart trusted context (embeddedText before)).result = .ok none := by
    have hmalformed := (parse_malformed_iff (holds_toExpression (String.ofList before))).mpr
      (by rwa [String.toList_ofList])
    obtain ⟨e, he⟩ := IsMalformed.evaluate hmalformed trusted context
    rw [← embeddedText_toList, String.toList_ofList] at he
    exact evaluatePart_of_expression_error he
  rw [result_resolve_of_not_lone hlone, hsplit, fill_embedded, filling, hnone]
  rfl

/-- **An expression with a line break before any closing brace is resolved as a text**: the opening
stands for itself, and what embedded expressions there are begin after it. -/
theorem result_resolve_toExpression_of_break (hs : s.toList = before ++ '\n' :: after)
    (hbrace : '}' ∉ before) :
    (resolve trusted context (toExpression s)).result =
      (fill trusted context (split (s.toList ++ ['}']))).result.map
        (Option.map fun cs => .str (String.ofList ('$' :: '{' :: cs))) := by
  have hbody : body? (s.toList ++ ['}']) = none :=
    body?_eq_none_iff.mpr
      (.inr ⟨before, after ++ ['}'], by simp [hs], mt List.mem_of_mem_tail hbrace⟩)
  have hsplit : split (toExpression s).toList =
      .char '$' :: .char '{' :: split (s.toList ++ ['}']) := by
    have htext : wrap s.toList = '$' :: '{' :: (s.toList ++ ['}']) := by simp [wrap]
    rw [toList_toExpression, htext, split_char, split_char]
    · rintro tail ⟨⟩
    · rintro tail ⟨⟩
      exact hbody
  have hlone : ¬IsLone (toExpression s) := by
    rintro ⟨body, hlone⟩
    cases hsplit.symm.trans hlone
  rw [result_resolve_of_not_lone hlone, hsplit, fill_char, fill_char]
  cases (fill trusted context (split (s.toList ++ ['}']))).result with
  | error fault => rfl
  | ok found => cases found <;> rfl

/-- **Putting an expression in a wrapper, compared with evaluating it.** A text that is read as an
expression is resolved in a wrapper to what it evaluates to, if it has neither closing braces nor
line breaks. If a closing brace comes first in it, it is resolved to nothing; and if a line break
does, to the text that it is in the wrapper, with what embedded expressions there are after the
opening filled in. -/
theorem resolve_toExpression_compared (hp : parse s = .ok x) (trusted : Bool) (context : Value) :
    ('}' ∉ s.toList → '\n' ∉ s.toList →
      (resolve trusted context (toExpression s)).result =
        valueOrNone (evaluate trusted context s)) ∧
    (∀ before after, s.toList = before ++ '}' :: after → '}' ∉ before → '\n' ∉ before →
      (resolve trusted context (toExpression s)).result = .ok none) ∧
    ∀ before after, s.toList = before ++ '\n' :: after → '}' ∉ before →
      (resolve trusted context (toExpression s)).result =
        (fill trusted context (split (s.toList ++ ['}']))).result.map
          (Option.map fun cs => .str (String.ofList ('$' :: '{' :: cs))) :=
  ⟨result_resolve_toExpression hp,
    fun _ _ hs hbrace hbreak => result_resolve_toExpression_of_brace hp hs hbrace hbreak,
    fun _ _ hs hbrace => result_resolve_toExpression_of_break hs hbrace⟩

end First

/-! ### A key that is a closing brace -/

/-- The object `{"a": {"}": 1}}`. -/
def bracedKey : Value := .ofFields [("a", .ofFields [("\x7d", .int 1)])]

/-- The text `a['}']` is read as an expression, and cut off at its closing brace. -/
theorem resolve_toExpression_bracedKey :
    ∃ x, parse "a['\x7d']" = .ok x ∧
      (resolve false bracedKey (toExpression "a['\x7d']")).result = .ok none := by
  have hread : (parse "a['\x7d']").toOption.map (fun _ => true) = some true := by decide +kernel
  obtain ⟨x, hp, -⟩ := exists_eq_ok hread
  obtain ⟨-, hbrace, -⟩ := resolve_toExpression_compared hp false bracedKey
  exact ⟨x, hp, hbrace "a['".toList "']".toList (by decide) (by decide) (by decide)⟩

theorem evaluate_bracedKey (text : String)
    (h : ((evaluate false bracedKey text).toOption.map fun v =>
      match v with
      | .int n => n == 1
      | _ => false) = some true) : evaluate false bracedKey text = .ok (.int 1) := by
  obtain ⟨v, hv, hone⟩ := exists_eq_ok h
  rw [hv]
  cases v with
  | int n => rw [eq_of_beq hone]
  | _ => cases hone

/-- **In a wrapper an expression may lose its value.** Both `a['}']` and the same over two lines are
evaluated to 1; but the first is resolved to nothing in a wrapper, and the second to the text that
it is. -/
theorem wrapper_loses_value :
    (evaluate false bracedKey "a['\x7d']" = .ok (.int 1) ∧
      (resolve false bracedKey (toExpression "a['\x7d']")).result = .ok none) ∧
    evaluate false bracedKey "a\n['\x7d']" = .ok (.int 1) ∧
      (resolve false bracedKey (toExpression "a\n['\x7d']")).result =
        .ok (some (.str "$\x7ba\n['\x7d']\x7d")) := by
  have hline := evaluate_bracedKey "a['\x7d']" (by decide +kernel)
  have hlines := evaluate_bracedKey "a\n['\x7d']" (by decide +kernel)
  obtain ⟨x, hp, -⟩ := evaluate_eq_ok_iff.mp hline
  have hcut : "a['\x7d']".toList = "a['".toList ++ '}' :: "']".toList := by decide
  refine ⟨⟨hline, ?_⟩, hlines, resolve_of_isPlain (by decide +kernel)⟩
  exact result_resolve_toExpression_of_brace hp hcut (by decide) (by decide)

end ApiSuite.Template
