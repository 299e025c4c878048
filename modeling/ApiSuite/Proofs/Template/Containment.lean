import ApiSuite.Proofs.Expression.Crash
import ApiSuite.Proofs.Json.Writing
import ApiSuite.Proofs.Template.Filling

/-!
# How far failures are contained

What is wrong with an expression is to concern that expression alone. This holds of every error of
an expression: it counts as having no value, and the rest of the template is resolved or filled in
(`ApiSuite.Template.Contained.fails`). It does not hold of crashes, and there are two ways to them
that nothing guards: evaluation can get stuck on a false numeral
(`ApiSuite.Expression.Crashes`), and a value that is given may have no text
(`ApiSuite.Template.HasText`).

`ApiSuite.Template.contained` says of every text, context and mode exactly when resolving and
substituting come to an end, and what they come to. One path into a list with one item is enough
to keep both from it (`ApiSuite.Template.crash_of_superscript`).
-/

namespace ApiSuite.Template

open Expression

/-! ### Values that have a text -/

/-- A value has a text to be filled in as: a collection if JSON has a form for it, any other value
if it does not hold an integer past the numeral limit. -/
def HasText : Value → Prop
  | .object entries => (Value.object entries).HasJson
  | .list items => (Value.list items).HasJson
  | .tuple items => (Value.tuple items).HasJson
  | v => v.holdsHuge = false

theorem display_ok_iff {v : Value} : (∃ text, v.display = .ok text) ↔ v.holdsHuge = false := by
  unfold Value.display
  cases v.holdsHuge <;> simp

theorem toText_ok_iff {v : Value} : (∃ text, toText v = .ok text) ↔ HasText v := by
  cases v with
  | object | list | tuple => exact Json.print_compact_ok_iff
  | bool b => exact ⟨fun _ => rfl, fun _ => ⟨_, rfl⟩⟩
  | _ => exact display_ok_iff

/-! ### Expressions that are harmless -/

section Harmless

variable {trusted : Bool} {context : Value} {text : String} {body : List Char}

/-- An expression is harmless: it is a pattern, which is not evaluated, or its evaluation does not
crash. -/
def Harmless (trusted : Bool) (context : Value) (text : String) : Prop :=
  isPattern text = true ∨ ¬Crashes trusted context text

theorem settled_iff_harmless : Settled trusted context text ↔ Harmless trusted context text := by
  rw [settled_iff_not_crash, Harmless, ← evaluate_crash_iff]
  cases isPattern text <;> simp

/-- An expression can be filled in, or be left as it is, if it is harmless and has no value
without a text. -/
theorem fillable_iff :
    Fillable trusted context body ↔ Harmless trusted context (embeddedText body) ∧
      ∀ v, Gives trusted context (embeddedText body) v → HasText v := by
  simp only [Fillable, settled_iff_harmless, toText_ok_iff]

end Harmless

/-! ### Resolution and substitution -/

/-- How far the failures of its expressions are contained when a text is resolved, or substituted
in. -/
structure Contained (trusted : Bool) (context : Value) (s : String) : Prop where
  /-- An expression with an error is harmless, and it gives no value. -/
  fails : ∀ body e, evaluate trusted context (embeddedText body) = .error (.expression e) →
    Harmless trusted context (embeddedText body) ∧
      ¬∃ v, Gives trusted context (embeddedText body) v
  /-- Substitution comes to an end exactly if all expressions are harmless and all values that
  they give have a text. -/
  substitutes : (∃ out, (substitute trusted context s).result = .ok out) ↔
    ∀ body, .embedded body ∈ split s.toList → Harmless trusted context (embeddedText body) ∧
      ∀ v, Gives trusted context (embeddedText body) v → HasText v
  /-- Each expression that gives a value is filled in, and all else is left as it is. -/
  leaves : ∀ out, (substitute trusted context s).result = .ok out →
    ∃ texts, List.Forall₂ (Leaves trusted context) (split s.toList) texts ∧
      out.toList = texts.flatten
  /-- Resolution comes to an end exactly if the expression that makes up the whole text is
  harmless or, where other text is around it, the first expression that is not filled in is
  harmless and gives no value without a text. -/
  resolves : (∃ found, (resolve trusted context s).result = .ok found) ↔
    (∀ body, split s.toList = [.embedded body] →
      Harmless trusted context (embeddedText body)) ∧
    (¬IsLone s → ∀ body, FirstUnfilled trusted context (split s.toList) body →
      Harmless trusted context (embeddedText body) ∧
        ∀ v, Gives trusted context (embeddedText body) v → HasText v)
  /-- It comes to nothing exactly if one of the expressions gives no value. -/
  resolvesToNone : ∀ found, (resolve trusted context s).result = .ok found →
    (found = none ↔ ∃ body, .embedded body ∈ split s.toList ∧
      ¬∃ v, Gives trusted context (embeddedText body) v)
  /-- Otherwise it comes to the value of the expression that makes up the whole text, or to the
  text with all expressions filled in. -/
  resolvesToSome : ∀ v, (resolve trusted context s).result = .ok (some v) →
    ResolvesTo trusted context s v
  /-- What is not contained is a crash. -/
  crashes : ∀ fault, (resolve trusted context s).result = .error fault ∨
    (substitute trusted context s).result = .error fault → ∃ c, fault = .crash c

section Contained

variable {trusted : Bool} {context : Value} {s : String}

theorem not_breaks_iff :
    ¬Breaks trusted context s ↔
      (∀ body, split s.toList = [.embedded body] →
        Harmless trusted context (embeddedText body)) ∧
      (¬IsLone s → ∀ body, FirstUnfilled trusted context (split s.toList) body →
        Harmless trusted context (embeddedText body) ∧
          ∀ v, Gives trusted context (embeddedText body) v → HasText v) := by
  rw [Breaks, not_or]
  refine and_congr ?_ ?_
  · constructor
    · intro h body hbody
      exact settled_iff_harmless.mp (Classical.byContradiction fun hnot => h ⟨body, hbody, hnot⟩)
    · rintro h ⟨body, hbody, hnot⟩
      exact hnot (settled_iff_harmless.mpr (h body hbody))
  · constructor
    · intro h hlone body hfirst
      exact fillable_iff.mp (Classical.byContradiction fun hnot => h ⟨hlone, body, hfirst, hnot⟩)
    · rintro h ⟨hlone, body, hfirst, hnot⟩
      exact hnot (fillable_iff.mpr (h hlone body hfirst))

/-- **How far failures are contained**, whatever the text, the context and the mode. -/
theorem contained (trusted : Bool) (context : Value) (s : String) :
    Contained trusted context s where
  fails body e h := by
    have hnone := evaluatePart_of_expression_error h
    exact ⟨settled_iff_harmless.mp ⟨_, hnone⟩, not_gives_of_none hnone⟩
  substitutes := by
    rw [substitute_ok_iff]
    simp only [fillable_iff]
  leaves _ h := leaves_of_substitute h
  resolves := resolve_ok_iff.trans not_breaks_iff
  resolvesToNone _ h := resolve_eq_none_iff h
  resolvesToSome _ h := resolvesTo_of_resolve h
  crashes _ h := h.elim resolve_error substitute_error

end Contained

/-! ### A crash that is not contained -/

/-- `${a['²']}` asks for an item of a list by a superscript. -/
def superscript : String := "$\x7ba['²']\x7d"

theorem parse_superscript : parse superscript = .ok (.path "a" [.key "²"]) := by
  have hholds : Holds superscript ['a', '[', '\'', '²', '\'', ']'] :=
    .inl ⟨['a', '[', '\'', '²', '\'', ']'], by decide, by decide⟩
  have hname : (Token.name "a").Spelled ['a'] := .name (by decide) (by simp)
  have hkey : (Token.key "²").Spelled ['\'', '²', '\''] := .key (.single (by decide))
  have hspells : Spells [.name "a", .openBracket, .key "²", .closeBracket]
      ['a', '[', '\'', '²', '\'', ']'] :=
    .token hname (.token .openBracket (.token hkey (.token .closeBracket (.nil (by simp)))))
  exact (parse_eq_ok_iff hholds).mpr
    ⟨_, hspells, .ofPath (by simp [IsReserved]) (.key "²" .nil), by simp [Token.IsShort]⟩

/-- The object `{"a": [1]}`. -/
def listUnderA : Value := .ofFields [("a", .list [.int 1])]

theorem evaluate_superscript :
    evaluate false listUnderA superscript = .error (.crash (.badInteger 10 "²")) := by
  have hstep : stepInto (.list [.int 1]) (.key "²") = .error (.crash (.badInteger 10 "²")) := by
    rfl
  have hvalue : value listUnderA (.path "a" [.key "²"]) =
      .error (.crash (.badInteger 10 "²")) := by
    show follow listUnderA [.key "a", .key "²"] = _
    have hlist : stepInto listUnderA (.key "a") = .ok (.list [.int 1]) := by rfl
    rw [follow_cons, hlist]
    show follow (.list [.int 1]) [.key "²"] = _
    rw [follow_cons, hstep]
    rfl
  rw [evaluate_of_parse parse_superscript (.inr rfl), hvalue]
  rfl

/-- **Not all failures are contained**: a path into a list can end resolution and substitution
alike. -/
theorem crash_of_superscript :
    (resolve false listUnderA superscript).result = .error (.crash (.badInteger 10 "²")) ∧
      (substitute false listUnderA superscript).result =
        .error (.crash (.badInteger 10 "²")) := by
  have hlone : split superscript.toList = [.embedded ['a', '[', '\'', '²', '\'', ']']] := by
    have hsuperscript : superscript.toList =
        ['$', '{', 'a', '[', '\'', '²', '\'', ']', '}'] := by decide
    rw [hsuperscript]
    simp [split, body?, untilBrace?]
  have hpart : (evaluatePart false listUnderA superscript).result =
      .error (.crash (.badInteger 10 "²")) :=
    evaluatePart_of_crash (by decide) evaluate_superscript
  constructor
  · rw [resolve_of_lone hlone, ← eq_embeddedText hlone]
    exact hpart
  · rw [result_substitute, hlone, fillPresent_embedded, filling, ← eq_embeddedText hlone, hpart]
    rfl

end ApiSuite.Template
