import ApiSuite.Proofs.Template.Filling
import ApiSuite.Proofs.Template.Path
import ApiSuite.Values.Lookup

/-!
# The parts of a text that is looked up

The parts of a text are its embedded expressions, or the text itself as a name if there are none
(`ApiSuite.Template.parts`). A lookup does not evaluate a name, though. It puts the name in a
wrapper, and goes on with the expressions that are found in the wrapped text
(`ApiSuite.Template.sought`).

That comes to the same for every name that can stand between the braces
(`ApiSuite.Template.allEvaluate_sought`): the wrapper is then the one expression in the wrapped
text, and makes no difference to what is read. In the wrapper of a name that cannot stand there, no
expression may be found at all. There is then nothing that could fail to evaluate, and the wrapped
text is its own value in every context (`ApiSuite.Template.resolve_of_isPlain`).
-/

namespace ApiSuite

open Expression

/-! ### Malformed texts -/

namespace Expression

/-- A text is malformed: it is read as no expression. -/
def IsMalformed (s : String) : Prop :=
  ∃ fault text position, parse s = .error (.expression (.malformed fault text position))

theorem IsMalformed.evaluate {s : String} (h : IsMalformed s) (trusted : Bool) (context : Value) :
    ∃ e, evaluate trusted context s = .error (.expression e) := by
  obtain ⟨fault, text, position, hparse⟩ := h
  exact ⟨_, evaluate_of_parse_error hparse⟩

end Expression

/-! ### The parts of a text -/

namespace Template

section Parts

variable {trusted : Bool} {context v : Value} {s e part : String} {body : List Char}
  {ps : List String}

/-- The parts of a text: its embedded expressions, or the text itself as a name if there are
none. -/
def parts (e : String) : List String := if isPlain e then [e] else texts e

/-- What a lookup of a text evaluates: the expressions that are found in its key. -/
def sought (e : String) : List String := texts (lookupKey e)

/-- A text is recognized: it has embedded expressions, or it is a name that can stand between the
braces of one. -/
def IsRecognized (e : String) : Prop := isPlain e → IsBody e.toList

/-- Every one of some expressions evaluates in a context, to a value that is not null. -/
def AllEvaluate (trusted : Bool) (context : Value) (ps : List String) : Prop :=
  ∀ part ∈ ps, ∃ v, evaluate trusted context part = .ok v ∧ v.isNull = false

theorem mem_texts_iff :
    part ∈ texts s ↔ ∃ body, .embedded body ∈ split s.toList ∧ part = embeddedText body := by
  have hmem : part ∈ texts s ↔ ∃ o ∈ find s, part = o.text := by
    simp [texts, eq_comm]
  exact hmem.trans exists_mem_find_iff

theorem texts_of_isPlain (h : isPlain s) : texts s = [] := by
  rw [texts, List.isEmpty_iff.mp h]
  rfl

theorem embeddedText_toList (s : String) : embeddedText s.toList = toExpression s := rfl

/-- What begins with the mark of a pattern or of a reference is read as no expression: no operand
begins with either. -/
theorem not_parse_of_mark {c : Char} {cs : List Char} (hc : c = '~' ∨ c = '@') (x : Expression) :
    parse (embeddedText (c :: cs)) ≠ .ok x := by
  intro hp
  have hholds : Holds (embeddedText (c :: cs)) (Text.trim (c :: cs)) := by
    have h := holds_toExpression (String.ofList (c :: cs))
    rwa [← embeddedText_toList, String.toList_ofList] at h
  have hblank : Text.isBlank c = false := by
    rcases hc with rfl | rfl <;> decide
  obtain ⟨more, hmore⟩ := Text.trim_cons hblank cs
  rw [hmore] at hholds
  obtain ⟨d, rest, hcut, hstarts⟩ := starts_of_parse hholds hp
  cases hcut
  rcases hstarts with hspace | hoperand
  · rcases hc with rfl | rfl <;> exact absurd hspace (by decide)
  · rcases hc with rfl | rfl <;> exact hoperand (by simp)

/-- A pattern is read as no expression. -/
theorem not_isPattern_of_parse {x : Expression} (hp : parse (embeddedText body) = .ok x) :
    isPattern (embeddedText body) = false := by
  refine Bool.eq_false_iff.mpr fun hpattern => ?_
  cases body with
  | nil => cases hpattern
  | cons c cs =>
    have hc : c = '~' := by simpa [isPattern, beginsWith, embeddedText, wrap] using hpattern
    exact not_parse_of_mark (.inl hc) x hp

/-- An expression gives a value exactly if it evaluates to one that is not null. -/
theorem exists_gives_iff :
    (∃ v, Gives trusted context (embeddedText body) v) ↔
      ∃ v, evaluate trusted context (embeddedText body) = .ok v ∧ v.isNull = false := by
  constructor
  · rintro ⟨v, -, hv, hn⟩
    exact ⟨v, hv, hn⟩
  · rintro ⟨v, hv, hn⟩
    obtain ⟨x, hparse, -⟩ := evaluate_eq_ok_iff.mp hv
    exact ⟨v, not_isPattern_of_parse hparse, hv, hn⟩

/-- The expressions of a text all evaluate exactly if none of them gives no value. -/
theorem allEvaluate_texts_iff :
    AllEvaluate trusted context (texts s) ↔
      ¬∃ body, .embedded body ∈ split s.toList ∧
        ¬∃ v, Gives trusted context (embeddedText body) v := by
  constructor
  · rintro h ⟨body, hbody, hnot⟩
    exact hnot (exists_gives_iff.mpr (h _ (mem_texts_iff.mpr ⟨body, hbody, rfl⟩)))
  · intro h part hpart
    obtain ⟨body, hbody, rfl⟩ := mem_texts_iff.mp hpart
    exact exists_gives_iff.mp (not_not.mp fun hnot => h ⟨body, hbody, hnot⟩)

/-- **A text that is resolved to the end has a value exactly if all of its expressions
evaluate.** -/
theorem isSome_of_resolve {found : Option Value}
    (h : (resolve trusted context s).result = .ok found) :
    found.isSome ↔ AllEvaluate trusted context (texts s) := by
  rw [allEvaluate_texts_iff, ← resolve_eq_none_iff h]
  cases found <;> simp

/-! ### Names and their wrappers -/

/-- The wrapper makes no difference to what a name evaluates to. -/
theorem evaluate_toExpression (h : '}' ∉ e.toList.tail) :
    evaluate trusted context (toExpression e) = .ok v ↔ evaluate trusted context e = .ok v := by
  simp only [evaluate_eq_ok_iff, parse_toExpression h]

/-- The wrapper makes no difference to whether a name is malformed. -/
theorem isMalformed_toExpression (h : '}' ∉ e.toList.tail) :
    IsMalformed (toExpression e) ↔ IsMalformed e :=
  (parse_malformed_iff (holds_toExpression e)).trans
    (parse_malformed_iff (holds_of_not_mem h)).symm

/-- **A name is what is sought** exactly if it can stand between the braces. -/
theorem sought_eq_iff (hplain : isPlain e) : sought e = [toExpression e] ↔ IsBody e.toList := by
  rw [sought, lookupKey, if_pos hplain]
  constructor
  · intro h
    have hmem : toExpression e ∈ texts (toExpression e) := by simp [h]
    obtain ⟨body, hbody, htext⟩ := mem_texts_iff.mp hmem
    have hwrap : wrap e.toList = wrap body := String.ofList_injective htext
    have he : e.toList = body := by simpa [wrap] using hwrap
    rw [he]
    exact isBody_of_mem hbody
  · intro h
    rw [texts, find, toList_toExpression, split_wrap h]
    rfl

/-- **What is looked up is what the parts are**, for every text that is recognized. -/
theorem allEvaluate_sought (h : IsRecognized e) :
    AllEvaluate trusted context (sought e) ↔ AllEvaluate trusted context (parts e) := by
  by_cases hplain : isPlain e
  · have hbody := h hplain
    rw [(sought_eq_iff hplain).mpr hbody, parts, if_pos hplain]
    simp only [AllEvaluate, List.forall_mem_singleton, evaluate_toExpression hbody.noBrace]
  · rw [sought, lookupKey, if_neg hplain, parts, if_neg hplain]

theorem not_mem_of_isPlain (h : isPlain s) : .embedded body ∉ split s.toList := by
  intro hbody
  have htext := mem_texts_iff.mpr ⟨body, hbody, rfl⟩
  rw [texts_of_isPlain h] at htext
  cases htext

theorem fill_of_chars {pieces : List Piece} (h : ∀ body, .embedded body ∉ pieces) :
    (fill trusted context pieces).result = .ok (some (join pieces)) := by
  induction pieces with
  | nil => rfl
  | cons piece pieces ih =>
    cases piece with
    | char c =>
      rw [fill_char, ih fun body hbody => h body (List.mem_cons_of_mem _ hbody)]
      rfl
    | embedded body => exact absurd List.mem_cons_self (h body)

/-- **A text without expressions is its own value**, whatever the context. -/
theorem resolve_of_isPlain (h : isPlain s) :
    (resolve trusted context s).result = .ok (some (.str s)) := by
  have hlone : ¬IsLone s := by
    rintro ⟨body, hbody⟩
    exact not_mem_of_isPlain h (by rw [hbody]; exact List.mem_cons_self)
  rw [result_resolve_of_not_lone hlone, fill_of_chars fun body => not_mem_of_isPlain h, join_split]
  show Except.ok (some (Value.str (String.ofList s.toList))) = _
  rw [String.ofList_toList]

end Parts

end Template

end ApiSuite
