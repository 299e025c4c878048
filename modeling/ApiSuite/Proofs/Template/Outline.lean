import ApiSuite.Proofs.Template.Filling
import ApiSuite.Proofs.Template.Places

/-!
# Texts around expressions

The outline of a text is what stands before the first embedded expression, and each expression with
what stands behind it up to the next. It says for a whole text what pieces say character by
character, and so what substitution does is plain from it: the texts around the expressions are kept
(`ApiSuite.Template.Keeps`), and in the place of each expression stands the text of its value, or
the expression itself if it gives none (`ApiSuite.Template.substitute_eq_ok_iff`).
-/

namespace ApiSuite.Template

/-- What stands before the expressions of a text, and what stands between the braces of each of
them with what comes behind it. -/
structure Outline where
  lead : List Char
  parts : List (List Char × List Char)

namespace Outline

/-- The text that has an outline. -/
def text (o : Outline) : List Char :=
  o.lead ++ o.parts.flatMap fun part => wrap part.1 ++ part.2

/-- An outline with some more text before it. -/
def after (xs : List Char) (o : Outline) : Outline := ⟨xs ++ o.lead, o.parts⟩

/-- An outline with an expression before it. -/
def afterExpression (body : List Char) (o : Outline) : Outline := ⟨[], (body, o.lead) :: o.parts⟩

end Outline

/-- The outline of pieces. -/
def outline : List Piece → Outline
  | [] => ⟨[], []⟩
  | .char c :: pieces => (outline pieces).after [c]
  | .embedded body :: pieces => (outline pieces).afterExpression body

/-- The outline of a text. -/
def outlineOf (s : String) : Outline := outline (split s.toList)

section Outlines

variable {pieces : List Piece} {cs xs ys body : List Char} {c : Char}

theorem Outline.text_after (xs : List Char) (o : Outline) : (o.after xs).text = xs ++ o.text :=
  List.append_assoc _ _ _

theorem Outline.after_after (xs ys : List Char) (o : Outline) :
    (o.after ys).after xs = o.after (xs ++ ys) := by
  rw [after, after, after, List.append_assoc]

/-- **An outline loses nothing.** -/
theorem text_outline (pieces : List Piece) : (outline pieces).text = join pieces := by
  induction pieces with
  | nil => rfl
  | cons piece pieces ih =>
    cases piece with
    | char c => rw [outline, Outline.text_after, ih, join_char, List.singleton_append]
    | embedded body =>
      rw [outline, join_embedded, ← ih]
      simp [Outline.afterExpression, Outline.text]

/-- The expressions in the outline of pieces are those among the pieces. -/
theorem exists_mem_parts_outline_iff :
    (∃ gap, (body, gap) ∈ (outline pieces).parts) ↔ .embedded body ∈ pieces := by
  induction pieces with
  | nil => simp [outline]
  | cons piece pieces ih =>
    cases piece with
    | char c => simpa [outline, Outline.after] using ih
    | embedded b =>
      rw [List.mem_cons, ← ih]
      simp [outline, Outline.afterExpression, exists_or]

/-- What stands before the expressions of a text begins the text. -/
theorem lead_outline_split_eq_cons (h : (outline (split cs)).lead = c :: ys) :
    ∃ more, cs = c :: more := by
  refine ⟨ys ++ (outline (split cs)).parts.flatMap fun part => wrap part.1 ++ part.2, ?_⟩
  rw [← List.cons_append, ← h]
  exact ((text_outline _).trans (join_split cs)).symm

theorem outline_split_cons (h : ∀ tail, c :: cs = '$' :: '{' :: tail → body? tail = none) :
    outline (split (c :: cs)) = (outline (split cs)).after [c] := by
  rw [split_char h]
  rfl

/-- A character that cannot open an expression stands before those that follow. -/
theorem outline_split_cons_of_ne (hc : c ≠ '$') :
    outline (split (c :: cs)) = (outline (split cs)).after [c] :=
  outline_split_cons fun _ htail => absurd (List.cons.inj htail).1 hc

/-- An opening that is not closed stands before the expressions that follow. -/
theorem outline_split_opening (h : body? cs = none) :
    outline (split ('$' :: '{' :: cs)) = (outline (split cs)).after ['$', '{'] := by
  rw [outline_split_cons, outline_split_cons_of_ne (by decide)]
  · rfl
  · rintro tail ⟨⟩
    exact h

/-- A text that holds no opening stands before the expressions that follow. -/
theorem outline_split_append (hx : '{' ∉ xs) (hc : c ≠ '{') :
    outline (split (xs ++ c :: ys)) = (outline (split (c :: ys))).after xs := by
  induction xs with
  | nil => rfl
  | cons x xs ih =>
    rw [List.mem_cons, not_or] at hx
    rw [List.cons_append, outline_split_cons, ih hx.2]
    · rfl
    · intro tail htail
      obtain ⟨-, htail⟩ := List.cons.inj htail
      cases xs with
      | nil => exact absurd (List.cons.inj htail).1 hc
      | cons y xs =>
        obtain ⟨rfl, -⟩ := List.cons.inj htail
        simp at hx

theorem outline_split_wrap_append (h : IsBody body) :
    outline (split (wrap body ++ cs)) = (outline (split cs)).afterExpression body := by
  rw [split_wrap_append h]
  rfl

end Outlines

/-! ### What substitution keeps -/

/-- Expressions with the texts behind them, and what substitution makes of them. -/
inductive KeepsParts (trusted : Bool) (context : Value) :
    List (List Char × List Char) → List Char → Prop
  | nil : KeepsParts trusted context [] []
  | cons {body gap left out : List Char} {parts : List (List Char × List Char)} :
    Leaves trusted context (.embedded body) left → KeepsParts trusted context parts out →
    KeepsParts trusted context ((body, gap) :: parts) (left ++ (gap ++ out))

/-- **Texts around expressions are kept**, and in the place of each expression stands the text of
its value, or the expression itself if it gives no value. -/
def Keeps (trusted : Bool) (context : Value) (o : Outline) (out : List Char) : Prop :=
  ∃ rest, KeepsParts trusted context o.parts rest ∧ out = o.lead ++ rest

section Keeping

variable {trusted : Bool} {context : Value} {o : Outline} {body out out' : List Char}
  {parts : List (List Char × List Char)} {pieces : List Piece} {s text : String}

theorem KeepsParts.unique (h : KeepsParts trusted context parts out)
    (h' : KeepsParts trusted context parts out') : out = out' := by
  induction h generalizing out' with
  | nil =>
    cases h'
    rfl
  | cons hleft hrest ih =>
    cases h' with
    | cons hleft' hrest' => rw [hleft.unique hleft', ih hrest']

/-- Substitution makes one text of an outline. -/
theorem Keeps.unique (h : Keeps trusted context o out) (h' : Keeps trusted context o out') :
    out = out' := by
  obtain ⟨rest, hrest, rfl⟩ := h
  obtain ⟨rest', hrest', rfl⟩ := h'
  rw [hrest.unique hrest']

theorem Keeps.after (h : Keeps trusted context o out) (xs : List Char) :
    Keeps trusted context (o.after xs) (xs ++ out) := by
  obtain ⟨rest, hrest, rfl⟩ := h
  exact ⟨rest, hrest, (List.append_assoc _ _ _).symm⟩

theorem Keeps.afterExpression {left : List Char} (h : Keeps trusted context o out)
    (hleft : Leaves trusted context (.embedded body) left) :
    Keeps trusted context (o.afterExpression body) (left ++ out) := by
  obtain ⟨rest, hrest, rfl⟩ := h
  exact ⟨_, .cons hleft hrest, rfl⟩

/-- What is left in the place of each piece makes up what is kept of the outline. -/
theorem keeps_outline {texts : List (List Char)}
    (h : List.Forall₂ (Leaves trusted context) pieces texts) :
    Keeps trusted context (outline pieces) texts.flatten := by
  induction h with
  | nil => exact ⟨[], .nil, rfl⟩
  | @cons piece left pieces texts hleft _ ih =>
    cases piece with
    | char c =>
      cases hleft
      exact ih.after [c]
    | embedded body => exact ih.afterExpression hleft

/-- **Substitution, expression by expression.** A text is substituted in exactly if each of its
expressions can be filled in or left as it is, and to what keeps the texts around them. -/
theorem substitute_eq_ok_iff :
    (substitute trusted context s).result = .ok text ↔
      (∀ part ∈ (outlineOf s).parts, Fillable trusted context part.1) ∧
        Keeps trusted context (outlineOf s) text.toList := by
  have hbodies : (∀ part ∈ (outlineOf s).parts, Fillable trusted context part.1) ↔
      ∃ out, (substitute trusted context s).result = .ok out := by
    rw [substitute_ok_iff]
    simp only [outlineOf, ← exists_mem_parts_outline_iff, forall_exists_index, Prod.forall]
  have hkeeps : ∀ out, (substitute trusted context s).result = .ok out →
      Keeps trusted context (outlineOf s) out.toList := by
    intro out hout
    obtain ⟨texts, htexts, heq⟩ := leaves_of_substitute hout
    rw [heq]
    exact keeps_outline htexts
  rw [hbodies]
  constructor
  · exact fun h => ⟨⟨text, h⟩, hkeeps text h⟩
  · rintro ⟨⟨out, hout⟩, htext⟩
    rw [hout, String.ext ((hkeeps out hout).unique htext)]

end Keeping

end ApiSuite.Template
