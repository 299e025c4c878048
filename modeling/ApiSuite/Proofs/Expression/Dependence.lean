import ApiSuite.Proofs.Expression.Evaluation

/-!
# What the value of an expression depends on

A path begins with a name, its **root**, that is looked up in the context; from there on it goes
through the value that was found. So an expression depends on its context only through what its
roots lead to there (`ApiSuite.Expression.value_congr`). That a text is no expression, or that it
is one that its document is not trusted with, does not depend on the context at all, and neither do
the errors that say so (`ApiSuite.Expression.evaluate_congr`).
-/

namespace ApiSuite.Expression

/-- The names that the paths of an expression begin with. -/
def roots : Expression → List String
  | .path root _ => [root]
  | .literal _ => []
  | .negation operand => operand.roots
  | .disjunction left right | .conjunction left right | .comparison _ left right =>
    left.roots ++ right.roots
  | .conditional condition ifTrue ifFalse => condition.roots ++ (ifTrue.roots ++ ifFalse.roots)

/-- Two objects have the same under some names, or both nothing. -/
def AgreeOn (names : List String) (es es' : List (Value × Value)) : Prop :=
  ∀ name ∈ names, Value.lookup name es = Value.lookup name es'

section Dependence

variable {names names' : List String} {es es' : List (Value × Value)} {text : String}

theorem agreeOn_append :
    AgreeOn (names ++ names') es es' ↔ AgreeOn names es es' ∧ AgreeOn names' es es' :=
  List.forall_mem_append

/-- A path goes through what its root leads to. -/
theorem follow_congr {root : String} {segments : List Segment}
    (h : Value.lookup root es = Value.lookup root es') :
    follow (.object es) (.key root :: segments) = follow (.object es') (.key root :: segments) := by
  have hstep : stepInto (.object es) (.key root) = stepInto (.object es') (.key root) := by
    simp only [stepInto, Segment.asKey, h]
  rw [follow_cons, follow_cons, hstep]

/-- **The value of an expression depends on what its roots lead to.** -/
theorem value_congr {e : Expression} (h : AgreeOn e.roots es es') :
    value (.object es) e = value (.object es') e := by
  induction e with
  | path root segments => exact follow_congr (h root List.mem_cons_self)
  | literal v => rfl
  | negation operand ih => rw [value, value, ih h]
  | disjunction left right ihl ihr =>
    obtain ⟨hl, hr⟩ := agreeOn_append.mp h
    rw [value, value, ihl hl, ihr hr]
  | conjunction left right ihl ihr =>
    obtain ⟨hl, hr⟩ := agreeOn_append.mp h
    rw [value, value, ihl hl, ihr hr]
  | comparison op left right ihl ihr =>
    obtain ⟨hl, hr⟩ := agreeOn_append.mp h
    rw [value, value, ihl hl, ihr hr]
  | conditional condition ifTrue ifFalse ihc iht ihf =>
    obtain ⟨hc, hrest⟩ := agreeOn_append.mp h
    obtain ⟨ht, hf⟩ := agreeOn_append.mp hrest
    rw [value, value, ihc hc, iht ht, ihf hf]

/-- **What comes of a text depends on what the roots of its expression lead to**, if it holds
one. -/
theorem evaluate_congr (h : ∀ e, parse text = .ok e → AgreeOn e.roots es es') (trusted : Bool) :
    evaluate trusted (.object es) text = evaluate trusted (.object es') text := by
  cases hp : parse text with
  | error fault => rw [evaluate_of_parse_error hp, evaluate_of_parse_error hp]
  | ok e =>
    by_cases ha : Allowed trusted e
    · rw [evaluate_of_parse hp ha, evaluate_of_parse hp ha, value_congr (h e hp)]
    · rw [evaluate_of_not_allowed hp ha, evaluate_of_not_allowed hp ha]

end Dependence

end ApiSuite.Expression
