import ApiSuite.Value.Order

/-!
# Expressions

An expression is what stands between `$` with its opening brace and the closing brace: a
**path** into the values at hand, or a term built from paths and literals by a condition,
the two connectives, a comparison and negation. Expressions have no calls and no access to
anything but values.
-/

namespace ApiSuite

/-- A step of a path: to the entry under a key, or to the item at an index. -/
inductive Segment where
  | key (name : String)
  | index (n : Nat)
deriving DecidableEq, Repr, Inhabited

/-- The comparison operators. The strict and the loose equalities mean the same. -/
inductive Comparison where
  | equal
  | strictlyEqual
  | unequal
  | strictlyUnequal
  | ordered (r : Value.Relation)
deriving DecidableEq, Repr

/-- An expression. -/
inductive Expression where
  | path (root : String) (segments : List Segment)
  | literal (v : Value)
  | negation (operand : Expression)
  | disjunction (left right : Expression)
  | conjunction (left right : Expression)
  | comparison (op : Comparison) (left right : Expression)
  | conditional (condition ifTrue ifFalse : Expression)
deriving Inhabited

/-- The spelling of a comparison operator. -/
def Comparison.spelling : Comparison → String
  | .equal => "=="
  | .strictlyEqual => "==="
  | .unequal => "!="
  | .strictlyUnequal => "!=="
  | .ordered .less => "<"
  | .ordered .lessOrEqual => "<="
  | .ordered .greater => ">"
  | .ordered .greaterOrEqual => ">="

/-- The constructs that an expression can be, as diagnostics name them. -/
def Expression.construct : Expression → String
  | .path _ _ => "PathExpression"
  | .literal _ => "LiteralExpression"
  | .negation _ => "UnaryExpression"
  | .disjunction _ _ | .conjunction _ _ | .comparison _ _ _ => "BinaryExpression"
  | .conditional _ _ _ => "ConditionalExpression"

/-- Whether an expression is a path, and so allowed in untrusted documents. -/
def Expression.isPath : Expression → Bool
  | .path _ _ => true
  | _ => false

end ApiSuite
