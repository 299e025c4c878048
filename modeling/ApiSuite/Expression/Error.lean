import ApiSuite.Expression.Basic

/-!
# What can be wrong with an expression

An expression can be malformed, it can use more than its document is trusted with, or its
evaluation can fail. Each error knows the expression it is about; a malformed one also knows
where the fault lies.
-/

namespace ApiSuite.Expression

/-- Why a text is no expression. -/
inductive SyntaxFault where
  | empty
  | character (c : Char)
  | token
  | other (reason : String)
deriving DecidableEq, Repr

/-- Why an expression has no value. -/
inductive ValueFault where
  /-- Values of these kinds have no order. -/
  | incomparable (left right : String)
  | other (reason : String)
deriving DecidableEq, Repr

/-- What is wrong with an expression. -/
inductive Error where
  | malformed (fault : SyntaxFault) (expression : String) (position : Int)
  | untrusted (construct : String) (expression : String)
  | failed (fault : ValueFault) (expression : String)
  | other (reason : String) (expression : Option String)
deriving DecidableEq, Repr

/-- The wording of a syntax fault. -/
def SyntaxFault.message : SyntaxFault → String
  | .empty => "Empty expression"
  | .character c => "Invalid character '" ++ c.toString ++ "' in expression"
  | .token => "Unexpected token in expression"
  | .other reason => reason

/-- The wording of an evaluation fault. -/
def ValueFault.message : ValueFault → String
  | .incomparable left right => s!"Cannot compare {left} with {right}"
  | .other reason => reason

/-- The expression with a caret below the given column. -/
def pointer (expression : String) (position : Int) : String :=
  expression ++ "\n" ++ String.ofList (List.replicate position.toNat ' ') ++ "^"

/-- The wording of an error. A fault past the beginning of an expression is pointed at. -/
def Error.message : Error → String
  | .malformed fault expression position =>
    if 0 < position && expression != "" then
      s!"{fault.message} at position {position}:\n" ++ pointer expression position
    else s!"{fault.message}: {expression}"
  | .untrusted construct expression =>
    s!"{construct} is not allowed in untrusted expression: {expression}"
  | .failed fault expression => s!"{fault.message} in expression: {expression}"
  | .other reason _ => reason

/-- The expression an error is about. -/
def Error.expression : Error → Option String
  | .malformed _ expression _ | .untrusted _ expression | .failed _ expression => some expression
  | .other _ expression => expression

end ApiSuite.Expression
