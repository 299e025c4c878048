import ApiSuite.Expression.Token

/-!
# From tokens to expressions

An expression is built by one pass over its tokens with a stack of the operators and brackets
that still wait for their right side. A `ApiSuite.Expression.Frame` is such a waiting
construct with what stands to its left. An operator first closes every frame that binds
tighter than it, or as tight and to the left; then it becomes a frame itself. From tight to
loose: negation, comparison (which does not chain), conjunction, disjunction, the
conditional (whose last part extends as far as it can).

The pass is a run of the automaton `ApiSuite.Expression.step`; a token it has no step for is
where the text stops being the beginning of an expression.
-/

namespace ApiSuite.Expression

/-- A construct whose right side is still to come. -/
inductive Frame where
  | paren
  | negation
  | comparison (op : Comparison) (left : Expression)
  | conjunction (left : Expression)
  | disjunction (left : Expression)
  /-- A condition with its question mark: the value if it holds comes next. -/
  | ifTrue (condition : Expression)
  /-- The value if it does not hold comes next. -/
  | ifFalse (condition value : Expression)

/-- What has been read: either an operand comes next, or one has been read, or a path is
under construction. Such a path lists its segments in reverse, and is `whole` unless an
accessor has been begun. -/
inductive State where
  | operand (stack : List Frame)
  | operator (stack : List Frame) (e : Expression)
  | path (stack : List Frame) (root : String) (reversed : List Segment) (whole : Bool)

/-- Applies the waiting negations to an operand. -/
def negate : List Frame → Expression → List Frame × Expression
  | .negation :: stack, e => negate stack (.negation e)
  | stack, e => (stack, e)

/-- Closes a waiting comparison. -/
def closeComparison : List Frame → Expression → List Frame × Expression
  | .comparison op left :: stack, e => (stack, .comparison op left e)
  | stack, e => (stack, e)

/-- Closes what binds at least as tight as a conjunction. -/
def closeConjunction (stack : List Frame) (e : Expression) : List Frame × Expression :=
  match closeComparison stack e with
  | (.conjunction left :: stack, e) => (stack, .conjunction left e)
  | closed => closed

/-- Closes what binds at least as tight as a disjunction. -/
def closeDisjunction (stack : List Frame) (e : Expression) : List Frame × Expression :=
  match closeConjunction stack e with
  | (.disjunction left :: stack, e) => (stack, .disjunction left e)
  | closed => closed

/-- Closes the conditionals whose last part ends here. -/
def closeConditional : List Frame → Expression → List Frame × Expression
  | .ifFalse condition value :: stack, e => closeConditional stack (.conditional condition value e)
  | stack, e => (stack, e)

/-- Closes everything up to the innermost open bracket or question mark. -/
def closeAll (stack : List Frame) (e : Expression) : List Frame × Expression :=
  let (stack, e) := closeDisjunction stack e
  closeConditional stack e

/-- The state after a whole operand. -/
def finishOperand (stack : List Frame) (e : Expression) : State :=
  let (stack, e) := negate stack e
  .operator stack e

/-- The number that a numeral denotes: an integer without a point, a float with one. -/
def numeral (negative : Bool) (whole : List Char) : Option (List Char) → Value
  | none =>
    let n : Int := Decimal.digitsValue whole
    .int (if negative then -n else n)
  | some fraction => .float (Decimal.ofParts negative whole fraction 0)

/-- The state after a token where an operand comes next. -/
def stepOperand (stack : List Frame) : Token → Option State
  | .name s => some (.path stack s [] true)
  | .number negative whole fraction =>
    some (finishOperand stack (.literal (numeral negative whole fraction)))
  | .text s => some (finishOperand stack (.literal (.str s)))
  | .constant v => some (finishOperand stack (.literal v))
  | .not => some (.operand (.negation :: stack))
  | .openParen => some (.operand (.paren :: stack))
  | _ => none

/-- The state after a token where an operand has been read. -/
def stepOperator (stack : List Frame) (e : Expression) : Token → Option State
  | .comparison op =>
    match stack with
    | .comparison _ _ :: _ => none
    | _ => some (.operand (.comparison op e :: stack))
  | .and =>
    let (stack, e) := closeConjunction stack e
    some (.operand (.conjunction e :: stack))
  | .or =>
    let (stack, e) := closeDisjunction stack e
    some (.operand (.disjunction e :: stack))
  | .question =>
    let (stack, e) := closeDisjunction stack e
    some (.operand (.ifTrue e :: stack))
  | .colon =>
    match closeAll stack e with
    | (.ifTrue condition :: stack, e) => some (.operand (.ifFalse condition e :: stack))
    | _ => none
  | .closeParen =>
    match closeAll stack e with
    | (.paren :: stack, e) => some (finishOperand stack e)
    | _ => none
  | _ => none

/-- The state after a token in the course of a path. -/
def stepPath (stack : List Frame) (root : String) (reversed : List Segment) (whole : Bool)
    (t : Token) : Option State :=
  match t with
  | .dot | .openBracket => if whole then some (.path stack root reversed false) else none
  | .name s | .key s => some (.path stack root (.key s :: reversed) (t.next == .accessor))
  | .index ds => some (.path stack root (.index (Decimal.digitsValue ds) :: reversed) false)
  | .closeBracket => some (.path stack root reversed true)
  | t =>
    if whole then
      let (stack, e) := negate stack (.path root reversed.reverse)
      stepOperator stack e t
    else none

/-- The state after a token. -/
def step : State → Token → Option State
  | .operand stack, t => stepOperand stack t
  | .operator stack e, t => stepOperator stack e t
  | .path stack root reversed whole, t => stepPath stack root reversed whole t

/-- The expression that an operand completes, if nothing waits for more. -/
def complete (stack : List Frame) (e : Expression) : Option Expression :=
  match closeAll stack e with
  | ([], e) => some e
  | _ => none

/-- The expression that has been read, if it is complete. -/
def finish : State → Option Expression
  | .operand _ => none
  | .operator stack e => complete stack e
  | .path stack root reversed whole =>
    if whole then
      let (stack, e) := negate stack (.path root reversed.reverse)
      complete stack e
    else none

/-- Runs the automaton over tokens: the state after all of them, or the first token that has
no step. -/
def run : State → List Placed → Except Placed State
  | state, [] => .ok state
  | state, t :: ts =>
    match step state t.token with
    | some state => run state ts
    | none => .error t

end ApiSuite.Expression
