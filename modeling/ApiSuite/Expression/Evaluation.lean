import ApiSuite.Expression.Reading

/-!
# Evaluating expressions

An expression is evaluated on a **context**, the object that paths start in. A path that
cannot be followed has the null value. Trusted evaluation allows every construct; untrusted
evaluation allows paths alone, and refuses anything else before it looks at the context.

Connectives return the operand that decides them, not a truth value. Of the four order
relations those between values without an order fail; equality is always decided.
-/

namespace ApiSuite.Expression

open Text

/-- Why evaluation stops. -/
inductive Stop where
  /-- Values of these kinds are to be ordered. -/
  | incomparable (left right : String)
  | crash (c : Crash)

/-- The index that a key in a path stands for: a key of digit signs is read as a numeral, of
which only decimal digits make one. -/
def keyIndex? (key : String) : Except Stop (Option Nat) :=
  let cs := key.toList
  if cs.isEmpty || !cs.all isDigitSign then .ok none
  else
    let run := (cs.takeWhile isDecimalDigit).length
    if numeralLimit < run then .error (.crash (.hugeNumeral run))
    else
      match readNat? cs with
      | some n => .ok (some n)
      | none => .error (.crash (.badInteger 10 key))

/-- The item of a sequence that a segment leads to, or its length. -/
def stepSequence (length : Nat) (item? : Nat → Option Value) :
    Segment → Except Stop Value
  | .index n => .ok ((item? n).getD .null)
  | .key key =>
    if key == "length" then .ok (.ofNat length)
    else do
      match ← keyIndex? key with
      | some n => pure ((item? n).getD .null)
      | none => pure .null

/-- The key that a segment looks up in an object. -/
def Segment.asKey : Segment → String
  | .key key => key
  | .index n => toString n

/-- The value that a segment leads to. -/
def stepInto (v : Value) (s : Segment) : Except Stop Value :=
  match v with
  | .object entries => .ok ((Value.lookup (Segment.asKey s) entries).getD .null)
  | .list items | .tuple items => stepSequence items.length (items[·]?) s
  | .str text =>
    let cs := text.toList
    stepSequence cs.length (fun n => cs[n]?.map fun c => .str c.toString) s
  | _ => .ok .null

/-- The value at the end of a path; once null, it stays null. -/
def follow : Value → List Segment → Except Stop Value
  | v, [] => .ok v
  | v, s :: rest => do
    let w ← stepInto v s
    if w.isNull then pure .null else follow w rest

/-- The value of a comparison. -/
def compareValues (op : Comparison) (left right : Value) : Except Stop Value :=
  match op with
  | .equal | .strictlyEqual => .ok (.bool (left.equal right))
  | .unequal | .strictlyUnequal => .ok (.bool (!left.equal right))
  | .ordered r =>
    match Value.ordered? r left right with
    | some b => .ok (.bool b)
    | none => .error (.incomparable left.kind right.kind)

/-- The value of an expression in a context. -/
def value (context : Value) : Expression → Except Stop Value
  | .path root segments => follow context (.key root :: segments)
  | .literal v => .ok v
  | .negation operand => do
    let v ← value context operand
    pure (.bool (!v.isTrue))
  | .disjunction left right => do
    let v ← value context left
    if v.isTrue then pure v else value context right
  | .conjunction left right => do
    let v ← value context left
    if v.isTrue then value context right else pure v
  | .comparison op left right => do
    let v ← value context left
    let w ← value context right
    compareValues op v w
  | .conditional condition ifTrue ifFalse => do
    let v ← value context condition
    if v.isTrue then value context ifTrue else value context ifFalse

/-- The fault that a stop is, for the given expression text. -/
def Stop.fault (text : String) : Stop → Fault
  | .incomparable left right => .expression (.failed (.incomparable left right) text)
  | .crash c => .crash c

/-- The value of the expression that a text holds. -/
def evaluate (trusted : Bool) (context : Value) (text : String) : Except Fault Value := do
  let e ← parse text
  if !trusted && !e.isPath then .error (.expression (.untrusted e.construct text))
  else (value context e).mapError (Stop.fault text)

end ApiSuite.Expression
