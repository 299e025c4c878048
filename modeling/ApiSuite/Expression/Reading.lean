import ApiSuite.Expression.Parser
import ApiSuite.Fault

/-!
# Reading expressions

`ApiSuite.Expression.parse` reads the expression that a text holds, with or without the
wrapper of dollar sign and braces around it. Where the text is no expression, the error
points at the first token that cannot follow what stands before it, by its column on its
line; at the end of the text it points at the last token.
-/

namespace ApiSuite.Expression

open Text

/-- The inside of a wrapped expression. -/
def unwrap? : List Char → Option (List Char)
  | '$' :: '{' :: cs =>
    match cs.reverse with
    | '}' :: body => some body.reverse
    | _ => none
  | _ => none

/-- The trimmed text of an expression without its wrapper. -/
def stripWrapper (s : String) : String :=
  let cs := trim s.toList
  match unwrap? cs with
  | some body => String.ofList (trim body)
  | none => String.ofList cs

/-- The number of characters between the last line break before an offset and the offset. -/
def column (cs : List Char) (offset : Nat) : Nat :=
  ((cs.take offset).reverse.takeWhile (· != '\n')).length

/-- The digits of a token that is an integer, with the place of the numeral. -/
def integerNumeral? : Token → Option (NumeralPlace × List Char)
  | .number _ whole none => some (.literal, whole)
  | .index ds => some (.index, ds)
  | _ => none

/-- The crash that the first integer of too many digits causes. -/
def hugeNumeral? (ts : List Placed) : Option Crash :=
  ts.findSome? fun t =>
    match integerNumeral? t.token with
    | some (place, ds) =>
      if numeralLimit < ds.length then some (.hugeNumeralIn place ds.length) else none
    | none => none

/-- The syntax fault of a text at an offset. -/
def faultAt (cs : List Char) (fault : SyntaxFault) (offset : Nat) : Fault :=
  .expression (.malformed fault (String.ofList cs) (column cs offset))

/-- The expression that a trimmed text holds. -/
def parseInner (cs : List Char) : Except Fault Expression :=
  let (tokens, ending) := tokenize cs
  match run (.operand []) tokens with
  | .error t => .error (faultAt cs .token t.offset)
  | .ok state =>
    match ending with
    | .stuck offset _ true => .error (faultAt cs .token offset)
    | .stuck offset c false => .error (faultAt cs (.character c) offset)
    | .complete =>
      match finish state with
      | none => .error (faultAt cs .token ((tokens.getLast?.map (·.offset)).getD 0))
      | some e =>
        match hugeNumeral? tokens with
        | some crash => .error (.crash crash)
        | none => .ok e

/-- The expression that a text holds, with or without its wrapper. -/
def parse (s : String) : Except Fault Expression :=
  let inner := stripWrapper s
  if inner == "" then .error (.expression (.malformed .empty s 0))
  else parseInner inner.toList

end ApiSuite.Expression
