import ApiSuite.Expression.Evaluation
import ApiSuite.Json.Printer
import ApiSuite.Template.Basic
import ApiSuite.Traced

/-!
# Resolving templates

A template is resolved in a context in two ways. `ApiSuite.Template.resolve` gives all or
nothing: a text that is one embedded expression has the value of that expression, any other
template is filled in only if each of its expressions has a value, and a text without
expressions stands for itself. `ApiSuite.Template.substitute` fills in what has a value and
leaves the rest as it is.

What is wrong with an expression concerns that expression alone: it counts as having no
value, and a log entry says why.
-/

namespace ApiSuite.Template

/-- The text that a value is filled in as: truth values in lower case, collections as
compact JSON, and anything else as it displays. -/
def toText (v : Value) : Except Value.TextError String :=
  match v with
  | .bool b => .ok (if b then "true" else "false")
  | .object _ | .list _ | .tuple _ => Json.print .compact v
  | v => v.display

/-- `toText`, as a step that can end an operation. -/
def textOf (v : Value) : Except Fault String :=
  (toText v).mapError fun e => .crash (.noText e)

/-- The value if it is one, not null. -/
def present (v : Value) : Option Value := if v.isNull then none else some v

/-- The entry for an expression that has no value because something is wrong with it. -/
def unresolvedEntry (text reason : String) : Log.Entry :=
  .mk .debug "expression_unresolved" [("expression", .str text), ("reason", .str reason)]

/-- The value of an embedded expression, if it has one. -/
def evaluatePart (trusted : Bool) (context : Value) (text : String) : Traced (Option Value) :=
  if isPattern text then pure none
  else
    match Expression.evaluate trusted context text with
    | .ok v => pure (present v)
    | .error (.expression e) => do
      Traced.tell (unresolvedEntry text e.message)
      pure none
    | .error e => Traced.fail e

/-- Pieces with every expression filled in, if all of them have values. -/
def fill (trusted : Bool) (context : Value) : List Piece → Traced (Option (List Char))
  | [] => pure (some [])
  | .char c :: rest => do
    let filled ← fill trusted context rest
    pure (filled.map (c :: ·))
  | .embedded body :: rest => do
    match ← evaluatePart trusted context (String.ofList (wrap body)) with
    | none => pure none
    | some v =>
      let text ← textOf v
      let filled ← fill trusted context rest
      pure (filled.map (text.toList ++ ·))

/-- The value of a template, if all of its expressions have values. -/
def resolve (trusted : Bool) (context : Value) (s : String) : Traced (Option Value) :=
  match split s.toList with
  | [.embedded _] => evaluatePart trusted context s
  | pieces => do
    let filled ← fill trusted context pieces
    pure (filled.map fun cs => .str (String.ofList cs))

/-- Pieces with every expression filled in that has a value. -/
def fillPresent (trusted : Bool) (context : Value) : List Piece → Traced (List Char)
  | [] => pure []
  | .char c :: rest => do
    let filled ← fillPresent trusted context rest
    pure (c :: filled)
  | .embedded body :: rest => do
    let value ← evaluatePart trusted context (String.ofList (wrap body))
    let text ←
      match value with
      | none => pure (wrap body)
      | some v => do
        let text ← textOf v
        pure text.toList
    let filled ← fillPresent trusted context rest
    pure (text ++ filled)

/-- A text in which every expression that has a value is filled in. -/
def substitute (trusted : Bool) (context : Value) (s : String) : Traced String := do
  let filled ← fillPresent trusted context (split s.toList)
  pure (String.ofList filled)

end ApiSuite.Template
