import ApiSuite.Flow.Rows
import ApiSuite.Template.Resolution
import ApiSuite.Values.Holder

/-!
# The values of a flow

A flow brings values along in its table `values`. A value that is an expression is resolved in
a context, and left out if it does not resolve, so that other sources of values count. A row
may mark its value as required, or give a condition for that, which counts instead.
-/

namespace ApiSuite

/-- The value that a row gives to its name, if it gives one. -/
def rowValue (trusted : Bool) (context : Value) (row : List String) : Traced (Option Value) :=
  match row[1]? with
  | none => pure none
  | some text =>
    if text == "" then pure none
    else if Template.isWrapped text then Template.resolve trusted context text
    else pure (some (.str text))

/-- Whether the outcome of a condition counts as true. -/
def isAffirmed : Option Value → Bool
  | some (.bool b) => b
  | some (.str s) => s == "true"
  | _ => false

/-- Whether a row is marked as required. -/
def rowRequired (trusted : Bool) (context : Value) (row : List String) : Traced Bool :=
  match row[2]?, row[3]? with
  | none, _ => pure false
  | some mark, condition =>
    match condition with
    | none | some "" => pure (mark == "true")
    | some text => do
      let expression := if Template.isWrapped text then text else Template.toExpression text
      let outcome ← Template.resolve trusted context expression
      pure (isAffirmed outcome)

/-- The values and the required names of some rows, after those of others. -/
def tableValues (trusted : Bool) (context : Value) (found : List (String × Value))
    (required : List String) :
    List (List String) → Traced (List (String × Value) × List String)
  | [] => pure (found, required)
  | row :: rows =>
    match row with
    | [] | "" :: _ => tableValues trusted context found required rows
    | name :: _ => do
      let value ← rowValue trusted context row
      let found := match value with
        | some v => Schema.insertField name v found
        | none => found
      let mark ← rowRequired trusted context row
      tableValues trusted context found (if mark then required ++ [name] else required) rows

/-- The holder of the values that a flow brings along. -/
def Flow.holder (trusted : Bool) (context : Value) (f : Flow) : Traced ValuesHolder := do
  let rows ← Traced.ofExcept (attributeRows f.attributes .values)
  let (values, required) ← tableValues trusted context [] [] rows
  pure
    { values := .object values, location := some ⟨f.path, none⟩
      required := if required.isEmpty then none else some required }

end ApiSuite
