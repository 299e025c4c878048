import ApiSuite.Flow.Rows
import ApiSuite.Request
import ApiSuite.Template.Basic

/-!
# The expressions a request or a flow uses

The expressions embedded in the texts of a request, or named by the tables and attributes of
a flow, each listed once, in the order they first occur. References need the results of a run
and are listed on demand only.
-/

namespace ApiSuite.Template

/-- The expressions to be listed among those found, without repetitions of what has been
`seen`. -/
def distinctFrom (withReferences : Bool) (seen : List String) : List String → List String
  | [] => []
  | e :: es =>
    if (isReference e && !withReferences) || seen.contains e then
      distinctFrom withReferences seen es
    else e :: distinctFrom withReferences (e :: seen) es

/-- The expressions to be listed among those found. -/
def distinct (withReferences : Bool) (found : List String) : List String :=
  distinctFrom withReferences [] found

/-- The expressions in the texts of a request. -/
def inRequest (r : Request) : List String :=
  texts r.method ++ texts r.url ++ r.headers.flatMap (fun h => texts h.2) ++
    texts (r.body.getD "")

/-- The expressions that a request uses. -/
def requestExpressions (withReferences : Bool) (r : Request) : List String :=
  distinct withReferences (inRequest r)

/-- The expressions in attributes. -/
def inAttributes (attributes : Option Attributes) : List String :=
  (attributes.getD []).flatMap fun a => texts a.2

/-- The names in the rows of a table, as expressions. -/
def namesInRows (rows : List (List String)) : List String :=
  rows.filterMap fun row =>
    match row with
    | name :: _ => if name == "" then none else some (toExpression name)
    | [] => none

/-- The expressions in the attributes of a flow's steps and subflows. -/
def inElements (f : Flow) : List String :=
  f.steps.flatMap (fun s => inAttributes s.attributes) ++
    f.subflowList.flatMap fun s =>
      inAttributes s.attributes ++ s.stepList.flatMap fun t => inAttributes t.attributes

/-- The expressions that a flow uses: the names in its table of values, and what its elements
have in their attributes. -/
def flowExpressions (withReferences : Bool) (f : Flow) : Except Fault (List String) := do
  let rows ← attributeRows f.attributes .values
  pure (distinct withReferences (namesInRows rows ++ inElements f))

/-- What can use expressions. -/
inductive User where
  | request (r : Request)
  | flow (f : Flow)

/-- The expressions that a request or flow uses. An incomplete request uses none. -/
def User.expressions (withReferences : Bool) : User → Except Fault (List String)
  | .request r => .ok (if r.isComplete then requestExpressions withReferences r else [])
  | .flow f => flowExpressions withReferences f

end ApiSuite.Template
