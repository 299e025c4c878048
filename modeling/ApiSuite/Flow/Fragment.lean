import ApiSuite.Flow.Order
import ApiSuite.Flow.Rows

/-!
# Fragments and subflow calls

A step is addressed by a **fragment**: its identifier, or the identifiers of a subflow and of
a step in it with a dot between. Steps whose path ends in `subflow` call another flow, whose
row tables say which values it takes and returns.
-/

namespace ApiSuite

/-- A fragment split at its first dot, if the dot is neither its first nor its last
character. -/
def splitFragment? (fragment : String) : Option (String × String) :=
  let cs := fragment.toList
  let head := cs.takeWhile (· != '.')
  match cs.dropWhile (· != '.') with
  | '.' :: tail =>
    if head.isEmpty || tail.isEmpty then none else some (String.ofList head, String.ofList tail)
  | _ => none

/-- The first subflow with an identifier. -/
def Flow.findSubflow (f : Flow) (id : String) : Option Subflow :=
  f.subflowList.find? fun s => s.id == id

/-- The step that a fragment addresses. In a flow without subflows a fragment is an
identifier, dots and all. -/
def Flow.stepAt (f : Flow) (fragment : String) : Option Step :=
  match splitFragment? fragment, f.subflowList with
  | some (subflow, step), _ :: _ =>
    match f.findSubflow subflow with
    | some s => findStep step s.stepList
    | none => none
  | _, _ => findStep fragment f.steps

/-- Whether a step calls a subflow. -/
def Step.callsSubflow (s : Step) : Bool := "subflow".toList.isSuffixOf s.path.toList

/-- The steps that call a subflow, main steps first. -/
def Flow.subflowSteps (f : Flow) : List Step :=
  f.steps.filter Step.callsSubflow ++
    f.subflowList.flatMap fun s => s.stepList.filter Step.callsSubflow

/-- A value that a subflow takes. -/
structure FlowValue where
  name : String
  value : Option String
  required : Option Bool
  requiredIf : Option String
deriving DecidableEq, Repr

/-- A value that a subflow returns. -/
structure FlowReturn where
  name : String
  expression : Option String
deriving DecidableEq, Repr

/-- What a subflow takes and returns when a step calls it. -/
structure SubflowSpec where
  stepId : String
  subflow : Option String
  values : Option (List FlowValue)
  returns : Option (List FlowReturn)
deriving DecidableEq, Repr

/-- A cell, if it is there and not empty. -/
def cell? (row : List String) (i : Nat) : Option String :=
  match row[i]? with
  | some "" => none
  | cell => cell

/-- The value that a row of a `values` table describes. -/
def FlowValue.ofRow (row : List String) : Option FlowValue :=
  match row with
  | [] => none
  | name :: _ => some
      { name, value := cell? row 1, required := (cell? row 2).map (· == "true"),
        requiredIf := cell? row 3 }

/-- The value that a row of a `return` table describes. -/
def FlowReturn.ofRow (row : List String) : Option FlowReturn :=
  match row with
  | [] => none
  | name :: _ => some { name, expression := cell? row 1 }

/-- A list, if it is not empty. -/
def nonempty? {α : Type} (xs : List α) : Option (List α) := if xs.isEmpty then none else some xs

/-- What a flow takes and returns when a step calls it, by name. -/
def subflowSpec (step : Step) (f : Flow) : Except Fault SubflowSpec := do
  let values ← attributeRows f.attributes .values
  let returns ← attributeRows f.attributes .returns
  pure
    { stepId := step.id
      subflow := attribute? step.attributes .subflow
      values := nonempty? <| (values.filterMap FlowValue.ofRow).mergeSort
        fun a b => decide (a.name ≤ b.name)
      returns := nonempty? <| (returns.filterMap FlowReturn.ofRow).mergeSort
        fun a b => decide (a.name ≤ b.name) }

/-! ### Reading and writing -/

open Schema in
/-- A value that a subflow takes. -/
def FlowValue.read : Check FlowValue :=
  record "FlowValue" fun es =>
    FlowValue.mk <$> Schema.required "name" text es <*> optional "value" text es <*>
      optional "required" flag es <*> optional "required_if" text es

open Schema in
/-- A value that a subflow returns. -/
def FlowReturn.read : Check FlowReturn :=
  record "FlowReturn" fun es =>
    FlowReturn.mk <$> required "name" text es <*> optional "expression" text es

open Schema in
/-- What a subflow takes and returns. -/
def SubflowSpec.read : Check SubflowSpec :=
  record "SubflowSpec" fun es =>
    SubflowSpec.mk <$> required "step_id" text es <*> optional "subflow" text es <*>
      optional "values" (list FlowValue.read) es <*> optional "returns" (list FlowReturn.read) es

open Schema in
/-- A value that a subflow takes, as a value. -/
def FlowValue.toValue (sparse : Bool) (v : FlowValue) : Value :=
  ofRecord sparse
    [("name", .str v.name), ("value", Value.ofText? v.value),
      ("required", ofOption Value.bool v.required),
      ("required_if", Value.ofText? v.requiredIf)]

open Schema in
/-- A value that a subflow returns, as a value. -/
def FlowReturn.toValue (sparse : Bool) (r : FlowReturn) : Value :=
  ofRecord sparse [("name", .str r.name), ("expression", Value.ofText? r.expression)]

open Schema in
/-- What a subflow takes and returns, as a value. -/
def SubflowSpec.toValue (sparse : Bool) (s : SubflowSpec) : Value :=
  ofRecord sparse
    [("step_id", .str s.stepId), ("subflow", Value.ofText? s.subflow),
      ("values", ofOption (fun vs => .list (vs.map (FlowValue.toValue sparse))) s.values),
      ("returns", ofOption (fun rs => .list (rs.map (FlowReturn.toValue sparse))) s.returns)]

end ApiSuite
