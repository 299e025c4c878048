import ApiSuite.Document
import ApiSuite.Flow.Order

/-!
# Flow documents

A flow is written as a YAML document. Read from one, a flow has its names on one line each and
is in order of execution.
-/

namespace ApiSuite

/-- Entries with some fields over them. -/
def overFields (fields : List (String × Value)) (es : List (Value × Value)) :
    List (Value × Value) :=
  fields.foldl (fun es (k, v) => Value.insert (.str k) v es) es

/-- The entries of a document that is an object and not empty. -/
def Value.content? : Value → Option (List (Value × Value))
  | .object [] => none
  | .object es => some es
  | _ => none

/-- The flow that a value describes, with the given fields over what it says; the flow came
from the file at `path`. -/
def Flow.ofValue (path : String) (fields : List (String × Value)) (v : Value) :
    Except Fault Flow :=
  match v.content? with
  | none => .error (.document (.bad .flow path none))
  | some es =>
    match Flow.read (.object (overFields fields es)) with
    | .valid f => .ok f.cleanNames.normalize
    | .invalid _ => .error (.document (.bad .flow path (some .validation)))
    | .crashed c => .error (.crash c)

/-- The flow of a document, with the given fields over what it says. -/
def Flow.ofDocument (path contents : String) (fields : List (String × Value)) :
    Except Fault Flow := do
  Flow.ofValue path fields (← Document.loadYaml (some path) contents)

end ApiSuite
