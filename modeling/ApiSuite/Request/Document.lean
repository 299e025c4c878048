import ApiSuite.Flow.Document
import ApiSuite.Request
import ApiSuite.Value.Text

/-!
# Request documents

A request suite is written as a YAML document that has a request under every name.
-/

namespace ApiSuite

/-- The text of a key, if it has one. -/
def keyText (k : Value) : Except Fault String := k.display.mapError fun e => .crash (.noText e)

/-- The request that a value describes under a name. -/
def Request.ofEntry (path : String) (key v : Value) : Except Fault Request :=
  match v with
  | .object es => do
    let name ← keyText key
    match Request.read (.object (overFields [("name", .str name)] es)) with
    | .valid r => pure r
    | .invalid _ => throw (.document (.bad .request path (some .validation)))
    | .crashed c => throw (.crash c)
  | _ => .error (.document (.bad .request path none))

/-- The requests that a value describes. -/
def Request.ofValue (path : String) (v : Value) : Except Fault (List Request) :=
  match v.content? with
  | none => .error (.document (.bad .request path none))
  | some es => es.mapM fun (k, v) => Request.ofEntry path k v

/-- The requests of a document. -/
def Request.ofDocument (path contents : String) : Except Fault (List Request) := do
  Request.ofValue path (← Document.loadYaml (some path) contents)

end ApiSuite
