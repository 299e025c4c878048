import ApiSuite.Value.Basic

/-!
# Log entries

What the program has to say beside its answers: events of a level, each with named fields.
Entries are data, gathered in the order they arise; where they go is decided at the edge.
-/

namespace ApiSuite.Log

/-- How much an event matters. -/
inductive Level where
  | debug
  | info
  | warning
  | error
  | critical
deriving DecidableEq, Repr

/-- The rank of a level; entries below the configured rank are dropped. -/
def Level.rank : Level → Nat
  | .debug => 10
  | .info => 20
  | .warning => 30
  | .error => 40
  | .critical => 50

/-- The name of a level. -/
def Level.name : Level → String
  | .debug => "debug"
  | .info => "info"
  | .warning => "warning"
  | .error => "error"
  | .critical => "critical"

/-- An event with its fields. -/
structure Entry where
  level : Level
  event : String
  fields : List (String × Value)

/-- The entry of an event. -/
def entry (level : Level) (event : String) (fields : List (String × Value)) : Entry :=
  ⟨level, event, fields⟩

end ApiSuite.Log
