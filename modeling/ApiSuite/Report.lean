import ApiSuite.Fault
import ApiSuite.Json.Printer
import ApiSuite.Listing

/-!
# Reports

The texts that answer a command. Data is written as indented JSON, records without the parts
they lack. An error takes a line for its message and an indented one for each detail: the
file and line of a document, the field of a setting.
-/

namespace ApiSuite

/-- An error as text, with its details and a suggestion if there is one. -/
def errorText (message : String) (details : List String) (suggestion : Option String) : String :=
  let hint := match suggestion with
    | none | some "" => []
    | some s => ["Suggestion: " ++ s]
  "\n".intercalate (("Error: " ++ message) :: details.map ("  " ++ ·) ++ hint)

/-- A detail, unless there is nothing to say. -/
def detail (label : String) : Option String → List String
  | none | some "" => []
  | some s => [label ++ ": " ++ s]

/-- What is known about a fault beside its message. -/
def Fault.details : Fault → List String
  | .document e => detail "File" e.path ++ detail "Line" (e.line.map toString)
  | .config e => detail "Field" e.field
  | _ => []

/-- A known fault as text. -/
def Fault.report (e : Fault) : String := errorText e.message e.details none

/-- A value as indented JSON. -/
def Value.report (v : Value) : Except Fault String :=
  (Json.print .indented v).mapError fun e => .crash (.noText e)

end ApiSuite
