import ApiSuite.Template.Basic
import ApiSuite.Text.Blank
import ApiSuite.Value.Basic

/-!
# Environment variables in values

A text that begins with a variable name in the wrapper of an expression stands for that
variable. A fallback may be given inside the wrapper or after it, behind two bars; it is used
when the variable is not set. With neither, the text is absent: its entry is left out of an
object, and its item in a list becomes null.
-/

namespace ApiSuite

/-- Environment variables. -/
abbrev Environment := List (String × String)

namespace Environment

open Text

/-- A text split at its first two bars: what stands before them, and what stands after if
there are any. -/
def splitBars : List Char → List Char × Option (List Char)
  | '|' :: '|' :: cs => ([], some cs)
  | c :: cs => ((c :: (splitBars cs).1), (splitBars cs).2)
  | [] => ([], none)

/-- A fallback that stands after a wrapper. -/
def trailing? (rest : List Char) : Option (List Char) :=
  match trim rest with
  | '|' :: '|' :: cs => some (trim cs)
  | _ => none

/-- What a text stands for; none if it is absent. -/
def substituteText (env : Environment) (s : String) : Option String :=
  match s.toList with
  | '$' :: '{' :: cs =>
    match Template.body? cs with
    | none => some s
    | some (body, rest) =>
      let (name, fallback) := splitBars body
      match env.lookup (String.ofList (trim name)) with
      | some value => some value
      | none =>
        match fallback with
        | some f => some (String.ofList (trim f))
        | none => (trailing? rest).map String.ofList
  | _ => some s

mutual

/-- A value with its texts replaced by what they stand for; none if it is an absent text. -/
def substitute? (env : Environment) : Value → Option Value
  | .str s => (substituteText env s).map .str
  | .list items => some (.list (substituteItems env items))
  | .object entries => some (.object (substituteEntries env entries))
  | v => some v

/-- Items with their texts replaced; absent ones become null. -/
def substituteItems (env : Environment) : List Value → List Value
  | [] => []
  | v :: vs => (substitute? env v).getD .null :: substituteItems env vs

/-- Entries with their texts replaced; absent ones are left out. -/
def substituteEntries (env : Environment) : List (Value × Value) → List (Value × Value)
  | [] => []
  | (k, v) :: es =>
    match substitute? env v with
    | some w => (k, w) :: substituteEntries env es
    | none => substituteEntries env es

end

end Environment

end ApiSuite
