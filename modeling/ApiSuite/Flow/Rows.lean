import ApiSuite.Flow.Basic

/-!
# Row tables in attributes

Two attributes hold tables: `values`, with rows of a name, a value, a mark for a required
value and a condition for that mark, and `return`, with rows of a name and an expression. A
table is a JSON list of lists, of which every cell is read as text.
-/

namespace ApiSuite

/-- A cell as text, empty for null. -/
def cellText (v : Value) : Except Fault String :=
  if v.isNull then .ok "" else v.display.mapError fun e => .crash (.noText e)

/-- The cells of a row as texts. -/
def rowCells : Value → Except Fault (List String)
  | .list cells => cells.mapM cellText
  | _ => .ok []

/-- Whether a value is a list. -/
def Value.isList : Value → Bool
  | .list _ => true
  | _ => false

/-- A table attribute that is none. -/
def badTable (message : String) (cause : Option Cause) : Fault :=
  .document { kind := .any, message, path := none, line := none, cause }

/-- The rows of the table under a key, none if the attribute is missing or empty. -/
def attributeRows (attributes : Option Attributes) (key : AttributeKey) :
    Except Fault (List (List String)) :=
  match attribute? attributes key with
  | none => .ok []
  | some raw =>
    if raw == "" then .ok []
    else
      match Json.read raw with
      | .error (.malformed _) =>
        .error (badTable ("Attribute '" ++ key.name ++ "' is not valid JSON") (some .json))
      | .error (.hugeNumeral n) => .error (.crash (.hugeNumeral n))
      | .ok (.list rows) =>
        if rows.all Value.isList then rows.mapM rowCells
        else .error (badTable ("Attribute '" ++ key.name ++ "' must be a list of rows") none)
      | .ok _ => .error (badTable ("Attribute '" ++ key.name ++ "' must be a list of rows") none)

end ApiSuite
