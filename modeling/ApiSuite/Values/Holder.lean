import ApiSuite.Fault
import ApiSuite.Json.Reader
import ApiSuite.Schema.Basic
import ApiSuite.Values.Environment

/-!
# Holders of values

Values come from ranked sources: values files, the table of a flow, the results of earlier
runs. A **holder** is one of them: an object, or the JSON text of one, with the place it came
from and the names it declares to be required. In a list of holders later ones take
precedence.
-/

namespace ApiSuite

/-- Where values came from. -/
structure ValuesLocation where
  path : String
  line : Option Int
deriving DecidableEq, Repr

/-- A value with the place it was found in. -/
structure LocatedValue where
  value : Value
  location : Option ValuesLocation

/-- The values of a holder. -/
inductive HeldValues where
  | object (fields : List (String × Value))
  | json (text : String)

/-- One ranked source of values. -/
structure ValuesHolder where
  values : HeldValues
  location : Option ValuesLocation
  required : Option (List String)

/-- How values are evaluated: whether documents are trusted, the name that references address
their holder by, and the environment. -/
structure ValuesOptions where
  trusted : Bool
  refHolder : Option String
  env : Environment
deriving DecidableEq, Repr

/-- The options without any said: untrusted, no references, an empty environment. -/
def ValuesOptions.default : ValuesOptions := ⟨false, none, []⟩

/-- The name that references address their holder by, unless it is empty. -/
def ValuesOptions.holderName? (o : ValuesOptions) : Option String :=
  match o.refHolder with
  | some "" => none
  | name => name

/-- The path a holder came from. -/
def ValuesHolder.path? (h : ValuesHolder) : Option String := h.location.map (·.path)

/-- A document of values that cannot be read. -/
def badValues (message : String) (path : Option String) (line : Option Int)
    (cause : Option Cause) : Fault :=
  .document { kind := .values, message, path, line, cause }

/-- The entries of a holder. -/
def ValuesHolder.entries (h : ValuesHolder) : Except Fault (List (Value × Value)) :=
  match h.values with
  | .object fields => .ok (fields.map fun (k, v) => (.str k, v))
  | .json text =>
    match Json.read text with
    | .ok (.object entries) => .ok entries
    | .ok v => .error (badValues ("Values must be an object, got " ++ v.kind) h.path? none none)
    | .error (.malformed e) =>
      .error (badValues ("Invalid values JSON: " ++ e.reason.message) h.path? (some e.line)
        (some .json))
    | .error (.hugeNumeral n) => .error (.crash (.hugeNumeral n))

/-! ### Reading -/

open Schema in
/-- Where values came from. -/
def ValuesLocation.read : Check ValuesLocation :=
  record "ValuesLocation" fun es =>
    ValuesLocation.mk <$> required "path" text es <*> optional "line" wholeNumber es

open Schema in
/-- A value with its place. -/
def LocatedValue.read : Check LocatedValue :=
  record "LocatedValue" fun es =>
    LocatedValue.mk <$> required "value" any es <*> optional "location" ValuesLocation.read es

open Schema in
/-- The values of a holder: an object or a text. The issues of both are reported, each under
the name of its alternative. -/
def HeldValues.read : Check HeldValues := fun v =>
  match Schema.object any v with
  | .valid fields => .valid (.object fields)
  | .crashed c => .crashed c
  | .invalid issues =>
    match text v with
    | .valid s => .valid (.json s)
    | .crashed c => .crashed c
    | .invalid more =>
      let first : Checked HeldValues := (Checked.invalid issues).under (.field "dict[str,any]")
      let second : Checked HeldValues := (Checked.invalid more).under (.field "str")
      (fun _ b => b) <$> first <*> second

open Schema in
/-- A holder. -/
def ValuesHolder.read : Check ValuesHolder :=
  record "ValuesHolder" fun es =>
    ValuesHolder.mk <$> Schema.required "values" HeldValues.read es <*>
      optional "location" ValuesLocation.read es <*> optional "required" (list text) es

open Schema in
/-- Options. -/
def ValuesOptions.read : Check ValuesOptions :=
  record "ValuesOptions" fun es =>
    ValuesOptions.mk <$> defaulted "trusted" false flag es <*> optional "ref_holder" text es <*>
      defaulted "env" [] (object text) es

/-! ### Writing -/

open Schema in
/-- Where values came from, as a value. -/
def ValuesLocation.toValue (sparse : Bool) (l : ValuesLocation) : Value :=
  ofRecord sparse [("path", .str l.path), ("line", ofOption Value.int l.line)]

open Schema in
/-- A value with its place, as a value. -/
def LocatedValue.toValue (sparse : Bool) (v : LocatedValue) : Value :=
  ofRecord sparse
    [("value", v.value), ("location", ofOption (ValuesLocation.toValue sparse) v.location)]

/-- The values of a holder as a value. -/
def HeldValues.toValue : HeldValues → Value
  | .object fields => .ofFields fields
  | .json text => .str text

open Schema in
/-- A holder as a value. -/
def ValuesHolder.toValue (sparse : Bool) (h : ValuesHolder) : Value :=
  ofRecord sparse
    [("values", h.values.toValue),
      ("location", ofOption (ValuesLocation.toValue sparse) h.location),
      ("required", ofOption ofTexts h.required)]

open Schema in
/-- Options as a value. -/
def ValuesOptions.toValue (sparse : Bool) (o : ValuesOptions) : Value :=
  ofRecord sparse
    [("trusted", .bool o.trusted), ("ref_holder", Value.ofText? o.refHolder),
      ("env", ofTextFields o.env)]

end ApiSuite
