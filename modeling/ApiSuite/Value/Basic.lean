import ApiSuite.Calendar

/-!
# Values

The data that values files hold, that expressions are evaluated on and that flows carry: the
scalars of structured documents, and the collections built from them. An **object** lists its
entries in the order they were first written, and its keys are values: a document may key an
entry by a number or a date, though expressions only ever look up text keys.
-/

namespace ApiSuite

/-- A value. -/
inductive Value where
  | null
  | bool (b : Bool)
  | int (n : Int)
  | float (x : Float)
  | str (s : String)
  | bytes (octets : List UInt8)
  | date (d : Date)
  | datetime (t : DateTime)
  | list (items : List Value)
  | tuple (items : List Value)
  | set (items : List Value)
  | object (entries : List (Value × Value))
deriving Inhabited

namespace Value

/-- The name of the kind of a value, as diagnostics show it. -/
def kind : Value → String
  | .null => "NoneType"
  | .bool _ => "bool"
  | .int _ => "int"
  | .float _ => "float"
  | .str _ => "str"
  | .bytes _ => "bytes"
  | .date _ => "date"
  | .datetime _ => "datetime"
  | .list _ => "list"
  | .tuple _ => "tuple"
  | .set _ => "set"
  | .object _ => "dict"

/-- Whether a value is the null value. -/
def isNull : Value → Bool
  | .null => true
  | _ => false

/-- Whether a value is an object. -/
def isObject : Value → Bool
  | .object _ => true
  | _ => false

/-- A text key. -/
def isText (key : String) : Value → Bool
  | .str s => s == key
  | _ => false

/-- The value that a list of entries holds under a text key. -/
def lookup (key : String) (entries : List (Value × Value)) : Option Value :=
  match entries with
  | [] => none
  | (k, v) :: rest => if k.isText key then some v else lookup key rest

/-- The entry of an object under a text key; `none` for any other value. -/
def get? (key : String) : Value → Option Value
  | .object entries => lookup key entries
  | _ => none

/-- An object all of whose keys are texts. -/
def ofFields (fields : List (String × Value)) : Value :=
  .object (fields.map fun (k, v) => (.str k, v))

/-- A text, or null when there is none. -/
def ofText? : Option String → Value
  | some s => .str s
  | none => .null

/-- A natural number. -/
def ofNat (n : Nat) : Value := .int n

end Value

end ApiSuite
