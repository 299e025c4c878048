import ApiSuite.Value.Text

/-!
# Writing values as JSON

Values are written in one of two styles. The **compact** style puts a value on one line and
refuses what JSON has no form for. The **indented** style gives every entry a line of its own,
two spaces deeper than its collection, and writes a value that JSON has no form for as its
display text. Both escape every character outside the visible ASCII range, so the result is
plain ASCII; the texts for the infinite numbers and for what is no number extend JSON.
-/

namespace ApiSuite.Json

/-- The two ways to write a value. -/
inductive Style where
  | compact
  | indented
deriving DecidableEq, Repr

/-- A code unit as an escape. -/
def unitEscape (n : Nat) : List Char := '\\' :: 'u' :: Text.hexDigits 4 n

/-- One character of a JSON text. Characters past the first plane take two escapes. -/
def escaped (c : Char) : List Char :=
  let n := c.toNat
  if c == '"' then ['\\', '"']
  else if c == '\\' then ['\\', '\\']
  else if c == '\n' then ['\\', 'n']
  else if c == '\r' then ['\\', 'r']
  else if c == '\t' then ['\\', 't']
  else if n == 8 then ['\\', 'b']
  else if n == 12 then ['\\', 'f']
  else if 0x20 ≤ n && n ≤ 0x7e then [c]
  else if n ≤ 0xffff then unitEscape n
  else unitEscape (0xd800 + (n - 0x10000) / 0x400) ++ unitEscape (0xdc00 + (n - 0x10000) % 0x400)

/-- A text in its quotes. -/
def quote (s : String) : List Char :=
  '"' :: s.toList.flatMap escaped ++ ['"']

/-- Floats are written as when displayed, but for the names of the infinite ones. -/
def floatLayout : Decimal.Layout :=
  { Decimal.plain with infinity := "Infinity", notANumber := "NaN" }

/-- An integer in decimal. -/
def integer (n : Int) : Except Value.TextError (List Char) :=
  if Value.isHuge n then .error .hugeNumeral else .ok (toString n).toList

/-- The name of the kind of a key as the given style reports it. -/
def keyKind (style : Style) : Value → String
  | .date _ => if style = .compact then "datetime.date" else "date"
  | .datetime _ => if style = .compact then "datetime.datetime" else "datetime"
  | v => v.kind

/-- A key as the text that stands for it. -/
def keyText (style : Style) : Value → Except Value.TextError (List Char)
  | .str s => .ok (quote s)
  | .null => .ok (quote "null")
  | .bool b => .ok (quote (if b then "true" else "false"))
  | .int n => (integer n).map fun ds => '"' :: ds ++ ['"']
  | .float x => .ok (quote (floatLayout.render x))
  | v => .error (.keyForm (keyKind style v))

/-- A value that JSON has no form for. -/
def formless (style : Style) (v : Value) : Except Value.TextError (List Char) :=
  match style with
  | .compact => .error (.noForm v.kind)
  | .indented => v.display.map quote

/-- A line break and the indentation at a depth. -/
def newline (depth : Nat) : List Char := '\n' :: List.replicate (2 * depth) ' '

/-- The written entries of a collection between its brackets. -/
def enclose (style : Style) (depth : Nat) (opening closing : Char) (parts : List (List Char)) :
    List Char :=
  if parts.isEmpty then [opening, closing]
  else
    match style with
    | .compact => opening :: [',', ' '].intercalate parts ++ [closing]
    | .indented =>
      opening :: newline (depth + 1) ++ (',' :: newline (depth + 1)).intercalate parts ++
        newline depth ++ [closing]

mutual

/-- A value in the given style, its collections indented from the given depth. -/
def write (style : Style) (depth : Nat) : Value → Except Value.TextError (List Char)
  | .null => .ok "null".toList
  | .bool b => .ok (if b then "true" else "false").toList
  | .int n => integer n
  | .float x => .ok (floatLayout.render x).toList
  | .str s => .ok (quote s)
  | .list items => (writeItems style (depth + 1) items).map (enclose style depth '[' ']')
  | .tuple items => (writeItems style (depth + 1) items).map (enclose style depth '[' ']')
  | .object entries => (writeEntries style (depth + 1) entries).map (enclose style depth '{' '}')
  | v => formless style v

/-- The items of a list, each written on its own. -/
def writeItems (style : Style) (depth : Nat) :
    List Value → Except Value.TextError (List (List Char))
  | [] => .ok []
  | v :: vs => do
    let part ← write style depth v
    let parts ← writeItems style depth vs
    pure (part :: parts)

/-- The entries of an object, each written on its own. -/
def writeEntries (style : Style) (depth : Nat) :
    List (Value × Value) → Except Value.TextError (List (List Char))
  | [] => .ok []
  | (k, v) :: es => do
    let key ← keyText style k
    let part ← write style depth v
    let parts ← writeEntries style depth es
    pure ((key ++ [':', ' '] ++ part) :: parts)

end

/-- A value as JSON text. -/
def print (style : Style) (v : Value) : Except Value.TextError String :=
  (write style 0 v).map String.ofList

end ApiSuite.Json
