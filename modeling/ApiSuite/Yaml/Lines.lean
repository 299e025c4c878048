import ApiSuite.Schema.Basic
import ApiSuite.Text.Blank
import ApiSuite.Yaml.Settled
import ApiSuite.Yaml.Shown

/-!
# Where the entries of a document stand

The **range** of a key of the outermost mapping runs from the key's line to the line before
the next key, or to the end of the document, without the blank lines and comments at its end.
Only keys in the first column have a range. Lines are counted from zero, and both ends belong
to the range.
-/

namespace ApiSuite.Yaml

/-- A range of lines. -/
structure LineRange where
  first : Nat
  last : Nat
deriving DecidableEq, Repr

/-- The lines of a text, which end at line feeds; a carriage return before one is no part of
the line. -/
def splitLines : List Char → List (List Char)
  | [] => [[]]
  | '\r' :: '\n' :: cs => [] :: splitLines cs
  | '\n' :: cs => [] :: splitLines cs
  | c :: cs =>
    match splitLines cs with
    | [] => [[c]]
    | line :: lines => (c :: line) :: lines

/-- Whether a line holds nothing or a comment. -/
def isIdle (line : List Char) : Bool :=
  match Text.trim line with
  | [] => true
  | c :: _ => c == '#'

/-- The last line that is not idle of those after `first` up to the one `more` further on, or
`first` itself. Lines beyond the last are idle. -/
def lastBusy (lines : List (List Char)) (first : Nat) : Nat → Nat
  | 0 => first
  | more + 1 =>
    if isIdle ((lines[first + more + 1]?).getD []) then lastBusy lines first more
    else first + more + 1

/-- The range of a key, given its line and the line of the next key if there is one. -/
def rangeOf (lines : List (List Char)) (first : Nat) (next : Option Nat) : LineRange :=
  let limit := match next with
    | some n => n - 1
    | none => lines.length - 1
  ⟨first, lastBusy lines first (limit - first)⟩

/-- The ranges of keys, given their lines. Of two keys of one name the later counts. -/
def rangesFrom (lines : List (List Char)) (found : List (String × LineRange)) :
    List (String × Nat) → List (String × LineRange)
  | [] => found
  | (key, first) :: rest =>
    let range := rangeOf lines first (rest.head?.map (·.2))
    rangesFrom lines (Schema.insertField key range found) rest

/-- The ranges of keys in a text. -/
def lineRanges (contents : String) (keys : List (String × Nat)) : List (String × LineRange) :=
  rangesFrom (splitLines contents.toList) [] keys

/-- A key in the first column, with its line. A key is known by the text of its content. -/
def keyLine? (key : Node) : Option (String × Nat) :=
  if key.mark.column == 0 then some (key.content, key.mark.line) else none

/-- The keys of a document that have a range, with their lines. -/
def keyLines (root : Option Node) : List (String × Nat) :=
  (settledRoot root).filterMap fun (key, _) => keyLine? key

end ApiSuite.Yaml
