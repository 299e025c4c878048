import ApiSuite.Yaml.Token

/-!
# Layout

The tokens of a document depend on its layout. Outside of brackets a collection begins where
its first item or key is indented deeper than what surrounds it, and ends where a line is
indented less. And a key need not be marked: what looks like a scalar turns out to be a key
when a colon follows it, on the same line and not too far away. Until that is decided the
tokens from the scalar on **wait**, because a key token may still have to be put before them.

`ApiSuite.Yaml.tokens` gives the tokens in order, as far as they can be told, and the failure
that ends them, if one does. A token counts only once it no longer waits.
-/

namespace ApiSuite.Yaml

/-- A token that may turn out to be the beginning of a key: its number among all tokens and
its place. A **required** one is where only a key can stand. -/
structure PossibleKey where
  depth : Nat
  number : Nat
  required : Bool
  mark : Mark
deriving Repr

/-- The layout of a document up to a place: how deep in brackets it is, the column of the
innermost collection outside of brackets and those around it, whether a key may begin here,
what may turn out to be a key, and the tokens that wait, with the number of the first. -/
structure Layout where
  cursor : Cursor
  depth : Nat
  columns : List Nat
  keyAllowed : Bool
  keys : List PossibleKey
  waiting : List Token
  number : Nat
deriving Repr

namespace Layout

/-- The layout at the beginning of a document. -/
def ofString (s : String) : Layout :=
  { cursor := .ofString s, depth := 0, columns := [], keyAllowed := true, keys := [],
    waiting := [], number := 0 }

/-- The column that items of the innermost collection must be indented to, at least, to
belong inside it. -/
def least (l : Layout) : Nat :=
  match l.columns with
  | [] => 0
  | n :: _ => n + 1

/-- Whether the place is in brackets. -/
def inFlow (l : Layout) : Bool := l.depth != 0

/-- The layout with one more token waiting. -/
def push (t : Token) (l : Layout) : Layout := { l with waiting := l.waiting ++ [t] }

/-- The layout with one more token of no width waiting. -/
def pushMark (kind : Token.Kind) (mark : Mark) (l : Layout) : Layout := l.push ⟨kind, mark, mark⟩

/-- The layout after a token that ends at a cursor. -/
def pushTo (kind : Token.Kind) (next : Cursor) (l : Layout) : Layout :=
  { l.push ⟨kind, l.cursor.mark, next.mark⟩ with cursor := next }

/-- How many characters a key without a mark may take. -/
def keyLimit : Nat := 1024

/-- Whether a possible key can no longer be one: its line is over or it is too long. -/
def isStale (m : Mark) (k : PossibleKey) : Bool :=
  k.mark.line != m.line || keyLimit < m.index - k.mark.index

/-- The layout without the possible keys that can no longer be keys. -/
def dropStale (l : Layout) : Except Failure Layout :=
  let m := l.cursor.mark
  if l.keys.any fun k => isStale m k && k.required then .error (.malformed m)
  else .ok { l with keys := l.keys.filter fun k => !isStale m k }

/-- The layout without the possible key at its depth. -/
def dropKey (l : Layout) : Except Failure Layout :=
  if l.keys.any fun k => k.depth == l.depth && k.required then .error (.malformed l.cursor.mark)
  else .ok { l with keys := l.keys.filter fun k => k.depth != l.depth }

/-- The layout in which the next token may turn out to be a key, if one may begin here. -/
def saveKey (l : Layout) : Except Failure Layout :=
  if l.keyAllowed then do
    let saved ← l.dropKey
    pure { saved with keys :=
      { depth := l.depth, number := l.number + l.waiting.length
        required := !l.inFlow && l.columns.head? == some l.cursor.column
        mark := l.cursor.mark } :: saved.keys }
  else pure l

/-- Ends the collections that are indented deeper than the given column. -/
def unwindTo (column : Nat) (l : Layout) : Layout :=
  let ended := l.columns.takeWhile (column < ·)
  { l with
    columns := l.columns.drop ended.length
    waiting := l.waiting ++ ended.map fun _ => ⟨.blockEnd, l.cursor.mark, l.cursor.mark⟩ }

/-- Ends the collections that the place is not indented enough for. -/
def unwind (l : Layout) : Layout := if l.inFlow then l else l.unwindTo l.cursor.column

/-- Ends all collections. -/
def unwindAll (l : Layout) : Layout :=
  if l.inFlow then l
  else
    { l with
      columns := []
      waiting := l.waiting ++ l.columns.map fun _ => ⟨.blockEnd, l.cursor.mark, l.cursor.mark⟩ }

/-- Whether a collection begins at a column. -/
def opensAt (column : Nat) (l : Layout) : Bool := l.columns.head?.all (· < column)

/-- The layout in which a collection begins here, if it is indented deeper than what surrounds
it. -/
def openHere (kind : Token.Kind) (l : Layout) : Layout :=
  if l.opensAt l.cursor.column then
    { l.pushMark kind l.cursor.mark with columns := l.cursor.column :: l.columns }
  else l

/-! ### Between tokens -/

/-- Blanks, comments and line breaks up to the next token; outside of brackets a key may
begin on a new line. -/
def skipBlank (l : Layout) : Layout :=
  let c := l.cursor.skipSpaces.skipComment
  match c.lineBreak? with
  | none => { l with cursor := c }
  | some (_, d) =>
    if _h : d.rest.length < l.cursor.rest.length then
      skipBlank { l with cursor := d, keyAllowed := l.keyAllowed || !l.inFlow }
    else { l with cursor := d }
termination_by l.cursor.rest.length

/-- The layout after a byte order mark at the beginning. -/
def skipOrderMark (l : Layout) : Layout :=
  if l.cursor.mark.index == 0 && l.cursor.at? '\ufeff' then
    { l with cursor := l.cursor.advance }
  else l

/-! ### Marks of structure -/

/-- A directive or a line that separates documents ends all collections. -/
def separate (l : Layout) : Except Failure Layout := do
  let l ← l.unwindAll.dropKey
  pure { l with keyAllowed := false }

/-- A directive. -/
def addDirective (l : Layout) : Except Failure Layout := do
  let l ← l.separate
  let (t, c) ← directive l.cursor
  pure { l.push t with cursor := c }

/-- A line that separates documents. -/
def addSeparator (kind : Token.Kind) (l : Layout) : Except Failure Layout := do
  let l ← l.separate
  pure (l.pushTo kind (l.cursor.advanceBy 3))

/-- An opening bracket, which may be the beginning of a key. -/
def addOpening (kind : Token.Kind) (l : Layout) : Except Failure Layout := do
  let l ← l.saveKey
  let l := { l with depth := l.depth + 1, keyAllowed := true }
  pure (l.pushTo kind l.cursor.advance)

/-- A closing bracket. -/
def addClosing (kind : Token.Kind) (l : Layout) : Except Failure Layout := do
  let l ← l.dropKey
  let l := { l with depth := l.depth - 1, keyAllowed := false }
  pure (l.pushTo kind l.cursor.advance)

/-- A comma. -/
def addComma (l : Layout) : Except Failure Layout := do
  let l ← l.dropKey
  pure ({ l with keyAllowed := true }.pushTo .comma l.cursor.advance)

/-- The layout in which a collection of a kind may have an item here. -/
def openItem (kind : Token.Kind) (l : Layout) : Except Failure Layout :=
  if l.inFlow then .ok l
  else if l.keyAllowed then .ok (l.openHere kind)
  else .error (.malformed l.cursor.mark)

/-- A dash before an item. -/
def addDash (l : Layout) : Except Failure Layout := do
  let l ← l.openItem .sequenceStart
  let l ← { l with keyAllowed := true }.dropKey
  pure (l.pushTo .dash l.cursor.advance)

/-- A question mark before a key. -/
def addKey (l : Layout) : Except Failure Layout := do
  let l ← l.openItem .mappingStart
  let l ← { l with keyAllowed := !l.inFlow }.dropKey
  pure (l.pushTo .key l.cursor.advance)

/-- The waiting tokens with a key token put before the one that turned out to be a key, and
before that the beginning of a mapping if one begins there. -/
def withKey (k : PossibleKey) (opens : Bool) (l : Layout) : List Token :=
  let place := k.number - l.number
  let marks := if opens then [Token.mk .mappingStart k.mark k.mark] else []
  l.waiting.take place ++ marks ++ [⟨.key, k.mark, k.mark⟩] ++ l.waiting.drop place

/-- A colon: what might have been a key is one. -/
def addValue (l : Layout) : Except Failure Layout :=
  match l.keys.find? fun k => k.depth == l.depth with
  | some k =>
    let opens := !l.inFlow && l.opensAt k.mark.column
    let l' := { l with
      keys := l.keys.filter fun k => k.depth != l.depth
      waiting := l.withKey k opens
      columns := if opens then k.mark.column :: l.columns else l.columns
      keyAllowed := false }
    .ok (l'.pushTo .value l.cursor.advance)
  | none => do
    let l ← l.openItem .mappingStart
    let l ← { l with keyAllowed := !l.inFlow }.dropKey
    pure (l.pushTo .value l.cursor.advance)

/-! ### Words -/

/-- A token that begins with its own mark and may be the beginning of a key. -/
def addWord (read : Cursor → Except Failure (Token.Kind × Cursor)) (l : Layout) :
    Except Failure Layout := do
  let l ← l.saveKey
  let (kind, c) ← read l.cursor
  pure ({ l with keyAllowed := false }.pushTo kind c)

/-- An alias. -/
def addAlias (l : Layout) : Except Failure Layout :=
  l.addWord fun c => (name endsAnchor c.advance).map fun (s, d) => (.alias s, d)

/-- An anchor. -/
def addAnchor (l : Layout) : Except Failure Layout :=
  l.addWord fun c => (name endsAnchor c.advance).map fun (s, d) => (.anchor s, d)

/-- A tag. -/
def addTag (l : Layout) : Except Failure Layout :=
  l.addWord fun c => (writtenTag c).map fun (t, d) => (.tag t, d)

/-- A quoted scalar. -/
def addQuoted (double : Bool) (l : Layout) : Except Failure Layout :=
  l.addWord fun c => (quoted double c).map fun (cs, d) => (.scalar (String.ofList cs) false, d)

/-- A plain scalar; a key may begin after it if its line has ended. -/
def addPlain (l : Layout) : Except Failure Layout := do
  let l ← l.saveKey
  let (cs, ended, c) := plain l.inFlow l.least l.cursor
  pure ({ l with keyAllowed := ended }.pushTo (.scalar (String.ofList cs) true) c)

/-- A block scalar. -/
def addBlock (fold : Bool) (l : Layout) : Except Failure Layout := do
  let l ← { l with keyAllowed := true }.dropKey
  let (cs, c) ← block fold (max 1 l.least) l.cursor
  pure (l.pushTo (.scalar (String.ofList cs) false) c)

/-- Whether a plain scalar can begin at a cursor. -/
def beginsPlain (inFlow : Bool) (c : Cursor) : Bool :=
  match c.head with
  | none => false
  | some x =>
    !(isGap x || isBreak x || "-?:,[]\x7b\x7d#&*!|>'\"%@\x60".toList.contains x) ||
      (!endsWord (c.peek 1) && (x == '-' || (!inFlow && (x == '?' || x == ':'))))

/-- The end of the document. -/
def finish (l : Layout) : Except Failure Layout := do
  let l ← l.unwindAll.dropKey
  pure ({ l with keyAllowed := false, keys := [] }.pushMark .endOfInput l.cursor.mark)

/-- The layout with the token that begins with a character. -/
def add (x : Char) (l : Layout) : Except Failure Layout :=
  let c := l.cursor
  let spaced := endsWord (c.peek 1)
  if x == '%' && c.column == 0 then l.addDirective
  else if x == '-' && c.column == 0 && c.atSeparator then l.addSeparator .documentStart
  else if x == '.' && c.column == 0 && c.atSeparator then l.addSeparator .documentEnd
  else if x == '[' then l.addOpening .listOpen
  else if x == '{' then l.addOpening .braceOpen
  else if x == ']' then l.addClosing .listClose
  else if x == '}' then l.addClosing .braceClose
  else if x == ',' then l.addComma
  else if x == '-' && spaced then l.addDash
  else if x == '?' && (l.inFlow || spaced) then l.addKey
  else if x == ':' && (l.inFlow || spaced) then l.addValue
  else if x == '*' then l.addAlias
  else if x == '&' then l.addAnchor
  else if x == '!' then l.addTag
  else if x == '|' && !l.inFlow then l.addBlock false
  else if x == '>' && !l.inFlow then l.addBlock true
  else if x == '\'' then l.addQuoted false
  else if x == '"' then l.addQuoted true
  else if beginsPlain l.inFlow c then l.addPlain
  else .error (.malformed c.mark)

/-- The layout with the next token, and whether it is the end of the document. -/
def next (l : Layout) : Except Failure (Layout × Bool) := do
  let l ← l.skipOrderMark.skipBlank.dropStale
  let l := l.unwind
  match l.cursor.head with
  | none => (l.finish).map (·, true)
  | some x => (l.add x).map (·, false)

/-! ### All tokens -/

/-- How many of some tokens, numbered from `number` on, come before the first that may turn
out to be a key. -/
def settled (keys : List PossibleKey) (number : Nat) : List Token → Nat
  | [] => 0
  | _ :: ts =>
    if keys.any (·.number == number) then 0 else settled keys (number + 1) ts + 1

/-- The tokens that no longer wait, and the layout without them. -/
def release (l : Layout) : List Token × Layout :=
  let n := settled l.keys l.number l.waiting
  (l.waiting.take n, { l with waiting := l.waiting.drop n, number := l.number + n })

/-- The tokens from a layout on, and the failure that ends them. -/
def run (l : Layout) : List Token × Option Failure :=
  match l.next with
  | .error e => ([], some e)
  | .ok (l', true) => (l'.waiting, none)
  | .ok (l', false) =>
    match l'.dropStale with
    | .error e => ([], some e)
    | .ok l' =>
      let (ready, l') := l'.release
      if _h : l'.cursor.rest.length < l.cursor.rest.length then
        let (more, e) := run l'
        (ready ++ more, e)
      else (ready, none)
termination_by l.cursor.rest.length

end Layout

/-- The tokens of a document as far as they can be told, and the failure that ends them, if
one does. -/
def tokens (s : String) : List Token × Option Failure := (Layout.ofString s).run

end ApiSuite.Yaml
