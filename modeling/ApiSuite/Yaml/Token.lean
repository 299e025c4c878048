import ApiSuite.Decimal.Reading
import ApiSuite.Text.Utf8
import ApiSuite.Yaml.Scalar

/-!
# Tokens

A document is a sequence of **tokens**: scalars, the marks of structure that are written out
and those that only the layout shows, such as the beginning of a mapping at its first key.
This module reads the tokens that are more than a mark: directives, anchors and tags. A
scalar that is plain may stand for something else than a text.
-/

namespace ApiSuite.Yaml

/-- A tag as it is written: a handle that stands for a prefix, if there is one, and the rest. -/
structure WrittenTag where
  handle : Option String
  suffix : String
deriving DecidableEq, Repr

/-- What a token is. -/
inductive Token.Kind where
  | endOfInput
  /-- The version of the language, by its first number. -/
  | version (major : Nat)
  /-- A handle and the prefix it stands for. -/
  | handle (name : String) (stands : String)
  /-- A directive of no known name. -/
  | directive
  | documentStart
  | documentEnd
  | sequenceStart
  | mappingStart
  | blockEnd
  | listOpen
  | listClose
  | braceOpen
  | braceClose
  | comma
  | dash
  | key
  | value
  | alias (name : String)
  | anchor (name : String)
  | tag (t : WrittenTag)
  | scalar (text : String) (isPlain : Bool)
deriving DecidableEq, Repr

/-- A token with the place where it begins and the place after it. -/
structure Token where
  kind : Token.Kind
  first : Mark
  last : Mark
deriving Repr

/-! ### Names -/

/-- A character of a name. -/
def isNameCharacter (x : Char) : Bool :=
  ('0' ≤ x && x ≤ '9') || ('A' ≤ x && x ≤ 'Z') || ('a' ≤ x && x ≤ 'z') || x == '-' || x == '_'

/-- A name that is not empty and ends as `ends` says. -/
def name (ends : Option Char → Bool) (c : Cursor) : Except Failure (String × Cursor) :=
  let (cs, d) := c.span isNameCharacter
  if cs.isEmpty || !ends d.head then .error (.malformed d.mark)
  else .ok (String.ofList cs, d)

/-- Whether the name of an anchor or alias ends here. -/
def endsAnchor (next : Option Char) : Bool :=
  endsWord next || next.any fun x => "?:,]\x7d%@\x60".toList.contains x

/-! ### Tags -/

/-- A character of a tag, an escape apart. -/
def isTagCharacter (x : Char) : Bool :=
  isNameCharacter x || ";/?:@&=+$,.!~*'()[]".toList.contains x

/-- The octets of the escapes that come next, and the cursor after them. -/
def escapedOctets (c : Cursor) : Except Failure (List UInt8 × Cursor) :=
  if _h : c.head = some '%' then
    let d := c.advance
    match hexNumber? 2 d.rest with
    | none => .error (.malformed d.mark)
    | some n =>
      let e := d.advanceBy 2
      if _h' : e.rest.length < c.rest.length then
        (escapedOctets e).map fun (more, f) => (UInt8.ofNat n :: more, f)
      else .ok ([UInt8.ofNat n], e)
  else .ok ([], c)
termination_by c.rest.length

/-- The text of a tag, as far as it goes. -/
def tagCharacters (c : Cursor) : Except Failure (List Char × Cursor) :=
  match c.head with
  | none => .ok ([], c)
  | some x =>
    if x == '%' then do
      let (octets, d) ← escapedOctets c
      match Text.decode octets with
      | .error _ => throw (.malformed c.mark)
      | .ok cs =>
        if _h : d.rest.length < c.rest.length then
          let (more, e) ← tagCharacters d
          pure (cs ++ more, e)
        else pure (cs, d)
    else if isTagCharacter x then
      if _h : c.advance.rest.length < c.rest.length then do
        let (more, d) ← tagCharacters c.advance
        pure (x :: more, d)
      else pure ([x], c.advance)
    else .ok ([], c)
termination_by c.rest.length

/-- The text of a tag or of what a handle stands for, which must not be empty. -/
def tagText (c : Cursor) : Except Failure (String × Cursor) := do
  let (cs, d) ← tagCharacters c
  if d.mark.index == c.mark.index then throw (.malformed d.mark)
  else pure (String.ofList cs, d)

/-- The handle of a tag: one exclamation mark, or two with a name or nothing between. -/
def tagHandle (c : Cursor) : Except Failure (String × Cursor) :=
  if !c.at? '!' then .error (.malformed c.mark)
  else
    let d := c.advance
    if d.at? ' ' then .ok ("!", d)
    else
      let (cs, e) := d.span isNameCharacter
      if e.at? '!' then .ok (String.ofList ('!' :: cs ++ ['!']), e.advance)
      else .error (.malformed e.mark)

/-- Whether a tag has a second exclamation mark before it ends. -/
def hasHandle (cs : List Char) : Bool :=
  (cs.takeWhile fun x => !(x == ' ' || isBreak x)).contains '!'

/-- A tag, the cursor standing at its exclamation mark. -/
def writtenTag (c : Cursor) : Except Failure (WrittenTag × Cursor) := do
  let (t, d) ←
    if c.peek 1 == some '<' then do
      let (suffix, d) ← tagText (c.advanceBy 2)
      if d.at? '>' then pure (WrittenTag.mk none suffix, d.advance)
      else throw (.malformed d.mark)
    else if endsWord (c.peek 1) then pure (WrittenTag.mk none "!", c.advance)
    else if hasHandle (c.rest.drop 1) then do
      let (handle, d) ← tagHandle c
      let (suffix, e) ← tagText d
      pure (WrittenTag.mk (some handle) suffix, e)
    else do
      let (suffix, d) ← tagText c.advance
      pure (WrittenTag.mk (some "!") suffix, d)
  if endsField d.head then pure (t, d) else throw (.malformed d.mark)

/-! ### Directives -/

/-- A number in a directive. -/
def versionNumber (c : Cursor) : Except Failure (Nat × Cursor) :=
  let (cs, d) := c.span Text.isAsciiDigit
  if cs.isEmpty then .error (.malformed c.mark)
  else if Text.numeralLimit < cs.length then .error (.crash (.hugeNumeral cs.length))
  else .ok (Decimal.digitsValue cs, d)

/-- The rest of a version directive. -/
def versionDirective (c : Cursor) : Except Failure (Token.Kind × Cursor) := do
  let (major, d) ← versionNumber c.skipSpaces
  if !d.at? '.' then throw (.malformed d.mark)
  let (_, e) ← versionNumber d.advance
  if endsField e.head then pure (.version major, e) else throw (.malformed e.mark)

/-- The rest of a directive that says what a handle stands for. -/
def handleDirective (c : Cursor) : Except Failure (Token.Kind × Cursor) := do
  let (handle, d) ← tagHandle c.skipSpaces
  if !d.at? ' ' then throw (.malformed d.mark)
  let (stands, e) ← tagText d.skipSpaces
  if endsField e.head then pure (.handle handle stands, e) else throw (.malformed e.mark)

/-- A directive, the cursor standing at its percent sign. Its line ends the token. -/
def directive (c : Cursor) : Except Failure (Token × Cursor) := do
  let (directive, d) ← name endsField c.advance
  let (kind, e) ←
    if directive == "YAML" then versionDirective d
    else if directive == "TAG" then handleDirective d
    else pure (.directive, d.skipLine)
  let f ← restOfLine e
  pure (⟨kind, c.mark, e.mark⟩, f)

end ApiSuite.Yaml
