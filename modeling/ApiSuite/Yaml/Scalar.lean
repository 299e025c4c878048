import ApiSuite.Yaml.Cursor

/-!
# Scalars

The three ways a scalar is written: **plain**, **quoted** and as a **block**. Each reader
takes the cursor at the scalar's first character and gives its text and the cursor after it.

Line breaks inside plain and quoted scalars are folded: a single one becomes a space, and of
several the first is dropped (`ApiSuite.Yaml.folded`). A line that separates documents ends a
plain scalar and must not stand in a quoted one.
-/

namespace ApiSuite.Yaml

/-- Line breaks as they are folded: the first of them and the ones that follow. -/
def folded (first : Char) (more : List Char) : List Char :=
  if first == '\n' then (if more.isEmpty then [' '] else more) else first :: more

/-! ### Plain scalars -/

/-- Whether a plain scalar inside brackets must not hold a character. -/
def isFlowMark (x : Char) : Bool := x == ',' || x == '?' || isBracket x
where
  /-- An opening or closing bracket or brace. -/
  isBracket (x : Char) : Bool := x == '[' || x == ']' || x == '{' || x == '}'

/-- Whether a colon before such a character ends a plain scalar. -/
def colonEnds (inFlow : Bool) (next : Option Char) : Bool :=
  endsWord next || (inFlow && next.any fun x => x == ',' || isFlowMark.isBracket x)

/-- The number of characters before the next blank or mark of structure. -/
def plainLength (inFlow : Bool) : List Char → Nat
  | [] => 0
  | x :: xs =>
    if endsWord (some x) || (x == ':' && colonEnds inFlow xs.head?) || (inFlow && isFlowMark x)
    then 0 else plainLength inFlow xs + 1

/-- The line breaks between two words of a plain scalar, after the first of them; `none` if a
line that separates documents follows one. -/
def plainBreaks (c : Cursor) : Option (List Char) × Cursor :=
  match _h : c.lineBreak? with
  | some (b, d) =>
    if d.atSeparator then (none, d)
    else
      let (more, e) := plainBreaks d
      (more.map (b :: ·), e)
  | none =>
    if _h' : c.head = some ' ' then plainBreaks c.advance else (some [], c)
termination_by c.rest.length
decreasing_by
  · exact Cursor.lineBreak?_lt _h
  · exact Cursor.advance_lt _h'

/-- What stands between two words of a plain scalar, whether a line ends there, and the cursor
after it. -/
def plainGap (c : Cursor) : List Char × Bool × Cursor :=
  let (blanks, d) := c.span (· == ' ')
  match d.lineBreak? with
  | none => (blanks, false, d)
  | some (b, e) =>
    if e.atSeparator then ([], true, e)
    else
      match plainBreaks e with
      | (some more, f) => (folded b more, true, f)
      | (none, f) => ([], true, f)

/-- The rest of a plain scalar after a gap: its text, whether a line ends after it, and the
cursor after the blanks that follow. -/
def plainFrom (inFlow : Bool) (indent : Nat) (gap : List Char) (ended : Bool) (c : Cursor) :
    List Char × Bool × Cursor :=
  let size := plainLength inFlow c.rest
  if c.at? '#' || size == 0 then ([], ended, c)
  else
    let word := gap ++ c.rest.take size
    let (next, ended, d) := plainGap (c.advanceBy size)
    if next.isEmpty || d.at? '#' || (!inFlow && d.column < indent) then (word, ended, d)
    else if _h : d.rest.length < c.rest.length then
      let (more, ended, e) := plainFrom inFlow indent next ended d
      (word ++ more, ended, e)
    else (word, ended, d)
termination_by c.rest.length

/-- A plain scalar: its text, whether a line ends after it, and the cursor after the blanks
that follow. Lines after the first must be indented by `indent` columns. -/
def plain (inFlow : Bool) (indent : Nat) (c : Cursor) : List Char × Bool × Cursor :=
  plainFrom inFlow indent [] false c

/-! ### Quoted scalars -/

/-- The line breaks and leading blanks of lines in a quoted scalar. -/
def quotedBreaks (c : Cursor) : Except Failure (List Char × Cursor) :=
  if c.atSeparator then .error (.malformed c.mark)
  else
    let d := c.skip isGap
    match _h : d.lineBreak? with
    | some (b, e) => (quotedBreaks e).map fun (more, f) => (b :: more, f)
    | none => .ok ([], d)
termination_by c.rest.length
decreasing_by
  exact Nat.lt_of_lt_of_le (Cursor.lineBreak?_lt _h) (Cursor.length_skip_le isGap c)

/-- Blanks and line breaks in a quoted scalar. -/
def quotedGap (c : Cursor) : Except Failure (List Char × Cursor) :=
  let (blanks, d) := c.span isGap
  match d.lineBreak? with
  | none => if d.head.isNone then .error (.malformed d.mark) else .ok (blanks, d)
  | some (b, e) => (quotedBreaks e).map fun (more, f) => (folded b more, f)

/-- The characters that one character after a backslash stands for. -/
def escapes : List (Char × Char) :=
  [('0', '\x00'), ('a', '\x07'), ('b', '\x08'), ('t', '\t'), ('\t', '\t'), ('n', '\n'),
    ('v', '\x0b'), ('f', '\x0c'), ('r', '\r'), ('e', '\x1b'), (' ', ' '), ('"', '"'),
    ('\\', '\\'), ('/', '/'), ('N', '\u0085'), ('_', '\u00a0'), ('L', '\u2028'),
    ('P', '\u2029')]

/-- The number of hexadecimal digits after the letter of an escape. -/
def escapeWidth? (x : Char) : Option Nat :=
  if x == 'x' then some 2 else if x == 'u' then some 4 else if x == 'U' then some 8 else none

/-- The value of a hexadecimal digit. -/
def hexDigit? (x : Char) : Option Nat :=
  if '0' ≤ x && x ≤ '9' then some (x.toNat - '0'.toNat)
  else if 'a' ≤ x && x ≤ 'f' then some (x.toNat - 'a'.toNat + 10)
  else if 'A' ≤ x && x ≤ 'F' then some (x.toNat - 'A'.toNat + 10)
  else none

/-- The number that so many hexadecimal digits denote, if that many come next. -/
def hexNumber? (width : Nat) (cs : List Char) : Option Nat :=
  if cs.length < width then none
  else (cs.take width).foldlM (fun n x => (hexDigit? x).map (16 * n + ·)) 0

/-- Whether a number is the first half of a pair that denotes one character. -/
def isHighHalf (n : Nat) : Bool := 0xd800 ≤ n && n ≤ 0xdbff

/-- Whether a number is the second half of a pair that denotes one character. -/
def isLowHalf (n : Nat) : Bool := 0xdc00 ≤ n && n ≤ 0xdfff

/-- The second half of a pair that comes next as an escape of its own. -/
def lowHalf? (cs : List Char) : Option Nat :=
  match cs with
  | '\\' :: 'u' :: more => (hexNumber? 4 more).filter isLowHalf
  | _ => none

/-- The character that a numeric escape denotes, and the cursor after it. The halves of a pair
make one character, and a half on its own the replacement character. -/
def numericEscape (width : Nat) (c : Cursor) : Except Failure (Char × Cursor) :=
  match hexNumber? width c.rest with
  | none => .error (.malformed c.mark)
  | some n =>
    let d := c.advanceBy width
    if 0x10ffff < n then .error (.crash .codePoint)
    else if isHighHalf n then
      match lowHalf? d.rest with
      | some low =>
        .ok (Char.ofNat (0x10000 + (n - 0xd800) * 0x400 + (low - 0xdc00)), d.advanceBy 6)
      | none => .ok ('\ufffd', d)
    else if isLowHalf n then .ok ('\ufffd', d)
    else .ok (Char.ofNat n, d)

/-- What an escape stands for, given the cursor after the backslash. A line break after a
backslash is dropped. -/
def escape (c : Cursor) : Except Failure (List Char × Cursor) :=
  match c.head with
  | none => .error (.malformed c.mark)
  | some x =>
    match escapes.lookup x, escapeWidth? x, c.lineBreak? with
    | some y, _, _ => .ok ([y], c.advance)
    | none, some width, _ => (numericEscape width c.advance).map fun (y, d) => ([y], d)
    | none, none, some (_, d) => quotedBreaks d
    | none, none, none => .error (.malformed c.mark)

/-- What a piece of a quoted scalar stands for and the cursor after it, or the cursor after
the closing quote. -/
inductive QuotedPiece where
  | text (cs : List Char) (next : Cursor)
  | done (next : Cursor)

/-- The next piece of a quoted scalar. -/
def quotedPiece (double : Bool) (c : Cursor) : Except Failure QuotedPiece :=
  match c.head with
  | none => .error (.malformed c.mark)
  | some x =>
    if isGap x || isBreak x then (quotedGap c).map fun (cs, d) => .text cs d
    else if double then
      if x == '"' then .ok (.done c.advance)
      else if x == '\\' then (escape c.advance).map fun (cs, d) => .text cs d
      else .ok (.text [x] c.advance)
    else if x == '\'' then
      if c.advance.at? '\'' then .ok (.text ['\''] c.advance.advance)
      else .ok (.done c.advance)
    else .ok (.text [x] c.advance)

/-- The rest of a quoted scalar. -/
def quotedFrom (double : Bool) (c : Cursor) : Except Failure (List Char × Cursor) :=
  match quotedPiece double c with
  | .error e => .error e
  | .ok (.done d) => .ok ([], d)
  | .ok (.text cs d) =>
    if _h : d.rest.length < c.rest.length then
      (quotedFrom double d).map fun (more, e) => (cs ++ more, e)
    else .error (.malformed d.mark)
termination_by c.rest.length

/-- A quoted scalar, the cursor standing at its opening quote. -/
def quoted (double : Bool) (c : Cursor) : Except Failure (List Char × Cursor) :=
  quotedFrom double c.advance

/-! ### Block scalars -/

/-- What becomes of the line breaks at the end of a block scalar. -/
inductive Chomping where
  | strip
  | clip
  | keep
deriving DecidableEq, Repr

/-- The header of a block scalar: what becomes of its end, and how much deeper than its parent
it is indented, if that is said. -/
structure BlockHeader where
  chomping : Chomping
  depth : Option Nat
deriving Repr

/-- The sign for what becomes of the end of a block scalar. -/
def chompingSign? : Option Char → Option Chomping
  | some '+' => some .keep
  | some '-' => some .strip
  | _ => none

/-- The digit for the depth of a block scalar. -/
def depthDigit? : Option Char → Option Nat
  | some x => if '0' ≤ x && x ≤ '9' then some (x.toNat - '0'.toNat) else none
  | none => none

/-- The depth that comes next, if one does. -/
def blockDepth (c : Cursor) : Except Failure (Option Nat × Cursor) :=
  match depthDigit? c.head with
  | some 0 => .error (.malformed c.mark)
  | some n => .ok (some n, c.advance)
  | none => .ok (none, c)

/-- The header of a block scalar, after its first character. -/
def blockHeader (c : Cursor) : Except Failure (BlockHeader × Cursor) := do
  let (header, d) ←
    match chompingSign? c.head with
    | some chomping => do
      let (depth, d) ← blockDepth c.advance
      pure (BlockHeader.mk chomping depth, d)
    | none => do
      let (depth, d) ← blockDepth c
      match depth, chompingSign? d.head with
      | some n, some chomping => pure (BlockHeader.mk chomping (some n), d.advance)
      | _, _ => pure (BlockHeader.mk .clip depth, d)
  if endsField d.head then pure (header, d) else throw (.malformed d.mark)

/-- The cursor after the rest of a line that may hold a comment only. -/
def restOfLine (c : Cursor) : Except Failure Cursor :=
  let d := c.skipSpaces.skipComment
  match d.lineBreak? with
  | some (_, e) => .ok e
  | none => if d.head.isNone then .ok d else .error (.malformed d.mark)

/-- The cursor after spaces up to a column. -/
def skipTo (column : Nat) (c : Cursor) : Cursor :=
  if _h : c.head = some ' ' then
    if c.column < column then skipTo column c.advance else c
  else c
termination_by c.rest.length
decreasing_by exact Cursor.advance_lt _h

theorem length_skipTo_le (column : Nat) (c : Cursor) :
    (skipTo column c).rest.length ≤ c.rest.length := by
  fun_induction skipTo column c with
  | case1 c h _ ih => have := Cursor.advance_lt h; omega
  | case2 => exact Nat.le_refl _
  | case3 => exact Nat.le_refl _

/-- The line breaks that come next, with up to `column` spaces before each and after the
last. -/
def blockBreaks (column : Nat) (c : Cursor) : List Char × Cursor :=
  let d := skipTo column c
  match _h : d.lineBreak? with
  | some (b, e) =>
    let (more, f) := blockBreaks column e
    (b :: more, f)
  | none => ([], d)
termination_by c.rest.length
decreasing_by
  exact Nat.lt_of_lt_of_le (Cursor.lineBreak?_lt _h) (length_skipTo_le column c)

/-- The line breaks and spaces that come next, with the greatest column the spaces reach. -/
def blockLead (deepest : Nat) (c : Cursor) : List Char × Nat × Cursor :=
  match _h : c.lineBreak? with
  | some (b, d) =>
    let (more, n, e) := blockLead deepest d
    (b :: more, n, e)
  | none =>
    if _h' : c.head = some ' ' then blockLead (max deepest c.advance.column) c.advance
    else ([], deepest, c)
termination_by c.rest.length
decreasing_by
  · exact Cursor.lineBreak?_lt _h
  · exact Cursor.advance_lt _h'

/-- A line break as a text, empty at the end of the document. -/
def breakOrEnd (c : Cursor) : List Char × Cursor :=
  match c.lineBreak? with
  | some (b, d) => ([b], d)
  | none => ([], c)

/-- Whether a line begins with something else than a space or a tab. -/
def flush (c : Cursor) : Bool := !c.head.any isGap

/-- What stands between two lines of a block scalar: the break after the first, which is
folded between lines that are flush, and the further breaks. -/
def blockJoint (fold : Bool) (first : Bool) (ending breaks : List Char) (next : Cursor) :
    List Char :=
  if fold && ending == ['\n'] && first && flush next then
    (if breaks.isEmpty then [' '] else breaks)
  else ending ++ breaks

/-- The end of a block scalar: the last line break and the empty lines after it. -/
def blockEnd (chomping : Chomping) (ending breaks : List Char) : List Char :=
  match chomping with
  | .strip => []
  | .clip => ending
  | .keep => ending ++ breaks

/-- The lines of a block scalar that is indented by `column`. -/
def blockLines (fold : Bool) (chomping : Chomping) (column : Nat) (c : Cursor) :
    List Char × Cursor :=
  let (line, d) := c.span fun x => !isBreak x
  let (ending, e) := breakOrEnd d
  let (breaks, f) := blockBreaks column e
  if f.column == column && f.head.isSome then
    if _h : f.rest.length < c.rest.length then
      let (more, g) := blockLines fold chomping column f
      (line ++ blockJoint fold (flush c) ending breaks f ++ more, g)
    else (line, f)
  else (line ++ blockEnd chomping ending breaks, f)
termination_by c.rest.length

/-- A block scalar, the cursor standing at its first character. Its lines are indented by
`least` columns or more. -/
def block (fold : Bool) (least : Nat) (c : Cursor) : Except Failure (List Char × Cursor) := do
  let (header, c) ← blockHeader c.advance
  let c ← restOfLine c
  let (breaks, column, c) :=
    match header.depth with
    | some depth =>
      let column := least + depth - 1
      let (breaks, d) := blockBreaks column c
      (breaks, column, d)
    | none =>
      let (breaks, deepest, d) := blockLead 0 c
      (breaks, max least deepest, d)
  if c.column == column && c.head.isSome then
    let (text, d) := blockLines fold header.chomping column c
    pure (breaks ++ text, d)
  else pure (blockEnd header.chomping [] breaks, c)

end ApiSuite.Yaml
