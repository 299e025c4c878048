import ApiSuite.Fault

/-!
# Cursors in a document

A document is read from left to right. A **cursor** holds what is left of the text and the
**mark** of the place reached: how many characters have been read, and the line and column,
all counted from zero. Lines end at any of five characters, a carriage return and a line feed
counting once; a byte order mark takes no column.

Every reader in `ApiSuite.Yaml` that repeats itself does so on less text than before
(`ApiSuite.Yaml.Cursor.advance_lt`, `ApiSuite.Yaml.Cursor.lineBreak?_lt`).
-/

namespace ApiSuite.Yaml

/-- A place in a document. -/
structure Mark where
  index : Nat
  line : Nat
  column : Nat
deriving DecidableEq, Repr

/-- The beginning of a document. -/
def Mark.start : Mark := ⟨0, 0, 0⟩

/-- Why a document cannot be read: something is wrong at a place, it holds a character that
no document may hold, or reading it crashes. -/
inductive Failure where
  | malformed (mark : Mark)
  | forbidden
  | crash (c : Crash)

/-- A character that ends a line. -/
def isBreak (c : Char) : Bool :=
  c == '\n' || c == '\r' || c == '\u0085' || c == '\u2028' || c == '\u2029'

/-- A space or a tab. -/
def isGap (c : Char) : Bool := c == ' ' || c == '\t'

/-- A character that a document may hold. -/
def isAllowed (c : Char) : Bool :=
  let n := c.toNat
  n == 9 || n == 10 || n == 13 || (0x20 ≤ n && n ≤ 0x7e) || n == 0x85 ||
    (0xa0 ≤ n && n ≤ 0xfffd) || 0x10000 ≤ n

/-- Whether a line ends here or a space comes. -/
def endsField : Option Char → Bool
  | none => true
  | some c => c == ' ' || isBreak c

/-- Whether a line ends here or a space or tab comes. -/
def endsWord : Option Char → Bool
  | none => true
  | some c => isGap c || isBreak c

/-- The place after a character, given the one that follows it. -/
def Mark.after (m : Mark) (c : Char) (next : Option Char) : Mark :=
  if isBreak c && !(c == '\r' && next == some '\n') then ⟨m.index + 1, m.line + 1, 0⟩
  else if c == '\ufeff' then { m with index := m.index + 1 }
  else ⟨m.index + 1, m.line, m.column + 1⟩

/-- What is left of a text, with the place where it begins. -/
structure Cursor where
  mark : Mark
  rest : List Char
deriving Repr

namespace Cursor

/-- The cursor at the beginning of a text. -/
def ofString (s : String) : Cursor := ⟨.start, s.toList⟩

/-- The next character. -/
def head (c : Cursor) : Option Char := c.rest.head?

/-- The character after so many others. -/
def peek (n : Nat) (c : Cursor) : Option Char := c.rest[n]?

/-- Whether a character comes next. -/
def at? (x : Char) (c : Cursor) : Bool := c.head == some x

/-- The column reached. -/
def column (c : Cursor) : Nat := c.mark.column

/-- The cursor after the next character. -/
def advance (c : Cursor) : Cursor :=
  match c.rest with
  | [] => c
  | x :: xs => ⟨c.mark.after x xs.head?, xs⟩

/-- The cursor after so many characters. -/
def advanceBy : Nat → Cursor → Cursor
  | 0, c => c
  | n + 1, c => advanceBy n c.advance

/-- The characters of a class that come next, and the cursor after them. -/
def spanFrom (p : Char → Bool) (m : Mark) : List Char → List Char × Cursor
  | [] => ([], ⟨m, []⟩)
  | x :: xs =>
    if p x then
      let (run, c) := spanFrom p (m.after x xs.head?) xs
      (x :: run, c)
    else ([], ⟨m, x :: xs⟩)

/-- The characters of a class that come next, and the cursor after them. -/
def span (p : Char → Bool) (c : Cursor) : List Char × Cursor := spanFrom p c.mark c.rest

/-- The cursor after the characters of a class that come next. -/
def skip (p : Char → Bool) (c : Cursor) : Cursor := (c.span p).2

/-- The cursor after the spaces that come next. -/
def skipSpaces (c : Cursor) : Cursor := c.skip (· == ' ')

/-- The cursor after the rest of the line. -/
def skipLine (c : Cursor) : Cursor := c.skip fun x => !isBreak x

/-- The cursor after a comment, if one comes next. -/
def skipComment (c : Cursor) : Cursor := if c.at? '#' then c.skipLine else c

/-- A line break that comes next, as it is kept in text, and the cursor after it: all breaks
are kept as line feeds but the two that separate lines and paragraphs. -/
def lineBreak? (c : Cursor) : Option (Char × Cursor) :=
  match c.rest with
  | [] => none
  | '\r' :: '\n' :: _ => some ('\n', c.advance.advance)
  | x :: _ =>
    if x == '\u2028' || x == '\u2029' then some (x, c.advance)
    else if isBreak x then some ('\n', c.advance)
    else none

/-- Whether a line that separates documents begins here. -/
def atSeparator (c : Cursor) : Bool :=
  (c.rest.take 3 == ['-', '-', '-'] || c.rest.take 3 == ['.', '.', '.']) && endsWord (c.peek 3)

/-! ### Progress -/

theorem length_advance (c : Cursor) : c.advance.rest.length = c.rest.length - 1 := by
  unfold advance
  split <;> simp_all

theorem advance_lt {c : Cursor} {x : Char} (h : c.head = some x) :
    c.advance.rest.length < c.rest.length := by
  rw [length_advance]
  cases hr : c.rest with
  | nil => simp [head, hr] at h
  | cons y ys => simp

theorem length_spanFrom_le (p : Char → Bool) (m : Mark) (xs : List Char) :
    (spanFrom p m xs).2.rest.length ≤ xs.length := by
  induction xs generalizing m with
  | nil => simp [spanFrom]
  | cons x xs ih =>
    simp only [spanFrom]
    split
    · have := ih (m.after x xs.head?)
      simp only [List.length_cons]
      omega
    · simp

theorem length_skip_le (p : Char → Bool) (c : Cursor) :
    (c.skip p).rest.length ≤ c.rest.length :=
  length_spanFrom_le p c.mark c.rest

theorem lineBreak?_lt {c d : Cursor} {b : Char} (h : c.lineBreak? = some (b, d)) :
    d.rest.length < c.rest.length := by
  unfold lineBreak? at h
  split at h
  · exact absurd h (by simp)
  · rename_i hr
    obtain ⟨-, rfl⟩ := Prod.mk.inj (Option.some.inj h)
    rw [length_advance, length_advance, hr]
    simp only [List.length_cons]
    omega
  · rename_i x xs _ hr
    split at h
    · obtain ⟨-, rfl⟩ := Prod.mk.inj (Option.some.inj h)
      rw [length_advance, hr]
      simp
    · split at h
      · obtain ⟨-, rfl⟩ := Prod.mk.inj (Option.some.inj h)
        rw [length_advance, hr]
        simp
      · exact absurd h (by simp)

end Cursor

end ApiSuite.Yaml
