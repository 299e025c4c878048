import ApiSuite.Project.Path

/-!
# Patterns for paths

A **pattern** is a text in which a star stands for any characters, slashes included, a
question mark for one character and brackets for one of a set. Braces around alternatives make
one pattern of each (`ApiSuite.Glob.expandBraces`). A star pair with a slash at the beginning
may also stand for nothing.
-/

namespace ApiSuite.Glob

/-! ### Alternatives -/

/-- The characters up to the next brace, and the rest from it on. -/
def upToBrace : List Char → List Char × List Char
  | [] => ([], [])
  | c :: cs =>
    if c == '{' || c == '}' then ([], c :: cs)
    else
      let (more, rest) := upToBrace cs
      (c :: more, rest)

/-- A pattern split at its first pair of braces without braces inside: what stands before,
inside and after. -/
def splitBraces? : List Char → Option (List Char × List Char × List Char)
  | [] => none
  | c :: cs =>
    let later := (splitBraces? cs).map fun (before, inside, after) => (c :: before, inside, after)
    if c == '{' then
      match upToBrace cs with
      | (inside, '}' :: after) => some ([], inside, after)
      | _ => later
    else later

/-- A text split at its commas. -/
def splitCommas : List Char → List (List Char)
  | [] => [[]]
  | ',' :: cs => [] :: splitCommas cs
  | c :: cs =>
    match splitCommas cs with
    | [] => [[c]]
    | part :: parts => (c :: part) :: parts

/-- The number of opening braces. -/
def openings (cs : List Char) : Nat := cs.count '{'

/-- The patterns that a pattern with alternatives stands for, in `fuel` steps at most. -/
def expandWithin : Nat → List Char → List (List Char)
  | 0, cs => [cs]
  | fuel + 1, cs =>
    match splitBraces? cs with
    | none => [cs]
    | some (before, inside, after) =>
      (splitCommas inside).flatMap fun choice => expandWithin fuel (before ++ choice ++ after)

/-- The patterns that a pattern with alternatives stands for, the first alternatives first.
Every step removes a pair of braces. -/
def expandBraces (pattern : String) : List String :=
  (expandWithin (openings pattern.toList) pattern.toList).map String.ofList

/-! ### Sets of characters -/

/-- What stands between two brackets, split at the hyphens of ranges: a hyphen makes a range
unless it is the first or the last character or ends a range itself. `from_` is the number of
characters that cannot be such a hyphen. -/
def rangeParts (from_ : Nat) (fuel : Nat) (cs : List Char) : List (List Char) :=
  match fuel with
  | 0 => [cs]
  | fuel + 1 =>
    let head := cs.take from_
    let tail := cs.drop from_
    match tail.dropWhile (· != '-') with
    | [] => [cs]
    | _ :: rest => (head ++ tail.takeWhile (· != '-')) :: rangeParts 2 fuel rest

/-- Parts of a set of which the last is empty: the hyphen before it is a character. -/
def closeParts : List (List Char) → List (List Char)
  | [] => []
  | [part] => [part]
  | [part, []] => [part ++ ['-']]
  | part :: parts => part :: closeParts parts

/-- Two neighbouring parts of which the first ends after the second begins: such a range is
empty and is left out. -/
def joinParts (part : List Char) : List (List Char) → List (List Char)
  | [] => [part]
  | next :: parts =>
    match part.getLast?, next.head? with
    | some l, some h =>
      if h < l then (part.dropLast ++ next.drop 1) :: parts else part :: next :: parts
    | _, _ => part :: next :: parts

/-- Parts of a set without empty ranges. -/
def dropEmptyRanges : List (List Char) → List (List Char)
  | [] => []
  | part :: parts => joinParts part (dropEmptyRanges parts)

/-- The ranges that the parts of a set make: the ends of neighbouring parts make one, and any
other character one of its own. -/
def ranges (part : List Char) : List (List Char) → List (Char × Char)
  | [] => part.map fun c => (c, c)
  | next :: parts =>
    match part.getLast?, next with
    | some l, h :: rest => part.dropLast.map (fun c => (c, c)) ++ (l, h) :: ranges rest parts
    | _, _ => part.map (fun c => (c, c)) ++ ranges next parts

/-- A set of characters, or of all others. -/
structure CharSet where
  negated : Bool
  ranges : List (Char × Char)
deriving DecidableEq, Repr

/-- Whether a character is in a set. -/
def CharSet.contains (s : CharSet) (c : Char) : Bool :=
  s.negated != s.ranges.any fun r => r.1 ≤ c && c ≤ r.2

/-- The set that stands between two brackets. An exclamation mark before it means all others. -/
def CharSet.ofText (cs : List Char) : CharSet :=
  let parts :=
    if cs.contains '-' then
      let first := if cs.head? == some '!' then 2 else 1
      dropEmptyRanges (closeParts (rangeParts first cs.length cs))
    else [cs]
  match parts with
  | [] => ⟨false, []⟩
  | ('!' :: part) :: parts => ⟨true, Glob.ranges part parts⟩
  | part :: parts => ⟨false, Glob.ranges part parts⟩

/-! ### Matching -/

/-- A part of a pattern. -/
inductive Part where
  | star
  | one
  | set (s : CharSet)
  | char (c : Char)
deriving DecidableEq, Repr

/-- The text between brackets, after the opening one, and the rest after the closing one. A
closing bracket that comes first, or right after an exclamation mark, is in the set. -/
def bracketed? (cs : List Char) : Option (List Char × List Char) :=
  let (mark, body) := if cs.head? == some '!' then (['!'], cs.drop 1) else ([], cs)
  let (first, body) := if body.head? == some ']' then ([']'], body.drop 1) else ([], body)
  match body.dropWhile (· != ']') with
  | [] => none
  | _ :: rest => some (mark ++ first ++ body.takeWhile (· != ']'), rest)

theorem bracketed?_lt {cs inside rest : List Char} (h : bracketed? cs = some (inside, rest)) :
    rest.length < cs.length := by
  unfold bracketed? at h
  simp only at h
  split at h
  · exact absurd h (by simp)
  · rename_i x r hr
    obtain ⟨-, rfl⟩ := Prod.mk.inj (Option.some.inj h)
    have h1 := (List.dropWhile_suffix (· != ']') (l :=
      (if (if cs.head? == some '!' then (['!'], cs.drop 1) else ([], cs)).2.head? == some ']' then
        ([']'], (if cs.head? == some '!' then (['!'], cs.drop 1) else ([], cs)).2.drop 1)
      else ([], (if cs.head? == some '!' then (['!'], cs.drop 1) else ([], cs)).2)).2)).length_le
    rw [hr] at h1
    simp only [List.length_cons] at h1
    split at h1 <;> split at h1 <;> simp_all <;> omega

/-- The parts of a pattern. A bracket that is not closed is a character. -/
def parts (cs : List Char) : List Part :=
  match cs with
  | [] => []
  | '*' :: cs => .star :: parts cs
  | '?' :: cs => .one :: parts cs
  | '[' :: cs =>
    match _h : bracketed? cs with
    | some (inside, rest) => .set (CharSet.ofText inside) :: parts rest
    | none => .char '[' :: parts cs
  | c :: cs => .char c :: parts cs
termination_by cs.length
decreasing_by
  all_goals simp only [List.length_cons]
  all_goals first | omega | skip
  have := bracketed?_lt _h
  omega

/-- Whether a text is what the parts of a pattern stand for. -/
def matchesParts : List Part → List Char → Bool
  | [], cs => cs.isEmpty
  | .star :: ps, [] => matchesParts ps []
  | .star :: ps, c :: cs => matchesParts ps (c :: cs) || matchesParts (.star :: ps) cs
  | .one :: ps, _ :: cs => matchesParts ps cs
  | .set s :: ps, c :: cs => s.contains c && matchesParts ps cs
  | .char x :: ps, c :: cs => x == c && matchesParts ps cs
  | _ :: _, [] => false
termination_by ps cs => (ps.length, cs.length)

/-- Whether a text matches a pattern without alternatives. -/
def matchesText (pattern text : List Char) : Bool := matchesParts (parts pattern) text

/-- Whether a path or its last name matches a pattern, the star pairs at its beginning left
out one by one. -/
def matchesTrimmed (path base : List Char) : List Char → Bool
  | '*' :: '*' :: '/' :: pattern =>
    matchesText pattern base || matchesText pattern path || matchesTrimmed path base pattern
  | _ => false

/-- Whether a path matches a pattern without alternatives. -/
def matchesOne (pattern path : String) : Bool :=
  matchesText pattern.toList path.toList ||
    matchesTrimmed path.toList (Path.baseName path).toList pattern.toList

/-- Whether a path matches one of some patterns. -/
def matchesAny (patterns : List String) (path : String) : Bool :=
  patterns.any fun pattern => (expandBraces pattern).any fun p => matchesOne p path

end ApiSuite.Glob
