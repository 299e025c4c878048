/-!
# Templates

A template is text in which **embedded expressions** stand between `$` with an opening brace
and a closing brace. Inside the braces stands at least one character, none is a line break,
and the first closing brace after the first character ends the expression.
`ApiSuite.Template.split` cuts a text into such expressions and the single characters around
them; the pieces put together again are the text (`ApiSuite.Template.join_split`).

The first character inside the braces tells special expressions apart: `@` begins a
**reference**, which is an expression on a holder object named elsewhere, and `~` begins a
pattern, which has no value.
-/

namespace ApiSuite.Template

/-- A character outside of embedded expressions, or such an expression by what stands between
its braces. -/
inductive Piece where
  | char (c : Char)
  | embedded (body : List Char)
deriving DecidableEq, Repr

/-- The characters up to the next closing brace on the line, and the rest after it. -/
def untilBrace? : List Char → Option (List Char × List Char)
  | [] => none
  | c :: cs =>
    if c == '}' then some ([], cs)
    else if c == '\n' then none
    else (untilBrace? cs).map fun (body, rest) => (c :: body, rest)

/-- The body of an expression whose opening has been read, and the rest after its closing
brace. -/
def body? : List Char → Option (List Char × List Char)
  | [] => none
  | c :: cs =>
    if c == '\n' then none else (untilBrace? cs).map fun (body, rest) => (c :: body, rest)

theorem untilBrace?_eq {cs body rest : List Char} (h : untilBrace? cs = some (body, rest)) :
    cs = body ++ '}' :: rest := by
  induction cs generalizing body rest with
  | nil => simp [untilBrace?] at h
  | cons c cs ih =>
    simp only [untilBrace?] at h
    split at h
    · rename_i hc
      obtain ⟨rfl, rfl⟩ := Prod.mk.inj (Option.some.inj h)
      simp [eq_of_beq hc]
    · split at h
      · exact absurd h (by simp)
      · obtain ⟨⟨b, r⟩, hb, hr⟩ := Option.map_eq_some_iff.mp h
        obtain ⟨rfl, rfl⟩ := Prod.mk.inj hr
        simp [ih hb]

theorem body?_eq {cs body rest : List Char} (h : body? cs = some (body, rest)) :
    cs = body ++ '}' :: rest := by
  cases cs with
  | nil => simp [body?] at h
  | cons c cs =>
    simp only [body?] at h
    split at h
    · exact absurd h (by simp)
    · obtain ⟨⟨b, r⟩, hb, hr⟩ := Option.map_eq_some_iff.mp h
      obtain ⟨rfl, rfl⟩ := Prod.mk.inj hr
      simp [untilBrace?_eq hb]

theorem body?_length {cs body rest : List Char} (h : body? cs = some (body, rest)) :
    rest.length < cs.length := by
  rw [body?_eq h]
  simp only [List.length_append, List.length_cons]
  omega

/-- The pieces of a text. -/
def split (cs : List Char) : List Piece :=
  match cs with
  | [] => []
  | '$' :: '{' :: more =>
    match _h : body? more with
    | some (body, rest) => .embedded body :: split rest
    | none => .char '$' :: split ('{' :: more)
  | c :: more => .char c :: split more
termination_by cs.length
decreasing_by
  · have := body?_length _h
    simp only [List.length_cons]
    omega
  · simp
  · simp

/-- An expression body in its wrapper. -/
def wrap (body : List Char) : List Char := '$' :: '{' :: body ++ ['}']

/-- The text of a piece. -/
def Piece.text : Piece → List Char
  | .char c => [c]
  | .embedded body => wrap body

/-- The text that pieces make up. -/
def join (pieces : List Piece) : List Char := pieces.flatMap Piece.text

/-- **Cutting a text into pieces loses nothing.** -/
theorem join_split (cs : List Char) : join (split cs) = cs := by
  fun_induction split cs with
  | case1 => rfl
  | case2 more body rest h ih =>
    rw [body?_eq h]
    simp only [join, List.flatMap_cons] at ih ⊢
    rw [ih]
    simp [Piece.text, wrap]
  | case3 more h ih =>
    simp only [join, List.flatMap_cons] at ih ⊢
    rw [ih]
    simp [Piece.text]
  | case4 c more h ih =>
    simp only [join, List.flatMap_cons] at ih ⊢
    rw [ih]
    simp [Piece.text]

/-- An embedded expression, with the offsets of its first and its last character. -/
structure Occurrence where
  text : String
  first : Nat
  last : Nat
deriving DecidableEq, Repr

/-- The embedded expressions among pieces that begin at an offset. -/
def occurrences (offset : Nat) : List Piece → List Occurrence
  | [] => []
  | .char _ :: rest => occurrences (offset + 1) rest
  | .embedded body :: rest =>
    let size := (wrap body).length
    ⟨String.ofList (wrap body), offset, offset + size - 1⟩ :: occurrences (offset + size) rest

/-- The embedded expressions of a text, from left to right. -/
def find (s : String) : List Occurrence := occurrences 0 (split s.toList)

/-- The texts of the embedded expressions of a text. -/
def texts (s : String) : List String := (find s).map (·.text)

/-- Whether a text holds no embedded expression. -/
def isPlain (s : String) : Bool := (find s).isEmpty

/-- Whether a text as a whole is in a wrapper. -/
def isWrapped (s : String) : Bool :=
  match s.toList with
  | '$' :: '{' :: cs => cs.getLast? == some '}'
  | _ => false

/-- A text in a wrapper. -/
def toExpression (s : String) : String := String.ofList (wrap s.toList)

/-- Whether an expression begins with the given character. -/
def beginsWith (mark : Char) (s : String) : Bool :=
  match s.toList with
  | '$' :: '{' :: c :: _ => c == mark
  | _ => false

/-- Whether an expression is a pattern. -/
def isPattern (s : String) : Bool := beginsWith '~' s

/-- Whether an expression is a reference. -/
def isReference (s : String) : Bool := beginsWith '@' s

/-- A text whose references by index address the holder of the given name. -/
def replaceIndexReferences (holder : List Char) : List Char → List Char
  | '$' :: '{' :: '@' :: '[' :: cs =>
    '$' :: '{' :: holder ++ '[' :: replaceIndexReferences holder cs
  | c :: cs => c :: replaceIndexReferences holder cs
  | [] => []

/-- A text whose references by name address the holder of the given name. -/
def replaceNameReferences (holder : List Char) : List Char → List Char
  | '$' :: '{' :: '@' :: cs => '$' :: '{' :: holder ++ '.' :: replaceNameReferences holder cs
  | c :: cs => c :: replaceNameReferences holder cs
  | [] => []

/-- A text whose references address the holder of the given name: an index is looked up in
the holder itself, a name is a member of it. -/
def replaceReferences (s holder : String) : String :=
  let name := holder.toList
  String.ofList (replaceNameReferences name (replaceIndexReferences name s.toList))

end ApiSuite.Template
