import ApiSuite.Expression.Basic
import ApiSuite.Decimal.Reading

/-!
# The tokens of an expression

Which tokens may come next depends only on the token before, so an expression is cut into
tokens by an automaton whose states are the **modes** of `ApiSuite.Expression.Mode`. In the
mode for an operand a minus sign belongs to a number and `!` stands alone; after an operand
`!=` is a comparison; after a dot every word is a name, also `true`. Blanks between tokens,
of the five characters in `ApiSuite.Expression.isSpace`, are skipped.

`ApiSuite.Expression.tokenize` lists the tokens with their places up to the end of the text
or to the first place where no token of the current mode begins.
-/

namespace ApiSuite.Expression

/-- A token. The two halves of a number are its digits before and after the point. -/
inductive Token where
  | name (s : String)
  | number (negative : Bool) (whole : List Char) (fraction : Option (List Char))
  | text (s : String)
  | constant (v : Value)
  | comparison (op : Comparison)
  | or
  | and
  | not
  | question
  | colon
  | openParen
  | closeParen
  | dot
  | openBracket
  | closeBracket
  /-- A key in brackets. -/
  | key (s : String)
  /-- An index in brackets, by its digits. -/
  | index (digits : List Char)

/-- What may come next. -/
inductive Mode where
  /-- An operand, or what can precede one. -/
  | operand
  /-- An operator or a closing parenthesis. -/
  | operator
  /-- As `operator`, or an accessor: the operand read so far is a path. -/
  | accessor
  /-- The name after a dot. -/
  | member
  /-- The index or key after an opening bracket. -/
  | subscript
  /-- The closing bracket. -/
  | closing
deriving DecidableEq, Repr

/-- The characters that may stand between tokens. -/
def isSpace (c : Char) : Bool :=
  c == ' ' || c == '\t' || c == '\n' || c == '\r' || c == Char.ofNat 12

/-- A character that a name begins with. -/
def isNameStart (c : Char) : Bool :=
  ('A' ≤ c && c ≤ 'Z') || ('a' ≤ c && c ≤ 'z') || c == '_' || c == '$'

/-- A character that a name goes on with. -/
def isNamePart (c : Char) : Bool :=
  isNameStart c || ('0' ≤ c && c ≤ '9') || c == '-'

/-- The words that are constants in the place of an operand. -/
def ofWord (s : String) : Token :=
  if s == "true" then .constant (.bool true)
  else if s == "false" then .constant (.bool false)
  else if s == "null" then .constant .null
  else .name s

/-- The name at the head of a text. -/
def name? : List Char → Option (String × List Char)
  | c :: cs =>
    if isNameStart c then
      some (String.ofList (c :: cs.takeWhile isNamePart), cs.dropWhile isNamePart)
    else none
  | [] => none

/-- The decimal digits at the head of a text, of which there must be one. -/
def digits? (cs : List Char) : Option (List Char × List Char) :=
  match cs.takeWhile Text.isDecimalDigit with
  | [] => none
  | ds => some (ds, cs.dropWhile Text.isDecimalDigit)

/-- The number at the head of a text. A point counts only with a digit after it. -/
def number? (cs : List Char) : Option (Token × List Char) :=
  let (negative, body) :=
    match cs with
    | '-' :: more => (true, more)
    | _ => (false, cs)
  match digits? body with
  | none => none
  | some (whole, rest) =>
    match rest with
    | '.' :: more =>
      match digits? more with
      | some (fraction, rest) => some (.number negative whole (some fraction), rest)
      | none => some (.number negative whole none, rest)
    | _ => some (.number negative whole none, rest)

/-- The characters up to a closing quote, and the rest after it. -/
def untilQuote (quote : Char) : List Char → Option (List Char × List Char)
  | [] => none
  | c :: cs =>
    if c == quote then some ([], cs)
    else (untilQuote quote cs).map fun (body, rest) => (c :: body, rest)

/-- The quoted text at the head of a text. Either quote may be used and nothing is escaped. -/
def text? : List Char → Option (String × List Char)
  | c :: cs =>
    if c == '\'' || c == '"' then
      (untilQuote c cs).map fun (body, rest) => (String.ofList body, rest)
    else none
  | [] => none

/-- The comparison operator at the head of a text, the longest one that fits. -/
def comparison? : List Char → Option (Comparison × List Char)
  | '=' :: '=' :: '=' :: cs => some (.strictlyEqual, cs)
  | '=' :: '=' :: cs => some (.equal, cs)
  | '!' :: '=' :: '=' :: cs => some (.strictlyUnequal, cs)
  | '!' :: '=' :: cs => some (.unequal, cs)
  | '<' :: '=' :: cs => some (.ordered .lessOrEqual, cs)
  | '<' :: cs => some (.ordered .less, cs)
  | '>' :: '=' :: cs => some (.ordered .greaterOrEqual, cs)
  | '>' :: cs => some (.ordered .greater, cs)
  | _ => none

/-- The token of an operand at the head of a text. -/
def operand? (cs : List Char) : Option (Token × List Char) :=
  match cs with
  | '!' :: rest => some (.not, rest)
  | '(' :: rest => some (.openParen, rest)
  | _ =>
    match name? cs with
    | some (s, rest) => some (ofWord s, rest)
    | none =>
      match number? cs with
      | some found => some found
      | none => (text? cs).map fun (s, rest) => (.text s, rest)

/-- The token after an operand at the head of a text. -/
def operator? (cs : List Char) : Option (Token × List Char) :=
  match cs with
  | '|' :: '|' :: rest => some (.or, rest)
  | '&' :: '&' :: rest => some (.and, rest)
  | '?' :: rest => some (.question, rest)
  | ':' :: rest => some (.colon, rest)
  | ')' :: rest => some (.closeParen, rest)
  | _ => (comparison? cs).map fun (op, rest) => (.comparison op, rest)

/-- The token at the head of a text in a mode. -/
def token? (mode : Mode) (cs : List Char) : Option (Token × List Char) :=
  match mode with
  | .operand => operand? cs
  | .operator => operator? cs
  | .accessor =>
    match cs with
    | '.' :: rest => some (.dot, rest)
    | '[' :: rest => some (.openBracket, rest)
    | _ => operator? cs
  | .member => (name? cs).map fun (s, rest) => (.name s, rest)
  | .subscript =>
    match digits? cs with
    | some (ds, rest) => some (.index ds, rest)
    | none => (text? cs).map fun (s, rest) => (.key s, rest)
  | .closing =>
    match cs with
    | ']' :: rest => some (.closeBracket, rest)
    | _ => none

/-- The mode after a token. -/
def Token.next : Token → Mode
  | .name _ | .closeBracket => .accessor
  | .number _ _ _ | .text _ | .constant _ | .closeParen => .operator
  | .comparison _ | .or | .and | .not | .question | .colon | .openParen => .operand
  | .dot => .member
  | .openBracket => .subscript
  | .key _ | .index _ => .closing

/-- Whether any token at all begins at the head of a text. -/
def beginsToken (cs : List Char) : Bool :=
  (operand? cs).isSome || (operator? cs).isSome ||
    match cs with
    | '.' :: _ | '[' :: _ | ']' :: _ => true
    | _ => false

theorem name?_length {cs rest : List Char} {s : String} (h : name? cs = some (s, rest)) :
    rest.length < cs.length := by
  cases cs with
  | nil => simp [name?] at h
  | cons c cs =>
    simp only [name?] at h
    split at h
    · obtain ⟨-, rfl⟩ := Prod.mk.inj (Option.some.inj h)
      exact Nat.lt_succ_of_le (List.dropWhile_suffix _).length_le
    · exact absurd h (by simp)

theorem digits?_length {cs ds rest : List Char} (h : digits? cs = some (ds, rest)) :
    rest.length < cs.length := by
  unfold digits? at h
  have hsplit := congrArg List.length
    (List.takeWhile_append_dropWhile (p := Text.isDecimalDigit) (l := cs))
  rw [List.length_append] at hsplit
  split at h
  · exact absurd h (by simp)
  · rename_i ds' hds
    obtain ⟨-, rfl⟩ := Prod.mk.inj (Option.some.inj h)
    have : 0 < (cs.takeWhile Text.isDecimalDigit).length :=
      List.length_pos_iff.mpr (fun h0 => hds h0)
    omega

theorem number?_length {cs rest : List Char} {t : Token} (h : number? cs = some (t, rest)) :
    rest.length < cs.length := by
  unfold number? at h
  have hbody : (match cs with
      | '-' :: more => (true, more)
      | _ => (false, cs)).2.length ≤ cs.length := by
    split <;> simp
  revert h hbody
  generalize (match cs with
      | '-' :: more => (true, more)
      | _ => (false, cs)) = p
  intro h hbody
  obtain ⟨negative, body⟩ := p
  simp only at h hbody
  split at h
  · exact absurd h (by simp)
  · rename_i whole rest' hw
    have h1 := digits?_length hw
    split at h
    · rename_i more
      split at h
      · rename_i fraction rest'' hf
        have h2 := digits?_length hf
        obtain ⟨-, rfl⟩ := Prod.mk.inj (Option.some.inj h)
        simp only [List.length_cons] at h1
        omega
      · obtain ⟨-, rfl⟩ := Prod.mk.inj (Option.some.inj h)
        omega
    · obtain ⟨-, rfl⟩ := Prod.mk.inj (Option.some.inj h)
      omega

theorem untilQuote_eq_some {quote : Char} {cs body rest : List Char}
    (h : untilQuote quote cs = some (body, rest)) : cs = body ++ quote :: rest ∧ quote ∉ body := by
  induction cs generalizing body rest with
  | nil => simp [untilQuote] at h
  | cons c cs ih =>
    simp only [untilQuote] at h
    split at h
    · rename_i hc
      obtain ⟨rfl, rfl⟩ := Prod.mk.inj (Option.some.inj h)
      simp [eq_of_beq hc]
    · rename_i hc
      obtain ⟨⟨b, r⟩, hb, hr⟩ := Option.map_eq_some_iff.mp h
      obtain ⟨rfl, rfl⟩ := Prod.mk.inj hr
      obtain ⟨rfl, hq⟩ := ih hb
      refine ⟨rfl, ?_⟩
      rintro (_ | ⟨_, hmem⟩)
      · exact hc (beq_self_eq_true quote)
      · exact hq hmem

theorem untilQuote_length {quote : Char} {cs body rest : List Char}
    (h : untilQuote quote cs = some (body, rest)) : rest.length < cs.length := by
  obtain ⟨rfl, -⟩ := untilQuote_eq_some h
  simp only [List.length_append, List.length_cons]
  omega

theorem text?_length {cs rest : List Char} {s : String} (h : text? cs = some (s, rest)) :
    rest.length < cs.length := by
  cases cs with
  | nil => simp [text?] at h
  | cons c cs =>
    simp only [text?] at h
    split at h
    · obtain ⟨⟨b, r⟩, hb, hr⟩ := Option.map_eq_some_iff.mp h
      obtain ⟨-, rfl⟩ := Prod.mk.inj hr
      exact Nat.lt_succ_of_lt (untilQuote_length hb)
    · exact absurd h (by simp)

theorem comparison?_length {cs rest : List Char} {op : Comparison}
    (h : comparison? cs = some (op, rest)) : rest.length < cs.length := by
  unfold comparison? at h
  split at h <;>
    first
    | (obtain ⟨-, rfl⟩ := Prod.mk.inj (Option.some.inj h); simp only [List.length_cons]; omega)
    | exact absurd h (by simp)

theorem operand?_length {cs rest : List Char} {t : Token}
    (h : operand? cs = some (t, rest)) : rest.length < cs.length := by
  unfold operand? at h
  split at h
  · obtain ⟨-, rfl⟩ := Prod.mk.inj (Option.some.inj h); simp
  · obtain ⟨-, rfl⟩ := Prod.mk.inj (Option.some.inj h); simp
  · split at h
    · rename_i hn
      obtain ⟨-, rfl⟩ := Prod.mk.inj (Option.some.inj h)
      exact name?_length hn
    · split at h
      · rename_i hn
        obtain rfl := Option.some.inj h
        exact number?_length hn
      · obtain ⟨⟨s, r⟩, hb, hr⟩ := Option.map_eq_some_iff.mp h
        obtain ⟨-, rfl⟩ := Prod.mk.inj hr
        exact text?_length hb

theorem operator?_length {cs rest : List Char} {t : Token}
    (h : operator? cs = some (t, rest)) : rest.length < cs.length := by
  unfold operator? at h
  split at h <;>
    first
    | (obtain ⟨-, rfl⟩ := Prod.mk.inj (Option.some.inj h); simp only [List.length_cons]; omega)
    | (obtain ⟨⟨op, r⟩, hb, hr⟩ := Option.map_eq_some_iff.mp h
       obtain ⟨-, rfl⟩ := Prod.mk.inj hr
       exact comparison?_length hb)

/-- **A token takes at least one character.** -/
theorem token?_length {mode : Mode} {cs rest : List Char} {t : Token}
    (h : token? mode cs = some (t, rest)) : rest.length < cs.length := by
  cases mode with
  | operand => exact operand?_length h
  | operator => exact operator?_length h
  | accessor =>
    simp only [token?] at h
    split at h
    · obtain ⟨-, rfl⟩ := Prod.mk.inj (Option.some.inj h); simp
    · obtain ⟨-, rfl⟩ := Prod.mk.inj (Option.some.inj h); simp
    · exact operator?_length h
  | member =>
    simp only [token?] at h
    obtain ⟨⟨s, r⟩, hb, hr⟩ := Option.map_eq_some_iff.mp h
    obtain ⟨-, rfl⟩ := Prod.mk.inj hr
    exact name?_length hb
  | subscript =>
    simp only [token?] at h
    split at h
    · rename_i hd
      obtain ⟨-, rfl⟩ := Prod.mk.inj (Option.some.inj h)
      exact digits?_length hd
    · obtain ⟨⟨s, r⟩, hb, hr⟩ := Option.map_eq_some_iff.mp h
      obtain ⟨-, rfl⟩ := Prod.mk.inj hr
      exact text?_length hb
  | closing =>
    simp only [token?] at h
    split at h
    · obtain ⟨-, rfl⟩ := Prod.mk.inj (Option.some.inj h); simp
    · exact absurd h (by simp)

/-- A token with the number of characters before it. -/
structure Placed where
  token : Token
  offset : Nat

/-- How tokenizing ended: at the end of the text, or at a character where no token of the
mode begins. -/
inductive Ending where
  | complete
  /-- The offset of the character, the character, and whether a token of some mode begins
  there. -/
  | stuck (offset : Nat) (c : Char) (token : Bool)
deriving DecidableEq, Repr

/-- The tokens of a text from a mode and an offset on, and how tokenizing ended. -/
def tokenizeFrom (mode : Mode) (offset : Nat) (cs : List Char) : List Placed × Ending :=
  let body := cs.dropWhile isSpace
  match _hbody : body with
  | [] => ([], .complete)
  | c :: more =>
    let start := offset + (cs.length - body.length)
    match _h : token? mode (c :: more) with
    | none => ([], .stuck start c (beginsToken (c :: more)))
    | some (t, rest) =>
      let (ts, ending) := tokenizeFrom t.next (start + (body.length - rest.length)) rest
      (⟨t, start⟩ :: ts, ending)
termination_by cs.length
decreasing_by
  have h1 := token?_length _h
  have h2 : (cs.dropWhile isSpace).length ≤ cs.length := (List.dropWhile_suffix _).length_le
  have h3 : (cs.dropWhile isSpace) = c :: more := _hbody
  rw [h3] at h2
  omega

/-- The tokens of a text, and how tokenizing ended. -/
def tokenize (cs : List Char) : List Placed × Ending := tokenizeFrom .operand 0 cs

end ApiSuite.Expression
