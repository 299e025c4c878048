import ApiSuite.Expression.Reading
import ApiSuite.Proofs.Decimal.Digits
import ApiSuite.Proofs.Decimal.Nearest

/-!
# The grammar of expressions

What it means for a text to be a rendering of an expression, said without tokenizing or
parsing anything. The grammar has two layers.

* **Spelling.** `ApiSuite.Expression.Token.Spelled` relates a token to the characters that
  write it, and `ApiSuite.Expression.Spells` a list of tokens to a text in which they stand
  one after another with any number of blanks, also none, around them. Nothing here asks for
  the longest token: where a text could be cut in two ways, both cuts are spellings.
* **Structure.** `ApiSuite.Expression.Derives` relates a list of tokens to an expression at one
  of six levels of precedence, from the conditional, which binds loosest, to the primary. A
  numeral stands for the value that it `ApiSuite.Expression.Denotes`: the integer that its digits
  make, or with a point the float nearest to the number that they make.

`ApiSuite.Expression.Renders` joins the two. What stands around an expression in a text, a
wrapper and blanks, is the subject of `ApiSuite.Expression.Holds`.
-/

namespace ApiSuite.Expression

open Text
open Decimal (AreDigits DenotesNat Rounds signed)

/-! ### Characters -/

/-- White space that may stand between tokens: blanks, tabs, line feeds, returns and form feeds. -/
def IsWhite (c : Char) : Prop := c ∈ [' ', '\t', '\n', '\r', '\x0c']

/-- A character that a name may begin with: a letter of ASCII, an underscore or a dollar sign. -/
def BeginsName (c : Char) : Prop := c.isAlpha ∨ c = '_' ∨ c = '$'

/-- A character that a name may go on with: one that may begin it, a digit of ASCII or a hyphen. -/
def ContinuesName (c : Char) : Prop := BeginsName c ∨ c.isDigit ∨ c = '-'

section Characters

variable {c : Char} {cs : List Char}

instance : Decidable (IsWhite c) := inferInstanceAs (Decidable (c ∈ _))

instance : Decidable (BeginsName c) := inferInstanceAs (Decidable (_ ∨ _))

instance : Decidable (ContinuesName c) := inferInstanceAs (Decidable (_ ∨ _))

theorem isSpace_iff : isSpace c ↔ IsWhite c := by
  simp [isSpace, IsWhite, or_assoc]

theorem isNameStart_iff : isNameStart c ↔ BeginsName c := by
  simp [isNameStart, BeginsName, Char.isAlpha, Char.isUpper, Char.isLower, Char.le_def, or_assoc]

theorem isNamePart_iff : isNamePart c ↔ ContinuesName c := by
  simp [isNamePart, ContinuesName, isNameStart_iff, Char.isDigit, Char.le_def, or_assoc]

theorem isSpace_of_isWhite (h : ∀ c ∈ cs, IsWhite c) : ∀ c ∈ cs, isSpace c :=
  fun c hc => isSpace_iff.mpr (h c hc)

theorem isNamePart_of_continuesName (h : ∀ c ∈ cs, ContinuesName c) : ∀ c ∈ cs, isNamePart c :=
  fun c hc => isNamePart_iff.mpr (h c hc)

end Characters

/-! ### Spelling -/

/-- The characters of a minus sign, if there is one. -/
def signChars (negative : Bool) : List Char := if negative then ['-'] else []

/-- A run of decimal digits with at least one of them. -/
def IsNumeral (ds : List Char) : Prop := ds ≠ [] ∧ AreDigits ds

/-- A text between two quotes of the same kind that do not occur in it. -/
inductive Quotes : List Char → List Char → Prop
  | single {body : List Char} : '\'' ∉ body → Quotes body ('\'' :: body ++ ['\''])
  | double {body : List Char} : '"' ∉ body → Quotes body ('"' :: body ++ ['"'])

/-- The characters that write a token. -/
inductive Token.Spelled : Token → List Char → Prop
  | name {c : Char} {cs : List Char} : BeginsName c → (∀ d ∈ cs, ContinuesName d) →
      Spelled (.name (String.ofList (c :: cs))) (c :: cs)
  | integer {negative : Bool} {whole : List Char} : IsNumeral whole →
      Spelled (.number negative whole none) (signChars negative ++ whole)
  | decimal {negative : Bool} {whole fraction : List Char} :
      IsNumeral whole → IsNumeral fraction →
      Spelled (.number negative whole (some fraction))
        (signChars negative ++ whole ++ '.' :: fraction)
  | text {body cs : List Char} : Quotes body cs → Spelled (.text (String.ofList body)) cs
  | yes : Spelled (.constant (.bool true)) ['t', 'r', 'u', 'e']
  | no : Spelled (.constant (.bool false)) ['f', 'a', 'l', 's', 'e']
  | null : Spelled (.constant .null) ['n', 'u', 'l', 'l']
  | comparison (op : Comparison) : Spelled (.comparison op) op.spelling.toList
  | or : Spelled .or ['|', '|']
  | and : Spelled .and ['&', '&']
  | not : Spelled .not ['!']
  | question : Spelled .question ['?']
  | colon : Spelled .colon [':']
  | openParen : Spelled .openParen ['(']
  | closeParen : Spelled .closeParen [')']
  | dot : Spelled .dot ['.']
  | openBracket : Spelled .openBracket ['[']
  | closeBracket : Spelled .closeBracket [']']
  | key {body cs : List Char} : Quotes body cs → Spelled (.key (String.ofList body)) cs
  | index {ds : List Char} : IsNumeral ds → Spelled (.index ds) ds

/-- A word spells a name. -/
theorem Token.Spelled.word {c : Char} {cs : List Char} (hc : isNameStart c)
    (hcs : cs.all isNamePart) : (Token.name (String.ofList (c :: cs))).Spelled (c :: cs) :=
  .name (isNameStart_iff.mp hc) fun d hd => isNamePart_iff.mp (List.all_eq_true.mp hcs d hd)

/-- A list of tokens as a text: each of them may have blanks before it, and blanks may follow
the last. -/
inductive Spells : List Token → List Char → Prop
  | nil {blanks : List Char} : (∀ c ∈ blanks, IsWhite c) → Spells [] blanks
  | cons {t : Token} {ts : List Token} {blanks cs rest : List Char} :
      (∀ c ∈ blanks, IsWhite c) → t.Spelled cs → Spells ts rest →
      Spells (t :: ts) (blanks ++ (cs ++ rest))

/-- A token needs no blanks before it. -/
theorem Spells.token {t : Token} {ts : List Token} {cs rest : List Char} (h : t.Spelled cs)
    (hrest : Spells ts rest) : Spells (t :: ts) (cs ++ rest) :=
  @Spells.cons t ts [] cs rest (by simp) h hrest

/-! ### Structure -/

/-- The levels of precedence, from the loosest to the tightest. -/
inductive Level where
  | conditional
  | disjunction
  | conjunction
  | comparison
  | unary
  | primary
deriving DecidableEq, Repr

/-- The place of a level, larger for what binds tighter. -/
def Level.rank : Level → Nat
  | .conditional => 0
  | .disjunction => 1
  | .conjunction => 2
  | .comparison => 3
  | .unary => 4
  | .primary => 5

/-- The words that are no names where an operand is expected. -/
def IsReserved (s : String) : Prop := s = "true" ∨ s = "false" ∨ s = "null"

/-- **The value of a numeral.** Without a point it is an integer. With one it is the float nearest
to its digits, each of those after the point counting a tenth of the one before. -/
inductive Denotes (negative : Bool) (whole : List Char) : Option (List Char) → Value → Prop
  | integer {n : ℕ} : DenotesNat whole n → Denotes negative whole none (.int (signed negative n))
  | decimal {fraction : List Char} {n : ℕ} {x : Float} : DenotesNat (whole ++ fraction) n →
      Rounds negative (n / 10 ^ fraction.length) x →
      Denotes negative whole (some fraction) (.float x)

/-- A sequence of accessors, and the segments they stand for. -/
inductive Accessors : List Token → List Segment → Prop
  | nil : Accessors [] []
  | member {ts : List Token} {segments : List Segment} (s : String) : Accessors ts segments →
      Accessors (.dot :: .name s :: ts) (.key s :: segments)
  | index {ts : List Token} {segments : List Segment} {ds : List Char} {n : ℕ} :
      DenotesNat ds n → Accessors ts segments →
      Accessors (.openBracket :: .index ds :: .closeBracket :: ts) (.index n :: segments)
  | key {ts : List Token} {segments : List Segment} (s : String) : Accessors ts segments →
      Accessors (.openBracket :: .key s :: .closeBracket :: ts) (.key s :: segments)

/-- **The rules of the grammar.** A level is what its operator makes of its neighbours, or what
the next level is. The conditional takes a disjunction as its condition and anything on its two
other sides; the connectives go on to the left; a comparison has a unary on either side, so that
it does not chain. -/
inductive Derives : Level → List Token → Expression → Prop
  | conditional {cs ts us : List Token} {c a b : Expression} :
      Derives .disjunction cs c → Derives .conditional ts a → Derives .conditional us b →
      Derives .conditional (cs ++ .question :: (ts ++ .colon :: us)) (.conditional c a b)
  | ofDisjunction {ts : List Token} {e : Expression} :
      Derives .disjunction ts e → Derives .conditional ts e
  | disjunction {ts us : List Token} {a b : Expression} :
      Derives .disjunction ts a → Derives .conjunction us b →
      Derives .disjunction (ts ++ .or :: us) (.disjunction a b)
  | ofConjunction {ts : List Token} {e : Expression} :
      Derives .conjunction ts e → Derives .disjunction ts e
  | conjunction {ts us : List Token} {a b : Expression} :
      Derives .conjunction ts a → Derives .comparison us b →
      Derives .conjunction (ts ++ .and :: us) (.conjunction a b)
  | ofComparison {ts : List Token} {e : Expression} :
      Derives .comparison ts e → Derives .conjunction ts e
  | comparison {ts us : List Token} {a b : Expression} (op : Comparison) :
      Derives .unary ts a → Derives .unary us b →
      Derives .comparison (ts ++ .comparison op :: us) (.comparison op a b)
  | ofUnary {ts : List Token} {e : Expression} : Derives .unary ts e → Derives .comparison ts e
  | negation {ts : List Token} {e : Expression} :
      Derives .unary ts e → Derives .unary (.not :: ts) (.negation e)
  | ofPrimary {ts : List Token} {e : Expression} : Derives .primary ts e → Derives .unary ts e
  | path {root : String} {ts : List Token} {segments : List Segment} :
      ¬IsReserved root → Accessors ts segments →
      Derives .primary (.name root :: ts) (.path root segments)
  | number {negative : Bool} {whole : List Char} {fraction : Option (List Char)} {v : Value} :
      Denotes negative whole fraction v →
      Derives .primary [.number negative whole fraction] (.literal v)
  | text (s : String) : Derives .primary [.text s] (.literal (.str s))
  | constant (v : Value) : Derives .primary [.constant v] (.literal v)
  | parens {ts : List Token} {e : Expression} :
      Derives .conditional ts e → Derives .primary (.openParen :: (ts ++ [.closeParen])) e

/-- A path is an expression of every level. -/
theorem Derives.ofPath {root : String} {ts : List Token} {segments : List Segment}
    (hroot : ¬IsReserved root) (h : Accessors ts segments) :
    Derives .conditional (.name root :: ts) (.path root segments) :=
  .ofDisjunction (.ofConjunction (.ofComparison (.ofUnary (.ofPrimary (.path hroot h)))))

/-! ### Renderings -/

/-- An integer of no more digits than numerals may have. Other tokens are not limited. -/
def Token.IsShort : Token → Prop
  | .number _ whole none => whole.length ≤ numeralLimit
  | .index ds => ds.length ≤ numeralLimit
  | _ => True

/-- **A text is a rendering of an expression**: some tokens that it spells derive the
expression. -/
def Renders (cs : List Char) (e : Expression) : Prop :=
  ∃ ts, Spells ts cs ∧ Derives .conditional ts e

/-- A rendering whose integers have no more digits than numerals may have. -/
def RendersWithinLimit (cs : List Char) (e : Expression) : Prop :=
  ∃ ts, Spells ts cs ∧ Derives .conditional ts e ∧ ∀ t ∈ ts, t.IsShort

/-- What a text holds between a wrapper and the blanks on either side of it, or between its
blanks alone if no wrapper is there. -/
def Holds (s : String) (cs : List Char) : Prop :=
  (∃ body, trim s.toList = '$' :: '{' :: (body ++ ['}']) ∧ cs = trim body) ∨
    (¬∃ body, trim s.toList = '$' :: '{' :: (body ++ ['}'])) ∧ cs = trim s.toList

end ApiSuite.Expression
