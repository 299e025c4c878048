import ApiSuite.Decimal.Reading
import ApiSuite.Text.Utf8
import ApiSuite.Value.Order
import ApiSuite.Value.Text

/-!
# Checking values against types

A document is read twice: first as a value, then as what it describes. The second reading
**checks** the value and gathers every issue it finds, each with its place in the value,
in the order of the fields. A check can also crash, which ends it at once.

Scalars are read leniently: a flag may be a truth value, the numbers zero and one or the
usual words; a whole number may be a flag, a float without a fraction or a numeral.
-/

namespace ApiSuite.Schema

/-- A step from a value to a part of it. -/
inductive Location where
  | field (name : String)
  | index (n : Int)
deriving DecidableEq, Repr

/-- What is wrong with a part of a value. -/
inductive IssueKind where
  | missing
  | text
  | textEncoding
  | flag
  | flagWord
  | wholeNumber
  | wholeNumberWord
  | wholeNumberSize
  | wholeNumberFraction
  | finite
  | atLeast (bound : Int)
  | object
  | list
  | record (name : String)
  | key
  /-- The value is none of these words. -/
  | choice (words : List String)
  /-- The value is none of these words, which are all there is. -/
  | literal (words : List String)
  /-- An integer in the value is too large to be written. -/
  | hugeNumeral
deriving DecidableEq, Repr

/-- An issue with its place and the value found there. -/
structure Issue where
  location : List Location
  kind : IssueKind
  input : Value

/-- Words in quotes, joined by commas and a final "or". -/
def alternatives : List String → String
  | [] => ""
  | [w] => "'" ++ w ++ "'"
  | [v, w] => "'" ++ v ++ "' or '" ++ w ++ "'"
  | w :: ws => "'" ++ w ++ "', " ++ alternatives ws

/-- The wording of an issue. -/
def IssueKind.message : IssueKind → String
  | .missing => "Field required"
  | .text => "Input should be a valid string"
  | .textEncoding => "Input should be a valid string, unable to parse raw data as a unicode string"
  | .flag => "Input should be a valid boolean"
  | .flagWord => "Input should be a valid boolean, unable to interpret input"
  | .wholeNumber => "Input should be a valid integer"
  | .wholeNumberWord => "Input should be a valid integer, unable to parse string as an integer"
  | .wholeNumberSize =>
    "Unable to parse input string as an integer, exceeded maximum size"
  | .wholeNumberFraction =>
    "Input should be a valid integer, got a number with a fractional part"
  | .finite => "Input should be a finite number"
  | .atLeast bound => s!"Input should be greater than or equal to {bound}"
  | .object => "Input should be a valid dictionary"
  | .list => "Input should be a valid list"
  | .record name => s!"Input should be a valid dictionary or instance of {name}"
  | .key => "Keys should be strings"
  | .choice words | .literal words => "Input should be " ++ alternatives words
  | .hugeNumeral => "Value error, " ++ Value.TextError.hugeNumeral.message

/-- The name of the kind of an issue. -/
def IssueKind.name : IssueKind → String
  | .missing => "missing"
  | .text => "string_type"
  | .textEncoding => "string_unicode"
  | .flag => "bool_type"
  | .flagWord => "bool_parsing"
  | .wholeNumber => "int_type"
  | .wholeNumberWord => "int_parsing"
  | .wholeNumberSize => "int_parsing_size"
  | .wholeNumberFraction => "int_from_float"
  | .finite => "finite_number"
  | .atLeast _ => "greater_than_equal"
  | .object => "dict_type"
  | .list => "list_type"
  | .record _ => "model_type"
  | .key => "invalid_key"
  | .choice _ => "enum"
  | .literal _ => "literal_error"
  | .hugeNumeral => "value_error"

/-- A location as part of a dotted path. -/
def Location.text : Location → String
  | .field name => name
  | .index n => toString n

/-- The place of an issue as a dotted path. -/
def Issue.path (i : Issue) : String := ".".intercalate (i.location.map Location.text)

/-- The outcome of a check. -/
inductive Checked (α : Type) where
  | valid (a : α)
  | invalid (issues : List Issue)
  | crashed (c : Crash)

namespace Checked

variable {α β : Type}

/-- Applies a function to a valid outcome. -/
protected def map (f : α → β) : Checked α → Checked β
  | .valid a => .valid (f a)
  | .invalid issues => .invalid issues
  | .crashed c => .crashed c

/-- Puts two checks together: the issues of both are gathered, and the first crash wins. -/
protected def seq (f : Checked (α → β)) (x : Unit → Checked α) : Checked β :=
  match f with
  | .crashed c => .crashed c
  | .valid f => (x ()).map f
  | .invalid issues =>
    match x () with
    | .valid _ => .invalid issues
    | .invalid more => .invalid (issues ++ more)
    | .crashed c => .crashed c

instance : Applicative Checked where
  pure := .valid
  map := Checked.map
  seq := Checked.seq

/-- The outcome of a check of a part, its issues placed in the whole. -/
def under (l : Location) : Checked α → Checked α
  | .invalid issues => .invalid (issues.map fun i => { i with location := l :: i.location })
  | x => x

/-- The outcome of a check that needs an earlier one to be valid. -/
def andThen (x : Checked α) (f : α → Checked β) : Checked β :=
  match x with
  | .valid a => f a
  | .invalid issues => .invalid issues
  | .crashed c => .crashed c

end Checked

/-- A check with one issue. -/
def reject {α : Type} (kind : IssueKind) (input : Value) : Checked α :=
  .invalid [⟨[], kind, input⟩]

/-- A check of one type. -/
abbrev Check (α : Type) := Value → Checked α

/-! ### Scalars -/

/-- The text that octets encode, if they do. -/
def textOfOctets? (bs : List UInt8) : Option String :=
  match Text.decode bs with
  | .ok cs => some (String.ofList cs)
  | .error _ => none

/-- A text, or octets that encode one. -/
def text : Check String
  | .str s => .valid s
  | .bytes bs =>
    match textOfOctets? bs with
    | some s => .valid s
    | none => reject .textEncoding (.bytes bs)
  | v => reject .text v

/-- The words for truth, in lower case. -/
def trueWords : List String := ["1", "t", "true", "on", "y", "yes"]

/-- The words for falsehood, in lower case. -/
def falseWords : List String := ["0", "f", "n", "no", "off", "false"]

/-- The truth value that a word denotes, in any case. -/
def flagWord (input : Value) (s : String) : Checked Bool :=
  let w := String.ofList (s.toList.map Char.toLower)
  if falseWords.contains w then .valid false
  else if trueWords.contains w then .valid true
  else reject .flagWord input

/-- The bound on the size of the numbers that fit into a machine word. -/
def wordBound : Nat := Decimal.twoPow 63

/-- Whether a whole number fits into a machine word. -/
def fitsWord (n : Int) : Bool := decide (-(wordBound : Int) ≤ n ∧ n < wordBound)

/-- A flag. Of the numbers other than zero and one, those in a machine word count as unknown
words. -/
def flag : Check Bool
  | .bool b => .valid b
  | .int n =>
    if n == 0 then .valid false
    else if n == 1 then .valid true
    else if fitsWord n then reject .flagWord (.int n)
    else reject .flag (.int n)
  | .float x =>
    match Decimal.toInt? x with
    | some n =>
      if n == 0 then .valid false
      else if n == 1 then .valid true
      else if n.natAbs < wordBound then reject .flagWord (.float x)
      else reject .flag (.float x)
    | none => reject .flag (.float x)
  | .str s => flagWord (.str s) s
  | .bytes bs =>
    match textOfOctets? bs with
    | some s => flagWord (.bytes bs) s
    | none => reject .flagWord (.bytes bs)
  | v => reject .flag v

/-- The characters that are dropped around a numeral. -/
def isPadding (c : Char) : Bool :=
  Text.isBlank c && !(0x1c ≤ c.toNat && c.toNat ≤ 0x1f)

/-- A numeral without the padding around it. -/
def unpad (cs : List Char) : List Char :=
  ((cs.dropWhile isPadding).reverse.dropWhile isPadding).reverse

/-- A numeral without a plus sign before it; none if a minus sign follows that. -/
def withoutPlus? : List Char → Option (List Char)
  | '+' :: '-' :: _ => none
  | '+' :: cs => some cs
  | cs => some cs

/-- What is left of a numeral after zeros and underscores, of which `last` is the last one read:
it begins with a digit or a minus sign. A zero stays before a point and at the end. -/
def afterZeros? (last : Char) : List Char → Option (List Char)
  | [] => some [last]
  | c :: cs =>
    if c == '0' || c == '_' then afterZeros? c cs
    else if c == '.' then some (last :: c :: cs)
    else if c == '-' || Text.isAsciiDigit c then some (c :: cs)
    else none

/-- A numeral without the zeros at its beginning. Underscores among these go with them, and a
minus sign may follow them; none if the numeral begins with anything but a digit or that sign. -/
def withoutZeros? : List Char → Option (List Char)
  | '0' :: cs => afterZeros? '0' cs
  | c :: cs => if c == '-' || Text.isAsciiDigit c then some (c :: cs) else none
  | [] => none

/-- A numeral without its fraction, if that is made of zeros, at least one. -/
def withoutFraction (cs : List Char) : List Char :=
  let fraction := (cs.dropWhile (· != '.')).drop 1
  if !fraction.isEmpty && fraction.all (· == '0') then cs.takeWhile (· != '.') else cs

/-- Whether two underscores stand next to each other. -/
def hasDoubled : List Char → Bool
  | '_' :: '_' :: _ => true
  | _ :: cs => hasDoubled cs
  | [] => false

/-- A numeral without its underscores, if they stand one by one and neither at the beginning nor
at the end. -/
def withoutUnderscores (cs : List Char) : List Char :=
  if cs.head? == some '_' || cs.getLast? == some '_' || hasDoubled cs then cs
  else cs.filter (· != '_')

/-- A numeral reduced to a sign and digits, if it can be. -/
def reduced? (cs : List Char) : Option (List Char) :=
  ((withoutPlus? (unpad cs)).bind withoutZeros?).map fun cs =>
    withoutUnderscores (withoutFraction cs)

/-- The whole number that a reduced numeral denotes: a minus sign or none, and digits, the first
of them no zero unless it is the only one. -/
def plainNumber (input : Value) (cs : List Char) : Checked Int :=
  let (negative, body) := match cs with
    | '-' :: body => (true, body)
    | body => (false, body)
  let digits := body.takeWhile Text.isAsciiDigit
  if digits.isEmpty || (digits.head? == some '0' && digits.length != 1) then
    reject .wholeNumberWord input
  else if Text.numeralLimit < (if negative then 1 else 0) + digits.length then
    reject .wholeNumberSize input
  else if digits.length == body.length then
    let n : Int := Decimal.digitsValue digits
    .valid (if negative then -n else n)
  else reject .wholeNumberWord input

/-- The whole number that a numeral denotes. -/
def wholeNumberWord (input : Value) (s : String) : Checked Int :=
  match reduced? s.toList with
  | some cs => plainNumber input cs
  | none => reject .wholeNumberWord input

/-- A whole number. A float stands for one only if that fits into a machine word. -/
def wholeNumber : Check Int
  | .int n => .valid n
  | .bool b => .valid (if b then 1 else 0)
  | .float x =>
    match Decimal.ofFloat x, Decimal.toInt? x with
    | _, some n =>
      if n.natAbs < wordBound then .valid n else reject .wholeNumberSize (.float x)
    | .finite _ _, none => reject .wholeNumberFraction (.float x)
    | _, none => reject .finite (.float x)
  | .str s => wholeNumberWord (.str s) s
  | .bytes bs =>
    match textOfOctets? bs with
    | some s => wholeNumberWord (.bytes bs) s
    | none => reject .wholeNumberWord (.bytes bs)
  | v => reject .wholeNumber v

/-- A whole number with a lower bound. -/
def atLeast (bound : Int) : Check Int := fun v =>
  (wholeNumber v).andThen fun n => if bound ≤ n then .valid n else reject (.atLeast bound) v

/-- What a word stands for among some words. -/
def worded? {α : Type} (words : List (String × α)) (s : String) : Option α :=
  (words.find? fun w => w.1 == s).map fun w => w.2

/-- One of some words, each standing for something; octets that encode a word count as it. -/
def choice {α : Type} (words : List (String × α)) (v : Value) : Checked α :=
  let found := match text v with
    | .valid s => worded? words s
    | _ => none
  match found with
  | some a => .valid a
  | none => reject (.choice (words.map fun w => w.1)) v

/-- One of some words that are written out in the type of the field. -/
def literal {α : Type} (words : List (String × α)) (v : Value) : Checked α :=
  let found := match v with
    | .str s => worded? words s
    | _ => none
  match found with
  | some a => .valid a
  | none => reject (.literal (words.map fun w => w.1)) v

/-- Any value. -/
def any : Check Value := .valid

/-- Null, or what another check allows. -/
def orNull {α : Type} (check : Check α) : Check (Option α) := fun v =>
  if v.isNull then .valid none else (check v).map some

/-! ### Collections -/

/-- The items of a list, each checked, from an index on. -/
def items {α : Type} (check : Check α) (index : Nat) : List Value → Checked (List α)
  | [] => .valid []
  | v :: vs => List.cons <$> (check v).under (.index index) <*> items check (index + 1) vs

/-- A list. The members of a set and of a tuple make a list, too. -/
def list {α : Type} (check : Check α) : Check (List α)
  | .list vs | .tuple vs | .set vs => items check 0 vs
  | v => reject .list v

/-- A key as a step to its entry. -/
def keyLocation : Value → Location
  | .str s => .field s
  | .int n => .index n
  | .bool b => .index (if b then 1 else 0)
  | k => .field k.literal

/-- The entries of an object, keys and values checked. -/
def entries {α : Type} (check : Check α) : List (Value × Value) → Checked (List (String × α))
  | [] => .valid []
  | (k, v) :: es =>
    let key := ((text k).under (.field "[key]")).under (keyLocation k)
    let value := (check v).under (keyLocation k)
    List.cons <$> (Prod.mk <$> key <*> value) <*> entries check es

/-- The entries with one more, which takes the place of an entry with the same key. -/
def insertField {α : Type} (key : String) (value : α) :
    List (String × α) → List (String × α)
  | [] => [(key, value)]
  | (k, v) :: rest =>
    if k == key then (k, value) :: rest else (k, v) :: insertField key value rest

theorem lookup_cons_if {α : Type} {a : α} {fields : List (String × α)} {key name : String} :
    ((key, a) :: fields).lookup name = if name = key then some a else fields.lookup name := by
  by_cases hname : name = key
  · rw [if_pos hname, hname, List.lookup_cons_self]
  · have hne : (name == key) = false := beq_false_of_ne hname
    rw [if_neg hname, List.lookup_cons, hne]

/-- Where no two entries have one key, each is found under its own. -/
theorem lookup_of_mem {α : Type} {a : α} {fields : List (String × α)} {name : String}
    (hkeys : (fields.map Prod.fst).Nodup) (h : (name, a) ∈ fields) :
    fields.lookup name = some a := by
  induction fields with
  | nil => cases h
  | cons field fields ih =>
    obtain ⟨key, b⟩ := field
    rw [List.map_cons, List.nodup_cons] at hkeys
    rw [lookup_cons_if]
    rcases List.mem_cons.mp h with heq | hmem
    · cases heq
      exact if_pos rfl
    · have hne : name ≠ key := by
        rintro rfl
        exact hkeys.1 (List.mem_map.mpr ⟨(name, a), hmem, rfl⟩)
      rw [if_neg hne]
      exact ih hkeys.2 hmem

/-- The new entry is found under its key, and every other one is where it was. -/
theorem lookup_insertField {α : Type} {a : α} {fields : List (String × α)} {key name : String} :
    (insertField key a fields).lookup name =
      if name = key then some a else fields.lookup name := by
  induction fields with
  | nil => exact lookup_cons_if
  | cons field fields ih =>
    obtain ⟨k, b⟩ := field
    rw [insertField]
    by_cases hk : k = key
    · rw [if_pos (by simpa using hk), lookup_cons_if, lookup_cons_if, hk]
      split <;> rfl
    · rw [if_neg (by simpa using hk), lookup_cons_if, lookup_cons_if, ih]
      by_cases hname : name = k
      · rw [if_pos hname, if_pos hname, if_neg fun heq => hk (hname.symm.trans heq)]
      · rw [if_neg hname, if_neg hname]

/-- An entry with a new key is put at the end. -/
theorem insertField_of_not_mem {α : Type} {a : α} {fields : List (String × α)} {key : String}
    (h : key ∉ fields.map (·.1)) : insertField key a fields = fields ++ [(key, a)] := by
  induction fields with
  | nil => rfl
  | cons field fields ih =>
    obtain ⟨k, b⟩ := field
    rw [List.map_cons, List.mem_cons, not_or] at h
    obtain ⟨hk, hfields⟩ := h
    rw [insertField, if_neg (by simpa using Ne.symm hk), ih hfields]
    rfl

theorem keys_insertField {α : Type} (key : String) (a : α) (fields : List (String × α)) :
    (insertField key a fields).map (·.1) =
      if (fields.map (·.1)).contains key then fields.map (·.1) else fields.map (·.1) ++ [key] := by
  induction fields with
  | nil => rfl
  | cons field fields ih =>
    obtain ⟨k, b⟩ := field
    rw [insertField]
    by_cases hk : k = key
    · simp [hk]
    · rw [if_neg (by simpa using hk), List.map_cons, ih]
      have hne : ¬key = k := fun h => hk h.symm
      simp only [List.map_cons, List.contains_cons, beq_iff_eq, hne, Bool.or_eq_true, false_or]
      split <;> rfl

/-- An object with text keys. -/
def object {α : Type} (check : Check α) : Check (List (String × α))
  | .object es => (entries check es).map fun fields =>
      fields.foldl (fun seen f => insertField f.1 f.2 seen) []
  | v => reject .object v

/-! ### Records -/

/-- A record of the given name: an object whose fields are checked one by one. -/
def record {α : Type} (name : String) (check : List (Value × Value) → Checked α) : Check α
  | .object es => check es
  | v => reject (.record name) v

/-- A field that must be there. -/
def required {α : Type} (name : String) (check : Check α) (es : List (Value × Value)) :
    Checked α :=
  match Value.lookup name es with
  | some v => (check v).under (.field name)
  | none => .invalid [⟨[.field name], .missing, .object es⟩]

/-- A field that has a default. -/
def defaulted {α : Type} (name : String) (default : α) (check : Check α)
    (es : List (Value × Value)) : Checked α :=
  match Value.lookup name es with
  | some v => (check v).under (.field name)
  | none => .valid default

/-- A field that may be left out or null. -/
def optional {α : Type} (name : String) (check : Check α) (es : List (Value × Value)) :
    Checked (Option α) :=
  defaulted name none (orNull check) es

/-! ### Writing records -/

/-- A record as an object. A sparse one leaves the fields out that are null. -/
def ofRecord (sparse : Bool) (fields : List (String × Value)) : Value :=
  .ofFields (if sparse then fields.filter fun f => !f.2.isNull else fields)

/-- A list of texts as a value. -/
def ofTexts (ss : List String) : Value := .list (ss.map .str)

/-- An optional part as a value, null when it is missing. -/
def ofOption {α : Type} (f : α → Value) : Option α → Value
  | some a => f a
  | none => .null

/-- Texts under text keys as a value. -/
def ofTextFields (fields : List (String × String)) : Value :=
  .ofFields (fields.map fun (k, v) => (k, .str v))

end ApiSuite.Schema
