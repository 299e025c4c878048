import ApiSuite.Proofs.Json.Numerals
import ApiSuite.Proofs.Json.Texts
import Mathlib.Data.List.Forall2

/-!
# Values that are written read back

What is read where a value is written is told by recursion on the value (`ApiSuite.Json.reread`):
null, truth values, integers and texts are read as themselves, a list as the list of what its items
are read as, and an object as the object of its entries put together one by one. A tuple is read as
a list, a key as the text that stands for it, and what JSON has no form for as the text it is
displayed as.

The recursion is carried by one notion, that of a text **of** a value (`ApiSuite.Json.IsTextOf`):
whatever follows it that does not go on with a number, the value is read and what follows is left.
There is one lemma for each kind of value, and none of them depends on the style: the styles differ
in the blanks between the parts only (`ApiSuite.Json.enclose_eq`). Lists and objects are read by two
readers of one shape (`ApiSuite.Json.ReadsParts`), and so they share the induction over their parts.
-/

namespace ApiSuite.Json

open Text

/-! ### Texts of values -/

/-- A character that a value can begin with. -/
def BeginsValue (c : Char) : Prop := isSpace c = false ∧ c ≠ ']' ∧ c ≠ '}' ∧ c.toNat ≤ 0x7e

/-- A text of a value: where it stands at the head of a text that does not go on with a number, the
value is read and what follows is left. -/
structure IsTextOf (cs : List Char) (v : Value) : Prop where
  begins : ∃ c more, cs = c :: more ∧ BeginsValue c
  reads : ∀ fuel rest, cs.length ≤ fuel → EndsNumber rest →
    readValue fuel (cs ++ rest) = .ok (v, rest)

section Scalars

variable {fuel : Nat} {c d : Char} {cs ds more rest : List Char} {v : Value} {n : Int}

/-- A text of a value is not empty, so there is fuel for it. -/
theorem isTextOf_of_succ (hbegins : BeginsValue c)
    (hreads : ∀ fuel rest, more.length ≤ fuel → EndsNumber rest →
      readValue (fuel + 1) (c :: (more ++ rest)) = .ok (v, rest)) :
    IsTextOf (c :: more) v where
  begins := ⟨c, more, rfl, hbegins⟩
  reads fuel rest hfuel hrest := by
    obtain ⟨fuel, rfl⟩ : ∃ k, fuel = k + 1 := ⟨fuel - 1, by simp at hfuel; omega⟩
    exact hreads fuel rest (by simpa using hfuel) hrest

/-- **The words are texts of what they stand for.** -/
theorem isTextOf_word (word : String) (h : (word, v) ∈ words) : IsTextOf word.toList v := by
  have hcut : ∃ c more, word.toList = c :: more ∧ BeginsValue c ∧
      ∀ fuel rest, readValue (fuel + 1) (c :: (more ++ rest)) = .ok (v, rest) := by
    simp only [words, List.mem_cons, Prod.mk.injEq, List.not_mem_nil, or_false] at h
    unfold BeginsValue
    rcases h with ⟨rfl, rfl⟩ | ⟨rfl, rfl⟩ | ⟨rfl, rfl⟩ | ⟨rfl, rfl⟩ | ⟨rfl, rfl⟩ | ⟨rfl, rfl⟩
    · exact ⟨'n', ['u', 'l', 'l'], by simp, by decide,
        fun _ _ => by simp [readValue, readWord?, words, afterWord?]⟩
    · exact ⟨'t', ['r', 'u', 'e'], by simp, by decide,
        fun _ _ => by simp [readValue, readWord?, words, afterWord?]⟩
    · exact ⟨'f', ['a', 'l', 's', 'e'], by simp, by decide,
        fun _ _ => by simp [readValue, readWord?, words, afterWord?]⟩
    · exact ⟨'N', ['a', 'N'], by simp, by decide,
        fun _ _ => by simp [readValue, readWord?, words, afterWord?]⟩
    · exact ⟨'I', ['n', 'f', 'i', 'n', 'i', 't', 'y'], by simp, by decide,
        fun _ _ => by simp [readValue, readWord?, words, afterWord?]⟩
    · exact ⟨'-', ['I', 'n', 'f', 'i', 'n', 'i', 't', 'y'], by simp, by decide,
        fun _ _ => by simp [readValue, readWord?, words, afterWord?]⟩
  obtain ⟨c, more, hword, hbegins, hreads⟩ := hcut
  rw [hword]
  exact isTextOf_of_succ hbegins fun fuel rest _ _ => hreads fuel rest

/-- A text in its quotes is a text of itself. -/
theorem isTextOf_quote (s : String) : IsTextOf (quote s) (.str s) := by
  refine isTextOf_of_succ (by unfold BeginsValue; decide) fun fuel rest _ _ => ?_
  show readValue (fuel + 1) ('"' :: (s.toList.flatMap escaped ++ ['"'] ++ rest)) = _
  rw [List.append_assoc, List.singleton_append, readValue, readText_quote]
  rfl

/-- No word begins with a digit, behind a minus or not. -/
theorem readWord?_signed (hd : isAsciiDigit d = true) (negative : Bool) :
    readWord? (signed negative (d :: more)) = none := by
  have hne : ∀ c, isAsciiDigit c = false → (c == d) = false := by
    intro c hc
    refine beq_false_of_ne ?_
    rintro rfl
    cases hc.symm.trans hd
  cases negative with
  | true =>
    simp [readWord?, words, afterWord?, signed, hne 'I' (by decide)]
  | false =>
    simp [readWord?, words, afterWord?, signed, hne 'n' (by decide), hne 't' (by decide),
      hne 'f' (by decide), hne 'N' (by decide), hne 'I' (by decide), hne '-' (by decide)]

theorem readValue_signed (hd : isAsciiDigit d = true) (negative : Bool) :
    readValue (fuel + 1) (signed negative (d :: more)) =
      readNumber (signed negative (d :: more)) := by
  have hword : readWord? (signed negative (d :: more)) = none := readWord?_signed hd negative
  have hhead : ∀ c cs, signed negative (d :: more) = c :: cs → c = '-' ∨ isAsciiDigit c = true := by
    intro c cs hcs
    cases negative with
    | true => exact .inl (List.cons.inj hcs).1.symm
    | false => exact .inr ((List.cons.inj hcs).1 ▸ hd)
  have hnone : ∀ c cs, signed negative (d :: more) = c :: cs → c ≠ '"' ∧ c ≠ '{' ∧ c ≠ '[' := by
    intro c cs hcs
    refine ⟨?_, ?_, ?_⟩ <;>
    · rintro rfl
      exact absurd (hhead _ _ hcs) (by decide)
  rw [readValue.eq_def]
  dsimp only
  split
  · exact absurd rfl (hnone _ _ ‹_›).1
  · exact absurd rfl (hnone _ _ ‹_›).2.1
  · exact absurd rfl (hnone _ _ ‹_›).2.2
  · rw [hword]

theorem beginsValue_of_digit (h : isAsciiDigit d = true) : BeginsValue d := by
  obtain ⟨hlow, hhigh⟩ := isAsciiDigit_iff.mp h
  have hne : ∀ c : Char, isAsciiDigit c = false → d ≠ c := by
    rintro c hc rfl
    cases hc.symm.trans h
  refine ⟨?_, hne _ (by decide), hne _ (by decide), by omega⟩
  simp [isSpace, hne ' ' (by decide), hne '\t' (by decide), hne '\n' (by decide),
    hne '\r' (by decide)]

/-- What is read as a number is a text of what is read. -/
theorem isTextOf_signed (negative : Bool) (hd : isAsciiDigit d = true)
    (hreads : ∀ rest, EndsNumber rest →
      readNumber (signed negative (d :: more ++ rest)) = .ok (v, rest)) :
    IsTextOf (signed negative (d :: more)) v := by
  have hread : ∀ fuel rest, EndsNumber rest →
      readValue (fuel + 1) (signed negative (d :: more ++ rest)) = .ok (v, rest) := by
    intro fuel rest hrest
    rw [List.cons_append, readValue_signed hd, ← List.cons_append, hreads rest hrest]
  cases negative with
  | true =>
    exact isTextOf_of_succ (by unfold BeginsValue; decide) fun fuel rest _ hrest =>
      hread fuel rest hrest
  | false =>
    exact isTextOf_of_succ (beginsValue_of_digit hd) fun fuel rest _ hrest => hread fuel rest hrest

theorem toList_toString (n : Int) :
    (toString n).toList = signed (decide (n < 0)) (Nat.toDigits 10 n.natAbs) := by
  cases n with
  | ofNat n => exact Nat.toList_repr
  | negSucc n =>
    have hneg : decide (Int.negSucc n < 0) = true := decide_eq_true (Int.negSucc_lt_zero n)
    rw [hneg]
    show ("-" ++ Nat.repr (n + 1)).toList = '-' :: Nat.toDigits 10 (n + 1)
    rw [String.toList_append, Nat.toList_repr]
    simp

/-- **The decimal text of an integer is a text of it.** -/
theorem isTextOf_integer (h : integer n = .ok cs) : IsTextOf cs (.int n) := by
  unfold integer at h
  split at h
  · cases h
  · rename_i hhuge
    cases h
    have hwhole := isWhole_toDigits n.natAbs
    have hlimit : (Nat.toDigits 10 n.natAbs).length ≤ numeralLimit := by
      rw [Nat.length_toDigits_le_iff (by decide) (by decide), ← Decimal.tenPow_eq]
      exact Nat.lt_of_not_le fun hle => hhuge (decide_eq_true hle)
    have hvalue : (if decide (n < 0) then -(Decimal.digitsValue (Nat.toDigits 10 n.natAbs) : Int)
        else (Decimal.digitsValue (Nat.toDigits 10 n.natAbs) : Int)) = n := by
      rw [digitsValue_toDigits]
      by_cases hneg : n < 0
      · rw [if_pos (by simpa using hneg)]
        omega
      · rw [if_neg (by simpa using hneg)]
        omega
    rw [toList_toString]
    obtain ⟨d, more, hdigits, hd⟩ := hwhole.head
    rw [hdigits] at hwhole hlimit hvalue ⊢
    refine isTextOf_signed _ hd fun rest hrest => ?_
    rw [readNumber_integer hwhole hlimit hrest, hvalue]

/-! ### Floats -/

/-- The digits of a float are laid out from a digit on. -/
theorem digits_head (hd : isAsciiDigit d = true) (place : Int) :
    ∃ c more, floatLayout.digits (d :: ds) place = c :: more ∧ isAsciiDigit c = true := by
  unfold Decimal.Layout.digits
  split
  · split
    · exact ⟨'0', _, rfl, rfl⟩
    · dsimp only
      split
      · exact ⟨d, _, rfl, hd⟩
      · exact ⟨d, _, rfl, hd⟩
  · rcases ds with _ | ⟨d', ds⟩
    · exact ⟨d, _, rfl, hd⟩
    · exact ⟨d, _, rfl, hd⟩

/-- A text that is laid out from a digit on, and read as a float, is a text of a float. -/
theorem exists_isTextOf_signed (negative : Bool) (hcs : ∃ c more, cs = c :: more ∧
      isAsciiDigit c = true)
    (hreads : ∃ y, ∀ rest, EndsNumber rest →
      readNumber (signed negative (cs ++ rest)) = .ok (.float y, rest)) :
    ∃ y, IsTextOf (signed negative cs) (.float y) := by
  obtain ⟨c, more, rfl, hc⟩ := hcs
  obtain ⟨y, hy⟩ := hreads
  exact ⟨y, isTextOf_signed negative hc hy⟩

/-- **A float is written as a text of a float.** -/
theorem exists_isTextOf_float (x : Float) :
    ∃ y, IsTextOf (floatLayout.render x).toList (.float y) := by
  unfold Decimal.Layout.render
  split
  · exact ⟨_, isTextOf_word "NaN" (by simp [words]; rfl)⟩
  · rename_i negative _
    cases negative with
    | true => exact ⟨_, isTextOf_word "-Infinity" (by simp [words]; rfl)⟩
    | false => exact ⟨_, isTextOf_word "Infinity" (by simp [words]; rfl)⟩
  · rename_i m e hfinite
    have hsigned : ∀ body,
        (String.ofList (if Decimal.signBit x then '-' :: body else body)).toList =
          signed (Decimal.signBit x) body := fun body => String.toList_ofList
    dsimp only
    rw [hsigned]
    split
    · have hzero : IsWhole ['0'] := ⟨by simp [AllDigits, isAsciiDigit], .inl rfl⟩
      exact exists_isTextOf_signed _ ⟨'0', ['.', '0'], rfl, rfl⟩
        ⟨_, fun rest hrest => readNumber_point hzero (by simp) hzero.1 hrest _⟩
    · rename_i hm
      have hne : m.natAbs ≠ 0 := by
        rw [Ne, Int.natAbs_eq_zero]
        exact fun heq => hm (by simp [heq])
      obtain ⟨d, ds, hdigits, hd, hall⟩ :=
        Decimal.shortest_digits hne (Decimal.le_of_ofFloat hfinite)
      rw [hdigits]
      exact exists_isTextOf_signed _ (digits_head (hall d List.mem_cons_self) _)
        (readNumber_digits hd hall _ _)

/-- The float that is read where a float is written. -/
def rereadFloat (x : Float) : Float :=
  let cs := (floatLayout.render x).toList
  match readValue cs.length cs with
  | .ok (.float y, _) => y
  | _ => x

theorem isTextOf_float (x : Float) :
    IsTextOf (floatLayout.render x).toList (.float (rereadFloat x)) := by
  obtain ⟨y, hy⟩ := exists_isTextOf_float x
  have hread := hy.reads _ [] (Nat.le_refl _) (by simp [EndsNumber])
  rw [List.append_nil] at hread
  rw [rereadFloat, hread]
  exact hy

end Scalars

/-! ### Collections -/

section Collections

variable {cs pad after rest part : List Char} {c : Char}
  {parts : List (List Char)} {v : Value} {vs : List Value} {fuel : Nat}

/-- Blanks only. -/
def AllSpaces (cs : List Char) : Prop := ∀ c ∈ cs, isSpace c = true

theorem skip_append (hpad : AllSpaces pad) : skip (pad ++ cs) = skip cs :=
  List.dropWhile_append_of_pos hpad

theorem skip_cons (hc : isSpace c = false) : skip (c :: cs) = c :: cs :=
  List.dropWhile_cons_of_neg (by simp [hc])

theorem IsTextOf.skip_append (h : IsTextOf part v) (hpad : AllSpaces pad) :
    skip (pad ++ (part ++ rest)) = part ++ rest := by
  obtain ⟨c, more, rfl, hbegins⟩ := h.begins
  rw [Json.skip_append hpad]
  exact skip_cons hbegins.1

theorem allSpaces_newline (depth : Nat) : AllSpaces (newline depth) := by
  intro c hc
  rcases List.mem_cons.mp hc with rfl | hc
  · rfl
  · rw [List.eq_of_mem_replicate hc]
    rfl

/-- **The styles differ in the blanks between the parts only.** -/
theorem enclose_eq (style : Style) (depth : Nat) (opening closing : Char)
    (parts : List (List Char)) (hne : parts ≠ []) :
    ∃ before pad after, AllSpaces before ∧ AllSpaces pad ∧ AllSpaces after ∧
      enclose style depth opening closing parts =
        opening :: (before ++ ((',' :: pad).intercalate parts ++ (after ++ [closing]))) := by
  have hempty : parts.isEmpty = false := List.isEmpty_eq_false_iff.mpr hne
  cases style with
  | compact =>
    refine ⟨[], [' '], [], by simp [AllSpaces], by simp [AllSpaces, isSpace], by simp [AllSpaces],
      ?_⟩
    simp [enclose, hempty]
  | indented =>
    refine ⟨newline (depth + 1), newline (depth + 1), newline depth, allSpaces_newline _,
      allSpaces_newline _, allSpaces_newline _, ?_⟩
    simp [enclose, hempty]

theorem endsNumber_spaces (hpad : AllSpaces pad) (hc : c = ',' ∨ c = ']' ∨ c = '}') :
    EndsNumber (pad ++ c :: rest) := by
  rcases pad with _ | ⟨p, pad⟩
  · simp only [EndsNumber, List.nil_append, List.head?_cons, Option.mem_some_iff, forall_eq']
    rcases hc with rfl | rfl | rfl <;> decide
  · simp only [EndsNumber, List.cons_append, List.head?_cons, Option.mem_some_iff, forall_eq']
    have hp := hpad p List.mem_cons_self
    simp only [isSpace, Bool.or_eq_true, beq_iff_eq] at hp
    rcases hp with ((rfl | rfl) | rfl) | rfl <;> decide

theorem endsNumber_comma : EndsNumber (',' :: rest) := by
  show EndsNumber ([] ++ ',' :: rest)
  exact endsNumber_spaces (by simp [AllSpaces]) (.inl rfl)

/-- Parts put together begin with the first of them. -/
theorem exists_intercalate_cons {α : Type} (sep x : List α) (xs : List (List α)) :
    ∃ more, sep.intercalate (x :: xs) = x ++ more := by
  rcases xs with _ | ⟨y, ys⟩
  · exact ⟨[], by simp [List.intercalate]⟩
  · exact ⟨_, by rw [List.intercalate_cons_cons, List.append_assoc]⟩

/-- What follows the blanks after a comma is not skipped with them. -/
theorem skip_intercalate (hpart : ∃ c more, part = c :: more ∧ isSpace c = false)
    (hpad : AllSpaces pad) (sep : List Char) :
    skip (pad ++ (sep.intercalate (part :: parts) ++ rest)) =
      sep.intercalate (part :: parts) ++ rest := by
  obtain ⟨c, more, rfl, hc⟩ := hpart
  obtain ⟨others, hothers⟩ := exists_intercalate_cons sep (c :: more) parts
  rw [hothers, skip_append hpad]
  exact skip_cons hc

/-- A reader of the parts of a collection: it keeps what a part stands for and goes on after a
comma, and makes the collection of what it has kept at the closing bracket. -/
structure ReadsParts {α σ : Type} (IsPart : List Char → α → Prop) (closing : Char)
    (keep : σ → α → σ) (collection : σ → Value)
    (read : Nat → σ → List Char → Except Stop (Value × List Char)) : Prop where
  closes : closing = ']' ∨ closing = '}'
  begins : ∀ {part a}, IsPart part a → ∃ c more, part = c :: more ∧ isSpace c = false ∧ c ≠ closing
  last : ∀ {part a fuel rest after} (seen : σ), IsPart part a → part.length ≤ fuel →
    EndsNumber rest → skip rest = closing :: after →
      read (fuel + 1) seen (part ++ rest) = .ok (collection (keep seen a), after)
  next : ∀ {part a fuel rest after} (seen : σ), IsPart part a → part.length ≤ fuel →
    EndsNumber rest → skip rest = ',' :: after →
      read (fuel + 1) seen (part ++ rest) = read fuel (keep seen a) (skip after)

namespace ReadsParts

variable {α σ : Type} {IsPart : List Char → α → Prop} {closing : Char}
  {keep : σ → α → σ} {collection : σ → Value}
  {read : Nat → σ → List Char → Except Stop (Value × List Char)} {a : α} {as : List α} {kept : σ}

/-- Parts with commas between them are read one by one up to the end of the collection. -/
theorem intercalate (h : ReadsParts IsPart closing keep collection read) (hpad : AllSpaces pad)
    (hafter : AllSpaces after) (hparts : List.Forall₂ IsPart (part :: parts) (a :: as))
    (hfuel : ((',' :: pad).intercalate (part :: parts)).length < fuel) :
    read fuel kept ((',' :: pad).intercalate (part :: parts) ++ (after ++ closing :: rest)) =
      .ok (collection ((a :: as).foldl keep kept), rest) := by
  induction parts generalizing fuel kept part a as with
  | nil =>
    obtain ⟨fuel, rfl⟩ : ∃ k, fuel = k + 1 := ⟨fuel - 1, by omega⟩
    rcases hparts with _ | ⟨hpart, hrest⟩
    cases hrest
    rw [List.intercalate_singleton] at hfuel ⊢
    have hend : skip (after ++ closing :: rest) = closing :: rest := by
      rw [skip_append hafter, skip_cons (by rcases h.closes with rfl | rfl <;> rfl)]
    exact h.last kept hpart (by omega) (endsNumber_spaces hafter (.inr h.closes)) hend
  | cons next parts ih =>
    obtain ⟨fuel, rfl⟩ : ∃ k, fuel = k + 1 := ⟨fuel - 1, by omega⟩
    rcases hparts with _ | ⟨hpart, hothers⟩
    obtain ⟨b, bs, hnext, -, rfl⟩ := List.forall₂_cons_left_iff.mp hothers
    rw [List.intercalate_cons_cons, List.append_assoc] at hfuel ⊢
    simp only [List.length_append, List.length_cons] at hfuel
    rw [List.append_assoc, List.cons_append,
      h.next kept hpart (by omega) endsNumber_comma (skip_cons rfl)]
    obtain ⟨c, more, hcut, hspace, -⟩ := h.begins hnext
    rw [skip_intercalate ⟨c, more, hcut, hspace⟩ hpad, ih hothers (by omega)]
    rfl

/-- **Parts enclosed are a text of the collection that they make up**, if the opening bracket leads
to the reader of the parts. -/
theorem isTextOf_enclose (h : ReadsParts IsPart closing keep collection read) (opening : Char)
    (empty : σ) (hbegins : BeginsValue opening)
    (hopens : ∀ fuel cs c more, skip cs = c :: more → c ≠ closing →
      readValue (fuel + 1) (opening :: cs) = read fuel empty (c :: more))
    (style : Style) (depth : Nat) (hparts : List.Forall₂ IsPart (part :: parts) (a :: as)) :
    IsTextOf (enclose style depth opening closing (part :: parts))
      (collection ((a :: as).foldl keep empty)) := by
  obtain ⟨before, pad, after, hbefore, hpad, hafter, heq⟩ :=
    enclose_eq style depth opening closing (part :: parts) (by simp)
  rw [heq]
  refine isTextOf_of_succ hbegins fun fuel rest hfuel _ => ?_
  simp only [List.length_append, List.length_cons, List.length_nil] at hfuel
  simp only [List.append_assoc, List.singleton_append]
  obtain ⟨c, more, hcut, hspace, hclosing⟩ :=
    h.begins (List.forall₂_cons.mp hparts).1
  obtain ⟨others, hothers⟩ := exists_intercalate_cons (',' :: pad) part parts
  have hskip : skip (before ++
      ((',' :: pad).intercalate (part :: parts) ++ (after ++ closing :: rest))) = _ :=
    skip_intercalate ⟨c, more, hcut, hspace⟩ hbefore (',' :: pad)
  have hhead : (',' :: pad).intercalate (part :: parts) ++ (after ++ closing :: rest) =
      c :: (more ++ others ++ (after ++ closing :: rest)) := by
    rw [hothers, hcut]
    simp
  rw [hopens fuel _ _ _ (hskip.trans hhead) hclosing, ← hhead]
  exact h.intercalate hpad hafter hparts (by omega)

end ReadsParts

/-! ### Lists and objects -/

theorem readsParts_items :
    ReadsParts IsTextOf ']' (fun seen v => v :: seen) (fun seen => .list seen.reverse)
      readItems where
  closes := .inl rfl
  begins h := by
    obtain ⟨c, more, hcut, hspace, hbracket, -⟩ := h.begins
    exact ⟨c, more, hcut, hspace, hbracket⟩
  last seen h hfuel hrest hskip := by
    rw [readItems, h.reads _ _ hfuel hrest]
    simp only [bind, Except.bind, hskip]
    rfl
  next seen h hfuel hrest hskip := by
    rw [readItems, h.reads _ _ hfuel hrest]
    simp only [bind, Except.bind, hskip]

/-- **The texts of items enclosed are a text of the list of the items.** -/
theorem isTextOf_list (style : Style) (depth : Nat) (h : List.Forall₂ IsTextOf parts vs) :
    IsTextOf (enclose style depth '[' ']' parts) (.list vs) := by
  rcases h with _ | ⟨hpart, hparts⟩
  · exact isTextOf_of_succ (by unfold BeginsValue; decide) fun _ _ _ _ => rfl
  · have hopens (fuel : Nat) (cs : List Char) (c : Char) (more : List Char)
        (hskip : skip cs = c :: more) (hclosing : c ≠ ']') :
        readValue (fuel + 1) ('[' :: cs) = readItems fuel [] (c :: more) := by
      rw [readValue, hskip]
      split
      · exact absurd (List.cons.inj ‹_›).1 hclosing
      · rfl
    simpa using readsParts_items.isTextOf_enclose '[' [] (by unfold BeginsValue; decide) hopens
      style depth (.cons hpart hparts)

/-- The written form of an entry: a key in its quotes, a colon, and a text of the value. -/
def IsEntryOf (part : List Char) (entry : String × Value) : Prop :=
  ∃ cs, part = quote entry.1 ++ [':', ' '] ++ cs ∧ IsTextOf cs entry.2

/-- An object with the entries put in one by one. -/
def putAll (seen : List (Value × Value)) (entries : List (String × Value)) :
    List (Value × Value) :=
  entries.foldl (fun seen entry => Value.insert (.str entry.1) entry.2 seen) seen

/-- One entry of an object is read, with the value behind its key. -/
theorem readEntries_part {seen : List (Value × Value)} {entry : String × Value}
    (h : IsEntryOf part entry) (hfuel : part.length ≤ fuel) (hrest : EndsNumber rest) :
    readEntries (fuel + 1) seen (part ++ rest) =
      match skip rest with
      | '}' :: rest => .ok (.object (Value.insert (.str entry.1) entry.2 seen), rest)
      | ',' :: rest =>
        readEntries fuel (Value.insert (.str entry.1) entry.2 seen) (skip rest)
      | rest => .error (.fault .comma rest) := by
  obtain ⟨cs, rfl, htext⟩ := h
  simp only [List.length_append] at hfuel
  have hread := htext.reads fuel rest (by omega) hrest
  have hskip : skip ([' '] ++ (cs ++ rest)) = cs ++ rest :=
    htext.skip_append (by simp [AllSpaces, isSpace])
  have hkey : quote entry.1 ++ [':', ' '] ++ cs ++ rest =
      '"' :: (entry.1.toList.flatMap escaped ++ '"' :: ':' :: ([' '] ++ (cs ++ rest))) := by
    simp [quote]
  rw [hkey, readEntries, readText_quote]
  simp only [bind, Except.bind, skip_cons (c := ':') rfl]
  rw [hskip, hread]
  rfl

theorem readsParts_entries :
    ReadsParts IsEntryOf '}' (fun seen entry => Value.insert (.str entry.1) entry.2 seen) .object
      readEntries where
  closes := .inr rfl
  begins h := by
    obtain ⟨cs, rfl, -⟩ := h
    exact ⟨'"', _, rfl, rfl, by decide⟩
  last seen h hfuel hrest hskip := by
    rw [readEntries_part h hfuel hrest, hskip]
    rfl
  next seen h hfuel hrest hskip := by
    rw [readEntries_part h hfuel hrest, hskip]
    rfl

/-- **The texts of entries enclosed are a text of the object that they make up.** -/
theorem isTextOf_object {entries : List (String × Value)} (style : Style) (depth : Nat)
    (h : List.Forall₂ IsEntryOf parts entries) :
    IsTextOf (enclose style depth '{' '}' parts) (.object (putAll [] entries)) := by
  rcases h with _ | ⟨hpart, hparts⟩
  · exact isTextOf_of_succ (by unfold BeginsValue; decide) fun _ _ _ _ => rfl
  · have hopens (fuel : Nat) (cs : List Char) (c : Char) (more : List Char)
        (hskip : skip cs = c :: more) (hclosing : c ≠ '}') :
        readValue (fuel + 1) ('{' :: cs) = readEntries fuel [] (c :: more) := by
      rw [readValue, hskip]
      split
      · exact absurd (List.cons.inj ‹_›).1 hclosing
      · rfl
    exact readsParts_entries.isTextOf_enclose '{' [] (by unfold BeginsValue; decide) hopens
      style depth (.cons hpart hparts)

end Collections

/-! ### What a value is read back as -/

/-- The text that stands for a key. -/
def keyName : Value → String
  | .str s => s
  | .null => "null"
  | .bool b => if b then "true" else "false"
  | .int n => toString n
  | .float x => floatLayout.render x
  | _ => ""

mutual

/-- What is read where a value is written. -/
def reread : Value → Value
  | .float x => .float (rereadFloat x)
  | .list items | .tuple items => .list (rereadItems items)
  | .object entries => .object (putAll [] (rereadEntries entries))
  | .bytes bs => .str (Value.displayText (.bytes bs))
  | .date d => .str (Value.displayText (.date d))
  | .datetime t => .str (Value.displayText (.datetime t))
  | .set items => .str (Value.displayText (.set items))
  | v => v

/-- What is read where the items of a list are written. -/
def rereadItems : List Value → List Value
  | [] => []
  | v :: vs => reread v :: rereadItems vs

/-- What is read where the entries of an object are written. -/
def rereadEntries : List (Value × Value) → List (String × Value)
  | [] => []
  | (k, v) :: es => (keyName k, reread v) :: rereadEntries es

end

section Written

variable {style : Style} {k v : Value} {cs : List Char} {n : Int}

theorem rereadItems_eq_map (items : List Value) : rereadItems items = items.map reread := by
  induction items with
  | nil => rfl
  | cons v vs ih => rw [rereadItems, ih, List.map_cons]

/-- The decimal text of an integer needs no escape. -/
theorem flatMap_escaped_toString (n : Int) :
    (toString n).toList.flatMap escaped = (toString n).toList := by
  have hplain : ∀ c ∈ (toString n).toList, escaped c = [c] := by
    intro c hc
    rw [toList_toString] at hc
    have hcases : c = '-' ∨ isAsciiDigit c = true := by
      unfold signed at hc
      split at hc
      · exact (List.mem_cons.mp hc).imp id (allDigits_toDigits _ c)
      · exact .inr (allDigits_toDigits _ c hc)
    rcases hcases with rfl | hdigit
    · decide
    · obtain ⟨hlow, hhigh⟩ := isAsciiDigit_iff.mp hdigit
      have hne : ∀ d : Char, isAsciiDigit d = false → c ≠ d := by
        rintro d hd rfl
        cases hd.symm.trans hdigit
      have height : c.toNat ≠ 8 ∧ c.toNat ≠ 12 := by omega
      have hrange : 32 ≤ c.toNat ∧ c.toNat ≤ 126 := by omega
      simp [escaped, hne '"' (by decide), hne '\\' (by decide), hne '\n' (by decide),
        hne '\r' (by decide), hne '\t' (by decide), height, hrange]
  rw [List.flatMap_congr hplain]
  exact List.flatMap_singleton' _

/-- A written key is the text that stands for it, in quotes. -/
theorem keyText_eq (h : keyText style k = .ok cs) : cs = quote (keyName k) := by
  cases k with
  | int n =>
    rw [keyText] at h
    cases hn : integer n with
    | error e =>
      rw [hn] at h
      cases h
    | ok ds =>
      rw [hn] at h
      cases Except.ok.inj h
      unfold integer at hn
      split at hn
      · cases hn
      · cases Except.ok.inj hn
        rw [keyName, quote, flatMap_escaped_toString]
  | null | bool | float | str => exact (Except.ok.inj h).symm
  | _ => cases h

theorem isTextOf_formless (h : formless style v = .ok cs) : IsTextOf cs (.str v.displayText) := by
  unfold formless at h
  split at h
  · cases h
  · unfold Value.display at h
    split at h
    · cases h
    · cases Except.ok.inj h
      exact isTextOf_quote _

end Written

mutual

/-- **What is written of a value is a text of what the value is read back as.** -/
theorem isTextOf_write {style : Style} {depth : Nat} {cs : List Char} (v : Value)
    (h : write style depth v = .ok cs) : IsTextOf cs (reread v) := by
  cases v with
  | null =>
    cases Except.ok.inj h
    exact isTextOf_word "null" (by simp [words, reread])
  | bool b =>
    cases Except.ok.inj h
    cases b with
    | true => exact isTextOf_word "true" (by simp [words, reread])
    | false => exact isTextOf_word "false" (by simp [words, reread])
  | int n => exact isTextOf_integer h
  | float x =>
    cases Except.ok.inj h
    exact isTextOf_float x
  | str s =>
    cases Except.ok.inj h
    exact isTextOf_quote s
  | list items | tuple items =>
    rw [write] at h
    cases hitems : writeItems style (depth + 1) items with
    | error e =>
      rw [hitems] at h
      cases h
    | ok parts =>
      rw [hitems] at h
      cases Except.ok.inj h
      exact isTextOf_list style depth (isTextOf_writeItems items hitems)
  | object entries =>
    rw [write] at h
    cases hentries : writeEntries style (depth + 1) entries with
    | error e =>
      rw [hentries] at h
      cases h
    | ok parts =>
      rw [hentries] at h
      cases Except.ok.inj h
      exact isTextOf_object style depth (isEntryOf_writeEntries entries hentries)
  | bytes | date | datetime | set => exact isTextOf_formless h

theorem isTextOf_writeItems {style : Style} {depth : Nat} {parts : List (List Char)}
    (items : List Value) (h : writeItems style depth items = .ok parts) :
    List.Forall₂ IsTextOf parts (rereadItems items) := by
  cases items with
  | nil =>
    cases Except.ok.inj h
    exact .nil
  | cons v vs =>
    rw [writeItems] at h
    cases hpart : write style depth v with
    | error e =>
      rw [hpart] at h
      cases h
    | ok part =>
      cases hparts : writeItems style depth vs with
      | error e =>
        rw [hpart, hparts] at h
        cases h
      | ok others =>
        rw [hpart, hparts] at h
        cases Except.ok.inj h
        exact .cons (isTextOf_write v hpart) (isTextOf_writeItems vs hparts)

theorem isEntryOf_writeEntries {style : Style} {depth : Nat} {parts : List (List Char)}
    (entries : List (Value × Value)) (h : writeEntries style depth entries = .ok parts) :
    List.Forall₂ IsEntryOf parts (rereadEntries entries) := by
  cases entries with
  | nil =>
    cases Except.ok.inj h
    exact .nil
  | cons entry rest =>
    obtain ⟨k, v⟩ := entry
    rw [writeEntries] at h
    cases hkey : keyText style k with
    | error e =>
      rw [hkey] at h
      cases h
    | ok key =>
      cases hpart : write style depth v with
      | error e =>
        rw [hkey, hpart] at h
        cases h
      | ok part =>
        cases hparts : writeEntries style depth rest with
        | error e =>
          rw [hkey, hpart, hparts] at h
          cases h
        | ok others =>
          rw [hkey, hpart, hparts] at h
          cases Except.ok.inj h
          exact .cons ⟨part, by rw [keyText_eq hkey], isTextOf_write v hpart⟩
            (isEntryOf_writeEntries rest hparts)

end

/-! ### Whole texts -/

/-- A text of a value, and nothing else, holds that value. -/
theorem read_of_isTextOf {cs : List Char} {v : Value} (h : IsTextOf cs v) :
    read (String.ofList cs) = .ok v := by
  have hskip : skip ([] ++ (cs ++ [])) = cs ++ [] := h.skip_append (by simp [AllSpaces])
  have hread := h.reads (cs.length + 1) [] (Nat.le_succ _) (by simp [EndsNumber])
  obtain ⟨c, more, hcut, -, -, -, hascii⟩ := h.begins
  have hmark : (cs.head? == some (Char.ofNat 0xfeff)) = false := by
    rw [hcut, List.head?_cons]
    refine beq_false_of_ne fun heq => ?_
    rw [Option.some.inj heq] at hascii
    exact absurd hascii (by decide)
  rw [List.nil_append, List.append_nil] at hskip
  rw [List.append_nil] at hread
  have hwhole : readWhole cs = .ok v := by
    rw [readWhole, hmark, hskip]
    simp only [bind, Except.bind, Bool.false_eq_true, if_false, hread]
    rfl
  rw [read, String.toList_ofList, hwhole]

/-- **What is printed of a value reads back**, in either style. -/
theorem read_print {style : Style} {v : Value} {s : String} (h : print style v = .ok s) :
    read s = .ok (reread v) := by
  rw [print] at h
  cases hcs : write style 0 v with
  | error e =>
    rw [hcs] at h
    cases h
  | ok cs =>
    rw [hcs] at h
    cases Except.ok.inj h
    exact read_of_isTextOf (isTextOf_write v hcs)

end ApiSuite.Json
