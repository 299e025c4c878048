import ApiSuite.Proofs.Expression.Tokens

/-!
# Reading accepts exactly the renderings

The reader of expressions (`ApiSuite.Expression.parse`) against the grammar: it returns an
expression for a text exactly when the text holds a rendering of it
(`ApiSuite.Expression.parse_iff_rendering`). A text that holds a rendering of nothing is
malformed, and no other text is; what is left are the renderings in which an integer has more
digits than numerals may have.

The way from the grammar to the reader is that of the two halves: the tokens of a rendering are
those that the tokenizer finds (`ApiSuite.Expression.tokenizeFrom_iff`), and the automaton takes
exactly the tokens that are derived (`ApiSuite.Expression.derives_iff_finish`).
-/

namespace ApiSuite.Expression

open Text

/-! ### Wrappers -/

theorem unwrap?_eq_some_iff {cs body : List Char} :
    unwrap? cs = some body ↔ cs = '$' :: '{' :: (body ++ ['}']) := by
  constructor
  · intro h
    unfold unwrap? at h
    split at h
    · rename_i more
      split at h
      · rename_i reversed heq
        obtain rfl := Option.some.inj h
        rw [← List.reverse_reverse more, heq, List.reverse_cons]
      · exact absurd h (by simp)
    · exact absurd h (by simp)
  · rintro rfl
    simp [unwrap?]

/-- The text without its wrapper is what it holds. -/
theorem stripWrapper_iff {s : String} {cs : List Char} :
    stripWrapper s = String.ofList cs ↔ Holds s cs := by
  unfold stripWrapper Holds
  simp only
  cases hu : unwrap? (trim s.toList) with
  | some body =>
    have heq := unwrap?_eq_some_iff.mp hu
    rw [heq]
    constructor
    · intro h
      exact .inl ⟨body, rfl, (String.ofList_injective h).symm⟩
    · rintro (⟨body', hbody, rfl⟩ | ⟨hnone, -⟩)
      · obtain rfl : body = body' := by simpa using hbody
        rfl
      · exact absurd ⟨body, rfl⟩ hnone
  | none =>
    have hnone : ¬∃ body, trim s.toList = '$' :: '{' :: (body ++ ['}']) := by
      rintro ⟨body, heq⟩
      rw [unwrap?_eq_some_iff.mpr heq] at hu
      exact absurd hu (by simp)
    constructor
    · intro h
      exact .inr ⟨hnone, (String.ofList_injective h).symm⟩
    · rintro (⟨body, hbody, -⟩ | ⟨-, rfl⟩)
      · exact absurd ⟨body, hbody⟩ hnone
      · rfl

/-! ### Runs over placed tokens -/

/-- A run over placed tokens is the run over the tokens, wherever they stand. -/
theorem run_eq_ok_iff {st st' : State} {ts : List Placed} :
    run st ts = .ok st' ↔ (ts.map (·.token)).foldlM step st = some st' := by
  induction ts generalizing st with
  | nil => simp [run]
  | cons t ts ih =>
    simp only [run, List.map_cons, List.foldlM_cons]
    cases hs : step st t.token with
    | none => simp
    | some next => simpa using ih

/-! ### Integers of too many digits -/

theorem isShort_iff {t : Token} :
    t.IsShort ↔ ∀ place ds, integerNumeral? t = some (place, ds) → ds.length ≤ numeralLimit := by
  cases t with
  | number n w f => cases f <;> simp [integerNumeral?, Token.IsShort]
  | _ => simp [integerNumeral?, Token.IsShort]

/-- No integer crashes the reader exactly when all of them are short. -/
theorem hugeNumeral?_eq_none_iff {ts : List Placed} :
    hugeNumeral? ts = none ↔ ∀ t ∈ ts.map (·.token), t.IsShort := by
  simp only [hugeNumeral?, List.findSome?_eq_none_iff, List.forall_mem_map]
  refine forall₂_congr fun t _ => ?_
  rw [isShort_iff]
  constructor
  · intro h place ds hds
    simpa [hds] using h
  · intro h
    split
    · rename_i place ds hds
      simpa using h place ds hds
    · rfl

/-! ### Reading what stands in the wrapper -/

/-- The tokens that the tokenizer finds in a text. -/
def tokensOf (cs : List Char) : List Token := (tokenize cs).1.map (·.token)

section Inner

variable {cs : List Char} {e : Expression}

/-- A text has no other tokens, as far as the grammar goes, than those the tokenizer finds. -/
theorem tokensOf_iff {ts : List Token} (hd : Derives .conditional ts e) :
    Spells ts cs ↔ (tokenize cs).2 = .complete ∧ tokensOf cs = ts := by
  rw [tokensOf, tokenize, tokenizeFrom_iff]
  exact ⟨fun hspells => ⟨hspells, hd.chain⟩, fun h => h.1⟩

theorem renders_iff :
    Renders cs e ↔ (tokenize cs).2 = .complete ∧ Derives .conditional (tokensOf cs) e := by
  constructor
  · rintro ⟨ts, hspells, hd⟩
    obtain ⟨hcomplete, rfl⟩ := (tokensOf_iff hd).mp hspells
    exact ⟨hcomplete, hd⟩
  · rintro ⟨hcomplete, hd⟩
    exact ⟨_, (tokensOf_iff hd).mpr ⟨hcomplete, rfl⟩, hd⟩

theorem rendersWithinLimit_iff :
    RendersWithinLimit cs e ↔ Renders cs e ∧ ∀ t ∈ tokensOf cs, t.IsShort := by
  constructor
  · rintro ⟨ts, hspells, hd, hshort⟩
    obtain ⟨-, rfl⟩ := (tokensOf_iff hd).mp hspells
    exact ⟨⟨_, hspells, hd⟩, hshort⟩
  · rintro ⟨hr, hshort⟩
    obtain ⟨hcomplete, hd⟩ := renders_iff.mp hr
    exact ⟨_, (tokensOf_iff hd).mpr ⟨hcomplete, rfl⟩, hd, hshort⟩

/-- What the reader does with a rendering: it is read, unless some integer is too long. -/
theorem parseInner_of_renders (h : Renders cs e) :
    parseInner cs =
      match hugeNumeral? (tokenize cs).1 with
      | some crash => .error (.crash crash)
      | none => .ok e := by
  obtain ⟨hcomplete, hd⟩ := renders_iff.mp h
  obtain ⟨st, hrun, hfinish⟩ := (derives_iff_finish hd.chain).mp hd
  have hrun' : run (.operand []) (tokenize cs).1 = .ok st := run_eq_ok_iff.mpr hrun
  unfold parseInner
  cases hh : hugeNumeral? (tokenize cs).1 <;> simp only [hrun', hcomplete, hfinish, hh]

/-- A text that is not malformed is a rendering of something. -/
theorem renders_or_malformed (cs : List Char) :
    (∃ e, Renders cs e) ∨ ∃ fault text position,
      parseInner cs = .error (.expression (.malformed fault text position)) := by
  unfold parseInner
  simp only
  split
  · exact .inr ⟨_, _, _, rfl⟩
  · rename_i st hrun
    split
    · exact .inr ⟨_, _, _, rfl⟩
    · exact .inr ⟨_, _, _, rfl⟩
    · rename_i hcomplete
      split
      · exact .inr ⟨_, _, _, rfl⟩
      · rename_i e hfinish
        have hchain : Chain .operand (tokensOf cs) := (spells_of_complete hcomplete).2
        have hd := (derives_iff_finish hchain).mpr ⟨st, run_eq_ok_iff.mp hrun, hfinish⟩
        exact .inl ⟨e, renders_iff.mpr ⟨hcomplete, hd⟩⟩

/-- The reader returns exactly the renderings whose integers are short. -/
theorem parseInner_eq_ok_iff : parseInner cs = .ok e ↔ RendersWithinLimit cs e := by
  rw [rendersWithinLimit_iff]
  constructor
  · intro h
    rcases renders_or_malformed cs with ⟨e', hr⟩ | ⟨fault, text, position, hbad⟩
    · have hread := parseInner_of_renders hr
      rw [h] at hread
      split at hread
      · exact absurd hread (by simp)
      · rename_i hhuge
        obtain rfl := Except.ok.inj hread
        exact ⟨hr, hugeNumeral?_eq_none_iff.mp hhuge⟩
    · exact absurd (h.symm.trans hbad) (by simp)
  · rintro ⟨hr, hshort⟩
    rw [parseInner_of_renders hr, hugeNumeral?_eq_none_iff.mpr hshort]

/-- The reader calls exactly those texts malformed that are renderings of nothing. -/
theorem parseInner_malformed_iff :
    (∃ fault text position,
      parseInner cs = .error (.expression (.malformed fault text position))) ↔
      ∀ e, ¬Renders cs e := by
  constructor
  · rintro ⟨fault, text, position, hbad⟩ e hr
    have hread := parseInner_of_renders hr
    rw [hbad] at hread
    split at hread <;> exact absurd hread (by simp)
  · intro hnone
    rcases renders_or_malformed cs with ⟨e, hr⟩ | hbad
    · exact absurd hr (hnone e)
    · exact hbad

/-- The empty text is a rendering of nothing: no expression has no tokens. -/
theorem not_renders_nil : ¬Renders [] e := by
  intro h
  obtain ⟨-, hd⟩ := renders_iff.mp h
  have hnil : tokensOf [] = [] := by
    rw [tokensOf, tokenize, tokenizeFrom_blank rfl]
    rfl
  obtain ⟨st, hrun, hfinish⟩ := (derives_iff_finish hd.chain).mp hd
  rw [hnil] at hrun
  obtain rfl := Option.some.inj hrun
  exact absurd hfinish (by simp [finish])

end Inner

/-! ### Reading a text -/

section Reading

variable {s : String} {cs : List Char}

/-- What the reader does with a text is what it does with what the text holds, except that it
calls the empty text by its name. -/
theorem parse_of_holds (h : Holds s cs) :
    parse s =
      if cs = [] then .error (.expression (.malformed .empty s 0)) else parseInner cs := by
  have hstrip := stripWrapper_iff.mpr h
  unfold parse
  simp only [hstrip]
  by_cases hcs : cs = []
  · simp [hcs]
  · have hne : (String.ofList cs == "") = false := by
      rw [beq_eq_false_iff_ne]
      intro he
      exact hcs (by simpa using congrArg String.toList he)
    simp [hne, hcs]

theorem exists_holds (s : String) : ∃ cs, Holds s cs :=
  ⟨(stripWrapper s).toList, stripWrapper_iff.mp (by simp)⟩

theorem Holds.unique {cs' : List Char} (h : Holds s cs) (h' : Holds s cs') : cs = cs' :=
  String.ofList_injective ((stripWrapper_iff.mpr h).symm.trans (stripWrapper_iff.mpr h'))

theorem parse_eq_ok_iff (h : Holds s cs) {e : Expression} :
    parse s = .ok e ↔ RendersWithinLimit cs e := by
  rw [parse_of_holds h]
  split
  · rename_i hcs
    rw [rendersWithinLimit_iff, hcs]
    constructor
    · intro hok
      exact absurd hok (by simp)
    · rintro ⟨hr, -⟩
      exact absurd hr not_renders_nil
  · exact parseInner_eq_ok_iff

theorem parse_malformed_iff (h : Holds s cs) :
    (∃ fault text position, parse s = .error (.expression (.malformed fault text position))) ↔
      ∀ e, ¬Renders cs e := by
  rw [parse_of_holds h]
  split
  · rename_i hcs
    rw [hcs]
    exact ⟨fun _ _ => not_renders_nil, fun _ => ⟨_, _, _, rfl⟩⟩
  · exact parseInner_malformed_iff

/-- **Reading accepts exactly the renderings**, and builds the expression that is rendered. A
text is read as an expression just when what stands in it, wrapper and blanks aside, is a
rendering of that expression whose integers are not too long; and it is malformed just when
what stands in it is a rendering of no expression at all. -/
theorem parse_iff_rendering (s : String) :
    (∀ e, parse s = .ok e ↔ ∃ cs, Holds s cs ∧ RendersWithinLimit cs e) ∧
      ((∃ fault text position,
          parse s = .error (.expression (.malformed fault text position))) ↔
        ∀ cs, Holds s cs → ∀ e, ¬Renders cs e) := by
  obtain ⟨cs, hcs⟩ := exists_holds s
  refine ⟨fun e => ?_, ?_⟩
  · rw [parse_eq_ok_iff hcs]
    constructor
    · intro hr
      exact ⟨cs, hcs, hr⟩
    · rintro ⟨cs', hcs', hr⟩
      exact hcs.unique hcs' ▸ hr
  · rw [parse_malformed_iff hcs]
    constructor
    · intro hnone cs' hcs'
      exact hcs.unique hcs' ▸ hnone
    · intro hnone
      exact hnone cs hcs

end Reading

end ApiSuite.Expression
