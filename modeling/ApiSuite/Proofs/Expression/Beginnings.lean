import ApiSuite.Proofs.Expression.Reading
import ApiSuite.Proofs.Expression.Spelling

/-!
# Beginnings of expressions

A text of whole tokens is a **beginning** (`ApiSuite.Expression.IsBeginning`) if tokens can follow
that make an expression of it. Said in this way it is a matter of the grammar alone. The pass over
the tokens has no look at what the grammar could still do with them, and yet it goes on exactly as
long as they begin something (`ApiSuite.Expression.begins_iff`): no token is taken that leads
nowhere.

What makes this true is that every stack can be emptied. The frames are closed from the innermost
out, each by the shortest thing that it waits for, which is a closing parenthesis, a colon with an
operand, or nothing (`ApiSuite.Expression.Waiting.completed`). These tokens have a text, and so a
beginning is continued to a text that is read (`ApiSuite.Expression.IsBeginning.continued`).
-/

namespace ApiSuite.Expression

open Text

/-! ### From tighter to looser -/

section Loosen

variable {l : Level} {ts : List Token} {e : Expression}

theorem Derives.toUnary (h : Derives l ts e) (hl : Level.unary.rank ≤ l.rank) :
    Derives .unary ts e := by
  cases l with
  | primary => exact .ofPrimary h
  | unary => exact h
  | _ => exact absurd hl (by decide)

theorem Derives.toComparison (h : Derives l ts e) (hl : Level.comparison.rank ≤ l.rank) :
    Derives .comparison ts e := by
  cases l with
  | primary | unary => exact .ofUnary (h.toUnary (by decide))
  | comparison => exact h
  | _ => exact absurd hl (by decide)

theorem Derives.toConjunction (h : Derives l ts e) (hl : Level.conjunction.rank ≤ l.rank) :
    Derives .conjunction ts e := by
  cases l with
  | primary | unary | comparison => exact .ofComparison (h.toComparison (by decide))
  | conjunction => exact h
  | _ => exact absurd hl (by decide)

theorem Derives.toDisjunction (h : Derives l ts e) (hl : Level.disjunction.rank ≤ l.rank) :
    Derives .disjunction ts e := by
  cases l with
  | primary | unary | comparison | conjunction => exact .ofConjunction (h.toConjunction (by decide))
  | disjunction => exact h
  | conditional => exact absurd hl (by decide)

/-- **What is derived at any level is derived at the loosest.** -/
theorem Derives.toConditional (h : Derives l ts e) : Derives .conditional ts e := by
  cases l with
  | conditional => exact h
  | _ => exact .ofDisjunction (h.toDisjunction (by decide))

/-- What fits on a stack is as tight as the place asks for, or it is a unary. -/
theorem Fits.rank_le {stack : List Frame} (h : Fits l stack) :
    (hole stack).rank ≤ l.rank ∨ Level.unary.rank ≤ l.rank := by
  cases l with
  | primary | unary => exact .inr (by decide)
  | _ => exact .inl h

end Loosen

/-! ### Tokens that have a text -/

theorem Spells.append {ts us : List Token} {cs ds : List Char} (h : Spells ts cs)
    (h' : Spells us ds) : Spells (ts ++ us) (cs ++ ds) := by
  induction h with
  | @nil blanks hblanks =>
    -- the blanks at the end of the one text are blanks before the first token of the other
    cases h' with
    | nil hds => exact .nil fun c hc => (List.mem_append.mp hc).elim (hblanks c) (hds c)
    | @cons u us blanks' sp rest hblanks' hsp hrest =>
      rw [← List.append_assoc]
      exact .cons (fun c hc => (List.mem_append.mp hc).elim (hblanks c) (hblanks' c)) hsp hrest
  | cons hblanks hsp _ ih =>
    simp only [List.append_assoc, List.cons_append]
    exact .cons hblanks hsp ih

/-- Tokens that some text spells, and that no numeral of too many digits is among. -/
structure Writable (ts : List Token) : Prop where
  text : ∃ cs, Spells ts cs
  short : ∀ t ∈ ts, t.IsShort

section Writable

variable {t : Token} {ts us : List Token} {cs : List Char}

theorem writable_nil : Writable [] :=
  ⟨⟨[], .nil (by simp)⟩, by simp⟩

theorem Writable.cons (h : Writable ts) (hsp : t.Spelled cs) (ht : t.IsShort) :
    Writable (t :: ts) := by
  obtain ⟨rest, hrest⟩ := h.text
  exact ⟨⟨cs ++ rest, .token hsp hrest⟩, List.forall_mem_cons.mpr ⟨ht, h.short⟩⟩

theorem Writable.append (h : Writable ts) (h' : Writable us) : Writable (ts ++ us) := by
  obtain ⟨cs, hcs⟩ := h.text
  obtain ⟨ds, hds⟩ := h'.text
  exact ⟨⟨cs ++ ds, hcs.append hds⟩, List.forall_mem_append.mpr ⟨h.short, h'.short⟩⟩

end Writable

/-! ### Emptying a stack

The shortest operand is a name of one letter. It stands wherever an operand is still to come. -/

/-- A name of one letter. -/
def letter : String := String.ofList ['a']

theorem letter_spelled : (Token.name letter).Spelled ['a'] :=
  .name (by decide) (by simp)

theorem derives_letter : Derives .primary [.name letter] (.path letter []) :=
  .path (by simp [IsReserved, letter]) .nil

/-- **What waits can be completed.** Whatever stands in the place of a stack, some tokens after it
make an expression of it and all that the stack stands for. -/
theorem Waiting.completed {stack : List Frame} {ts : List Token} (h : Waiting stack ts) :
    ∀ {l : Level} {vs : List Token} {e : Expression}, Fits l stack → Derives l vs e →
      ∃ us e', Writable us ∧ Derives .conditional (ts ++ vs ++ us) e' := by
  -- on the frames from the innermost out: each takes the operand, and what it becomes fits below
  induction h with
  | start =>
    intro l vs e _ hd
    exact ⟨[], e, writable_nil, by simpa using hd.toConditional⟩
  | paren _ ih =>
    intro l vs e _ hd
    obtain ⟨us, e', hus, hd'⟩ := ih (l := .primary) trivial (.parens hd.toConditional)
    exact ⟨.closeParen :: us, e', hus.cons .closeParen trivial, by simpa using hd'⟩
  | negation _ ih =>
    intro l vs e hfits hd
    have hunary : Level.unary.rank ≤ l.rank := hfits.rank_le.elim Nat.le_of_succ_le id
    obtain ⟨us, e', hus, hd'⟩ := ih (l := .unary) trivial (.negation (hd.toUnary hunary))
    exact ⟨us, e', hus, by simpa using hd'⟩
  | comparison op _ hs hl ih =>
    intro l vs e hfits hd
    have hunary : Level.unary.rank ≤ l.rank := hfits.rank_le.elim id id
    obtain ⟨us, e', hus, hd'⟩ := ih (l := .comparison) hs (.comparison op hl (hd.toUnary hunary))
    exact ⟨us, e', hus, by simpa using hd'⟩
  | conjunction _ hs hl ih =>
    intro l vs e hfits hd
    have hcomparison : Level.comparison.rank ≤ l.rank := hfits.rank_le.elim id Nat.le_of_succ_le
    obtain ⟨us, e', hus, hd'⟩ :=
      ih (l := .conjunction) hs (.conjunction hl (hd.toComparison hcomparison))
    exact ⟨us, e', hus, by simpa using hd'⟩
  | disjunction _ hs hl ih =>
    intro l vs e hfits hd
    have hconjunction : Level.conjunction.rank ≤ l.rank :=
      hfits.rank_le.elim id fun h => Nat.le_trans (by decide) h
    obtain ⟨us, e', hus, hd'⟩ :=
      ih (l := .disjunction) hs (.disjunction hl (hd.toConjunction hconjunction))
    exact ⟨us, e', hus, by simpa using hd'⟩
  | ifTrue _ hs hc ih =>
    -- the operand is the value if the condition holds, and a letter is the other one
    intro l vs e _ hd
    obtain ⟨us, e', hus, hd'⟩ := ih (l := .conditional) hs
      (.conditional hc hd.toConditional derives_letter.toConditional)
    refine ⟨.colon :: .name letter :: us, e', ?_, by simpa using hd'⟩
    exact (hus.cons letter_spelled trivial).cons .colon trivial
  | ifFalse _ hs hc ha ih =>
    intro l vs e _ hd
    obtain ⟨us, e', hus, hd'⟩ := ih (l := .conditional) hs (.conditional hc ha hd.toConditional)
    exact ⟨us, e', hus, by simpa using hd'⟩

/-- The accessor that has been begun can be completed. -/
theorem PathReads.completed {m : Mode} {reversed : List Segment} {vs : List Token}
    (h : PathReads reversed vs m) : ∃ ws segments, Writable ws ∧ Accessors (vs ++ ws) segments := by
  cases m with
  | operand => exact h.elim
  | operator => exact h.elim
  | accessor =>
    refine ⟨[], reversed.reverse, writable_nil, ?_⟩
    rw [List.append_nil]
    exact h
  | member => exact ⟨_, _, writable_nil.cons letter_spelled trivial, h letter⟩
  | subscript =>
    refine ⟨[.key letter, .closeBracket], _, ?_, h.2 letter⟩
    have hkey : (Token.key letter).Spelled ['\'', 'a', '\''] := .key (.single (by simp))
    exact (writable_nil.cons .closeBracket trivial).cons hkey trivial
  | closing => exact ⟨_, _, writable_nil.cons .closeBracket trivial, h⟩

/-- **Every state can be completed**: some tokens after those read so far make an expression. -/
theorem State.Reads.completed {m : Mode} {st : State} {ts : List Token} (h : st.Reads m ts) :
    ∃ us e, Writable us ∧ Derives .conditional (ts ++ us) e := by
  cases st with
  | operand stack =>
    obtain ⟨-, hw⟩ := h
    obtain ⟨us, e, hus, hd⟩ := hw.completed (l := .primary) trivial derives_letter
    exact ⟨.name letter :: us, e, hus.cons letter_spelled trivial, by simpa using hd⟩
  | operator stack a =>
    obtain ⟨-, us, vs, rfl, hw, -, ha⟩ := h
    obtain ⟨ws, e, hws, hd⟩ := hw.completed (l := .unary) trivial ha
    exact ⟨ws, e, hws, by simpa using hd⟩
  | path stack root reversed whole =>
    obtain ⟨-, us, vs, rfl, hw, hroot, hv⟩ := h
    obtain ⟨ws, segments, hws, ha⟩ := hv.completed
    obtain ⟨ws', e, hws', hd⟩ := hw.completed (l := .primary) trivial (.path hroot ha)
    exact ⟨ws ++ ws', e, hws.append hws', by simpa using hd⟩

/-! ### Tokens that begin an expression -/

theorem Chain.of_append {m : Mode} {ts us : List Token} (h : Chain m (ts ++ us)) : Chain m ts := by
  induction ts generalizing m with
  | nil => exact .nil m
  | cons t ts ih =>
    cases h with
    | cons hm hc => exact .cons hm (ih hc)

/-- What a run can end in after tokens that chain can be completed. -/
theorem completed_of_run {ts : List Token} (hc : Chain .operand ts)
    (hr : (ts.foldlM step (.operand [])).isSome) :
    ∃ us e, Writable us ∧ Derives .conditional (ts ++ us) e := by
  obtain ⟨st, hst⟩ := Option.isSome_iff_exists.mp hr
  have h0 : (State.operand []).Reads .operand [] := ⟨rfl, .start⟩
  obtain ⟨m, h⟩ := h0.foldlM hc hst
  exact h.completed

/-- **The automaton goes on exactly as long as the tokens begin an expression.** -/
theorem begins_iff {ts : List Token} :
    (∃ us e, Derives .conditional (ts ++ us) e) ↔
      Chain .operand ts ∧ (ts.foldlM step (.operand [])).isSome := by
  constructor
  · rintro ⟨us, e, hd⟩
    refine ⟨hd.chain.of_append, ?_⟩
    obtain ⟨st, hrun, -⟩ := (derives_iff_finish hd.chain).mp hd
    rw [List.foldlM_append] at hrun
    obtain ⟨st', hst', -⟩ := Option.bind_eq_some_iff.mp hrun
    exact Option.isSome_iff_exists.mpr ⟨st', hst'⟩
  · rintro ⟨hc, hr⟩
    obtain ⟨us, e, -, hd⟩ := completed_of_run hc hr
    exact ⟨us, e, hd⟩

/-! ### Texts that begin an expression -/

/-- **A beginning of an expression**: a text of whole tokens which some tokens, put after them,
make an expression of. -/
def IsBeginning (cs : List Char) : Prop :=
  ∃ ts us e, Spells ts cs ∧ Derives .conditional (ts ++ us) e

/-- A text of tokens that the automaton takes one after the other, from a state in a mode. -/
def Accepted (m : Mode) (st : State) (cs : List Char) : Prop :=
  ∃ ts, Spells ts cs ∧ Chain m ts ∧ (ts.foldlM step st).isSome

section Texts

variable {cs : List Char} {ts : List Token} {e : Expression}

theorem isBeginning_iff : IsBeginning cs ↔ Accepted .operand (.operand []) cs := by
  constructor
  · rintro ⟨ts, us, e, hcs, hd⟩
    exact ⟨ts, hcs, begins_iff.mp ⟨us, e, hd⟩⟩
  · rintro ⟨ts, hcs, h⟩
    obtain ⟨us, e, hd⟩ := begins_iff.mpr h
    exact ⟨ts, us, e, hcs, hd⟩

/-- A spelling has no wrapper around it: the brace that opens one would stand in no quotation. -/
theorem Spells.holds (h : Spells ts cs) : Holds (String.ofList cs) (Text.trim cs) := by
  refine .inr ⟨?_, by simp⟩
  rintro ⟨body, hbody⟩
  rw [String.toList_ofList] at hbody
  have htrim : Spells ts (['$'] ++ '{' :: (body ++ ['}'])) := by
    rw [List.singleton_append, ← hbody]
    exact h.trim
  exact htrim.quoted (.inl rfl) (by decide)

/-- What spells a derivation is read, if its integers are short. -/
theorem parse_of_spells (h : Spells ts cs) (hd : Derives .conditional ts e)
    (hshort : ∀ t ∈ ts, t.IsShort) : parse (String.ofList cs) = .ok e :=
  (parse_eq_ok_iff h.holds).mpr ⟨ts, h.trim, hd, hshort⟩

/-- **A beginning goes on to a rendering.** The text of the two is read as well, unless the
beginning itself has an integer of more digits than numerals may have. -/
theorem IsBeginning.continued (h : IsBeginning cs) :
    ∃ rest e, Renders (cs ++ rest) e ∧
      (parse (String.ofList (cs ++ rest)) = .ok e ∨ ∃ ts, Spells ts cs ∧ ∃ t ∈ ts, ¬t.IsShort) := by
  obtain ⟨ts, hcs, hc, hr⟩ := isBeginning_iff.mp h
  obtain ⟨us, e, hus, hd⟩ := completed_of_run hc hr
  obtain ⟨rest, hrest⟩ := hus.text
  have hspells := hcs.append hrest
  refine ⟨rest, e, ⟨_, hspells, hd⟩, ?_⟩
  by_cases hshort : ∀ t ∈ ts, t.IsShort
  · exact .inl (parse_of_spells hspells hd (List.forall_mem_append.mpr ⟨hshort, hus.short⟩))
  · push Not at hshort
    exact .inr ⟨ts, hcs, hshort⟩

end Texts

end ApiSuite.Expression
