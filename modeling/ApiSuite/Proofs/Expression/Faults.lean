import ApiSuite.Proofs.Expression.Beginnings

/-!
# Where an expression goes wrong

A text that is no expression is malformed, and the error has a place. This place is put here in
terms of the grammar: it is the end of the longest part of the text that is a beginning of an
expression (`ApiSuite.Expression.IsBeginning`). The reader, which cuts off one token after the
other and never goes back, stops just there (`ApiSuite.Expression.exists_longest`).

That it does not stop too late is `ApiSuite.Expression.begins_iff`. That it does not stop too early
is no matter of course, since it takes each token as long as it can, where the grammar would let it
be cut at any character. A token that is cut short is the first part of the one that is taken, and
the automaton has a step for the first only if it has one for the second
(`ApiSuite.Expression.State.Reads.step_longer`).

The position in the error is a column, however: it is counted from the last line feed before the
place. It is the offset of the place in the text only where no line feed stands before it.
-/

namespace ApiSuite.Expression

open Text

/-! ### Tokens that go on

What is spelled need not be what is read, for the text after it may prolong it. But something is
read then, and it takes no less of the text. -/

section Longer

variable {sp x ds : List Char} {t : Token}

theorem length_dropWhile_append_le {p : Char → Bool} (h : ∀ c ∈ sp, p c) :
    ((sp ++ x).dropWhile p).length ≤ x.length := by
  rw [List.dropWhile_append_of_pos h]
  exact List.length_dropWhile_le p x

theorem name?_longer {s : String} (h : (Token.name s).Spelled sp) :
    ∃ s' rest, name? (sp ++ x) = some (s', rest) ∧ rest.length ≤ x.length := by
  cases h with
  | name hc hcs =>
    exact ⟨_, _, by rw [List.cons_append, name?, if_pos (isNameStart_iff.mpr hc)],
      length_dropWhile_append_le (isNamePart_of_continuesName hcs)⟩

theorem digits?_longer (h : IsNumeral ds) :
    ∃ ds' rest, digits? (ds ++ x) = some (ds', rest) ∧ rest.length ≤ x.length := by
  refine ⟨(ds ++ x).takeWhile isDecimalDigit, (ds ++ x).dropWhile isDecimalDigit, ?_,
    length_dropWhile_append_le h.isDecimalDigit⟩
  rw [digits?]
  split
  · rename_i hnil
    rw [List.takeWhile_append_of_pos h.isDecimalDigit] at hnil
    exact absurd (List.append_eq_nil_iff.mp hnil).1 h.1
  · rfl

theorem unsigned?_longer {negative : Bool} (h : IsNumeral ds) :
    ∃ t rest, unsigned? negative (ds ++ x) = some (t, rest) ∧ rest.length ≤ x.length := by
  obtain ⟨ds', rest, hds, hle⟩ := digits?_longer (x := x) h
  simp only [unsigned?, hds]
  split
  · -- a point follows, and it belongs to the number if a digit comes after it
    rename_i more
    rw [List.length_cons] at hle
    split
    · rename_i fraction rest' hf
      have := digits?_length hf
      exact ⟨_, _, rfl, by omega⟩
    · exact ⟨_, _, rfl, hle⟩
  · exact ⟨_, _, rfl, hle⟩

theorem number?_longer {n : Bool} {w : List Char} {f : Option (List Char)}
    (h : (Token.number n w f).Spelled sp) :
    ∃ t rest, number? (sp ++ x) = some (t, rest) ∧ rest.length ≤ x.length := by
  cases h with
  | integer hw =>
    rw [List.append_assoc, number?_sign hw.append_ne_minus]
    exact unsigned?_longer hw
  | @decimal _ _ f hw hf =>
    have hstops : Stops isDecimalDigit ('.' :: (f ++ x)) := by
      rintro c ⟨⟩
      decide
    obtain ⟨f', rest, hf', hle⟩ := digits?_longer (x := x) hf
    refine ⟨.number n w (some f'), rest, ?_, hle⟩
    rw [show signChars n ++ w ++ '.' :: f ++ x = signChars n ++ (w ++ '.' :: (f ++ x)) by simp,
      number?_sign hw.append_ne_minus, unsigned?, digits?_append hw hstops]
    simp only [hf']

theorem operand?_longer (hm : Mode.operand.Admits t) (hsp : t.Spelled sp) :
    ∃ t' rest, operand? (sp ++ x) = some (t', rest) ∧ rest.length ≤ x.length := by
  cases t with
  | name s =>
    obtain ⟨s', rest, hname, hle⟩ := name?_longer (x := x) hsp
    exact ⟨_, rest, operand?_word hname, hle⟩
  | constant v =>
    obtain ⟨s, hs, -⟩ := constant_spelled hsp
    obtain ⟨s', rest, hname, hle⟩ := name?_longer (x := x) hs
    exact ⟨_, rest, operand?_word hname, hle⟩
  | number n w f =>
    obtain ⟨t', rest, hnumber, hle⟩ := number?_longer (x := x) hsp
    exact ⟨t', rest, operand?_number hsp hnumber, hle⟩
  | text | not | openParen => exact ⟨_, x, operand?_append hm hsp trivial, Nat.le_refl _⟩
  | _ => exact hm.elim

/-- Only an equals sign prolongs a comparison, and what it makes of it is one again. -/
theorem operator?_comparison_longer (op : Comparison) :
    ∃ op' rest, operator? (op.spelling.toList ++ x) = some (.comparison op', rest) ∧
      rest.length ≤ x.length := by
  by_cases hx : Stops (· == '=') x
  · exact ⟨op, x, operator?_comparison op hx, Nat.le_refl _⟩
  · obtain ⟨more, rfl⟩ : ∃ more, x = '=' :: more := by
      cases x with
      | nil => exact absurd (by simp [Stops]) hx
      | cons c more =>
        have hc : c = '=' := by simpa [Stops] using hx
        exact ⟨more, by rw [hc]⟩
    have hle : more.length ≤ ('=' :: more).length := by simp
    rcases op with - | - | - | - | (- | - | - | -)
    · exact ⟨.strictlyEqual, more, rfl, hle⟩
    · exact ⟨.strictlyEqual, _, rfl, Nat.le_refl _⟩
    · exact ⟨.strictlyUnequal, more, rfl, hle⟩
    · exact ⟨.strictlyUnequal, _, rfl, Nat.le_refl _⟩
    · exact ⟨.ordered .lessOrEqual, more, rfl, hle⟩
    · exact ⟨.ordered .lessOrEqual, _, rfl, Nat.le_refl _⟩
    · exact ⟨.ordered .greaterOrEqual, more, rfl, hle⟩
    · exact ⟨.ordered .greaterOrEqual, _, rfl, Nat.le_refl _⟩

/-- After an operand, what is read in place of a token is the token, or both are comparisons. -/
theorem operator?_longer (hm : Mode.operator.Admits t) (hsp : t.Spelled sp) :
    ∃ t' rest, operator? (sp ++ x) = some (t', rest) ∧ rest.length ≤ x.length ∧
      (t' = t ∨ ∃ op op', t = .comparison op ∧ t' = .comparison op') := by
  cases t with
  | comparison op =>
    cases hsp
    obtain ⟨op', rest, hread, hle⟩ := operator?_comparison_longer (x := x) op
    exact ⟨_, rest, hread, hle, .inr ⟨op, op', rfl, rfl⟩⟩
  | or | and | question | colon | closeParen =>
    exact ⟨_, x, operator?_append hm hsp trivial, Nat.le_refl _, .inl rfl⟩
  | _ => exact hm.elim

end Longer

/-! ### Steps over tokens that go on -/

section Steps

variable {st : State} {m : Mode} {ts : List Token} {t : Token} {sp x : List Char}

/-- Where an operand is to come, every token that belongs there has a step. -/
theorem State.Reads.step_operand (h : st.Reads .operand ts) (hm : Mode.operand.Admits t) :
    (Expression.step st t).isSome := by
  cases st with
  | operand stack => cases t <;> first | rfl | exact hm.elim
  | operator stack e => exact absurd h.1 (by simp)
  | path stack root reversed whole =>
    obtain ⟨-, us, vs, -, -, -, hv⟩ := h
    exact hv.elim

/-- The automaton does not tell one comparison from another. -/
theorem step_comparison_isSome (st : State) (op op' : Comparison) :
    (step st (.comparison op)).isSome = (step st (.comparison op')).isSome := by
  have hstep : ∀ stack e, (stepOperator stack e (.comparison op)).isSome =
      (stepOperator stack e (.comparison op')).isSome := by
    intro stack e
    simp only [stepOperator]
    split <;> rfl
  cases st with
  | operand stack => rfl
  | operator stack e => exact hstep stack e
  | path stack root reversed whole =>
    cases whole with
    | false => rfl
    | true => exact hstep _ _

/-- After an operand, what goes on has a step if the token has one. -/
theorem operator?_step_longer (hm : Mode.operator.Admits t) (hsp : t.Spelled sp)
    (hs : (step st t).isSome) :
    ∃ t' rest, operator? (sp ++ x) = some (t', rest) ∧ rest.length ≤ x.length ∧
      (step st t').isSome := by
  obtain ⟨t', rest, hread, hle, rfl | ⟨op, op', rfl, rfl⟩⟩ := operator?_longer (x := x) hm hsp
  · exact ⟨t', rest, hread, hle, hs⟩
  · exact ⟨_, rest, hread, hle, step_comparison_isSome st op op' ▸ hs⟩

/-- A path takes every name and every index. -/
theorem State.Reads.step_segment (h : st.Reads m ts) (hm : m = .member ∨ m = .subscript)
    (ht : (∃ s, t = .name s) ∨ ∃ ds, t = .index ds) : (Expression.step st t).isSome := by
  cases st with
  | operand stack =>
    obtain ⟨rfl, -⟩ := h
    exact absurd hm (by simp)
  | operator stack e =>
    obtain ⟨rfl, -⟩ := h
    exact absurd hm (by simp)
  | path stack root reversed whole => rcases ht with ⟨s, rfl⟩ | ⟨ds, rfl⟩ <;> rfl

/-- **A token that is cut short has a step only if the whole one has.** Where a token that
belongs to a state is spelled, and has a step, something is read that has a step as well and takes
no less of the text. -/
theorem State.Reads.step_longer (h : st.Reads m ts) (hm : m.Admits t) (hsp : t.Spelled sp)
    (hs : (Expression.step st t).isSome) :
    ∃ t' rest, token? m (sp ++ x) = some (t', rest) ∧ rest.length ≤ x.length ∧
      (Expression.step st t').isSome := by
  cases m with
  | operand =>
    obtain ⟨t', rest, hread, hle⟩ := operand?_longer (x := x) hm hsp
    obtain ⟨-, -, -, hm'⟩ := operand?_eq_some hread
    exact ⟨t', rest, hread, hle, h.step_operand hm'⟩
  | operator => exact operator?_step_longer hm hsp hs
  | accessor =>
    rcases hm.accessor_cases with ho | rfl | rfl
    · rw [token?_accessor ho hsp]
      exact operator?_step_longer ho hsp hs
    all_goals exact ⟨_, x, token?_append hm hsp trivial, Nat.le_refl _, hs⟩
  | member =>
    cases t with
    | name s =>
      obtain ⟨s', rest, hread, hle⟩ := name?_longer (x := x) hsp
      exact ⟨.name s', rest, by rw [token?, hread]; rfl, hle,
        h.step_segment (.inl rfl) (.inl ⟨s', rfl⟩)⟩
    | _ => exact hm.elim
  | subscript =>
    cases t with
    | index ds =>
      cases hsp with
      | index hds =>
        obtain ⟨ds', rest, hread, hle⟩ := digits?_longer (x := x) hds
        exact ⟨.index ds', rest, by rw [token?, hread], hle,
          h.step_segment (.inr rfl) (.inr ⟨ds', rfl⟩)⟩
    | key s => exact ⟨_, x, token?_append hm hsp trivial, Nat.le_refl _, hs⟩
    | _ => exact hm.elim
  | closing =>
    cases t with
    | closeBracket => exact ⟨_, x, token?_append hm hsp trivial, Nat.le_refl _, hs⟩
    | _ => exact hm.elim

end Steps

/-! ### What begins with a token -/

/-- Whether some token, of any mode, is spelled at the head of a text. -/
def BeginsWithToken (cs : List Char) : Prop :=
  ∃ (t : Token) (sp rest : List Char), cs = sp ++ rest ∧ t.Spelled sp

section BeginsWithToken

variable {t : Token} {sp x cs : List Char}

theorem beginsToken_of_operand (hsp : t.Spelled sp) (hm : Mode.operand.Admits t) :
    beginsToken (sp ++ x) := by
  obtain ⟨t', rest, hread, -⟩ := operand?_longer (x := x) hm hsp
  simp [beginsToken, hread]

theorem beginsToken_of_operator (hsp : t.Spelled sp) (hm : Mode.operator.Admits t) :
    beginsToken (sp ++ x) := by
  obtain ⟨t', rest, hread, -⟩ := operator?_longer (x := x) hm hsp
  simp [beginsToken, hread]

/-- A token of any mode is taken for one, if need be for one of another mode. -/
theorem beginsToken_of_spelled (hsp : t.Spelled sp) : beginsToken (sp ++ x) := by
  cases t with
  | name s =>
    obtain ⟨hword, hm⟩ := ofWord_spelled hsp
    exact beginsToken_of_operand hword hm
  | number n w f => exact beginsToken_of_operand hsp (areDigits_of_spelled hsp)
  | text | constant | not | openParen => exact beginsToken_of_operand hsp trivial
  | comparison | or | and | question | colon | closeParen =>
    exact beginsToken_of_operator hsp trivial
  | dot | openBracket | closeBracket =>
    cases hsp
    simp [beginsToken]
  | key s =>
    cases hsp with
    | key hq => exact beginsToken_of_operand (.text hq) trivial
  | index ds =>
    cases hsp with
    | index hds =>
      have hnumber : (Token.number false sp none).Spelled sp := .integer hds
      exact beginsToken_of_operand hnumber (areDigits_of_spelled hnumber)

theorem beginsToken_iff : beginsToken cs ↔ BeginsWithToken cs := by
  constructor
  · intro h
    simp only [beginsToken, Bool.or_eq_true, Option.isSome_iff_exists] at h
    rcases h with (⟨⟨t, rest⟩, h⟩ | ⟨⟨t, rest⟩, h⟩) | h
    · obtain ⟨sp, rfl, hsp, -⟩ := operand?_eq_some h
      exact ⟨t, sp, rest, rfl, hsp⟩
    · obtain ⟨sp, rfl, hsp, -⟩ := operator?_eq_some h
      exact ⟨t, sp, rest, rfl, hsp⟩
    · split at h
      · exact ⟨_, _, _, rfl, .dot⟩
      · exact ⟨_, _, _, rfl, .openBracket⟩
      · exact ⟨_, _, _, rfl, .closeBracket⟩
      · exact absurd h (by simp)
  · rintro ⟨t, sp, rest, rfl, hsp⟩
    exact beginsToken_of_spelled hsp

end BeginsWithToken

/-! ### How far a state reads -/

/-- The longest first part of a text with a property, and what is left of the text. -/
structure IsLongest (p : List Char → Prop) (before after : List Char) : Prop where
  holds : p before
  longest : ∀ other more, before ++ after = other ++ more → p other → other.length ≤ before.length

section Accepted

variable {m : Mode} {st st' : State} {ts : List Token} {t : Token}
variable {cs blanks body sp rest other more before after : List Char}

theorem accepted_blanks (h : ∀ c ∈ cs, IsWhite c) : Accepted m st cs :=
  ⟨[], .nil h, .nil m, rfl⟩

theorem Accepted.cons (h : Accepted t.next st' rest) (hblanks : ∀ c ∈ blanks, IsWhite c)
    (hsp : t.Spelled sp) (hm : m.Admits t) (hs : step st t = some st') :
    Accepted m st (blanks ++ (sp ++ rest)) := by
  obtain ⟨ts, hrest, hc, hr⟩ := h
  exact ⟨t :: ts, .cons hblanks hsp hrest, .cons hm hc, by simpa [List.foldlM_cons, hs] using hr⟩

/-- What is accepted is blank, or it is a token that has a step before what is accepted then. -/
theorem Accepted.blanks_or_token (h : Accepted m st cs) :
    (∀ c ∈ cs, IsWhite c) ∨ ∃ t blanks sp rest st', cs = blanks ++ (sp ++ rest) ∧
      (∀ c ∈ blanks, IsWhite c) ∧ t.Spelled sp ∧ m.Admits t ∧ step st t = some st' ∧
      Accepted t.next st' rest := by
  obtain ⟨ts, hcs, hc, hr⟩ := h
  cases hcs with
  | nil hblanks => exact .inl hblanks
  | @cons t ts blanks sp rest hblanks hsp hrest =>
    cases hc with
    | cons hm hc =>
      rw [List.foldlM_cons] at hr
      obtain ⟨st', hs⟩ : ∃ st', step st t = some st' := by
        cases hs : step st t with
        | none => simp [hs] at hr
        | some st' => exact ⟨st', rfl⟩
      refine .inr ⟨t, blanks, sp, rest, st', rfl, hblanks, hsp, hm, hs, ts, hrest, hc, ?_⟩
      simpa [hs] using hr

/-- What is accepted after a token does not prolong it. -/
theorem Accepted.ends {c : Char} (h : Accepted t.next st (c :: rest)) (more : List Char) :
    t.Ends (c :: rest ++ more) := by
  obtain ⟨ts, hrest, hc, -⟩ := h
  exact ends_of_head (hrest.head hc)

/-- What is accepted of a text is no longer than the blanks before the first token, or it begins
with a token there. -/
theorem Accepted.first (h : Accepted m st other) (heq : blanks ++ body = other ++ more)
    (hblanks : ∀ c ∈ blanks, IsWhite c) (hstops : Stops isSpace body) :
    other.length ≤ blanks.length ∨ ∃ t sp rest st', other = blanks ++ (sp ++ rest) ∧
      body = sp ++ (rest ++ more) ∧ t.Spelled sp ∧ m.Admits t ∧ step st t = some st' ∧
      Accepted t.next st' rest := by
  have htake := congrArg (List.takeWhile isSpace) heq
  rw [takeWhile_append_of_stops (isSpace_of_isWhite hblanks) hstops] at htake
  rcases h.blanks_or_token with hother | ⟨t, blanks', sp, rest, st', rfl, hblanks', hsp, h'⟩
  · rw [List.takeWhile_append_of_pos (isSpace_of_isWhite hother)] at htake
    rw [htake, List.length_append]
    exact .inl (Nat.le_add_right _ _)
  · rw [List.append_assoc, List.append_assoc] at heq htake
    rw [takeWhile_append_of_stops (isSpace_of_isWhite hblanks')
      (stops_isSpace_of_spelled hsp)] at htake
    subst htake
    exact .inr ⟨t, sp, rest, st', rfl, List.append_cancel_left heq, hsp, h'⟩

/-- If nothing that has a step is read after the blanks, then nothing is accepted but blanks. -/
theorem State.Reads.isLongest_blanks (h : st.Reads m ts) (hblanks : ∀ c ∈ blanks, IsWhite c)
    (hstops : Stops isSpace body)
    (hnone : ∀ t rest, token? m body = some (t, rest) → Expression.step st t = none) :
    IsLongest (Accepted m st) blanks body := by
  refine ⟨accepted_blanks hblanks, fun other more heq ho => ?_⟩
  rcases ho.first heq hblanks hstops with hle | ⟨t, sp, rest, st', rfl, rfl, hsp, hm, hs, -⟩
  · exact hle
  · obtain ⟨t', rest', hread, -, hs'⟩ := h.step_longer hm hsp (hs ▸ rfl)
    rw [hnone t' rest' hread] at hs'
    exact absurd hs' (by simp)

/-- **A token that is read and has a step belongs to the longest part that is accepted**, together
with the longest part accepted after it. -/
theorem State.Reads.isLongest_token (h : st.Reads m ts) (hblanks : ∀ c ∈ blanks, IsWhite c)
    (hsp : t.Spelled sp) (hm : m.Admits t)
    (hread : token? m (sp ++ (before ++ after)) = some (t, before ++ after))
    (hs : Expression.step st t = some st')
    (hlongest : IsLongest (Accepted t.next st') before after) :
    IsLongest (Accepted m st) (blanks ++ (sp ++ before)) after := by
  refine ⟨hlongest.holds.cons hblanks hsp hm hs, fun other more heq ho => ?_⟩
  rw [List.append_assoc, List.append_assoc] at heq
  rcases ho.first heq hblanks (stops_isSpace_of_spelled hsp) with
    hle | ⟨u, sp', rest, st'', rfl, hbody, hsp', hm', hs', hrest⟩
  · simp only [List.length_append]
    omega
  have hlen := congrArg List.length hbody
  simp only [List.length_append] at hlen ⊢
  cases rest with
  | nil =>
    -- the last token may be cut short, but then the one that is read covers it
    obtain ⟨u', rest', hread', hle, -⟩ := h.step_longer (x := more) hm' hsp' (hs' ▸ rfl)
    rw [List.nil_append] at hbody
    obtain ⟨-, rfl⟩ := Prod.mk.inj (Option.some.inj (hread'.symm.trans (hbody ▸ hread)))
    simp only [List.length_append, List.length_nil] at hle hlen ⊢
    omega
  | cons c rest =>
    -- any other token ends where it ends, so it is the one that is read
    have hread' := token?_append hm' hsp' (hrest.ends more)
    rw [← hbody] at hread'
    obtain ⟨rfl, hsame⟩ := Prod.mk.inj (Option.some.inj (hread.symm.trans hread'))
    obtain rfl := Option.some.inj (hs.symm.trans hs')
    have hle := hlongest.longest (c :: rest) more hsame hrest
    have hsame := congrArg List.length hsame
    simp only [List.length_append] at hsame hle ⊢
    omega

end Accepted

/-! ### What is reported -/

/-- The fault of a run over what the tokenizer found, with its offset. There is none if the run
comes to the end of the text. -/
def failure? (st : State) (found : List Placed × Ending) : Option (SyntaxFault × Nat) :=
  match run st found.1, found.2 with
  | .error t, _ => some (.token, t.offset)
  | .ok _, .stuck offset c token => some (if token then .token else .character c, offset)
  | .ok _, .complete => none

section Failure

variable {st : State} {m : Mode} {ts : List Token} {cs : List Char}

theorem failure?_cons {t : Token} {start : Nat} {found : List Placed} {ending : Ending} :
    failure? st (⟨t, start⟩ :: found, ending) =
      match step st t with
      | some st' => failure? st' (found, ending)
      | none => some (.token, start) := by
  unfold failure?
  simp only [run]
  cases step st t <;> rfl

theorem parseInner_of_failure {fault : SyntaxFault} {offset : Nat}
    (h : failure? (.operand []) (tokenize cs) = some (fault, offset)) :
    parseInner cs = .error (faultAt cs fault offset) := by
  unfold failure? at h
  unfold parseInner
  simp only
  split at h
  · rename_i t hrun
    obtain ⟨rfl, rfl⟩ := Prod.mk.inj (Option.some.inj h)
    rw [hrun]
  · rename_i st offset' c token hrun hending
    obtain ⟨rfl, rfl⟩ := Prod.mk.inj (Option.some.inj h)
    rw [hrun, hending]
    cases token <;> rfl
  · exact absurd h (by simp)

/-- What the tokenizer looks at stands after blanks, and does not begin with one. -/
theorem leading_blanks {body : List Char} (h : cs.dropWhile isSpace = body) :
    ∃ blanks, cs = blanks ++ body ∧ (∀ c ∈ blanks, IsWhite c) ∧ Stops isSpace body ∧
      cs.length - body.length = blanks.length := by
  have hcs : cs = cs.takeWhile isSpace ++ body := by rw [← h, List.takeWhile_append_dropWhile]
  refine ⟨cs.takeWhile isSpace, hcs, isWhite_of_mem_takeWhile, fun c hc => ?_, ?_⟩
  · have hhead := List.head?_dropWhile_not isSpace cs
    rw [h, Option.mem_def.mp hc] at hhead
    exact hhead
  · have hlen := congrArg List.length hcs
    rw [List.length_append] at hlen
    omega

/-- **The reader stops at the end of the longest part that is accepted**, and what it reports is
what is left there, if anything: a token if one of any mode begins there, and a character if not. -/
theorem exists_longest (m : Mode) (offset : Nat) (cs : List Char) :
    ∀ {st : State} {ts : List Token}, st.Reads m ts →
      ∃ before after, cs = before ++ after ∧ IsLongest (Accepted m st) before after ∧
        failure? st (tokenizeFrom m offset cs) = after.head?.map fun c =>
          (if beginsToken after then .token else .character c, offset + before.length) := by
  -- on the tokens that are found, each together with the state of the run before it
  fun_induction tokenizeFrom m offset cs
  case case1 m offset cs body hbody =>
    intro st ts h
    obtain ⟨blanks, hcs, hblanks, hstops, -⟩ := leading_blanks hbody
    refine ⟨blanks, [], hcs, h.isLongest_blanks hblanks hstops fun t rest hread => ?_, rfl⟩
    exact absurd (token?_length hread) (Nat.not_lt_zero _)
  case case2 m offset cs body c more hbody start hnone =>
    intro st ts h
    obtain ⟨blanks, hcs, hblanks, hstops, hlen⟩ := leading_blanks hbody
    have hstart : start = offset + blanks.length := by rw [← hlen, ← hbody]
    refine ⟨blanks, _, hcs, h.isLongest_blanks hblanks hstops fun t rest hread => ?_, ?_⟩
    · exact absurd (hnone.symm.trans hread) (by simp)
    · rw [← hstart]
      rfl
  case case3 m offset cs body c more hbody start t rest hread found ending heq ih =>
    intro st ts h
    obtain ⟨blanks, hcs, hblanks, hstops, hlen⟩ := leading_blanks hbody
    have hstart : start = offset + blanks.length := by rw [← hlen, ← hbody]
    obtain ⟨sp, hsp, hspelled, hm⟩ := token?_eq_some hread
    cases hs : step st t with
    | none =>
      -- the token is read, and it is the place: the run ends before it
      refine ⟨blanks, _, hcs, h.isLongest_blanks hblanks hstops fun t' rest' hread' => ?_, ?_⟩
      · obtain ⟨rfl, -⟩ := Prod.mk.inj (Option.some.inj (hread.symm.trans hread'))
        exact hs
      · have hbegins : beginsToken (c :: more) := hsp ▸ beginsToken_of_spelled hspelled
        simp [failure?_cons, hs, hbegins, hstart]
    | some st' =>
      -- the place is that of what follows, behind the blanks and the token
      obtain ⟨before, after, rfl, hlongest, hfault⟩ := ih (h.step hm hs)
      refine ⟨blanks ++ (sp ++ before), after, by simp [hcs, hsp], ?_, ?_⟩
      · exact h.isLongest_token hblanks hspelled hm (hsp ▸ hread) hs hlongest
      · have hplace : start + (body.length - (before ++ after).length) + before.length =
            offset + (blanks ++ (sp ++ before)).length := by
          rw [hstart, hbody, hsp]
          simp only [List.length_append]
          omega
        rw [failure?_cons, hs, ← heq]
        simp only
        rw [hfault, hplace]

end Failure

/-! ### Places and columns -/

/-- The part of a text after its last line feed. -/
def IsLastLine (line cs : List Char) : Prop :=
  '\n' ∉ line ∧ (cs = line ∨ ∃ earlier, cs = earlier ++ '\n' :: line)

section Columns

variable {before after line : List Char}

/-- Every text has a last line. -/
theorem exists_lastLine (cs : List Char) : ∃ line, IsLastLine line cs := by
  by_cases hmem : '\n' ∈ cs
  · -- the last line feed is the first one from behind
    obtain ⟨line, earlier, hcs, hline⟩ :=
      List.eq_append_cons_of_mem (List.mem_reverse.mpr hmem)
    refine ⟨line.reverse, by simpa using hline, .inr ⟨earlier.reverse, ?_⟩⟩
    simpa using congrArg List.reverse hcs
  · exact ⟨cs, hmem, .inl rfl⟩

/-- **The column of a place is the length of the line before it.** -/
theorem IsLastLine.column_eq (h : IsLastLine line before) (after : List Char) :
    column (before ++ after) before.length = line.length := by
  have hall : ∀ c ∈ line.reverse, (c != '\n') = true := by
    intro c hc
    rw [bne_iff_ne]
    rintro rfl
    exact h.1 (List.mem_reverse.mp hc)
  obtain ⟨-, rfl | ⟨earlier, rfl⟩⟩ := h
  · simp [column, List.takeWhile_eq_self_iff.mpr hall]
  · rw [column, List.take_left, List.reverse_append, List.reverse_cons, List.append_assoc,
      List.takeWhile_append_of_pos hall]
    simp

/-- It is the offset of the place just if no line feed stands before it. -/
theorem IsLastLine.length_eq_iff (h : IsLastLine line before) :
    line.length = before.length ↔ '\n' ∉ before := by
  obtain ⟨hline, rfl | ⟨earlier, rfl⟩⟩ := h
  · simp [hline]
  · have hmem : '\n' ∈ earlier ++ '\n' :: line := by simp
    have hlen : line.length ≠ (earlier ++ '\n' :: line).length := by
      rw [List.length_append, List.length_cons]
      omega
    exact ⟨fun h => absurd h hlen, fun h => absurd hmem h⟩

end Columns

/-! ### The place of an error -/

/-- **An error points to the end of the longest beginning**, by its column. The text that is held
is split where its longest part ends that is a beginning of an expression; this part goes on to a
rendering, and to a text that is read if its integers are short. If something is left, the text is
malformed, and the fault is the token that begins there or, where none does, the character. The
position in the error is the length of the last line before that place, which is the offset of the
place in the text just if no line feed stands before it. -/
theorem malformed_after_longest_beginning (s : String) :
    ∃ cs before after, Holds s cs ∧ cs = before ++ after ∧ IsLongest IsBeginning before after ∧
      (∃ rest e, Renders (before ++ rest) e ∧
        (parse (String.ofList (before ++ rest)) = .ok e ∨
          ∃ ts, Spells ts before ∧ ∃ t ∈ ts, ¬t.IsShort)) ∧
      ∀ c more, after = c :: more → ∃ fault line,
        parse s = .error (.expression (.malformed fault (String.ofList cs) line.length)) ∧
        (fault = .token ∧ BeginsWithToken after ∨
          fault = .character c ∧ ¬BeginsWithToken after) ∧
        IsLastLine line before ∧ (line.length = before.length ↔ '\n' ∉ before) := by
  obtain ⟨cs, hholds⟩ := exists_holds s
  -- what is accepted from the first state on is what begins an expression
  have h0 : (State.operand []).Reads .operand [] := ⟨rfl, .start⟩
  obtain ⟨before, after, rfl, hlongest, hfailure⟩ := exists_longest .operand 0 cs h0
  have hbeginning : IsLongest IsBeginning before after :=
    ⟨isBeginning_iff.mpr hlongest.holds,
      fun other more heq h => hlongest.longest other more heq (isBeginning_iff.mp h)⟩
  refine ⟨_, before, after, hholds, rfl, hbeginning, hbeginning.holds.continued, ?_⟩
  rintro c more rfl
  obtain ⟨line, hline⟩ := exists_lastLine before
  have hread : parse s = .error (faultAt (before ++ c :: more)
      (if beginsToken (c :: more) then .token else .character c) (0 + before.length)) := by
    rw [parse_of_holds hholds, if_neg (by simp)]
    exact parseInner_of_failure hfailure
  rw [Nat.zero_add, faultAt, hline.column_eq] at hread
  by_cases hbegins : BeginsWithToken (c :: more)
  · rw [if_pos (beginsToken_iff.mpr hbegins)] at hread
    exact ⟨_, line, hread, .inl ⟨rfl, hbegins⟩, hline, hline.length_eq_iff⟩
  · rw [if_neg (mt beginsToken_iff.mp hbegins)] at hread
    exact ⟨_, line, hread, .inr ⟨rfl, hbegins⟩, hline, hline.length_eq_iff⟩

/-- **On a second line the position is no offset.** In `a` with `#` on the next line, the character
that is no token stands at offset two, and the position in the error is zero. -/
theorem position_on_second_line :
    parse "a\n#" = .error (.expression (.malformed (.character '#') "a\n#" 0)) ∧
      "a\n#".toList.idxOf '#' = 2 := by
  have hfound : failure? (.operand []) (tokenize ['a', '\n', '#']) = some (.character '#', 2) := by
    decide +kernel
  have hholds : Holds "a\n#" ['a', '\n', '#'] := stripWrapper_iff.mp (by decide +kernel)
  refine ⟨?_, by decide⟩
  rw [parse_of_holds hholds, if_neg (by simp), parseInner_of_failure hfound]
  rfl

end ApiSuite.Expression
