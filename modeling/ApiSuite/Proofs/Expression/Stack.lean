import ApiSuite.Proofs.Expression.Literals

/-!
# The automaton builds what the grammar derives

The pass over the tokens (`ApiSuite.Expression.step`) against the rules of the grammar
(`ApiSuite.Expression.Derives`), in both directions.

**From a run to a derivation.** What a stack of frames stands for is a list of tokens with a
hole at its end, `ApiSuite.Expression.Waiting`; the topmost frame decides the loosest level at
which the hole may be filled, `ApiSuite.Expression.hole`. Closing a frame moves tokens from
before the hole into the operand that fills it (`ApiSuite.Expression.Splits`), one level at a
time. The invariant of a run, `ApiSuite.Expression.State.Reads`, says this of every state, and
`ApiSuite.Expression.State.Reads.step` that every token keeps it.

**From a derivation to a run.** The automaton closes frames as late as it can, only when a
looser operator arrives. So the run over a derived list of tokens is described by what would be
left on the stack if everything of that level were closed now
(`ApiSuite.Expression.State.Completes`); this is what the induction over derivations carries.

Which tokens can follow each other is left to `ApiSuite.Expression.Chain`: the automaton does
not check again what tokenizing has settled.
-/

namespace ApiSuite.Expression

open Decimal (AreDigits DenotesNat denotesNat_iff)

/-! ### Tokens in their modes -/

/-- Whether a token belongs to a mode. A reserved word is no name for an operand, and a numeral
has digits only. -/
def Mode.Admits : Mode → Token → Prop
  | .operand, .name s => ¬IsReserved s
  | .operand, .number _ whole fraction => AreDigits (whole ++ fraction.getD [])
  | .operand, .text _ | .operand, .constant _ | .operand, .not | .operand, .openParen => True
  | .operator, .comparison _ | .operator, .or | .operator, .and | .operator, .question
  | .operator, .colon | .operator, .closeParen => True
  | .accessor, .comparison _ | .accessor, .or | .accessor, .and | .accessor, .question
  | .accessor, .colon | .accessor, .closeParen | .accessor, .dot
  | .accessor, .openBracket => True
  | .member, .name _ => True
  | .subscript, .key _ => True
  | .subscript, .index ds => AreDigits ds
  | .closing, .closeBracket => True
  | _, _ => False

/-- What may follow an operand may follow a path. -/
theorem Mode.Admits.accessor {t : Token} (h : Mode.operator.Admits t) :
    Mode.accessor.Admits t := by
  cases t <;> first | exact h.elim | trivial

/-- After a path comes what may follow an operand, or a new segment. -/
theorem Mode.Admits.accessor_cases {t : Token} (h : Mode.accessor.Admits t) :
    Mode.operator.Admits t ∨ t = .dot ∨ t = .openBracket := by
  cases t with
  | comparison | or | and | question | colon | closeParen => exact .inl trivial
  | dot => exact .inr (.inl rfl)
  | openBracket => exact .inr (.inr rfl)
  | _ => exact h.elim

/-- A list of tokens each of which belongs to the mode that the one before it leads to. -/
inductive Chain : Mode → List Token → Prop
  | nil (m : Mode) : Chain m []
  | cons {m : Mode} {t : Token} {ts : List Token} :
      m.Admits t → Chain t.next ts → Chain m (t :: ts)

/-! ### What a stack stands for -/

/-- The loosest level at which an operand may stand in the place that a stack waits for. After
a negation only a primary counts, since further negations are frames of their own. -/
def hole : List Frame → Level
  | [] | .paren :: _ | .ifTrue _ :: _ | .ifFalse _ _ :: _ => .conditional
  | .disjunction _ :: _ => .conjunction
  | .conjunction _ :: _ => .comparison
  | .comparison _ _ :: _ => .unary
  | .negation :: _ => .primary

/-- Whether an operand of a level may stand in the place that a stack waits for. -/
def Admits (stack : List Frame) (l : Level) : Prop := (hole stack).rank ≤ l.rank

/-- The tokens that a stack stands for. -/
inductive Waiting : List Frame → List Token → Prop
  | start : Waiting [] []
  | paren {stack : List Frame} {ts : List Token} :
      Waiting stack ts → Waiting (.paren :: stack) (ts ++ [.openParen])
  | negation {stack : List Frame} {ts : List Token} :
      Waiting stack ts → Waiting (.negation :: stack) (ts ++ [.not])
  | comparison {stack : List Frame} {ts us : List Token} {a : Expression} (op : Comparison) :
      Waiting stack ts → Admits stack .comparison → Derives .unary us a →
      Waiting (.comparison op a :: stack) (ts ++ us ++ [.comparison op])
  | conjunction {stack : List Frame} {ts us : List Token} {a : Expression} :
      Waiting stack ts → Admits stack .conjunction → Derives .conjunction us a →
      Waiting (.conjunction a :: stack) (ts ++ us ++ [.and])
  | disjunction {stack : List Frame} {ts us : List Token} {a : Expression} :
      Waiting stack ts → Admits stack .disjunction → Derives .disjunction us a →
      Waiting (.disjunction a :: stack) (ts ++ us ++ [.or])
  | ifTrue {stack : List Frame} {ts us : List Token} {c : Expression} :
      Waiting stack ts → Admits stack .conditional → Derives .disjunction us c →
      Waiting (.ifTrue c :: stack) (ts ++ us ++ [.question])
  | ifFalse {stack : List Frame} {ts us vs : List Token} {c a : Expression} :
      Waiting stack ts → Admits stack .conditional → Derives .disjunction us c →
      Derives .conditional vs a →
      Waiting (.ifFalse c a :: stack) (ts ++ (us ++ .question :: vs) ++ [.colon])

/-- Tokens as a stack and an operand of a level that stands in its place. -/
def Splits (l : Level) (p : List Frame × Expression) (ts : List Token) : Prop :=
  ∃ us vs, ts = us ++ vs ∧ Waiting p.1 us ∧ Admits p.1 l ∧ Derives l vs p.2

/-! ### Closing frames

A stack that admits one level admits the next looser one too, unless its topmost frame is an
operator of exactly that level. -/

section Admits

variable {stack : List Frame}

theorem admits_unary (h : ∀ rest, stack ≠ .negation :: rest) : Admits stack .unary := by
  rcases stack with - | ⟨frame, rest⟩
  · exact Nat.zero_le _
  · cases frame <;> simp_all [Admits, hole, Level.rank]

theorem Admits.comparison (h : Admits stack .unary)
    (hne : ∀ op left rest, stack ≠ .comparison op left :: rest) : Admits stack .comparison := by
  rcases stack with - | ⟨frame, rest⟩
  · exact Nat.zero_le _
  · cases frame <;> simp_all [Admits, hole, Level.rank]

theorem Admits.conjunction (h : Admits stack .comparison)
    (hne : ∀ left rest, stack ≠ .conjunction left :: rest) : Admits stack .conjunction := by
  rcases stack with - | ⟨frame, rest⟩
  · exact Nat.zero_le _
  · cases frame <;> simp_all [Admits, hole, Level.rank]

theorem Admits.disjunction (h : Admits stack .conjunction)
    (hne : ∀ left rest, stack ≠ .disjunction left :: rest) : Admits stack .disjunction := by
  rcases stack with - | ⟨frame, rest⟩
  · exact Nat.zero_le _
  · cases frame <;> simp_all [Admits, hole, Level.rank]

/-- No frame waits for a disjunction and for nothing looser. -/
theorem Admits.conditional (h : Admits stack .disjunction) : Admits stack .conditional := by
  rcases stack with - | ⟨frame, rest⟩
  · exact Nat.zero_le _
  · cases frame <;> simp_all [Admits, hole, Level.rank]

end Admits

section Closing

variable {stack : List Frame} {e : Expression} {ts : List Token}

theorem splits_negate {us vs : List Token} (hw : Waiting stack us) (hd : Derives .unary vs e) :
    Splits .unary (negate stack e) (us ++ vs) := by
  fun_induction negate stack e generalizing us vs with
  | case1 stack e ih =>
    cases hw with
    | @negation _ us' hw =>
      -- the sign goes over from the stack to the operand
      have h := ih hw (.negation hd)
      rwa [show us' ++ [Token.not] ++ vs = us' ++ .not :: vs by simp]
  | case2 stack e hne => exact ⟨us, vs, rfl, hw, admits_unary hne, hd⟩

theorem Splits.closeComparison (h : Splits .unary (stack, e) ts) :
    Splits .comparison (closeComparison stack e) ts := by
  obtain ⟨us, vs, rfl, hw, ha, hd⟩ := h
  unfold Expression.closeComparison
  split
  · rename_i op left rest
    cases hw with
    | @comparison _ us' ls _ _ hw ha' hl =>
      exact ⟨us', ls ++ .comparison op :: vs, by simp, hw, ha', .comparison op hl hd⟩
  · rename_i hne
    exact ⟨us, vs, rfl, hw, ha.comparison fun op left rest => hne op left rest, .ofUnary hd⟩

theorem Splits.closeConjunction (h : Splits .unary (stack, e) ts) :
    Splits .conjunction (closeConjunction stack e) ts := by
  obtain ⟨us, vs, rfl, hw, ha, hd⟩ := h.closeComparison
  unfold Expression.closeConjunction
  split
  · rename_i left stack' e' hclose
    rw [hclose] at hw ha hd
    cases hw with
    | @conjunction _ us' ls a hw ha' hl =>
      exact ⟨us', ls ++ .and :: vs, by simp, hw, ha', .conjunction hl hd⟩
  · rename_i hne
    exact ⟨us, vs, rfl, hw, ha.conjunction fun left rest he => hne left rest _ (by rw [← he]),
      .ofComparison hd⟩

theorem Splits.closeDisjunction (h : Splits .unary (stack, e) ts) :
    Splits .disjunction (closeDisjunction stack e) ts := by
  obtain ⟨us, vs, rfl, hw, ha, hd⟩ := h.closeConjunction
  unfold Expression.closeDisjunction
  split
  · rename_i left stack' e' hclose
    rw [hclose] at hw ha hd
    cases hw with
    | @disjunction _ us' ls a hw ha' hl =>
      exact ⟨us', ls ++ .or :: vs, by simp, hw, ha', .disjunction hl hd⟩
  · rename_i hne
    exact ⟨us, vs, rfl, hw, ha.disjunction fun left rest he => hne left rest _ (by rw [← he]),
      .ofConjunction hd⟩

theorem Splits.closeConditional (h : Splits .conditional (stack, e) ts) :
    Splits .conditional (closeConditional stack e) ts := by
  fun_induction Expression.closeConditional stack e generalizing ts with
  | case1 c a stack e ih =>
    obtain ⟨us, vs, rfl, hw, ha, hd⟩ := h
    cases hw with
    | @ifFalse _ us' cs as c a hw ha' hc hv =>
      -- the conditional that ends here may itself be the last branch of one before it
      exact ih ⟨us', cs ++ .question :: (as ++ .colon :: vs), by simp, hw, ha',
        .conditional hc hv hd⟩
  | case2 stack e hne => exact h

/-- Everything that can be closed is closed: what is left is a conditional in its place. -/
theorem Splits.closeAll (h : Splits .unary (stack, e) ts) :
    Splits .conditional (closeAll stack e) ts := by
  obtain ⟨us, vs, rfl, hw, ha, hd⟩ := h.closeDisjunction
  exact Splits.closeConditional ⟨us, vs, rfl, hw, ha.conditional, .ofDisjunction hd⟩

end Closing

/-! ### The invariant of a run -/

/-- What the tokens after the root of a path are, in the modes that a path goes through: a
sequence of accessors, or one as soon as what the mode asks for has come. The segments are
those read so far, in reverse. -/
def PathReads (reversed : List Segment) (ts : List Token) : Mode → Prop
  | .accessor => Accessors ts reversed.reverse
  | .member => ∀ s, Accessors (ts ++ [.name s]) (reversed.reverse ++ [.key s])
  | .subscript =>
    (∀ ds n, DenotesNat ds n →
      Accessors (ts ++ [.index ds, .closeBracket]) (reversed.reverse ++ [.index n])) ∧
    ∀ s, Accessors (ts ++ [.key s, .closeBracket]) (reversed.reverse ++ [.key s])
  | .closing => Accessors (ts ++ [.closeBracket]) reversed.reverse
  | _ => False

/-- What a state says of the tokens before it, when the next one belongs to the given mode. -/
def State.Reads (m : Mode) : State → List Token → Prop
  | .operand stack, ts => m = .operand ∧ Waiting stack ts
  | .operator stack e, ts => m = .operator ∧ Splits .unary (stack, e) ts
  | .path stack root reversed whole, ts =>
    whole = (m == .accessor) ∧ ∃ us vs, ts = us ++ .name root :: vs ∧ Waiting stack us ∧
      ¬IsReserved root ∧ PathReads reversed vs m

theorem Accessors.append {ts us : List Token} {s t : List Segment} (h : Accessors ts s)
    (h' : Accessors us t) : Accessors (ts ++ us) (s ++ t) := by
  induction h with
  | nil => exact h'
  | member name _ ih => exact .member name ih
  | index hds _ ih => exact .index hds ih
  | key name _ ih => exact .key name ih

/-- A whole operand goes into its place. -/
theorem reads_finishOperand {stack : List Frame} {e : Expression} {us vs : List Token}
    (hw : Waiting stack us) (hd : Derives .primary vs e) :
    (finishOperand stack e).Reads .operator (us ++ vs) :=
  ⟨rfl, splits_negate hw (.ofPrimary hd)⟩

theorem reads_stepOperand {stack : List Frame} {ts : List Token} {t : Token} {st : State}
    (hw : Waiting stack ts) (hm : Mode.operand.Admits t) (hs : stepOperand stack t = some st) :
    st.Reads t.next (ts ++ [t]) := by
  cases t with
  | name s =>
    obtain rfl := Option.some.inj hs
    exact ⟨rfl, ts, [], rfl, hw, hm, .nil⟩
  | number negative whole fraction =>
    obtain rfl := Option.some.inj hs
    exact reads_finishOperand hw (.number (denotes_numeral hm))
  | text s =>
    obtain rfl := Option.some.inj hs
    exact reads_finishOperand hw (.text s)
  | constant v =>
    obtain rfl := Option.some.inj hs
    exact reads_finishOperand hw (.constant v)
  | not =>
    obtain rfl := Option.some.inj hs
    exact ⟨rfl, .negation hw⟩
  | openParen =>
    obtain rfl := Option.some.inj hs
    exact ⟨rfl, .paren hw⟩
  | _ => exact hm.elim

theorem reads_stepOperator {stack : List Frame} {e : Expression} {ts : List Token} {t : Token}
    {st : State} (h : Splits .unary (stack, e) ts) (hs : stepOperator stack e t = some st) :
    st.Reads t.next (ts ++ [t]) := by
  cases t with
  | comparison op =>
    obtain ⟨us, vs, rfl, hw, ha, hd⟩ := h
    simp only [stepOperator] at hs
    split at hs
    · exact absurd hs (by simp)
    · rename_i hne
      obtain rfl := Option.some.inj hs
      exact ⟨rfl, .comparison op hw (ha.comparison fun op left rest => hne op left rest) hd⟩
  | and =>
    obtain rfl := Option.some.inj hs
    obtain ⟨us, vs, rfl, hw, ha, hd⟩ := h.closeConjunction
    exact ⟨rfl, .conjunction hw ha hd⟩
  | or =>
    obtain rfl := Option.some.inj hs
    obtain ⟨us, vs, rfl, hw, ha, hd⟩ := h.closeDisjunction
    exact ⟨rfl, .disjunction hw ha hd⟩
  | question =>
    obtain rfl := Option.some.inj hs
    obtain ⟨us, vs, rfl, hw, ha, hd⟩ := h.closeDisjunction
    exact ⟨rfl, .ifTrue hw ha.conditional hd⟩
  | colon =>
    obtain ⟨us, vs, rfl, hw, ha, hd⟩ := h.closeAll
    simp only [stepOperator] at hs
    split at hs
    · rename_i c rest a hclose
      obtain rfl := Option.some.inj hs
      rw [hclose] at hw hd
      cases hw with
      | @ifTrue _ us' cs _ hw ha' hc =>
        refine ⟨rfl, ?_⟩
        have hw' := Waiting.ifFalse hw ha' hc hd
        rwa [show us' ++ (cs ++ .question :: vs) = us' ++ cs ++ [.question] ++ vs by simp] at hw'
    · exact absurd hs (by simp)
  | closeParen =>
    obtain ⟨us, vs, rfl, hw, ha, hd⟩ := h.closeAll
    simp only [stepOperator] at hs
    split at hs
    · rename_i rest a hclose
      obtain rfl := Option.some.inj hs
      rw [hclose] at hw hd
      cases hw with
      | @paren _ us' hw =>
        have hr := reads_finishOperand hw (.parens hd)
        rwa [show us' ++ .openParen :: (vs ++ [.closeParen]) =
          us' ++ [.openParen] ++ vs ++ [.closeParen] by simp] at hr
    · exact absurd hs (by simp)
  | _ => exact absurd hs (by simp [stepOperator])

/-- A path that is whole is an operand, and goes into its place when an operator follows. -/
theorem splits_path {stack : List Frame} {root : String} {reversed : List Segment}
    {us vs : List Token} (hw : Waiting stack us) (hroot : ¬IsReserved root)
    (hv : Accessors vs reversed.reverse) :
    Splits .unary (negate stack (.path root reversed.reverse)) (us ++ .name root :: vs) :=
  splits_negate hw (.ofPrimary (.path hroot hv))

theorem reads_stepPath {m : Mode} {stack : List Frame} {root : String}
    {reversed : List Segment} {whole : Bool} {ts : List Token} {t : Token} {st : State}
    (h : (State.path stack root reversed whole).Reads m ts) (hm : m.Admits t)
    (hs : stepPath stack root reversed whole t = some st) : st.Reads t.next (ts ++ [t]) := by
  obtain ⟨hwhole, us, vs, rfl, hw, hroot, hv⟩ := h
  cases m with
  | operand => exact hv.elim
  | operator => exact hv.elim
  | accessor =>
    obtain rfl : whole = true := hwhole
    -- Here alone the path can end: any operator closes it and is read as after an operand.
    cases t with
    | dot =>
      obtain rfl := Option.some.inj hs
      refine ⟨rfl, us, vs ++ [.dot], by simp, hw, hroot, fun s => ?_⟩
      simpa using Accessors.append hv (.member s .nil)
    | openBracket =>
      obtain rfl := Option.some.inj hs
      refine ⟨rfl, us, vs ++ [.openBracket], by simp, hw, hroot, fun ds n hds => ?_, fun s => ?_⟩
      · simpa using Accessors.append hv (.index hds .nil)
      · simpa using Accessors.append hv (.key s .nil)
    | comparison op => exact reads_stepOperator (splits_path hw hroot hv) hs
    | or => exact reads_stepOperator (splits_path hw hroot hv) hs
    | and => exact reads_stepOperator (splits_path hw hroot hv) hs
    | question => exact reads_stepOperator (splits_path hw hroot hv) hs
    | colon => exact reads_stepOperator (splits_path hw hroot hv) hs
    | closeParen => exact reads_stepOperator (splits_path hw hroot hv) hs
    | _ => exact hm.elim
  | member =>
    cases t with
    | name s =>
      obtain rfl := Option.some.inj hs
      refine ⟨rfl, us, vs ++ [.name s], by simp, hw, hroot, ?_⟩
      simpa [PathReads, Token.next] using hv s
    | _ => exact hm.elim
  | subscript =>
    cases t with
    | key s =>
      obtain rfl := Option.some.inj hs
      refine ⟨rfl, us, vs ++ [.key s], by simp, hw, hroot, ?_⟩
      simpa [PathReads, Token.next] using hv.2 s
    | index ds =>
      obtain rfl := Option.some.inj hs
      refine ⟨rfl, us, vs ++ [.index ds], by simp, hw, hroot, ?_⟩
      simpa [PathReads, Token.next] using hv.1 ds _ (denotesNat_iff.mpr ⟨hm, rfl⟩)
    | _ => exact hm.elim
  | closing =>
    cases t with
    | closeBracket =>
      obtain rfl := Option.some.inj hs
      exact ⟨rfl, us, vs ++ [.closeBracket], by simp, hw, hroot, hv⟩
    | _ => exact hm.elim

/-- **Every token that has a step keeps the invariant.** -/
theorem State.Reads.step {m : Mode} {st st' : State} {ts : List Token} {t : Token}
    (h : st.Reads m ts) (hm : m.Admits t) (hs : step st t = some st') :
    st'.Reads t.next (ts ++ [t]) := by
  cases st with
  | operand stack =>
    obtain ⟨rfl, hw⟩ := h
    exact reads_stepOperand hw hm hs
  | operator stack e => exact reads_stepOperator h.2 hs
  | path stack root reversed whole => exact reads_stepPath h hm hs

/-- **A run over tokens that chain keeps the invariant**, whatever state it starts in. -/
theorem State.Reads.foldlM {m : Mode} {st st' : State} {ts us : List Token}
    (h : st.Reads m ts) (hc : Chain m us) (hr : us.foldlM Expression.step st = some st') :
    ∃ m', st'.Reads m' (ts ++ us) := by
  induction us generalizing m st ts with
  | nil =>
    obtain rfl := Option.some.inj hr
    exact ⟨m, by simpa using h⟩
  | cons t us ih =>
    cases hc with
    | cons hm hc =>
      rw [List.foldlM_cons] at hr
      obtain ⟨next, hs, hr⟩ := Option.bind_eq_some_iff.mp hr
      obtain ⟨m', h'⟩ := ih (h.step hm hs) hc hr
      exact ⟨m', by simpa using h'⟩

theorem Waiting.eq_nil {ts : List Token} (h : Waiting [] ts) : ts = [] := by
  cases h
  rfl

theorem derives_of_complete {stack : List Frame} {e e' : Expression} {ts : List Token}
    (h : Splits .unary (stack, e) ts) (hc : complete stack e = some e') :
    Derives .conditional ts e' := by
  unfold complete at hc
  split at hc
  · rename_i hclose
    obtain rfl := Option.some.inj hc
    obtain ⟨us, vs, rfl, hw, -, hd⟩ := h.closeAll
    rw [hclose] at hw hd
    rw [hw.eq_nil]
    exact hd
  · exact absurd hc (by simp)

/-- **A finished run has read a derived list of tokens.** -/
theorem State.Reads.derives_of_finish {m : Mode} {st : State} {ts : List Token} {e : Expression}
    (h : st.Reads m ts) (hf : finish st = some e) : Derives .conditional ts e := by
  cases st with
  | operand stack => exact absurd hf (by simp [finish])
  | operator stack e' => exact derives_of_complete h.2 hf
  | path stack root reversed whole =>
    obtain ⟨hwhole, us, vs, rfl, hw, hroot, hv⟩ := h
    cases whole with
    | false => exact absurd hf (by simp [finish])
    | true =>
      obtain rfl : m = .accessor := (eq_of_beq hwhole.symm)
      exact derives_of_complete (splits_path hw hroot hv) hf

/-! ### What is derived chains -/

/-- What chains after an operand chains after a path. -/
theorem Chain.accessor_of_operator {ts : List Token} (h : Chain .operator ts) :
    Chain .accessor ts := by
  cases h with
  | nil => exact .nil _
  | cons hm hc => exact .cons hm.accessor hc

theorem Accessors.chain {ts us : List Token} {segments : List Segment}
    (h : Accessors ts segments) (hu : Chain .operator us) : Chain .accessor (ts ++ us) := by
  induction h with
  | nil => exact hu.accessor_of_operator
  | member name _ ih => exact .cons trivial (.cons trivial ih)
  | index hds _ ih => exact .cons trivial (.cons hds.areDigits (.cons trivial ih))
  | key name _ ih => exact .cons trivial (.cons trivial (.cons trivial ih))

theorem Derives.chain_append {l : Level} {ts us : List Token} {e : Expression}
    (h : Derives l ts e) (hu : Chain .operator us) : Chain .operand (ts ++ us) := by
  induction h generalizing us with
  | @conditional cs ts vs c a b _ _ _ ihc iha ihb =>
    have hcolon : Chain .operator (.colon :: (vs ++ us)) := .cons trivial (ihb hu)
    have hquestion : Chain .operator (.question :: (ts ++ .colon :: (vs ++ us))) :=
      .cons trivial (iha hcolon)
    simpa using ihc hquestion
  | @disjunction ts vs a b _ _ iha ihb =>
    have hor : Chain .operator (.or :: (vs ++ us)) := .cons trivial (ihb hu)
    simpa using iha hor
  | @conjunction ts vs a b _ _ iha ihb =>
    have hand : Chain .operator (.and :: (vs ++ us)) := .cons trivial (ihb hu)
    simpa using iha hand
  | @comparison ts vs a b op _ _ iha ihb =>
    have hop : Chain .operator (.comparison op :: (vs ++ us)) := .cons trivial (ihb hu)
    simpa using iha hop
  | ofDisjunction _ ih => exact ih hu
  | ofConjunction _ ih => exact ih hu
  | ofComparison _ ih => exact ih hu
  | ofUnary _ ih => exact ih hu
  | ofPrimary _ ih => exact ih hu
  | negation _ ih => exact .cons trivial (ih hu)
  | path hroot ha => exact .cons hroot (ha.chain hu)
  | number hv => exact .cons hv.areDigits hu
  | text s => exact .cons trivial hu
  | constant v => exact .cons trivial hu
  | parens _ ih =>
    have hclose : Chain .operator (.closeParen :: us) := .cons trivial hu
    refine .cons trivial ?_
    simpa [Token.next] using ih hclose

/-- **Tokens that derive an expression chain**: each of them belongs to the mode in which it
is looked for. -/
theorem Derives.chain {l : Level} {ts : List Token} {e : Expression} (h : Derives l ts e) :
    Chain .operand ts := by
  simpa using h.chain_append (.nil .operator)

/-! ### Runs over what is derived -/

/-- The stack and the operand that an operator finds, where one may come. -/
def State.operand? : State → Option (List Frame × Expression)
  | .operator stack e => some (stack, e)
  | .path stack root reversed true => some (negate stack (.path root reversed.reverse))
  | _ => none

/-- What is left when all frames are closed that bind tighter than a level, or as tight. -/
def closedAt (l : Level) (stack : List Frame) (e : Expression) : List Frame × Expression :=
  match l with
  | .primary | .unary => (stack, e)
  | .comparison => closeComparison stack e
  | .conjunction => closeConjunction stack e
  | .disjunction => closeDisjunction stack e
  | .conditional => closeAll stack e

/-- What an expression of a level becomes on a stack without a look at what follows: it takes
the negations before it, and if it is a conditional it ends those before it. -/
def landsAt (l : Level) (stack : List Frame) (e : Expression) : List Frame × Expression :=
  match l with
  | .primary | .unary => negate stack e
  | .conditional => closeConditional stack e
  | _ => (stack, e)

/-- Whether an expression of a level may stand on a stack for the run to be described by
`landsAt`. A unary may stand anywhere. -/
def Fits (l : Level) (stack : List Frame) : Prop :=
  match l with
  | .primary | .unary => True
  | l => Admits stack l

/-- A state whose operand, once the frames of a level are closed, is the given expression on
the given stack. -/
def State.Completes (l : Level) (st : State) (stack : List Frame) (e : Expression) : Prop :=
  ∃ s a, st.operand? = some (s, a) ∧ closedAt l s a = landsAt l stack e

/-- An operand is found as it was left, or it is the path that is read. -/
theorem State.eq_of_operand? {st : State} {stack : List Frame} {e : Expression}
    (h : st.operand? = some (stack, e)) :
    st = .operator stack e ∨ ∃ below root reversed, st = .path below root reversed true ∧
      negate below (.path root reversed.reverse) = (stack, e) := by
  cases st with
  | operand stack => exact absurd h (by simp [State.operand?])
  | operator stack e =>
    obtain ⟨rfl, rfl⟩ := Prod.mk.inj (Option.some.inj h)
    exact .inl rfl
  | path below root reversed whole =>
    cases whole with
    | false => exact absurd h (by simp [State.operand?])
    | true => exact .inr ⟨below, root, reversed, rfl, Option.some.inj h⟩

theorem step_of_operand? {st : State} {stack : List Frame} {e : Expression} {t : Token}
    (h : st.operand? = some (stack, e)) (ht : Mode.operator.Admits t) :
    step st t = stepOperator stack e t := by
  rcases State.eq_of_operand? h with rfl | ⟨below, root, reversed, rfl, hpath⟩
  · rfl
  · cases t <;> first | exact ht.elim | simp [step, stepPath, hpath]

theorem finish_of_operand? {st : State} {stack : List Frame} {e : Expression}
    (h : st.operand? = some (stack, e)) : finish st = complete stack e := by
  rcases State.eq_of_operand? h with rfl | ⟨below, root, reversed, rfl, hpath⟩
  · rfl
  · simp [finish, hpath]

section Open

variable {stack s : List Frame} {e a : Expression}

theorem negate_of_admits (h : Admits stack .unary) : negate stack e = (stack, e) := by
  unfold negate
  split
  · exact absurd h (by simp [Admits, hole, Level.rank])
  · rfl

theorem closeComparison_of_admits (h : Admits stack .comparison) :
    closeComparison stack e = (stack, e) := by
  unfold closeComparison
  split
  · exact absurd h (by simp [Admits, hole, Level.rank])
  · rfl

theorem closeConjunction_of_admits (h : Admits stack .conjunction)
    (hc : closeComparison s a = (stack, e)) : closeConjunction s a = (stack, e) := by
  unfold closeConjunction
  split
  · rename_i hc'
    rw [hc] at hc'
    obtain ⟨rfl, rfl⟩ := Prod.mk.inj hc'
    exact absurd h (by simp [Admits, hole, Level.rank])
  · exact hc

theorem closeDisjunction_of_admits (h : Admits stack .disjunction)
    (hc : closeConjunction s a = (stack, e)) : closeDisjunction s a = (stack, e) := by
  unfold closeDisjunction
  split
  · rename_i hc'
    rw [hc] at hc'
    obtain ⟨rfl, rfl⟩ := Prod.mk.inj hc'
    exact absurd h (by simp [Admits, hole, Level.rank])
  · exact hc

end Open

theorem Accessors.foldlM_step {ts : List Token} {segments : List Segment}
    (h : Accessors ts segments) (stack : List Frame) (root : String) (reversed : List Segment) :
    ts.foldlM step (.path stack root reversed true) =
      some (.path stack root (segments.reverse ++ reversed) true) := by
  induction h generalizing reversed with
  | nil => rfl
  | member name _ ih =>
    refine (ih (.key name :: reversed)).trans ?_
    simp
  | @index _ _ ds n hds _ ih =>
    obtain rfl := (denotesNat_iff.mp hds).2
    refine (ih (.index (Decimal.digitsValue ds) :: reversed)).trans ?_
    simp
  | key name _ ih =>
    refine (ih (.key name :: reversed)).trans ?_
    simp

/-- A level that is what the next one is, where a stack admits it. -/
theorem admits_of_rank_le {stack : List Frame} {l l' : Level} (h : Admits stack l)
    (hl : l.rank ≤ l'.rank) : Admits stack l' :=
  Nat.le_trans h hl

namespace State.Completes

variable {st : State} {stack : List Frame} {a b c e : Expression}

/-! An operator closes the frames of its level, and so it finds what is complete at that level. -/

theorem step_eq {l : Level} (h : st.Completes l stack e) (t : Token)
    (ht : Mode.operator.Admits t) :
    ∃ s a, step st t = stepOperator s a t ∧ closedAt l s a = landsAt l stack e := by
  obtain ⟨s, a, hst, ha⟩ := h
  exact ⟨s, a, step_of_operand? hst ht, ha⟩

theorem step_question (h : st.Completes .disjunction stack e) :
    step st .question = some (.operand (.ifTrue e :: stack)) := by
  obtain ⟨s, a, hstep, ha⟩ := h.step_eq .question trivial
  simp only [closedAt, landsAt] at ha
  simp [hstep, stepOperator, ha]

theorem step_colon (h : st.Completes .conditional (.ifTrue c :: stack) e) :
    step st .colon = some (.operand (.ifFalse c e :: stack)) := by
  obtain ⟨s, a, hstep, ha⟩ := h.step_eq .colon trivial
  simp only [closedAt, landsAt, closeConditional] at ha
  simp [hstep, stepOperator, ha]

theorem step_closeParen (h : st.Completes .conditional (.paren :: stack) e) :
    step st .closeParen = some (finishOperand stack e) := by
  obtain ⟨s, a, hstep, ha⟩ := h.step_eq .closeParen trivial
  simp only [closedAt, landsAt, closeConditional] at ha
  simp [hstep, stepOperator, ha]

theorem step_or (h : st.Completes .disjunction stack e) :
    step st .or = some (.operand (.disjunction e :: stack)) := by
  obtain ⟨s, a, hstep, ha⟩ := h.step_eq .or trivial
  simp only [closedAt, landsAt] at ha
  simp [hstep, stepOperator, ha]

theorem step_and (h : st.Completes .conjunction stack e) :
    step st .and = some (.operand (.conjunction e :: stack)) := by
  obtain ⟨s, a, hstep, ha⟩ := h.step_eq .and trivial
  simp only [closedAt, landsAt] at ha
  simp [hstep, stepOperator, ha]

/-- A comparison closes nothing, and none can be on top of a stack that admits one. -/
theorem step_comparison (h : st.Completes .unary stack e) (hs : Admits stack .comparison)
    (op : Comparison) :
    step st (.comparison op) = some (.operand (.comparison op e :: stack)) := by
  obtain ⟨s, a, hstep, ha⟩ := h.step_eq (.comparison op) trivial
  have hu : Admits stack .unary := admits_of_rank_le hs (by decide)
  simp only [closedAt, landsAt, negate_of_admits hu] at ha
  obtain ⟨rfl, rfl⟩ := Prod.mk.inj ha
  rw [hstep]
  simp only [stepOperator]
  split
  · exact absurd hs (by simp [Admits, hole, Level.rank])
  · rfl

/-! What is complete at a level is complete at the next, where the stack admits that. -/

theorem toComparison (h : st.Completes .unary stack e) (hs : Admits stack .comparison) :
    st.Completes .comparison stack e := by
  obtain ⟨s, a, hst, ha⟩ := h
  refine ⟨s, a, hst, ?_⟩
  simp only [closedAt, landsAt, negate_of_admits (admits_of_rank_le hs (by decide))] at ha
  obtain ⟨rfl, rfl⟩ := Prod.mk.inj ha
  exact closeComparison_of_admits hs

theorem toConjunction (h : st.Completes .comparison stack e) (hs : Admits stack .conjunction) :
    st.Completes .conjunction stack e := by
  obtain ⟨s, a, hst, ha⟩ := h
  exact ⟨s, a, hst, closeConjunction_of_admits hs ha⟩

theorem toDisjunction (h : st.Completes .conjunction stack e) (hs : Admits stack .disjunction) :
    st.Completes .disjunction stack e := by
  obtain ⟨s, a, hst, ha⟩ := h
  exact ⟨s, a, hst, closeDisjunction_of_admits hs ha⟩

theorem toConditional (h : st.Completes .disjunction stack e) :
    st.Completes .conditional stack e := by
  obtain ⟨s, a, hst, ha⟩ := h
  refine ⟨s, a, hst, ?_⟩
  simp only [closedAt, landsAt] at ha
  simp [closedAt, landsAt, closeAll, ha]

/-! What is complete on the frame of an operator completes what waits in the frame. -/

theorem comparison {op : Comparison} (h : st.Completes .unary (.comparison op a :: stack) b) :
    st.Completes .comparison stack (.comparison op a b) := by
  obtain ⟨s, e, hst, hb⟩ := h
  refine ⟨s, e, hst, ?_⟩
  simp only [closedAt, landsAt, negate] at hb
  obtain ⟨rfl, rfl⟩ := Prod.mk.inj hb
  rfl

theorem conjunction (h : st.Completes .comparison (.conjunction a :: stack) b) :
    st.Completes .conjunction stack (.conjunction a b) := by
  obtain ⟨s, e, hst, hb⟩ := h
  refine ⟨s, e, hst, ?_⟩
  simp only [closedAt, landsAt] at hb
  simp [closedAt, landsAt, closeConjunction, hb]

theorem disjunction (h : st.Completes .conjunction (.disjunction a :: stack) b) :
    st.Completes .disjunction stack (.disjunction a b) := by
  obtain ⟨s, e, hst, hb⟩ := h
  refine ⟨s, e, hst, ?_⟩
  simp only [closedAt, landsAt] at hb
  simp [closedAt, landsAt, closeDisjunction, hb]

end State.Completes

/-- **The run over what is derived.** On every stack on which an expression of the level may
stand the automaton takes all tokens, and closing the frames of the level leaves the
expression. -/
theorem Derives.completes {l : Level} {ts : List Token} {e : Expression} (h : Derives l ts e) :
    ∀ stack, Fits l stack →
      ∃ st, ts.foldlM step (.operand stack) = some st ∧ st.Completes l stack e := by
  induction h with
  | @conditional cs ts us c a b _ _ _ ihc iha ihb =>
    intro stack hs
    obtain ⟨st, hrun, hc⟩ := ihc stack (admits_of_rank_le hs (by decide))
    obtain ⟨st', hrun', ha⟩ := iha (.ifTrue c :: stack) (Nat.le_refl 0)
    obtain ⟨st'', hrun'', hb⟩ := ihb (.ifFalse c a :: stack) (Nat.le_refl 0)
    -- a conditional that ends here ends the one that it is the last part of, without a token
    refine ⟨st'', ?_, hb⟩
    simp [List.foldlM_append, List.foldlM_cons, hrun, hrun', hrun'', hc.step_question,
      ha.step_colon]
  | ofDisjunction _ ih =>
    intro stack hs
    obtain ⟨st, hrun, ha⟩ := ih stack (admits_of_rank_le hs (by decide))
    exact ⟨st, hrun, ha.toConditional⟩
  | @disjunction ts us a b _ _ iha ihb =>
    intro stack hs
    obtain ⟨st, hrun, ha⟩ := iha stack hs
    obtain ⟨st', hrun', hb⟩ := ihb (.disjunction a :: stack) (Nat.le_refl 2)
    refine ⟨st', ?_, hb.disjunction⟩
    simp [List.foldlM_append, List.foldlM_cons, hrun, hrun', ha.step_or]
  | ofConjunction _ ih =>
    intro stack hs
    obtain ⟨st, hrun, ha⟩ := ih stack (admits_of_rank_le hs (by decide))
    exact ⟨st, hrun, ha.toDisjunction hs⟩
  | @conjunction ts us a b _ _ iha ihb =>
    intro stack hs
    obtain ⟨st, hrun, ha⟩ := iha stack hs
    obtain ⟨st', hrun', hb⟩ := ihb (.conjunction a :: stack) (Nat.le_refl 3)
    refine ⟨st', ?_, hb.conjunction⟩
    simp [List.foldlM_append, List.foldlM_cons, hrun, hrun', ha.step_and]
  | ofComparison _ ih =>
    intro stack hs
    obtain ⟨st, hrun, ha⟩ := ih stack (admits_of_rank_le hs (by decide))
    exact ⟨st, hrun, ha.toConjunction hs⟩
  | @comparison ts us a b op _ _ iha ihb =>
    intro stack hs
    obtain ⟨st, hrun, ha⟩ := iha stack trivial
    obtain ⟨st', hrun', hb⟩ := ihb (.comparison op a :: stack) trivial
    refine ⟨st', ?_, hb.comparison⟩
    simp [List.foldlM_append, List.foldlM_cons, hrun, hrun', ha.step_comparison hs]
  | ofUnary _ ih =>
    intro stack hs
    obtain ⟨st, hrun, ha⟩ := ih stack trivial
    exact ⟨st, hrun, ha.toComparison hs⟩
  | negation _ ih =>
    -- the negation is on the stack, and an operand takes it at once
    intro stack _
    exact ih (.negation :: stack) trivial
  | ofPrimary _ ih =>
    intro stack _
    exact ih stack trivial
  | @path root ts segments _ ha =>
    intro stack _
    refine ⟨_, ha.foldlM_step stack root [], _, _, rfl, ?_⟩
    simp [closedAt, landsAt]
  | number hv =>
    obtain ⟨-, rfl⟩ := denotes_iff.mp hv
    exact fun stack _ => ⟨_, rfl, _, _, rfl, rfl⟩
  | text s => exact fun stack _ => ⟨_, rfl, _, _, rfl, rfl⟩
  | constant v => exact fun stack _ => ⟨_, rfl, _, _, rfl, rfl⟩
  | @parens ts e _ ih =>
    intro stack _
    obtain ⟨st, hrun, ha⟩ := ih (.paren :: stack) (Nat.le_refl 0)
    have hopen : step (.operand stack) .openParen = some (.operand (.paren :: stack)) := rfl
    refine ⟨finishOperand stack e, ?_, _, _, rfl, rfl⟩
    simp [List.foldlM_append, List.foldlM_cons, hrun, hopen, ha.step_closeParen]

/-! ### The two directions together -/

/-- **The automaton accepts exactly what the grammar derives**, and builds the expression that
is derived. -/
theorem derives_iff_finish {ts : List Token} {e : Expression} (hc : Chain .operand ts) :
    Derives .conditional ts e ↔
      ∃ st, ts.foldlM step (.operand []) = some st ∧ finish st = some e := by
  constructor
  · intro h
    obtain ⟨st, hrun, s, a, hst, ha⟩ := h.completes [] (Nat.le_refl 0)
    refine ⟨st, hrun, ?_⟩
    simp only [closedAt, landsAt, closeConditional] at ha
    simp [finish_of_operand? hst, complete, ha]
  · rintro ⟨st, hrun, hf⟩
    have h0 : (State.operand []).Reads .operand [] := ⟨rfl, .start⟩
    obtain ⟨m, h⟩ := h0.foldlM hc hrun
    exact h.derives_of_finish hf

end ApiSuite.Expression
