import ApiSuite.Proofs.Expression.Confinement
import Mathlib.Data.List.TakeWhile

/-!
# What evaluation crashes on

What is wrong with an expression is an error of that expression, with two exceptions. An integer
in its text may have more digits than numerals may have (`ApiSuite.Expression.Overlong`). And a
key on a path may be a **false numeral**: it consists of characters that denote digits, and so it
is taken for an index where an index is possible, but it is no numeral, either because a character
such as a superscript is among them or because there are too many
(`ApiSuite.Expression.IsFalseNumeral`).

Evaluation crashes on a false numeral only when it gets there. The steps that it does take are
those of the relation `ApiSuite.Expression.StepsIn`, which leaves out the operands that connectives
and conditionals pass over, and what lies behind a null on a path. With it,
`ApiSuite.Expression.evaluate_crash_iff` says exactly when evaluation crashes.
-/

namespace ApiSuite.Expression

open Text

/-! ### False numerals -/

/-- A run of digits is read as a number exactly if they are decimal digits. -/
theorem foldDigits?_eq_none_iff {acc : Nat} {cs : List Char} :
    foldDigits? acc cs = none ↔ ∃ c ∈ cs, isDecimalDigit c = false := by
  induction cs generalizing acc with
  | nil => simp [foldDigits?]
  | cons c cs ih =>
    rw [foldDigits?]
    cases hc : decimalDigit? c with
    | none => simp [isDecimalDigit, hc]
    | some d => simp [isDecimalDigit, hc, ih]

/-- A key that is taken for an index, and is none. -/
structure IsFalseNumeral (key : String) : Prop where
  nonempty : key.toList ≠ []
  digits : ∀ c ∈ key.toList, isDigitSign c
  unreadable : (∃ c ∈ key.toList, isDecimalDigit c = false) ∨ numeralLimit < key.toList.length

/-- What a key is read as, if it consists of digits: a number, unless no number can be read from
it or it is too long. -/
theorem keyIndex?_of_digits {key : String} (hne : key.toList ≠ [])
    (hdigits : ∀ c ∈ key.toList, isDigitSign c) :
    (∃ n, keyIndex? key = .ok (some n)) ∧ ¬IsFalseNumeral key ∨
      (∃ c, keyIndex? key = .error (.crash c)) ∧ IsFalseNumeral key := by
  have hempty : key.toList.isEmpty = false := by simpa using hne
  have hall : key.toList.all isDigitSign = true := List.all_eq_true.mpr hdigits
  cases hread : foldDigits? 0 key.toList with
  | none =>
    have hkey : keyIndex? key =
        if numeralLimit < (key.toList.takeWhile isDecimalDigit).length then
          .error (.crash (.hugeNumeral (key.toList.takeWhile isDecimalDigit).length))
        else .error (.crash (.badInteger 10 key)) := by
      simp [keyIndex?, readNat?, hempty, hall, hread]
    refine .inr ⟨?_, hne, hdigits, .inl (foldDigits?_eq_none_iff.mp hread)⟩
    rw [hkey]
    split
    · exact ⟨_, rfl⟩
    · exact ⟨_, rfl⟩
  | some n =>
    -- all of the key is decimal digits, so that its length decides
    have hdecimal : ¬∃ c ∈ key.toList, isDecimalDigit c = false := fun h => by
      cases hread.symm.trans (foldDigits?_eq_none_iff.mpr h)
    have hrun : key.toList.takeWhile isDecimalDigit = key.toList :=
      List.takeWhile_eq_self_iff.mpr fun c hc => by
        cases hd : isDecimalDigit c with
        | true => rfl
        | false => exact absurd ⟨c, hc, hd⟩ hdecimal
    have hkey : keyIndex? key =
        if numeralLimit < key.toList.length then
          .error (.crash (.hugeNumeral key.toList.length))
        else .ok (some n) := by
      simp [keyIndex?, readNat?, hempty, hall, hread, hrun]
    rw [hkey]
    split
    · rename_i hlong
      exact .inr ⟨⟨_, rfl⟩, hne, hdigits, .inr hlong⟩
    · rename_i hshort
      exact .inl ⟨⟨n, rfl⟩, fun h => h.unreadable.elim hdecimal hshort⟩

theorem keyIndex?_crash_iff {key : String} :
    (∃ c, keyIndex? key = .error (.crash c)) ↔ IsFalseNumeral key := by
  by_cases hdigits : key.toList ≠ [] ∧ ∀ c ∈ key.toList, isDigitSign c
  · rcases keyIndex?_of_digits hdigits.1 hdigits.2 with ⟨⟨n, hn⟩, hnot⟩ | ⟨hcrash, hfalse⟩
    · refine ⟨?_, fun h => absurd h hnot⟩
      rintro ⟨c, hc⟩
      cases hn.symm.trans hc
    · exact ⟨fun _ => hfalse, fun _ => hcrash⟩
  · have hnone : keyIndex? key = .ok none := by
      unfold keyIndex?
      dsimp only
      refine if_pos ?_
      rcases not_and_or.mp hdigits with hempty | hother
      · simp [not_not.mp hempty]
      · have hall : key.toList.all isDigitSign = false := by simpa using hother
        rw [hall]
        exact Bool.or_true _
    refine ⟨?_, fun h => absurd ⟨h.nonempty, h.digits⟩ hdigits⟩
    rintro ⟨c, hc⟩
    cases hnone.symm.trans hc

/-! ### Steps that get stuck -/

/-- A step gets stuck: a false numeral is to be an index of a list or a text. -/
def Stuck (v : Value) (s : Segment) : Prop :=
  v.length?.isSome ∧ ∃ key, s = .key key ∧ IsFalseNumeral key

section Steps

variable {v w : Value} {s : Segment} {path : List Segment}

/-- The length of a sequence is asked for by a name, which is no false numeral. -/
theorem IsFalseNumeral.ne_length {key : String} (h : IsFalseNumeral key) : key ≠ "length" := by
  rintro rfl
  have := h.digits 'l' (by decide)
  revert this
  decide +kernel

theorem stepSequence_crash_iff {length : Nat} {item? : Nat → Option Value} :
    (∃ c, stepSequence length item? s = .error (.crash c)) ↔
      ∃ key, s = .key key ∧ IsFalseNumeral key := by
  constructor
  · rintro ⟨c, hc⟩
    obtain ⟨key, rfl, hkey⟩ := stepSequence_error hc
    exact ⟨key, rfl, keyIndex?_crash_iff.mp ⟨c, hkey⟩⟩
  · rintro ⟨key, rfl, hkey⟩
    obtain ⟨c, hc⟩ := keyIndex?_crash_iff.mpr hkey
    refine ⟨c, ?_⟩
    rw [stepSequence, if_neg (by simpa using hkey.ne_length), hc]
    rfl

/-- **A step crashes exactly if it gets stuck.** -/
theorem stepInto_crash_iff : (∃ c, stepInto v s = .error (.crash c)) ↔ Stuck v s := by
  cases v with
  | list items => simpa [Stuck, Value.length?, stepInto] using stepSequence_crash_iff
  | tuple items => simpa [Stuck, Value.length?, stepInto] using stepSequence_crash_iff
  | str text => simpa [Stuck, Value.length?, stepInto] using stepSequence_crash_iff
  | _ => simp [Stuck, Value.length?, stepInto]

/-- The steps that are taken along a path: from its beginning, and on from each value that is
reached and is not null. -/
inductive StepsAlong : Value → List Segment → Value → Segment → Prop
  | here {v : Value} {s : Segment} {rest : List Segment} : StepsAlong v (s :: rest) v s
  | there {v w u : Value} {s t : Segment} {rest : List Segment} : stepInto v s = .ok w →
      w.isNull = false → StepsAlong w rest u t → StepsAlong v (s :: rest) u t

theorem follow_crash_iff :
    (∃ c, follow v path = .error (.crash c)) ↔ ∃ w s, StepsAlong v path w s ∧ Stuck w s := by
  constructor
  · rintro ⟨c, hc⟩
    induction path generalizing v with
    | nil => cases hc
    | cons s rest ih =>
      rw [follow_cons] at hc
      cases hs : stepInto v s with
      | error stop =>
        rw [hs] at hc
        cases hc
        exact ⟨v, s, .here, stepInto_crash_iff.mp ⟨c, hs⟩⟩
      | ok w =>
        rw [hs] at hc
        simp only [Except.bind] at hc
        split at hc
        · cases hc
        · rename_i hn
          obtain ⟨u, t, hsteps, hstuck⟩ := ih hc
          exact ⟨u, t, .there hs (by simpa using hn) hsteps, hstuck⟩
  · rintro ⟨w, s, hsteps, hstuck⟩
    induction hsteps with
    | here =>
      obtain ⟨c, hc⟩ := stepInto_crash_iff.mpr hstuck
      exact ⟨c, by rw [follow_cons, hc]; rfl⟩
    | there hs hn _ ih =>
      obtain ⟨c, hc⟩ := ih hstuck
      exact ⟨c, by rw [follow_cons, hs, ← hc]; simp [Except.bind, hn]⟩

end Steps

/-! ### Evaluation -/

section Evaluation

variable {context : Value} {e : Expression}

/-- The steps along paths that the evaluation of an expression takes. A connective or a
conditional takes those of the operands that it evaluates. -/
inductive StepsIn (context : Value) : Expression → Value → Segment → Prop
  | path {root : String} {segments : List Segment} {v : Value} {s : Segment} :
      StepsAlong context (.key root :: segments) v s → StepsIn context (.path root segments) v s
  | negation {operand : Expression} {v : Value} {s : Segment} :
      StepsIn context operand v s → StepsIn context (.negation operand) v s
  | orLeft {left right : Expression} {v : Value} {s : Segment} :
      StepsIn context left v s → StepsIn context (.disjunction left right) v s
  | orRight {left right : Expression} {v w : Value} {s : Segment} :
      value context left = .ok w → w.isTrue = false → StepsIn context right v s →
      StepsIn context (.disjunction left right) v s
  | andLeft {left right : Expression} {v : Value} {s : Segment} :
      StepsIn context left v s → StepsIn context (.conjunction left right) v s
  | andRight {left right : Expression} {v w : Value} {s : Segment} :
      value context left = .ok w → w.isTrue = true → StepsIn context right v s →
      StepsIn context (.conjunction left right) v s
  | left {op : Comparison} {left right : Expression} {v : Value} {s : Segment} :
      StepsIn context left v s → StepsIn context (.comparison op left right) v s
  | right {op : Comparison} {left right : Expression} {v w : Value} {s : Segment} :
      value context left = .ok w → StepsIn context right v s →
      StepsIn context (.comparison op left right) v s
  | condition {condition ifTrue ifFalse : Expression} {v : Value} {s : Segment} :
      StepsIn context condition v s → StepsIn context (.conditional condition ifTrue ifFalse) v s
  | ifTrue {condition ifTrue ifFalse : Expression} {v w : Value} {s : Segment} :
      value context condition = .ok w → w.isTrue = true → StepsIn context ifTrue v s →
      StepsIn context (.conditional condition ifTrue ifFalse) v s
  | ifFalse {condition ifTrue ifFalse : Expression} {v w : Value} {s : Segment} :
      value context condition = .ok w → w.isTrue = false → StepsIn context ifFalse v s →
      StepsIn context (.conditional condition ifTrue ifFalse) v s

/-- The evaluation of an expression takes a step that gets stuck. -/
def GetsStuck (context : Value) (e : Expression) : Prop :=
  ∃ v s, StepsIn context e v s ∧ Stuck v s

/-- A crash in a sequence is a crash of its first part, or of what comes after it. -/
theorem bind_crash_iff {α β : Type} {x : Except Stop α} {f : α → Except Stop β} :
    (∃ c, x.bind f = .error (.crash c)) ↔
      (∃ c, x = .error (.crash c)) ∨ ∃ a, x = .ok a ∧ ∃ c, f a = .error (.crash c) := by
  cases x with
  | ok a => simp [Except.bind]
  | error stop => simp [Except.bind]

theorem not_crash_compareValues {op : Comparison} {v w : Value} :
    ¬∃ c, compareValues op v w = .error (.crash c) := by
  rintro ⟨c, hc⟩
  unfold compareValues at hc
  split at hc
  iterate 4 cases hc
  split at hc
  · cases hc
  · cases hc

/-- The value of an expression that gets stuck on its way is a crash. -/
theorem crash_of_getsStuck (h : GetsStuck context e) :
    ∃ c, value context e = .error (.crash c) := by
  obtain ⟨v, s, hsteps, hstuck⟩ := h
  -- evaluation does not come past the operand in which the step is taken
  induction hsteps with
  | path hsteps => exact follow_crash_iff.mpr ⟨_, _, hsteps, hstuck⟩
  | negation _ ih | orLeft _ ih | andLeft _ ih | left _ ih | condition _ ih =>
    exact bind_crash_iff.mpr (.inl (ih hstuck))
  | orRight hleft hfalse _ ih =>
    refine bind_crash_iff.mpr (.inr ⟨_, hleft, ?_⟩)
    simpa [hfalse] using ih hstuck
  | andRight hleft htrue _ ih =>
    refine bind_crash_iff.mpr (.inr ⟨_, hleft, ?_⟩)
    simpa [htrue] using ih hstuck
  | right hleft _ ih =>
    exact bind_crash_iff.mpr (.inr ⟨_, hleft, bind_crash_iff.mpr (.inl (ih hstuck))⟩)
  | ifTrue hcondition htrue _ ih =>
    refine bind_crash_iff.mpr (.inr ⟨_, hcondition, ?_⟩)
    simpa [htrue] using ih hstuck
  | ifFalse hcondition hfalse _ ih =>
    refine bind_crash_iff.mpr (.inr ⟨_, hcondition, ?_⟩)
    simpa [hfalse] using ih hstuck

theorem getsStuck_of_crash (h : ∃ c, value context e = .error (.crash c)) :
    GetsStuck context e := by
  induction e with
  | path root segments =>
    obtain ⟨v, s, hsteps, hstuck⟩ := follow_crash_iff.mp h
    exact ⟨v, s, .path hsteps, hstuck⟩
  | literal v =>
    obtain ⟨c, hc⟩ := h
    cases hc
  | negation operand ih =>
    rcases bind_crash_iff.mp h with hoperand | ⟨w, -, c, hc⟩
    · obtain ⟨v, s, hsteps, hstuck⟩ := ih hoperand
      exact ⟨v, s, .negation hsteps, hstuck⟩
    · cases hc
  | disjunction left right ihl ihr =>
    rcases bind_crash_iff.mp h with hleft | ⟨w, hw, hright⟩
    · obtain ⟨v, s, hsteps, hstuck⟩ := ihl hleft
      exact ⟨v, s, .orLeft hsteps, hstuck⟩
    · -- the right operand is evaluated only if the left one does not decide
      cases ht : w.isTrue with
      | true => simp [ht, pure, Except.pure] at hright
      | false =>
        obtain ⟨v, s, hsteps, hstuck⟩ := ihr (by simpa [ht] using hright)
        exact ⟨v, s, .orRight hw ht hsteps, hstuck⟩
  | conjunction left right ihl ihr =>
    rcases bind_crash_iff.mp h with hleft | ⟨w, hw, hright⟩
    · obtain ⟨v, s, hsteps, hstuck⟩ := ihl hleft
      exact ⟨v, s, .andLeft hsteps, hstuck⟩
    · cases ht : w.isTrue with
      | true =>
        obtain ⟨v, s, hsteps, hstuck⟩ := ihr (by simpa [ht] using hright)
        exact ⟨v, s, .andRight hw ht hsteps, hstuck⟩
      | false => simp [ht, pure, Except.pure] at hright
  | comparison op left right ihl ihr =>
    rcases bind_crash_iff.mp h with hleft | ⟨w, hw, hrest⟩
    · obtain ⟨v, s, hsteps, hstuck⟩ := ihl hleft
      exact ⟨v, s, .left hsteps, hstuck⟩
    · rcases bind_crash_iff.mp hrest with hright | ⟨u, -, hcompare⟩
      · obtain ⟨v, s, hsteps, hstuck⟩ := ihr hright
        exact ⟨v, s, .right hw hsteps, hstuck⟩
      · exact absurd hcompare not_crash_compareValues
  | conditional condition ifTrue ifFalse ihc iht ihf =>
    rcases bind_crash_iff.mp h with hcondition | ⟨w, hw, hbranch⟩
    · obtain ⟨v, s, hsteps, hstuck⟩ := ihc hcondition
      exact ⟨v, s, .condition hsteps, hstuck⟩
    · cases ht : w.isTrue with
      | true =>
        obtain ⟨v, s, hsteps, hstuck⟩ := iht (by simpa [ht] using hbranch)
        exact ⟨v, s, .ifTrue hw ht hsteps, hstuck⟩
      | false =>
        obtain ⟨v, s, hsteps, hstuck⟩ := ihf (by simpa [ht] using hbranch)
        exact ⟨v, s, .ifFalse hw ht hsteps, hstuck⟩

/-- **The value of an expression is a crash exactly if its evaluation gets stuck.** -/
theorem value_crash_iff : (∃ c, value context e = .error (.crash c)) ↔ GetsStuck context e :=
  ⟨getsStuck_of_crash, crash_of_getsStuck⟩

/-- What a text must be for its evaluation to crash: an integer in it is too long, or the
expression that it holds is allowed and gets stuck. -/
def Crashes (trusted : Bool) (context : Value) (text : String) : Prop :=
  Overlong text ∨ ∃ e, parse text = .ok e ∧ Allowed trusted e ∧ GetsStuck context e

/-- **When evaluation crashes.** -/
theorem evaluate_crash_iff {trusted : Bool} {text : String} :
    (∃ c, evaluate trusted context text = .error (.crash c)) ↔ Crashes trusted context text := by
  constructor
  · rintro ⟨c, hc⟩
    rcases parse_cases text with ⟨e, hp⟩ | ⟨_, _, _, hp⟩ | hp
    · by_cases ha : Allowed trusted e
      · refine .inr ⟨e, hp, ha, value_crash_iff.mp ?_⟩
        rw [evaluate_of_parse hp ha] at hc
        cases hv : value context e with
        | ok v =>
          rw [hv] at hc
          cases hc
        | error stop =>
          rw [hv] at hc
          cases stop with
          | incomparable left right => cases hc
          | crash c => exact ⟨c, rfl⟩
      · cases (evaluate_of_not_allowed hp ha).symm.trans hc
    · cases (evaluate_of_parse_error hp).symm.trans hc
    · exact .inl (parse_crash_iff.mp hp)
  · rintro (hlong | ⟨e, hp, ha, hstuck⟩)
    · obtain ⟨c, hc⟩ := parse_crash_iff.mpr hlong
      exact ⟨c, evaluate_of_parse_error hc⟩
    · obtain ⟨c, hc⟩ := value_crash_iff.mpr hstuck
      refine ⟨c, ?_⟩
      rw [evaluate_of_parse hp ha, hc]
      rfl

end Evaluation

end ApiSuite.Expression
