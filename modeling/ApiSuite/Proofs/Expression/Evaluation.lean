import ApiSuite.Expression.Evaluation
import ApiSuite.Proofs.Expression.Reading

/-!
# What evaluation comes to

A text is evaluated in three stages, each of which can end it: it is read, it is checked against
the trust in its document, and its expression is given a value. This file says what each stage
can end in, so that the outcome of `ApiSuite.Expression.evaluate` is taken apart once.

* Reading ends in an expression, in a malformed text, or in a crash, and it crashes only on an
  integer of too many digits (`ApiSuite.Expression.parse_cases`,
  `ApiSuite.Expression.parse_crash_iff`).
* The check refuses, without trust, whatever is no path, and it does not depend on the context
  (`ApiSuite.Expression.evaluate_untrusted_iff`).
* A path is followed step by step. A step ends in a value or in a crash; only comparisons can
  fail otherwise (`ApiSuite.Expression.follow_error`).
-/

namespace ApiSuite.Expression

open Text

/-! ### Reading -/

/-- A text holds an expression, but an integer in it has more digits than numerals may have. -/
def Overlong (s : String) : Prop :=
  ∃ cs e, Holds s cs ∧ Renders cs e ∧ ¬RendersWithinLimit cs e

section Reading

variable {s : String}

/-- Reading ends in one of three ways. -/
theorem parse_cases (s : String) :
    (∃ e, parse s = .ok e) ∨
      (∃ fault text position,
        parse s = .error (.expression (.malformed fault text position))) ∨
      ∃ c, parse s = .error (.crash c) := by
  obtain ⟨cs, hcs⟩ := exists_holds s
  rw [parse_of_holds hcs]
  split
  · exact .inr (.inl ⟨_, _, _, rfl⟩)
  · rcases renders_or_malformed cs with ⟨e, he⟩ | hbad
    · rw [parseInner_of_renders he]
      split
      · exact .inr (.inr ⟨_, rfl⟩)
      · exact .inl ⟨e, rfl⟩
    · exact .inr (.inl hbad)

/-- Reading crashes on integers of too many digits, and on nothing else. -/
theorem parse_crash_iff : (∃ c, parse s = .error (.crash c)) ↔ Overlong s := by
  obtain ⟨cs, hcs⟩ := exists_holds s
  constructor
  · rintro ⟨c, hc⟩
    have hsome : ∃ e, Renders cs e := by
      refine Classical.byContradiction fun hnone => ?_
      obtain ⟨_, _, _, hbad⟩ := (parse_malformed_iff hcs).mpr fun e he => hnone ⟨e, he⟩
      cases hc.symm.trans hbad
    obtain ⟨e, he⟩ := hsome
    refine ⟨cs, e, hcs, he, fun hlimit => ?_⟩
    cases hc.symm.trans ((parse_eq_ok_iff hcs).mpr hlimit)
  · rintro ⟨cs', e, hcs', he, hlimit⟩
    obtain rfl := hcs.unique hcs'
    rcases parse_cases s with ⟨e', hok⟩ | hbad | hcrash
    · -- what is read is what is rendered, as a text is no rendering of two expressions
      have hread := parseInner_of_renders he
      rw [parseInner_eq_ok_iff.mpr ((parse_eq_ok_iff hcs).mp hok)] at hread
      split at hread
      · cases hread
      · cases hread
        exact absurd ((parse_eq_ok_iff hcs).mp hok) hlimit
    · exact absurd he ((parse_malformed_iff hcs).mp hbad e)
    · exact hcrash

end Reading

/-! ### Following a path -/

section Steps

variable {v w : Value} {s : Segment} {path : List Segment} {stop : Stop}

theorem keyIndex?_error {key : String} (h : keyIndex? key = .error stop) :
    ∃ c, stop = .crash c := by
  unfold keyIndex? at h
  dsimp only at h
  split at h
  · cases h
  · split at h
    · cases h
      exact ⟨_, rfl⟩
    · split at h
      · cases h
      · cases h
        exact ⟨_, rfl⟩

theorem stepSequence_error {length : Nat} {item? : Nat → Option Value}
    (h : stepSequence length item? s = .error stop) :
    ∃ key, s = .key key ∧ keyIndex? key = .error stop := by
  cases s with
  | index n => cases h
  | key key =>
    refine ⟨key, rfl, ?_⟩
    rw [stepSequence] at h
    split at h
    · cases h
    · cases hk : keyIndex? key with
      | error e =>
        rw [hk] at h
        cases h
        rfl
      | ok found =>
        rw [hk] at h
        cases found <;> cases h

/-- What ends a step is a key that is taken for an index and is none. -/
theorem stepInto_error (h : stepInto v s = .error stop) :
    ∃ key, s = .key key ∧ keyIndex? key = .error stop := by
  cases v with
  | list items => exact stepSequence_error h
  | tuple items => exact stepSequence_error h
  | str text => exact stepSequence_error h
  | _ => cases h

theorem follow_cons :
    follow v (s :: path) =
      (stepInto v s).bind fun w => if w.isNull then .ok .null else follow w path := rfl

/-- Null leads to nothing. -/
theorem follow_null : follow .null path = .ok .null := by
  cases path <;> rfl

/-- A path is followed from what an object has under its first key, or else from null. -/
theorem follow_object {entries : List (Value × Value)} :
    follow (.object entries) (s :: path) =
      follow ((Value.lookup (Segment.asKey s) entries).getD .null) path := by
  have hstep : follow (.object entries) (s :: path) =
      if ((Value.lookup (Segment.asKey s) entries).getD .null).isNull then .ok .null
      else follow ((Value.lookup (Segment.asKey s) entries).getD .null) path := rfl
  rw [hstep]
  split
  · rename_i hn
    cases hw : (Value.lookup (Segment.asKey s) entries).getD .null <;> rw [hw] at hn <;> cases hn
    exact follow_null.symm
  · rfl

/-- **A path is followed to a value or to a crash**: nothing in it is compared. -/
theorem follow_error (h : follow v path = .error stop) : ∃ c, stop = .crash c := by
  induction path generalizing v with
  | nil => cases h
  | cons s rest ih =>
    rw [follow_cons] at h
    cases hs : stepInto v s with
    | error e =>
      rw [hs] at h
      cases h
      obtain ⟨key, -, hkey⟩ := stepInto_error hs
      exact keyIndex?_error hkey
    | ok w =>
      rw [hs] at h
      simp only [Except.bind] at h
      split at h
      · cases h
      · exact ih h

end Steps

/-! ### The outcomes of evaluation -/

section Outcomes

variable {trusted : Bool} {context v : Value} {text : String} {e : Expression}

/-- An expression may be evaluated: its document is trusted, or it is a path. -/
def Allowed (trusted : Bool) (e : Expression) : Prop := trusted = true ∨ e.isPath = true

theorem evaluate_of_parse (hp : parse text = .ok e) (ha : Allowed trusted e) :
    evaluate trusted context text = (value context e).mapError (Stop.fault text) := by
  unfold evaluate
  rw [hp]
  rcases ha with rfl | ha
  · rfl
  · simp [ha, bind, Except.bind]

theorem evaluate_of_not_allowed (hp : parse text = .ok e) (ha : ¬Allowed trusted e) :
    evaluate trusted context text = .error (.expression (.untrusted e.construct text)) := by
  obtain ⟨ht, he⟩ := not_or.mp ha
  unfold evaluate
  rw [hp]
  simp [ht, he, bind, Except.bind]

theorem evaluate_of_parse_error {fault : Fault} (hp : parse text = .error fault) :
    evaluate trusted context text = .error fault := by
  unfold evaluate
  rw [hp]
  rfl

/-- **Evaluation ends in a value** of the expression that is read and allowed. -/
theorem evaluate_eq_ok_iff :
    evaluate trusted context text = .ok v ↔
      ∃ e, parse text = .ok e ∧ Allowed trusted e ∧ value context e = .ok v := by
  constructor
  · intro h
    cases hp : parse text with
    | error fault => cases (evaluate_of_parse_error hp).symm.trans h
    | ok e =>
      by_cases ha : Allowed trusted e
      · refine ⟨e, rfl, ha, ?_⟩
        rw [evaluate_of_parse hp ha] at h
        cases hv : value context e with
        | error stop =>
          rw [hv] at h
          cases h
        | ok w =>
          rw [hv] at h
          cases h
          rfl
      · cases (evaluate_of_not_allowed hp ha).symm.trans h
  · rintro ⟨e, hp, ha, hv⟩
    rw [evaluate_of_parse hp ha, hv]
    rfl

/-- **How evaluation can fail**: by an error of the expression, or in a crash. -/
theorem evaluate_error {fault : Fault} (h : evaluate trusted context text = .error fault) :
    (∃ e, fault = .expression e) ∨ ∃ c, fault = .crash c := by
  rcases parse_cases text with ⟨e, hp⟩ | ⟨_, _, _, hp⟩ | ⟨c, hp⟩
  · by_cases ha : Allowed trusted e
    · rw [evaluate_of_parse hp ha] at h
      cases hv : value context e with
      | ok v =>
        rw [hv] at h
        cases h
      | error stop =>
        rw [hv] at h
        cases h
        cases stop with
        | incomparable left right => exact .inl ⟨_, rfl⟩
        | crash c => exact .inr ⟨c, rfl⟩
    · cases (evaluate_of_not_allowed hp ha).symm.trans h
      exact .inl ⟨_, rfl⟩
  · cases (evaluate_of_parse_error hp).symm.trans h
    exact .inl ⟨_, rfl⟩
  · cases (evaluate_of_parse_error hp).symm.trans h
    exact .inr ⟨c, rfl⟩

theorem value_of_path (he : e.isPath) :
    ∃ path, ∀ context, value context e = follow context path := by
  cases e with
  | path root segments => exact ⟨.key root :: segments, fun _ => rfl⟩
  | _ => cases he

/-- **How evaluation without trust can fail**: on a malformed text, by refusing what is no path,
or in a crash. -/
theorem evaluate_false_error {fault : Fault} (h : evaluate false context text = .error fault) :
    (∃ reason s position, fault = .expression (.malformed reason s position)) ∨
      (∃ e, parse text = .ok e ∧ e.isPath = false ∧
        fault = .expression (.untrusted e.construct text)) ∨
      ∃ c, fault = .crash c := by
  rcases parse_cases text with ⟨e, hp⟩ | ⟨reason, s, position, hp⟩ | ⟨c, hp⟩
  · cases he : e.isPath with
    | false =>
      rw [evaluate_of_not_allowed hp (by simp [Allowed, he])] at h
      cases h
      exact .inr (.inl ⟨e, hp, he, rfl⟩)
    | true =>
      rw [evaluate_of_parse hp (.inr he)] at h
      obtain ⟨path, hpath⟩ := value_of_path he
      rw [hpath] at h
      cases hf : follow context path with
      | ok v =>
        rw [hf] at h
        cases h
      | error stop =>
        obtain ⟨c, rfl⟩ := follow_error hf
        rw [hf] at h
        cases h
        exact .inr (.inr ⟨c, rfl⟩)
  · rw [evaluate_of_parse_error hp] at h
    cases h
    exact .inl ⟨reason, s, position, rfl⟩
  · rw [evaluate_of_parse_error hp] at h
    cases h
    exact .inr (.inr ⟨c, rfl⟩)

/-- **What is refused without trust** are the expressions that are no paths, in every context
alike. -/
theorem evaluate_untrusted_iff {construct s : String} :
    evaluate false context text = .error (.expression (.untrusted construct s)) ↔
      ∃ e, parse text = .ok e ∧ e.isPath = false ∧ construct = e.construct ∧ s = text := by
  constructor
  · intro h
    rcases evaluate_false_error h with ⟨_, _, _, hfault⟩ | ⟨e, hp, he, hfault⟩ | ⟨_, hfault⟩
    · cases hfault
    · cases hfault
      exact ⟨e, hp, he, rfl, rfl⟩
    · cases hfault
  · rintro ⟨e, hp, he, rfl, rfl⟩
    exact evaluate_of_not_allowed hp (by simp [Allowed, he])

end Outcomes

end ApiSuite.Expression
