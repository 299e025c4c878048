import ApiSuite.Proofs.Expression.Evaluation
import ApiSuite.Template.Resolution
import Mathlib.Data.List.Forall2

/-!
# What templates are filled in with

Resolving and substituting go over the pieces of a template one by one. This file says what comes
of each piece, and puts together from that what comes of the whole.

An embedded expression **gives** a value if it is no pattern and evaluates to one that is not null
(`ApiSuite.Template.Gives`); it is **settled** if its evaluation does not crash
(`ApiSuite.Template.Settled`). What `ApiSuite.Template.substitute` makes of a text is the text of
each value that is given, and all else as it stands (`ApiSuite.Template.leaves_of_substitute`).
What `ApiSuite.Template.resolve` makes of it is something only if every expression gives a value
(`ApiSuite.Template.resolve_eq_none_iff`).

The two differ in how far they go. Substituting looks at every expression; resolving stops at the
first that gives no value, so that nothing after it can end the operation, and it asks for no text
where the template is one expression alone.
-/

namespace ApiSuite.Template

open Expression

/-- The text of an embedded expression, its wrapper included. -/
def embeddedText (body : List Char) : String := String.ofList (wrap body)

/-- A text that is one embedded expression is that expression. -/
theorem eq_embeddedText {s : String} {body : List Char} (h : split s.toList = [.embedded body]) :
    s = embeddedText body := by
  have hjoin := join_split s.toList
  rw [h] at hjoin
  refine String.ext ?_
  rw [embeddedText, String.toList_ofList, ← hjoin]
  simp [join, Piece.text]

/-! ### One expression -/

/-- An expression gives a value: it is no pattern, and it evaluates to that value, not null. -/
def Gives (trusted : Bool) (context : Value) (text : String) (v : Value) : Prop :=
  isPattern text = false ∧ evaluate trusted context text = .ok v ∧ v.isNull = false

/-- The evaluation of an expression comes to an end: it gives a value, or it counts as having
none. -/
def Settled (trusted : Bool) (context : Value) (text : String) : Prop :=
  ∃ found, (evaluatePart trusted context text).result = .ok found

section Part

variable {trusted : Bool} {context v w : Value} {text : String}

theorem Gives.unique (h : Gives trusted context text v) (h' : Gives trusted context text w) :
    v = w := Except.ok.inj (h.2.1.symm.trans h'.2.1)

theorem evaluatePart_of_gives (h : Gives trusted context text v) :
    (evaluatePart trusted context text).result = .ok (some v) := by
  obtain ⟨hp, hv, hn⟩ := h
  simp [evaluatePart, hp, hv, present, hn]

theorem evaluatePart_of_pattern (hp : isPattern text = true) :
    (evaluatePart trusted context text).result = .ok none := by
  simp [evaluatePart, hp]

/-- **What is wrong with an expression counts as no value.** -/
theorem evaluatePart_of_expression_error {e : Expression.Error}
    (he : evaluate trusted context text = .error (.expression e)) :
    (evaluatePart trusted context text).result = .ok none := by
  cases hp : isPattern text with
  | true => exact evaluatePart_of_pattern hp
  | false =>
    simp only [evaluatePart, hp, he]
    rfl

theorem evaluatePart_of_crash {c : Crash} (hp : isPattern text = false)
    (he : evaluate trusted context text = .error (.crash c)) :
    (evaluatePart trusted context text).result = .error (.crash c) := by
  simp only [evaluatePart, hp, he]
  rfl

/-- An expression gives a value, counts as having none, or crashes. -/
theorem evaluatePart_cases (trusted : Bool) (context : Value) (text : String) :
    (∃ v, Gives trusted context text v) ∨
      (evaluatePart trusted context text).result = .ok none ∨
      ∃ c, isPattern text = false ∧ evaluate trusted context text = .error (.crash c) := by
  cases hp : isPattern text with
  | true => exact .inr (.inl (evaluatePart_of_pattern hp))
  | false =>
    cases he : evaluate trusted context text with
    | ok v =>
      cases hn : v.isNull with
      | false => exact .inl ⟨v, hp, he, hn⟩
      | true =>
        refine .inr (.inl ?_)
        simp [evaluatePart, hp, he, present, hn]
    | error fault =>
      rcases evaluate_error he with ⟨e, rfl⟩ | ⟨c, rfl⟩
      · exact .inr (.inl (evaluatePart_of_expression_error he))
      · exact .inr (.inr ⟨c, rfl, rfl⟩)

theorem not_gives_of_none (h : (evaluatePart trusted context text).result = .ok none) :
    ¬∃ v, Gives trusted context text v := by
  rintro ⟨v, hv⟩
  cases h.symm.trans (evaluatePart_of_gives hv)

theorem settled_iff_not_crash :
    Settled trusted context text ↔
      ∀ c, isPattern text = false → evaluate trusted context text ≠ .error (.crash c) := by
  constructor
  · rintro ⟨found, hfound⟩ c hp he
    cases (evaluatePart_of_crash hp he).symm.trans hfound
  · intro h
    rcases evaluatePart_cases trusted context text with ⟨v, hv⟩ | hnone | ⟨c, hp, he⟩
    · exact ⟨_, evaluatePart_of_gives hv⟩
    · exact ⟨_, hnone⟩
    · exact absurd he (h c hp)

end Part

/-! ### Substitution -/

section Substitution

variable {trusted : Bool} {context : Value} {body : List Char} {pieces : List Piece}

/-- An expression is filled in with a text: that of the value it gives. -/
def FilledWith (trusted : Bool) (context : Value) (body : List Char) (text : String) : Prop :=
  ∃ v, Gives trusted context (embeddedText body) v ∧ toText v = .ok text

/-- What substitution leaves in the place of a piece. -/
inductive Leaves (trusted : Bool) (context : Value) : Piece → List Char → Prop
  | char (c : Char) : Leaves trusted context (.char c) [c]
  | filled {body : List Char} {text : String} : FilledWith trusted context body text →
      Leaves trusted context (.embedded body) text.toList
  | verbatim {body : List Char} : (¬∃ v, Gives trusted context (embeddedText body) v) →
      Leaves trusted context (.embedded body) (wrap body)

/-- An expression can be filled in, or be left as it is: it is settled, and the value that it
gives, if it gives one, has a text. -/
def Fillable (trusted : Bool) (context : Value) (body : List Char) : Prop :=
  Settled trusted context (embeddedText body) ∧
    ∀ v, Gives trusted context (embeddedText body) v → ∃ text, toText v = .ok text

theorem FilledWith.fillable {text : String} (h : FilledWith trusted context body text) :
    Fillable trusted context body := by
  obtain ⟨v, hv, ht⟩ := h
  exact ⟨⟨_, evaluatePart_of_gives hv⟩, fun w hw => ⟨text, hw.unique hv ▸ ht⟩⟩

theorem FilledWith.unique {text text' : String} (h : FilledWith trusted context body text)
    (h' : FilledWith trusted context body text') : text = text' := by
  obtain ⟨v, hv, ht⟩ := h
  obtain ⟨v', hv', ht'⟩ := h'
  cases hv.unique hv'
  exact Except.ok.inj (ht.symm.trans ht')

/-- Substitution leaves one text in the place of a piece. -/
theorem Leaves.unique {piece : Piece} {left left' : List Char}
    (h : Leaves trusted context piece left) (h' : Leaves trusted context piece left') :
    left = left' := by
  cases h with
  | char c =>
    cases h'
    rfl
  | filled ht =>
    cases h' with
    | filled ht' => rw [ht.unique ht']
    | verbatim hnot =>
      obtain ⟨v, hv, -⟩ := ht
      exact absurd ⟨v, hv⟩ hnot
  | verbatim hnot =>
    cases h' with
    | filled ht' =>
      obtain ⟨v, hv, -⟩ := ht'
      exact absurd ⟨v, hv⟩ hnot
    | verbatim _ => rfl

/-- The text that an expression is filled in with, if it gives a value. -/
def filling (trusted : Bool) (context : Value) (body : List Char) :
    Except Fault (Option String) :=
  (evaluatePart trusted context (embeddedText body)).result.bind fun found =>
    found.elim (.ok none) fun v => (textOf v).map some

theorem filling_of_gives {v : Value} (h : Gives trusted context (embeddedText body) v) :
    filling trusted context body = (textOf v).map some := by
  rw [filling, evaluatePart_of_gives h]
  rfl

theorem textOf_of_ok {v : Value} {text : String} (h : toText v = .ok text) :
    textOf v = .ok text := by
  rw [textOf, h]
  rfl

theorem textOf_of_error {v : Value} {e : Value.TextError} (h : toText v = .error e) :
    textOf v = .error (.crash (.noText e)) := by
  rw [textOf, h]
  rfl

/-- **What comes of an expression** is the text that it is filled in with, nothing if it gives no
value, and a crash if it can neither be filled in nor be left as it is. -/
theorem filling_cases (trusted : Bool) (context : Value) (body : List Char) :
    (∃ text, FilledWith trusted context body text ∧
        filling trusted context body = .ok (some text)) ∨
      (Fillable trusted context body ∧ (¬∃ v, Gives trusted context (embeddedText body) v) ∧
        filling trusted context body = .ok none) ∨
      ¬Fillable trusted context body ∧
        ∃ c, filling trusted context body = .error (.crash c) := by
  rcases evaluatePart_cases trusted context (embeddedText body) with ⟨v, hv⟩ | hnone | ⟨c, hp, he⟩
  · rw [filling_of_gives hv]
    cases ht : toText v with
    | ok text => exact .inl ⟨text, ⟨v, hv, ht⟩, by rw [textOf_of_ok ht]; rfl⟩
    | error e =>
      refine .inr (.inr ⟨fun hf => ?_, .noText e, by rw [textOf_of_error ht]; rfl⟩)
      obtain ⟨text, htext⟩ := hf.2 v hv
      cases ht.symm.trans htext
  · have hnot := not_gives_of_none hnone
    refine .inr (.inl ⟨⟨⟨_, hnone⟩, fun v hv => absurd ⟨v, hv⟩ hnot⟩, hnot, ?_⟩)
    rw [filling, hnone]
    rfl
  · refine .inr (.inr ⟨fun hf => settled_iff_not_crash.mp hf.1 c hp he, c, ?_⟩)
    rw [filling, evaluatePart_of_crash hp he]
    rfl

theorem fillPresent_char (c : Char) :
    (fillPresent trusted context (.char c :: pieces)).result =
      (fillPresent trusted context pieces).result.map (c :: ·) := by
  rw [fillPresent, Traced.result_bind]
  cases (fillPresent trusted context pieces).result <;> rfl

theorem fillPresent_embedded :
    (fillPresent trusted context (.embedded body :: pieces)).result =
      (filling trusted context body).bind fun found =>
        (fillPresent trusted context pieces).result.map
          (found.elim (wrap body) String.toList ++ ·) := by
  rw [fillPresent, Traced.result_bind, filling]
  show Except.bind (evaluatePart trusted context (embeddedText body)).result _ = _
  rcases (evaluatePart trusted context (embeddedText body)).result with fault | _ | v
  · rfl
  · simp only [Except.bind, Traced.result_bind]
    cases (fillPresent trusted context pieces).result <;> rfl
  · show _ = Except.bind ((textOf v).map some) _
    simp only [Except.bind, Traced.result_bind]
    cases textOf v with
    | error fault => rfl
    | ok text => cases (fillPresent trusted context pieces).result <;> rfl

/-- **Substitution goes through some pieces, and then through others.** -/
theorem fillPresent_append (before after : List Piece) :
    fillPresent trusted context (before ++ after) = (do
      let left ← fillPresent trusted context before
      let right ← fillPresent trusted context after
      pure (left ++ right)) := by
  induction before with
  | nil => simp [fillPresent]
  | cons piece before ih =>
    rw [List.cons_append]
    cases piece with
    | char c => simp [fillPresent, ih]
    | embedded body =>
      simp only [fillPresent, ih, bind_assoc]
      refine bind_congr fun value => ?_
      cases value <;> simp only [pure_bind, bind_assoc, List.append_assoc]

/-- Substitution leaves a text in the place of an expression, or crashes on it. -/
theorem leaves_or_crash (trusted : Bool) (context : Value) (body : List Char) :
    (Fillable trusted context body ∧ ∃ found, filling trusted context body = .ok found ∧
        Leaves trusted context (.embedded body) (found.elim (wrap body) String.toList)) ∨
      ¬Fillable trusted context body ∧
        ∃ c, filling trusted context body = .error (.crash c) := by
  rcases filling_cases trusted context body with
    ⟨text, htext, hfilling⟩ | ⟨hfill, hnot, hfilling⟩ | hcrash
  · exact .inl ⟨htext.fillable, some text, hfilling, .filled htext⟩
  · exact .inl ⟨hfill, none, hfilling, .verbatim hnot⟩
  · exact .inr hcrash

/-- **Substitution, piece by piece.** If every expression can be filled in or left as it is, each
piece leaves a text, and these make up the result; otherwise the substitution crashes. -/
theorem fillPresent_cases (trusted : Bool) (context : Value) (pieces : List Piece) :
    ((∀ body, .embedded body ∈ pieces → Fillable trusted context body) ∧
        ∃ texts, List.Forall₂ (Leaves trusted context) pieces texts ∧
          (fillPresent trusted context pieces).result = .ok texts.flatten) ∨
      (∃ body, .embedded body ∈ pieces ∧ ¬Fillable trusted context body) ∧
        ∃ c, (fillPresent trusted context pieces).result = .error (.crash c) := by
  induction pieces with
  | nil => exact .inl ⟨by simp, [], .nil, rfl⟩
  | cons piece pieces ih =>
    cases piece with
    | char c =>
      rw [fillPresent_char]
      rcases ih with ⟨hall, texts, hleaves, hok⟩ | ⟨⟨body, hbody, hnot⟩, e, he⟩
      · refine .inl ⟨fun body hbody => hall body (by simpa using hbody), [c] :: texts,
          .cons (.char c) hleaves, ?_⟩
        rw [hok]
        rfl
      · refine .inr ⟨⟨body, List.mem_cons_of_mem _ hbody, hnot⟩, e, ?_⟩
        rw [he]
        rfl
    | embedded body =>
      rw [fillPresent_embedded]
      rcases leaves_or_crash trusted context body with
        ⟨hfill, found, hfound, hleave⟩ | ⟨hnot, e, he⟩
      · rw [hfound]
        rcases ih with ⟨hall, texts, hleaves, hok⟩ | ⟨⟨body', hbody', hnot⟩, e, he⟩
        · refine .inl ⟨fun b hb => ?_, _ :: texts, .cons hleave hleaves, ?_⟩
          · rcases List.mem_cons.mp hb with hb | hb
            · cases hb
              exact hfill
            · exact hall b hb
          · rw [hok]
            rfl
        · refine .inr ⟨⟨body', List.mem_cons_of_mem _ hbody', hnot⟩, e, ?_⟩
          rw [he]
          rfl
      · refine .inr ⟨⟨body, List.mem_cons_self, hnot⟩, e, ?_⟩
        rw [he]
        rfl

variable {s out : String}

theorem result_substitute :
    (substitute trusted context s).result =
      (fillPresent trusted context (split s.toList)).result.map String.ofList := by
  rw [substitute, Traced.result_bind]
  cases (fillPresent trusted context (split s.toList)).result <;> rfl

/-- A text can be substituted in exactly if each of its expressions can be filled in, or be left
as it is. -/
theorem substitute_ok_iff :
    (∃ out, (substitute trusted context s).result = .ok out) ↔
      ∀ body, .embedded body ∈ split s.toList → Fillable trusted context body := by
  rw [result_substitute]
  rcases fillPresent_cases trusted context (split s.toList) with
    ⟨hall, texts, -, hok⟩ | ⟨⟨body, hbody, hnot⟩, e, he⟩
  · rw [hok]
    exact ⟨fun _ => hall, fun _ => ⟨_, rfl⟩⟩
  · rw [he]
    constructor
    · rintro ⟨out, hout⟩
      cases hout
    · exact fun hall => absurd (hall body hbody) hnot

/-- **What substitution makes of a text** is what it leaves in the place of each piece. -/
theorem leaves_of_substitute (h : (substitute trusted context s).result = .ok out) :
    ∃ texts, List.Forall₂ (Leaves trusted context) (split s.toList) texts ∧
      out.toList = texts.flatten := by
  rw [result_substitute] at h
  rcases fillPresent_cases trusted context (split s.toList) with
    ⟨-, texts, hleaves, hok⟩ | ⟨-, e, he⟩
  · rw [hok] at h
    cases h
    exact ⟨texts, hleaves, String.toList_ofList⟩
  · rw [he] at h
    cases h

theorem substitute_error {fault : Fault}
    (h : (substitute trusted context s).result = .error fault) : ∃ c, fault = .crash c := by
  rw [result_substitute] at h
  rcases fillPresent_cases trusted context (split s.toList) with ⟨-, texts, -, hok⟩ | ⟨-, e, he⟩
  · rw [hok] at h
    cases h
  · rw [he] at h
    cases h
    exact ⟨e, rfl⟩

end Substitution

/-! ### Resolution -/

section Resolution

variable {trusted : Bool} {context : Value} {body : List Char} {pieces : List Piece}

/-- The first expression that is not filled in, either because it gives no value or because its
value has no text. -/
def FirstUnfilled (trusted : Bool) (context : Value) (pieces : List Piece) (body : List Char) :
    Prop :=
  ∃ before after, pieces = before ++ .embedded body :: after ∧
    (∀ b, .embedded b ∈ before → ∃ text, FilledWith trusted context b text) ∧
    ¬∃ text, FilledWith trusted context body text

theorem FirstUnfilled.mem (h : FirstUnfilled trusted context pieces body) :
    .embedded body ∈ pieces := by
  obtain ⟨before, after, rfl, -, -⟩ := h
  simp

theorem FirstUnfilled.not_filledWith (h : FirstUnfilled trusted context pieces body) :
    ¬∃ text, FilledWith trusted context body text := by
  obtain ⟨_, _, _, _, hnot⟩ := h
  exact hnot

theorem FirstUnfilled.head (h : ¬∃ text, FilledWith trusted context body text) :
    FirstUnfilled trusted context (.embedded body :: pieces) body :=
  ⟨[], pieces, rfl, by simp, h⟩

theorem FirstUnfilled.cons {piece : Piece} (h : FirstUnfilled trusted context pieces body)
    (hp : ∀ b, piece = .embedded b → ∃ text, FilledWith trusted context b text) :
    FirstUnfilled trusted context (piece :: pieces) body := by
  obtain ⟨before, after, rfl, hbefore, hnot⟩ := h
  refine ⟨piece :: before, after, rfl, fun b hb => ?_, hnot⟩
  rcases List.mem_cons.mp hb with hb | hb
  · exact hp b hb.symm
  · exact hbefore b hb

/-- There is only one first expression that is not filled in. -/
theorem FirstUnfilled.unique {body' : List Char} (h : FirstUnfilled trusted context pieces body)
    (h' : FirstUnfilled trusted context pieces body') : body = body' := by
  obtain ⟨before, after, rfl, hbefore, hnot⟩ := h
  obtain ⟨before', after', hsplit, hbefore', hnot'⟩ := h'
  induction before generalizing before' with
  | nil =>
    cases before' with
    | nil =>
      cases hsplit
      rfl
    | cons piece before' =>
      cases hsplit
      exact absurd (hbefore' body (by simp)) hnot
  | cons piece before ih =>
    cases before' with
    | nil =>
      cases hsplit
      exact absurd (hbefore body' (by simp)) hnot'
    | cons piece' before' =>
      obtain ⟨-, htail⟩ := List.cons.inj hsplit
      exact ih (fun b hb => hbefore b (List.mem_cons_of_mem _ hb)) before' htail
        fun b hb => hbefore' b (List.mem_cons_of_mem _ hb)

theorem fill_char (c : Char) :
    (fill trusted context (.char c :: pieces)).result =
      (fill trusted context pieces).result.map (Option.map (c :: ·)) := by
  rw [fill, Traced.result_bind]
  cases (fill trusted context pieces).result <;> rfl

theorem fill_embedded :
    (fill trusted context (.embedded body :: pieces)).result =
      (filling trusted context body).bind fun found => found.elim (.ok none) fun text =>
        (fill trusted context pieces).result.map (Option.map (text.toList ++ ·)) := by
  rw [fill, Traced.result_bind, filling]
  show Except.bind (evaluatePart trusted context (embeddedText body)).result _ = _
  rcases (evaluatePart trusted context (embeddedText body)).result with fault | _ | v
  · rfl
  · rfl
  · simp only [Except.bind, Traced.result_bind]
    show Except.bind (textOf v) _ = Except.bind ((textOf v).map some) _
    cases textOf v with
    | error fault => rfl
    | ok text =>
      simp only [Except.bind]
      cases (fill trusted context pieces).result <;> rfl

/-- **Filling in, piece by piece.** Either every expression is filled in, or the first that is not
decides: what has no value makes the whole have none, and what cannot be filled in crashes. -/
theorem fill_cases (trusted : Bool) (context : Value) (pieces : List Piece) :
    ((∀ body, .embedded body ∈ pieces → ∃ text, FilledWith trusted context body text) ∧
        ∃ texts, List.Forall₂ (Leaves trusted context) pieces texts ∧
          (fill trusted context pieces).result = .ok (some texts.flatten)) ∨
      ∃ body, FirstUnfilled trusted context pieces body ∧
        ((Fillable trusted context body ∧ (¬∃ v, Gives trusted context (embeddedText body) v) ∧
            (fill trusted context pieces).result = .ok none) ∨
          ¬Fillable trusted context body ∧
            ∃ c, (fill trusted context pieces).result = .error (.crash c)) := by
  induction pieces with
  | nil => exact .inl ⟨by simp, [], .nil, rfl⟩
  | cons piece pieces ih =>
    cases piece with
    | char c =>
      rw [fill_char]
      rcases ih with ⟨hall, texts, hleaves, hok⟩ | ⟨body, hfirst, hcases⟩
      · refine .inl ⟨fun body hbody => hall body (by simpa using hbody), [c] :: texts,
          .cons (.char c) hleaves, ?_⟩
        rw [hok]
        rfl
      · refine .inr ⟨body, hfirst.cons (by simp), ?_⟩
        rcases hcases with ⟨hfill, hnot, hnone⟩ | ⟨hnot, e, he⟩
        · exact .inl ⟨hfill, hnot, by rw [hnone]; rfl⟩
        · exact .inr ⟨hnot, e, by rw [he]; rfl⟩
    | embedded body =>
      rw [fill_embedded]
      -- an expression that is not filled in decides, whatever comes after it
      rcases filling_cases trusted context body with
        ⟨text, htext, hfilling⟩ | ⟨hfill, hnot, hfilling⟩ | ⟨hnot, e, he⟩
      · have hhead : ∀ b, Piece.embedded body = .embedded b →
            ∃ text, FilledWith trusted context b text := by
          rintro _ ⟨⟩
          exact ⟨text, htext⟩
        rw [hfilling]
        rcases ih with ⟨hall, texts, hleaves, hok⟩ | ⟨body', hfirst, hcases⟩
        · refine .inl ⟨fun b hb => ?_, text.toList :: texts, .cons (.filled htext) hleaves, ?_⟩
          · rcases List.mem_cons.mp hb with hb | hb
            · exact hhead b hb.symm
            · exact hall b hb
          · rw [hok]
            rfl
        · refine .inr ⟨body', hfirst.cons hhead, ?_⟩
          rcases hcases with ⟨hfill, hnot, hnone⟩ | ⟨hnot, e, he⟩
          · exact .inl ⟨hfill, hnot, by rw [hnone]; rfl⟩
          · exact .inr ⟨hnot, e, by rw [he]; rfl⟩
      · refine .inr ⟨body, .head ?_, .inl ⟨hfill, hnot, by rw [hfilling]; rfl⟩⟩
        rintro ⟨text, v, hv, -⟩
        exact hnot ⟨v, hv⟩
      · refine .inr ⟨body, .head ?_, .inr ⟨hnot, e, by rw [he]; rfl⟩⟩
        rintro ⟨text, htext⟩
        exact hnot htext.fillable

variable {s : String}

/-- A text is one embedded expression, and nothing else. -/
def IsLone (s : String) : Prop := ∃ body, split s.toList = [.embedded body]

theorem resolve_of_lone (h : split s.toList = [.embedded body]) :
    resolve trusted context s = evaluatePart trusted context (embeddedText body) := by
  rw [← eq_embeddedText h, resolve, h]

theorem result_resolve_of_not_lone (h : ¬IsLone s) :
    (resolve trusted context s).result =
      (fill trusted context (split s.toList)).result.map
        (Option.map fun cs => .str (String.ofList cs)) := by
  rw [resolve]
  split
  · rename_i body hbody
    exact absurd ⟨body, hbody⟩ h
  · rw [Traced.result_bind]
    cases (fill trusted context (split s.toList)).result <;> rfl

/-- What resolution makes of a text: the value of the one expression that it is, or the text in
which every expression is filled in. -/
def ResolvesTo (trusted : Bool) (context : Value) (s : String) (v : Value) : Prop :=
  (∃ body, split s.toList = [.embedded body] ∧ Gives trusted context (embeddedText body) v) ∨
    ¬IsLone s ∧
      (∀ body, .embedded body ∈ split s.toList → ∃ text, FilledWith trusted context body text) ∧
      ∃ texts, List.Forall₂ (Leaves trusted context) (split s.toList) texts ∧
        v = .str (String.ofList texts.flatten)

/-- A text cannot be resolved to the end: the one expression that it is crashes, or the first that
is not filled in cannot be, though it has a value. -/
def Breaks (trusted : Bool) (context : Value) (s : String) : Prop :=
  (∃ body, split s.toList = [.embedded body] ∧ ¬Settled trusted context (embeddedText body)) ∨
    ¬IsLone s ∧ ∃ body, FirstUnfilled trusted context (split s.toList) body ∧
      ¬Fillable trusted context body

theorem ResolvesTo.gives {v : Value} (h : ResolvesTo trusted context s v)
    (hbody : .embedded body ∈ split s.toList) :
    ∃ w, Gives trusted context (embeddedText body) w := by
  rcases h with ⟨body', hsplit, hv⟩ | ⟨-, hall, -⟩
  · rw [hsplit] at hbody
    cases List.mem_singleton.mp hbody
    exact ⟨v, hv⟩
  · obtain ⟨text, w, hw, -⟩ := hall body hbody
    exact ⟨w, hw⟩

/-- **Resolution comes to a value, to none, or breaks.** It comes to none only on an expression
that gives no value. -/
theorem resolve_cases (trusted : Bool) (context : Value) (s : String) :
    (¬Breaks trusted context s ∧ ∃ v, ResolvesTo trusted context s v ∧
        (resolve trusted context s).result = .ok (some v)) ∨
      (¬Breaks trusted context s ∧ (resolve trusted context s).result = .ok none ∧
        ∃ body, .embedded body ∈ split s.toList ∧
          ¬∃ v, Gives trusted context (embeddedText body) v) ∨
      Breaks trusted context s ∧ ∃ c, (resolve trusted context s).result = .error (.crash c) := by
  by_cases hlone : IsLone s
  · -- the one expression is evaluated and not filled in, so its value needs no text
    obtain ⟨body, hbody⟩ := hlone
    have hnot : Settled trusted context (embeddedText body) → ¬Breaks trusted context s := by
      rintro hsettled (⟨body', hbody', hcrash⟩ | ⟨hlone, -⟩)
      · cases hbody.symm.trans hbody'
        exact hcrash hsettled
      · exact hlone ⟨body, hbody⟩
    rw [resolve_of_lone hbody]
    rcases evaluatePart_cases trusted context (embeddedText body) with
      ⟨v, hv⟩ | hnone | ⟨c, hp, he⟩
    · have hpart := evaluatePart_of_gives hv
      exact .inl ⟨hnot ⟨_, hpart⟩, v, .inl ⟨body, hbody, hv⟩, hpart⟩
    · exact .inr (.inl ⟨hnot ⟨_, hnone⟩, hnone, body, by simp [hbody], not_gives_of_none hnone⟩)
    · have hcrash := fun h => settled_iff_not_crash.mp h c hp he
      exact .inr (.inr ⟨.inl ⟨body, hbody, hcrash⟩, c, evaluatePart_of_crash hp he⟩)
  · rw [result_resolve_of_not_lone hlone]
    have hbreaks : Breaks trusted context s →
        ∃ body, FirstUnfilled trusted context (split s.toList) body ∧
          ¬Fillable trusted context body := by
      rintro (⟨body, hbody, -⟩ | ⟨-, h⟩)
      · exact absurd ⟨body, hbody⟩ hlone
      · exact h
    rcases fill_cases trusted context (split s.toList) with
      ⟨hall, texts, hleaves, hok⟩ | ⟨body, hfirst, hcases⟩
    · refine .inl ⟨fun h => ?_, .str (String.ofList texts.flatten),
        .inr ⟨hlone, hall, texts, hleaves, rfl⟩, by rw [hok]; rfl⟩
      obtain ⟨body, hfirst, -⟩ := hbreaks h
      exact hfirst.not_filledWith (hall body hfirst.mem)
    · rcases hcases with ⟨hfill, hnot, hnone⟩ | ⟨hnot, c, hc⟩
      · refine .inr (.inl ⟨fun h => ?_, by rw [hnone]; rfl, body, hfirst.mem, hnot⟩)
        obtain ⟨body', hfirst', hnot'⟩ := hbreaks h
        exact hnot' (hfirst.unique hfirst' ▸ hfill)
      · exact .inr (.inr ⟨.inr ⟨hlone, body, hfirst, hnot⟩, c, by rw [hc]; rfl⟩)

/-- A text is resolved to the end exactly if it does not break. -/
theorem resolve_ok_iff :
    (∃ found, (resolve trusted context s).result = .ok found) ↔ ¬Breaks trusted context s := by
  rcases resolve_cases trusted context s with
    ⟨hnot, v, -, hok⟩ | ⟨hnot, hnone, -⟩ | ⟨hbreaks, c, hc⟩
  · exact ⟨fun _ => hnot, fun _ => ⟨_, hok⟩⟩
  · exact ⟨fun _ => hnot, fun _ => ⟨_, hnone⟩⟩
  · refine ⟨?_, fun h => absurd hbreaks h⟩
    rintro ⟨found, hfound⟩
    cases hc.symm.trans hfound

theorem resolvesTo_of_resolve {v : Value}
    (h : (resolve trusted context s).result = .ok (some v)) : ResolvesTo trusted context s v := by
  rcases resolve_cases trusted context s with ⟨-, w, hw, hok⟩ | ⟨-, hnone, -⟩ | ⟨-, c, hc⟩
  · cases hok.symm.trans h
    exact hw
  · cases hnone.symm.trans h
  · cases hc.symm.trans h

/-- **A text that is resolved to the end has no value exactly if one of its expressions gives
none.** -/
theorem resolve_eq_none_iff {found : Option Value}
    (h : (resolve trusted context s).result = .ok found) :
    found = none ↔ ∃ body, .embedded body ∈ split s.toList ∧
      ¬∃ v, Gives trusted context (embeddedText body) v := by
  rcases resolve_cases trusted context s with ⟨-, w, hw, hok⟩ | ⟨-, hnone, hbody⟩ | ⟨-, c, hc⟩
  · cases hok.symm.trans h
    refine ⟨nofun, ?_⟩
    rintro ⟨body, hbody, hnot⟩
    exact absurd (hw.gives hbody) hnot
  · cases hnone.symm.trans h
    exact ⟨fun _ => hbody, fun _ => rfl⟩
  · cases hc.symm.trans h

theorem resolve_error {fault : Fault} (h : (resolve trusted context s).result = .error fault) :
    ∃ c, fault = .crash c := by
  rcases resolve_cases trusted context s with ⟨-, w, -, hok⟩ | ⟨-, hnone, -⟩ | ⟨-, c, hc⟩
  · cases hok.symm.trans h
  · cases hnone.symm.trans h
  · cases hc.symm.trans h
    exact ⟨c, rfl⟩

/-! The mode and the context enter through the expressions only. -/

variable {trusted' : Bool} {context' : Value}

theorem fill_congr (h : ∀ body, .embedded body ∈ pieces →
      evaluatePart trusted context (embeddedText body) =
        evaluatePart trusted' context' (embeddedText body)) :
    fill trusted context pieces = fill trusted' context' pieces := by
  induction pieces with
  | nil => rfl
  | cons piece pieces ih =>
    have hrest := ih fun body hbody => h body (List.mem_cons_of_mem _ hbody)
    cases piece with
    | char c => rw [fill, fill, hrest]
    | embedded body =>
      have hpart := h body List.mem_cons_self
      rw [embeddedText] at hpart
      rw [fill, fill, hrest, hpart]

theorem resolve_congr (h : ∀ body, .embedded body ∈ split s.toList →
      evaluatePart trusted context (embeddedText body) =
        evaluatePart trusted' context' (embeddedText body)) :
    resolve trusted context s = resolve trusted' context' s := by
  by_cases hlone : IsLone s
  · obtain ⟨body, hbody⟩ := hlone
    rw [resolve_of_lone hbody, resolve_of_lone hbody]
    exact h body (by simp [hbody])
  · rw [resolve, resolve]
    split
    · rename_i body hbody
      exact absurd ⟨body, hbody⟩ hlone
    · rw [fill_congr h]

theorem fillPresent_congr (h : ∀ body, .embedded body ∈ pieces →
      evaluatePart trusted context (embeddedText body) =
        evaluatePart trusted' context' (embeddedText body)) :
    fillPresent trusted context pieces = fillPresent trusted' context' pieces := by
  induction pieces with
  | nil => rfl
  | cons piece pieces ih =>
    have hrest := ih fun body hbody => h body (List.mem_cons_of_mem _ hbody)
    cases piece with
    | char c => rw [fillPresent, fillPresent, hrest]
    | embedded body =>
      have hpart := h body List.mem_cons_self
      rw [embeddedText] at hpart
      rw [fillPresent, fillPresent, hrest, hpart]

theorem substitute_congr (h : ∀ body, .embedded body ∈ split s.toList →
      evaluatePart trusted context (embeddedText body) =
        evaluatePart trusted' context' (embeddedText body)) :
    substitute trusted context s = substitute trusted' context' s := by
  rw [substitute, substitute, fillPresent_congr h]

end Resolution

end ApiSuite.Template
