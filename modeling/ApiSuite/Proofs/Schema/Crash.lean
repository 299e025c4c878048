import ApiSuite.Flow.Basic
import ApiSuite.Proofs.Json.Writing
import ApiSuite.Request
import Mathlib.Data.List.Basic

/-!
# When a check crashes

A check of a value gathers what is wrong with it; only a crash ends it at once. Checks are put
together from checks of parts, and one that is put together crashes exactly if one of its parts does
(`ApiSuite.Schema.Checked.crashes_seq`). No check of a scalar crashes, so a check crashes only where
one of its parts is made to.

There is one such part, the attributes of a flow element: their values are read as JSON texts, and a
value that JSON has no form for crashes the check. That a number is too large to be written is an
issue like others, so what counts is the first of the attributes that has no text. A flow crashes
exactly if one of its elements, however deep, has such an attribute (`ApiSuite.crashes_flow_iff`),
and neither requests nor results ever do.
-/

namespace ApiSuite

namespace Schema

variable {α β : Type}

/-! ### Checks put together -/

namespace Checked

/-- A check ends in a crash. -/
def Crashes (x : Checked α) : Prop := ∃ c, x = .crashed c

variable {x : Checked α} {f : Checked (α → β)}

@[simp] theorem not_crashes_valid (a : α) : ¬(valid a).Crashes := nofun

@[simp] theorem not_crashes_invalid (issues : List Issue) :
    ¬(invalid issues : Checked α).Crashes := nofun

@[simp] theorem crashes_crashed (c : Crash) : (crashed c : Checked α).Crashes := ⟨c, rfl⟩

@[simp] theorem crashes_map (g : α → β) : (g <$> x).Crashes ↔ x.Crashes := by
  show (Checked.map g x).Crashes ↔ _
  cases x <;> simp [Checked.map]

@[simp] theorem crashes_map' (g : α → β) : (Checked.map g x).Crashes ↔ x.Crashes := crashes_map g

/-- **What is put together crashes exactly if a part of it does.** -/
@[simp] theorem crashes_seq : (f <*> x).Crashes ↔ f.Crashes ∨ x.Crashes := by
  show (Checked.seq f fun _ => x).Crashes ↔ _
  cases f <;> cases x <;> simp [Checked.seq, Checked.map]

@[simp] theorem crashes_under (l : Location) : (x.under l).Crashes ↔ x.Crashes := by
  cases x <;> simp [under]

end Checked

@[simp] theorem not_crashes_reject (kind : IssueKind) (input : Value) :
    ¬(reject kind input : Checked α).Crashes := by
  simp [reject]

/-! ### Scalars -/

@[simp] theorem not_crashes_text (v : Value) : ¬(text v).Crashes := by
  unfold text
  repeat' split
  all_goals simp

@[simp] theorem not_crashes_any (v : Value) : ¬(any v).Crashes := by simp [any]

@[simp] theorem not_crashes_choice (words : List (String × α)) (v : Value) :
    ¬(choice words v).Crashes := by
  unfold choice
  dsimp only
  split <;> simp

@[simp] theorem not_crashes_plainNumber (input : Value) (cs : List Char) :
    ¬(plainNumber input cs).Crashes := by
  unfold plainNumber
  dsimp only
  repeat' split
  all_goals simp

@[simp] theorem not_crashes_wholeNumberWord (input : Value) (s : String) :
    ¬(wholeNumberWord input s).Crashes := by
  unfold wholeNumberWord
  split <;> simp

@[simp] theorem not_crashes_wholeNumber (v : Value) : ¬(wholeNumber v).Crashes := by
  unfold wholeNumber
  repeat' split
  all_goals simp

/-! ### Collections and records -/

section Parts

variable {check : Check α} {es : List (Value × Value)} {name : String}

@[simp] theorem crashes_orNull (v : Value) :
    (orNull check v).Crashes ↔ v.isNull = false ∧ (check v).Crashes := by
  unfold orNull
  cases v.isNull <;> simp

theorem crashes_items (index : Nat) (vs : List Value) :
    (items check index vs).Crashes ↔ ∃ v ∈ vs, (check v).Crashes := by
  induction vs generalizing index with
  | nil => simp [items]
  | cons v vs ih => simp [items, ih]

/-- The values that a value has as a list. -/
def members : Value → List Value
  | .list vs | .tuple vs | .set vs => vs
  | _ => []

theorem crashes_list (v : Value) :
    (list check v).Crashes ↔ ∃ w ∈ members v, (check w).Crashes := by
  cases v <;> simp [list, members, crashes_items]

theorem crashes_entries : (entries check es).Crashes ↔ ∃ e ∈ es, (check e.2).Crashes := by
  induction es with
  | nil => simp [entries]
  | cons e es ih =>
    obtain ⟨k, v⟩ := e
    simp [entries, ih]

theorem not_crashes_object (hcheck : ∀ v, ¬(check v).Crashes) (v : Value) :
    ¬(object check v).Crashes := by
  cases v <;> simp [object, crashes_entries, hcheck]

@[simp] theorem crashes_defaulted (default : α) :
    (defaulted name default check es).Crashes ↔
      ∃ v, Value.lookup name es = some v ∧ (check v).Crashes := by
  unfold defaulted
  cases Value.lookup name es <;> simp

@[simp] theorem crashes_required :
    (required name check es).Crashes ↔ ∃ v, Value.lookup name es = some v ∧ (check v).Crashes := by
  unfold required
  cases Value.lookup name es <;> simp

@[simp] theorem crashes_optional :
    (optional name check es).Crashes ↔
      ∃ v, Value.lookup name es = some v ∧ v.isNull = false ∧ (check v).Crashes := by
  simp [optional]

theorem crashes_record {read : List (Value × Value) → Checked α} (v : Value) :
    (record name read v).Crashes ↔ ∃ es, v = .object es ∧ (read es).Crashes := by
  cases v <;> simp [record]

end Parts

end Schema

open Schema

/-! ### Requests and results -/

/-- **A request never crashes its check.** -/
theorem not_crashes_request (v : Value) : ¬(Request.read v).Crashes := by
  simp [Request.read, crashes_record, not_crashes_object]

theorem not_crashes_response (v : Value) : ¬(Response.read v).Crashes := by
  simp [Response.read, Status.read, crashes_record, not_crashes_object]

/-- **An expected result never crashes its check.** -/
theorem not_crashes_expectedResult (v : Value) : ¬(ExpectedResult.read v).Crashes := by
  simp [ExpectedResult.read, crashes_record, not_crashes_object, not_crashes_response]

/-! ### Flows -/

/-- A key has no text: it is a number too large to be written. -/
def Nameless (k : Value) : Prop := ¬∃ s, k.display = .ok s

/-- The entry of an attribute that has no text: it is not null, and its key has none, or JSON has no
form for its value. -/
def IsTextless (k v : Value) : Prop := v.isNull = false ∧ (Nameless k ∨ ¬v.HasJson)

/-- The text that the value of an attribute is read as. -/
def attributeText : Value → Except Value.TextError String
  | .str s => .ok s
  | v => Json.print .compact v

/-- The entry of an attribute of which the value is at fault: it is not null and its key has a text,
and JSON has no form for a part of it before a number in it is too large to be written. -/
def IsFormless (k v : Value) : Prop :=
  v.isNull = false ∧ ¬Nameless k ∧ ∃ e, attributeText v = .error e ∧ e ≠ .hugeNumeral

/-- The first of some attributes that has no text is one of which the value is at fault. -/
def FirstFormless (as : List (Value × Value)) : Prop :=
  ∃ before k v after, as = before ++ (k, v) :: after ∧
    (∀ e ∈ before, ¬IsTextless e.1 e.2) ∧ IsFormless k v

/-- An element of a flow has attributes of which the first without a text is one that JSON has no
form for. -/
def HasTextlessAttribute (v : Value) : Prop :=
  ∃ es as, v = .object es ∧ Value.lookup "attributes" es = some (.object as) ∧ FirstFormless as

/-- The values that an object has in a list under a name. -/
def itemsUnder (name : String) : Value → List Value
  | .object es => ((Value.lookup name es).map members).getD []
  | _ => []

/-- A step and its links. -/
def stepElements (v : Value) : List Value := v :: itemsUnder "links" v

/-- A subflow and the elements of its steps. -/
def subflowElements (v : Value) : List Value := v :: (itemsUnder "steps" v).flatMap stepElements

/-- A flow, and the elements of its steps and subflows. -/
def flowElements (v : Value) : List Value :=
  v :: ((itemsUnder "steps" v).flatMap stepElements ++
    (itemsUnder "subflows" v).flatMap subflowElements)

theorem attributeText_ok_iff {v : Value} : (∃ s, attributeText v = .ok s) ↔ v.HasJson := by
  cases v with
  | str s => exact ⟨fun _ => .str s, fun _ => ⟨s, rfl⟩⟩
  | _ => exact Json.print_compact_ok_iff

theorem attributeTexts_cons {k v : Value} {rest : List (Value × Value)} (hn : v.isNull = false) :
    attributeTexts ((k, v) :: rest) =
      k.display.bind fun key => (attributeText v).bind fun value =>
        (attributeTexts rest).map ((.str key, .str value) :: ·) := by
  rw [attributeTexts, if_neg (by simp [hn])]
  cases k.display with
  | error e => rfl
  | ok key =>
    -- the text of the value comes from two computations, which go on in the same way
    cases v with
    | null => cases hn
    | str s => cases attributeTexts rest <;> rfl
    | _ =>
      simp only [attributeText, bind, Except.bind]
      split
      · rfl
      · cases attributeTexts rest <;> rfl

theorem firstFormless_cons {k v : Value} {rest : List (Value × Value)} :
    FirstFormless ((k, v) :: rest) ↔
      IsFormless k v ∨ (¬IsTextless k v ∧ FirstFormless rest) := by
  constructor
  · rintro ⟨before, k', v', after, heq, hbefore, hformless⟩
    rcases List.cons_eq_append_iff.mp heq with ⟨rfl, hcons⟩ | ⟨more, rfl, rfl⟩
    · obtain ⟨⟨rfl, rfl⟩, -⟩ : (k' = k ∧ v' = v) ∧ after = rest := by simpa using hcons
      exact .inl hformless
    · obtain ⟨hhead, hmore⟩ := List.forall_mem_cons.mp hbefore
      exact .inr ⟨hhead, more, k', v', after, rfl, hmore, hformless⟩
  · rintro (hformless | ⟨hhead, before, k', v', after, rfl, hbefore, hformless⟩)
    · exact ⟨[], k, v, rest, rfl, nofun, hformless⟩
    · exact ⟨(k, v) :: before, k', v', after, rfl, List.forall_mem_cons.mpr ⟨hhead, hbefore⟩,
        hformless⟩

/-- A key can lack a text for one reason only. -/
theorem display_error {k : Value} {e : Value.TextError} (h : k.display = .error e) :
    e = .hugeNumeral := by
  unfold Value.display at h
  split at h
  · exact (Except.error.inj h).symm
  · cases h

/-- **Attributes are read as texts** up to the first that has none, which decides what becomes of
them. -/
theorem attributeTexts_error_iff {es : List (Value × Value)} :
    (∃ e, attributeTexts es = .error e ∧ e ≠ .hugeNumeral) ↔ FirstFormless es := by
  induction es with
  | nil => simp [attributeTexts, FirstFormless]
  | cons e es ih =>
    obtain ⟨k, v⟩ := e
    rw [firstFormless_cons, ← ih]
    cases hn : v.isNull with
    | true => simp [attributeTexts, IsTextless, IsFormless, hn]
    | false =>
      rw [attributeTexts_cons hn, IsTextless, IsFormless, Nameless, ← attributeText_ok_iff]
      cases hk : k.display with
      | error e => simp [Except.bind, display_error hk, hn]
      | ok key =>
        cases hv : attributeText v with
        | error e => simp [Except.bind, hn]
        | ok value => cases attributeTexts es <;> simp [Except.bind, Except.map]

/-- Attributes crash exactly if JSON has no form for the first that has no text. -/
theorem crashes_readAttributes (v : Value) :
    (readAttributes v).Crashes ↔ ∃ as, v = .object as ∧ FirstFormless as := by
  cases v with
  | object as =>
    have hiff : (∃ as', Value.object as = .object as' ∧ FirstFormless as') ↔
        ∃ e, attributeTexts as = .error e ∧ e ≠ .hugeNumeral := by
      rw [attributeTexts_error_iff]
      simp
    rw [hiff, readAttributes]
    cases attributeTexts as with
    | error e => cases e <;> simp
    | ok texts => simp [not_crashes_object]
  | _ => simp [readAttributes, not_crashes_object]

theorem crashes_attributesField (es : List (Value × Value)) :
    (attributesField es).Crashes ↔ HasTextlessAttribute (.object es) := by
  simp only [attributesField, crashes_defaulted, crashes_readAttributes, HasTextlessAttribute]
  constructor
  · rintro ⟨_, hv, as, rfl, has⟩
    exact ⟨es, as, rfl, hv, has⟩
  · rintro ⟨_, as, ⟨⟩, hv, has⟩
    exact ⟨_, hv, as, rfl, has⟩

/-- A list under a name crashes exactly if one of its items does. -/
theorem crashes_listUnder {α : Type} {check : Check α} {name : String}
    {es : List (Value × Value)} :
    (∃ v, Value.lookup name es = some v ∧ v.isNull = false ∧ (Schema.list check v).Crashes) ↔
      ∃ w ∈ itemsUnder name (.object es), (check w).Crashes := by
  cases hv : Value.lookup name es with
  | none => simp [itemsUnder, hv]
  | some v =>
    have hnull : v.isNull = true → members v = [] := by
      cases v <;> simp [members, Value.isNull]
    simp only [itemsUnder, hv, Option.map_some, Option.getD_some, Option.some.injEq, crashes_list]
    constructor
    · rintro ⟨_, rfl, -, w, hw, hcrash⟩
      exact ⟨w, hw, hcrash⟩
    · rintro ⟨w, hw, hcrash⟩
      refine ⟨v, rfl, Bool.eq_false_iff.mpr fun hn => ?_, w, hw, hcrash⟩
      rw [hnull hn] at hw
      cases hw

/-- A link crashes exactly if it has an attribute without a form. -/
theorem crashes_link (v : Value) : (Link.read v).Crashes ↔ HasTextlessAttribute v := by
  rw [Link.read, crashes_record]
  cases v with
  | object es => simp [crashes_attributesField]
  | _ => simp [HasTextlessAttribute]

/-- A step crashes exactly if it or one of its links has an attribute without a form. -/
theorem crashes_step (v : Value) :
    (Step.read v).Crashes ↔ ∃ e ∈ stepElements v, HasTextlessAttribute e := by
  rw [Step.read, crashes_record]
  cases v with
  | object es =>
    simp [crashes_attributesField, stepElements, crashes_listUnder, crashes_link]
  | _ => simp [stepElements, itemsUnder, HasTextlessAttribute]

/-- Of some values one crashes exactly if there is an attribute without a form in one of their
elements, where each of them crashes on such an attribute in its own elements. -/
theorem crashes_among {α : Type} {check : Schema.Check α} {elements : Value → List Value}
    (hcheck : ∀ v, (check v).Crashes ↔ ∃ e ∈ elements v, HasTextlessAttribute e)
    (vs : List Value) :
    (∃ w ∈ vs, (check w).Crashes) ↔ ∃ e ∈ vs.flatMap elements, HasTextlessAttribute e := by
  simp only [hcheck, List.mem_flatMap]
  constructor
  · rintro ⟨w, hw, e, he, htextless⟩
    exact ⟨e, ⟨w, hw, he⟩, htextless⟩
  · rintro ⟨e, ⟨w, hw, he⟩, htextless⟩
    exact ⟨w, hw, e, he, htextless⟩

/-- A subflow crashes exactly if one of its elements has an attribute without a form. -/
theorem crashes_subflow (v : Value) :
    (Subflow.read v).Crashes ↔ ∃ e ∈ subflowElements v, HasTextlessAttribute e := by
  rw [Subflow.read, crashes_record]
  cases v with
  | object es =>
    rw [subflowElements, List.exists_mem_cons_iff, ← crashes_among crashes_step]
    simp [crashes_attributesField, crashes_listUnder]
  | _ => simp [subflowElements, itemsUnder, HasTextlessAttribute]

theorem crashes_readSteps (v : Value) :
    (readSteps v).Crashes ↔ v.isNull = false ∧ (Schema.list Step.read v).Crashes := by
  unfold readSteps
  cases v.isNull <;> simp

/-- **A flow crashes exactly if one of its elements has an attribute without a form.** -/
theorem crashes_flow_iff (v : Value) :
    (Flow.read v).Crashes ↔ ∃ e ∈ flowElements v, HasTextlessAttribute e := by
  rw [Flow.read, crashes_record]
  cases v with
  | object es =>
    have helements : (∃ e ∈ flowElements (.object es), HasTextlessAttribute e) ↔
        HasTextlessAttribute (.object es) ∨
          (∃ w ∈ itemsUnder "steps" (.object es), (Step.read w).Crashes) ∨
          ∃ w ∈ itemsUnder "subflows" (.object es), (Subflow.read w).Crashes := by
      rw [crashes_among crashes_step, crashes_among crashes_subflow, flowElements,
        List.exists_mem_cons_iff]
      simp only [List.mem_append, or_and_right, exists_or]
    rw [helements]
    simp [crashes_attributesField, crashes_readSteps, crashes_listUnder, or_assoc]
  | _ => simp [flowElements, itemsUnder, HasTextlessAttribute]

end ApiSuite
