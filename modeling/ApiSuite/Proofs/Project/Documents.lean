import ApiSuite.Proofs.Schema.Crash
import ApiSuite.Proofs.Values.Keyed
import ApiSuite.Project.Loader
import Mathlib.Data.List.Forall2

/-!
# Which documents crash

A document that is not what it is read as has a fault that loaders know, and are told by. A crash is
another matter: no loader knows it. This file says for each kind of document which of its texts
crash. There are four reasons.

* The text crashes as YAML (`ApiSuite.CrashesAsYaml`) or as JSON, on a scalar that spells a day or a
  number that there is none of.
* A key that is to be a name has no text (`ApiSuite.Nameless`).
* JSON has no form for an attribute in a flow (`ApiSuite.HasTextlessAttribute`).
* In a listing of tests, a request document holds a character that documents must not hold.

Nothing else in a document crashes: that it is empty, that it is no object, that fields are missing
or of the wrong kind, and that it is no YAML at all are faults that loaders know.
-/

namespace ApiSuite

open Schema

/-- A function of an outcome leaves the fault as it is. -/
@[simp] theorem Traced.result_map {α β : Type} (f : α → β) (x : Traced α) :
    (f <$> x).result = x.result.map f := by
  rw [← bind_pure_comp, Traced.result_bind]
  cases x.result <;> rfl

/-! ### Computations that crash -/

/-- A computation ends in a crash. -/
def HasCrash {α : Type} (r : Except Fault α) : Prop := ∃ c, r = .error (.crash c)

section HasCrash

variable {α β : Type} {r : Except Fault α}

@[simp] theorem not_hasCrash_ok (a : α) : ¬HasCrash (.ok a : Except Fault α) := by simp [HasCrash]

@[simp] theorem hasCrash_error {fault : Fault} :
    HasCrash (.error fault : Except Fault α) ↔ ∃ c, fault = .crash c := by
  simp [HasCrash]

@[simp] theorem not_hasCrash_pure (a : α) : ¬HasCrash (pure a : Except Fault α) :=
  not_hasCrash_ok a

@[simp] theorem hasCrash_throw {fault : Fault} :
    HasCrash (throw fault : Except Fault α) ↔ ∃ c, fault = .crash c := hasCrash_error

@[simp] theorem hasCrash_map (f : α → β) : HasCrash (r.map f) ↔ HasCrash r := by
  cases r <;> simp [Except.map]

@[simp] theorem hasCrash_fmap (f : α → β) : HasCrash (f <$> r) ↔ HasCrash r := hasCrash_map f

theorem hasCrash_bind {f : α → Except Fault β} :
    HasCrash (r >>= f) ↔ HasCrash r ∨ ∃ a, r = .ok a ∧ HasCrash (f a) := by
  cases r <;> simp [bind, Except.bind]

theorem not_hasCrash_iff : ¬HasCrash r ↔ ∀ fault, r = .error fault → fault.isKnown := by
  cases r with
  | ok a => simp
  | error fault => cases fault <;> simp [Fault.isKnown]

/-- Whether a computation crashes can be seen from how it ends. -/
instance decidableHasCrash (r : Except Fault α) : Decidable (HasCrash r) :=
  decidable_of_iff
    ((match r with
      | .ok _ => true
      | .error fault => fault.isKnown) = false) <| by
    rcases r with fault | a
    · cases fault <;> simp [Fault.isKnown]
    · simp

variable {f : α → Except Fault β} {xs before after : List α} {x : α} {fault : Fault}

/-- What comes after the first element that fails has no part in what becomes of a list. -/
theorem mapM_of_split (hbefore : ∀ y ∈ before, ∃ b, f y = .ok b) (hx : f x = .error fault) :
    (before ++ x :: after).mapM f = .error fault := by
  induction before with
  | nil =>
    rw [List.nil_append, List.mapM_cons, hx]
    rfl
  | cons y before ih =>
    obtain ⟨⟨b, hb⟩, hbefore⟩ := List.forall_mem_cons.mp hbefore
    rw [List.cons_append, List.mapM_cons, hb, ih hbefore]
    rfl

/-- **What a list comes to** are what its elements come to, side by side. -/
theorem forall₂_of_mapM {ys : List β} (hys : xs.mapM f = .ok ys) :
    List.Forall₂ (fun x y => f x = .ok y) xs ys := by
  induction xs generalizing ys with
  | nil =>
    cases Except.ok.inj hys
    exact .nil
  | cons x xs ih =>
    rw [List.mapM_cons] at hys
    obtain ⟨y, hx, hys⟩ := bind_eq_ok_iff.mp hys
    obtain ⟨more, hxs, hys⟩ := bind_eq_ok_iff.mp hys
    cases Except.ok.inj hys
    exact .cons hx (ih hxs)

/-- What a list comes to is made of what its elements come to. -/
theorem exists_of_mem_mapM {ys : List β} {y : β} (hys : xs.mapM f = .ok ys) (hy : y ∈ ys) :
    ∃ x ∈ xs, f x = .ok y := by
  have hall := forall₂_of_mapM hys
  clear hys
  induction hall with
  | nil => cases hy
  | @cons x y' xs ys hx _ ih =>
    rcases List.mem_cons.mp hy with rfl | hy
    · exact ⟨x, List.mem_cons_self, hx⟩
    · obtain ⟨x', hx', heq⟩ := ih hy
      exact ⟨x', List.mem_cons_of_mem _ hx', heq⟩

/-- A list is gone through to its end, or up to the first of its elements that fails. -/
theorem mapM_cases (f : α → Except Fault β) (xs : List α) :
    ((∀ x ∈ xs, ∃ b, f x = .ok b) ∧ ∃ bs, xs.mapM f = .ok bs) ∨
      ∃ before x after fault, xs = before ++ x :: after ∧ (∀ y ∈ before, ∃ b, f y = .ok b) ∧
        f x = .error fault ∧ xs.mapM f = .error fault := by
  induction xs with
  | nil => exact .inl ⟨by simp, [], rfl⟩
  | cons x xs ih =>
    cases hx : f x with
    | error fault =>
      have hnone : ∀ y ∈ [], ∃ b, f y = .ok b := by simp
      exact .inr ⟨[], x, xs, fault, rfl, hnone, hx, mapM_of_split hnone hx⟩
    | ok b =>
      rcases ih with ⟨hall, bs, hbs⟩ | ⟨before, y, after, fault, rfl, hbefore, hy, -⟩
      · refine .inl ⟨List.forall_mem_cons.mpr ⟨⟨b, hx⟩, hall⟩, b :: bs, ?_⟩
        rw [List.mapM_cons, hx, hbs]
        rfl
      · have hall := List.forall_mem_cons.mpr ⟨⟨b, hx⟩, hbefore⟩
        exact .inr ⟨x :: before, y, after, fault, rfl, hall, hy, mapM_of_split hall hy⟩

/-- **A list crashes on the first of its elements that fails**, if that crashes. -/
theorem hasCrash_mapM :
    HasCrash (xs.mapM f) ↔ ∃ before x after, xs = before ++ x :: after ∧
      (∀ y ∈ before, ∃ b, f y = .ok b) ∧ HasCrash (f x) := by
  constructor
  · rintro ⟨c, hc⟩
    rcases mapM_cases f xs with ⟨-, bs, hbs⟩ | ⟨before, x, after, fault, hsplit, hbefore, hx, hall⟩
    · cases hbs.symm.trans hc
    · cases hall.symm.trans hc
      exact ⟨before, x, after, hsplit, hbefore, c, hx⟩
  · rintro ⟨before, x, after, rfl, hbefore, c, hc⟩
    exact ⟨c, mapM_of_split hbefore hc⟩

/-- A list whose elements either end well or crash crashes if one of them does. -/
theorem hasCrash_mapM_of_forall (hf : ∀ x ∈ xs, HasCrash (f x) ∨ ∃ b, f x = .ok b) :
    HasCrash (xs.mapM f) ↔ ∃ x ∈ xs, HasCrash (f x) := by
  rw [hasCrash_mapM]
  constructor
  · rintro ⟨before, x, after, rfl, -, hx⟩
    exact ⟨x, by simp, hx⟩
  · rintro ⟨x, hx, c, hc⟩
    rcases mapM_cases f xs with ⟨hall, -⟩ | ⟨before, y, after, fault, rfl, hbefore, hy, -⟩
    · obtain ⟨b, hb⟩ := hall x hx
      cases hb.symm.trans hc
    · refine ⟨before, y, after, rfl, hbefore, ?_⟩
      rcases hf y (by simp) with hcrash | ⟨b, hb⟩
      · exact hcrash
      · cases hb.symm.trans hy

end HasCrash

/-! ### Texts and names -/

/-- A text is YAML for a value. -/
def IsYaml (contents : String) (v : Value) : Prop :=
  ∃ root, Document.readYaml contents = .ok (root, v)

theorem IsYaml.unique {contents : String} {v w : Value} (hv : IsYaml contents v)
    (hw : IsYaml contents w) : v = w := by
  obtain ⟨root, hroot⟩ := hv
  obtain ⟨root', hroot'⟩ := hw
  cases hroot.symm.trans hroot'
  rfl

/-- A text crashes as YAML. -/
def CrashesAsYaml (contents : String) : Prop :=
  ∃ c, Document.readYaml contents = .error (.crash c)

section Texts

variable {name : Option String} {contents : String} {v : Value}

theorem loadYaml_ok_iff : Document.loadYaml name contents = .ok v ↔ IsYaml contents v := by
  unfold Document.loadYaml IsYaml
  cases Document.readYaml contents with
  | error failure => simp
  | ok read => simp [Prod.ext_iff]

theorem hasCrash_loadYaml :
    HasCrash (Document.loadYaml name contents) ↔ CrashesAsYaml contents := by
  unfold Document.loadYaml CrashesAsYaml
  cases Document.readYaml contents with
  | error failure => cases failure <;> simp [Document.faultOf, Document.yamlFault]
  | ok read => simp

/-- What is read as YAML and gone on with crashes on either way. -/
theorem hasCrash_loadYaml_bind {α : Type} {f : Value → Except Fault α} :
    HasCrash (Document.loadYaml name contents >>= f) ↔
      CrashesAsYaml contents ∨ ∃ v, IsYaml contents v ∧ HasCrash (f v) := by
  rw [hasCrash_bind, hasCrash_loadYaml]
  simp only [loadYaml_ok_iff]

@[simp] theorem hasCrash_keyText : HasCrash (keyText v) ↔ Nameless v := by
  unfold keyText Nameless
  cases v.display <;> simp [Except.mapError]

/-- A key is a name, or it crashes. -/
theorem keyText_cases (k : Value) : HasCrash (keyText k) ∨ ∃ name, keyText k = .ok name := by
  unfold keyText
  cases k.display <;> simp [Except.mapError]

theorem content?_eq_some_iff {es : List (Value × Value)} :
    v.content? = some es ↔ v = .object es ∧ es ≠ [] := by
  cases v with
  | object fields =>
    cases fields <;> simp only [Value.content?]
    · simp
    · simp only [Option.some.injEq, Value.object.injEq]
      constructor
      · rintro rfl
        simp
      · exact fun h => h.1
  | _ => simp [Value.content?]

end Texts

/-! ### Flows -/

/-- A text crashes as a flow. -/
def FlowCrashes (contents : String) : Prop :=
  CrashesAsYaml contents ∨
    ∃ v, IsYaml contents v ∧ ∃ e ∈ flowElements v, HasTextlessAttribute e

section Flows

variable {name path contents : String} {fields : List (String × Value)}
  {es : List (Value × Value)}

theorem lookup_overFields (h : ∀ f ∈ fields, f.1 ≠ name) :
    Value.lookup name (overFields fields es) = Value.lookup name es := by
  induction fields generalizing es with
  | nil => rfl
  | cons field fields ih =>
    obtain ⟨hhead, htail⟩ := List.forall_mem_cons.mp h
    have hfirst : overFields (field :: fields) es =
        overFields fields (Value.insert (.str field.1) field.2 es) := rfl
    rw [hfirst, ih htail, Value.lookup_insert, if_neg]
    rw [Value.isText_iff]
    rintro ⟨⟩
    exact hhead rfl

/-- The fields that elements are looked for in. -/
def elementFields : List String := ["attributes", "steps", "subflows"]

theorem lookup_overFields_of_mem (h : ∀ f ∈ fields, f.1 ∉ elementFields)
    (hname : name ∈ elementFields) :
    Value.lookup name (overFields fields es) = Value.lookup name es := by
  refine lookup_overFields fun f hf heq => h f hf ?_
  rwa [heq]

/-- Fields over others have no part in the elements. -/
theorem exists_element_overFields (h : ∀ f ∈ fields, f.1 ∉ elementFields) :
    (∃ e ∈ flowElements (.object (overFields fields es)), HasTextlessAttribute e) ↔
      ∃ e ∈ flowElements (.object es), HasTextlessAttribute e := by
  have hlookup : ∀ name ∈ elementFields,
      Value.lookup name (overFields fields es) = Value.lookup name es :=
    fun _ => lookup_overFields_of_mem h
  have hattribute : HasTextlessAttribute (.object (overFields fields es)) ↔
      HasTextlessAttribute (.object es) := by
    simp [HasTextlessAttribute, hlookup "attributes" (by simp [elementFields])]
  simp only [flowElements, List.exists_mem_cons_iff, hattribute, itemsUnder,
    hlookup "steps" (by simp [elementFields]), hlookup "subflows" (by simp [elementFields])]

/-- An empty object has no elements with attributes, and neither has what is no object. -/
theorem not_exists_element {v : Value} (h : v.content? = none) :
    ¬∃ e ∈ flowElements v, HasTextlessAttribute e := by
  have hno : ¬HasTextlessAttribute v ∧ ∀ name, itemsUnder name v = [] := by
    cases v with
    | object es =>
      cases es with
      | nil => simp [itemsUnder, HasTextlessAttribute, Value.lookup]
      | cons e es => cases h
    | _ => simp [itemsUnder, HasTextlessAttribute]
  simp [flowElements, hno]

/-- **A flow document crashes as YAML, or on an attribute without a form.** -/
theorem hasCrash_flow (h : ∀ f ∈ fields, f.1 ∉ elementFields) :
    HasCrash (Flow.ofDocument path contents fields) ↔ FlowCrashes contents := by
  have hvalue : ∀ v, HasCrash (Flow.ofValue path fields v) ↔
      ∃ e ∈ flowElements v, HasTextlessAttribute e := by
    intro v
    unfold Flow.ofValue
    cases hcontent : v.content? with
    | none =>
      simp only [not_exists_element hcontent]
      simp
    | some es =>
      obtain ⟨rfl, -⟩ := content?_eq_some_iff.mp hcontent
      rw [← exists_element_overFields h, ← crashes_flow_iff]
      cases hread : Flow.read (.object (overFields fields es)) <;> simp [hread]
  unfold Flow.ofDocument FlowCrashes
  rw [hasCrash_loadYaml_bind]
  simp only [hvalue]

instance decidableFlowCrashes (contents : String) : Decidable (FlowCrashes contents) :=
  decidable_of_iff (HasCrash (Flow.ofDocument "" contents [])) (hasCrash_flow (by simp))

end Flows

/-! ### Request suites -/

/-- A text crashes as a request suite: the first of its entries that is no request is an object
under a name without a text. -/
def SuiteCrashes (path contents : String) : Prop :=
  CrashesAsYaml contents ∨
    ∃ es, IsYaml contents (.object es) ∧ ∃ before e after, es = before ++ e :: after ∧
      (∀ e' ∈ before, ∃ r, Request.ofEntry path e'.1 e'.2 = .ok r) ∧
      (∃ fields, e.2 = .object fields) ∧ Nameless e.1

section Requests

variable {path contents : String} {k v : Value}

/-- An entry crashes on its name, and only if it is an object. -/
theorem hasCrash_ofEntry :
    HasCrash (Request.ofEntry path k v) ↔ (∃ fields, v = .object fields) ∧ Nameless k := by
  cases v with
  | object fields =>
    rw [Request.ofEntry, hasCrash_bind, hasCrash_keyText]
    constructor
    · rintro (hname | ⟨name, -, hcrash⟩)
      · exact ⟨⟨fields, rfl⟩, hname⟩
      · exfalso
        split at hcrash
        · exact not_hasCrash_pure _ hcrash
        · simp at hcrash
        · rename_i c hc
          exact not_crashes_request _ ⟨c, hc⟩
    · exact fun h => .inl h.2
  | _ => simp [Request.ofEntry]

/-- **A request suite crashes as YAML, or on a name without a text.** -/
theorem hasCrash_requests :
    HasCrash (Request.ofDocument path contents) ↔ SuiteCrashes path contents := by
  have hvalue : ∀ v, HasCrash (Request.ofValue path v) ↔
      ∃ es, v = .object es ∧ HasCrash (es.mapM fun e => Request.ofEntry path e.1 e.2) := by
    intro v
    unfold Request.ofValue
    cases hcontent : v.content? with
    | none =>
      have hempty : ∀ es, v = .object es → es = [] := by
        rintro es rfl
        exact not_not.mp fun hne => by
          cases hcontent.symm.trans (content?_eq_some_iff.mpr ⟨rfl, hne⟩)
      simp only [hasCrash_error, reduceCtorEq, exists_false, false_iff]
      rintro ⟨es, hes, hcrash⟩
      rw [hempty es hes] at hcrash
      exact not_hasCrash_pure _ hcrash
    | some es =>
      obtain ⟨rfl, -⟩ := content?_eq_some_iff.mp hcontent
      simp
  unfold Request.ofDocument SuiteCrashes
  rw [hasCrash_loadYaml_bind]
  simp only [hvalue, hasCrash_mapM, hasCrash_ofEntry]
  constructor
  · rintro (hyaml | ⟨_, hv, es, rfl, hcrash⟩)
    · exact .inl hyaml
    · exact .inr ⟨es, hv, hcrash⟩
  · rintro (hyaml | ⟨es, hv, hcrash⟩)
    · exact .inl hyaml
    · exact .inr ⟨_, hv, es, rfl, hcrash⟩

instance decidableSuiteCrashes (path contents : String) : Decidable (SuiteCrashes path contents) :=
  decidable_of_iff (HasCrash (Request.ofDocument path contents)) hasCrash_requests

end Requests

/-! ### Listings of tests -/

/-- A text crashes as a request document in a listing: it holds a character that documents must not
hold, or a name without a text. -/
def ListedRequestsCrash (contents : String) : Prop :=
  Document.readYaml contents = .error .forbidden ∨ CrashesAsYaml contents ∨
    ∃ es, IsYaml contents (.object es) ∧ ∃ e ∈ es, Nameless e.1

section Listings

variable {here : List String} {base file contents relative : String}

theorem hasCrash_loadYamlWithLines {name : Option String} :
    HasCrash (Document.loadYamlWithLines name contents) ↔
      Document.readYaml contents = .error .forbidden ∨ CrashesAsYaml contents := by
  unfold Document.loadYamlWithLines CrashesAsYaml
  cases Document.readYaml contents with
  | error failure => cases failure <;> simp [Document.faultOf, Document.yamlFault]
  | ok read =>
    dsimp only
    split <;> simp

theorem value_of_loadYamlWithLines {name : Option String} {v : Value} :
    (∃ ranges, Document.loadYamlWithLines name contents = .ok (v, ranges)) ↔ IsYaml contents v := by
  unfold Document.loadYamlWithLines IsYaml
  cases hread : Document.readYaml contents with
  | error failure => cases failure <;> simp
  | ok read =>
    obtain ⟨root, w⟩ := read
    dsimp only
    split <;> simp [Prod.ext_iff]

/-- The entry of a request crashes on its name, and is made otherwise. -/
theorem hasCrash_ofKey (ranges : List (String × Yaml.LineRange)) (key : Value) :
    (HasCrash (TestEntry.ofKey ranges key) ↔ Nameless key) ∧
      (HasCrash (TestEntry.ofKey ranges key) ∨ ∃ t, TestEntry.ofKey ranges key = .ok t) := by
  unfold TestEntry.ofKey
  refine ⟨by simp, ?_⟩
  rcases keyText_cases key with hcrash | ⟨name, hname⟩
  · exact .inl (hasCrash_bind.mpr (.inl hcrash))
  · rw [hname]
    exact .inr ⟨_, rfl⟩

/-- **A request document in a listing crashes as YAML, on a character, or on a name without a
text.** -/
theorem hasCrash_ofRequests (hpath : relativeToBase here base file = .ok relative) :
    HasCrash (TestFile.ofRequests here base file contents) ↔ ListedRequestsCrash contents := by
  have htests : ∀ (ranges : List (String × Yaml.LineRange)) (es : List (Value × Value)),
      HasCrash (es.mapM fun e => TestEntry.ofKey ranges e.1) ↔ ∃ e ∈ es, Nameless e.1 := by
    intro ranges es
    rw [hasCrash_mapM_of_forall fun e _ => (hasCrash_ofKey ranges e.1).2]
    simp only [(hasCrash_ofKey ranges _).1]
  unfold TestFile.ofRequests ListedRequestsCrash
  rw [hasCrash_bind, hasCrash_loadYamlWithLines, or_assoc]
  refine or_congr_right (or_congr_right ?_)
  constructor
  · rintro ⟨⟨v, ranges⟩, hread, hcrash⟩
    have hv : IsYaml contents v := value_of_loadYamlWithLines.mp ⟨ranges, hread⟩
    dsimp only at hcrash
    cases hcontent : v.content? with
    | none => simp [hcontent] at hcrash
    | some es =>
      obtain ⟨rfl, -⟩ := content?_eq_some_iff.mp hcontent
      simp only [hcontent, hasCrash_bind, htests, hpath] at hcrash
      refine ⟨es, hv, ?_⟩
      simpa using hcrash
  · rintro ⟨es, hv, e, he, hname⟩
    obtain ⟨ranges, hread⟩ := value_of_loadYamlWithLines.mpr hv
    have hcontent : (Value.object es).content? = some es :=
      content?_eq_some_iff.mpr ⟨rfl, List.ne_nil_of_mem he⟩
    refine ⟨(.object es, ranges), hread, ?_⟩
    simp only [hcontent, hasCrash_bind, htests]
    exact .inl ⟨e, he, hname⟩

/-- **A flow document in a listing crashes as the flow does.** -/
theorem hasCrash_ofFlow (hpath : relativeToBase here base file = .ok relative) :
    HasCrash (TestFile.ofFlow here base file contents) ↔ FlowCrashes contents := by
  unfold TestFile.ofFlow
  rw [hasCrash_bind, hasCrash_flow (by simp)]
  simp [hpath, bind, Except.bind]

instance decidableListedRequestsCrash (contents : String) :
    Decidable (ListedRequestsCrash contents) :=
  decidable_of_iff (HasCrash (TestFile.ofRequests [] "." "" contents)) (hasCrash_ofRequests rfl)

end Listings

/-! ### Values -/

/-- A text crashes as JSON, on a number of too many digits, or as YAML, whichever of the two it is
read as. -/
def ContentCrashes (path contents : String) : Prop :=
  (Document.isJson contents (some path) ∧ ∃ n, Json.read contents = .error (.hugeNumeral n)) ∨
    Document.isJson contents (some path) = false ∧ CrashesAsYaml contents

/-- A text crashes as a values document. -/
def ValuesCrash (path contents : String) : Prop :=
  ContentCrashes path contents ∨
    ∃ es, Document.loadContent contents (some path) = .ok (.object es) ∧ ∃ e ∈ es, Nameless e.1

section Values

variable {path contents : String}

theorem hasCrash_loadContent :
    HasCrash (Document.loadContent contents (some path)) ↔ ContentCrashes path contents := by
  unfold Document.loadContent ContentCrashes
  cases Document.isJson contents (some path) with
  | false => simp [hasCrash_loadYaml]
  | true =>
    unfold Document.loadJson
    rcases Json.read contents with (e | n) | v <;> simp

/-- The field of an entry crashes on its name, and is made otherwise. -/
theorem hasCrash_field (e : Value × Value) :
    (HasCrash ((keyText e.1).map fun name => (name, e.2)) ↔ Nameless e.1) ∧
      (HasCrash ((keyText e.1).map fun name => (name, e.2)) ∨
        ∃ field, ((keyText e.1).map fun name => (name, e.2)) = .ok field) := by
  refine ⟨by simp, ?_⟩
  rcases keyText_cases e.1 with hcrash | ⟨name, hname⟩
  · exact .inl ((hasCrash_map _).mpr hcrash)
  · rw [hname]
    exact .inr ⟨_, rfl⟩

/-- **A values document crashes as what it is written in, or on a name without a text.** -/
theorem hasCrash_valuesHolder :
    HasCrash (Project.valuesHolder path contents) ↔ ValuesCrash path contents := by
  have hfields : ∀ es : List (Value × Value),
      HasCrash (es.mapM fun e => (keyText e.1).map fun name => (name, e.2)) ↔
        ∃ e ∈ es, Nameless e.1 := by
    intro es
    rw [hasCrash_mapM_of_forall fun e _ => (hasCrash_field e).2]
    simp only [(hasCrash_field _).1]
  unfold Project.valuesHolder ValuesCrash
  rw [hasCrash_bind, hasCrash_loadContent]
  refine or_congr_right ?_
  constructor
  · rintro ⟨v, hv, hcrash⟩
    cases v with
    | object es =>
      refine ⟨es, hv, (hfields es).mp ?_⟩
      rcases hasCrash_bind.mp hcrash with hcrash | ⟨fields, -, hcrash⟩
      · exact hcrash
      · exact absurd hcrash (not_hasCrash_pure _)
    | _ => simp [badValues] at hcrash
  · rintro ⟨es, hv, hname⟩
    exact ⟨_, hv, hasCrash_bind.mpr (.inl ((hfields es).mpr hname))⟩

instance decidableValuesCrash (path contents : String) : Decidable (ValuesCrash path contents) :=
  decidable_of_iff (HasCrash (Project.valuesHolder path contents)) hasCrash_valuesHolder

end Values

/-! ### Expected results -/

/-- An entry counts, and has a name without a text. -/
def CountsNameless (e : Value × Value) : Prop :=
  ∃ fields, e.2 = .object fields ∧ has "request" fields ∧ has "response" fields ∧ Nameless e.1

/-- A text crashes as a document of expected results: an entry that counts has a name without a
text. -/
def ExpectedCrash (contents : String) : Prop :=
  CrashesAsYaml contents ∨
    ∃ es, IsYaml contents (.object es) ∧ ∃ e ∈ es, CountsNameless e

section Expected

variable {path contents : String}

/-- An entry crashes on its name, and is passed over if there is anything else wrong with it. -/
theorem hasCrash_expectedEntry (key : Value) (fields : List (Value × Value)) :
    (HasCrash (ExpectedResult.ofEntry path key fields).result ↔ Nameless key) ∧
      (HasCrash (ExpectedResult.ofEntry path key fields).result ∨
        ∃ found, (ExpectedResult.ofEntry path key fields).result = .ok found) := by
  unfold ExpectedResult.ofEntry
  rw [Traced.result_bind, Traced.result_ofExcept]
  rcases keyText_cases key with hcrash | ⟨name, hname⟩
  · have hkey := hasCrash_keyText.mp hcrash
    obtain ⟨c, hc⟩ := hcrash
    simp [hc, Except.bind, hkey]
  · have hkey : ¬Nameless key := by
      rw [← hasCrash_keyText, hname]
      exact not_hasCrash_ok name
    rw [hname]
    simp only [Except.bind, hkey, iff_false]
    have hcheck := not_crashes_expectedResult
      (.object (overFields [("path", .str path), ("name", .str name)] fields))
    cases hread : ExpectedResult.read
        (.object (overFields [("path", .str path), ("name", .str name)] fields)) with
    | valid e => simp
    | invalid issues => exact ⟨not_hasCrash_ok none, .inr ⟨none, rfl⟩⟩
    | crashed c => exact absurd ⟨c, hread⟩ hcheck

theorem ofEntries_of_not_counts {k v : Value} {es : List (Value × Value)}
    (h : ∀ fields, v = .object fields → ¬(has "request" fields ∧ has "response" fields)) :
    ExpectedResult.ofEntries path ((k, v) :: es) = ExpectedResult.ofEntries path es := by
  cases v with
  | object fields =>
    rw [ExpectedResult.ofEntries, if_neg]
    simpa using h fields rfl
  | _ => rfl

/-- **Some entries crash** if one of those that count has a name without a text. -/
theorem hasCrash_expectedEntries (es : List (Value × Value)) :
    (HasCrash (ExpectedResult.ofEntries path es).result ↔ ∃ e ∈ es, CountsNameless e) ∧
      (HasCrash (ExpectedResult.ofEntries path es).result ∨
        ∃ found, (ExpectedResult.ofEntries path es).result = .ok found) := by
  induction es with
  | nil => simp [ExpectedResult.ofEntries]
  | cons e es ih =>
    obtain ⟨k, v⟩ := e
    by_cases hcounts : ∃ fields, v = .object fields ∧ has "request" fields ∧ has "response" fields
    · obtain ⟨fields, rfl, hcounts⟩ := hcounts
      have hhead : CountsNameless (k, .object fields) ↔ Nameless k := by
        simp [CountsNameless, hcounts]
      obtain ⟨hentry, hends⟩ := @hasCrash_expectedEntry path k fields
      rw [List.exists_mem_cons_iff, hhead, ← hentry, ← ih.1, ExpectedResult.ofEntries,
        if_pos (by simpa using hcounts), Traced.result_bind]
      rcases hends with ⟨c, hc⟩ | ⟨found, hfound⟩
      · simp [hc, Except.bind]
      · rw [hfound]
        rcases ih.2 with ⟨c, hc⟩ | ⟨more, hmore⟩
        · simp [hc, Except.bind]
        · simp [hmore, Except.bind, Except.map]
    · have hskip : ∀ fields, v = .object fields →
          ¬(has "request" fields ∧ has "response" fields) :=
        fun fields hfields h => hcounts ⟨fields, hfields, h⟩
      have hhead : ¬CountsNameless (k, v) := by
        rintro ⟨fields, hfields, hrequest, hresponse, -⟩
        exact hskip fields hfields ⟨hrequest, hresponse⟩
      rw [ofEntries_of_not_counts hskip, List.exists_mem_cons_iff]
      simpa [hhead] using ih

/-- **A document of expected results crashes as YAML, or on a name without a text.** -/
theorem hasCrash_expected :
    HasCrash (ExpectedResult.ofDocument path contents).result ↔ ExpectedCrash contents := by
  have hloaded : (Traced.ofExcept (Document.loadYaml (some path) contents)).result =
      Document.loadYaml (some path) contents := rfl
  unfold ExpectedResult.ofDocument ExpectedCrash
  rw [Traced.result_bind, hloaded]
  refine Iff.trans hasCrash_loadYaml_bind (or_congr_right ?_)
  constructor
  · rintro ⟨v, hv, hcrash⟩
    cases v with
    | object es => exact ⟨es, hv, (hasCrash_expectedEntries es).1.mp hcrash⟩
    | _ => exact absurd hcrash (not_hasCrash_ok [])
  · rintro ⟨es, hv, hname⟩
    exact ⟨_, hv, (hasCrash_expectedEntries es).1.mpr hname⟩

instance decidableExpectedCrash (contents : String) : Decidable (ExpectedCrash contents) :=
  decidable_of_iff (HasCrash (ExpectedResult.ofDocument "" contents).result) hasCrash_expected

end Expected

end ApiSuite
