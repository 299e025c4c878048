import ApiSuite.Proofs.Values.Batch

/-!
# Two checks of required names

Which required names have no value can be asked in two ways. The names can be looked up one by one
(`ApiSuite.Resolver.checkRequired`), or each can be put in a wrapper and all of them resolved in one
batch, which lists those that are missing (`ApiSuite.Resolver.resolveAll`). A batch looks at what
the wrapper holds, trimmed, and it never takes a reference to be required.

So the two agree, references apart, on every name that is the same thing in its wrapper as it is
alone (`ApiSuite.Resolver.isName`): it holds no expression, it is one in its wrapper, and no blanks
stand around it (`ApiSuite.Resolver.missingRequired_eq_checkRequired`). They need not agree on any
other (`ApiSuite.Resolver.requiredChecks_differ`).
-/

namespace ApiSuite

open Expression Template

namespace Resolver

/-! ### Names and what their wrappers hold -/

/-- Whether a name is in its wrapper what it is alone: it holds no expression, it is one in its
wrapper, and no blanks stand around it. -/
def isName (name : String) : Bool :=
  isPlain name && !isPlain (toExpression name) && Text.trim name.toList == name.toList

/-- Whether a name is that of a reference. -/
def namesReference (name : String) : Bool := isReference (toExpression name)

section Names

variable {r : Resolver} {name : String} {required : List String}

/-- A name and its wrapper are looked up alike. -/
theorem answer_toExpression (h : isName name) : r.answer (toExpression name) = r.answer name := by
  simp only [isName, Bool.and_eq_true, Bool.not_eq_true', beq_iff_eq] at h
  obtain ⟨⟨hplain, hwrapped⟩, -⟩ := h
  have hkey : lookupKey (toExpression name) = lookupKey name := by
    rw [lookupKey, lookupKey, hplain, hwrapped]
    rfl
  unfold answer getValue
  rw [hkey]

/-- What the wrapper of a name holds is the name. -/
theorem stripWrapper_toExpression (h : isName name) : stripWrapper (toExpression name) = name := by
  simp only [isName, Bool.and_eq_true, beq_iff_eq] at h
  rw [stripWrapper_iff.mpr (holds_toExpression name), h.2, String.ofList_toList]

/-- The lack of a required name is the lack of a required value, unless it names a reference. -/
theorem violates_toExpression (h : isName name) (hmem : name ∈ required) :
    violates required (toExpression name) = !namesReference name := by
  rw [violates, stripWrapper_toExpression h, List.contains_iff_mem.mpr hmem, Bool.true_and]
  rfl

end Names

/-! ### The two checks -/

section Checks

variable {r : Resolver} {names required : List String} {name : String} {memo : Memo}
  {soFar : Resolution}

/-- One step of going through names. -/
theorem result_missing_cons (hm : r.Faithful memo) :
    (r.missing (name :: names) memo).1.result =
      (r.answer name).bind fun found => (r.missing names []).1.result.map fun more =>
        if found.isNone then name :: more else more := by
  have hanswer : (r.getValue name memo).1.result = r.answer name :=
    (transparent_getValue r name).answers memo hm
  have hkept := (transparent_getValue r name).keeps memo hm
  have hrest := (transparent_missing r names).answers _ hkept
  rw [missing]
  cases h : r.answer name with
  | error fault =>
    rw [Session.bind_of_error (hanswer.trans h)]
    rfl
  | ok found =>
    rw [Session.bind_of_ok (hanswer.trans h)]
    show _ = Except.map _ (r.missing names []).1.result
    rw [← hrest]
    cases hmore : (r.missing names (r.getValue name memo).2).1.result with
    | error fault =>
      rw [Session.bind_of_error hmore]
      rfl
    | ok more =>
      rw [Session.bind_of_ok hmore]
      rfl

/-- **A batch of wrapped names lists the names that are missing**, the references among them
apart. -/
theorem missingRequired_account (hnames : ∀ name ∈ names, isName name)
    (hrequired : ∀ name ∈ names, name ∈ required) :
    (r.account required soFar (names.map toExpression)).map (·.missingRequired) =
      (r.missing names []).1.result.map fun listed =>
        soFar.missingRequired ++ listed.filter fun name => !namesReference name := by
  induction names generalizing soFar with
  | nil => exact congrArg Except.ok (List.append_nil _).symm
  | cons name names ih =>
    obtain ⟨hname, hnames⟩ := List.forall_mem_cons.mp hnames
    obtain ⟨hmem, hrequired⟩ := List.forall_mem_cons.mp hrequired
    rw [List.map_cons, account_cons, answer_toExpression hname,
      result_missing_cons (faithful_nil r)]
    rcases r.answer name with fault | _ | v
    · rfl
    · -- the name is missing in both, and a batch does not list it if it names a reference
      show Except.map _ (r.account required _ (names.map toExpression)) = _
      rw [ih hnames hrequired]
      cases (r.missing names []).1.result with
      | error fault => rfl
      | ok more =>
        show Except.ok _ = Except.ok _
        simp only [Resolution.after, violates_toExpression hname hmem,
          stripWrapper_toExpression hname, Option.isNone_none, if_true, List.filter_cons]
        cases namesReference name <;> simp
    · show Except.map _ (r.account required _ (names.map toExpression)) = _
      rw [ih hnames hrequired]
      cases (r.missing names []).1.result <;> rfl

/-- **The two checks of required names agree**, references apart, on every name that is in its
wrapper what it is alone. Where all required names are of this kind, the batch comes to what the
check comes to, without the references. Whatever the required names are, if the check comes to an
end then so does the batch of those of this kind, and it lists just those of them that the check
lists and that name no reference. -/
theorem missingRequired_eq_checkRequired (hm : r.Faithful memo) (extra : List String) :
    ((∀ name ∈ r.required, isName name) →
        (r.batch .proceed (r.required.map toExpression) extra memo).map (·.missingRequired) =
          (r.checkRequired memo).1.result.map fun listed =>
            listed.filter fun name => !namesReference name) ∧
      ∀ listed, (r.checkRequired memo).1.result = .ok listed →
        ∃ res, r.batch .proceed ((r.required.filter isName).map toExpression) extra memo = .ok res ∧
          res.missingRequired =
            listed.filter fun name => isName name && !namesReference name := by
  have hmem : ∀ name ∈ r.required, name ∈ r.required ++ extra := by
    intro name hname
    exact List.mem_append_left _ hname
  constructor
  · intro hnames
    rw [batch_proceed hm, missingRequired_account hnames hmem,
      ← (transparent_missing r r.required).answers memo hm]
    rfl
  · intro listed hlisted
    obtain ⟨hall, rfl⟩ := (missing_eq_ok_iff hm).mp hlisted
    have hmissing : (r.missing (r.required.filter isName) []).1.result =
        .ok ((r.required.filter isName).filter r.lacks) := by
      refine (missing_eq_ok_iff (faithful_nil r)).mpr ⟨fun name hname => ?_, rfl⟩
      exact hall name (List.mem_filter.mp hname).1
    have haccount := @missingRequired_account r (r.required.filter isName) (r.required ++ extra)
      ⟨[], [], [], false⟩ (fun name hname => (List.mem_filter.mp hname).2)
      (fun name hname => hmem name (List.mem_filter.mp hname).1)
    rw [hmissing, ← batch_proceed hm] at haccount
    cases hres : r.batch .proceed ((r.required.filter isName).map toExpression) extra memo with
    | error fault =>
      rw [hres] at haccount
      cases haccount
    | ok res =>
      rw [hres] at haccount
      refine ⟨res, rfl, (Except.ok.inj haccount).trans ?_⟩
      simp only [List.nil_append, List.filter_filter]
      refine List.filter_congr fun name _ => ?_
      cases isName name <;> cases r.lacks name <;> cases namesReference name <;> rfl

end Checks

/-! ### Names for which the checks agree, and names for which they do not -/

/-- The resolver over `{"b": 1}` with some names required. -/
def wanting (names : List String) : Resolver :=
  ⟨.default, .proceed, [⟨[(.str "b", .int 1)], none⟩], names⟩

/-- Of a name without a value, one with a value and a reference, both list the first; the check
lists the reference as well. -/
theorem missingRequired_eq_checkRequired_wanting :
    ((wanting ["a", "b", "@id"]).batch .proceed
        (["a", "b", "@id"].map toExpression) [] []).map (·.missingRequired) =
      ((wanting ["a", "b", "@id"]).checkRequired []).1.result.map fun listed =>
        listed.filter fun name => !namesReference name := by
  have hnames : ∀ name ∈ ["a", "b", "@id"], isName name := by decide +kernel
  exact (missingRequired_eq_checkRequired (faithful_nil _) []).1 hnames

/-- The names of a reference, a name with a blank, the empty name, and a name with an expression. -/
def oddNames : List String := ["@id", " a", "", "x$\x7bb\x7d"]

theorem checkRequired_oddNames :
    ((wanting oddNames).checkRequired []).1.result = .ok ["@id", " a"] := by
  have hlisted : ((wanting oddNames).checkRequired []).1.result.toOption = some ["@id", " a"] := by
    decide +kernel
  exact eq_ok hlisted

/-- **The two checks differ on other names.** The check reports the reference and the name with a
blank, and the batch reports neither: a batch takes no reference to be required, and it compares
what is left without the blank. The batch reports the empty name and the name with an expression,
which the check finds. -/
theorem requiredChecks_differ :
    ((wanting oddNames).checkRequired []).1.result = .ok ["@id", " a"] ∧
      ∃ res, (wanting oddNames).batch .proceed (oddNames.map toExpression) [] [] = .ok res ∧
        res.missingRequired = ["", "x$\x7bb\x7d"] := by
  refine ⟨checkRequired_oddNames, ?_⟩
  have hmissing : ((wanting oddNames).batch .proceed (oddNames.map toExpression) []
      []).toOption.map (·.missingRequired) = some ["", "x$\x7bb\x7d"] := by
    decide +kernel
  exact exists_eq_ok hmissing

end Resolver

end ApiSuite
