import ApiSuite.Proofs.Template.Filling
import ApiSuite.Proofs.Template.Places

/-!
# Resolving and substituting agree

A template can be resolved, to a value if all of its expressions have one, and it can be
substituted in, as far as its expressions have values. Where both come to an end they agree
(`ApiSuite.Template.resolve_agrees`): a text that has a value is filled in to the text of that
value; and a text has none exactly if some expression in it has none, which then stands in the
result as it stands in the text, between what the text before it and the text after it are filled
in to.

The agreement is that of the two with what each piece leaves (`ApiSuite.Template.Leaves`). The
places need more: an expression divides its text into two that are texts in their own right
(`ApiSuite.Template.exists_split_of_mem_find`), and substitution goes through them one after the
other (`ApiSuite.Template.fillPresent_append`).
-/

namespace ApiSuite.Template

section Agreement

variable {trusted : Bool} {context v : Value} {s out : String} {body : List Char}
  {pieces : List Piece} {texts texts' : List (List Char)} {found : Option Value}

/-! ### What is resolved is what is substituted -/

theorem leaves_unique (h : List.Forall₂ (Leaves trusted context) pieces texts)
    (h' : List.Forall₂ (Leaves trusted context) pieces texts') : texts = texts' := by
  induction h generalizing texts' with
  | nil =>
    cases h'
    rfl
  | cons hpiece _ ih =>
    cases h' with
    | cons hpiece' hrest' => rw [hpiece.unique hpiece', ih hrest']

/-- **A text that has a value is filled in to the text of that value.** -/
theorem toText_of_resolve (hr : (resolve trusted context s).result = .ok (some v))
    (hs : (substitute trusted context s).result = .ok out) : toText v = .ok out := by
  obtain ⟨texts, hleaves, hout⟩ := leaves_of_substitute hs
  rcases resolvesTo_of_resolve hr with ⟨body, hsplit, hv⟩ | ⟨-, -, texts', hleaves', rfl⟩
  · rw [hsplit] at hleaves
    cases hleaves with
    | cons hpiece hrest =>
      cases hrest
      rw [List.flatten_cons, List.flatten_nil, List.append_nil] at hout
      cases hpiece with
      | filled htext =>
        obtain ⟨w, hw, ht⟩ := htext
        rw [hv.unique hw, String.toList_injective hout]
        exact ht
      | verbatim hnot => exact absurd ⟨v, hv⟩ hnot
  · -- a value put together from several pieces is a text already, the one that is substituted
    rw [leaves_unique hleaves' hleaves, ← hout, String.ofList_toList]
    exact Value.display_str out

/-- **A text that has a value is substituted as that value is written**, and it cannot be
substituted if the value cannot be written. -/
theorem substitute_of_resolve (hr : (resolve trusted context s).result = .ok (some v)) :
    (substitute trusted context s).result = textOf v := by
  rcases resolvesTo_of_resolve hr with ⟨body, hsplit, hv⟩ | ⟨-, hall, -⟩
  · rw [result_substitute, hsplit, fillPresent_embedded, filling_of_gives hv]
    cases textOf v with
    | error fault => rfl
    | ok text =>
      show Except.ok (String.ofList (text.toList ++ [])) = Except.ok text
      rw [List.append_nil, String.ofList_toList]
  · have hfillable : ∀ body, .embedded body ∈ split s.toList → Fillable trusted context body := by
      intro body hbody
      obtain ⟨text, htext⟩ := hall body hbody
      exact htext.fillable
    obtain ⟨out, hout⟩ := substitute_ok_iff.mpr hfillable
    rw [hout, textOf_of_ok (toText_of_resolve hr hout)]

/-- **A text that can be substituted can be resolved**, and it has a value exactly if every
expression in it is filled in. -/
theorem resolve_of_substitute (hs : (substitute trusted context s).result = .ok out) :
    ∃ found, (resolve trusted context s).result = .ok found ∧
      (found.isSome ↔
        ∀ body, .embedded body ∈ split s.toList → ∃ text, FilledWith trusted context body text) := by
  have hfillable := substitute_ok_iff.mp ⟨out, hs⟩
  have hnot : ¬Breaks trusted context s := by
    rintro (⟨body, hbody, hcrash⟩ | ⟨-, body, hfirst, hcrash⟩)
    · exact hcrash (hfillable body (by simp [hbody])).1
    · exact hcrash (hfillable body hfirst.mem)
  obtain ⟨found, hfound⟩ := resolve_ok_iff.mpr hnot
  refine ⟨found, hfound, ?_⟩
  have hnone := resolve_eq_none_iff hfound
  constructor
  · intro hsome body hbody
    obtain ⟨v, hv⟩ : ∃ v, Gives trusted context (embeddedText body) v := by
      refine Classical.byContradiction fun hno => ?_
      rw [hnone.mpr ⟨body, hbody, hno⟩] at hsome
      cases hsome
    obtain ⟨text, htext⟩ := (hfillable body hbody).2 v hv
    exact ⟨text, v, hv, htext⟩
  · intro hall
    rw [Option.isSome_iff_ne_none, Ne, hnone]
    rintro ⟨body, hbody, hno⟩
    obtain ⟨text, v, hv, -⟩ := hall body hbody
    exact hno ⟨v, hv⟩

/-! ### What has no value stays in its place -/

theorem result_fillPresent_append (before after : List Piece) :
    (fillPresent trusted context (before ++ after)).result =
      (fillPresent trusted context before).result.bind fun left =>
        (fillPresent trusted context after).result.map (left ++ ·) := by
  simp only [fillPresent_append, Traced.result_bind]
  rfl

/-- An expression without a value is left as it is. -/
theorem fillPresent_of_not_gives {cs : List Char}
    (hnot : ¬∃ v, Gives trusted context (embeddedText body) v)
    (h : (fillPresent trusted context (.embedded body :: pieces)).result = .ok cs) :
    ∃ right, (fillPresent trusted context pieces).result = .ok right ∧ cs = wrap body ++ right := by
  rw [fillPresent_embedded] at h
  rcases filling_cases trusted context body with ⟨text, ⟨v, hv, -⟩, -⟩ | ⟨-, -, hnone⟩ | ⟨-, c, hc⟩
  · exact absurd ⟨v, hv⟩ hnot
  · rw [hnone] at h
    cases hrest : (fillPresent trusted context pieces).result with
    | error fault =>
      rw [hrest] at h
      cases h
    | ok right =>
      rw [hrest] at h
      cases h
      exact ⟨right, rfl, rfl⟩
  · rw [hc] at h
    cases h

/-- **An expression without a value stands in the result as in the text**, between what the text
before it and the text after it are filled in to. -/
theorem verbatim_of_substitute (hs : (substitute trusted context s).result = .ok out)
    {o : Occurrence} (ho : o ∈ find s) (hnot : ¬∃ v, Gives trusted context o.text v) :
    ∃ left right, (substitute trusted context (o.textBefore s)).result = .ok left ∧
      (substitute trusted context (o.textAfter s)).result = .ok right ∧
      out = left ++ o.text ++ right := by
  obtain ⟨body, htext, hsplit⟩ := exists_split_of_mem_find ho
  rw [htext] at hnot
  rw [result_substitute, hsplit, result_fillPresent_append] at hs
  rw [result_substitute, result_substitute, htext]
  cases hleft : (fillPresent trusted context (split (o.textBefore s).toList)).result with
  | error fault =>
    rw [hleft] at hs
    cases hs
  | ok left =>
    rw [hleft] at hs
    cases hrest : (fillPresent trusted context
        (.embedded body :: split (o.textAfter s).toList)).result with
    | error fault =>
      simp only [hrest] at hs
      cases hs
    | ok rest =>
      obtain ⟨right, hright, rfl⟩ := fillPresent_of_not_gives hnot hrest
      simp only [hrest] at hs
      cases hs
      refine ⟨String.ofList left, String.ofList right, rfl, by rw [hright]; rfl, ?_⟩
      rw [String.ofList_append, String.ofList_append, String.append_assoc]

/-- **Resolving and substituting agree** where both come to an end. If a text has a value, it is
filled in to the text of that value. It has none exactly if an expression that is found in it has
none, and every such expression stands in the result as it is, between what the text before it and
the text after it are filled in to. -/
theorem resolve_agrees (hr : (resolve trusted context s).result = .ok found)
    (hs : (substitute trusted context s).result = .ok out) :
    (∀ v, found = some v → toText v = .ok out) ∧
      (found = none ↔ ∃ o ∈ find s, ¬∃ v, Gives trusted context o.text v) ∧
      ∀ o ∈ find s, (¬∃ v, Gives trusted context o.text v) →
        ∃ left right, (substitute trusted context (o.textBefore s)).result = .ok left ∧
          (substitute trusted context (o.textAfter s)).result = .ok right ∧
          out = left ++ o.text ++ right := by
  refine ⟨?_, ?_, fun o ho hnot => verbatim_of_substitute hs ho hnot⟩
  · rintro v rfl
    exact toText_of_resolve hr hs
  · exact (resolve_eq_none_iff hr).trans
      (exists_mem_find_iff (p := fun text => ¬∃ v, Gives trusted context text v)).symm

end Agreement

/-! ### A text with a value for one of its two names -/

/-- The object `{"a": 1}`. -/
def onlyA : Value := .ofFields [("a", .int 1)]

/-- `x=${a} y=${b}` has an expression for a name that has a value, and one for a name that has
none. -/
def twoNames : String := "x=$\x7ba\x7d y=$\x7bb\x7d"

theorem resolve_twoNames : (resolve false onlyA twoNames).result = .ok none := by
  have hnone : ((resolve false onlyA twoNames).result.toOption.map Option.isNone) = some true := by
    decide +kernel
  exact eq_ok_none hnone

theorem substitute_twoNames :
    (substitute false onlyA twoNames).result = .ok "x=1 y=$\x7bb\x7d" := by
  have hout : (substitute false onlyA twoNames).result.toOption = some "x=1 y=$\x7bb\x7d" := by
    decide +kernel
  exact eq_ok hout

/-- The second name has no value, and its expression is left at the end of the text. -/
theorem resolve_agrees_twoNames :
    (∃ o ∈ find twoNames, ¬∃ v, Gives false onlyA o.text v) ∧
      ∀ o ∈ find twoNames, (¬∃ v, Gives false onlyA o.text v) →
        ∃ left right, (substitute false onlyA (o.textBefore twoNames)).result = .ok left ∧
          (substitute false onlyA (o.textAfter twoNames)).result = .ok right ∧
          "x=1 y=$\x7bb\x7d" = left ++ o.text ++ right := by
  obtain ⟨-, hnone, hplace⟩ := resolve_agrees resolve_twoNames substitute_twoNames
  exact ⟨hnone.mp rfl, hplace⟩

end ApiSuite.Template
