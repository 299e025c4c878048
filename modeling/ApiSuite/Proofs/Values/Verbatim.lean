import ApiSuite.Proofs.Values.References

/-!
# What substitution leaves as it is written

Substituting in a text keeps the texts around its embedded expressions, and the expressions that
give no value. A resolver does not substitute in the text as it is written, though, but in that text
with its references addressed. So what is kept is kept with its references addressed
(`ApiSuite.Resolver.interpolate_keeps`): as it is written exactly if no reference is opened in it.
A reference that leads to no value comes out as the lookup in the holder that it was made, and so
does what opens a reference without being one
(`ApiSuite.Resolver.unresolved_reference_is_rewritten`).
-/

namespace ApiSuite.Resolver

open Template

section Keeping

variable {r : Resolver} {memo : Memo}

/-- **Substituting in a text keeps what has no value, with its references addressed.** If each
expression of the addressed text can be filled in or left as it is, a resolver keeps the texts
around them and the expressions that give no value; and otherwise it makes no text. The addressed
text is the text as it is written if no reference is opened in it, or if there is no holder for
them. If there is a holder it has the parts of the text as it is written, each with its references
addressed, and such a part is as it is written exactly if no reference is opened in it. -/
theorem interpolate_keeps (hm : r.Faithful memo) (s : String) :
    (∀ out, (r.interpolate s memo).1.result = .ok out ↔
      (∀ part ∈ (outlineOf (addressed r.options s)).parts,
        Fillable r.options.trusted (.object r.values) part.1) ∧
      Keeps r.options.trusted (.object r.values) (outlineOf (addressed r.options s)) out.toList) ∧
    (¬OpensReference s ∨ r.options.holderName? = none → addressed r.options s = s) ∧
    ∀ name, r.options.holderName? = some name → IsHolderName name.toList →
      outlineOf (addressed r.options s) = (outlineOf s).readdress name.toList ∧
      ∀ cs, (readdress name.toList cs = cs ↔ ¬referenceMark <:+: cs) ∧
        (inside name.toList cs = cs ↔ ¬referenceMark <:+: wrap cs) := by
  refine ⟨fun out => ?_, addressed_eq_self, fun name hname hholder => ⟨?_, fun cs => ⟨?_, ?_⟩⟩⟩
  · rw [result_interpolate hm, substitute_eq_ok_iff]
  · rw [addressed, hname, outlineOf, outlineOf]
    simp only [replaceReferences_eq hholder.noMark, String.toList_ofList]
    exact outline_readdress hholder s.toList
  · exact readdress_eq_self_iff hholder.noMark
  · exact inside_eq_self_iff hholder.noMark

end Keeping

/-! ### A reference that leads to no value -/

/-- A reference that leads to a value, one that leads to none, and one that is not closed. -/
def threeReferences : String := "a $\x7b@id\x7d b $\x7b@no\x7d c $\x7b@"

theorem isHolderName_res : IsHolderName "res".toList :=
  ⟨by decide, by decide, by decide, by decide⟩

/-- The first is filled in, the others come out addressed, and the texts between them stay. -/
theorem interpolate_keeps_threeReferences :
    Keeps false (.object onResult.values)
        ((outlineOf threeReferences).readdress "res".toList)
        "a m7 b $\x7bres.no\x7d c $\x7bres.".toList ∧
      readdress "res".toList " b ".toList = " b ".toList := by
  have hout : (onResult.interpolate threeReferences []).1.result.toOption =
      some "a m7 b $\x7bres.no\x7d c $\x7bres." := by
    decide +kernel
  obtain ⟨hresult, -, houtline⟩ := interpolate_keeps (faithful_nil onResult) threeReferences
  obtain ⟨hparts, hkept⟩ := houtline "res" rfl isHolderName_res
  have hkeeps := ((hresult _).mp (eq_ok hout)).2
  rw [hparts] at hkeeps
  exact ⟨hkeeps, (hkept _).1.mpr (by decide)⟩

/-- **A reference that leads to no value does not stay as it is written**, nor does an opening of a
reference in a text without expressions. -/
theorem unresolved_reference_is_rewritten :
    (onResult.resolve "$\x7b@no\x7d" []).1.result = .ok none ∧
      (onResult.interpolate "x $\x7b@no\x7d y" []).1.result = .ok "x $\x7bres.no\x7d y" ∧
      isPlain "a $\x7b@ b" = true ∧
      (onResult.interpolate "a $\x7b@ b" []).1.result = .ok "a $\x7bres. b" := by
  have hnone : (onResult.resolve "$\x7b@no\x7d" []).1.result.toOption.map Option.isNone =
      some true := by
    decide +kernel
  have hreference : (onResult.interpolate "x $\x7b@no\x7d y" []).1.result.toOption =
      some "x $\x7bres.no\x7d y" := by
    decide +kernel
  have hopening : (onResult.interpolate "a $\x7b@ b" []).1.result.toOption =
      some "a $\x7bres. b" := by
    decide +kernel
  exact ⟨eq_ok_none hnone, eq_ok hreference, by decide +kernel, eq_ok hopening⟩

end ApiSuite.Resolver
