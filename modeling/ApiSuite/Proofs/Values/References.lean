import ApiSuite.Proofs.Expression.Dependence
import ApiSuite.Proofs.Template.Agreement
import ApiSuite.Proofs.Template.Parts
import ApiSuite.Proofs.Template.References
import ApiSuite.Proofs.Values.Shadowing

/-!
# References at the two ways into a resolver

A resolver that has a holder for references addresses them to it: wherever a reference is opened in
a text, a lookup in that holder is opened instead. The two ways into a resolver differ in the texts
that they do this to. A text that is substituted in is rewritten throughout. A text that is resolved
is rewritten throughout if it begins with a reference, and left as it is otherwise.

So the two ways agree where both read the same text (`ApiSuite.AddressedAlike`): the text begins
with a reference, or no reference is opened in it, or there is no holder for references. Over a
single holder nothing else tells them apart, since the merged view is then that holder, name by name
(`ApiSuite.Value.lookup_merge_nil`), and expressions ask for nothing but names
(`ApiSuite.Expression.evaluate_congr`). A text with a reference after other text resolves to
nothing, though it may well be substituted in
(`ApiSuite.Resolver.reference_after_text_is_missed`).
-/

namespace ApiSuite

open Expression Template

/-! ### A reference by itself -/

namespace Template

/-- A reference is read as no expression, and so it gives no value. -/
theorem not_gives_of_reference {trusted : Bool} {context : Value} {rest : List Char} :
    ¬∃ v, Gives trusted context (embeddedText ('@' :: rest)) v := by
  intro h
  obtain ⟨v, hv, -⟩ := exists_gives_iff.mp h
  obtain ⟨x, hparse, -⟩ := evaluate_eq_ok_iff.mp hv
  exact not_parse_of_mark (.inr rfl) x hparse

/-! ### One object for another -/

/-- Two objects have the same under every name, or both nothing. -/
def SameNames (es es' : List (Value × Value)) : Prop :=
  ∀ name, Value.lookup name es = Value.lookup name es'

section SameNames

variable {trusted : Bool} {es es' : List (Value × Value)} {body : List Char} {s : String}

/-- Expressions ask an object for nothing but names. -/
theorem SameNames.evaluate_eq (h : SameNames es es') (trusted : Bool) (text : String) :
    evaluate trusted (.object es) text = evaluate trusted (.object es') text :=
  evaluate_congr (fun _ _ name _ => h name) trusted

theorem SameNames.substitute_eq (h : SameNames es es') (trusted : Bool) (s : String) :
    substitute trusted (.object es) s = substitute trusted (.object es') s := by
  refine substitute_congr fun body _ => ?_
  rw [evaluatePart, evaluatePart, h.evaluate_eq]

theorem SameNames.filledWith_iff (h : SameNames es es') {text : String} :
    FilledWith trusted (.object es) body text ↔ FilledWith trusted (.object es') body text := by
  simp only [FilledWith, Gives, h.evaluate_eq]

end SameNames

end Template

/-- What is merged into nothing is under each of its names as it was. -/
theorem Value.lookup_merge_nil {es : List (Value × Value)} (h : Value.KeyedEntries es) :
    Template.SameNames (Value.merge [] es) es := by
  intro name
  have hnothing : Value.lookup name [] = none := rfl
  rw [Value.lookup_merge h]
  cases hv : Value.lookup name es with
  | none => rfl
  | some v =>
    rcases Value.override_cases none v with hwhole | ⟨_, _, hobject, -⟩
    · simp only [hnothing, hwhole]
    · cases hobject

/-! ### The text that is resolved, and the text that is substituted in -/

/-- The text that a lookup resolves: its references are addressed only if it begins with one. -/
def lookedUp (options : ValuesOptions) (text : String) : String :=
  if isReference text then addressed options text else text

/-- The text that is resolved is the one that is substituted in: it begins with a reference, or none
is opened in it, or there is no holder for references. -/
def AddressedAlike (options : ValuesOptions) (text : String) : Prop :=
  isReference text ∨ ¬OpensReference text ∨ options.holderName? = none

/-- A text in which no reference is opened is left as it is, and so is any if there is no holder for
references. -/
theorem addressed_eq_self {options : ValuesOptions} {text : String}
    (h : ¬OpensReference text ∨ options.holderName? = none) : addressed options text = text := by
  rcases h with hnone | hholder
  · unfold addressed
    split
    · exact replaceReferences_of_not_opensReference hnone
    · rfl
  · rw [addressed, hholder]

theorem AddressedAlike.lookedUp_eq {options : ValuesOptions} {text : String}
    (h : AddressedAlike options text) : lookedUp options text = addressed options text := by
  unfold lookedUp
  split
  · rfl
  · rename_i hhead
    exact (addressed_eq_self (h.resolve_left hhead)).symm

/-- Without a holder for references, and where a text does not begin with one, the text is looked up
as it is. -/
theorem lookedUp_eq_self {options : ValuesOptions} {text : String}
    (h : isReference text = false ∨ options.holderName? = none) : lookedUp options text = text := by
  unfold lookedUp
  split
  · rename_i hhead
    rcases h with hno | hholder
    · rw [hno] at hhead
      cases hhead
    · exact addressed_eq_self (.inr hholder)
  · rfl

namespace Resolver

section OneHolder

variable {k : ValuesHolder} {options : ValuesOptions} {policy : RequiredPolicy} {r : Resolver}
  {memo memo' : Memo} {text out : String} {v : Value}

theorem options_of_ofHolders {holders : List ValuesHolder}
    (h : Resolver.ofHolders holders options policy = .ok r) : r.options = options := by
  obtain ⟨sources, -, rfl⟩ := exists_sources_of_ofHolders h
  rfl

/-- What a text resolves to is the value that is found for it. -/
theorem result_resolve :
    (r.resolve text memo).1.result =
      (r.getValue text memo).1.result.map (Option.map LocatedValue.value) := by
  rw [resolve]
  cases hfound : (r.getValue text memo).1.result with
  | error fault =>
    rw [Session.bind_of_error hfound]
    rfl
  | ok found =>
    rw [Session.bind_of_ok hfound]
    rfl

/-- What a text resolves to over one holder, whatever has been asked before. -/
theorem result_resolve_of_one (h : Resolver.ofHolders [k] options policy = .ok r)
    (hm : r.Faithful memo) (htext : isPlain text = false) :
    (r.resolve text memo).1.result =
      (Template.resolve options.trusted (.object (k.shown options.env))
        (lookedUp options text)).result := by
  have hoptions : r.options = options := options_of_ofHolders h
  have hkey : lookupKey text = text := by
    rw [lookupKey, htext]
    rfl
  have hfind : findValue options [k.source options.env] text =
      firstValue options.trusted (lookedUp options text) [k.source options.env] := rfl
  rw [result_resolve, (transparent_getValue r text).answers memo hm, getValue_nil, hkey, hoptions,
    currentSources_of_ofHolders h, List.reverse_singleton, List.map_singleton, hfind,
    result_firstValue_cons]
  have hentries : (k.source options.env).entries = k.shown options.env := rfl
  rw [hentries]
  rcases (Template.resolve options.trusted (.object (k.shown options.env))
    (lookedUp options text)).result with fault | _ | v <;> rfl

/-- What a text is substituted in to, whatever has been asked before. -/
theorem result_interpolate (hm : r.Faithful memo) :
    (r.interpolate text memo).1.result =
      (Template.substitute r.options.trusted (.object r.values)
        (addressed r.options text)).result := by
  have hvalues : (r.getValues memo).1.result = .ok r.values :=
    (transparent_getValues r).answers memo hm
  rw [interpolate, Session.bind_of_ok hvalues]
  rfl

/-- The merged view of one holder has what the holder has. -/
theorem sameNames_values (h : Resolver.ofHolders [k] options policy = .ok r) (hk : k.Keyed) :
    SameNames r.values (k.shown options.env) := by
  have hvalues : r.values = Value.merge [] (k.shown options.env) := by
    rw [values, currentSources_of_ofHolders h]
    rfl
  rw [hvalues]
  exact Value.lookup_merge_nil (hk.shown options.env)

/-- **Over one holder, resolving and substituting treat references alike** where both read the same
text. If such a text resolves to a value, it is substituted in to the text of that value; and if it
can be substituted in, it resolves to the end, to a value exactly if every expression in it is
filled in. A text with a reference resolves to no value at all if it begins with none, or if there
is no holder for references. -/
theorem resolve_interpolate (h : Resolver.ofHolders [k] options policy = .ok r) (hk : k.Keyed)
    (hm : r.Faithful memo) (hm' : r.Faithful memo') (htext : isPlain text = false) :
    (AddressedAlike options text →
      (∀ v, (r.resolve text memo).1.result = .ok (some v) →
        (r.interpolate text memo').1.result = textOf v) ∧
      ∀ out, (r.interpolate text memo').1.result = .ok out →
        ∃ found, (r.resolve text memo).1.result = .ok found ∧
          (found.isSome ↔ ∀ body, .embedded body ∈ split (addressed options text).toList →
            ∃ filling, FilledWith options.trusted (.object r.values) body filling)) ∧
    (isReference text = false ∨ options.holderName? = none →
      (∃ rest, .embedded ('@' :: rest) ∈ split text.toList) →
      ∀ v, (r.resolve text memo).1.result ≠ .ok (some v)) := by
  have hsame := sameNames_values h hk
  have hoptions : r.options = options := options_of_ofHolders h
  have hinterpolate : (r.interpolate text memo').1.result =
      (Template.substitute options.trusted (.object (k.shown options.env))
        (addressed options text)).result := by
    rw [result_interpolate hm', hoptions, hsame.substitute_eq]
  rw [result_resolve_of_one h hm htext, hinterpolate]
  constructor
  · intro halike
    rw [halike.lookedUp_eq]
    refine ⟨fun v hv => substitute_of_resolve hv, fun out hout => ?_⟩
    obtain ⟨found, hfound, hsome⟩ := resolve_of_substitute hout
    simp only [hsame.filledWith_iff]
    exact ⟨found, hfound, hsome⟩
  · rintro hhead ⟨rest, hrest⟩ v hv
    rw [lookedUp_eq_self hhead] at hv
    exact not_gives_of_reference ((resolvesTo_of_resolve hv).gives hrest)

end OneHolder

/-! ### A reference at the beginning, and one after other text -/

/-- The values `{"res": {"id": "m7"}}`. -/
def lastResult : ValuesHolder where
  values := .object [("res", .ofFields [("id", .str "m7")])]
  location := none
  required := none

/-- References are addressed to `res`. -/
def toResult : ValuesOptions := ⟨false, some "res", []⟩

/-- The resolver over the last result. -/
def onResult : Resolver where
  options := toResult
  policy := .proceed
  sources := [⟨[(.str "res", .ofFields [("id", .str "m7")])], none⟩]
  required := []

theorem ofHolders_lastResult :
    Resolver.ofHolders [lastResult] toResult .proceed = .ok onResult := rfl

theorem keyed_lastResult : lastResult.Keyed := by
  rintro fields ⟨⟩
  refine ⟨fun _ _ => rfl, ⟨fun _ _ => rfl, trivial, trivial⟩, trivial⟩

/-- Two references, the first of them at the beginning. -/
def twoReferences : String := "$\x7b@id\x7d/x$\x7b@id\x7d"

/-- Both ways rewrite all references of a text that begins with one. -/
theorem resolve_interpolate_twoReferences :
    ∃ v, (onResult.resolve twoReferences []).1.result = .ok (some v) ∧
      (onResult.interpolate twoReferences []).1.result = textOf v := by
  have hsome : (onResult.resolve twoReferences []).1.result.toOption.map Option.isSome =
      some true := by
    decide +kernel
  have htext : isPlain twoReferences = false := by decide +kernel
  obtain ⟨halike, -⟩ := resolve_interpolate ofHolders_lastResult keyed_lastResult
    (faithful_nil onResult) (faithful_nil onResult) htext
  obtain ⟨found, hfound, hv⟩ := exists_eq_ok hsome
  obtain ⟨v, rfl⟩ := Option.isSome_iff_exists.mp hv
  exact ⟨v, hfound, (halike (.inl (by decide +kernel))).1 v hfound⟩

/-- **A reference after other text is substituted in, and not resolved.** -/
theorem reference_after_text_is_missed :
    (onResult.resolve "id=$\x7b@id\x7d" []).1.result = .ok none ∧
      (onResult.interpolate "id=$\x7b@id\x7d" []).1.result = .ok "id=m7" := by
  have hnone : (onResult.resolve "id=$\x7b@id\x7d" []).1.result.toOption.map Option.isNone =
      some true := by
    decide +kernel
  have hout : (onResult.interpolate "id=$\x7b@id\x7d" []).1.result.toOption = some "id=m7" := by
    decide +kernel
  exact ⟨eq_ok_none hnone, eq_ok hout⟩

end Resolver

end ApiSuite
