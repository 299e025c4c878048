import ApiSuite.Proofs.Template.Parts
import ApiSuite.Proofs.Values.Shadowing

/-!
# What a lookup finds

A text is found on the highest holder on which all of its parts evaluate to values that are not
null, and a name that is no expression is found nowhere: this holds of every text whose parts are
what a lookup evaluates. A name that makes no expression even in its wrapper has no part that could
fail to evaluate, and it is found on whichever holder comes first; the shortest such name is the
empty one (`ApiSuite.Resolver.emptyName_is_found`).

`ApiSuite.Resolver.getValue_hits_where_parts_evaluate` says of every text what its lookup comes to,
and which of the required names are reported. It goes back to one fact about one holder, that
resolving breaks, comes to a value just if all expressions evaluate, or comes to nothing
(`ApiSuite.Template.isSome_of_resolve`), and to one about a list of them, that the first to do
anything but come to nothing decides (`ApiSuite.firstValue_cases`).
-/

namespace ApiSuite

open Expression Template

/-! ### Lookups -/

namespace ValuesHolder

/-- Every one of some expressions evaluates on a holder, to a value that is not null. -/
def Evaluates (options : ValuesOptions) (k : ValuesHolder) (ps : List String) : Prop :=
  AllEvaluate options.trusted (.object (k.shown options.env)) ps

/-- The lookup of a text breaks on a holder. -/
def BreaksOn (options : ValuesOptions) (k : ValuesHolder) (e : String) : Prop :=
  Breaks options.trusted (.object (k.shown options.env)) (lookupKey e)

/-- The lookup of a text comes to a value on a holder. -/
def Gives (options : ValuesOptions) (k : ValuesHolder) (e : String) (v : Value) : Prop :=
  ResolvesTo options.trusted (.object (k.shown options.env)) (lookupKey e) v

end ValuesHolder

/-- What the lookup of a text comes to, in terms of what some parts evaluate to on each holder. -/
structure Locates (options : ValuesOptions) (holders : List ValuesHolder) (e : String)
    (ps : List String) (result : Except Fault (Option LocatedValue)) : Prop where
  /-- It comes to an end unless it breaks on a holder above which the parts do not evaluate. -/
  ends : (∃ found, result = .ok found) ↔ ∀ lower k higher, holders = lower ++ k :: higher →
    (∀ j ∈ higher, ¬j.Evaluates options ps) → ¬k.BreaksOn options e
  /-- It finds something exactly if there is a holder on which the parts evaluate. -/
  hits : ∀ found, result = .ok found →
    (found.isSome ↔ ∃ k ∈ holders, k.Evaluates options ps)
  /-- What it finds is the value on the highest such holder, with the place of that holder. -/
  highest : ∀ found, result = .ok (some found) → ∃ lower k higher,
    holders = lower ++ k :: higher ∧ k.Evaluates options ps ∧
      (∀ j ∈ higher, ¬j.Evaluates options ps) ∧
      k.Gives options e found.value ∧ found.location = k.location

namespace Resolver

section Lookups

variable {holders : List ValuesHolder} {options : ValuesOptions} {policy : RequiredPolicy}
  {r : Resolver} {memo : Memo} {e : String}

/-- Without a name for references, a text is looked up by its key as it stands. -/
theorem result_getValue_of_faithful (h : Resolver.ofHolders holders options policy = .ok r)
    (href : options.holderName? = none) (hm : r.Faithful memo) :
    (r.getValue e memo).1.result =
      (firstValue options.trusted (lookupKey e)
        (holders.reverse.map (ValuesHolder.source options.env))).result := by
  have hoptions : r.options = options := by
    obtain ⟨sources, -, rfl⟩ := exists_sources_of_ofHolders h
    rfl
  have hkey : addressed options (lookupKey e) = lookupKey e := by
    rw [addressed, href]
  rw [(transparent_getValue r e).answers memo hm, getValue_nil, currentSources_of_ofHolders h,
    hoptions, findValue, hkey, ite_self]

/-- **The highest holder to do anything but come to nothing decides.** -/
theorem getValue_cases (h : Resolver.ofHolders holders options policy = .ok r)
    (href : options.holderName? = none) (hm : r.Faithful memo) (e : String) :
    ((∀ k ∈ holders, ¬k.BreaksOn options e ∧ ¬k.Evaluates options (sought e)) ∧
        (r.getValue e memo).1.result = .ok none) ∨
      ∃ lower k higher, holders = lower ++ k :: higher ∧
        (∀ j ∈ higher, ¬j.BreaksOn options e ∧ ¬j.Evaluates options (sought e)) ∧
        ((¬k.BreaksOn options e ∧ k.Evaluates options (sought e) ∧
            ∃ v, k.Gives options e v ∧
              (r.getValue e memo).1.result = .ok (some ⟨v, k.location⟩)) ∨
          k.BreaksOn options e ∧ ∃ c, (r.getValue e memo).1.result = .error (.crash c)) := by
  have hmisses : ∀ k : ValuesHolder,
      (Template.resolve options.trusted (.object (k.source options.env).entries)
        (lookupKey e)).result = .ok none →
      ¬k.BreaksOn options e ∧ ¬k.Evaluates options (sought e) := by
    intro k hk
    exact ⟨resolve_ok_iff.mp ⟨_, hk⟩, fun hall => by simpa using (isSome_of_resolve hk).mpr hall⟩
  rw [result_getValue_of_faithful h href hm]
  rcases firstValue_cases options.trusted (lookupKey e)
    (holders.reverse.map (ValuesHolder.source options.env)) with
    ⟨hall, hresult⟩ | ⟨above, s, below, hs, habove, hdecides⟩
  · refine .inl ⟨fun k hk => hmisses k (hall _ ?_), hresult⟩
    exact List.mem_map_of_mem (List.mem_reverse.mpr hk)
  · -- the sources above the one that decides are the holders of higher precedence
    rw [← currentSources_of_ofHolders h] at hs
    obtain ⟨lower, k, higher, hcut, rfl, rfl⟩ := split_of_currentSources h hs
    refine .inr ⟨lower, k, higher, hcut, fun j hj => hmisses j (habove _ ?_), ?_⟩
    · exact List.mem_map_of_mem (List.mem_reverse.mpr hj)
    · rcases hdecides with ⟨v, hv, hresult⟩ | ⟨fault, hfault, hresult⟩
      · refine .inl ⟨resolve_ok_iff.mp ⟨_, hv⟩, (isSome_of_resolve hv).mp rfl, v,
          resolvesTo_of_resolve hv, hresult⟩
      · obtain ⟨c, rfl⟩ := resolve_error hfault
        refine .inr ⟨not_not.mp fun hbreaks => ?_, c, hresult⟩
        obtain ⟨found, hfound⟩ := resolve_ok_iff.mpr hbreaks
        cases hfault.symm.trans hfound

/-- Of two places in a list, the second is after the first, is the first, or is before it. -/
theorem places_cases {α : Type} {l l' r r' : List α} {a b : α}
    (h : l ++ a :: r = l' ++ b :: r') : b ∈ r ∨ a = b ∨ a ∈ r' := by
  rcases List.append_eq_append_iff.mp h with ⟨between, -, hr⟩ | ⟨between, -, hr⟩
  · cases between with
    | nil => exact .inr (.inl (List.cons.inj hr).1)
    | cons _ between =>
      rw [(List.cons.inj hr).2]
      exact .inl (by simp)
  · cases between with
    | nil => exact .inr (.inl (List.cons.inj hr).1.symm)
    | cons _ between =>
      rw [(List.cons.inj hr).2]
      exact .inr (.inr (by simp))

/-- What a lookup comes to, in terms of any parts that evaluate where what is sought does. -/
theorem locates_of_parts (h : Resolver.ofHolders holders options policy = .ok r)
    (href : options.holderName? = none) (hm : r.Faithful memo) {ps : List String}
    (hps : ∀ k : ValuesHolder, k.Evaluates options (sought e) ↔ k.Evaluates options ps) :
    Locates options holders e ps (r.getValue e memo).1.result := by
  have hcases := getValue_cases h href hm e
  simp only [hps] at hcases
  rcases hcases with ⟨hall, hresult⟩ | ⟨lower, k, higher, rfl, habove, hdecides⟩
  · -- all holders come to nothing
    rw [hresult]
    refine { ends := ⟨?_, fun _ => ⟨none, rfl⟩⟩, hits := ?_, highest := nofun }
    · intro _ lower k higher hcut _
      exact (hall k (by simp [hcut])).1
    · rintro _ ⟨⟩
      refine ⟨nofun, ?_⟩
      rintro ⟨k, hk, hevaluates⟩
      exact absurd hevaluates (hall k hk).2
  · rcases hdecides with ⟨hbreaks, hevaluates, v, hv, hresult⟩ | ⟨hbreaks, c, hresult⟩
    · -- the holder that decides has a value, and what is below it does not count
      rw [hresult]
      refine { ends := ⟨?_, fun _ => ⟨_, rfl⟩⟩, hits := ?_, highest := ?_ }
      · intro _ lower' j higher' hcut hnot
        rcases places_cases hcut with hj | rfl | hk
        · exact (habove j hj).1
        · exact hbreaks
        · exact absurd hevaluates (hnot k hk)
      · rintro _ ⟨⟩
        exact ⟨fun _ => ⟨k, by simp, hevaluates⟩, fun _ => rfl⟩
      · rintro _ ⟨⟩
        exact ⟨lower, k, higher, rfl, hevaluates, fun j hj => (habove j hj).2, hv, rfl⟩
    · -- the lookup breaks on the holder that decides
      rw [hresult]
      refine { ends := ⟨?_, fun hnot => ?_⟩, hits := nofun, highest := nofun }
      · rintro ⟨found, hfound⟩
        cases hfound
      · exact absurd hbreaks (hnot lower k higher rfl fun j hj => (habove j hj).2)

/-- A malformed name is found nowhere. -/
theorem getValue_of_isMalformed (h : Resolver.ofHolders holders options policy = .ok r)
    (href : options.holderName? = none) (hm : r.Faithful memo) (hplain : isPlain e)
    (hbody : IsBody e.toList) (hbad : IsMalformed e) :
    (r.getValue e memo).1.result = .ok none := by
  have hwrapped := (isMalformed_toExpression hbody.noBrace).mpr hbad
  have hlone : split (lookupKey e).toList = [.embedded e.toList] := by
    rw [lookupKey, if_pos hplain, toList_toExpression, split_wrap hbody]
  -- the wrapped name is the one expression of the key, and it fails in every context
  have hmisses : ∀ context : Value,
      (Template.resolve options.trusted context (lookupKey e)).result = .ok none := by
    intro context
    obtain ⟨error, herror⟩ := hwrapped.evaluate options.trusted context
    rw [resolve_of_lone hlone]
    exact evaluatePart_of_expression_error herror
  rw [result_getValue_of_faithful h href hm]
  rcases firstValue_cases options.trusted (lookupKey e)
    (holders.reverse.map (ValuesHolder.source options.env)) with
    ⟨-, hresult⟩ | ⟨-, s, -, -, -, ⟨v, hv, -⟩ | ⟨fault, hfault, -⟩⟩
  · exact hresult
  · cases hv.symm.trans (hmisses _)
  · cases hfault.symm.trans (hmisses _)

/-- **A name that makes no expression even in its wrapper is found on any holder**: its value is
the wrapped name. -/
theorem getValue_of_isPlain (h : Resolver.ofHolders holders options policy = .ok r)
    (href : options.holderName? = none) (hm : r.Faithful memo) (hplain : isPlain (lookupKey e))
    {lower : List ValuesHolder} {k : ValuesHolder} (hcut : holders = lower ++ [k]) :
    (r.getValue e memo).1.result = .ok (some ⟨.str (lookupKey e), k.location⟩) := by
  have hsources : holders.reverse.map (ValuesHolder.source options.env) =
      k.source options.env :: lower.reverse.map (ValuesHolder.source options.env) := by
    simp [hcut]
  rw [result_getValue_of_faithful h href hm, hsources, result_firstValue_cons,
    resolve_of_isPlain hplain]
  rfl

/-! ### Required names -/

theorem mem_distinctNames {name : String} {names : List String} :
    name ∈ distinctNames names ↔ name ∈ names := by
  have hfold : ∀ seen : List String,
      name ∈ names.foldl (fun seen n => if seen.contains n then seen else seen ++ [n]) seen ↔
        name ∈ seen ∨ name ∈ names := by
    induction names with
    | nil => simp
    | cons n names ih =>
      intro seen
      rw [List.foldl_cons, ih, List.mem_cons]
      split
      · rename_i hmem
        have hseen : n ∈ seen := by simpa using hmem
        constructor
        · rintro (h | h)
          · exact .inl h
          · exact .inr (.inr h)
        · rintro (h | rfl | h)
          · exact .inl h
          · exact .inl hseen
          · exact .inr h
      · rw [List.mem_append, List.mem_singleton, or_assoc]
  rw [distinctNames, hfold]
  simp

/-- The required names are those that some holder declares. -/
theorem mem_required_iff (h : Resolver.ofHolders holders options policy = .ok r) {name : String} :
    name ∈ r.required ↔ ∃ k ∈ holders, ∃ names, k.required = some names ∧ name ∈ names := by
  obtain ⟨sources, -, rfl⟩ := exists_sources_of_ofHolders h
  rw [mem_distinctNames, List.mem_flatMap]
  refine exists_congr fun k => and_congr_right fun _ => ?_
  cases k.required <;> simp

/-- Whether a name is looked up in vain. -/
def lacks (r : Resolver) (name : String) : Bool :=
  match (r.getValue name []).1.result with
  | .ok none => true
  | _ => false

theorem lacks_of_result {name : String} {found : Option LocatedValue}
    (h : (r.getValue name []).1.result = .ok found) : r.lacks name = found.isNone := by
  rw [lacks, h]
  cases found <;> rfl

/-- **Names are listed to the end** exactly if the lookup of each comes to an end, and those that
are listed are the ones that are looked up in vain. -/
theorem missing_eq_ok_iff {names listed : List String} (hm : r.Faithful memo) :
    (r.missing names memo).1.result = .ok listed ↔
      (∀ name ∈ names, ∃ found, (r.getValue name []).1.result = .ok found) ∧
        listed = names.filter r.lacks := by
  induction names generalizing memo listed with
  | nil =>
    show Except.ok [] = Except.ok listed ↔ _
    simp [eq_comm]
  | cons name names ih =>
    have hanswer := (transparent_getValue r name).answers memo hm
    -- the rest is listed with a memo that the first lookup has kept faithful
    have hrest := fun listed => @ih _ listed ((transparent_getValue r name).keeps memo hm)
    rw [missing, List.forall_mem_cons]
    rcases hfound : (r.getValue name memo).1.result with fault | found
    · rw [Session.bind_of_error hfound, ← hanswer, hfound]
      simp
    · rw [hfound] at hanswer
      rw [Session.bind_of_ok hfound, List.filter_cons, lacks_of_result hanswer.symm]
      dsimp only
      rcases hmore : (r.missing names (r.getValue name memo).2).1.result with fault | more
      · rw [Session.bind_of_error hmore]
        refine ⟨nofun, ?_⟩
        rintro ⟨⟨-, hall⟩, -⟩
        cases hmore.symm.trans ((hrest _).mpr ⟨hall, rfl⟩)
      · obtain ⟨hall, rfl⟩ := (hrest more).mp hmore
        rw [Session.bind_of_ok hmore]
        constructor
        · intro hlisted
          exact ⟨⟨⟨found, hanswer.symm⟩, hall⟩, (Except.ok.inj hlisted).symm⟩
        · rintro ⟨-, rfl⟩
          rfl

/-- The required names are gone through to the end exactly if the lookup of each comes to an
end. -/
theorem checkRequired_ok_iff (hm : r.Faithful memo) :
    (∃ names, (r.checkRequired memo).1.result = .ok names) ↔
      ∀ name ∈ r.required, ∃ found, (r.getValue name memo).1.result = .ok found := by
  constructor
  · rintro ⟨names, hnames⟩ name hname
    rw [(transparent_getValue r name).answers memo hm]
    exact ((missing_eq_ok_iff hm).mp hnames).1 name hname
  · intro hall
    refine ⟨_, (missing_eq_ok_iff hm).mpr ⟨fun name hname => ?_, rfl⟩⟩
    rw [← (transparent_getValue r name).answers memo hm]
    exact hall name hname

/-- A recognized name is looked up in vain exactly if it evaluates on no holder. -/
theorem lacks_iff_not_evaluates (h : Resolver.ofHolders holders options policy = .ok r)
    (href : options.holderName? = none) (hknown : IsRecognized e) {found : Option LocatedValue}
    (hfound : (r.getValue e []).1.result = .ok found) :
    r.lacks e ↔ ∀ k ∈ holders, ¬k.Evaluates options (parts e) := by
  have hlocates := locates_of_parts h href (faithful_nil r) fun k => allEvaluate_sought hknown
  rw [lacks_of_result hfound]
  calc found.isNone = true ↔ ¬found.isSome = true := by cases found <;> simp
    _ ↔ ¬∃ k ∈ holders, k.Evaluates options (parts e) := not_congr (hlocates.hits found hfound)
    _ ↔ ∀ k ∈ holders, ¬k.Evaluates options (parts e) := by simp

/-- **A text is found where its parts evaluate.** Over any holders, without a name for references,
and whatever has been asked before: the lookup of a text comes to the value on the highest holder on
which all that is sought evaluates. What is sought are the parts of the text, for every text that is
recognized; a malformed name among these is found nowhere, while a name that makes no expression
even in its wrapper is found on the highest holder there is. The required names that are reported
are, among those that are recognized, the ones that evaluate on no holder. -/
theorem getValue_hits_where_parts_evaluate
    (h : Resolver.ofHolders holders options policy = .ok r)
    (href : options.holderName? = none) (hm : r.Faithful memo) :
    (∀ e, Locates options holders e (sought e) (r.getValue e memo).1.result ∧
        (IsRecognized e → Locates options holders e (parts e) (r.getValue e memo).1.result) ∧
        (isPlain e → IsRecognized e → IsMalformed e → (r.getValue e memo).1.result = .ok none) ∧
        (isPlain (lookupKey e) → ∀ lower k, holders = lower ++ [k] →
          (r.getValue e memo).1.result = .ok (some ⟨.str (lookupKey e), k.location⟩))) ∧
      ((∃ names, (r.checkRequired memo).1.result = .ok names) ↔
        ∀ name ∈ r.required, ∃ found, (r.getValue name memo).1.result = .ok found) ∧
      ∀ names, (r.checkRequired memo).1.result = .ok names → names.Sublist r.required ∧
        ∀ name, IsRecognized name → (name ∈ names ↔
          (∃ k ∈ holders, ∃ declared, k.required = some declared ∧ name ∈ declared) ∧
            ∀ k ∈ holders, ¬k.Evaluates options (parts name)) := by
  refine ⟨fun e => ⟨?_, ?_, ?_, ?_⟩, checkRequired_ok_iff hm, ?_⟩
  · exact locates_of_parts h href hm fun k => Iff.rfl
  · exact fun hknown => locates_of_parts h href hm fun k => allEvaluate_sought hknown
  · exact fun hplain hknown => getValue_of_isMalformed h href hm hplain (hknown hplain)
  · exact fun hplain lower k hcut => getValue_of_isPlain h href hm hplain hcut
  · intro names hnames
    obtain ⟨hall, rfl⟩ := (missing_eq_ok_iff hm).mp hnames
    refine ⟨List.filter_sublist, fun name hknown => ?_⟩
    rw [List.mem_filter, ← mem_required_iff h]
    refine and_congr_right fun hname => ?_
    obtain ⟨found, hfound⟩ := hall name hname
    exact lacks_iff_not_evaluates h href hknown hfound

end Lookups

/-! ### A name on one of two holders, and the empty name -/

/-- A holder of `{"a": 1}`, which requires a value for the empty name. -/
def lowHolder : ValuesHolder := ⟨.object [("a", .int 1)], some ⟨"low.json", none⟩, some [""]⟩

/-- A holder of `{"b": 2}`. -/
def highHolder : ValuesHolder := ⟨.object [("b", .int 2)], some ⟨"high.json", none⟩, none⟩

/-- The resolver over both. -/
def highOverLow : Resolver :=
  ⟨.default, .proceed,
    [⟨[(.str "b", .int 2)], some ⟨"high.json", none⟩⟩,
      ⟨[(.str "a", .int 1)], some ⟨"low.json", none⟩⟩], [""]⟩

theorem ofHolders_highOverLow :
    Resolver.ofHolders [lowHolder, highHolder] .default .proceed = .ok highOverLow := rfl

/-- What the lookup of a name comes to is told by what the name evaluates to on the two. -/
theorem getValue_hits_highOverLow :
    Locates .default [lowHolder, highHolder] "a" ["a"] (highOverLow.getValue "a" []).1.result := by
  have hknown : IsRecognized "a" := fun _ => ⟨by decide, by decide, by decide⟩
  have hparts : parts "a" = ["a"] := by decide +kernel
  obtain ⟨hlookups, -⟩ :=
    getValue_hits_where_parts_evaluate ofHolders_highOverLow rfl (faithful_nil _)
  rw [← hparts]
  exact (hlookups "a").2.1 hknown

theorem isMalformed_empty : IsMalformed "" := ⟨.empty, "", 0, by rfl⟩

theorem getValue_empty :
    (highOverLow.getValue "" []).1.result =
      .ok (some ⟨.str "$\x7b\x7d", some ⟨"high.json", none⟩⟩) := by
  have hkey : lookupKey "" = "$\x7b\x7d" := by decide +kernel
  have hplain : isPlain (lookupKey "") := by decide +kernel
  have hcut : [lowHolder, highHolder] = [lowHolder] ++ [highHolder] := rfl
  rw [getValue_of_isPlain ofHolders_highOverLow rfl (faithful_nil _) hplain hcut, hkey]
  rfl

/-- **The empty name is found**, as the text of an empty wrapper, though it is no expression and
evaluates on no holder; and it is not reported where it is required. -/
theorem emptyName_is_found :
    (highOverLow.getValue "" []).1.result =
        .ok (some ⟨.str "$\x7b\x7d", some ⟨"high.json", none⟩⟩) ∧
      (∀ k ∈ [lowHolder, highHolder], ¬k.Evaluates .default (parts "")) ∧
      "" ∈ highOverLow.required ∧ (highOverLow.checkRequired []).1.result = .ok [] := by
  refine ⟨getValue_empty, ?_, List.mem_cons_self, ?_⟩
  · intro k _ hevaluates
    have hparts : parts "" = [""] := by decide +kernel
    rw [hparts] at hevaluates
    obtain ⟨v, hv, -⟩ := hevaluates "" List.mem_cons_self
    obtain ⟨error, herror⟩ := isMalformed_empty.evaluate _ _
    cases herror.symm.trans hv
  · refine (missing_eq_ok_iff (faithful_nil _)).mpr ⟨?_, ?_⟩
    · exact List.forall_mem_singleton.mpr ⟨_, getValue_empty⟩
    · show [] = [""].filter highOverLow.lacks
      rw [List.filter_cons, lacks_of_result getValue_empty]
      rfl

end Resolver

end ApiSuite
