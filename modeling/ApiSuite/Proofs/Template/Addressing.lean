import ApiSuite.Proofs.Expression.Evaluation
import ApiSuite.Proofs.Expression.Spelling
import ApiSuite.Proofs.Template.Path
import ApiSuite.Proofs.Template.References

/-!
# References are lookups in their holder

A reference asks its holder for what an accessor path leads to. Such a path goes on from the holder
by a name or by a bracket (`ApiSuite.Template.IsAccessorPath`). Put after the name of the holder,
with the point or without, it is a path of the grammar that begins with that name
(`ApiSuite.Template.IsAccessorPath.spells`), however it is spelled. So an addressed reference
evaluates to what the segments lead to from the value of the holder, and to null if the holder is
absent (`ApiSuite.Template.replaceReferences_looks_up`).

As everywhere in expressions, an index of too many digits cannot be read, and the evaluation ends in
the crash that it causes. A path by brackets has its first bracket at its head: the text after the
mark is taken for an index only if it begins with one, and for a name otherwise.
-/

namespace ApiSuite.Template

open Expression Text

/-- A name of the grammar. -/
def IsIdentifier (s : String) : Prop := (Token.name s).Spelled s.toList

/-- An accessor path, the tokens of the accessors that it comes to, and their segments. It begins
with a name, which comes to the accessor with a point before it, or with a bracket, and accessors
follow. -/
inductive IsAccessorPath : List Char → List Token → List Segment → Prop
  | byName {cs : List Char} {member : String} {ts : List Token} {segments : List Segment} :
      Spells (.name member :: ts) cs → Accessors ts segments →
      IsAccessorPath cs (.dot :: .name member :: ts) (.key member :: segments)
  | byBracket {cs : List Char} {ts : List Token} {segments : List Segment} :
      Spells ts ('[' :: cs) → Accessors ts segments → IsAccessorPath ('[' :: cs) ts segments

section Addressing

variable {trusted : Bool} {entries : List (Value × Value)} {cs : List Char}
  {e name path : String} {ts : List Token} {segments : List Segment}

theorem IsIdentifier.isHolderName (h : IsIdentifier name) : IsHolderName name.toList := by
  have hparts : ∀ c ∈ name.toList, isNamePart c := by
    rw [IsIdentifier] at h
    generalize name.toList = cs at h
    cases h with
    | name hc hcs =>
      exact isNamePart_of_continuesName (List.forall_mem_cons.mpr ⟨.inl hc, hcs⟩)
  have hnot : ∀ c, isNamePart c = false → c ∉ name.toList := by
    intro c hc hmem
    rw [hparts c hmem] at hc
    cases hc
  exact ⟨h.ne_nil, hnot _ (by decide), ⟨hnot _ (by decide), hnot _ (by decide)⟩,
    hnot _ (by decide)⟩

/-- A name is no bracket, nor is a blank before it. -/
theorem junction_of_name {member : String} (h : Spells (.name member :: ts) cs) :
    junction cs = ['.'] := by
  cases h with
  | @cons _ _ blanks sp rest hblanks hsp hrest =>
    refine if_neg ?_
    cases hsp with
    | name hc _ =>
      cases blanks with
      | nil =>
        rintro ⟨⟩
        exact absurd hc (by decide)
      | cons b blanks =>
        rintro ⟨⟩
        exact absurd (hblanks '[' (by simp)) (by decide)

/-- **Put after a name, an accessor path is a path of the grammar.** -/
theorem IsAccessorPath.spells (h : IsAccessorPath cs ts segments) (hname : IsIdentifier name) :
    Spells (.name name :: ts) (name.toList ++ (junction cs ++ cs)) ∧ Accessors ts segments := by
  cases h with
  | byName hspells haccessors =>
    rw [junction_of_name hspells]
    exact ⟨.token hname (.token .dot hspells), .member _ haccessors⟩
  | byBracket hspells haccessors => exact ⟨.token hname hspells, haccessors⟩

/-- A reference that opens no other is addressed at its head. -/
theorem replaceReferences_reference (hname : IsIdentifier name) (hpath : ¬OpensReference path) :
    replaceReferences (toExpression ("@" ++ path)) name =
      toExpression (String.ofList (name.toList ++ (junction path.toList ++ path.toList))) := by
  have hkept : readdress name.toList path.toList = path.toList := by
    have heq := replaceReferences_eq (s := path) hname.isHolderName.noMark
    rw [replaceReferences_of_not_opensReference hpath] at heq
    rw [← String.toList_ofList (l := readdress name.toList path.toList), ← heq]
  have htext : toExpression ("@" ++ path) = embeddedText ('@' :: path.toList) := by
    rw [toExpression, String.toList_append]
    rfl
  rw [htext, replaceReferences_embeddedText hname.isHolderName.noMark, inside, hkept, toExpression,
    String.toList_ofList]
  rfl

/-- What an addressed reference holds are the tokens of the path from its holder, and these derive
that path. -/
theorem IsAccessorPath.derives (h : IsAccessorPath path.toList ts segments)
    (hpath : ¬OpensReference path) (hname : IsIdentifier name) (hfree : ¬IsReserved name) :
    ∃ cs, Holds (replaceReferences (toExpression ("@" ++ path)) name) cs ∧
      Spells (.name name :: ts) cs ∧
      Derives .conditional (.name name :: ts) (.path name segments) := by
  obtain ⟨hspells, haccessors⟩ := h.spells hname
  rw [replaceReferences_reference hname hpath]
  refine ⟨_, holds_toExpression _, ?_, .ofPath hfree haccessors⟩
  rw [String.toList_ofList]
  exact hspells.trim

/-- **An addressed reference has the value that its path leads to from the holder.** -/
theorem evaluate_reference (h : IsAccessorPath path.toList ts segments)
    (hpath : ¬OpensReference path) (hname : IsIdentifier name) (hfree : ¬IsReserved name)
    (hshort : ∀ t ∈ ts, t.IsShort)
    (he : replaceReferences (toExpression ("@" ++ path)) name = e) :
    evaluate trusted (.object entries) e =
      ((Value.lookup name entries).elim (.ok .null) (follow · segments)).mapError
        (Stop.fault e) := by
  obtain ⟨cs, hholds, hspells, hderives⟩ := h.derives hpath hname hfree
  rw [he] at hholds
  have hread : parse e = .ok (.path name segments) :=
    (parse_eq_ok_iff hholds).mpr
      ⟨_, hspells, hderives, List.forall_mem_cons.mpr ⟨trivial, hshort⟩⟩
  have hvalue : value (.object entries) (.path name segments) =
      follow (.object entries) (.key name :: segments) := rfl
  rw [evaluate_of_parse hread (.inr rfl), hvalue, follow_object]
  cases hv : Value.lookup (Segment.asKey (.key name)) entries with
  | none =>
    rw [show Value.lookup name entries = none from hv, Option.getD_none, follow_null]
    rfl
  | some v =>
    rw [show Value.lookup name entries = some v from hv]
    rfl

/-- An index of too many digits cannot be read. -/
theorem evaluate_reference_crash (h : IsAccessorPath path.toList ts segments)
    (hpath : ¬OpensReference path) (hname : IsIdentifier name) (hfree : ¬IsReserved name)
    (hlong : ∃ t ∈ ts, ¬t.IsShort) :
    ∃ c, evaluate trusted (.object entries)
      (replaceReferences (toExpression ("@" ++ path)) name) = .error (.crash c) := by
  obtain ⟨cs, hholds, hspells, hderives⟩ := h.derives hpath hname hfree
  obtain ⟨t, ht, hnot⟩ := hlong
  obtain ⟨-, htokens⟩ := (tokensOf_iff hderives).mp hspells
  -- the tokens of a rendering are the only ones that its text has
  have hlimit : ¬RendersWithinLimit cs (.path name segments) := by
    rw [rendersWithinLimit_iff, htokens]
    exact fun hall => hnot (hall.2 t (List.mem_cons_of_mem _ ht))
  obtain ⟨c, hc⟩ := parse_crash_iff.mpr ⟨cs, _, hholds, ⟨_, hspells, hderives⟩, hlimit⟩
  exact ⟨c, evaluate_of_parse_error hc⟩

/-- **References are lookups in their holder.** A reference that is addressed to a holder evaluates
to what its path leads to from the value of that holder, and to null if there is none, unless an
index in it has too many digits to be read. And in any text, no reference is opened once they are
addressed, doing it twice comes to the same, and the embedded expressions are those that there were,
each of them addressed by itself. -/
theorem replaceReferences_looks_up (hname : IsIdentifier name) :
    (¬IsReserved name → ∀ path ts segments, IsAccessorPath path.toList ts segments →
      ¬OpensReference path → ∀ trusted entries e,
        replaceReferences (toExpression ("@" ++ path)) name = e →
          ((∀ t ∈ ts, t.IsShort) →
            evaluate trusted (.object entries) e =
              ((Value.lookup name entries).elim (.ok .null) (follow · segments)).mapError
                (Stop.fault e)) ∧
          ((∃ t ∈ ts, ¬t.IsShort) →
            ∃ c, evaluate trusted (.object entries) e = .error (.crash c))) ∧
    ∀ s, ¬OpensReference (replaceReferences s name) ∧
      replaceReferences (replaceReferences s name) name = replaceReferences s name ∧
      texts (replaceReferences s name) = (texts s).map (replaceReferences · name) := by
  have hholder := hname.isHolderName
  refine ⟨fun hfree path ts segments h hpath trusted entries e he => ⟨fun hshort => ?_, ?_⟩,
    fun s => ⟨?_, ?_, ?_⟩⟩
  · exact evaluate_reference h hpath hname hfree hshort he
  · rw [← he]
    exact evaluate_reference_crash h hpath hname hfree
  · exact not_opensReference_replaceReferences hholder.noMark
  · exact replaceReferences_replaceReferences hholder.noMark
  · exact texts_replaceReferences hholder s

end Addressing

/-! ### The name of the last result -/

theorem isIdentifier_res : IsIdentifier "res" := .word (by decide) (by decide)

theorem isAccessorPath_id : IsAccessorPath "id".toList [.dot, .name "id"] [.key "id"] := by
  have hid : (Token.name "id").Spelled ['i', 'd'] := .word (by decide) (by decide)
  exact .byName (.token hid (.nil (by simp))) .nil

/-- `${@id}` is `${res.id}`, and has the value of the member `id` of what is called `res`. -/
theorem replaceReferences_looks_up_res :
    IsIdentifier "res" ∧ ¬IsReserved "res" ∧
      evaluate false (.object [(.str "res", .ofFields [("id", .str "m7")])]) "$\x7bres.id\x7d" =
        .ok (.str "m7") ∧
      texts (replaceReferences "x $\x7b@id\x7d" "res") =
        (texts "x $\x7b@id\x7d").map (replaceReferences · "res") := by
  have hfree : ¬IsReserved "res" := by simp [IsReserved]
  obtain ⟨hpaths, htexts⟩ := replaceReferences_looks_up isIdentifier_res
  obtain ⟨hvalue, -⟩ := hpaths hfree "id" _ _ isAccessorPath_id (by decide) false
    [(.str "res", .ofFields [("id", .str "m7")])] "$\x7bres.id\x7d" (by decide)
  have hshort : ∀ t ∈ [Token.dot, .name "id"], t.IsShort := by simp [Token.IsShort]
  exact ⟨isIdentifier_res, hfree, hvalue hshort, (htexts _).2.2⟩

end ApiSuite.Template
