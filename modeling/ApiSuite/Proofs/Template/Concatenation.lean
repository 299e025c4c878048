import ApiSuite.Proofs.Template.Filling
import ApiSuite.Proofs.Template.Places

/-!
# Substituting in two texts put together

Substitution goes over a text once, from left to right. So it can be done part by part: where no
expression reaches over the seam between two texts, what is substituted in both together is what
is substituted in the one and then in the other. And what has been filled in is not looked at
again: the text of a value stands in the result as it is, whatever it holds
(`ApiSuite.Template.substitute_part_by_part`).

Both follow from how a text is cut. The pieces on the two sides of a seam are those of the two
texts, if the seam does not go through an expression (`ApiSuite.Template.split_append`): an opening
that is not closed before the seam must not be closed after it either, and that it is not is what
the cut of the whole text says.
-/

namespace ApiSuite.Template

open Expression

/-! ### Seams -/

/-- An occurrence reaches over an offset: it begins before it, and does not end before it. -/
def Occurrence.Straddles (o : Occurrence) (n : Nat) : Prop := o.first < n ∧ n ≤ o.last

instance (o : Occurrence) (n : Nat) : Decidable (o.Straddles n) :=
  inferInstanceAs (Decidable (_ ∧ _))

section Seams

variable {cs ds : List Char} {pieces : List Piece}

/-- Pieces can be parted at an offset that no expression among them reaches over. -/
theorem exists_parts {offset n : Nat} (hn : n ≤ (join pieces).length)
    (h : ∀ o ∈ occurrences offset pieces, ¬o.Straddles (offset + n)) :
    ∃ before after, pieces = before ++ after ∧ (join before).length = n := by
  induction pieces generalizing offset n with
  | nil => exact ⟨[], [], rfl, (Nat.le_zero.mp hn).symm⟩
  | cons piece pieces ih =>
    rcases Nat.eq_zero_or_pos n with rfl | hpos
    · exact ⟨[], piece :: pieces, rfl, rfl⟩
    · cases piece with
      | char c =>
        rw [join_char, List.length_cons] at hn
        have hrest : ∀ o ∈ occurrences (offset + 1) pieces,
            ¬o.Straddles (offset + 1 + (n - 1)) := by
          rw [show offset + 1 + (n - 1) = offset + n by omega]
          exact h
        obtain ⟨before, after, rfl, hlength⟩ := ih (by omega) hrest
        refine ⟨.char c :: before, after, rfl, ?_⟩
        rw [join_char, List.length_cons, hlength]
        omega
      | embedded body =>
        rw [join_embedded, List.length_append] at hn
        have hpast : (wrap body).length ≤ n := by
          have hhead := h (.at offset body) List.mem_cons_self
          simp only [Occurrence.Straddles, Occurrence.at] at hhead
          omega
        have hrest : ∀ o ∈ occurrences (offset + (wrap body).length) pieces,
            ¬o.Straddles (offset + (wrap body).length + (n - (wrap body).length)) := by
          rw [show offset + (wrap body).length + (n - (wrap body).length) = offset + n by omega]
          exact fun o ho => h o (List.mem_cons_of_mem _ ho)
        obtain ⟨before, after, rfl, hlength⟩ := ih (by omega) hrest
        refine ⟨.embedded body :: before, after, rfl, ?_⟩
        rw [join_embedded, List.length_append, hlength]
        omega

/-- **Two texts put together are cut as each is by itself**, if no expression reaches over the
seam. -/
theorem split_append
    (h : ∀ o ∈ occurrences 0 (split (cs ++ ds)), ¬o.Straddles cs.length) :
    split (cs ++ ds) = split cs ++ split ds := by
  have hlength : cs.length ≤ (join (split (cs ++ ds))).length := by
    rw [join_split, List.length_append]
    omega
  have hnone : ∀ o ∈ occurrences 0 (split (cs ++ ds)), ¬o.Straddles (0 + cs.length) := by
    rwa [Nat.zero_add]
  obtain ⟨before, after, hparts, hbefore⟩ := exists_parts hlength hnone
  have hjoin : join before ++ join after = cs ++ ds := by
    rw [← join_append, ← hparts, join_split]
  obtain ⟨rfl, rfl⟩ := List.append_inj hjoin hbefore
  rw [hparts, split_join_before hparts, split_join_after hparts]

end Seams

/-! ### Substitution part by part -/

section Parts

variable {trusted : Bool} {context v : Value} {a b s text : String} {o : Occurrence}

theorem substitute_append (h : ∀ o ∈ find (a ++ b), ¬o.Straddles a.length) :
    substitute trusted context (a ++ b) = (do
      let left ← substitute trusted context a
      let right ← substitute trusted context b
      pure (left ++ right)) := by
  have hsplit : split (a ++ b).toList = split a.toList ++ split b.toList := by
    rw [String.toList_append]
    refine split_append ?_
    rw [find, String.toList_append] at h
    exact h
  simp only [substitute, hsplit, fillPresent_append, bind_assoc, pure_bind, String.ofList_append]

/-- An expression that gives a value is evaluated to it, and nothing is told of it. -/
theorem evaluatePart_eq_pure (h : Gives trusted context text v) :
    evaluatePart trusted context text = pure (some v) := by
  obtain ⟨hp, hv, hn⟩ := h
  simp [evaluatePart, hp, hv, present, hn]

/-- **What is filled in is copied**: the text of a value stands in the result as it is, between what
the text before its expression and the text after it are filled in to. -/
theorem substitute_of_gives (ho : o ∈ find s) (hv : Gives trusted context o.text v)
    (ht : toText v = .ok text) :
    substitute trusted context s = (do
      let left ← substitute trusted context (o.textBefore s)
      let right ← substitute trusted context (o.textAfter s)
      pure (left ++ text ++ right)) := by
  obtain ⟨body, hbody, hsplit⟩ := exists_split_of_mem_find ho
  rw [hbody] at hv
  have hfill : fillPresent trusted context (.embedded body :: split (o.textAfter s).toList) = (do
      let right ← fillPresent trusted context (split (o.textAfter s).toList)
      pure (text.toList ++ right)) := by
    rw [fillPresent, evaluatePart_eq_pure hv, pure_bind]
    simp only [textOf_of_ok ht]
    rfl
  simp only [substitute, hsplit, fillPresent_append, hfill, bind_assoc, pure_bind,
    String.ofList_append, String.ofList_toList, String.append_assoc]

/-- **Substitution goes part by part, and over nothing twice.** Where no expression that is found in
two texts put together reaches over their seam, both are substituted in one after the other, with
the same result and the same log. And where an expression gives a value, its text stands in the
result as it is, even if it holds expressions itself. -/
theorem substitute_part_by_part (trusted : Bool) (context : Value) :
    (∀ a b, (∀ o ∈ find (a ++ b), ¬o.Straddles a.length) →
      substitute trusted context (a ++ b) = (do
        let left ← substitute trusted context a
        let right ← substitute trusted context b
        pure (left ++ right))) ∧
    ∀ s, ∀ o ∈ find s, ∀ v text, Gives trusted context o.text v → toText v = .ok text →
      substitute trusted context s = (do
        let left ← substitute trusted context (o.textBefore s)
        let right ← substitute trusted context (o.textAfter s)
        pure (left ++ text ++ right)) :=
  ⟨fun _ _ h => substitute_append h, fun _ _ ho _ _ hv ht => substitute_of_gives ho hv ht⟩

end Parts

/-! ### A value that looks like an expression -/

/-- The object `{"a": "${b}", "b": 1}`. -/
def quoting : Value := .ofFields [("a", .str "$\x7bb\x7d"), ("b", .int 1)]

theorem gives_quoting : Gives false quoting "$\x7ba\x7d" (.str "$\x7bb\x7d") := by
  have hread : (evaluate false quoting "$\x7ba\x7d").toOption.map (Value.isText "$\x7bb\x7d") =
      some true := by
    decide +kernel
  obtain ⟨v, hv, htext⟩ := exists_eq_ok hread
  refine ⟨by decide, ?_, rfl⟩
  rw [hv]
  cases v with
  | str t => rw [eq_of_beq htext]
  | _ => cases htext

/-- The two expressions stand on either side of the seam, and the text that the first is filled in
with is not taken for an expression. -/
theorem substitute_part_by_part_quoting :
    (∀ o ∈ find ("x=$\x7ba\x7d" ++ ";y=$\x7bb\x7d"), ¬o.Straddles "x=$\x7ba\x7d".length) ∧
      substitute false quoting ("x=$\x7ba\x7d" ++ ";y=$\x7bb\x7d") = (do
        let left ← substitute false quoting "x=$\x7ba\x7d"
        let right ← substitute false quoting ";y=$\x7bb\x7d"
        pure (left ++ right)) ∧
      Gives false quoting "$\x7ba\x7d" (.str "$\x7bb\x7d") ∧
      substitute false quoting "x=$\x7ba\x7d" = (do
        let left ← substitute false quoting "x="
        let right ← substitute false quoting ""
        pure (left ++ "$\x7bb\x7d" ++ right)) := by
  have hseam : ∀ o ∈ find ("x=$\x7ba\x7d" ++ ";y=$\x7bb\x7d"),
      ¬o.Straddles "x=$\x7ba\x7d".length := by
    decide +kernel
  have hfind : ⟨"$\x7ba\x7d", 2, 5⟩ ∈ find "x=$\x7ba\x7d" := by decide +kernel
  obtain ⟨happend, hcopy⟩ := substitute_part_by_part false quoting
  exact ⟨hseam, happend _ _ hseam, gives_quoting, hcopy _ _ hfind _ _ gives_quoting rfl⟩

end ApiSuite.Template
