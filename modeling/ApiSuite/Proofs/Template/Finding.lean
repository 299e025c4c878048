import ApiSuite.Proofs.Template.Places
import Mathlib.Data.List.Pairwise

/-!
# What is found, by offsets

The scanner cuts a text into pieces, and the occurrences that it reports are read off the pieces.
This file says what they are without the scanner, by the characters at each offset of the text.

`ApiSuite.Template.Spans` says that an expression spans a text from one offset to another. A text
can hold spans that overlap, since one can be opened inside another, and
`ApiSuite.Template.IsScan` says which of them a scan from left to right comes upon: those that it
lists do not overlap, and a span that is not listed begins inside one that is. These conditions
leave no choice, so that the occurrences that are found are the only scan of the text
(`ApiSuite.Template.isScan_iff`).
-/

namespace ApiSuite.Template

/-! ### Spans -/

/-- **An expression spans a text from one offset to another**: it is opened at the first and closed
at the last, with at least one character between. No line break stands there, and the brace at the
end is the first one after the first character. -/
structure Spans (cs : List Char) (first last : Nat) : Prop where
  dollar : cs[first]? = some '$'
  opening : cs[first + 1]? = some '{'
  closing : cs[last]? = some '}'
  nonempty : first + 3 ≤ last
  noBreak : ∀ i, first + 2 ≤ i → i < last → cs[i]? ≠ some '\n'
  noBrace : ∀ i, first + 3 ≤ i → i < last → cs[i]? ≠ some '}'

section Spans

variable {cs before body after : List Char} {first last : Nat}

/-- Where an expression ends is settled by where it begins. -/
theorem Spans.last_unique {last' : Nat} (h : Spans cs first last) (h' : Spans cs first last') :
    last = last' := by
  rcases Nat.lt_trichotomy last last' with hlt | heq | hgt
  · exact absurd h.closing (h'.noBrace last h.nonempty hlt)
  · exact heq
  · exact absurd h'.closing (h.noBrace last' h'.nonempty hgt)

/-- The characters of a body in its wrapper, in the midst of a text. -/
theorem getElem?_body {j : Nat} (hj : j < body.length) :
    (before ++ (wrap body ++ after))[before.length + 2 + j]? = body[j]? := by
  rw [List.getElem?_append_right (by omega),
    show before.length + 2 + j - before.length = j + 1 + 1 by omega]
  simp only [wrap, List.cons_append, List.getElem?_cons_succ, List.append_assoc]
  exact List.getElem?_append_left hj

theorem spans_of_isBody (h : IsBody body) :
    Spans (before ++ (wrap body ++ after)) before.length (before.length + body.length + 2) where
  dollar := by simp [wrap]
  opening := by simp [wrap]
  closing := by
    rw [List.getElem?_append_right (by omega),
      show before.length + body.length + 2 - before.length = body.length + 1 + 1 by omega]
    simp [wrap]
  nonempty := by
    have hlength := List.length_pos_iff.mpr h.nonempty
    omega
  noBreak i hi hlast hbreak := by
    obtain ⟨j, rfl⟩ := Nat.exists_eq_add_of_le hi
    rw [getElem?_body (by omega)] at hbreak
    exact h.noBreak (List.mem_of_getElem? hbreak)
  noBrace i hi hlast hbrace := by
    obtain ⟨j, rfl⟩ := Nat.exists_eq_add_of_le hi
    rw [show before.length + 3 + j = before.length + 2 + (j + 1) by omega,
      getElem?_body (by omega), ← List.getElem?_tail] at hbrace
    exact h.noBrace (List.mem_of_getElem? hbrace)

theorem drop_eq_cons_of_getElem? {c : Char} {n : Nat} (h : cs[n]? = some c) :
    cs.drop n = c :: cs.drop (n + 1) := by
  rw [List.drop_eq_getElem?_toList_append, h]
  rfl

/-- What stands between the braces of a span. -/
def bodyBetween (cs : List Char) (first last : Nat) : List Char :=
  (cs.drop (first + 2)).take (last - (first + 2))

theorem Spans.length_body (h : Spans cs first last) :
    (bodyBetween cs first last).length = last - (first + 2) := by
  have hlast : last < cs.length := (List.getElem?_eq_some_iff.mp h.closing).1
  rw [bodyBetween, List.length_take, List.length_drop]
  omega

/-- A span stands in its text as a body in its wrapper. -/
theorem Spans.eq_append (h : Spans cs first last) :
    cs = cs.take first ++ (wrap (bodyBetween cs first last) ++ cs.drop (last + 1)) := by
  have hnonempty := h.nonempty
  have hrest : cs.drop last = (cs.drop (first + 2)).drop (last - (first + 2)) := by
    rw [List.drop_drop]
    congr 1
    omega
  have hinside : cs.drop (first + 2) = bodyBetween cs first last ++ '}' :: cs.drop (last + 1) := by
    rw [← drop_eq_cons_of_getElem? h.closing, hrest, bodyBetween, List.take_append_drop]
  have hopen : cs.drop first = '$' :: '{' :: cs.drop (first + 2) := by
    rw [drop_eq_cons_of_getElem? h.dollar, drop_eq_cons_of_getElem? h.opening]
  have hwrap : wrap (bodyBetween cs first last) ++ cs.drop (last + 1) = cs.drop first := by
    rw [hopen, hinside]
    simp [wrap]
  rw [hwrap, List.take_append_drop]

/-- A character between the braces stands in the text, before the closing brace. -/
theorem Spans.getElem?_of_body {j : Nat} {c : Char} (h : Spans cs first last)
    (hj : (bodyBetween cs first last)[j]? = some c) :
    first + 2 + j < last ∧ cs[first + 2 + j]? = some c := by
  have hlt := (List.getElem?_eq_some_iff.mp hj).1
  rw [h.length_body] at hlt
  refine ⟨by omega, ?_⟩
  rwa [bodyBetween, List.getElem?_take_of_lt hlt, List.getElem?_drop] at hj

theorem Spans.isBody (h : Spans cs first last) : IsBody (bodyBetween cs first last) where
  nonempty := by
    have hnonempty := h.nonempty
    rw [← List.length_pos_iff, h.length_body]
    omega
  noBreak hbreak := by
    obtain ⟨j, hj⟩ := List.mem_iff_getElem?.mp hbreak
    obtain ⟨hlt, hat⟩ := h.getElem?_of_body hj
    exact h.noBreak _ (by omega) hlt hat
  noBrace hbrace := by
    obtain ⟨j, hj⟩ := List.mem_iff_getElem?.mp hbrace
    rw [List.getElem?_tail] at hj
    obtain ⟨hlt, hat⟩ := h.getElem?_of_body hj
    exact h.noBrace _ (by omega) hlt hat

/-- **A span is a body in its wrapper**, in the midst of a text. -/
theorem spans_iff :
    Spans cs first last ↔ ∃ before body after, cs = before ++ (wrap body ++ after) ∧ IsBody body ∧
      first = before.length ∧ last = before.length + body.length + 2 := by
  constructor
  · intro h
    have hlast : last < cs.length := (List.getElem?_eq_some_iff.mp h.closing).1
    have hnonempty := h.nonempty
    have hfirst : (cs.take first).length = first := by
      rw [List.length_take]
      omega
    refine ⟨_, _, _, h.eq_append, h.isBody, hfirst.symm, ?_⟩
    rw [hfirst, h.length_body]
    omega
  · rintro ⟨before, body, after, rfl, hbody, rfl, rfl⟩
    exact spans_of_isBody hbody

end Spans

/-! ### Scans -/

/-- **A scan of a text** from left to right lists spans that do not overlap, each with its text, and
passes none by that begins outside of those that it lists. -/
structure IsScan (cs : List Char) (found : List Occurrence) : Prop where
  ordered : found.Pairwise fun o o' => o.last < o'.first
  spans : ∀ o ∈ found, Spans cs o.first o.last
  text : ∀ o ∈ found, o.text.toList = (cs.take (o.last + 1)).drop o.first
  complete : ∀ first last, Spans cs first last →
    (∀ o ∈ found, ¬(o.first < first ∧ first ≤ o.last)) → ∃ o ∈ found, o.first = first

section Scans

variable {cs : List Char} {found found' : List Occurrence} {o o' : Occurrence}

/-- An occurrence in one scan of a text is in any other, if this holds of those before it. -/
theorem IsScan.mem (h : IsScan cs found) (h' : IsScan cs found')
    (hbefore : ∀ o', o'.first < o.first → (o' ∈ found' → o' ∈ found)) (ho : o ∈ found) :
    o ∈ found' := by
  have hspans := h.spans o ho
  have hinside : ∀ o' ∈ found', ¬(o'.first < o.first ∧ o.first ≤ o'.last) := by
    rintro o' ho' ⟨hfirst, hlast⟩
    have happart : found.Pairwise fun a b => a.last < b.first ∨ b.last < a.first :=
      h.ordered.imp Or.inl
    have : Std.Symm fun a b : Occurrence => a.last < b.first ∨ b.last < a.first :=
      ⟨fun a b hab => hab.symm⟩
    have hne : o' ≠ o := by
      rintro rfl
      exact absurd hfirst (by omega)
    have hnonempty := hspans.nonempty
    rcases happart.forall (hbefore o' hfirst ho') ho hne with hlt | hlt <;> omega
  obtain ⟨o', ho', hfirst⟩ := h'.complete o.first o.last hspans hinside
  have hspans' := h'.spans o' ho'
  rw [hfirst] at hspans'
  have hlast : o'.last = o.last := hspans'.last_unique hspans
  have htext : o'.text = o.text := by
    rw [← String.toList_inj, h'.text o' ho', h.text o ho, hfirst, hlast]
  have heq : o' = o := by
    cases o
    cases o'
    simp_all
  exact heq ▸ ho'

/-- Two scans of a text have the same occurrences. -/
theorem IsScan.mem_iff (h : IsScan cs found) (h' : IsScan cs found') (o : Occurrence) :
    o ∈ found ↔ o ∈ found' := by
  -- from left to right: what comes before an occurrence decides whether it is passed by
  induction hn : o.first using Nat.strongRecOn generalizing o with
  | ind n ih =>
    subst hn
    exact ⟨h.mem h' fun o' hlt => (ih _ hlt o' rfl).mpr,
      h'.mem h fun o' hlt => (ih _ hlt o' rfl).mp⟩

/-- **A text has only one scan.** -/
theorem IsScan.unique (h : IsScan cs found) (h' : IsScan cs found') : found = found' := by
  have hnodup : ∀ {l : List Occurrence}, IsScan cs l → l.Nodup := by
    intro l hl
    refine List.Pairwise.imp_of_mem ?_ hl.ordered
    rintro a b ha hb hlt rfl
    have hnonempty := (hl.spans a ha).nonempty
    omega
  refine List.Perm.eq_of_pairwise ?_ h.ordered h'.ordered
    ((List.perm_ext_iff_of_nodup (hnodup h) (hnodup h')).mpr (h.mem_iff h'))
  intro a b ha hb hab hba
  have hfirst := (h.spans a ha).nonempty
  have hlast := (h'.spans b hb).nonempty
  omega

end Scans

/-! ### What is found -/

section Found

variable {cs : List Char} {o : Occurrence} {first last offset : Nat}

theorem Occurrence.at_last (offset : Nat) (body : List Char) :
    (Occurrence.at offset body).last = offset + body.length + 2 := by
  simp only [Occurrence.at, wrap, List.length_append, List.length_cons, List.length_nil]
  omega

/-- The occurrences among pieces come one after the other. -/
theorem occurrences_ordered (offset : Nat) (pieces : List Piece) :
    (occurrences offset pieces).Pairwise fun o o' => o.last < o'.first := by
  induction pieces generalizing offset with
  | nil => exact .nil
  | cons piece pieces ih =>
    cases piece with
    | char c => exact ih (offset + 1)
    | embedded body =>
      refine .cons (fun o ho => ?_) (ih _)
      obtain ⟨before, body', after, -, rfl⟩ := mem_occurrences_iff.mp ho
      show (Occurrence.at offset body).last < _
      rw [Occurrence.at_last]
      simp only [Occurrence.at, wrap, List.length_append, List.length_cons]
      omega

/-- What is found is a body in its wrapper, in the midst of the text. -/
theorem exists_body_of_mem (ho : o ∈ occurrences 0 (split cs)) :
    ∃ before body after, cs = before ++ (wrap body ++ after) ∧ IsBody body ∧
      o = .at before.length body := by
  obtain ⟨before, body, after, hsplit, rfl⟩ := mem_occurrences_iff.mp ho
  have hbody : IsBody body := by
    have hmem : .embedded body ∈ split cs := by simp [hsplit]
    exact isBody_of_mem hmem
  refine ⟨join before, body, join after, ?_, hbody, by rw [Nat.zero_add]⟩
  rw [← join_embedded, ← join_append, ← hsplit, join_split]

/-- **No span is passed by**: where one begins, an occurrence is found or has not yet ended. -/
theorem exists_mem_of_spans (h : Spans cs first last) (offset : Nat) :
    ∃ o ∈ occurrences offset (split cs), o.first ≤ offset + first ∧ offset + first ≤ o.last := by
  obtain ⟨before, body, after, hcs, hbody, rfl, -⟩ := spans_iff.mp h
  clear h
  generalize hp : split cs = pieces
  induction pieces generalizing cs before offset with
  | nil =>
    have hjoin := join_split cs
    rw [hp, hcs] at hjoin
    simp [join, wrap] at hjoin
  | cons piece pieces ih =>
    rcases split_cons_cases hp with
      ⟨b, more, rfl, hb, hmore, hrest⟩ | ⟨c, more, rfl, hmore, hrest, hopen⟩
    · by_cases hlt : before.length < (wrap b).length
      · refine ⟨.at offset b, List.mem_cons_self, Nat.le_add_right _ _, ?_⟩
        rw [Occurrence.at_last]
        simp only [wrap, List.length_append, List.length_cons, List.length_nil] at hlt
        omega
      · -- the span begins after the expression that comes first
        obtain ⟨before', rfl⟩ : wrap b <+: before :=
          List.prefix_of_prefix_length_le ⟨more, hmore.symm⟩ ⟨_, hcs.symm⟩ (Nat.le_of_not_lt hlt)
        rw [hmore, List.append_assoc, List.append_cancel_left_eq] at hcs
        obtain ⟨o, ho, hfirst, hlast⟩ :=
          ih (offset + (wrap b).length) before' hcs hrest.symm
        rw [List.length_append, ← Nat.add_assoc]
        exact ⟨o, List.mem_cons_of_mem _ ho, hfirst, hlast⟩
    · cases before with
      | nil =>
        have hbegins : cs = '$' :: '{' :: (body ++ '}' :: after) := by
          rw [hcs]
          simp [wrap]
        cases (hopen _ hbegins).symm.trans (body?_eq_some_iff.mpr ⟨rfl, hbody⟩)
      | cons d before =>
        rw [hmore, List.cons_append] at hcs
        obtain ⟨-, htail⟩ := List.cons.inj hcs
        obtain ⟨o, ho, hfirst, hlast⟩ := ih (offset + 1) before htail hrest.symm
        rw [List.length_cons, ← Nat.add_assoc, Nat.add_right_comm]
        exact ⟨o, ho, hfirst, hlast⟩

theorem isScan_find (s : String) : IsScan s.toList (find s) where
  ordered := occurrences_ordered 0 (split s.toList)
  spans o ho := by
    obtain ⟨before, body, after, hcs, hbody, rfl⟩ := exists_body_of_mem ho
    rw [Occurrence.at_last, hcs]
    exact spans_of_isBody hbody
  text o ho := by
    obtain ⟨before, body, after, hcs, hbody, rfl⟩ := exists_body_of_mem ho
    have hlength : (before ++ wrap body).length = before.length + body.length + 2 + 1 := by
      simp only [wrap, List.length_append, List.length_cons, List.length_nil]
      omega
    rw [Occurrence.at_last, hcs, ← List.append_assoc, ← hlength, List.take_left]
    simp [Occurrence.at]
  complete first last h houtside := by
    obtain ⟨o, ho, hfirst, hlast⟩ := exists_mem_of_spans h 0
    rw [Nat.zero_add] at hfirst hlast
    refine ⟨o, ho, Nat.le_antisymm hfirst (Nat.le_of_not_lt fun hlt => ?_)⟩
    exact houtside o ho ⟨hlt, hlast⟩

/-- **What is found in a text is its only scan**: the occurrences are in order and do not overlap,
each is a span of the text and has the text of that span, and every span that begins outside of
them is one of them. -/
theorem isScan_iff (s : String) (found : List Occurrence) :
    IsScan s.toList found ↔ found = find s := by
  constructor
  · exact fun h => h.unique (isScan_find s)
  · rintro rfl
    exact isScan_find s

end Found

/-- Empty braces open an expression that the next brace closes, and not the one that a line break
keeps from being closed. -/
example : find "$\x7b\x7dx\x7d $\x7ba\n\x7d" = [⟨"$\x7b\x7dx\x7d", 0, 4⟩] := by decide +kernel

end ApiSuite.Template
