import ApiSuite.Proofs.Template.Outline
import Mathlib.Data.List.Infix

/-!
# Addressing references

A reference is an expression on a holder object that is named elsewhere, and addressing it is
putting that name in the place of the mark it begins with. This is done in two passes over a text,
the first for references by index and the second for those by name. The two are one
(`ApiSuite.Template.replaceReferences_eq`): wherever a reference is opened the name of the holder is
put in, with a point after it unless a bracket follows.

From the one pass it is seen that no reference is opened any more
(`ApiSuite.Template.not_opensReference_replaceReferences`), and what becomes of the embedded
expressions and the texts around them: there are as many as before, and each is what it becomes by
itself (`ApiSuite.Template.outline_readdress`, `ApiSuite.Template.texts_replaceReferences`). For the
name that is put in opens and ends none. All that this asks of the name is that it has characters,
and no mark, brace or line break among them (`ApiSuite.Template.IsHolderName`).
-/

namespace ApiSuite.Template

/-! ### Texts without references -/

section Marks

variable {s name : String} {holder cs : List Char}

/-- What a reference begins with. -/
def referenceMark : List Char := ['$', '{', '@']

/-- A reference is opened somewhere in a text, whether or not it is closed. -/
def OpensReference (s : String) : Prop := referenceMark <:+: s.toList

instance (s : String) : Decidable (OpensReference s) :=
  inferInstanceAs (Decidable (referenceMark <:+: s.toList))

/-- A text in which no reference is opened has none that is addressed by an index. -/
theorem replaceIndexReferences_of_not_infix (h : ¬referenceMark <:+: cs) :
    replaceIndexReferences holder cs = cs := by
  fun_induction replaceIndexReferences holder cs with
  | case1 cs ih => exact absurd ⟨[], '[' :: cs, rfl⟩ h
  | case2 c cs hopen ih => rw [ih fun hin => h (List.infix_cons hin)]
  | case3 => rfl

/-- A text in which no reference is opened has none that is addressed by a name. -/
theorem replaceNameReferences_of_not_infix (h : ¬referenceMark <:+: cs) :
    replaceNameReferences holder cs = cs := by
  fun_induction replaceNameReferences holder cs with
  | case1 cs ih => exact absurd ⟨[], cs, rfl⟩ h
  | case2 c cs hopen ih => rw [ih fun hin => h (List.infix_cons hin)]
  | case3 => rfl

/-- **A text in which no reference is opened is left as it is.** -/
theorem replaceReferences_of_not_opensReference (h : ¬OpensReference s) :
    replaceReferences s name = s := by
  rw [replaceReferences, replaceIndexReferences_of_not_infix h,
    replaceNameReferences_of_not_infix h, String.ofList_toList]

end Marks

/-! ### Both passes at once -/

/-- What joins the name of a holder to what is asked of it: a point, unless a bracket follows. -/
def junction (cs : List Char) : List Char := if cs.head? = some '[' then [] else ['.']

/-- A text whose references address the holder of the given name. -/
def readdress (holder : List Char) : List Char → List Char
  | '$' :: '{' :: '@' :: cs => '$' :: '{' :: (holder ++ (junction cs ++ readdress holder cs))
  | c :: cs => c :: readdress holder cs
  | [] => []

/-- What can be put in as the name of a holder: a text without marks of references, braces and line
breaks. -/
structure IsHolderName (holder : List Char) : Prop where
  nonempty : holder ≠ []
  noMark : '@' ∉ holder
  noBraces : '{' ∉ holder ∧ '}' ∉ holder
  noBreak : '\n' ∉ holder

section OnePass

variable {holder cs ds tail xs ys : List Char} {c d : Char} {s name : String}

theorem readdress_mark (holder cs : List Char) :
    readdress holder ('$' :: '{' :: '@' :: cs) =
      '$' :: '{' :: (holder ++ (junction cs ++ readdress holder cs)) := rfl

/-- Where no reference is opened a character is kept. -/
theorem readdress_cons (h : ∀ tail, c :: cs ≠ '$' :: '{' :: '@' :: tail) :
    readdress holder (c :: cs) = c :: readdress holder cs := by
  rw [readdress]
  rintro tail rfl rfl
  exact h tail rfl

theorem readdress_of_ne (hc : c ≠ '$') : readdress holder (c :: cs) = c :: readdress holder cs :=
  readdress_cons fun _ htail => hc (List.cons.inj htail).1

/-- A character that opens nothing is at the head only if it was there before. -/
theorem readdress_eq_cons (h : readdress holder cs = c :: tail) (hc : c ≠ '$') :
    ∃ more, cs = c :: more ∧ tail = readdress holder more := by
  unfold readdress at h
  split at h
  · exact absurd (List.cons.inj h).1.symm hc
  · obtain ⟨rfl, rfl⟩ := List.cons.inj h
    exact ⟨_, rfl, rfl⟩
  · cases h

theorem replaceIndexReferences_cons (h : ∀ tail, c :: cs ≠ '$' :: '{' :: '@' :: '[' :: tail) :
    replaceIndexReferences holder (c :: cs) = c :: replaceIndexReferences holder cs := by
  rw [replaceIndexReferences]
  rintro tail rfl rfl
  exact h tail rfl

theorem replaceIndexReferences_eq_cons (h : replaceIndexReferences holder cs = c :: tail)
    (hc : c ≠ '$') : ∃ more, cs = c :: more ∧ tail = replaceIndexReferences holder more := by
  unfold replaceIndexReferences at h
  split at h
  · exact absurd (List.cons.inj h).1.symm hc
  · obtain ⟨rfl, rfl⟩ := List.cons.inj h
    exact ⟨_, rfl, rfl⟩
  · cases h

theorem replaceNameReferences_cons (h : ∀ tail, c :: cs ≠ '$' :: '{' :: '@' :: tail) :
    replaceNameReferences holder (c :: cs) = c :: replaceNameReferences holder cs := by
  rw [replaceNameReferences]
  rintro tail rfl rfl
  exact h tail rfl

theorem junction_cases (cs : List Char) :
    (∃ more, cs = '[' :: more ∧ junction cs = []) ∨
      (∀ more, cs ≠ '[' :: more) ∧ junction cs = ['.'] := by
  by_cases h : cs.head? = some '['
  · exact .inl ⟨cs.tail, List.eq_cons_of_mem_head? h, if_pos h⟩
  · refine .inr ⟨?_, if_neg h⟩
    rintro more rfl
    exact h rfl

/-- A text that goes on with what is not in the opening of a reference holds the opening whole. -/
theorem opening_of_append (hc : c ≠ '{' ∧ c ≠ '@') (h : xs ++ c :: ys = '{' :: '@' :: tail) :
    ∃ more, xs = '{' :: '@' :: more := by
  cases xs with
  | nil => exact absurd (List.cons.inj h).1 hc.1
  | cons x xs =>
    obtain ⟨rfl, hmark⟩ := List.cons.inj h
    cases xs with
    | nil => exact absurd (List.cons.inj hmark).1 hc.2
    | cons y xs =>
      obtain ⟨rfl, -⟩ := List.cons.inj hmark
      exact ⟨xs, rfl⟩

/-- No reference is opened in a text without the mark, nor over its end. -/
theorem not_opens_append (hx : '@' ∉ xs) (hc : c ≠ '{' ∧ c ≠ '@') :
    ∀ tail, d :: (xs ++ c :: ys) ≠ '$' :: '{' :: '@' :: tail := by
  intro tail h
  obtain ⟨more, rfl⟩ := opening_of_append hc (List.cons.inj h).2
  simp at hx

theorem replaceNameReferences_append (hx : '@' ∉ xs) (hc : c ≠ '{' ∧ c ≠ '@') :
    replaceNameReferences holder (xs ++ c :: ys) =
      xs ++ replaceNameReferences holder (c :: ys) := by
  induction xs with
  | nil => rfl
  | cons x xs ih =>
    rw [List.mem_cons, not_or] at hx
    rw [List.cons_append, replaceNameReferences_cons (not_opens_append hx.2 hc), ih hx.2]
    rfl

/-- **Addressing references is one pass over the text.** -/
theorem replaceReferences_eq (h : '@' ∉ name.toList) :
    replaceReferences s name = String.ofList (readdress name.toList s.toList) := by
  rw [replaceReferences]
  refine congrArg String.ofList ?_
  generalize s.toList = cs
  generalize name.toList = holder at *
  fun_induction readdress holder cs with
  | case1 cs ih =>
    rcases junction_cases cs with ⟨more, rfl, hjunction⟩ | ⟨hno, hjunction⟩
    · -- the first pass puts the name in, and the second finds no mark in what it has put in
      rw [hjunction, List.nil_append, ← ih]
      have hopening : '@' ∉ '$' :: '{' :: holder := by simp [h]
      exact replaceNameReferences_append hopening (by decide)
    · have hkept : replaceIndexReferences holder ('$' :: '{' :: '@' :: cs) =
          '$' :: '{' :: '@' :: replaceIndexReferences holder cs := by
        rw [replaceIndexReferences_cons]
        · rfl
        · rintro tail ⟨⟩
          exact hno tail rfl
      rw [hjunction, hkept, ← ih]
      rfl
  | case2 c cs hopen ih =>
    rw [replaceIndexReferences_cons, replaceNameReferences_cons, ih]
    · -- a mark at the head of what the first pass has made would have been there before
      rintro tail htail
      obtain ⟨rfl, hbrace⟩ := List.cons.inj htail
      obtain ⟨more, rfl, hmark⟩ := replaceIndexReferences_eq_cons hbrace (by decide)
      obtain ⟨more, rfl, -⟩ := replaceIndexReferences_eq_cons hmark.symm (by decide)
      exact hopen _ rfl rfl
    · rintro tail ⟨⟩
      exact hopen _ rfl rfl
  | case3 => rfl

/-! ### The text that is made -/

/-- What joins the name of a holder to the rest is a point before it, or a bracket in it. -/
theorem exists_joined (holder cs : List Char) : ∃ c tail,
    junction cs ++ readdress holder cs = c :: tail ∧
      (c = '.' ∧ tail = readdress holder cs ∨ c = '[' ∧ readdress holder cs = c :: tail) := by
  rcases junction_cases cs with ⟨more, rfl, hjunction⟩ | ⟨-, hjunction⟩
  · rw [hjunction, List.nil_append, readdress_of_ne (by decide)]
    exact ⟨_, _, rfl, .inr ⟨rfl, rfl⟩⟩
  · rw [hjunction]
    exact ⟨_, _, rfl, .inl ⟨rfl, rfl⟩⟩

theorem junction_append (hc : c ≠ '[') : junction (xs ++ c :: ys) = junction xs := by
  cases xs with
  | nil => simp [junction, hc]
  | cons x xs => rfl

/-- Characters are those of the text, those of the name, and points. -/
theorem mem_of_mem_readdress (h : c ∈ readdress holder cs) : c ∈ cs ∨ c ∈ holder ∨ c = '.' := by
  fun_induction readdress holder cs with
  | case1 cs ih =>
    simp only [List.mem_cons, List.mem_append] at h ⊢
    rcases h with rfl | rfl | hmem | hmem | hmem
    · simp
    · simp
    · exact .inr (.inl hmem)
    · rcases junction_cases cs with ⟨more, rfl, hjunction⟩ | ⟨-, hjunction⟩
      · rw [hjunction] at hmem
        cases hmem
      · rw [hjunction] at hmem
        exact .inr (.inr (List.mem_singleton.mp hmem))
    · exact (ih hmem).imp_left fun h => .inr (.inr (.inr h))
  | case2 d cs hopen ih =>
    rcases List.mem_cons.mp h with rfl | hmem
    · exact .inl List.mem_cons_self
    · exact (ih hmem).imp_left (List.mem_cons_of_mem _)
  | case3 => cases h

/-- A character that is no part of what opens a reference divides the text that is made as it
divides the text. -/
theorem readdress_append (hc : c ∉ referenceMark ∧ c ≠ '[') :
    readdress holder (xs ++ c :: ys) = readdress holder xs ++ c :: readdress holder ys := by
  fun_induction readdress holder xs with
  | case1 xs ih =>
    rw [List.cons_append, List.cons_append, List.cons_append, readdress_mark, junction_append hc.2,
      ih]
    simp
  | case2 d xs hopen ih =>
    rw [List.cons_append, readdress_cons, ih, List.cons_append]
    rintro tail htail
    have hne : c ≠ '{' ∧ c ≠ '@' := by
      simp only [referenceMark, List.mem_cons, not_or] at hc
      exact ⟨hc.1.2.1, hc.1.2.2.1⟩
    obtain ⟨rfl, hbrace⟩ := List.cons.inj htail
    obtain ⟨more, rfl⟩ := opening_of_append hne hbrace
    exact hopen _ rfl rfl
  | case3 => exact readdress_of_ne fun h => hc.1 (by simp [h, referenceMark])

theorem not_infix_append (hx : '@' ∉ xs) (hc : c ≠ '{' ∧ c ≠ '@')
    (h : ¬referenceMark <:+: c :: ys) : ¬referenceMark <:+: xs ++ c :: ys := by
  induction xs with
  | nil => exact h
  | cons x xs ih =>
    rw [List.mem_cons, not_or] at hx
    rw [List.cons_append, List.infix_cons_iff]
    rintro (⟨tail, htail⟩ | hin)
    · exact not_opens_append hx.2 hc tail htail.symm
    · exact ih hx.2 hin

theorem not_infix_readdress (h : '@' ∉ holder) : ¬referenceMark <:+: readdress holder cs := by
  fun_induction readdress holder cs with
  | case1 cs ih =>
    obtain ⟨c, tail, hjoined, hcases⟩ := exists_joined holder cs
    have hopening : '@' ∉ '$' :: '{' :: holder := by simp [h]
    rw [hjoined]
    -- no mark reaches over the point or the bracket behind the name
    rcases hcases with ⟨rfl, rfl⟩ | ⟨rfl, htail⟩
    · refine not_infix_append hopening (by decide) ?_
      rw [List.infix_cons_iff]
      rintro (⟨more, hmore⟩ | hin)
      · exact absurd (List.cons.inj hmore).1 (by decide)
      · exact ih hin
    · rw [htail] at ih
      exact not_infix_append hopening (by decide) ih
  | case2 c cs hopen ih =>
    rw [List.infix_cons_iff]
    rintro (⟨tail, htail⟩ | hin)
    · obtain ⟨rfl, hbrace⟩ := List.cons.inj htail
      obtain ⟨more, rfl, hmark⟩ := readdress_eq_cons hbrace.symm (by decide)
      obtain ⟨more, rfl, -⟩ := readdress_eq_cons hmark.symm (by decide)
      exact hopen _ rfl rfl
    · exact ih hin
  | case3 => simp [referenceMark]

/-- **A text is readdressed to itself** exactly if no reference is opened in it. -/
theorem readdress_eq_self_iff (h : '@' ∉ holder) :
    readdress holder cs = cs ↔ ¬referenceMark <:+: cs := by
  constructor
  · intro heq
    rw [← heq]
    exact not_infix_readdress h
  · intro hnot
    fun_induction readdress holder cs with
    | case1 cs ih => exact absurd ⟨[], cs, rfl⟩ hnot
    | case2 c cs hopen ih => rw [ih fun hin => hnot (List.infix_cons hin)]
    | case3 => rfl

/-- **No reference is opened any more** once references are addressed. -/
theorem not_opensReference_replaceReferences (h : '@' ∉ name.toList) :
    ¬OpensReference (replaceReferences s name) := by
  rw [OpensReference, replaceReferences_eq h, String.toList_ofList]
  exact not_infix_readdress h

/-- Addressing references once is enough. -/
theorem replaceReferences_replaceReferences (h : '@' ∉ name.toList) :
    replaceReferences (replaceReferences s name) name = replaceReferences s name :=
  replaceReferences_of_not_opensReference (not_opensReference_replaceReferences h)

end OnePass

/-! ### The embedded expressions -/

/-- What stands between the braces of the expressions among pieces. -/
def bodies (pieces : List Piece) : List (List Char) :=
  pieces.filterMap fun piece =>
    match piece with
    | .char _ => none
    | .embedded body => some body

/-- What stands between the braces of an expression once references are addressed. -/
def inside (holder : List Char) : List Char → List Char
  | '@' :: cs => holder ++ (junction cs ++ readdress holder cs)
  | cs => readdress holder cs

section Bodies

variable {holder cs xs ys body : List Char} {c : Char} {s name : String}

theorem texts_eq (s : String) : texts s = (bodies (split s.toList)).map embeddedText := by
  suffices h : ∀ offset pieces,
      (occurrences offset pieces).map (·.text) = (bodies pieces).map embeddedText from h 0 _
  intro offset pieces
  induction pieces generalizing offset with
  | nil => rfl
  | cons piece pieces ih =>
    cases piece with
    | char c => exact ih _
    | embedded body => exact congrArg (embeddedText body :: ·) (ih _)

/-! What opens an expression is left in its place. -/

theorem inside_of_ne (h : ∀ more, cs ≠ '@' :: more) : inside holder cs = readdress holder cs := by
  unfold inside
  split
  · exact absurd rfl (h _)
  · rfl

theorem readdress_opening (holder cs : List Char) :
    readdress holder ('$' :: '{' :: cs) = '$' :: '{' :: inside holder cs := by
  by_cases h : ∃ more, cs = '@' :: more
  · obtain ⟨more, rfl⟩ := h
    rfl
  · rw [inside_of_ne fun more hcs => h ⟨more, hcs⟩, readdress_cons, readdress_of_ne (by decide)]
    rintro tail htail
    exact h ⟨tail, (List.cons.inj (List.cons.inj htail).2).2⟩

theorem inside_append (hc : c ∉ referenceMark ∧ c ≠ '[') :
    inside holder (xs ++ c :: ys) = inside holder xs ++ c :: readdress holder ys := by
  have h : readdress holder ('$' :: '{' :: xs ++ c :: ys) = _ := readdress_append hc
  rw [List.cons_append, List.cons_append, readdress_opening, readdress_opening] at h
  exact (List.cons.inj (List.cons.inj h).2).2

theorem readdress_wrap_append (holder body more : List Char) :
    readdress holder (wrap body ++ more) = wrap (inside holder body) ++ readdress holder more := by
  have htext : wrap body ++ more = '$' :: '{' :: (body ++ '}' :: more) := by simp [wrap]
  rw [htext, readdress_opening, inside_append (by decide)]
  simp [wrap]

/-- What stands between braces is readdressed to itself exactly if no reference is opened there, nor
by the braces. -/
theorem inside_eq_self_iff (h : '@' ∉ holder) :
    inside holder cs = cs ↔ ¬referenceMark <:+: wrap cs := by
  have hwrap := readdress_wrap_append holder cs []
  rw [readdress, List.append_nil, List.append_nil] at hwrap
  rw [← readdress_eq_self_iff h, hwrap]
  simp [wrap]

/-- Addressing references brings no closing brace in, and no line break. -/
theorem mem_of_mem_inside (hc : c ∉ ['$', '{', '.'] ∧ c ∉ holder) (h : c ∈ inside holder cs) :
    c ∈ cs := by
  have hmem : c ∈ readdress holder ('$' :: '{' :: cs) := by
    rw [readdress_opening]
    exact List.mem_cons_of_mem _ (List.mem_cons_of_mem _ h)
  simp only [List.mem_cons, List.not_mem_nil, or_false, not_or] at hc
  rcases mem_of_mem_readdress hmem with hcs | hholder | hpoint
  · simpa [hc] using hcs
  · exact absurd hholder hc.2
  · exact absurd hpoint hc.1.2.2

theorem not_mem_tail_inside (h : IsHolderName holder) (hcs : '}' ∉ cs.tail) :
    '}' ∉ (inside holder cs).tail := by
  have hkept : ∀ ds, '}' ∉ ds → '}' ∉ inside holder ds :=
    fun ds hds hmem => hds (mem_of_mem_inside ⟨by decide, h.noBraces.2⟩ hmem)
  by_cases hmem : '}' ∈ cs
  · -- the only closing brace is the first character
    cases cs with
    | nil => cases hmem
    | cons c cs =>
      obtain rfl : '}' = c := (List.mem_cons.mp hmem).resolve_right hcs
      have hhead : inside holder ([] ++ '}' :: cs) = inside holder [] ++ _ :: _ :=
        inside_append (by decide)
      rw [show inside holder ('}' :: cs) = '}' :: readdress holder cs from hhead]
      intro htail
      rcases mem_of_mem_readdress htail with hcs' | hholder | hpoint
      · exact hcs hcs'
      · exact h.noBraces.2 hholder
      · exact absurd hpoint (by decide)
  · exact fun htail => hkept cs hmem (List.mem_of_mem_tail htail)

theorem IsBody.inside (hbody : IsBody body) (h : IsHolderName holder) :
    IsBody (inside holder body) where
  nonempty := by
    unfold Template.inside
    split
    · simp [h.nonempty]
    · unfold readdress
      split
      · simp
      · simp
      · exact hbody.nonempty
  noBreak hmem := hbody.noBreak (mem_of_mem_inside ⟨by decide, h.noBreak⟩ hmem)
  noBrace := not_mem_tail_inside h hbody.noBrace

/-- An opening that is not closed is not closed in the text that is made. -/
theorem body?_inside (h : IsHolderName holder) (hcs : body? cs = none) :
    body? (inside holder cs) = none := by
  rw [body?_eq_none_iff] at hcs ⊢
  rcases hcs with hnot | ⟨before, after, rfl, hnot⟩
  · exact .inl (not_mem_tail_inside h hnot)
  · exact .inr ⟨_, _, inside_append (by decide), not_mem_tail_inside h hnot⟩

/-! What stands before the expressions of a text is readdressed as it is in the text. -/

theorem junction_lead (cs : List Char) : junction (outline (split cs)).lead = junction cs := by
  by_cases h : cs.head? = some '['
  · obtain ⟨more, rfl⟩ : ∃ more, cs = '[' :: more := ⟨_, List.eq_cons_of_mem_head? h⟩
    rw [outline_split_cons_of_ne (by decide)]
    rfl
  · have hlead : (outline (split cs)).lead.head? ≠ some '[' := by
      intro hhead
      obtain ⟨more, rfl⟩ := lead_outline_split_eq_cons (List.eq_cons_of_mem_head? hhead)
      exact h rfl
    rw [junction, junction, if_neg h, if_neg hlead]

/-- An outline whose references address the holder of the given name. -/
def Outline.readdress (holder : List Char) (o : Outline) : Outline :=
  ⟨Template.readdress holder o.lead,
    o.parts.map fun part => (inside holder part.1, Template.readdress holder part.2)⟩

theorem Outline.readdress_afterExpression (o : Outline) :
    (o.afterExpression body).readdress holder =
      (o.readdress holder).afterExpression (inside holder body) := rfl

theorem Outline.readdress_after_mark (o : Outline) :
    (o.after referenceMark).readdress holder =
      (o.readdress holder).after ('$' :: '{' :: (holder ++ junction o.lead)) := by
  simp only [readdress, after, referenceMark, List.cons_append, List.nil_append, readdress_mark,
    List.append_assoc]

theorem Outline.readdress_after_opening {o : Outline} (h : ∀ tail, o.lead ≠ '@' :: tail) :
    (o.after ['$', '{']).readdress holder = (o.readdress holder).after ['$', '{'] := by
  simp only [readdress, after, List.cons_append, List.nil_append, readdress_opening,
    inside_of_ne h]

/-- Where no reference is opened a character is kept before an outline. -/
theorem Outline.readdress_after_cons {o : Outline}
    (h : ∀ tail, c :: o.lead ≠ '$' :: '{' :: '@' :: tail) :
    (o.after [c]).readdress holder = (o.readdress holder).after [c] := by
  simp only [readdress, after, List.singleton_append, readdress_cons h]

/-- What becomes of the outline of a text becomes of it after an opening that is not closed. -/
theorem outline_split_inside (h : IsHolderName holder)
    (ih : ∀ more : List Char, more.length ≤ cs.length →
      outline (split (readdress holder more)) = (outline (split more)).readdress holder) :
    (outline (split (inside holder cs))).after ['$', '{'] =
      ((outline (split cs)).after ['$', '{']).readdress holder := by
  by_cases hmark : ∃ more, cs = '@' :: more
  · obtain ⟨more, rfl⟩ := hmark
    have hjoined : outline (split (junction more ++ readdress holder more)) =
        (outline (split (readdress holder more))).after (junction more) := by
      rcases junction_cases more with ⟨-, -, hjunction⟩ | ⟨-, hjunction⟩
      · rw [hjunction]
        rfl
      · rw [hjunction]
        exact outline_split_cons_of_ne (by decide)
    have hholder : outline (split (inside holder ('@' :: more))) =
        ((outline (split (readdress holder more))).after (junction more)).after holder := by
      obtain ⟨c, tail, heq, hcases⟩ := exists_joined holder more
      have hc : c ≠ '{' := by rcases hcases with ⟨rfl, -⟩ | ⟨rfl, -⟩ <;> decide
      rw [inside, ← hjoined, heq, outline_split_append h.noBraces.1 hc]
    have hopened : (outline (split ('@' :: more))).after ['$', '{'] =
        (outline (split more)).after referenceMark := by
      rw [outline_split_cons_of_ne (by decide), Outline.after_after]
      rfl
    rw [hholder, ih more (by simp), hopened, Outline.readdress_after_mark, junction_lead,
      Outline.after_after, Outline.after_after]
    rfl
  · have hhead : ∀ tail, (outline (split cs)).lead ≠ '@' :: tail :=
      fun tail htail => hmark (lead_outline_split_eq_cons htail)
    rw [inside_of_ne fun more hcs => hmark ⟨more, hcs⟩, ih cs (Nat.le_refl _),
      Outline.readdress_after_opening hhead]

/-- **The outline of a text whose references are addressed** is that of the text, with the
references of each of its parts addressed. -/
theorem outline_readdress (h : IsHolderName holder) (cs : List Char) :
    outline (split (readdress holder cs)) = (outline (split cs)).readdress holder := by
  induction hn : cs.length using Nat.strongRecOn generalizing cs with
  | ind n ih =>
    cases hp : split cs with
    | nil =>
      have hcs := join_split cs
      rw [hp] at hcs
      obtain rfl : [] = cs := hcs
      rw [readdress, hp]
      rfl
    | cons piece pieces =>
      rcases split_cons_cases hp with
        ⟨body, more, rfl, hbody, rfl, rfl⟩ | ⟨c, more, rfl, rfl, rfl, hopen⟩
      · -- an expression is made one that ends where what was made of its body does
        have hmore := ih more.length (by simp [← hn, wrap]; omega) more rfl
        rw [readdress_wrap_append, outline_split_wrap_append (hbody.inside h), hmore, outline,
          Outline.readdress_afterExpression]
      · by_cases hopening : ∃ tail, c :: more = '$' :: '{' :: tail
        · -- an opening that is not closed may be that of a reference, whose holder is put in
          obtain ⟨tail, htail⟩ := hopening
          obtain ⟨rfl, rfl⟩ := List.cons.inj htail
          have hnone := hopen tail rfl
          rw [← hp, readdress_opening, outline_split_opening (body?_inside h hnone),
            outline_split_opening hnone]
          refine outline_split_inside h fun ds hds => ih ds.length ?_ ds rfl
          simp only [← hn, List.length_cons]
          omega
        · -- any other character is kept, and opens nothing before what is made of the rest
          have hmore := ih more.length (by simp [← hn]) more rfl
          rw [readdress_cons, outline_split_cons, hmore, outline, Outline.readdress_after_cons]
          · intro tail htail
            obtain ⟨rfl, hbrace⟩ := List.cons.inj htail
            obtain ⟨rest, rfl⟩ := lead_outline_split_eq_cons hbrace
            exact hopening ⟨rest, rfl⟩
          · intro tail htail
            obtain ⟨rfl, hbrace⟩ := List.cons.inj htail
            obtain ⟨rest, rfl, -⟩ := readdress_eq_cons hbrace (by decide)
            exact absurd ⟨rest, rfl⟩ hopening
          · exact fun tail htail => hopening ⟨_, htail⟩

theorem bodies_eq (pieces : List Piece) : bodies pieces = (outline pieces).parts.map Prod.fst := by
  induction pieces with
  | nil => rfl
  | cons piece pieces ih =>
    cases piece with
    | char c => exact ih
    | embedded body => exact congrArg (body :: ·) ih

/-- The expressions of a text whose references are addressed are those of the text, each with its
own references addressed. -/
theorem bodies_readdress (h : IsHolderName holder) (cs : List Char) :
    bodies (split (readdress holder cs)) = (bodies (split cs)).map (inside holder) := by
  rw [bodies_eq, bodies_eq, outline_readdress h, Outline.readdress, List.map_map, List.map_map]
  rfl

theorem replaceReferences_embeddedText (h : '@' ∉ name.toList) (body : List Char) :
    replaceReferences (embeddedText body) name = embeddedText (inside name.toList body) := by
  have hwrap := readdress_wrap_append name.toList body []
  rw [List.append_nil, readdress, List.append_nil] at hwrap
  rw [replaceReferences_eq h, embeddedText, String.toList_ofList, hwrap]
  rfl

/-- **Addressing references leaves the expressions of a text one for one**, in their order. -/
theorem texts_replaceReferences (h : IsHolderName name.toList) (s : String) :
    texts (replaceReferences s name) = (texts s).map (replaceReferences · name) := by
  rw [texts_eq, texts_eq, replaceReferences_eq h.noMark, String.toList_ofList, bodies_readdress h,
    List.map_map, List.map_map]
  refine List.map_congr_left fun body _ => ?_
  exact (replaceReferences_embeddedText h.noMark body).symm

end Bodies

end ApiSuite.Template
