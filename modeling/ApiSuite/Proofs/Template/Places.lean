import ApiSuite.Template.Basic

/-!
# Where embedded expressions stand

An embedded expression divides a text into what stands before it, the expression, and what stands
after it. The two sides are texts in their own right, and the expressions found in them are those
found there in the whole text (`ApiSuite.Template.exists_split_of_mem_find`): no expression
reaches over the one that divides the text, and none begins on one side of it because the other
side is missing.

What makes this so is that a scanner that has read the opening of an expression decides by what
comes up to the next closing brace. `ApiSuite.Template.IsBody` says which texts can stand between
the braces, and `ApiSuite.Template.body?_eq_some_iff` that the first closing brace after such a
text ends it, whatever follows.
-/

namespace ApiSuite.Template

/-! ### What stands between the braces -/

/-- A text can stand between the braces of an expression: it has a first character, which may be a
closing brace while the others are not, and no line break. -/
structure IsBody (body : List Char) : Prop where
  nonempty : body ≠ []
  noBreak : '\n' ∉ body
  noBrace : '}' ∉ body.tail

section Bodies

variable {cs body rest : List Char}

theorem isBody_of_not_mem (hne : body ≠ []) (hb : '}' ∉ body) (hl : '\n' ∉ body) : IsBody body :=
  ⟨hne, hl, fun h => hb (List.mem_of_mem_tail h)⟩

theorem untilBrace?_eq_some_iff :
    untilBrace? cs = some (body, rest) ↔ cs = body ++ '}' :: rest ∧ '}' ∉ body ∧ '\n' ∉ body := by
  constructor
  · intro h
    refine ⟨untilBrace?_eq h, ?_⟩
    induction cs generalizing body rest with
    | nil => cases h
    | cons c cs ih =>
      simp only [untilBrace?] at h
      split at h
      · obtain ⟨rfl, -⟩ := Prod.mk.inj (Option.some.inj h)
        simp
      · rename_i hc
        split at h
        · cases h
        · rename_i hl
          obtain ⟨⟨b, r⟩, hb, hr⟩ := Option.map_eq_some_iff.mp h
          obtain ⟨rfl, -⟩ := Prod.mk.inj hr
          obtain ⟨hbrace, hbreak⟩ := ih hb
          rw [beq_iff_eq] at hc hl
          simp [hbrace, hbreak, Ne.symm hc, Ne.symm hl]
  · rintro ⟨rfl, hb, hl⟩
    induction body with
    | nil => simp [untilBrace?]
    | cons c body ih =>
      rw [List.mem_cons, not_or] at hb hl
      simp [untilBrace?, Ne.symm hb.1, Ne.symm hl.1, ih hb.2 hl.2]

/-- **The scanner reads the text between the braces** up to the first closing brace after its first
character, whatever follows. -/
theorem body?_eq_some_iff :
    body? cs = some (body, rest) ↔ cs = body ++ '}' :: rest ∧ IsBody body := by
  cases cs with
  | nil => simp [body?]
  | cons c cs =>
    simp only [body?, beq_iff_eq]
    constructor
    · intro h
      split at h
      · cases h
      · rename_i hc
        obtain ⟨⟨b, r⟩, hb, hr⟩ := Option.map_eq_some_iff.mp h
        obtain ⟨rfl, rfl⟩ := Prod.mk.inj hr
        obtain ⟨rfl, hbrace, hbreak⟩ := untilBrace?_eq_some_iff.mp hb
        exact ⟨rfl, by simp, by simp [hbreak, Ne.symm hc], hbrace⟩
    · rintro ⟨hcs, hbody⟩
      cases body with
      | nil => exact absurd rfl hbody.nonempty
      | cons d body =>
        rw [List.cons_append] at hcs
        obtain ⟨rfl, rfl⟩ := List.cons.inj hcs
        have hbrace : '}' ∉ body := hbody.noBrace
        have hbreak := hbody.noBreak
        rw [List.mem_cons, not_or] at hbreak
        rw [if_neg (Ne.symm hbreak.1), untilBrace?_eq_some_iff.mpr ⟨rfl, hbrace, hbreak.2⟩]
        rfl

theorem untilBrace?_eq_none_iff :
    untilBrace? cs = none ↔
      '}' ∉ cs ∨ ∃ before after, cs = before ++ '\n' :: after ∧ '}' ∉ before := by
  induction cs with
  | nil => simp [untilBrace?]
  | cons c cs ih =>
    simp only [untilBrace?, beq_iff_eq]
    split
    · rename_i hc
      constructor
      · intro hnone
        cases hnone
      · rintro (hnot | ⟨before, after, hcs, hnot⟩)
        · simp [hc] at hnot
        · cases before with
          | nil => exact absurd (hc.symm.trans (List.cons.inj hcs).1) (by decide)
          | cons d before =>
            obtain ⟨rfl, -⟩ := List.cons.inj hcs
            simp [hc] at hnot
    · rename_i hc
      split
      · rename_i hl
        exact ⟨fun _ => .inr ⟨[], cs, by simp [hl], by simp⟩, fun _ => rfl⟩
      · rename_i hl
        rw [Option.map_eq_none_iff, ih]
        constructor
        · rintro (hnot | ⟨before, after, rfl, hnot⟩)
          · exact .inl (by simp [hnot, Ne.symm hc])
          · exact .inr ⟨c :: before, after, rfl, by simp [hnot, Ne.symm hc]⟩
        · rintro (hnot | ⟨before, after, hcs, hnot⟩)
          · exact .inl fun hmem => hnot (List.mem_cons_of_mem _ hmem)
          · cases before with
            | nil => exact absurd (List.cons.inj hcs).1 hl
            | cons d before =>
              obtain ⟨rfl, rfl⟩ := List.cons.inj hcs
              exact .inr ⟨before, after, rfl, fun hmem => hnot (List.mem_cons_of_mem _ hmem)⟩

/-- **The scanner finds no end** exactly if there is no closing brace after the first character, or
a line break before it. -/
theorem body?_eq_none_iff :
    body? cs = none ↔
      '}' ∉ cs.tail ∨ ∃ before after, cs = before ++ '\n' :: after ∧ '}' ∉ before.tail := by
  cases cs with
  | nil => simp [body?]
  | cons c cs =>
    simp only [body?, beq_iff_eq, List.tail_cons]
    split
    · rename_i hc
      exact ⟨fun _ => .inr ⟨[], cs, by simp [hc], by simp⟩, fun _ => rfl⟩
    · rename_i hc
      rw [Option.map_eq_none_iff, untilBrace?_eq_none_iff]
      refine or_congr_right ?_
      constructor
      · rintro ⟨before, after, rfl, hnot⟩
        exact ⟨c :: before, after, rfl, hnot⟩
      · rintro ⟨before, after, hcs, hnot⟩
        cases before with
        | nil => exact absurd (List.cons.inj hcs).1 hc
        | cons d before =>
          obtain ⟨rfl, rfl⟩ := List.cons.inj hcs
          exact ⟨before, after, rfl, hnot⟩

end Bodies

/-! ### Cutting a text in two -/

section Split

variable {cs body more : List Char} {pieces before after : List Piece}

theorem join_append (before after : List Piece) :
    join (before ++ after) = join before ++ join after := List.flatMap_append

theorem join_char (c : Char) (pieces : List Piece) : join (.char c :: pieces) = c :: join pieces :=
  rfl

theorem join_embedded (body : List Char) (pieces : List Piece) :
    join (.embedded body :: pieces) = wrap body ++ join pieces := rfl

theorem split_wrap_append (h : IsBody body) (more : List Char) :
    split (wrap body ++ more) = .embedded body :: split more := by
  have hbody : body? (body ++ '}' :: more) = some (body, more) := body?_eq_some_iff.mpr ⟨rfl, h⟩
  have htext : wrap body ++ more = '$' :: '{' :: (body ++ '}' :: more) := by simp [wrap]
  rw [htext, split]
  split
  · rename_i b r hbr
    cases hbody.symm.trans hbr
    rfl
  · rename_i hnone
    cases hbody.symm.trans hnone

/-- A text in a wrapper is one embedded expression. -/
theorem split_wrap (h : IsBody body) : split (wrap body) = [.embedded body] := by
  have hsplit := split_wrap_append h []
  rwa [List.append_nil, split] at hsplit

/-- A character that opens no expression stands for itself. -/
theorem split_char {c : Char} (h : ∀ tail, c :: more = '$' :: '{' :: tail → body? tail = none) :
    split (c :: more) = .char c :: split more := by
  rw [split.eq_def]
  split
  · rename_i hnil
    cases hnil
  · rename_i tail heq
    obtain ⟨rfl, rfl⟩ := List.cons.inj heq
    split
    · rename_i b r hbr
      cases (h tail rfl).symm.trans hbr
    · rfl
  · rename_i heq
    obtain ⟨rfl, rfl⟩ := List.cons.inj heq
    rfl

/-- **A text is cut into an expression, or into a character that opens none**, and into what the
rest is cut into. -/
theorem split_cons_cases {piece : Piece} (h : split cs = piece :: pieces) :
    (∃ body more, piece = .embedded body ∧ IsBody body ∧ cs = wrap body ++ more ∧
        pieces = split more) ∨
      ∃ c more, piece = .char c ∧ cs = c :: more ∧ pieces = split more ∧
        ∀ tail, cs = '$' :: '{' :: tail → body? tail = none := by
  rw [split.eq_def] at h
  split at h
  · cases h
  · rename_i tail
    split at h
    · rename_i b r hbr
      obtain ⟨rfl, rfl⟩ := List.cons.inj h
      obtain ⟨rfl, hbody⟩ := body?_eq_some_iff.mp hbr
      exact .inl ⟨b, r, rfl, hbody, by simp [wrap], rfl⟩
    · rename_i hnone
      obtain ⟨rfl, rfl⟩ := List.cons.inj h
      refine .inr ⟨'$', '{' :: tail, rfl, rfl, rfl, ?_⟩
      rintro tail' ⟨⟩
      exact hnone
  · rename_i c more hopen
    obtain ⟨rfl, rfl⟩ := List.cons.inj h
    refine .inr ⟨c, more, rfl, rfl, rfl, ?_⟩
    rintro tail ⟨⟩
    exact absurd rfl (hopen tail rfl)

/-- What stands in the braces of an expression that is found. -/
theorem isBody_of_mem (h : .embedded body ∈ split cs) : IsBody body := by
  generalize hp : split cs = pieces at h
  induction pieces generalizing cs with
  | nil => cases h
  | cons piece pieces ih =>
    rcases split_cons_cases hp with ⟨b, more, rfl, hb, -, hrest⟩ | ⟨c, more, rfl, -, hrest, -⟩
    · rcases List.mem_cons.mp h with heq | hmem
      · cases heq
        exact hb
      · exact ih hrest.symm hmem
    · exact ih hrest.symm (by simpa using h)

/-- What comes after some pieces is cut as a text in its own right. -/
theorem split_join_after (h : split cs = before ++ after) : split (join after) = after := by
  induction before generalizing cs with
  | nil =>
    rw [List.nil_append] at h
    rw [← h, join_split]
  | cons piece before ih =>
    rcases split_cons_cases h with ⟨b, more, rfl, hb, -, hrest⟩ | ⟨c, more, rfl, -, hrest, -⟩
    · exact ih hrest.symm
    · exact ih hrest.symm

/-- **What comes before some pieces is cut as a text in its own right**: a character in it that
opens no expression in the whole text opens none if the text ends earlier. -/
theorem split_join_before (h : split cs = before ++ after) : split (join before) = before := by
  induction before generalizing cs with
  | nil =>
    rw [join, List.flatMap_nil, split]
  | cons piece before ih =>
    have hcs : cs = join (piece :: before) ++ join after := by
      rw [← join_append, ← h, join_split]
    rcases split_cons_cases h with ⟨b, more, rfl, hb, -, hrest⟩ | ⟨c, more, rfl, -, hrest, hopen⟩
    · rw [join_embedded, split_wrap_append hb, ih hrest.symm]
    · rw [join_char, split_char, ih hrest.symm]
      intro tail htail
      rw [hcs, join_char, htail] at hopen
      have hnone := hopen _ rfl
      cases hbody : body? tail with
      | none => rfl
      | some found =>
        obtain ⟨b, r⟩ := found
        obtain ⟨rfl, hb⟩ := body?_eq_some_iff.mp hbody
        have hfound := body?_eq_some_iff.mpr ⟨List.append_assoc b ('}' :: r) (join after), hb⟩
        cases hnone.symm.trans hfound

end Split

/-! ### Occurrences -/

section Occurrences

variable {o : Occurrence} {s : String} {body : List Char} {pieces : List Piece}

/-- What stands before an occurrence in a text. -/
def Occurrence.textBefore (o : Occurrence) (s : String) : String :=
  String.ofList (s.toList.take o.first)

/-- What stands after an occurrence in a text. -/
def Occurrence.textAfter (o : Occurrence) (s : String) : String :=
  String.ofList (s.toList.drop (o.last + 1))

/-- The occurrence of an expression that begins at an offset. -/
def Occurrence.at (offset : Nat) (body : List Char) : Occurrence :=
  ⟨String.ofList (wrap body), offset, offset + (wrap body).length - 1⟩

theorem occurrences_append (offset : Nat) (before after : List Piece) :
    occurrences offset (before ++ after) =
      occurrences offset before ++ occurrences (offset + (join before).length) after := by
  induction before generalizing offset with
  | nil => rfl
  | cons piece before ih =>
    rw [List.cons_append]
    cases piece with
    | char c =>
      rw [occurrences, occurrences, ih, join_char, List.length_cons, Nat.add_assoc,
        Nat.add_comm 1]
    | embedded body =>
      rw [occurrences, occurrences, ih, join_embedded, List.length_append, Nat.add_assoc]
      rfl

/-- **The occurrences among pieces** are those of the expressions among them, each at the offset to
which the pieces before it reach. -/
theorem mem_occurrences_iff {offset : Nat} :
    o ∈ occurrences offset pieces ↔ ∃ before body after,
      pieces = before ++ .embedded body :: after ∧ o = .at (offset + (join before).length) body := by
  constructor
  · intro h
    induction pieces generalizing offset with
    | nil => cases h
    | cons piece pieces ih =>
      cases piece with
      | char c =>
        obtain ⟨before, body, after, rfl, rfl⟩ := ih h
        refine ⟨.char c :: before, body, after, rfl, ?_⟩
        rw [join_char, List.length_cons, Nat.add_assoc, Nat.add_comm 1]
      | embedded body =>
        rcases List.mem_cons.mp h with rfl | h
        · exact ⟨[], body, pieces, rfl, rfl⟩
        · obtain ⟨before, body', after, rfl, rfl⟩ := ih h
          refine ⟨.embedded body :: before, body', after, rfl, ?_⟩
          rw [join_embedded, List.length_append, Nat.add_assoc]
  · rintro ⟨before, body, after, rfl, rfl⟩
    rw [occurrences_append]
    exact List.mem_append_right _ List.mem_cons_self

/-- The texts of the expressions that are found in a text. -/
theorem exists_mem_find_iff {p : String → Prop} :
    (∃ o ∈ find s, p o.text) ↔
      ∃ body, .embedded body ∈ split s.toList ∧ p (String.ofList (wrap body)) := by
  constructor
  · rintro ⟨o, ho, hp⟩
    obtain ⟨before, body, after, hsplit, rfl⟩ := mem_occurrences_iff.mp ho
    exact ⟨body, by simp [hsplit], hp⟩
  · rintro ⟨body, hbody, hp⟩
    obtain ⟨before, after, hsplit⟩ := List.append_of_mem hbody
    exact ⟨_, mem_occurrences_iff.mpr ⟨before, body, after, hsplit, rfl⟩, hp⟩

/-- **An expression that is found divides the text** into two that are cut as they are in the
whole. -/
theorem exists_split_of_mem_find (h : o ∈ find s) :
    ∃ body, o.text = String.ofList (wrap body) ∧
      split s.toList =
        split (o.textBefore s).toList ++ .embedded body :: split (o.textAfter s).toList := by
  obtain ⟨before, body, after, hsplit, rfl⟩ := mem_occurrences_iff.mp h
  have hs : s.toList = join before ++ (wrap body ++ join after) := by
    rw [← join_embedded, ← join_append, ← hsplit, join_split]
  have hlast : 0 + (join before).length + (wrap body).length - 1 + 1 =
      (join before).length + (wrap body).length := by
    simp only [wrap, List.length_append, List.length_cons]
    omega
  have hbefore : (Occurrence.textBefore (.at (0 + (join before).length) body) s).toList =
      join before := by
    rw [Occurrence.textBefore, String.toList_ofList, Occurrence.at, hs, Nat.zero_add,
      List.take_left]
  have hafter : (Occurrence.textAfter (.at (0 + (join before).length) body) s).toList =
      join after := by
    rw [Occurrence.textAfter, String.toList_ofList, Occurrence.at, hlast, hs, ← List.append_assoc,
      ← List.length_append, List.drop_left]
  have hcut : split s.toList = (before ++ [.embedded body]) ++ after := by simpa using hsplit
  refine ⟨body, rfl, ?_⟩
  rw [hbefore, hafter, split_join_before hsplit, split_join_after hcut, hsplit]

end Occurrences

end ApiSuite.Template
