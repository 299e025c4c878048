import ApiSuite.Proofs.Yaml.Scanning

/-!
# How far the readers of a document come

A document is read from left to right, so whatever a reader leaves is what is left after some more
characters (`ApiSuite.Yaml.Cursor.Reaches`). Each reader is put together from the ones before it,
and the readers that give a cursor reach it from the one they are given. This file goes through all
of them, in the order in which they are defined.

Two facts about places follow. A place is known by the number of characters before it, and of two
places of a text the one with fewer characters before it stands on an earlier line, or on the same
line and no further to the right (`ApiSuite.Yaml.Mark.IsIn.upTo`). And where only line feeds end
lines, the line of a place is the number of line feeds before it
(`ApiSuite.Yaml.Mark.IsIn.line_eq`).
-/

namespace ApiSuite

/-! ### Computations by what they give -/

/-- What a computation gives, if it gives anything, has a property. -/
def GivesAs {ε α : Type} (p : α → Prop) (x : Except ε α) : Prop := ∀ a, x = .ok a → p a

section GivesAs

variable {ε α β : Type} {p : α → Prop} {x : Except ε α}

@[simp] theorem givesAs_ok {a : α} : GivesAs p (.ok a : Except ε α) ↔ p a := by
  simp [GivesAs]

@[simp] theorem givesAs_pure {a : α} : GivesAs p (pure a : Except ε α) ↔ p a := givesAs_ok

@[simp] theorem givesAs_error (e : ε) : GivesAs p (.error e : Except ε α) := nofun

@[simp] theorem givesAs_map {f : β → α} {y : Except ε β} :
    GivesAs p (y.map f) ↔ GivesAs (fun b => p (f b)) y := by
  cases y <;> simp [Except.map]

@[simp] theorem givesAs_ite {c : Prop} [Decidable c] {y : Except ε α} :
    GivesAs p (if c then x else y) ↔ (c → GivesAs p x) ∧ (¬c → GivesAs p y) := by
  split <;> simp [*]

/-- **What is put together gives what its last part does.** -/
theorem givesAs_bind {q : β → Prop} {y : Except ε β} {f : β → Except ε α} (hy : GivesAs q y)
    (hf : ∀ b, q b → GivesAs p (f b)) : GivesAs p (y >>= f) := by
  cases y with
  | error e => exact givesAs_error e
  | ok b => exact hf b (hy b rfl)

/-- The same, whatever the first part gives. -/
theorem givesAs_bind_any {y : Except ε β} {f : β → Except ε α} (hf : ∀ b, GivesAs p (f b)) :
    GivesAs p (y >>= f) :=
  givesAs_bind (q := fun _ => True) (fun _ _ => trivial) fun b _ => hf b

/-- **What every step keeps is kept by a run.** -/
theorem givesAs_foldlM {f : α → β → Except ε α} {bs : List β}
    (hf : ∀ a, p a → ∀ b ∈ bs, GivesAs p (f a b)) {a : α} (ha : p a) :
    GivesAs p (bs.foldlM f a) := by
  induction bs generalizing a with
  | nil => exact givesAs_pure.mpr ha
  | cons b bs ih =>
    rw [List.foldlM_cons]
    refine givesAs_bind (hf a ha b List.mem_cons_self) fun a' ha' => ?_
    exact ih (fun a ha b hb => hf a ha b (List.mem_cons_of_mem _ hb)) ha'

theorem GivesAs.imp {q : α → Prop} (h : GivesAs p x) (hpq : ∀ a, p a → q a) : GivesAs q x :=
  fun a ha => hpq a (h a ha)

end GivesAs

namespace Yaml

/-! ### Cursors -/

namespace Cursor

variable {c d e : Cursor} {p : Char → Bool}

/-- One cursor is another after some more characters. -/
def Reaches (c d : Cursor) : Prop := ∃ n, d = c.advanceBy n

theorem advanceBy_add (m n : Nat) (c : Cursor) :
    c.advanceBy (m + n) = (c.advanceBy m).advanceBy n := by
  induction m generalizing c with
  | zero => rw [Nat.zero_add, advanceBy]
  | succ m ih => rw [Nat.add_right_comm, advanceBy, advanceBy, ih]

@[simp] theorem Reaches.refl (c : Cursor) : c.Reaches c := ⟨0, rfl⟩

theorem Reaches.trans (h : c.Reaches d) (h' : d.Reaches e) : c.Reaches e := by
  obtain ⟨m, rfl⟩ := h
  obtain ⟨n, rfl⟩ := h'
  exact ⟨m + n, (advanceBy_add m n c).symm⟩

@[simp] theorem reaches_advanceBy (n : Nat) (c : Cursor) : c.Reaches (c.advanceBy n) := ⟨n, rfl⟩

@[simp] theorem reaches_advance (c : Cursor) : c.Reaches c.advance := ⟨1, rfl⟩

theorem Reaches.advance (h : c.Reaches d) : c.Reaches d.advance := h.trans (reaches_advance d)

theorem Reaches.advanceBy (h : c.Reaches d) (n : Nat) : c.Reaches (d.advanceBy n) :=
  h.trans (reaches_advanceBy n d)

theorem reaches_spanFrom (p : Char → Bool) (m : Mark) (xs : List Char) :
    Reaches ⟨m, xs⟩ (spanFrom p m xs).2 := by
  induction xs generalizing m with
  | nil => exact Reaches.refl _
  | cons x xs ih =>
    rw [spanFrom]
    split
    · exact (reaches_advance ⟨m, x :: xs⟩).trans (ih _)
    · exact Reaches.refl _

@[simp] theorem reaches_span (p : Char → Bool) (c : Cursor) : c.Reaches (c.span p).2 :=
  reaches_spanFrom p c.mark c.rest

@[simp] theorem reaches_skip (p : Char → Bool) (c : Cursor) : c.Reaches (c.skip p) :=
  reaches_span p c

@[simp] theorem reaches_skipSpaces (c : Cursor) : c.Reaches c.skipSpaces := reaches_skip _ c

@[simp] theorem reaches_skipLine (c : Cursor) : c.Reaches c.skipLine := reaches_skip _ c

@[simp] theorem reaches_skipComment (c : Cursor) : c.Reaches c.skipComment := by
  unfold skipComment
  split
  · exact reaches_skipLine c
  · exact Reaches.refl c

theorem reaches_lineBreak {b : Char} (h : c.lineBreak? = some (b, d)) : c.Reaches d := by
  unfold lineBreak? at h
  split at h
  · cases h
  · obtain ⟨-, rfl⟩ := Prod.mk.inj (Option.some.inj h)
    exact (reaches_advance c).advance
  · split at h
    · obtain ⟨-, rfl⟩ := Prod.mk.inj (Option.some.inj h)
      exact reaches_advance c
    · split at h
      · obtain ⟨-, rfl⟩ := Prod.mk.inj (Option.some.inj h)
        exact reaches_advance c
      · cases h

end Cursor

open Cursor

/-- A reader that may fail reaches the cursor it gives. -/
def Advances {α : Type} (c : Cursor) (x : Except Failure (α × Cursor)) : Prop :=
  GivesAs (fun r => c.Reaches r.2) x

section Advances

variable {α β : Type} {c d : Cursor} {x : Except Failure (α × Cursor)}

@[simp] theorem advances_ok {a : α} : Advances c (.ok (a, d)) ↔ c.Reaches d := givesAs_ok

@[simp] theorem advances_pure {a : α} : Advances c (pure (a, d)) ↔ c.Reaches d := givesAs_ok

@[simp] theorem advances_error (e : Failure) :
    Advances c (.error e : Except Failure (α × Cursor)) := givesAs_error e

@[simp] theorem advances_throw (e : Failure) :
    Advances c (throw e : Except Failure (α × Cursor)) := givesAs_error e

@[simp] theorem advances_throw_bind (e : Failure) {f : β → Except Failure (α × Cursor)} :
    Advances c (throw e >>= f) := givesAs_error e

@[simp] theorem advances_ite {b : Prop} [Decidable b] {y : Except Failure (α × Cursor)} :
    Advances c (if b then x else y) ↔ (b → Advances c x) ∧ (¬b → Advances c y) := givesAs_ite

/-- A reader that changes what another gives comes as far. -/
theorem Advances.map {f : α → β} (h : Advances c x) :
    Advances c (x.map fun (a, e) => (f a, e)) :=
  givesAs_map.mpr h

theorem Advances.trans (h : c.Reaches d) (hx : Advances d x) : Advances c x :=
  hx.imp fun _ hr => h.trans hr

/-- **Two readers, one after the other**, come as far as the second. -/
theorem Advances.bind {f : α × Cursor → Except Failure (β × Cursor)} (hx : Advances c x)
    (hf : ∀ a d, Advances d (f (a, d))) : Advances c (x >>= f) :=
  givesAs_bind hx fun r hr => (hf r.1 r.2).trans hr

end Advances

/-! ### Scalars -/

theorem reaches_plainBreaks (c : Cursor) : c.Reaches (plainBreaks c).2 := by
  fun_induction plainBreaks c with
  | case1 c b d hbreak _ => exact reaches_lineBreak hbreak
  | case2 c b d hbreak _ more e hmore ih =>
    rw [hmore] at ih
    exact (reaches_lineBreak hbreak).trans ih
  | case3 c _ _ ih => exact (reaches_advance c).trans ih
  | case4 c => exact Reaches.refl c

theorem reaches_plainGap (c : Cursor) : c.Reaches (plainGap c).2.2 := by
  unfold plainGap
  dsimp only
  split
  · exact reaches_span _ c
  · rename_i b e hbreak
    have hline : c.Reaches e := (reaches_span _ c).trans (reaches_lineBreak hbreak)
    split
    · exact hline
    · have hmore := hline.trans (reaches_plainBreaks e)
      split <;>
      · rename_i heq
        rw [heq] at hmore
        exact hmore

theorem reaches_plainFrom (inFlow : Bool) (indent : Nat) (gap : List Char) (ended : Bool)
    (c : Cursor) : c.Reaches (plainFrom inFlow indent gap ended c).2.2 := by
  fun_induction plainFrom inFlow indent gap ended c with
  | case1 => exact Reaches.refl _
  | case2 gap ended c size _ _ next ended' d hgap _ =>
    have hword := (reaches_advanceBy size c).trans (reaches_plainGap _)
    rwa [hgap] at hword
  | case3 gap ended c size _ _ next ended' d hgap _ _ more ended'' e hmore ih =>
    have hword := (reaches_advanceBy size c).trans (reaches_plainGap _)
    rw [hgap] at hword
    rw [hmore] at ih
    exact hword.trans ih
  | case4 gap ended c size _ _ next ended' d hgap _ _ =>
    have hword := (reaches_advanceBy size c).trans (reaches_plainGap _)
    rwa [hgap] at hword

theorem reaches_plain (inFlow : Bool) (indent : Nat) (c : Cursor) :
    c.Reaches (plain inFlow indent c).2.2 :=
  reaches_plainFrom inFlow indent [] false c

theorem advances_quotedBreaks (c : Cursor) : Advances c (quotedBreaks c) := by
  fun_induction quotedBreaks c with
  | case1 => simp
  | case2 c _ d b e hbreak ih =>
    exact Advances.map (ih.trans ((reaches_skip _ c).trans (reaches_lineBreak hbreak)))
  | case3 c => exact advances_ok.mpr (reaches_skip _ c)

theorem advances_quotedGap (c : Cursor) : Advances c (quotedGap c) := by
  unfold quotedGap
  dsimp only
  split
  · exact advances_ite.mpr
      ⟨fun _ => advances_error _, fun _ => advances_ok.mpr (reaches_span _ c)⟩
  · rename_i b e hbreak
    exact Advances.map ((advances_quotedBreaks e).trans
      ((reaches_span _ c).trans (reaches_lineBreak hbreak)))

theorem advances_numericEscape (width : Nat) (c : Cursor) :
    Advances c (numericEscape width c) := by
  unfold numericEscape
  dsimp only
  repeat' split
  all_goals simp [Reaches.advanceBy]

theorem advances_escape (c : Cursor) : Advances c (escape c) := by
  unfold escape
  split
  · simp
  · split
    · simp
    · exact Advances.map (f := fun y => [y])
        ((advances_numericEscape _ _).trans (reaches_advance c))
    · rename_i hbreak
      exact (advances_quotedBreaks _).trans (reaches_lineBreak hbreak)
    · simp

/-- The cursor after a piece of a quoted scalar. -/
def QuotedPiece.next : QuotedPiece → Cursor
  | .text _ d => d
  | .done d => d

theorem advances_quotedPiece (double : Bool) (c : Cursor) :
    GivesAs (fun piece => c.Reaches piece.next) (quotedPiece double c) := by
  unfold quotedPiece
  have hescape : Advances c (escape c.advance) := (advances_escape _).trans (reaches_advance c)
  have hgap := advances_quotedGap c
  split
  · simp
  · simp only [givesAs_ite, givesAs_map, givesAs_ok, QuotedPiece.next, reaches_advance,
      (reaches_advance c).advance, implies_true, and_self, true_and, and_true]
    exact ⟨fun _ => hgap, fun _ _ _ _ => hescape⟩

theorem advances_quotedFrom (double : Bool) (c : Cursor) : Advances c (quotedFrom double c) := by
  fun_induction quotedFrom double c with
  | case1 => simp
  | case2 c d hpiece => exact advances_ok.mpr (advances_quotedPiece double c _ hpiece)
  | case3 c cs d hpiece _ ih =>
    exact Advances.map (ih.trans (advances_quotedPiece double c _ hpiece))
  | case4 => simp

theorem advances_quoted (double : Bool) (c : Cursor) : Advances c (quoted double c) :=
  (advances_quotedFrom double _).trans (reaches_advance c)

theorem advances_blockDepth (c : Cursor) : Advances c (blockDepth c) := by
  unfold blockDepth
  split <;> simp

theorem advances_blockHeader (c : Cursor) : Advances c (blockHeader c) := by
  unfold blockHeader
  have hsign : Advances c (blockDepth c.advance) :=
    (advances_blockDepth _).trans (reaches_advance c)
  split
  · exact hsign.bind fun _ _ => by simp
  · refine (advances_blockDepth c).bind fun _ _ => ?_
    dsimp only
    split <;> simp

theorem reaches_restOfLine (c : Cursor) : GivesAs c.Reaches (restOfLine c) := by
  unfold restOfLine
  have hblank := (reaches_skipSpaces c).trans (reaches_skipComment _)
  dsimp only
  split
  · rename_i hbreak
    exact givesAs_ok.mpr (hblank.trans (reaches_lineBreak hbreak))
  · simp [hblank]

theorem reaches_skipTo (column : Nat) (c : Cursor) : c.Reaches (skipTo column c) := by
  fun_induction skipTo column c with
  | case1 c _ _ ih => exact (reaches_advance c).trans ih
  | case2 => exact Reaches.refl _
  | case3 => exact Reaches.refl _

theorem reaches_blockBreaks (column : Nat) (c : Cursor) : c.Reaches (blockBreaks column c).2 := by
  fun_induction blockBreaks column c with
  | case1 c d b e hbreak more f hmore ih =>
    rw [hmore] at ih
    exact ((reaches_skipTo column c).trans (reaches_lineBreak hbreak)).trans ih
  | case2 c => exact reaches_skipTo column c

theorem reaches_blockLead (deepest : Nat) (c : Cursor) : c.Reaches (blockLead deepest c).2.2 := by
  fun_induction blockLead deepest c with
  | case1 deepest c b d hbreak more n e hmore ih =>
    rw [hmore] at ih
    exact (reaches_lineBreak hbreak).trans ih
  | case2 deepest c _ _ ih => exact (reaches_advance c).trans ih
  | case3 => exact Reaches.refl _

theorem reaches_breakOrEnd (c : Cursor) : c.Reaches (breakOrEnd c).2 := by
  unfold breakOrEnd
  split
  · exact reaches_lineBreak ‹_›
  · exact Reaches.refl c

/-- A line of a block scalar with the breaks and the indentation after it. -/
theorem reaches_blockLine (column : Nat) (c : Cursor) :
    c.Reaches (blockBreaks column (breakOrEnd (c.span fun x => !isBreak x).2).2).2 :=
  ((reaches_span _ c).trans (reaches_breakOrEnd _)).trans (reaches_blockBreaks column _)

theorem reaches_blockLines (fold : Bool) (chomping : Chomping) (column : Nat) (c : Cursor) :
    c.Reaches (blockLines fold chomping column c).2 := by
  fun_induction blockLines fold chomping column c with
  | case1 c line d hspan ending e hend breaks f hbreaks _ _ more g hmore ih =>
    have hline := reaches_blockLine column c
    rw [hspan, hend, hbreaks] at hline
    rw [hmore] at ih
    exact hline.trans ih
  | case2 c line d hspan ending e hend breaks f hbreaks _ _ =>
    have hline := reaches_blockLine column c
    rwa [hspan, hend, hbreaks] at hline
  | case3 c line d hspan ending e hend breaks f hbreaks _ =>
    have hline := reaches_blockLine column c
    rwa [hspan, hend, hbreaks] at hline

theorem advances_block (fold : Bool) (least : Nat) (c : Cursor) :
    Advances c (block fold least c) := by
  unfold block
  refine Advances.trans (reaches_advance c) ((advances_blockHeader _).bind fun header d => ?_)
  refine givesAs_bind (reaches_restOfLine d) fun e he => Advances.trans he ?_
  dsimp only
  cases header.depth with
  | some depth =>
    have hbreaks := reaches_blockBreaks (least + depth - 1) e
    have hlines := hbreaks.trans
      (reaches_blockLines fold header.chomping (least + depth - 1) _)
    simp [hbreaks, hlines]
  | none =>
    have hlead := reaches_blockLead 0 e
    have hlines := hlead.trans
      (reaches_blockLines fold header.chomping (max least (blockLead 0 e).2.1) _)
    simp [hlead, hlines]

/-! ### Names, tags and directives -/

theorem advances_name (ends : Option Char → Bool) (c : Cursor) : Advances c (name ends c) := by
  unfold name
  simp

theorem advances_escapedOctets (c : Cursor) : Advances c (escapedOctets c) := by
  fun_induction escapedOctets c with
  | case1 => simp
  | case2 c _ d n _ e _ ih =>
    exact Advances.map (ih.trans ((reaches_advance c).advanceBy 2))
  | case3 c _ d n _ e _ => exact advances_ok.mpr ((reaches_advance c).advanceBy 2)
  | case4 => simp

theorem advances_tagCharacters (c : Cursor) : Advances c (tagCharacters c) := by
  fun_induction tagCharacters c with
  | case1 => simp
  | case2 c x _ _ ih =>
    refine (advances_escapedOctets c).bind fun octets d => ?_
    dsimp only
    split
    · simp
    · split
      · exact (ih _ ‹_›).bind fun _ _ => by simp
      · simp
  | case3 c x _ _ _ _ ih => exact (ih.trans (reaches_advance c)).bind fun _ _ => by simp
  | case4 => simp
  | case5 => simp

theorem advances_tagText (c : Cursor) : Advances c (tagText c) := by
  unfold tagText
  exact (advances_tagCharacters c).bind fun _ _ => by simp

theorem advances_tagHandle (c : Cursor) : Advances c (tagHandle c) := by
  unfold tagHandle
  have hname := (reaches_advance c).trans (reaches_span isNameCharacter _)
  simp [hname.advance]

theorem advances_writtenTag (c : Cursor) : Advances c (writtenTag c) := by
  unfold writtenTag
  -- a tag is written in one of four ways, and each goes on with the blank that has to follow
  split
  · refine Advances.trans (reaches_advanceBy 2 c) ((advances_tagText _).bind fun suffix d => ?_)
    simp
  · split
    · simp
    · split
      · exact (advances_tagHandle c).bind fun _ _ => (advances_tagText _).bind fun _ _ => by simp
      · exact Advances.trans (reaches_advance c)
          ((advances_tagText _).bind fun _ _ => by simp)

theorem advances_versionNumber (c : Cursor) : Advances c (versionNumber c) := by
  unfold versionNumber
  simp

theorem advances_versionDirective (c : Cursor) : Advances c (versionDirective c) := by
  unfold versionDirective
  refine Advances.trans (reaches_skipSpaces c) ((advances_versionNumber _).bind fun _ d => ?_)
  dsimp only
  split
  · simp
  · exact Advances.trans (reaches_advance d) ((advances_versionNumber _).bind fun _ _ => by simp)

theorem advances_handleDirective (c : Cursor) : Advances c (handleDirective c) := by
  unfold handleDirective
  refine Advances.trans (reaches_skipSpaces c) ((advances_tagHandle _).bind fun _ d => ?_)
  dsimp only
  split
  · simp
  · exact Advances.trans (reaches_skipSpaces d) ((advances_tagText _).bind fun _ _ => by simp)

/-- A directive stands between the cursor it is read from and the one it leaves. -/
theorem reaches_directive (c : Cursor) :
    GivesAs (fun r => r.1.first = c.mark ∧ ∃ d, c.Reaches d ∧ r.1.last = d.mark ∧ d.Reaches r.2)
      (directive c) := by
  unfold directive
  -- whatever a directive says, its line ends after it
  have hline (kind : Token.Kind) {d : Cursor} (hd : c.Reaches d) :
      GivesAs (fun r : Token × Cursor => r.1.first = c.mark ∧
          ∃ e, c.Reaches e ∧ r.1.last = e.mark ∧ e.Reaches r.2)
        (do
          let f ← restOfLine d
          pure ((⟨kind, c.mark, d.mark⟩ : Token), f)) :=
    givesAs_bind (reaches_restOfLine d) fun f hf => givesAs_pure.mpr ⟨rfl, d, hd, rfl, hf⟩
  have hname := Advances.trans (reaches_advance c) (advances_name endsField c.advance)
  refine givesAs_bind hname fun ⟨directive, d⟩ hd => ?_
  dsimp only at hd ⊢
  split
  · exact givesAs_bind (Advances.trans hd (advances_versionDirective d)) fun r hr => hline r.1 hr
  · split
    · exact givesAs_bind (Advances.trans hd (advances_handleDirective d)) fun r hr => hline r.1 hr
    · exact givesAs_bind (advances_pure.mpr (hd.trans (reaches_skipLine d)))
        fun r hr => hline r.1 hr

/-! ### Places -/

/-- A place is on an earlier line than another, or on its line and no further to the right. -/
def Mark.UpTo (m n : Mark) : Prop := m.line < n.line ∨ m.line = n.line ∧ m.column ≤ n.column

/-- A cursor in a text. -/
def Cursor.IsIn (s : String) (c : Cursor) : Prop := (Cursor.ofString s).Reaches c

/-- A place in a text. -/
def Mark.IsIn (s : String) (m : Mark) : Prop := ∃ c : Cursor, c.IsIn s ∧ c.mark = m

/-- The number of line feeds before a character of a text. -/
def lineAt (s : String) (i : Nat) : Nat := (s.toList.take i).count '\n'

section Places

variable {s : String} {c d : Cursor} {m n k : Mark} {i : Nat} {x : Char}
  {xs : List Char}

theorem Mark.UpTo.refl (m : Mark) : m.UpTo m := .inr ⟨rfl, Nat.le_refl _⟩

theorem Mark.UpTo.trans (h : m.UpTo n) (h' : n.UpTo k) : m.UpTo k := by
  simp only [Mark.UpTo] at h h' ⊢
  omega

theorem Mark.upTo_after (m : Mark) (x : Char) (next : Option Char) : m.UpTo (m.after x next) := by
  unfold Mark.after Mark.UpTo
  split
  · exact .inl (Nat.lt_succ_self _)
  · split
    · exact .inr ⟨rfl, Nat.le_refl _⟩
    · exact .inr ⟨rfl, Nat.le_succ _⟩

theorem Cursor.advance_of_nil (h : c.rest = []) : c.advance = c := by
  unfold Cursor.advance
  rw [h]

theorem Cursor.advance_of_cons (h : c.rest = x :: xs) :
    c.advance = ⟨c.mark.after x xs.head?, xs⟩ := by
  unfold Cursor.advance
  rw [h]

theorem Cursor.Reaches.upTo (h : c.Reaches d) : c.mark.UpTo d.mark := by
  obtain ⟨n, rfl⟩ := h
  induction n generalizing c with
  | zero => exact .refl _
  | succ n ih =>
    refine Mark.UpTo.trans ?_ ih
    cases hrest : c.rest with
    | nil => rw [advance_of_nil hrest]; exact .refl _
    | cons x xs => rw [advance_of_cons hrest]; exact Mark.upTo_after _ _ _

theorem Mark.index_after (m : Mark) (x : Char) (next : Option Char) :
    (m.after x next).index = m.index + 1 := by
  unfold Mark.after
  split
  · rfl
  · split <;> rfl

theorem Cursor.Reaches.index_le (h : c.Reaches d) : c.mark.index ≤ d.mark.index := by
  obtain ⟨n, rfl⟩ := h
  induction n generalizing c with
  | zero => exact Nat.le_refl _
  | succ n ih =>
    refine Nat.le_trans ?_ ih
    cases hrest : c.rest with
    | nil => exact Nat.le_of_eq (by rw [advance_of_nil hrest])
    | cons x xs =>
      rw [advance_of_cons hrest, Mark.index_after]
      exact Nat.le_succ _

/-- A cursor reached without reading a character is the same. -/
theorem Cursor.Reaches.eq_of_index_le (h : c.Reaches d) (hi : d.mark.index ≤ c.mark.index) :
    d = c := by
  obtain ⟨n, rfl⟩ := h
  induction n with
  | zero => rfl
  | succ n ih =>
    rw [Cursor.advanceBy] at hi ⊢
    cases hrest : c.rest with
    | nil =>
      rw [advance_of_nil hrest] at hi ⊢
      exact ih hi
    | cons x xs =>
      have hstep : c.advance.mark.index = c.mark.index + 1 := by
        rw [advance_of_cons hrest, Mark.index_after]
      have hmore := (reaches_advanceBy n c.advance).index_le
      omega

theorem Cursor.IsIn.trans (h : c.IsIn s) (h' : c.Reaches d) : d.IsIn s := Reaches.trans h h'

theorem Cursor.IsIn.mark (h : c.IsIn s) : c.mark.IsIn s := ⟨c, h, rfl⟩

/-- Of two cursors in a text, the one with more characters before it is reached from the other. -/
theorem Cursor.IsIn.reaches (hc : c.IsIn s) (hd : d.IsIn s) (h : c.mark.index ≤ d.mark.index) :
    c.Reaches d := by
  obtain ⟨i, rfl⟩ := hc
  obtain ⟨j, rfl⟩ := hd
  rcases Nat.le_total i j with hij | hji
  · obtain ⟨k, rfl⟩ := Nat.exists_eq_add_of_le hij
    exact ⟨k, advanceBy_add i k _⟩
  · obtain ⟨k, rfl⟩ := Nat.exists_eq_add_of_le hji
    have hback : ((ofString s).advanceBy j).Reaches ((ofString s).advanceBy (j + k)) :=
      ⟨k, advanceBy_add j k _⟩
    rw [hback.eq_of_index_le h]
    exact Reaches.refl _

/-- **Of two places in a text**, the one with fewer characters before it comes first by line and
column, too. -/
theorem Mark.IsIn.upTo (hm : m.IsIn s) (hn : n.IsIn s) (h : m.index ≤ n.index) : m.UpTo n := by
  obtain ⟨c, hc, rfl⟩ := hm
  obtain ⟨d, hd, rfl⟩ := hn
  exact (hc.reaches hd h).upTo

theorem Cursor.advanceBy_succ (n : Nat) (c : Cursor) :
    c.advanceBy (n + 1) = (c.advanceBy n).advance := by
  rw [advanceBy_add, advanceBy, advanceBy]

/-- The cursor after some of the characters of a text. -/
theorem Cursor.advanceBy_ofString (h : i ≤ s.toList.length) :
    ((ofString s).advanceBy i).mark.index = i ∧
      ((ofString s).advanceBy i).rest = s.toList.drop i := by
  induction i with
  | zero => exact ⟨rfl, rfl⟩
  | succ i ih =>
    obtain ⟨hindex, hrest⟩ := ih (Nat.le_of_succ_le h)
    rw [advanceBy_succ]
    rw [List.drop_eq_getElem_cons h] at hrest
    rw [advance_of_cons hrest]
    exact ⟨by rw [Mark.index_after, hindex], rfl⟩

theorem Cursor.IsIn.eq_advanceBy (h : c.IsIn s) :
    c.mark.index ≤ s.toList.length ∧ c = (ofString s).advanceBy c.mark.index := by
  obtain ⟨i, rfl⟩ := h
  rcases Nat.le_total i s.toList.length with hle | hge
  · have hindex := (advanceBy_ofString hle).1
    rw [hindex]
    exact ⟨hle, rfl⟩
  · obtain ⟨hindex, hrest⟩ := advanceBy_ofString (Nat.le_refl s.toList.length)
    obtain ⟨k, rfl⟩ := Nat.exists_eq_add_of_le hge
    have hend : ∀ k, ((ofString s).advanceBy (s.toList.length + k)) =
        (ofString s).advanceBy s.toList.length := by
      intro k
      induction k with
      | zero => rfl
      | succ k ih =>
        rw [← Nat.add_assoc, advanceBy_succ, ih]
        exact advance_of_nil (hrest.trans List.drop_length)
    rw [hend k, hindex]
    exact ⟨Nat.le_refl _, rfl⟩

/-- **Where only line feeds end lines**, the line of a cursor is the number of line feeds before
it. -/
theorem Cursor.line_advanceBy (hs : ∀ x ∈ s.toList, isBreak x = true → x = '\n')
    (hi : i ≤ s.toList.length) : ((ofString s).advanceBy i).mark.line = lineAt s i := by
  induction i with
  | zero => rfl
  | succ i ih =>
    have hrest := (advanceBy_ofString (Nat.le_of_succ_le hi)).2
    rw [List.drop_eq_getElem_cons hi] at hrest
    have hcount : lineAt s (i + 1) = lineAt s i + [s.toList[i]].count '\n' := by
      rw [lineAt, lineAt, List.take_succ_eq_append_getElem hi, List.count_append]
    rw [advanceBy_succ, advance_of_cons hrest, hcount, ← ih (Nat.le_of_succ_le hi)]
    unfold Mark.after
    cases hbreak : isBreak s.toList[i] with
    | true =>
      have hfeed := hs _ (List.getElem_mem hi) hbreak
      simp [hfeed]
    | false =>
      have hother : s.toList[i] ≠ '\n' := fun heq => by rw [heq] at hbreak; cases hbreak
      have hnone : [s.toList[i]].count '\n' = 0 := by simp [hother]
      rw [hnone]
      simp only [Bool.false_and, Bool.false_eq_true, if_false]
      split <;> rfl

theorem Mark.IsIn.line_eq (hs : ∀ x ∈ s.toList, isBreak x = true → x = '\n') (hm : m.IsIn s) :
    m.line = lineAt s m.index := by
  obtain ⟨c, hc, rfl⟩ := hm
  obtain ⟨hle, heq⟩ := hc.eq_advanceBy
  rw [← Cursor.line_advanceBy hs hle, ← heq]

theorem lineAt_mono {j : Nat} (h : i ≤ j) : lineAt s i ≤ lineAt s j := by
  obtain ⟨k, rfl⟩ := Nat.exists_eq_add_of_le h
  rw [lineAt, lineAt, List.take_add, List.count_append]
  exact Nat.le_add_right _ _

/-- A character before a place in the first column stands on an earlier line, unless it takes no
column. -/
theorem Mark.IsIn.lineAt_lt (hs : ∀ x ∈ s.toList, isBreak x = true → x = '\n') (hm : m.IsIn s)
    (hcolumn : m.column = 0) (hi : i < m.index) (hx : s.toList[i]? = some x) (hne : x ≠ '\ufeff') :
    lineAt s i < m.line := by
  obtain ⟨hlength, rfl⟩ := List.getElem?_eq_some_iff.mp hx
  have hsucc : (Cursor.advanceBy (i + 1) (Cursor.ofString s)).IsIn s := Cursor.reaches_advanceBy _ _
  have hindex : (Cursor.advanceBy (i + 1) (Cursor.ofString s)).mark.index = i + 1 :=
    (Cursor.advanceBy_ofString hlength).1
  have hrest := (Cursor.advanceBy_ofString (Nat.le_of_lt hlength)).2
  rw [List.drop_eq_getElem_cons hlength] at hrest
  have hupTo := Mark.IsIn.upTo ⟨_, hsucc, rfl⟩ hm (by omega)
  have hline := Cursor.line_advanceBy hs (Nat.le_of_lt hlength)
  rw [Cursor.advanceBy_succ, Cursor.advance_of_cons hrest] at hupTo
  unfold Mark.UpTo Mark.after at hupTo
  rw [hcolumn, hline] at hupTo
  cases hbreak : isBreak s.toList[i] with
  | true =>
    have hfeed := hs _ (List.getElem_mem hlength) hbreak
    have hends : isBreak '\n' = true := rfl
    simp [hfeed, hends] at hupTo
    omega
  | false =>
    simp [hbreak, hne] at hupTo
    exact hupTo

end Places

end Yaml

end ApiSuite
