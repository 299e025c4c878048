import ApiSuite.Yaml.Layout

/-!
# What the tokens of a document fail on

Whether a document may hold its characters at all is decided before anything else. What fails from
then on fails on what the text says (`ApiSuite.Yaml.Failure.isOfContent`): something is wrong at a
place, or what is spelled there is no number, day, word or character.

That is a property of failures, and a computation that is put together has it if its parts do
(`ApiSuite.failsAs_bind`). This file goes through the readers of tokens, of which each is put
together from the ones before it, and ends with all the tokens of a text
(`ApiSuite.Yaml.tokens_failure`). The three that repeat themselves do so on less text, and their
lemmas are inductions along that.
-/

namespace ApiSuite

/-! ### Computations by their failures -/

/-- A computation that fails does so in one of some ways. -/
def FailsAs {ε α : Type} (p : ε → Bool) (x : Except ε α) : Prop := ∀ e, x = .error e → p e

section FailsAs

variable {ε α β : Type} {p : ε → Bool} {x : Except ε α}

@[simp] theorem failsAs_ok (a : α) : FailsAs p (.ok a : Except ε α) := nofun

@[simp] theorem failsAs_pure (a : α) : FailsAs p (pure a : Except ε α) := failsAs_ok a

@[simp] theorem failsAs_error {e : ε} : FailsAs p (.error e : Except ε α) ↔ p e := by
  simp [FailsAs]

@[simp] theorem failsAs_throw {e : ε} : FailsAs p (throw e : Except ε α) ↔ p e := failsAs_error

@[simp] theorem failsAs_throw_bind {e : ε} {f : α → Except ε β} :
    FailsAs p (throw e >>= f) ↔ p e := failsAs_error

@[simp] theorem failsAs_map {f : α → β} : FailsAs p (x.map f) ↔ FailsAs p x := by
  cases x <;> simp [Except.map]

@[simp] theorem failsAs_fmap {f : α → β} : FailsAs p (f <$> x) ↔ FailsAs p x := failsAs_map

@[simp] theorem failsAs_ite {c : Prop} [Decidable c] {y : Except ε α} :
    FailsAs p (if c then x else y) ↔ (c → FailsAs p x) ∧ (¬c → FailsAs p y) := by
  split <;> simp [*]

/-- **What is put together fails as its parts do.** -/
theorem failsAs_bind {f : α → Except ε β} (hx : FailsAs p x) (hf : ∀ a, FailsAs p (f a)) :
    FailsAs p (x >>= f) := by
  cases x with
  | error e => exact failsAs_error.mpr (failsAs_error.mp hx)
  | ok a => exact hf a

theorem failsAs_bind_pure {f : α → β} (hx : FailsAs p x) :
    FailsAs p (x >>= fun a => pure (f a)) :=
  failsAs_bind hx fun a => failsAs_pure (f a)

end FailsAs

/-- Whether a crash is one on a number, a day, a word or a character that there is none of. -/
def Crash.isOfSpelling : Crash → Bool
  | .hugeNumeral _ | .badInteger _ _ | .badFloat _ | .emptyNumeral | .badTimestamp
  | .missingKey _ | .calendar _ | .codePoint => true
  | _ => false

namespace Yaml

/-- Whether a failure is one of what a text says, and not of the characters it is written in. -/
def Failure.isOfContent : Failure → Bool
  | .malformed _ => true
  | .forbidden => false
  | .crash c => c.isOfSpelling

@[simp] theorem isOfContent_malformed (m : Mark) : (Failure.malformed m).isOfContent = true := rfl

@[simp] theorem isOfContent_crash (c : Crash) :
    (Failure.crash c).isOfContent = c.isOfSpelling := rfl

/-! ### Scalars -/

@[simp] theorem failsAs_quotedBreaks (c : Cursor) :
    FailsAs Failure.isOfContent (quotedBreaks c) := by
  fun_induction quotedBreaks c with
  | case1 => simp
  | case2 c _ _ b e _ ih => simpa using ih
  | case3 => simp

@[simp] theorem failsAs_quotedGap (c : Cursor) : FailsAs Failure.isOfContent (quotedGap c) := by
  unfold quotedGap
  dsimp only
  repeat' split
  all_goals simp

@[simp] theorem failsAs_numericEscape (width : Nat) (c : Cursor) :
    FailsAs Failure.isOfContent (numericEscape width c) := by
  unfold numericEscape
  dsimp only
  repeat' split
  all_goals simp [Crash.isOfSpelling]

@[simp] theorem failsAs_escape (c : Cursor) : FailsAs Failure.isOfContent (escape c) := by
  unfold escape
  repeat' split
  all_goals simp

@[simp] theorem failsAs_quotedPiece (double : Bool) (c : Cursor) :
    FailsAs Failure.isOfContent (quotedPiece double c) := by
  unfold quotedPiece
  repeat' split
  all_goals simp

@[simp] theorem failsAs_quotedFrom (double : Bool) (c : Cursor) :
    FailsAs Failure.isOfContent (quotedFrom double c) := by
  fun_induction quotedFrom double c with
  | case1 c e hpiece => exact failsAs_error.mpr (failsAs_quotedPiece double c e hpiece)
  | case2 => simp
  | case3 c cs d _ _ ih => simpa using ih
  | case4 => simp

@[simp] theorem failsAs_quoted (double : Bool) (c : Cursor) :
    FailsAs Failure.isOfContent (quoted double c) :=
  failsAs_quotedFrom double c.advance

@[simp] theorem failsAs_blockDepth (c : Cursor) : FailsAs Failure.isOfContent (blockDepth c) := by
  unfold blockDepth
  split <;> simp

@[simp] theorem failsAs_blockHeader (c : Cursor) :
    FailsAs Failure.isOfContent (blockHeader c) := by
  unfold blockHeader
  -- the header is read in one of three ways, and each goes on with the end of the line
  split
  · exact failsAs_bind (failsAs_blockDepth _) fun _ => by simp
  · refine failsAs_bind (failsAs_blockDepth _) fun _ => ?_
    dsimp only
    split <;> simp

@[simp] theorem failsAs_restOfLine (c : Cursor) : FailsAs Failure.isOfContent (restOfLine c) := by
  unfold restOfLine
  dsimp only
  repeat' split
  all_goals simp

@[simp] theorem failsAs_block (fold : Bool) (least : Nat) (c : Cursor) :
    FailsAs Failure.isOfContent (block fold least c) := by
  unfold block
  refine failsAs_bind (failsAs_blockHeader _) fun _ =>
    failsAs_bind (failsAs_restOfLine _) fun _ => ?_
  repeat' split
  all_goals simp

/-! ### Names, tags and directives -/

@[simp] theorem failsAs_name (ends : Option Char → Bool) (c : Cursor) :
    FailsAs Failure.isOfContent (name ends c) := by
  unfold name
  dsimp only
  split <;> simp

@[simp] theorem failsAs_escapedOctets (c : Cursor) :
    FailsAs Failure.isOfContent (escapedOctets c) := by
  fun_induction escapedOctets c with
  | case2 c _ d n _ e _ ih => simpa using ih
  | _ => simp

@[simp] theorem failsAs_tagCharacters (c : Cursor) :
    FailsAs Failure.isOfContent (tagCharacters c) := by
  fun_induction tagCharacters c with
  | case1 => simp
  | case2 c x _ _ ih =>
    -- the octets of escapes are a text or not, and the tag goes on after them
    refine failsAs_bind (failsAs_escapedOctets c) fun ⟨octets, d⟩ => ?_
    dsimp only
    split
    · simp
    · split
      · exact failsAs_bind_pure (ih _ ‹_›)
      · simp
  | case3 c x _ _ _ _ ih => exact failsAs_bind_pure ih
  | case4 => simp
  | case5 => simp

@[simp] theorem failsAs_tagText (c : Cursor) : FailsAs Failure.isOfContent (tagText c) := by
  unfold tagText
  refine failsAs_bind (failsAs_tagCharacters c) fun _ => ?_
  dsimp only
  split <;> simp

@[simp] theorem failsAs_tagHandle (c : Cursor) : FailsAs Failure.isOfContent (tagHandle c) := by
  unfold tagHandle
  dsimp only
  repeat' split
  all_goals simp

@[simp] theorem failsAs_writtenTag (c : Cursor) : FailsAs Failure.isOfContent (writtenTag c) := by
  unfold writtenTag
  -- a tag is written in one of four ways, and each goes on with the blank that has to follow
  split
  · exact failsAs_bind (failsAs_tagText _) fun _ => by simp
  · split
    · simp
    · split
      · exact failsAs_bind (failsAs_tagHandle c) fun _ =>
          failsAs_bind (failsAs_tagText _) fun _ => by simp
      · exact failsAs_bind (failsAs_tagText _) fun _ => by simp

@[simp] theorem failsAs_versionNumber (c : Cursor) :
    FailsAs Failure.isOfContent (versionNumber c) := by
  unfold versionNumber
  dsimp only
  repeat' split
  all_goals simp [Crash.isOfSpelling]

@[simp] theorem failsAs_versionDirective (c : Cursor) :
    FailsAs Failure.isOfContent (versionDirective c) := by
  unfold versionDirective
  refine failsAs_bind (failsAs_versionNumber _) fun _ => ?_
  dsimp only
  split
  · simp
  · exact failsAs_bind (failsAs_versionNumber _) fun _ => by simp

@[simp] theorem failsAs_handleDirective (c : Cursor) :
    FailsAs Failure.isOfContent (handleDirective c) := by
  unfold handleDirective
  refine failsAs_bind (failsAs_tagHandle _) fun _ => ?_
  dsimp only
  split
  · simp
  · exact failsAs_bind (failsAs_tagText _) fun _ => by simp

@[simp] theorem failsAs_directive (c : Cursor) : FailsAs Failure.isOfContent (directive c) := by
  unfold directive
  -- whatever a directive says, its line ends after it
  have hline (kind : Token.Kind) (e : Cursor) :
      FailsAs Failure.isOfContent (do
        let f ← restOfLine e
        pure ((⟨kind, c.mark, e.mark⟩ : Token), f)) :=
    failsAs_bind_pure (failsAs_restOfLine e)
  refine failsAs_bind (failsAs_name _ _) fun _ => ?_
  dsimp only
  split
  · exact failsAs_bind (failsAs_versionDirective _) fun _ => hline _ _
  · split
    · exact failsAs_bind (failsAs_handleDirective _) fun _ => hline _ _
    · exact hline _ _

/-! ### Layout -/

namespace Layout

@[simp] theorem failsAs_dropStale (l : Layout) : FailsAs Failure.isOfContent l.dropStale := by
  simp [dropStale]

@[simp] theorem failsAs_dropKey (l : Layout) : FailsAs Failure.isOfContent l.dropKey := by
  simp [dropKey]

@[simp] theorem failsAs_saveKey (l : Layout) : FailsAs Failure.isOfContent l.saveKey := by
  unfold saveKey
  split
  · exact failsAs_bind_pure (failsAs_dropKey l)
  · simp

@[simp] theorem failsAs_openItem (kind : Token.Kind) (l : Layout) :
    FailsAs Failure.isOfContent (l.openItem kind) := by
  simp [openItem]

@[simp] theorem failsAs_separate (l : Layout) : FailsAs Failure.isOfContent l.separate :=
  failsAs_bind_pure (failsAs_dropKey _)

@[simp] theorem failsAs_addDirective (l : Layout) :
    FailsAs Failure.isOfContent l.addDirective :=
  failsAs_bind (failsAs_separate l) fun _ => failsAs_bind_pure (failsAs_directive _)

@[simp] theorem failsAs_addSeparator (kind : Token.Kind) (l : Layout) :
    FailsAs Failure.isOfContent (l.addSeparator kind) :=
  failsAs_bind_pure (failsAs_separate l)

@[simp] theorem failsAs_addOpening (kind : Token.Kind) (l : Layout) :
    FailsAs Failure.isOfContent (l.addOpening kind) :=
  failsAs_bind_pure (failsAs_saveKey l)

@[simp] theorem failsAs_addClosing (kind : Token.Kind) (l : Layout) :
    FailsAs Failure.isOfContent (l.addClosing kind) :=
  failsAs_bind_pure (failsAs_dropKey l)

@[simp] theorem failsAs_addComma (l : Layout) : FailsAs Failure.isOfContent l.addComma :=
  failsAs_bind_pure (failsAs_dropKey l)

@[simp] theorem failsAs_addDash (l : Layout) : FailsAs Failure.isOfContent l.addDash :=
  failsAs_bind (failsAs_openItem _ l) fun _ => failsAs_bind_pure (failsAs_dropKey _)

@[simp] theorem failsAs_addKey (l : Layout) : FailsAs Failure.isOfContent l.addKey :=
  failsAs_bind (failsAs_openItem _ l) fun _ => failsAs_bind_pure (failsAs_dropKey _)

@[simp] theorem failsAs_addValue (l : Layout) : FailsAs Failure.isOfContent l.addValue := by
  unfold addValue
  split
  · exact failsAs_ok _
  · exact failsAs_bind (failsAs_openItem _ l) fun _ => failsAs_bind_pure (failsAs_dropKey _)

/-- A word fails as what is read of it. -/
theorem failsAs_addWord {read : Cursor → Except Failure (Token.Kind × Cursor)} (l : Layout)
    (hread : ∀ c, FailsAs Failure.isOfContent (read c)) :
    FailsAs Failure.isOfContent (l.addWord read) :=
  failsAs_bind (failsAs_saveKey l) fun _ => failsAs_bind_pure (hread _)

@[simp] theorem failsAs_addAlias (l : Layout) : FailsAs Failure.isOfContent l.addAlias :=
  failsAs_addWord l fun _ => by simp

@[simp] theorem failsAs_addAnchor (l : Layout) : FailsAs Failure.isOfContent l.addAnchor :=
  failsAs_addWord l fun _ => by simp

@[simp] theorem failsAs_addTag (l : Layout) : FailsAs Failure.isOfContent l.addTag :=
  failsAs_addWord l fun _ => by simp

@[simp] theorem failsAs_addQuoted (double : Bool) (l : Layout) :
    FailsAs Failure.isOfContent (l.addQuoted double) :=
  failsAs_addWord l fun _ => by simp

@[simp] theorem failsAs_addPlain (l : Layout) : FailsAs Failure.isOfContent l.addPlain :=
  failsAs_bind_pure (failsAs_saveKey l)

@[simp] theorem failsAs_addBlock (fold : Bool) (l : Layout) :
    FailsAs Failure.isOfContent (l.addBlock fold) :=
  failsAs_bind (failsAs_dropKey _) fun _ => failsAs_bind_pure (failsAs_block _ _ _)

@[simp] theorem failsAs_finish (l : Layout) : FailsAs Failure.isOfContent l.finish :=
  failsAs_bind_pure (failsAs_dropKey _)

@[simp] theorem failsAs_add (x : Char) (l : Layout) :
    FailsAs Failure.isOfContent (l.add x) := by
  simp [add]

theorem failsAs_next (l : Layout) : FailsAs Failure.isOfContent l.next := by
  unfold next
  refine failsAs_bind (failsAs_dropStale _) fun _ => ?_
  dsimp only
  split <;> simp

/-- **What ends the tokens from a layout on** is a failure of what the text says. -/
theorem run_failure (l : Layout) : ∀ e ∈ l.run.2, e.isOfContent := by
  -- the tokens of the rest end as its text does, and those that are ready have no part in that
  fun_induction run l with
  | case1 l e hnext => simpa using failsAs_next l e hnext
  | case2 => simp
  | case3 l l' _ e hstale => simpa using failsAs_dropStale l' e hstale
  | case4 => simp_all
  | case5 => simp

end Layout

/-- **The tokens of a text end well or in a failure of what the text says.** -/
theorem tokens_failure (s : String) : ∀ e ∈ (tokens s).2, e.isOfContent :=
  Layout.run_failure (.ofString s)

end Yaml

end ApiSuite
