import ApiSuite.Document
import ApiSuite.Proofs.Yaml.Scanning

/-!
# What the reading of a document fails on

The nodes of a document are assembled from its tokens, and their values read by their tags. What
fails in that fails on what the text says, as the tokens do (`ApiSuite.Yaml.tokens_failure`): a
token that has no place, an alias of nothing, a mapping where a text is to be, or a scalar that
spells no number and no day although it is tagged so. So there is one way only to a failure of
another kind, which is the first thing that is asked of a text (`ApiSuite.Document.readYaml_cases`).

The values are read node by node, and their failures are gathered on the way as steps
(`ApiSuite.Yaml.Step`). Which of them comes first is of no matter here: all of them are of the one
kind, and so is a value key that is read before it has become a text.
-/

namespace ApiSuite.Yaml

/-! ### Nodes out of tokens -/

namespace Assembly

@[simp] theorem failsAs_fail {α : Type} (m : Mark) :
    FailsAs Failure.isOfContent (fail m : Except Failure α) :=
  failsAs_error.mpr rfl

@[simp] theorem failsAs_tagName (a : Assembly) (p : Properties) (m : Mark) :
    FailsAs Failure.isOfContent (a.tagName p m) := by
  unfold tagName
  repeat' split
  all_goals simp

@[simp] theorem failsAs_checkAnchor (a : Assembly) (anchor : Option String) (m : Mark) :
    FailsAs Failure.isOfContent (a.checkAnchor anchor m) := by
  unfold checkAnchor
  split <;> simp

@[simp] theorem failsAs_open (isMap : Bool) (o : Opening) (f : Frame) (a : Assembly) :
    FailsAs Failure.isOfContent (a.open_ isMap o f) :=
  failsAs_bind_pure (failsAs_checkAnchor _ _ _)

@[simp] theorem failsAs_addScalar (anchor : Option String) (tag : Tag) (text : String) (m : Mark)
    (a : Assembly) : FailsAs Failure.isOfContent (a.addScalar anchor tag text m) :=
  failsAs_bind_pure (failsAs_checkAnchor _ _ _)

@[simp] theorem failsAs_beginNode (setting : Setting) (anchor tag : Option String) (m : Mark)
    (t : Token) (a : Assembly) :
    FailsAs Failure.isOfContent (a.beginNode setting anchor tag m t) := by
  unfold beginNode
  dsimp only
  split <;> simp

@[simp] theorem failsAs_addAlias (name : String) (m : Mark) (a : Assembly) :
    FailsAs Failure.isOfContent (a.addAlias name m) := by
  unfold addAlias
  split <;> simp

@[simp] theorem failsAs_addNode (setting : Setting) (t : Token) (a : Assembly) :
    FailsAs Failure.isOfContent (a.addNode setting t) := by
  unfold addNode
  split
  · simp
  · simp
  · simp
  · refine failsAs_bind (failsAs_beginNode _ _ _ _ _ _) fun begun => ?_
    cases begun <;> simp

@[simp] theorem failsAs_addDirective (t : Token) (versionSeen : Bool) (a : Assembly) :
    FailsAs Failure.isOfContent (a.addDirective t versionSeen) := by
  unfold addDirective
  split <;> simp

theorem failsAs_feedDocument (t : Token) (a : Assembly) :
    FailsAs Failure.isOfContent (a.feedDocument t) := by
  unfold feedDocument
  split <;> simp

/-- A frame takes a token, passes it on, or fails on where it stands. -/
theorem failsAs_offer (f : Frame) (fs : List Frame) (t : Token) (a : Assembly) :
    FailsAs Failure.isOfContent (a.offer f fs t) := by
  unfold offer
  dsimp only
  -- a node of which the properties have been read has to look at these first
  split
  case h_2 setting p =>
    split
    · exact failsAs_bind_pure (failsAs_tagName _ _ _)
    · exact failsAs_bind_pure (failsAs_tagName _ _ _)
    · refine failsAs_bind (failsAs_tagName _ _ _) fun _ => ?_
      refine failsAs_bind (failsAs_beginNode _ _ _ _ _ _) fun begun => ?_
      cases begun with
      | some b => exact failsAs_pure _
      | none => exact failsAs_bind_pure (failsAs_addScalar _ _ _ _ _)
  all_goals
    repeat' split
    all_goals simp

theorem failsAs_feed (t : Token) (a : Assembly) :
    FailsAs Failure.isOfContent (a.feed t) := by
  fun_induction feed t a with
  | case1 a => exact failsAs_feedDocument t a
  | case2 a f fs _ e hoffer => exact failsAs_error.mpr (failsAs_offer f fs t a e hoffer)
  | case3 => simp
  | case4 _ _ _ _ _ _ _ ih => exact ih
  | case5 => simp

end Assembly

theorem failsAs_feeds (ts : List Token) (a : Assembly) :
    FailsAs Failure.isOfContent (ts.foldlM (fun a t => a.feed t) a) := by
  induction ts generalizing a with
  | nil => exact failsAs_pure a
  | cons t ts ih =>
    rw [List.foldlM_cons]
    exact failsAs_bind (Assembly.failsAs_feed t a) ih

/-- **A text of characters that documents may hold** has a node, is empty, or fails on what it
says. -/
theorem failsAs_ofString {s : String} (hs : s.toList.all isAllowed = true) :
    FailsAs Failure.isOfContent (Node.ofString s) := by
  have hends := tokens_failure s
  rw [Node.ofString, if_pos hs]
  generalize tokens s = scanned at hends ⊢
  obtain ⟨ts, failure⟩ := scanned
  -- what ends the tokens is told once all of them have been taken
  refine failsAs_bind (failsAs_feeds _ _) fun a => ?_
  cases failure with
  | some e => exact failsAs_throw.mpr (hends e rfl)
  | none => cases a.progress <;> simp

/-! ### What scalars spell -/

theorem failsAs_basedInt (base : Nat) (cs : List Char) :
    FailsAs Crash.isOfSpelling (basedInt base cs) := by
  unfold basedInt
  dsimp only
  split <;> simp [Crash.isOfSpelling]

@[simp] theorem failsAs_decimalInt (cs : List Char) :
    FailsAs Crash.isOfSpelling (decimalInt cs) := by
  unfold decimalInt
  split <;> simp [Crash.isOfSpelling]

theorem failsAs_sixties (parts : List (List Char)) :
    FailsAs Crash.isOfSpelling (sixties parts) := by
  have hfrom (n : Int) : FailsAs Crash.isOfSpelling
      (parts.foldlM (fun n part => (decimalInt part).map (60 * n + ·)) n) := by
    induction parts generalizing n with
    | nil => simp
    | cons part parts ih =>
      rw [List.foldlM_cons]
      exact failsAs_bind (by simp) ih
  exact hfrom 0

@[simp] theorem failsAs_unsignedInt (cs : List Char) :
    FailsAs Crash.isOfSpelling (unsignedInt cs) := by
  unfold unsignedInt
  split <;> simp [failsAs_basedInt, failsAs_sixties, Crash.isOfSpelling]

@[simp] theorem failsAs_spelledInt (text : String) :
    FailsAs Crash.isOfSpelling (spelledInt text) := by
  unfold spelledInt
  split <;> simp [Crash.isOfSpelling]

@[simp] theorem failsAs_decimalFloat (cs : List Char) :
    FailsAs Crash.isOfSpelling (decimalFloat cs) := by
  unfold decimalFloat
  split <;> simp [Crash.isOfSpelling]

theorem failsAs_checkFloats (parts : List (List Char)) :
    FailsAs Crash.isOfSpelling (checkFloats parts) := by
  unfold checkFloats
  induction parts with
  | nil => exact failsAs_pure ()
  | cons part parts ih =>
    exact failsAs_bind (failsAs_map.mpr (failsAs_decimalFloat part)) fun _ => ih

theorem failsAs_sumSixties (power : Nat) (sum : Float) (parts : List (List Char)) :
    FailsAs Crash.isOfSpelling (sumSixties power sum parts) := by
  induction parts generalizing power sum with
  | nil => simp [sumSixties]
  | cons part parts ih => exact failsAs_bind (failsAs_decimalFloat part) fun x => ih _ _

@[simp] theorem failsAs_unsignedFloat (cs : List Char) :
    FailsAs Crash.isOfSpelling (unsignedFloat cs) := by
  unfold unsignedFloat
  simp only [failsAs_ite, failsAs_ok, failsAs_decimalFloat, implies_true, and_true, true_and]
  intros
  exact failsAs_bind (failsAs_checkFloats _) fun _ => failsAs_sumSixties _ _ _

@[simp] theorem failsAs_spelledFloat (text : String) :
    FailsAs Crash.isOfSpelling (spelledFloat text) := by
  unfold spelledFloat
  split <;> simp [Crash.isOfSpelling]

@[simp] theorem failsAs_spelledBool (text : String) :
    FailsAs Crash.isOfSpelling (spelledBool text) := by
  unfold spelledBool
  dsimp only
  split <;> simp [Crash.isOfSpelling]

@[simp] theorem failsAs_spelledTimestamp (text : String) :
    FailsAs Crash.isOfSpelling (spelledTimestamp text) := by
  unfold spelledTimestamp
  dsimp only
  repeat' split
  all_goals simp [Crash.isOfSpelling]

/-! ### Values of nodes -/

/-- Whether a step of a reading is no failure, or one of what the text says. -/
def Step.isOfContent : Step → Bool
  | .failure e => e.isOfContent
  | _ => true

/-- All steps of a reading are failures of what the text says, as far as they are failures. -/
def AreOfContent (steps : List Leveled) : Prop := ∀ s ∈ steps, s.2.isOfContent

section AreOfContent

variable {steps more : List Leveled} {level : Nat}

@[simp] theorem areOfContent_nil : AreOfContent [] := nofun

@[simp] theorem areOfContent_cons {s : Leveled} :
    AreOfContent (s :: steps) ↔ s.2.isOfContent ∧ AreOfContent steps := List.forall_mem_cons

@[simp] theorem areOfContent_append :
    AreOfContent (steps ++ more) ↔ AreOfContent steps ∧ AreOfContent more :=
  List.forall_mem_append

/-- **The first of the failures** is one of what the text says if all of them are. -/
theorem failureOf_isOfContent {demoted readers : List Mark} {steps : List Step} {e : Failure}
    (hsteps : ∀ s ∈ steps, s.isOfContent) (he : failureOf demoted readers steps = some e) :
    e.isOfContent := by
  -- a value key that is read out of its time is malformed where it stands
  fun_induction failureOf demoted readers steps with
  | case1 => cases he
  | case2 => exact Option.some.inj he ▸ hsteps _ List.mem_cons_self
  | case5 | case6 => exact Option.some.inj he ▸ rfl
  | case3 _ _ _ _ ih | case4 _ _ _ _ _ ih | case7 _ _ _ _ _ _ _ ih =>
    exact ih (List.forall_mem_cons.mp hsteps).2 he

theorem failsAs_run {α : Type} {b : Built α} (hsteps : AreOfContent b.steps) :
    FailsAs Failure.isOfContent b.run := by
  intro e he
  have hordered : ∀ s ∈ inOrder b.steps, s.isOfContent := by
    intro s hs
    obtain ⟨leveled, hleveled, rfl⟩ := List.mem_map.mp hs
    exact hsteps leveled (List.mem_mergeSort.mp hleveled)
  unfold Built.run at he
  split at he
  · cases he
  · cases he
    exact failureOf_isOfContent hordered ‹_›

/-- A value that a crash may have prevented fails as the crash does. -/
theorem areOfContent_ofCrash {α : Type} {f : α → Value} {x : Except Crash α}
    (hx : FailsAs Crash.isOfSpelling x) : AreOfContent (Built.ofCrash level f x).steps := by
  cases x with
  | ok a => exact areOfContent_nil
  | error c => simpa [Built.ofCrash, Built.failed, Step.isOfContent] using hx

theorem areOfContent_builtScalar (tag : Tag) (m : Mark) (text : String) :
    AreOfContent (builtScalar level tag m text).steps := by
  unfold builtScalar
  split
  case h_2 => exact areOfContent_ofCrash (failsAs_spelledBool text)
  case h_3 => exact areOfContent_ofCrash (failsAs_spelledInt text)
  case h_4 => exact areOfContent_ofCrash (failsAs_spelledFloat text)
  case h_5 => exact areOfContent_ofCrash (failsAs_spelledTimestamp text)
  case h_6 => split <;> simp [Built.failed, failedAt, Step.isOfContent]
  all_goals simp [Built.failed, failedAt, Step.isOfContent]

mutual

/-- The text of a node that is read as a scalar is missing where the node is none. -/
theorem failsAs_text : ∀ n : Node, FailsAs Failure.isOfContent n.text
  | .scalar _ _ _ => by simp [Node.text]
  | .map o entries => failsAs_textAmong o.mark entries
  | .list _ _ | .cycle _ _ => by simp [Node.text]

theorem failsAs_textAmong (m : Mark) :
    ∀ entries : List (Node × Node), FailsAs Failure.isOfContent (textAmong m entries)
  | [] => by simp [textAmong]
  | (_, v) :: es => by
    rw [textAmong, failsAs_ite]
    exact ⟨fun _ => failsAs_text v, fun _ => failsAs_textAmong m es⟩

end

mutual

/-- Finding the text of a node is no failure by itself. -/
theorem isOfContent_textSteps (reader : Mark) :
    ∀ n : Node, ∀ s ∈ n.textSteps reader, s.isOfContent
  | .map o entries => isOfContent_textStepsAmong reader o.mark entries
  | .scalar _ _ _ | .list _ _ | .cycle _ _ => by simp [Node.textSteps]

theorem isOfContent_textStepsAmong (reader m : Mark) :
    ∀ entries : List (Node × Node), ∀ s ∈ textStepsAmong reader m entries, s.isOfContent
  | [] => by simp [textStepsAmong]
  | (k, v) :: es => by
    rw [textStepsAmong]
    split
    · exact List.forall_mem_cons.mpr ⟨rfl, isOfContent_textSteps reader v⟩
    · exact isOfContent_textStepsAmong reader m es

end

theorem areOfContent_builtText (tag : Tag) (n : Node) :
    AreOfContent (builtText level tag n).steps := by
  unfold builtText
  split
  · refine areOfContent_append.mpr ⟨?_, areOfContent_builtScalar _ _ _⟩
    intro s hs
    obtain ⟨step, hstep, rfl⟩ := List.mem_map.mp hs
    exact isOfContent_textSteps _ n step hstep
  · rename_i e he
    have htext : e.isOfContent := failsAs_text n e he
    split <;> simp [Built.failed, failedAt, Step.isOfContent, htext]

@[simp] theorem areOfContent_mistaken (tag : Tag) (m : Mark) :
    AreOfContent (mistaken level tag m).steps := by
  unfold mistaken
  split <;> simp [failedAt, Step.isOfContent]

/-! Entries are put together out of steps that are of what the text says. -/

@[simp] theorem areOfContent_after {step : Leveled} {e : Entries} :
    AreOfContent (e.after step).steps ↔ step.2.isOfContent ∧ AreOfContent e.steps := by
  simp [Entries.after, Entries.steps, Entries.entrySteps]

theorem areOfContent_takeOver {e inner : Entries} (he : AreOfContent e.steps)
    (hinner : AreOfContent inner.steps) : AreOfContent (e.takeOver inner).steps := by
  simp_all [Entries.takeOver, Entries.steps, Entries.entrySteps]

theorem areOfContent_beside {first further : Entries} (hfirst : AreOfContent first.steps)
    (hfurther : AreOfContent further.steps) : AreOfContent (first.beside further).steps := by
  simp_all [Entries.beside, Entries.none, Entries.steps, Entries.entrySteps]

theorem areOfContent_add {m : Mark} {key value : Built Value} {e : Entries}
    (hkey : AreOfContent key.steps) (hvalue : AreOfContent value.steps)
    (he : AreOfContent e.steps) : AreOfContent (e.add level m key value).steps := by
  have hunusable : AreOfContent (if isKeyValue key.value then [] else [failedAt level m]) := by
    split <;> simp [failedAt, Step.isOfContent]
  simp_all [Entries.add, Entries.steps, Entries.entrySteps]

end AreOfContent

mutual

/-- **The steps of reading a node** are failures of what the text says, as far as they are
failures. -/
theorem areOfContent_built (level : Nat) : ∀ n : Node, AreOfContent (n.built level).steps
  | .cycle _ _ => by simp [Node.built]
  | .scalar tag text m => by
    rw [Node.built]
    split
    · exact areOfContent_mistaken _ _
    · exact areOfContent_builtScalar _ _ _
  | .list o items => by
    rw [Node.built]
    split
    · exact areOfContent_builtItems (level + 1) items
    · exact areOfContent_builtPairs (level + 1) items
    · exact areOfContent_builtPairs (level + 1) items
    · exact areOfContent_mistaken _ _
    · exact areOfContent_mistaken _ _
    · exact areOfContent_builtText _ _
  | .map o entries => by
    have hentries := areOfContent_builtEntries (level + 1) entries
    rw [Node.built]
    split
    · exact hentries
    · exact hentries
    · exact areOfContent_mistaken _ _
    · exact areOfContent_mistaken _ _
    · exact areOfContent_mistaken _ _
    · exact areOfContent_builtText _ _

theorem areOfContent_builtItems (level : Nat) :
    ∀ items : List Node, AreOfContent (builtItems level items).steps
  | [] => by simp [builtItems]
  | n :: ns => by
    rw [builtItems]
    exact areOfContent_append.mpr ⟨areOfContent_built level n, areOfContent_builtItems level ns⟩

theorem areOfContent_builtPairs (level : Nat) :
    ∀ items : List Node, AreOfContent (builtPairs level items).steps
  | [] => by simp [builtPairs]
  | n :: ns => by
    have hrest := areOfContent_builtPairs level ns
    unfold builtPairs
    dsimp only
    split
    · rename_i k v
      simp only [areOfContent_append]
      exact ⟨⟨areOfContent_built level k, areOfContent_built level v⟩, hrest⟩
    · exact hrest
    · exact areOfContent_cons.mpr ⟨rfl, hrest⟩

theorem areOfContent_builtEntries (level : Nat) :
    ∀ entries : List (Node × Node), AreOfContent (builtEntries level entries).steps
  | [] => by simp [builtEntries, Entries.none, Entries.steps, Entries.entrySteps]
  | (k, v) :: es => by
    have hrest := areOfContent_builtEntries level es
    unfold builtEntries
    dsimp only
    split
    · split
      · exact areOfContent_takeOver hrest (areOfContent_builtEntries level _)
      · exact areOfContent_takeOver hrest (areOfContent_builtSources level _)
      · exact hrest
      · exact areOfContent_after.mpr ⟨rfl, hrest⟩
    · have hvalue := areOfContent_built level v
      split
      · have htext : AreOfContent (builtText level .str k).steps := areOfContent_builtText .str k
        exact areOfContent_after.mpr ⟨rfl, areOfContent_add htext hvalue hrest⟩
      · exact areOfContent_add (areOfContent_built level k) hvalue hrest

theorem areOfContent_builtSources (level : Nat) :
    ∀ items : List Node, AreOfContent (builtSources level items).steps
  | [] => by simp [builtSources, Entries.none, Entries.steps, Entries.entrySteps]
  | n :: ns => by
    have hrest := areOfContent_builtSources level ns
    unfold builtSources
    dsimp only
    split
    · exact areOfContent_beside (areOfContent_builtEntries level _) hrest
    · exact hrest
    · exact areOfContent_after.mpr ⟨rfl, hrest⟩

end

theorem failsAs_read (root : Option Node) : FailsAs Failure.isOfContent (Node.read root) := by
  cases root with
  | none => exact failsAs_ok _
  | some n => exact failsAs_run (areOfContent_built 0 n)

end ApiSuite.Yaml

namespace ApiSuite.Document

open Yaml

/-- **The reading of a text** fails on a character that no document may hold exactly if the text
holds one, and on nothing but what the text says otherwise. -/
theorem readYaml_cases (contents : String) :
    if contents.toList.all isAllowed then FailsAs Failure.isOfContent (readYaml contents)
    else readYaml contents = .error .forbidden := by
  split
  · exact failsAs_bind (failsAs_ofString ‹_›) fun root =>
      failsAs_bind_pure (failsAs_read root)
  · rw [readYaml, Node.ofString, if_neg ‹_›]
    rfl

end ApiSuite.Document
