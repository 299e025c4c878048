import ApiSuite.Proofs.Project.Documents
import ApiSuite.Proofs.Schema.Records

/-!
# A flow, loaded and listed

A flow file is loaded as a flow, and it is listed with the steps that can be run of it. Both read
the same document, but a flow that is loaded is given its name and its path, and its source where
that is kept, over what the document says in these fields (`ApiSuite.Project.fileFields`). What is
over in that way is never looked at. So a document with a name that is no text can be loaded and
cannot be listed, and the listing succeeds exactly if the loading does and what the document says
itself in these fields holds (`ApiSuite.OwnFieldsHold`).

The entries that are listed are the steps of the flow that is loaded, in the order in which they
run. That of a step of a subflow has the identifier of the subflow and a dash before its own, unless
that of the subflow is empty, which is taken for none (`ApiSuite.Project.listing_compared`).
-/

namespace ApiSuite

open Schema

/-! ### Texts in fields -/

/-- A value is a text, or octets that encode one. -/
def IsTextual (v : Value) : Prop :=
  ∃ s, v = .str s ∨ ∃ octets, v = .bytes octets ∧ textOfOctets? octets = some s

section Texts

variable {name default : String} {es : List (Value × Value)} {v : Value}

theorem text_valid_iff : (∃ s, text v = .valid s) ↔ IsTextual v := by
  cases v with
  | str s => simp [text, IsTextual]
  | bytes octets =>
    simp only [text, IsTextual, reduceCtorEq, false_or, Value.bytes.injEq]
    cases hoctets : textOfOctets? octets <;> simp [reject, hoctets]
  | _ => simp [text, IsTextual, reject]

/-- A field with a default holds if what there is in it is a text. -/
theorem defaulted_text_valid_iff :
    (∃ s, defaulted name default text es = .valid s) ↔
      ∀ v, Value.lookup name es = some v → IsTextual v := by
  unfold defaulted
  cases Value.lookup name es <;> simp [Checked.under_eq_valid_iff, text_valid_iff]

/-- A field that may be null holds if what there is in it is null or a text. -/
theorem optional_text_valid_iff :
    (∃ s, Schema.optional name text es = .valid s) ↔
      ∀ v, Value.lookup name es = some v → v.isNull = false → IsTextual v := by
  unfold Schema.optional defaulted
  cases hlookup : Value.lookup name es with
  | none => simp
  | some v =>
    cases hnull : v.isNull <;>
      simp [orNull, hnull, Checked.under_eq_valid_iff, Checked.map_eq_valid_iff', text_valid_iff]

end Texts

/-! ### A flow, field by field -/

/-- What a flow has that its file has no part in is read from some entries. -/
@[mk_iff]
structure Flow.BodyRead (es : List (Value × Value)) (f : Flow) : Prop where
  attributes : attributesField es = .valid f.attributes
  steps : defaulted "steps" [] readSteps es = .valid f.steps
  subflows : Schema.optional "subflows" (Schema.list Subflow.read) es = .valid f.subflows

section Fields

variable {es : List (Value × Value)} {f g : Flow}

/-- **A flow is read field by field.** -/
theorem Flow.read_valid_iff :
    Flow.read (.object es) = .valid f ↔
      f.BodyRead es ∧ defaulted "name" "" text es = .valid f.name ∧
        defaulted "path" "" text es = .valid f.path ∧
        Schema.optional "source" text es = .valid f.source := by
  simp only [Flow.read, record, Checked.seq_eq_valid_iff, Checked.map_eq_valid_iff]
  constructor
  · rintro ⟨_, ⟨_, ⟨_, ⟨_, ⟨_, ⟨_, ha, rfl⟩, _, hname, rfl⟩, _, hpath, rfl⟩, _, hs, rfl⟩, _,
      hsub, rfl⟩, _, hsource, rfl⟩
    exact ⟨⟨ha, hs, hsub⟩, hname, hpath, hsource⟩
  · rintro ⟨⟨ha, hs, hsub⟩, hname, hpath, hsource⟩
    exact ⟨_, ⟨_, ⟨_, ⟨_, ⟨_, ⟨_, ha, rfl⟩, _, hname, rfl⟩, _, hpath, rfl⟩, _, hs, rfl⟩, _,
      hsub, rfl⟩, _, hsource, rfl⟩

/-- Fields over others have no part in what a flow has beside its file. -/
theorem Flow.bodyRead_overFields {fields : List (String × Value)}
    (h : ∀ field ∈ fields, field.1 ∉ elementFields) :
    f.BodyRead (overFields fields es) ↔ f.BodyRead es := by
  have hlookup : ∀ name ∈ elementFields,
      Value.lookup name (overFields fields es) = Value.lookup name es :=
    fun _ => lookup_overFields_of_mem h
  simp only [Flow.bodyRead_iff, attributesField, Schema.optional, defaulted,
    hlookup "attributes" (by simp [elementFields]), hlookup "steps" (by simp [elementFields]),
    hlookup "subflows" (by simp [elementFields])]

/-- What is read beside the file is so whatever the file gives. -/
theorem Flow.BodyRead.withFields (h : f.BodyRead es) (name path : String)
    (source : Option String) : Flow.BodyRead es { f with name, path, source } :=
  ⟨h.attributes, h.steps, h.subflows⟩

/-- What is read beside the file has one outcome. -/
theorem Flow.BodyRead.unique (hf : f.BodyRead es) (hg : g.BodyRead es) :
    f.steps = g.steps ∧ f.subflows = g.subflows :=
  ⟨Checked.valid.inj (hf.steps.symm.trans hg.steps),
    Checked.valid.inj (hf.subflows.symm.trans hg.subflows)⟩

end Fields

/-! ### The fields of a file -/

/-- The fields that the flow of a file is given over what its document says. -/
def fileFields (keepSource : Bool) (name path contents : String) : List (String × Value) :=
  [("name", .str name), ("path", .str path)] ++
    if keepSource then [("source", .str contents)] else []

/-- What a document says itself in the fields of its file can be read: its name and its path are
texts, and so is its source, unless that is null. If the source is kept, that of the document is
never looked at otherwise. -/
structure OwnFieldsHold (keepSource : Bool) (es : List (Value × Value)) : Prop where
  name : ∀ v, Value.lookup "name" es = some v → IsTextual v
  path : ∀ v, Value.lookup "path" es = some v → IsTextual v
  source : keepSource = true → ∀ v, Value.lookup "source" es = some v → v.isNull = false →
    IsTextual v

section FileFields

variable {keepSource : Bool} {name path contents : String} {es : List (Value × Value)}
  {f g : Flow}

theorem not_mem_elementFields_of_fileFields :
    ∀ field ∈ fileFields keepSource name path contents, field.1 ∉ elementFields := by
  cases keepSource <;> simp [fileFields, elementFields]

/-- What stands in the fields of a file that are over a document. -/
theorem lookup_fileFields :
    let filed := overFields (fileFields keepSource name path contents) es
    Value.lookup "name" filed = some (.str name) ∧ Value.lookup "path" filed = some (.str path) ∧
      Value.lookup "source" filed =
        if keepSource then some (.str contents) else Value.lookup "source" es := by
  cases keepSource <;> simp [fileFields, overFields, Value.lookup_insert, Value.isText]

/-- A flow with the fields of its file takes its name and path from there, and its source if that is
kept. -/
theorem read_fileFields_valid_iff :
    Flow.read (.object (overFields (fileFields keepSource name path contents) es)) = .valid f ↔
      f.BodyRead es ∧ name = f.name ∧ path = f.path ∧
        if keepSource then some contents = f.source
        else Schema.optional "source" text es = .valid f.source := by
  obtain ⟨hname, hpath, hsource⟩ :=
    @lookup_fileFields keepSource name path contents es
  rw [Flow.read_valid_iff, Flow.bodyRead_overFields not_mem_elementFields_of_fileFields]
  cases keepSource <;>
    simp [hname, hpath, hsource, defaulted, Schema.optional, text, Checked.under_eq_valid_iff,
      orNull, Value.isNull, Checked.map_eq_valid_iff']

theorem OwnFieldsHold.of_read (hg : Flow.read (.object es) = .valid g) :
    OwnFieldsHold keepSource es := by
  obtain ⟨-, hname, hpath, hsource⟩ := Flow.read_valid_iff.mp hg
  exact ⟨defaulted_text_valid_iff.mp ⟨_, hname⟩, defaulted_text_valid_iff.mp ⟨_, hpath⟩,
    fun _ => optional_text_valid_iff.mp ⟨_, hsource⟩⟩

/-- **The document of a flow file holds by itself** exactly if it does with the fields of the file
over it, and its own fields hold. -/
theorem read_valid_iff_of_fileFields :
    (∃ g, Flow.read (.object es) = .valid g) ↔
      (∃ f, Flow.read (.object (overFields (fileFields keepSource name path contents) es)) =
        .valid f) ∧ OwnFieldsHold keepSource es := by
  constructor
  · rintro ⟨g, hg⟩
    obtain ⟨hbody, -, -, hsource⟩ := Flow.read_valid_iff.mp hg
    -- the fields of a file are texts, so they hold in place of any others
    have hover := hbody.withFields name path (if keepSource then some contents else g.source)
    refine ⟨⟨_, read_fileFields_valid_iff.mpr ⟨hover, rfl, rfl, ?_⟩⟩, .of_read hg⟩
    cases keepSource <;> simp [hsource]
  · rintro ⟨⟨f, hf⟩, hown⟩
    obtain ⟨hbody, -, -, hsource⟩ := read_fileFields_valid_iff.mp hf
    obtain ⟨ownName, hname⟩ := defaulted_text_valid_iff.mpr hown.name
    obtain ⟨ownPath, hpath⟩ := defaulted_text_valid_iff.mpr hown.path
    -- only a source that is kept hides that of the document
    have hownSource : ∃ s, Schema.optional "source" text es = .valid s := by
      split at hsource
      · exact optional_text_valid_iff.mpr (hown.source ‹_›)
      · exact ⟨_, hsource⟩
    obtain ⟨ownSource, hsource⟩ := hownSource
    have hbody' := hbody.withFields ownName ownPath ownSource
    exact ⟨_, Flow.read_valid_iff.mpr ⟨hbody', hname, hpath, hsource⟩⟩

end FileFields

/-! ### The entries of a flow -/

/-- The entry of a step, whose identifier has a label before it. -/
def Step.entryUnder (label : String) (s : Step) : TestEntry :=
  ⟨label ++ s.id, s.name, some s.path, none, none⟩

/-- The entries of the steps of subflows in a phase, each under the label of its subflow. -/
def Flow.entriesIn (label : String → String) (f : Flow) (p : Phase) : List TestEntry :=
  (f.subflowList.filter fun s => s.phase == some p).flatMap fun s =>
    s.stepList.map (Step.entryUnder (label s.id))

/-- The entries of a flow in the order in which its steps run: those of the subflows before the main
steps, the main steps, and those of the subflows after them. -/
def Flow.runEntries (label : String → String) (f : Flow) : List TestEntry :=
  f.entriesIn label .before ++ f.steps.map (Step.entryUnder "") ++ f.entriesIn label .after

/-- An identifier and a dash. -/
def dashed (id : String) : String := id ++ "-"

/-- An identifier and a dash, and nothing at all if it is empty. -/
def dashedUnlessEmpty (id : String) : String := if id = "" then "" else dashed id

theorem dashed_eq_iff {id : String} : dashedUnlessEmpty id = dashed id ↔ id ≠ "" := by
  unfold dashedUnlessEmpty dashed
  split
  · rename_i hid
    simp [hid]
  · simp [*]

section Entries

variable {label label' : String → String} {f : Flow}

/-- **The entries that are listed** are those of the steps that run. -/
theorem Flow.testEntries_eq : f.testEntries = f.runEntries dashedUnlessEmpty := by
  have hstep (id : String) : TestEntry.ofStep id = Step.entryUnder (dashedUnlessEmpty id) := by
    funext s
    by_cases hid : id = "" <;>
      simp [TestEntry.ofStep, Step.entryUnder, dashedUnlessEmpty, dashed, hid]
  have hmain : dashedUnlessEmpty "" = "" := rfl
  simp only [testEntries, phaseEntries, runEntries, entriesIn, hstep, hmain]

theorem Step.entryUnder_inj {l l' : String} {s : Step} :
    s.entryUnder l = s.entryUnder l' ↔ l = l' := by
  simp [Step.entryUnder]

theorem length_entriesIn (p : Phase) :
    (f.entriesIn label p).length = (f.entriesIn label' p).length := by
  simp [Flow.entriesIn, List.length_flatMap]

/-- Lists put together of parts of one length each are equal exactly if the parts are. -/
theorem flatMap_eq_iff {α β : Type} {xs : List α} {g h : α → List β}
    (hlen : ∀ x, (g x).length = (h x).length) :
    xs.flatMap g = xs.flatMap h ↔ ∀ x ∈ xs, g x = h x := by
  induction xs with
  | nil => simp
  | cons x xs ih =>
    rw [List.flatMap_cons, List.flatMap_cons, List.append_eq_append_iff_of_size_eq_left (hlen x),
      ih, List.forall_mem_cons]

/-- The entries of a phase are those under other labels exactly if the labels of all subflows that
have a step are the same. -/
theorem entriesIn_eq_iff {p : Phase} :
    f.entriesIn label p = f.entriesIn label' p ↔
      ∀ s ∈ f.subflowList, s.phase = some p → s.stepList ≠ [] → label s.id = label' s.id := by
  unfold Flow.entriesIn
  rw [flatMap_eq_iff (by simp)]
  simp only [List.mem_filter, beq_iff_eq, and_imp, List.map_inj_left, Step.entryUnder_inj]
  refine forall₃_congr fun s _ _ => ?_
  constructor
  · -- one step is enough to tell its label
    intro h hsteps
    obtain ⟨step, hstep⟩ := List.exists_mem_of_ne_nil _ hsteps
    exact h step hstep
  · exact fun h step hstep => h (List.ne_nil_of_mem hstep)

/-- **Labels are seen in the entries**, but for those of subflows without steps and of subflows that
run beside the main steps. -/
theorem runEntries_eq_iff :
    f.runEntries label = f.runEntries label' ↔
      ∀ s ∈ f.subflowList, s.phase ≠ none → s.stepList ≠ [] → label s.id = label' s.id := by
  have hlen := @length_entriesIn label label' f .before
  unfold Flow.runEntries
  rw [List.append_eq_append_iff_of_size_eq_left (by simp [hlen]),
    List.append_eq_append_iff_of_size_eq_left hlen, entriesIn_eq_iff, entriesIn_eq_iff]
  constructor
  · rintro ⟨⟨hbefore, -⟩, hafter⟩ s hs hphase hsteps
    cases hp : s.phase with
    | none => exact absurd hp hphase
    | some p =>
      cases p with
      | before => exact hbefore s hs hp hsteps
      | after => exact hafter s hs hp hsteps
  · intro h
    exact ⟨⟨fun s hs hp => h s hs (by simp [hp]), rfl⟩, fun s hs hp => h s hs (by simp [hp])⟩

end Entries

/-! ### The flow of a file and its listing -/

/-- A document whose own fields hold. -/
def HoldsByItself (keepSource : Bool) (contents : String) : Prop :=
  ∃ es, IsYaml contents (.object es) ∧ OwnFieldsHold keepSource es

section Compared

variable {here : List String} {p : Project} {base path contents name : String}
  {fields : List (String × Value)} {f : Flow} {t : TestFile}

/-- **A flow is read from a document** that is an object, not empty, and holds as a flow with the
given fields over it. -/
theorem Flow.ofDocument_ok_iff :
    Flow.ofDocument path contents fields = .ok f ↔
      ∃ es g, IsYaml contents (.object es) ∧ es ≠ [] ∧
        Flow.read (.object (overFields fields es)) = .valid g ∧ g.cleanNames.normalize = f := by
  have hvalue (v : Value) : Flow.ofValue path fields v = .ok f ↔
      ∃ es g, v = .object es ∧ es ≠ [] ∧
        Flow.read (.object (overFields fields es)) = .valid g ∧ g.cleanNames.normalize = f := by
    unfold Flow.ofValue
    cases hcontent : v.content? with
    | none =>
      simp only [reduceCtorEq, false_iff]
      rintro ⟨es, _, rfl, hne, -⟩
      cases hcontent.symm.trans (content?_eq_some_iff.mpr ⟨rfl, hne⟩)
    | some es =>
      obtain ⟨rfl, hne⟩ := content?_eq_some_iff.mp hcontent
      cases hread : Flow.read (.object (overFields fields es)) <;> simp [hne, hread]
  unfold Flow.ofDocument
  simp only [bind_eq_ok_iff, loadYaml_ok_iff, hvalue]
  constructor
  · rintro ⟨_, hyaml, es, g, rfl, h⟩
    exact ⟨es, g, hyaml, h⟩
  · rintro ⟨es, g, hyaml, h⟩
    exact ⟨_, hyaml, es, g, rfl, h⟩

theorem readFlow_ok_iff :
    p.readFlow base path contents = .ok f ↔
      ∃ name, relativeToBase p.here base path = .ok name ∧
        Flow.ofDocument path contents (fileFields p.options.keepSource name path contents) =
          .ok f := by
  rw [Project.readFlow, bind_eq_ok_iff]
  rfl

theorem ofFlow_ok_iff :
    TestFile.ofFlow here base path contents = .ok t ↔
      ∃ name f, relativeToBase here base path = .ok name ∧
        Flow.ofDocument path contents [] = .ok f ∧ t = ⟨name, .flow, f.testEntries⟩ := by
  rw [TestFile.ofFlow, bind_eq_ok_iff]
  simp only [bind_eq_ok_iff]
  constructor
  · rintro ⟨f, hf, name, hname, ⟨⟩⟩
    exact ⟨name, f, hname, hf, rfl⟩
  · rintro ⟨name, f, hname, hf, rfl⟩
    exact ⟨f, hf, name, hname, rfl⟩

/-- **A flow file can be listed** exactly if it can be loaded and its document holds by itself. -/
theorem ofFlow_ok_iff_readFlow_ok :
    (∃ t, TestFile.ofFlow p.here base path contents = .ok t) ↔
      (∃ f, p.readFlow base path contents = .ok f) ∧
        HoldsByItself p.options.keepSource contents := by
  constructor
  · rintro ⟨t, ht⟩
    obtain ⟨name, f, hname, hdocument, -⟩ := ofFlow_ok_iff.mp ht
    obtain ⟨es, g, hyaml, hne, hread, -⟩ := Flow.ofDocument_ok_iff.mp hdocument
    obtain ⟨⟨g', hread'⟩, hown⟩ := read_valid_iff_of_fileFields.mp ⟨g, hread⟩
    exact ⟨⟨_, readFlow_ok_iff.mpr ⟨name, hname,
      Flow.ofDocument_ok_iff.mpr ⟨es, g', hyaml, hne, hread', rfl⟩⟩⟩, es, hyaml, hown⟩
  · rintro ⟨⟨f, hf⟩, es', hyaml', hown⟩
    obtain ⟨name, hname, hdocument⟩ := readFlow_ok_iff.mp hf
    obtain ⟨es, g, hyaml, hne, hread, -⟩ := Flow.ofDocument_ok_iff.mp hdocument
    obtain rfl : es = es' := Value.object.inj (hyaml.unique hyaml')
    obtain ⟨g', hread'⟩ := read_valid_iff_of_fileFields.mpr ⟨⟨g, hread⟩, hown⟩
    exact ⟨_, ofFlow_ok_iff.mpr ⟨name, _, hname,
      Flow.ofDocument_ok_iff.mpr ⟨es, g', hyaml, hne, hread', rfl⟩, rfl⟩⟩

/-- A flow file that can be loaded and not listed is said to be no flow. -/
theorem ofFlow_error_of_readFlow_ok (hf : p.readFlow base path contents = .ok f)
    (hown : ¬HoldsByItself p.options.keepSource contents) :
    TestFile.ofFlow p.here base path contents =
      .error (.document (.bad .flow path (some .validation))) := by
  obtain ⟨name, -, hdocument⟩ := readFlow_ok_iff.mp hf
  obtain ⟨es, g, hyaml, hne, hread, -⟩ := Flow.ofDocument_ok_iff.mp hdocument
  -- the document alone crashes no more than with the fields of the file, which are no elements
  have hinvalid : ∃ issues, Flow.read (.object es) = .invalid issues := by
    cases hown' : Flow.read (.object es) with
    | valid g' =>
      exact absurd ⟨es, hyaml, .of_read hown'⟩ hown
    | invalid issues => exact ⟨issues, rfl⟩
    | crashed c =>
      have hcrash : (Flow.read (.object es)).Crashes := ⟨c, hown'⟩
      rw [crashes_flow_iff, ← exists_element_overFields not_mem_elementFields_of_fileFields,
        ← crashes_flow_iff, hread] at hcrash
      exact absurd hcrash (Checked.not_crashes_valid g)
  obtain ⟨issues, hissues⟩ := hinvalid
  have hvalue : Flow.ofValue path [] (.object es) =
      .error (.document (.bad .flow path (some .validation))) := by
    have hcontent : (Value.object es).content? = some es := content?_eq_some_iff.mpr ⟨rfl, hne⟩
    have hover : overFields [] es = es := rfl
    simp only [Flow.ofValue, hcontent, hover, hissues]
  have hflow : Flow.ofDocument path contents [] = Flow.ofValue path [] (.object es) := by
    rw [Flow.ofDocument, loadYaml_ok_iff.mpr hyaml]
    rfl
  rw [TestFile.ofFlow, hflow, hvalue]
  rfl

/-- **A flow that is loaded and listed** is listed under its name, with the entries of its steps. -/
theorem listed_of_loaded (hf : p.readFlow base path contents = .ok f)
    (ht : TestFile.ofFlow p.here base path contents = .ok t) :
    t = ⟨f.name, .flow, f.runEntries dashedUnlessEmpty⟩ := by
  obtain ⟨name, hname, hdocument⟩ := readFlow_ok_iff.mp hf
  obtain ⟨es, g, hyaml, -, hread, rfl⟩ := Flow.ofDocument_ok_iff.mp hdocument
  obtain ⟨name', f', hname', hdocument', rfl⟩ := ofFlow_ok_iff.mp ht
  obtain ⟨es', g', hyaml', -, hread', rfl⟩ := Flow.ofDocument_ok_iff.mp hdocument'
  obtain rfl : es = es' := Value.object.inj (hyaml.unique hyaml')
  cases hname.symm.trans hname'
  obtain ⟨hbody, hgname, -⟩ := read_fileFields_valid_iff.mp hread
  obtain ⟨hsteps, hsubflows⟩ := hbody.unique (Flow.read_valid_iff.mp hread').1
  have hentries : g'.cleanNames.normalize.testEntries = g.cleanNames.normalize.testEntries := by
    simp only [Flow.testEntries, Flow.phaseEntries, Flow.subflowList, Flow.normalize,
      Flow.cleanNames, hsteps, hsubflows]
  rw [hentries, Flow.testEntries_eq, hgname]
  rfl

end Compared

namespace Project

/-- **A flow file is listed as it is loaded.** It can be listed exactly if it can be loaded and its
document holds by itself in the fields that the file goes over. If it can be loaded, the listing has
the entries of the loaded flow in the order in which its steps run, or says that the file is no
flow. And all entries of subflows have the dash exactly if the subflows that run before or after the
main steps and have steps have identifiers that are not empty. -/
theorem listing_compared (p : Project) (base path contents : String) :
    ((∃ t, TestFile.ofFlow p.here base path contents = .ok t) ↔
      (∃ f, p.readFlow base path contents = .ok f) ∧
        HoldsByItself p.options.keepSource contents) ∧
    ∀ f, p.readFlow base path contents = .ok f →
      (HoldsByItself p.options.keepSource contents ∧
          TestFile.ofFlow p.here base path contents =
            .ok ⟨f.name, .flow, f.runEntries dashedUnlessEmpty⟩ ∨
        ¬HoldsByItself p.options.keepSource contents ∧
          TestFile.ofFlow p.here base path contents =
            .error (.document (.bad .flow path (some .validation)))) ∧
      (f.runEntries dashedUnlessEmpty = f.runEntries dashed ↔
        ∀ s ∈ f.subflowList, s.phase ≠ none → s.stepList ≠ [] → s.id ≠ "") := by
  refine ⟨ofFlow_ok_iff_readFlow_ok, fun f hf => ⟨?_, ?_⟩⟩
  · by_cases hown : HoldsByItself p.options.keepSource contents
    · obtain ⟨t, ht⟩ := ofFlow_ok_iff_readFlow_ok.mpr ⟨⟨f, hf⟩, hown⟩
      exact .inl ⟨hown, by rw [ht, listed_of_loaded hf ht]⟩
    · exact .inr ⟨hown, ofFlow_error_of_readFlow_ok hf hown⟩
  · simp only [runEntries_eq_iff, dashed_eq_iff]

/-- A project without files, in which no sources are kept. -/
def bare : Project := ⟨⟨[]⟩, [], ⟨none, none, none, false, .default⟩⟩

/-- A flow with a number for its name. -/
def numberedFlow : String := "name: 1\nsteps: []\n"

/-- A flow with a subflow before it that has the empty text for its identifier. -/
def unnamedFlow : String :=
  "steps:\n- id: s1\nsubflows:\n- id: ''\n  attributes:\n    when: Before\n  steps:\n  - id: s2\n"

/-- **Not every flow that is loaded is listed**, and not every entry of a subflow has the dash. -/
theorem listing_differs :
    (¬∀ (p : Project) (base path contents : String),
      (∃ t, TestFile.ofFlow p.here base path contents = .ok t) ↔
        ∃ f, p.readFlow base path contents = .ok f) ∧
    ¬∀ (p : Project) (base path contents : String) (f : Flow) (t : TestFile),
      p.readFlow base path contents = .ok f →
        TestFile.ofFlow p.here base path contents = .ok t → t.tests = f.runEntries dashed := by
  refine ⟨fun h => ?_, fun h => ?_⟩
  · have hloaded : (bare.readFlow "." "a.ply.flow" numberedFlow).toOption.map Flow.name =
        some "a.ply.flow" := by decide +kernel
    have hrefused : (TestFile.ofFlow bare.here "." "a.ply.flow" numberedFlow).toOption = none := by
      decide +kernel
    obtain ⟨f, hf, -⟩ := exists_eq_ok hloaded
    obtain ⟨t, ht⟩ := (h bare "." "a.ply.flow" numberedFlow).mpr ⟨f, hf⟩
    rw [ht] at hrefused
    cases hrefused
  · have hloaded : (bare.readFlow "." "a.ply.flow" unnamedFlow).toOption.map
        (Flow.runEntries dashed) =
        some [⟨"-s2", "", some "", none, none⟩, ⟨"s1", "", some "", none, none⟩] := by
      decide +kernel
    have hlisted : (TestFile.ofFlow bare.here "." "a.ply.flow" unnamedFlow).toOption.map
        TestFile.tests =
        some [⟨"s2", "", some "", none, none⟩, ⟨"s1", "", some "", none, none⟩] := by
      decide +kernel
    obtain ⟨f, hf, hentries⟩ := exists_eq_ok hloaded
    obtain ⟨t, ht, htests⟩ := exists_eq_ok hlisted
    have hequal := h bare "." "a.ply.flow" unnamedFlow f t hf ht
    rw [hentries, htests] at hequal
    exact absurd hequal (by decide)

end Project

end ApiSuite
