import ApiSuite.Proofs.Flow.Fragments
import ApiSuite.Proofs.Flow.Tables
import ApiSuite.Proofs.Schema.Records

/-!
# Flows that are printed read back

A flow is printed as the indented JSON of a sparse record: links in steps, steps in subflows and in
the flow, and each of these with its attributes. What is printed reads back as the same flow
(`ApiSuite.Flow.printed_reads_back`). Each of the four kinds of element is a record whose parts read
back, so there is one lemma for each kind, built from that for the kind within it.

The one thing that is asked of a flow is that no two attributes of an element are under one key
(`ApiSuite.Flow.HasDistinctKeys`), as an object has one entry for each key. This is what a flow is
that is read from some value, and it is all that a flow is (`ApiSuite.Flow.hasDistinctKeys_iff`).
Normalizing keeps it, since that moves and drops elements only.
-/

namespace ApiSuite

open Schema

/-! ### Distinct keys -/

/-- No two attributes are under one key. -/
def KeysDistinct (attributes : Option Attributes) : Prop :=
  ((attributes.getD []).map Prod.fst).Nodup

instance (attributes : Option Attributes) : Decidable (KeysDistinct attributes) :=
  inferInstanceAs (Decidable (List.Nodup _))

/-- The attributes of a step and of its links are under distinct keys. -/
structure Step.HasDistinctKeys (s : Step) : Prop where
  own : KeysDistinct s.attributes
  links : ∀ l ∈ s.linkList, KeysDistinct l.attributes

/-- The attributes of a subflow and of all its elements are under distinct keys. -/
structure Subflow.HasDistinctKeys (s : Subflow) : Prop where
  own : KeysDistinct s.attributes
  steps : ∀ t ∈ s.stepList, t.HasDistinctKeys

/-- The attributes of a flow and of all its elements are under distinct keys. -/
structure Flow.HasDistinctKeys (f : Flow) : Prop where
  own : KeysDistinct f.attributes
  steps : ∀ s ∈ f.steps, s.HasDistinctKeys
  subflows : ∀ s ∈ f.subflowList, s.HasDistinctKeys

section Normalizing

variable {s : Subflow} {f : Flow}

theorem Subflow.HasDistinctKeys.linearize (h : s.HasDistinctKeys) :
    s.linearize.HasDistinctKeys where
  own := by
    rw [Subflow.linearize_eq]
    exact h.own
  steps := by
    intro t ht
    rw [Subflow.stepList_linearize] at ht
    exact h.steps t (inOrder_subset _ ht)

/-- **Putting a flow in order** moves its elements and drops some, and changes none of their
attributes. -/
theorem Flow.HasDistinctKeys.normalize (h : f.HasDistinctKeys) : f.normalize.HasDistinctKeys where
  own := h.own
  steps := fun s hs => h.steps s (inOrder_subset _ hs)
  subflows := by
    intro s hs
    rw [Flow.subflowList_normalize] at hs
    obtain ⟨t, ht, rfl⟩ := List.mem_map.mp hs
    exact (h.subflows t ((sortSubflows_perm _).mem_iff.mp ht)).linearize

end Normalizing

/-! ### Attributes -/

section Attributes

variable {fields seen : List (String × String)} {attributes : Option Attributes} {sparse : Bool}
  {others : List (String × Value)}

/-- Texts are attributes as they are. -/
theorem textFields_texts (fields : List (String × String)) :
    textFields (fields.map fun f => (.str f.1, .str f.2)) = .ok fields := by
  induction fields with
  | nil => rfl
  | cons field fields ih =>
    rw [List.map_cons]
    exact (textFields_cons rfl).mpr ⟨field.2, fields, rfl, ih, rfl⟩

/-- Fields under distinct keys are put in as they stand. -/
theorem putFields_of_nodup (h : (fields.map Prod.fst).Nodup) : putFields [] fields = fields :=
  foldl_of_nodup (fun seen f => insertField f.1 f.2 seen) id []
    (fun _ _ hnew => insertField_of_not_mem hnew) h

/-- Fields that are put in one by one are under distinct keys. -/
theorem nodup_putFields (h : (seen.map Prod.fst).Nodup) (fields : List (String × String)) :
    ((putFields seen fields).map Prod.fst).Nodup := by
  induction fields generalizing seen with
  | nil => exact h
  | cons field fields ih =>
    refine @ih (insertField field.1 field.2 seen) ?_
    rw [keys_insertField]
    split
    · exact h
    · rename_i hnew
      rw [← List.concat_eq_append]
      exact h.concat (by simpa using hnew)

/-- **Attributes read back.** -/
theorem attributesField_recordEntries (hnames : (others.map Prod.fst).Nodup)
    (h : KeysDistinct attributes)
    (hmem : ("attributes", ofOption ofTextFields attributes) ∈ others) :
    attributesField (recordEntries sparse others) = .valid attributes := by
  cases attributes with
  | none =>
    rw [attributesField, defaulted, lookup_recordEntries hnames hmem]
    cases sparse <;> rfl
  | some fields =>
    have hfound : Value.lookup "attributes" (recordEntries sparse others) =
        some (ofTextFields fields) := by
      rw [lookup_recordEntries hnames hmem]
      cases sparse <;> rfl
    rw [attributesField_valid_iff hfound]
    refine readAttributes_valid_iff.mpr ⟨fields, ?_, ?_⟩
    · rw [List.map_map]
      exact textFields_texts fields
    · exact congrArg some (putFields_of_nodup h).symm

/-- Attributes that are read are under distinct keys. -/
theorem keysDistinct_of_read {v : Value} (h : readAttributes v = .valid attributes) :
    KeysDistinct attributes := by
  cases v with
  | object es =>
    obtain ⟨fields, -, rfl⟩ := readAttributes_valid_iff.mp h
    exact @nodup_putFields [] .nil fields
  | null =>
    cases h
    exact .nil
  | _ => cases h

theorem keysDistinct_of_attributesField {es : List (Value × Value)}
    (h : attributesField es = .valid attributes) : KeysDistinct attributes := by
  unfold attributesField defaulted at h
  split at h
  · exact keysDistinct_of_read (Checked.under_eq_valid_iff.mp h)
  · cases h
    exact .nil

theorem isKept_ofTextFields (h : (fields.map Prod.fst).Nodup) : (ofTextFields fields).IsKept := by
  refine .ofFields ?_ ?_
  · rw [List.map_map]
    exact h
  · intro field hfield
    obtain ⟨f, -, rfl⟩ := List.mem_map.mp hfield
    exact .str f.2

theorem isKept_attributes (h : KeysDistinct attributes) :
    (ofOption ofTextFields attributes).IsKept := by
  refine .ofOption ?_
  rintro fields rfl
  exact isKept_ofTextFields h

end Attributes

/-! ### Elements

What is written of an element is kept by JSON, and read back. The lists of fields are those that the
elements are written with. -/

section Texts

variable {sparse : Bool} {fields : List (String × Value)} {name : String} {o : Option String}

theorem ofText?_eq (o : Option String) : Value.ofText? o = ofOption .str o := by
  cases o <;> rfl

theorem isKept_ofText? (o : Option String) : (Value.ofText? o).IsKept := by
  rw [ofText?_eq]
  exact .ofOption fun s _ => .str s

theorem optional_text (hnames : (fields.map Prod.fst).Nodup)
    (h : (name, Value.ofText? o) ∈ fields) :
    Schema.optional name text (recordEntries sparse fields) = .valid o := by
  rw [ofText?_eq] at h
  exact ReadsBack.optional hnames (fun s _ => readsBack_text s) h

end Texts

section Links

variable {sparse : Bool} {l : Link}

/-- The fields of a link. -/
def Link.fields (l : Link) : List (String × Value) :=
  [("attributes", ofOption ofTextFields l.attributes), ("id", .str l.id), ("to", .str l.target),
    ("event", ofOption (fun e => .str (LinkEvent.name e)) l.event),
    ("result", Value.ofText? l.result)]

theorem Link.toValue_eq : l.toValue sparse = ofRecord sparse l.fields := rfl

theorem Link.nodup_fields : (l.fields.map Prod.fst).Nodup := by
  simp [Link.fields]

theorem Link.isKept (h : KeysDistinct l.attributes) : (l.toValue sparse).IsKept := by
  refine .ofRecord Link.nodup_fields ?_
  simp only [List.forall_mem_cons]
  exact ⟨isKept_attributes h, .str _, .str _, .ofOption fun e _ => .str _, isKept_ofText? _,
    List.forall_mem_nil _⟩

theorem readsBack_event (e : LinkEvent) :
    ReadsBack (choice LinkEvent.words) (fun e => .str (LinkEvent.name e)) e :=
  ⟨rfl, by cases e <;> rfl⟩

theorem Link.readsBack (h : KeysDistinct l.attributes) :
    ReadsBack Link.read (Link.toValue sparse) l where
  notNull := rfl
  holds := by
    have hattributes : attributesField (recordEntries sparse l.fields) = .valid l.attributes :=
      attributesField_recordEntries nodup_fields h (by simp [fields])
    have hid : required "id" text (recordEntries sparse l.fields) = .valid l.id :=
      (readsBack_text l.id).required nodup_fields (by simp [fields])
    have htarget : required "to" text (recordEntries sparse l.fields) = .valid l.target :=
      (readsBack_text l.target).required nodup_fields (by simp [fields])
    have hevent : Schema.optional "event" (choice LinkEvent.words) (recordEntries sparse l.fields) =
        .valid l.event :=
      ReadsBack.optional nodup_fields (fun e _ => readsBack_event e) (by simp [fields])
    have hresult : Schema.optional "result" text (recordEntries sparse l.fields) =
        .valid l.result := optional_text nodup_fields (by simp [fields])
    rw [toValue_eq, ofRecord_eq, Link.read, record, hattributes, hid, htarget, hevent, hresult]
    rfl

end Links

section Steps

variable {sparse : Bool} {s : Step} {steps : List Step}

/-- The fields of a step. -/
def Step.fields (sparse : Bool) (s : Step) : List (String × Value) :=
  [("attributes", ofOption ofTextFields s.attributes), ("id", .str s.id), ("name", .str s.name),
    ("path", .str s.path),
    ("links", ofOption (fun ls => .list (ls.map (Link.toValue sparse))) s.links)]

theorem Step.toValue_eq : s.toValue sparse = ofRecord sparse (s.fields sparse) := rfl

theorem Step.nodup_fields : ((s.fields sparse).map Prod.fst).Nodup := by
  simp [Step.fields]

theorem Step.HasDistinctKeys.of_links {ls : List Link} (h : s.HasDistinctKeys)
    (hls : ls ∈ s.links) : ∀ l ∈ ls, KeysDistinct l.attributes := by
  intro l hl
  refine h.links l ?_
  rw [Step.linkList, Option.mem_def.mp hls]
  exact hl

theorem Step.isKept (h : s.HasDistinctKeys) : (s.toValue sparse).IsKept := by
  refine .ofRecord Step.nodup_fields ?_
  simp only [List.forall_mem_cons]
  refine ⟨isKept_attributes h.own, .str _, .str _, .str _, .ofOption fun ls hls => .list ?_,
    List.forall_mem_nil _⟩
  exact List.forall_mem_map.mpr fun l hl => Link.isKept (h.of_links hls l hl)

theorem Step.readsBack (h : s.HasDistinctKeys) :
    ReadsBack Step.read (Step.toValue sparse) s where
  notNull := rfl
  holds := by
    have hattributes : attributesField (recordEntries sparse (s.fields sparse)) =
        .valid s.attributes := attributesField_recordEntries nodup_fields h.own (by simp [fields])
    have hid : required "id" text (recordEntries sparse (s.fields sparse)) = .valid s.id :=
      (readsBack_text s.id).required nodup_fields (by simp [fields])
    have hname : defaulted "name" "" text (recordEntries sparse (s.fields sparse)) =
        .valid s.name := (readsBack_text s.name).defaulted nodup_fields (by simp [fields])
    have hpath : defaulted "path" "" text (recordEntries sparse (s.fields sparse)) =
        .valid s.path := (readsBack_text s.path).defaulted nodup_fields (by simp [fields])
    have hwhole : ∀ ls ∈ s.links, ReadsBack (Schema.list Link.read)
        (fun ls => .list (ls.map (Link.toValue sparse))) ls :=
      fun ls hls => .list fun l hl => Link.readsBack (h.of_links hls l hl)
    have hlinks : Schema.optional "links" (Schema.list Link.read)
        (recordEntries sparse (s.fields sparse)) = .valid s.links :=
      ReadsBack.optional nodup_fields hwhole (by simp [fields])
    rw [toValue_eq, ofRecord_eq, Step.read, record, hattributes, hid, hname, hpath, hlinks]
    rfl

theorem isKept_steps (h : ∀ s ∈ steps, s.HasDistinctKeys) :
    (Value.list (steps.map (Step.toValue sparse))).IsKept :=
  .list (List.forall_mem_map.mpr fun s hs => Step.isKept (h s hs))

theorem readsBack_steps (h : ∀ s ∈ steps, s.HasDistinctKeys) :
    ReadsBack (Schema.list Step.read) (fun ss => .list (ss.map (Step.toValue sparse))) steps :=
  .list fun s hs => Step.readsBack (h s hs)

end Steps

section Subflows

variable {sparse : Bool} {s : Subflow} {subflows : List Subflow}

/-- The fields of a subflow. -/
def Subflow.fields (sparse : Bool) (s : Subflow) : List (String × Value) :=
  [("attributes", ofOption ofTextFields s.attributes), ("id", .str s.id), ("name", .str s.name),
    ("steps", ofOption (fun ss => .list (ss.map (Step.toValue sparse))) s.steps)]

theorem Subflow.toValue_eq : s.toValue sparse = ofRecord sparse (s.fields sparse) := rfl

theorem Subflow.nodup_fields : ((s.fields sparse).map Prod.fst).Nodup := by
  simp [Subflow.fields]

theorem Subflow.HasDistinctKeys.of_steps {ss : List Step} (h : s.HasDistinctKeys)
    (hss : ss ∈ s.steps) : ∀ t ∈ ss, t.HasDistinctKeys := by
  intro t ht
  refine h.steps t ?_
  rw [Subflow.stepList, Option.mem_def.mp hss]
  exact ht

theorem Subflow.isKept (h : s.HasDistinctKeys) : (s.toValue sparse).IsKept := by
  refine .ofRecord Subflow.nodup_fields ?_
  simp only [List.forall_mem_cons]
  exact ⟨isKept_attributes h.own, .str _, .str _,
    .ofOption fun ss hss => isKept_steps (h.of_steps hss), List.forall_mem_nil _⟩

theorem Subflow.readsBack (h : s.HasDistinctKeys) :
    ReadsBack Subflow.read (Subflow.toValue sparse) s where
  notNull := rfl
  holds := by
    have hattributes : attributesField (recordEntries sparse (s.fields sparse)) =
        .valid s.attributes := attributesField_recordEntries nodup_fields h.own (by simp [fields])
    have hid : required "id" text (recordEntries sparse (s.fields sparse)) = .valid s.id :=
      (readsBack_text s.id).required nodup_fields (by simp [fields])
    have hname : defaulted "name" "" text (recordEntries sparse (s.fields sparse)) =
        .valid s.name := (readsBack_text s.name).defaulted nodup_fields (by simp [fields])
    have hwhole : ∀ ss ∈ s.steps, ReadsBack (Schema.list Step.read)
        (fun ss => .list (ss.map (Step.toValue sparse))) ss :=
      fun ss hss => readsBack_steps (h.of_steps hss)
    have hsteps : Schema.optional "steps" (Schema.list Step.read)
        (recordEntries sparse (s.fields sparse)) = .valid s.steps :=
      ReadsBack.optional nodup_fields hwhole (by simp [fields])
    rw [toValue_eq, ofRecord_eq, Subflow.read, record, hattributes, hid, hname, hsteps]
    rfl

end Subflows

section Flows

variable {sparse : Bool} {f : Flow}

/-- The fields of a flow. -/
def Flow.fields (sparse : Bool) (f : Flow) : List (String × Value) :=
  [("attributes", ofOption ofTextFields f.attributes), ("name", .str f.name),
    ("path", .str f.path), ("steps", .list (f.steps.map (Step.toValue sparse))),
    ("subflows", ofOption (fun ss => .list (ss.map (Subflow.toValue sparse))) f.subflows),
    ("source", Value.ofText? f.source)]

theorem Flow.toValue_eq : f.toValue sparse = ofRecord sparse (f.fields sparse) := rfl

theorem Flow.nodup_fields : ((f.fields sparse).map Prod.fst).Nodup := by
  simp [Flow.fields]

theorem Flow.HasDistinctKeys.of_subflows {ss : List Subflow} (h : f.HasDistinctKeys)
    (hss : ss ∈ f.subflows) : ∀ s ∈ ss, s.HasDistinctKeys := by
  intro s hs
  refine h.subflows s ?_
  rw [Flow.subflowList, Option.mem_def.mp hss]
  exact hs

theorem Flow.isKept (h : f.HasDistinctKeys) : (f.toValue sparse).IsKept := by
  refine .ofRecord Flow.nodup_fields ?_
  simp only [List.forall_mem_cons]
  refine ⟨isKept_attributes h.own, .str _, .str _, isKept_steps h.steps,
    .ofOption fun ss hss => .list ?_, isKept_ofText? _, List.forall_mem_nil _⟩
  exact List.forall_mem_map.mpr fun s hs => Subflow.isKept (h.of_subflows hss s hs)

/-- **A flow that is written as a value is read back from it.** -/
theorem Flow.readsBack (h : f.HasDistinctKeys) :
    ReadsBack Flow.read (Flow.toValue sparse) f where
  notNull := rfl
  holds := by
    have hattributes : attributesField (recordEntries sparse (f.fields sparse)) =
        .valid f.attributes := attributesField_recordEntries nodup_fields h.own (by simp [fields])
    have hname : defaulted "name" "" text (recordEntries sparse (f.fields sparse)) =
        .valid f.name := (readsBack_text f.name).defaulted nodup_fields (by simp [fields])
    have hpath : defaulted "path" "" text (recordEntries sparse (f.fields sparse)) =
        .valid f.path := (readsBack_text f.path).defaulted nodup_fields (by simp [fields])
    -- the main steps are never null, so the check of null is not reached
    have hmain : ReadsBack readSteps (fun ss => .list (ss.map (Step.toValue sparse))) f.steps :=
      ⟨rfl, (readsBack_steps h.steps).holds⟩
    have hsteps : defaulted "steps" [] readSteps (recordEntries sparse (f.fields sparse)) =
        .valid f.steps := hmain.defaulted nodup_fields (by simp [fields])
    have hwhole : ∀ ss ∈ f.subflows, ReadsBack (Schema.list Subflow.read)
        (fun ss => .list (ss.map (Subflow.toValue sparse))) ss :=
      fun ss hss => .list fun s hs => Subflow.readsBack (h.of_subflows hss s hs)
    have hsubflows : Schema.optional "subflows" (Schema.list Subflow.read)
        (recordEntries sparse (f.fields sparse)) = .valid f.subflows :=
      ReadsBack.optional nodup_fields hwhole (by simp [fields])
    have hsource : Schema.optional "source" text (recordEntries sparse (f.fields sparse)) =
        .valid f.source := optional_text nodup_fields (by simp [fields])
    rw [toValue_eq, ofRecord_eq, Flow.read, record, hattributes, hname, hpath, hsteps, hsubflows,
      hsource]
    rfl

end Flows

/-! ### What is read has distinct keys -/

section Reading

variable {α : Type} {check : Check α} {P : α → Prop} {name : String}
  {es : List (Value × Value)} {v : Value}

/-- What a check makes of the items of a list has a property that the check gives each of them. -/
theorem forall_mem_of_list {as : List α} (hcheck : ∀ v a, check v = .valid a → P a)
    (h : Schema.list check v = .valid as) : ∀ a ∈ as, P a := by
  have hitems : ∀ (vs : List Value) (index : Nat) (as : List α),
      items check index vs = .valid as → ∀ a ∈ as, P a := by
    intro vs
    induction vs with
    | nil =>
      intro index as h
      cases h
      exact List.forall_mem_nil _
    | cons v vs ih =>
      intro index as h
      obtain ⟨_, hv, more, hmore, rfl⟩ := Checked.seq_eq_valid_iff.mp h
      obtain ⟨a, ha, rfl⟩ := Checked.map_eq_valid_iff.mp hv
      exact List.forall_mem_cons.mpr
        ⟨hcheck v a (Checked.under_eq_valid_iff.mp ha), ih (index + 1) more hmore⟩
  cases v with
  | list vs | tuple vs | set vs => exact hitems vs 0 as h
  | _ => cases h

/-- So does an optional list. -/
theorem forall_mem_of_optional {o : Option (List α)} (hcheck : ∀ v a, check v = .valid a → P a)
    (h : Schema.optional name (Schema.list check) es = .valid o) : ∀ a ∈ o.getD [], P a := by
  unfold Schema.optional defaulted at h
  split at h
  · rename_i v _
    rw [Checked.under_eq_valid_iff, orNull] at h
    split at h
    · cases h
      exact List.forall_mem_nil _
    · obtain ⟨as, has, rfl⟩ := Checked.map_eq_valid_iff'.mp h
      exact forall_mem_of_list hcheck has
  · cases h
    exact List.forall_mem_nil _

theorem Link.keysDistinct_of_read (l : Link) (h : Link.read v = .valid l) :
    KeysDistinct l.attributes := by
  cases v with
  | object es =>
    simp only [Link.read, record, Checked.seq_eq_valid_iff, Checked.map_eq_valid_iff] at h
    obtain ⟨_, ⟨_, ⟨_, ⟨_, ⟨a, ha, rfl⟩, _, -, rfl⟩, _, -, rfl⟩, _, -, rfl⟩, _, -, rfl⟩ := h
    exact keysDistinct_of_attributesField ha
  | _ => cases h

theorem Step.hasDistinctKeys_of_read (s : Step) (h : Step.read v = .valid s) :
    s.HasDistinctKeys := by
  cases v with
  | object es =>
    simp only [Step.read, record, Checked.seq_eq_valid_iff, Checked.map_eq_valid_iff] at h
    obtain ⟨_, ⟨_, ⟨_, ⟨_, ⟨a, ha, rfl⟩, _, -, rfl⟩, _, -, rfl⟩, _, -, rfl⟩, ls, hls, rfl⟩ := h
    exact ⟨keysDistinct_of_attributesField ha,
      forall_mem_of_optional (fun _ => Link.keysDistinct_of_read) hls⟩
  | _ => cases h

theorem Subflow.hasDistinctKeys_of_read (s : Subflow) (h : Subflow.read v = .valid s) :
    s.HasDistinctKeys := by
  cases v with
  | object es =>
    simp only [Subflow.read, record, Checked.seq_eq_valid_iff, Checked.map_eq_valid_iff] at h
    obtain ⟨_, ⟨_, ⟨_, ⟨a, ha, rfl⟩, _, -, rfl⟩, _, -, rfl⟩, ss, hss, rfl⟩ := h
    exact ⟨keysDistinct_of_attributesField ha,
      forall_mem_of_optional (fun _ => Step.hasDistinctKeys_of_read) hss⟩
  | _ => cases h

theorem Flow.hasDistinctKeys_of_read {f : Flow} (h : Flow.read v = .valid f) :
    f.HasDistinctKeys := by
  cases v with
  | object es =>
    simp only [Flow.read, record, Checked.seq_eq_valid_iff, Checked.map_eq_valid_iff] at h
    obtain ⟨_, ⟨_, ⟨_, ⟨_, ⟨_, ⟨a, ha, rfl⟩, _, -, rfl⟩, _, -, rfl⟩, ss, hss, rfl⟩, us, hus, rfl⟩,
      _, -, rfl⟩ := h
    refine ⟨keysDistinct_of_attributesField ha, ?_,
      forall_mem_of_optional (fun _ => Subflow.hasDistinctKeys_of_read) hus⟩
    unfold defaulted at hss
    split at hss
    · rename_i w _
      rw [Checked.under_eq_valid_iff, readSteps] at hss
      split at hss
      · cases hss
        exact List.forall_mem_nil _
      · exact forall_mem_of_list (fun _ => Step.hasDistinctKeys_of_read) hss
    · cases hss
      exact List.forall_mem_nil _
  | _ => cases h

/-- **A flow is what can be read from some value**: its attributes are under distinct keys, and
nothing else is asked of it. -/
theorem Flow.hasDistinctKeys_iff {f : Flow} :
    f.HasDistinctKeys ↔ ∃ v, Flow.read v = .valid f := by
  constructor
  · intro h
    exact ⟨f.toValue true, (Flow.readsBack h).holds⟩
  · rintro ⟨v, h⟩
    exact Flow.hasDistinctKeys_of_read h

end Reading

/-! ### Printed flows -/

namespace Flow

/-- A text holds a flow: it is the JSON of a value that is read as the flow. -/
def IsHeldBy (s : String) (f : Flow) : Prop :=
  ∃ v, Json.read s = .ok v ∧ Flow.read v = .valid f

variable {f g : Flow} {s : String}

/-- A text holds at most one flow. -/
theorem IsHeldBy.unique (hf : f.IsHeldBy s) (hg : g.IsHeldBy s) : f = g := by
  obtain ⟨v, hv, hf⟩ := hf
  obtain ⟨w, hw, hg⟩ := hg
  obtain rfl : v = w := Except.ok.inj (hv.symm.trans hw)
  exact Checked.valid.inj (hf.symm.trans hg)

theorem HasDistinctKeys.exists_report (h : f.HasDistinctKeys) :
    ∃ s, (f.toValue true).report = .ok s ∧ f.IsHeldBy s := by
  obtain ⟨s, hs, hread⟩ := (Flow.isKept h).exists_report
  exact ⟨s, hs, f.toValue true, hread, (Flow.readsBack h).holds⟩

/-- **What is printed of a flow reads back as the flow.** Every flow, whatever its names, texts,
attributes, links and subflows are, is printed, and the text holds this flow and no other. So what
is printed of a flow in order holds a flow, and that flow put in order is printed as the same
text. -/
theorem printed_reads_back (f : Flow) (h : f.HasDistinctKeys) :
    (∃ s, (f.toValue true).report = .ok s ∧ ∀ g : Flow, g.IsHeldBy s ↔ g = f) ∧
      ∃ s, (f.normalize.toValue true).report = .ok s ∧ (∃ g : Flow, g.IsHeldBy s) ∧
        ∀ g : Flow, g.IsHeldBy s → (g.normalize.toValue true).report = .ok s := by
  constructor
  · obtain ⟨s, hs, hheld⟩ := h.exists_report
    refine ⟨s, hs, fun g => ⟨fun hg => hg.unique hheld, ?_⟩⟩
    rintro rfl
    exact hheld
  · obtain ⟨s, hs, hheld⟩ := h.normalize.exists_report
    refine ⟨s, hs, ⟨_, hheld⟩, fun g hg => ?_⟩
    rw [hg.unique hheld, normalize_normalize]
    exact hs

/-- A flow with a subflow and a link, whose texts have quotes, breaks and characters past the first
plane. -/
def annotated : Flow where
  attributes := some [("values", "[[\"a\", \"\\\"\"]]"), ("", "\u0000\n😀")]
  name := "a/é.ply.flow"
  path := ""
  steps :=
    [⟨none, "b", "x\ty", "", none⟩,
      ⟨some [], "a", "", "start", some [⟨some [("k", "v")], "l", "b", some .error, some ""⟩]⟩]
  subflows := some [⟨some [("when", "Before")], "s", "", some []⟩, ⟨none, "", "", none⟩]
  source := some "steps:\r\n"

theorem hasDistinctKeys_annotated : annotated.HasDistinctKeys where
  own := by decide
  steps := List.forall_mem_cons.mpr ⟨⟨by decide, by decide⟩,
    List.forall_mem_singleton.mpr ⟨by decide, by decide⟩⟩
  subflows := List.forall_mem_cons.mpr ⟨⟨by decide, nofun⟩,
    List.forall_mem_singleton.mpr ⟨by decide, nofun⟩⟩

theorem printed_reads_back_annotated :
    annotated.HasDistinctKeys ∧
      (∃ s, (annotated.toValue true).report = .ok s ∧
        ∀ g : Flow, g.IsHeldBy s ↔ g = annotated) ∧
      ∃ s, (annotated.normalize.toValue true).report = .ok s ∧ (∃ g : Flow, g.IsHeldBy s) ∧
        ∀ g : Flow, g.IsHeldBy s → (g.normalize.toValue true).report = .ok s :=
  ⟨hasDistinctKeys_annotated, printed_reads_back annotated hasDistinctKeys_annotated⟩

end Flow

end ApiSuite
