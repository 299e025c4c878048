import ApiSuite.Proofs.Json.Reading
import ApiSuite.Proofs.Json.Writing
import ApiSuite.Report

/-!
# Records that are written read back

A record is written field by field and checked field by field. What makes the two fit is said of one
part at a time: a check **reads back** what a writer writes (`ApiSuite.Schema.ReadsBack`) if what is
written is not null and holds as what it was written from. A field of a record that reads back does
so within the record, whether the record is sparse or not, since a sparse one leaves out just the
fields that are null, and these are the optional ones (`ApiSuite.Schema.ReadsBack.optional`).

Between the writing and the checking there is a JSON text. Null, texts, lists and objects whose keys
are distinct texts come through it as they are (`ApiSuite.Value.IsKept`), and a record is built from
nothing else. Together, a value that is kept has an indented text that reads back as the value
(`ApiSuite.Value.IsKept.exists_report`).
-/

namespace ApiSuite

/-! ### Checks that hold -/

namespace Schema

section Valid

variable {α β : Type} {x : Checked α} {f : Checked (α → β)} {b : β}

theorem Checked.map_eq_valid_iff {g : α → β} :
    g <$> x = .valid b ↔ ∃ a, x = .valid a ∧ g a = b := by
  show Checked.map g x = _ ↔ _
  cases x <;> simp [Checked.map]

/-- What is put together holds exactly if its parts do. -/
theorem Checked.seq_eq_valid_iff :
    f <*> x = .valid b ↔ ∃ g, f = .valid g ∧ ∃ a, x = .valid a ∧ g a = b := by
  show (Checked.seq f fun _ => x) = _ ↔ _
  cases f <;> cases x <;> simp [Checked.seq, Checked.map]

theorem Checked.map_eq_valid_iff' {g : α → β} :
    Checked.map g x = .valid b ↔ ∃ a, x = .valid a ∧ g a = b := map_eq_valid_iff

theorem Checked.under_eq_valid_iff {l : Location} {a : α} :
    x.under l = .valid a ↔ x = .valid a := by
  cases x <;> simp [Checked.under]

end Valid

/-! ### Entries put in one by one -/

/-- **Entries under distinct keys are put in as they stand**, in whatever form they are held, if an
entry under a new key is put at the end. -/
theorem foldl_of_nodup {α β : Type} {fields : List (String × α)} (put : β → String × α → β)
    (form : List (String × α) → β) (seen : List (String × α))
    (hnew : ∀ seen f, f.1 ∉ seen.map Prod.fst → put (form seen) f = form (seen ++ [f]))
    (h : ((seen ++ fields).map Prod.fst).Nodup) :
    fields.foldl put (form seen) = form (seen ++ fields) := by
  induction fields generalizing seen with
  | nil => rw [List.foldl_nil, List.append_nil]
  | cons field fields ih =>
    have hsplit : seen ++ field :: fields = seen ++ [field] ++ fields := by simp
    have hfield : field.1 ∉ seen.map Prod.fst := by
      intro hmem
      rw [List.map_append, List.map_cons] at h
      exact (List.nodup_append.mp h).2.2 _ hmem _ List.mem_cons_self rfl
    rw [hsplit] at h ⊢
    rw [List.foldl_cons, hnew seen field hfield, ih (seen ++ [field]) h]

/-! ### The fields of a written record -/

/-- Fields as the entries of an object. -/
def entriesOf (fields : List (String × Value)) : List (Value × Value) :=
  fields.map fun f => (.str f.1, f.2)

/-- The entries of a written record. -/
def recordEntries (sparse : Bool) (fields : List (String × Value)) : List (Value × Value) :=
  entriesOf (if sparse then fields.filter fun f => !f.2.isNull else fields)

section Fields

variable {sparse : Bool} {fields : List (String × Value)} {name : String} {v : Value}

theorem ofRecord_eq : ofRecord sparse fields = .object (recordEntries sparse fields) := rfl

/-- A value is found under a text key where the field of that name has it. -/
theorem lookup_fields (fields : List (String × Value)) (name : String) :
    Value.lookup name (entriesOf fields) = fields.lookup name := by
  induction fields with
  | nil => rfl
  | cons field fields ih =>
    obtain ⟨key, w⟩ := field
    rw [entriesOf, List.map_cons, Value.lookup, ← entriesOf, ih, lookup_cons_if]
    show (if (key == name) = true then some w else fields.lookup name) = _
    by_cases hname : name = key
    · rw [if_pos hname, if_pos (beq_iff_eq.mpr hname.symm)]
    · rw [if_neg hname, if_neg fun hkey => hname (beq_iff_eq.mp hkey).symm]

/-- **A field is found in the record**, unless it is null and the record sparse. -/
theorem lookup_recordEntries (hnames : (fields.map Prod.fst).Nodup) (h : (name, v) ∈ fields) :
    Value.lookup name (recordEntries sparse fields) =
      if sparse && v.isNull then none else some v := by
  unfold recordEntries
  rw [lookup_fields]
  cases sparse with
  | false => exact lookup_of_mem hnames h
  | true =>
    have hfiltered : ((fields.filter fun f => !f.2.isNull).map Prod.fst).Nodup :=
      hnames.sublist (List.filter_sublist.map _)
    cases hnull : v.isNull with
    | false => exact lookup_of_mem hfiltered (List.mem_filter.mpr ⟨h, by simp [hnull]⟩)
    | true =>
      -- the field is the only one of its name, and it is left out
      refine List.lookup_eq_none_iff.mpr fun field hfield => ?_
      obtain ⟨hmem, hkept⟩ := List.mem_filter.mp hfield
      rw [bne_iff_ne]
      rintro rfl
      have hsame : field.2 = v :=
        Option.some.inj ((lookup_of_mem hnames hmem).symm.trans (lookup_of_mem hnames h))
      simp [hsame, hnull] at hkept

end Fields

/-! ### Parts that read back -/

/-- A check reads back what a writer writes: it is not null, and holds as what it was written
from. -/
structure ReadsBack {α : Type} (check : Check α) (write : α → Value) (a : α) : Prop where
  notNull : (write a).isNull = false
  holds : check (write a) = .valid a

theorem readsBack_text (s : String) : ReadsBack text .str s := ⟨rfl, rfl⟩

section ReadsBack

variable {α : Type} {check : Check α} {write : α → Value} {a : α} {as : List α} {o : Option α}
  {sparse : Bool} {fields : List (String × Value)} {name : String} {default : α}

theorem items_map (h : ∀ a ∈ as, check (write a) = .valid a) (index : Nat) :
    items check index (as.map write) = .valid as := by
  induction as generalizing index with
  | nil => rfl
  | cons a as ih =>
    obtain ⟨ha, has⟩ := List.forall_mem_cons.mp h
    rw [List.map_cons, items, ha, ih has]
    rfl

/-- A list reads back if its items do. -/
theorem ReadsBack.list (h : ∀ a ∈ as, ReadsBack check write a) :
    ReadsBack (Schema.list check) (fun as => .list (as.map write)) as :=
  ⟨rfl, items_map (fun a ha => (h a ha).holds) 0⟩

section Names

variable (hnames : (fields.map Prod.fst).Nodup)

include hnames

theorem ReadsBack.required (h : ReadsBack check write a) (hmem : (name, write a) ∈ fields) :
    Schema.required name check (recordEntries sparse fields) = .valid a := by
  rw [Schema.required, lookup_recordEntries hnames hmem, h.notNull, Bool.and_false]
  exact Checked.under_eq_valid_iff.mpr h.holds

theorem ReadsBack.defaulted (h : ReadsBack check write a) (hmem : (name, write a) ∈ fields) :
    Schema.defaulted name default check (recordEntries sparse fields) = .valid a := by
  rw [Schema.defaulted, lookup_recordEntries hnames hmem, h.notNull, Bool.and_false]
  exact Checked.under_eq_valid_iff.mpr h.holds

/-- **An optional part reads back**, whether it is there, null or left out. -/
theorem ReadsBack.optional (h : ∀ a ∈ o, ReadsBack check write a)
    (hmem : (name, ofOption write o) ∈ fields) :
    Schema.optional name check (recordEntries sparse fields) = .valid o := by
  cases o with
  | none =>
    rw [Schema.optional, Schema.defaulted, lookup_recordEntries hnames hmem]
    cases sparse <;> rfl
  | some a =>
    have ha := h a rfl
    have hfound : Value.lookup name (recordEntries sparse fields) = some (write a) := by
      refine (lookup_recordEntries (v := write a) hnames hmem).trans ?_
      rw [ha.notNull, Bool.and_false]
      rfl
    have hfield : orNull check (write a) = .valid (some a) := by
      rw [orNull, ha.notNull, ha.holds]
      rfl
    rw [Schema.optional, Schema.defaulted, hfound]
    exact Checked.under_eq_valid_iff.mpr hfield

end Names

end ReadsBack

end Schema

/-! ### What JSON keeps -/

/-- JSON keeps a value: the value has a text, and is read back from it as it is. -/
structure Value.IsKept (v : Value) : Prop where
  hasJson : v.HasJson
  reread : Json.reread v = v

section Kept

open Schema (entriesOf foldl_of_nodup)

variable {fields seen : List (String × Value)} {items : List Value} {v : Value}

/-- An entry under a new text key is put at the end. -/
theorem insert_fields {key : String} (h : key ∉ seen.map Prod.fst) :
    Value.insert (.str key) v (entriesOf seen) = entriesOf (seen ++ [(key, v)]) := by
  induction seen with
  | nil => rfl
  | cons field seen ih =>
    rw [List.map_cons, List.mem_cons, not_or] at h
    have hne : ¬Value.same (.str field.1) (.str key) := by
      rw [Value.same, beq_iff_eq]
      exact Ne.symm h.1
    rw [entriesOf, List.map_cons, ← entriesOf, Value.insert, if_neg hne, ih h.2]
    rfl

/-- **Entries under distinct keys are put together as they stand.** -/
theorem putAll_fields (h : (fields.map Prod.fst).Nodup) :
    Json.putAll [] fields = entriesOf fields :=
  foldl_of_nodup (fun seen f => Value.insert (.str f.1) f.2 seen) entriesOf []
    (fun _ _ hnew => insert_fields hnew) h

theorem rereadEntries_fields (fields : List (String × Value)) :
    Json.rereadEntries (entriesOf fields) = fields.map fun f => (f.1, Json.reread f.2) := by
  induction fields with
  | nil => rfl
  | cons field fields ih =>
    rw [entriesOf, List.map_cons, ← entriesOf, Json.rereadEntries, ih]
    rfl

namespace Value.IsKept

theorem null : Value.null.IsKept := ⟨.null, rfl⟩

theorem str (s : String) : (Value.str s).IsKept := ⟨.str s, rfl⟩

theorem list (h : ∀ v ∈ items, v.IsKept) : (Value.list items).IsKept where
  hasJson := .list fun v hv => (h v hv).hasJson
  reread := by
    have hitems : items.map Json.reread = items :=
      (List.map_congr_left fun v hv => (h v hv).reread).trans (List.map_id' items)
    rw [Json.reread, Json.rereadItems_eq_map, hitems]

/-- **An object is kept** if its keys are distinct texts and its parts are kept. -/
theorem ofFields (hkeys : (fields.map Prod.fst).Nodup) (h : ∀ f ∈ fields, f.2.IsKept) :
    (Value.ofFields fields).IsKept where
  hasJson := by
    refine .object (fun k v hkv => ?_) fun k v hkv => ?_
    all_goals obtain ⟨f, hf, heq⟩ := List.mem_map.mp hkv
    · obtain ⟨rfl, rfl⟩ := Prod.mk.inj heq
      exact .str f.1
    · obtain ⟨rfl, rfl⟩ := Prod.mk.inj heq
      exact (h f hf).hasJson
  reread := by
    have hfields : (fields.map fun f => (f.1, Json.reread f.2)) = fields :=
      (List.map_congr_left fun f hf => by rw [(h f hf).reread]).trans (List.map_id' fields)
    show Json.reread (.object (entriesOf fields)) = _
    rw [Json.reread, rereadEntries_fields, hfields]
    exact congrArg Value.object (putAll_fields hkeys)

/-- A record is kept, sparse or not, if the names of its fields are distinct and its fields are
kept. -/
theorem ofRecord {sparse : Bool} (hnames : (fields.map Prod.fst).Nodup)
    (h : ∀ f ∈ fields, f.2.IsKept) : (Schema.ofRecord sparse fields).IsKept := by
  cases sparse with
  | false => exact ofFields hnames h
  | true =>
    exact ofFields (hnames.sublist (List.filter_sublist.map _)) fun f hf =>
      h f (List.mem_of_mem_filter hf)

theorem ofOption {α : Type} {write : α → Value} {o : Option α} (h : ∀ a ∈ o, (write a).IsKept) :
    (Schema.ofOption write o).IsKept := by
  cases o with
  | none => exact null
  | some a => exact h a rfl

/-- **What JSON keeps has an indented text that holds it.** -/
theorem exists_report (h : v.IsKept) : ∃ s, v.report = .ok s ∧ Json.read s = .ok v := by
  obtain ⟨s, hs⟩ := Json.exists_print .indented h.hasJson
  refine ⟨s, by rw [Value.report, hs]; rfl, ?_⟩
  rw [Json.read_print hs, h.reread]

end Value.IsKept

end Kept

end ApiSuite
