import ApiSuite.Flow.Rows
import ApiSuite.Proofs.Json.Reading
import ApiSuite.Proofs.Schema.Crash
import ApiSuite.Proofs.Values.Table

/-!
# Tables in attributes, inline and as text

An attribute is kept as text, so a table that stands in a document as a list goes through its
compact JSON text: it is written when the attributes are read (`ApiSuite.readAttributes_valid_iff`),
and read back when the rows are asked for. A table that stands there as a text is only read.

Rows of null, texts, truth values and integers come back as they were written
(`ApiSuite.reread_tableOf`), so either way each cell is the text that shows it, one row for each row
and one cell for each cell (`ApiSuite.inline_rows_eq_text_rows`). This holds of every integer that
has a decimal text at all; one past the numeral limit leaves the element unread
(`ApiSuite.inline_hugeCell_is_refused`).
-/

namespace ApiSuite

open Schema

/-! ### Attributes as texts -/

/-- The attributes of an object as texts, those that are null left out. -/
def textFields : List (Value × Value) → Except Value.TextError (List (String × String))
  | [] => .ok []
  | (k, v) :: rest =>
    if v.isNull then textFields rest
    else k.display.bind fun key => (attributeText v).bind fun value =>
      (textFields rest).map ((key, value) :: ·)

/-- Fields put in one by one, each in the place of one with its key. -/
def putFields (seen fields : List (String × String)) : List (String × String) :=
  fields.foldl (fun seen f => insertField f.1 f.2 seen) seen

section Attributes

variable {es before after : List (Value × Value)} {fields seen : List (String × String)}
  {attributes : Option Attributes} {v : Value} {name text : String} {key : AttributeKey}

theorem attributeTexts_eq (es : List (Value × Value)) :
    attributeTexts es = (textFields es).map (List.map fun f => (.str f.1, .str f.2)) := by
  induction es with
  | nil => rfl
  | cons e es ih =>
    obtain ⟨k, v⟩ := e
    cases hn : v.isNull with
    | true => rw [attributeTexts, textFields, if_pos hn, if_pos hn, ih]
    | false =>
      rw [attributeTexts_cons hn, textFields, if_neg (by simp [hn]), ih]
      cases k.display with
      | error e => rfl
      | ok key =>
        cases attributeText v with
        | error e => rfl
        | ok value => cases textFields es <;> rfl

/-- Texts are valid texts. -/
theorem entries_text (fields : List (String × String)) :
    entries Schema.text (fields.map fun f => (.str f.1, .str f.2)) = .valid fields := by
  induction fields with
  | nil => rfl
  | cons f fields ih =>
    rw [List.map_cons, entries, ih]
    rfl

/-- **Attributes are valid just if all of them have texts.** -/
theorem readAttributes_valid_iff :
    readAttributes (.object es) = .valid attributes ↔
      ∃ fields, textFields es = .ok fields ∧ attributes = some (putFields [] fields) := by
  rw [readAttributes, attributeTexts_eq]
  cases textFields es with
  | error e => cases e <;> simp [Except.map, Schema.reject]
  | ok fields =>
    simp only [Except.map, Schema.object, entries_text, Checked.map, Checked.valid.injEq,
      Except.ok.injEq]
    constructor
    · rintro rfl
      exact ⟨fields, rfl, rfl⟩
    · rintro ⟨_, rfl, rfl⟩
      rfl

theorem textFields_cons (hn : v.isNull = false) :
    textFields ((.str name, v) :: after) = .ok fields ↔
      ∃ text others, attributeText v = .ok text ∧ textFields after = .ok others ∧
        fields = (name, text) :: others := by
  rw [textFields, if_neg (by simp [hn]), Value.display_str]
  cases attributeText v with
  | error e => simp [Except.bind]
  | ok text => cases textFields after <;> simp [Except.bind, Except.map, eq_comm]

theorem textFields_append (before after : List (Value × Value)) :
    textFields (before ++ after) =
      (textFields before).bind fun first => (textFields after).map (first ++ ·) := by
  induction before with
  | nil =>
    rw [List.nil_append]
    cases textFields after <;> rfl
  | cons e before ih =>
    obtain ⟨k, v⟩ := e
    rw [List.cons_append, textFields, textFields, ih]
    split
    · rfl
    · cases k.display with
      | error e => rfl
      | ok key =>
        cases attributeText v with
        | error e => rfl
        | ok text =>
          cases textFields before with
          | error e => rfl
          | ok first => cases textFields after <;> rfl

/-- The fields around an attribute are what they are without it. -/
theorem textFields_around (hn : v.isNull = false) :
    textFields (before ++ (.str name, v) :: after) = .ok fields ↔
      ∃ first text others, textFields before = .ok first ∧ attributeText v = .ok text ∧
        textFields after = .ok others ∧ fields = first ++ (name, text) :: others := by
  rw [textFields_append]
  cases hfirst : textFields before with
  | error e => simp [Except.bind]
  | ok first =>
    show (textFields ((.str name, v) :: after)).map (first ++ ·) = .ok fields ↔ _
    constructor
    · intro h
      cases hrest : textFields ((.str name, v) :: after) with
      | error e =>
        rw [hrest] at h
        cases h
      | ok rest =>
        rw [hrest] at h
        obtain ⟨text, others, htext, hothers, rfl⟩ := (textFields_cons hn).mp hrest
        exact ⟨first, text, others, rfl, htext, hothers, (Except.ok.inj h).symm⟩
    · rintro ⟨_, text, others, ⟨⟩, htext, hothers, rfl⟩
      rw [(textFields_cons hn).mpr ⟨text, others, htext, hothers, rfl⟩]
      rfl

/-- The keys of the fields are the texts of the keys. -/
theorem key_of_mem_textFields {f : String × String} (h : textFields es = .ok fields)
    (hf : f ∈ fields) : ∃ e ∈ es, e.1.display = .ok f.1 := by
  induction es generalizing fields with
  | nil =>
    cases Except.ok.inj h
    cases hf
  | cons e es ih =>
    obtain ⟨k, v⟩ := e
    rw [textFields] at h
    split at h
    · obtain ⟨e, he, hkey⟩ := ih h hf
      exact ⟨e, .tail _ he, hkey⟩
    · cases hk : k.display with
      | error e =>
        rw [hk] at h
        cases h
      | ok key =>
        cases hv : attributeText v with
        | error e =>
          rw [hk, hv] at h
          cases h
        | ok text =>
          cases hothers : textFields es with
          | error e =>
            rw [hk, hv, hothers] at h
            cases h
          | ok others =>
            rw [hk, hv, hothers] at h
            cases Except.ok.inj h
            rcases List.mem_cons.mp hf with rfl | hf
            · exact ⟨(k, v), List.mem_cons_self, hk⟩
            · obtain ⟨e, he, hkey⟩ := ih hothers hf
              exact ⟨e, .tail _ he, hkey⟩

theorem lookup_putFields (h : ∀ f ∈ fields, f.1 ≠ name) :
    (putFields seen fields).lookup name = seen.lookup name := by
  induction fields generalizing seen with
  | nil => rfl
  | cons f fields ih =>
    obtain ⟨hf, hfields⟩ := List.forall_mem_cons.mp h
    show (putFields (insertField f.1 f.2 seen) fields).lookup name = _
    rw [ih hfields, lookup_insertField, if_neg (Ne.symm hf)]

/-- **An attribute is kept as its text**, if no later one has its key. -/
theorem attribute?_of_valid (hn : v.isNull = false)
    (hafter : ∀ e ∈ after, e.1.display ≠ .ok key.name)
    (h : readAttributes (.object (before ++ (.str key.name, v) :: after)) = .valid attributes) :
    ∃ text, attributeText v = .ok text ∧ attribute? attributes key = some text := by
  obtain ⟨fields, hfields, rfl⟩ := readAttributes_valid_iff.mp h
  obtain ⟨first, text, others, -, htext, hothers, rfl⟩ := (textFields_around hn).mp hfields
  have hlater : ∀ f ∈ others, f.1 ≠ key.name := by
    intro f hf heq
    obtain ⟨e, he, hkey⟩ := key_of_mem_textFields hothers hf
    exact hafter e he (heq ▸ hkey)
  refine ⟨text, htext, ?_⟩
  show (putFields [] (first ++ (key.name, text) :: others)).lookup key.name = _
  rw [putFields, List.foldl_append, List.foldl_cons]
  show (putFields (insertField key.name text _) others).lookup key.name = _
  rw [lookup_putFields hlater, lookup_insertField, if_pos rfl]

/-- Whether attributes are valid depends on one of them only by whether it has a text. -/
theorem valid_around {w : Value} (hv : v.isNull = false) (hw : w.isNull = false)
    (htext : (∃ s, attributeText v = .ok s) ↔ ∃ s, attributeText w = .ok s) :
    (∃ a, readAttributes (.object (before ++ (.str name, v) :: after)) = .valid a) ↔
      ∃ a, readAttributes (.object (before ++ (.str name, w) :: after)) = .valid a := by
  have hiff : ∀ u : Value, u.isNull = false →
      ((∃ a, readAttributes (.object (before ++ (.str name, u) :: after)) = .valid a) ↔
        (∃ first, textFields before = .ok first) ∧ (∃ s, attributeText u = .ok s) ∧
          ∃ others, textFields after = .ok others) := by
    intro u hu
    simp only [readAttributes_valid_iff, textFields_around hu]
    constructor
    · rintro ⟨_, _, ⟨first, text, others, hfirst, htext, hothers, rfl⟩, rfl⟩
      exact ⟨⟨first, hfirst⟩, ⟨text, htext⟩, others, hothers⟩
    · rintro ⟨⟨first, hfirst⟩, ⟨text, htext⟩, others, hothers⟩
      exact ⟨_, _, ⟨first, text, others, hfirst, htext, hothers, rfl⟩, rfl⟩
  rw [hiff v hv, hiff w hw, htext]

end Attributes

/-! ### Elements -/

section Elements

variable {es : List (Value × Value)} {v : Value} {attributes : Option Attributes}

/-- The attributes of an element are read from its field for them. -/
theorem attributesField_valid_iff (h : Value.lookup "attributes" es = some v) :
    attributesField es = .valid attributes ↔ readAttributes v = .valid attributes := by
  rw [attributesField, Schema.defaulted, h]
  dsimp only
  cases readAttributes v <;> simp [Checked.under]

end Elements

/-! ### Cells and tables -/

/-- A cell of a table. -/
inductive Cell where
  | null
  | text (s : String)
  | truth (b : Bool)
  | whole (n : Int)

/-- A cell as a value. -/
def Cell.value : Cell → Value
  | .null => .null
  | .text s => .str s
  | .truth b => .bool b
  | .whole n => .int n

/-- The text that shows a cell: nothing for null, a text as it is, a truth value as its word with a
capital, an integer in decimal. -/
def Cell.shown : Cell → String
  | .null => ""
  | .text s => s
  | .truth b => if b then "True" else "False"
  | .whole n => toString n

/-- A cell has a decimal text if it needs one. -/
def Cell.IsShort : Cell → Prop
  | .whole n => Value.isHuge n = false
  | _ => True

/-- A table of values as a list of lists. -/
def listOfRows (table : List (List Value)) : Value := .list (table.map .list)

/-- The cells of a row as texts. -/
def rowTexts (row : List Value) : Except Fault (List String) := row.mapM cellText

/-- A table of cells as a list of lists. -/
def tableOf (table : List (List Cell)) : Value := listOfRows (table.map (List.map Cell.value))

section Tables

variable {table : List (List Cell)} {cell : Cell} {raw : String} {attributes : Option Attributes}
  {key : AttributeKey}

theorem cellText_value (h : cell.IsShort) : cellText cell.value = .ok cell.shown := by
  cases cell with
  | null => rfl
  | text s => rfl
  | truth b => cases b <;> rfl
  | whole n =>
    have hhuge : Value.isHuge n = false := h
    simp only [cellText, Cell.value, Value.isNull, Value.display, Value.holdsHuge, hhuge]
    rfl

/-- A table is read back row by row and cell by cell. -/
theorem reread_listOfRows (table : List (List Value)) :
    Json.reread (listOfRows table) = listOfRows (table.map (List.map Json.reread)) := by
  simp only [listOfRows, Json.reread, Json.rereadItems_eq_map, List.map_map]
  congr 1
  refine List.map_congr_left fun row _ => ?_
  simp only [Function.comp_apply, Json.reread, Json.rereadItems_eq_map]

/-- **A table of cells is read back as it was written.** -/
theorem reread_tableOf (table : List (List Cell)) :
    Json.reread (tableOf table) = tableOf table := by
  have hcell : ∀ cell : Cell, Json.reread cell.value = cell.value := by
    intro cell
    cases cell <;> rfl
  rw [tableOf, reread_listOfRows, List.map_map]
  congr 1
  refine List.map_congr_left fun row _ => ?_
  rw [Function.comp_apply, List.map_map]
  exact List.map_congr_left fun cell _ => hcell cell

theorem hasJson_listOfRows {table : List (List Value)} :
    (listOfRows table).HasJson ↔ ∀ row ∈ table, ∀ v ∈ row, v.HasJson := by
  constructor
  · rintro (_ | _ | _ | _ | _ | hrows) row hrow
    rcases hrows _ (List.mem_map_of_mem hrow) with _ | _ | _ | _ | _ | hcells
    exact hcells
  · intro h
    refine .list fun v hv => ?_
    obtain ⟨row, hrow, rfl⟩ := List.mem_map.mp hv
    exact .list (h row hrow)

theorem hasJson_tableOf (h : ∀ row ∈ table, ∀ cell ∈ row, cell.IsShort) :
    (tableOf table).HasJson := by
  refine hasJson_listOfRows.mpr fun values hvalues v hv => ?_
  obtain ⟨row, hrow, rfl⟩ := List.mem_map.mp hvalues
  obtain ⟨cell, hcell, rfl⟩ := List.mem_map.mp hv
  have hshort := h row hrow cell hcell
  cases cell with
  | null => exact .null
  | text s => exact .str s
  | truth b => exact .bool b
  | whole n => exact .int hshort

/-- **An attribute that holds a table gives its rows**, each row cell by cell. -/
theorem attributeRows_of_list {table : List (List Value)}
    (hraw : attribute? attributes key = some raw) (hread : Json.read raw = .ok (listOfRows table)) :
    attributeRows attributes key = table.mapM rowTexts := by
  have hne : (raw == "") = false := by
    refine beq_false_of_ne ?_
    rintro rfl
    cases hread
  have hlists : (table.map Value.list).all Value.isList = true := by simp [Value.isList]
  simp only [attributeRows, hraw, hne, hread, listOfRows, hlists]
  show (table.map Value.list).mapM rowCells = _
  rw [List.mapM_map]
  rfl

/-- The rows of a table of cells are the texts that show them, one row for each row and one text for
each cell. -/
theorem attributeRows_of_cells (h : ∀ row ∈ table, ∀ cell ∈ row, cell.IsShort)
    (hraw : attribute? attributes key = some raw) (hread : Json.read raw = .ok (tableOf table)) :
    attributeRows attributes key = .ok (table.map (List.map Cell.shown)) := by
  rw [attributeRows_of_list hraw hread, List.mapM_map]
  refine mapM_of_forall fun row hrow => ?_
  show (row.map Cell.value).mapM cellText = _
  rw [List.mapM_map]
  exact mapM_of_forall fun cell hcell => cellText_value (h row hrow cell hcell)

end Tables

/-! ### Inline and as text -/

section Encodings

variable {before after es es' : List (Value × Value)} {table : List (List Cell)}
  {key : AttributeKey}

/-- **A table decodes alike inline and as text.** Take two elements whose attributes differ in one:
in the one it is a table of null, texts, truth values and integers with decimal texts, and in the
other a JSON text of that table, such as its compact text. Either both are valid or neither is, and
the rows of both are the rows of the table, with the text that shows it for each cell. -/
theorem inline_rows_eq_text_rows (hshort : ∀ row ∈ table, ∀ cell ∈ row, cell.IsShort)
    (hafter : ∀ e ∈ after, e.1.display ≠ .ok key.name) :
    (∃ text, Json.print .compact (tableOf table) = .ok text ∧
      Json.read text = .ok (tableOf table)) ∧
    ∀ text, Json.read text = .ok (tableOf table) →
      Value.lookup "attributes" es =
        some (.object (before ++ (.str key.name, tableOf table) :: after)) →
      Value.lookup "attributes" es' =
        some (.object (before ++ (.str key.name, .str text) :: after)) →
      ((∃ a, attributesField es = .valid a) ↔ ∃ a, attributesField es' = .valid a) ∧
        (∀ a, attributesField es = .valid a →
          attributeRows a key = .ok (table.map (List.map Cell.shown))) ∧
        ∀ a, attributesField es' = .valid a →
          attributeRows a key = .ok (table.map (List.map Cell.shown)) := by
  obtain ⟨written, hwritten⟩ := Json.print_compact_ok_iff.mpr (hasJson_tableOf hshort)
  have hreread : Json.read written = .ok (tableOf table) := by
    rw [Json.read_print hwritten, reread_tableOf]
  refine ⟨⟨written, hwritten, hreread⟩, fun text htext hes hes' => ⟨?_, ?_, ?_⟩⟩
  · simp only [attributesField_valid_iff hes, attributesField_valid_iff hes']
    exact valid_around rfl rfl ⟨fun _ => ⟨text, rfl⟩, fun _ => ⟨written, hwritten⟩⟩
  · intro a ha
    obtain ⟨kept, hkept, hattribute⟩ :=
      attribute?_of_valid rfl hafter ((attributesField_valid_iff hes).mp ha)
    cases hkept.symm.trans hwritten
    exact attributeRows_of_cells hshort hattribute hreread
  · intro a ha
    obtain ⟨kept, hkept, hattribute⟩ :=
      attribute?_of_valid rfl hafter ((attributesField_valid_iff hes').mp ha)
    cases hkept
    exact attributeRows_of_cells hshort hattribute htext

end Encodings

/-- One row with each kind of cell, the text with a quote, a backslash and a character that takes
two escapes. -/
def mixedTable : List (List Cell) :=
  [[.text "a\"\\𝄞", .null, .truth true, .whole (-12)], []]

/-- The fields of an element with a table of values. -/
def withValues (v : Value) : List (Value × Value) :=
  [(.str "attributes", .object [(.str "values", v)])]

/-- An element is valid if its table has a text. -/
theorem withValues_valid {v : Value} {text : String} (hn : v.isNull = false)
    (h : attributeText v = .ok text) : ∃ a, attributesField (withValues v) = .valid a := by
  have hfields : textFields [(.str "values", v)] = .ok [("values", text)] :=
    (textFields_cons hn).mpr ⟨text, [], h, rfl, rfl⟩
  exact ⟨_, (attributesField_valid_iff rfl).mpr (readAttributes_valid_iff.mpr ⟨_, hfields, rfl⟩)⟩

theorem isShort_mixedTable : ∀ row ∈ mixedTable, ∀ cell ∈ row, cell.IsShort := by
  have hsmall : Value.isHuge (-12) = false := by decide +kernel
  simp [mixedTable, Cell.IsShort, hsmall]

/-- Both forms are valid, and both give the rows. -/
theorem inline_rows_eq_text_rows_mixedTable :
    ∃ text inline fromText, attributesField (withValues (tableOf mixedTable)) = .valid inline ∧
      attributesField (withValues (.str text)) = .valid fromText ∧
      attributeRows inline .values = .ok [["a\"\\𝄞", "", "True", "-12"], []] ∧
      attributeRows fromText .values = .ok [["a\"\\𝄞", "", "True", "-12"], []] := by
  have hafter : ∀ e ∈ ([] : List (Value × Value)), e.1.display ≠ .ok AttributeKey.values.name := by
    simp
  obtain ⟨⟨text, -, hread⟩, -⟩ :=
    @inline_rows_eq_text_rows [] [] [] [] mixedTable .values isShort_mixedTable hafter
  obtain ⟨hvalid, hinline, htext⟩ :=
    (@inline_rows_eq_text_rows [] [] (withValues (tableOf mixedTable)) (withValues (.str text))
      mixedTable .values isShort_mixedTable hafter).2 text hread rfl rfl
  have hkept : ∃ a, attributesField (withValues (.str text)) = .valid a := withValues_valid rfl rfl
  obtain ⟨inline, hin⟩ := hvalid.mpr hkept
  obtain ⟨fromText, hfrom⟩ := hkept
  exact ⟨text, inline, fromText, hin, hfrom, hinline _ hin, htext _ hfrom⟩

/-- The least integer without a decimal text. -/
def leastHuge : Int := Decimal.tenPow Text.numeralLimit

theorem isHuge_leastHuge : Value.isHuge leastHuge = true := by
  rw [Value.isHuge, leastHuge, Int.natAbs_natCast, decide_eq_true_eq]

/-- **A table with an integer past the numeral limit is refused inline**, so it has no rows. -/
theorem inline_hugeCell_is_refused :
    ¬∃ a, attributesField (withValues (tableOf [[.text "a", .whole leastHuge]])) = .valid a := by
  rintro ⟨a, ha⟩
  have hvalid : readAttributes (.object ([] ++ (.str AttributeKey.values.name,
      tableOf [[.text "a", .whole leastHuge]]) :: [])) = .valid a :=
    (attributesField_valid_iff rfl).mp ha
  obtain ⟨written, hwritten, -⟩ := attribute?_of_valid rfl (by simp) hvalid
  have hjson : (tableOf [[.text "a", .whole leastHuge]]).HasJson :=
    Json.print_compact_ok_iff.mp ⟨written, hwritten⟩
  rcases hasJson_listOfRows.mp hjson _ List.mem_cons_self (.int leastHuge)
    (.tail _ List.mem_cons_self) with _ | _ | hsmall
  cases hsmall.symm.trans isHuge_leastHuge

end ApiSuite
