import ApiSuite.Flow.Fragment
import ApiSuite.Proofs.Template.Filling
import ApiSuite.Values.Table

/-!
# What the table of a flow is stored as

A table is gone through row by row. What a row stores under its name depends on its value cell
alone (`ApiSuite.RowStores`): nothing if the cell is empty, what the cell resolves to if it is in a
wrapper as a whole, and the text of the cell itself otherwise. One row goes over the values of the
rows before it (`ApiSuite.lookup_insertField`), so after the whole table a name has the value of the
last row that stores one for it (`ApiSuite.lookup_tableValues`).

A wrapper is recognized by the ends of the cell, and embedded expressions are found anywhere in it.
So a cell that holds an expression is stored resolved or not at all just if it is in a wrapper as a
whole, or resolves to itself (`ApiSuite.Flow.holder_stores`). A text before or after the expressions
makes it a cell like any other (`ApiSuite.Flow.template_is_stored_as_written`).
-/

namespace ApiSuite

/-! ### Cells -/

section Cells

variable {row : List String} {i : Nat} {s : String}

theorem cell?_eq_some_iff : cell? row i = some s ↔ row[i]? = some s ∧ s ≠ "" := by
  unfold cell?
  split
  · rename_i hcell
    simp only [hcell, reduceCtorEq, Option.some.injEq, false_iff, not_and, not_not]
    exact Eq.symm
  · rename_i hcell
    refine ⟨fun h => ⟨h, fun hs => hcell (hs ▸ h)⟩, And.left⟩

theorem cell?_eq_none_iff : cell? row i = none ↔ row[i]? = none ∨ row[i]? = some "" := by
  unfold cell?
  split
  · rename_i hcell
    simp [hcell]
  · rename_i hcell
    exact ⟨.inl, fun h => h.resolve_right hcell⟩

end Cells

/-- A text as a whole is in a wrapper exactly if it is one around some text. -/
theorem Template.isWrapped_iff {s : String} :
    isWrapped s = true ↔ ∃ body, s.toList = wrap body := by
  unfold isWrapped
  split
  · rename_i cs hs
    rw [hs, beq_iff_eq, List.getLast?_eq_some_iff]
    exact exists_congr fun body => by simp [wrap]
  · rename_i hs
    refine iff_of_false Bool.false_ne_true ?_
    rintro ⟨body, hbody⟩
    exact hs (body ++ ['}']) hbody

/-! ### What a row stores -/

/-- What a row stores under its name, if it stores anything. -/
inductive RowStores (trusted : Bool) (context : Value) (row : List String) :
    Option Value → Prop
  /-- There is nothing in the value cell. -/
  | nothing (h : cell? row 1 = none) : RowStores trusted context row none
  /-- The cell as a whole is in a wrapper: what it resolves to, if anything. -/
  | resolved {cell : String} {found : Option Value} (hcell : cell? row 1 = some cell)
      (hwrapped : Template.isWrapped cell = true)
      (h : (Template.resolve trusted context cell).result = .ok found) :
      RowStores trusted context row found
  /-- Any other cell as it is written. -/
  | verbatim {cell : String} (hcell : cell? row 1 = some cell)
      (hwrapped : Template.isWrapped cell = false) :
      RowStores trusted context row (some (.str cell))

section Rows

variable {trusted : Bool} {context v w : Value} {row : List String} {stored : Option Value}
  {rows : List (List String)} {found fields : List (String × Value)} {required names : List String}
  {name key : String} {mark : Bool}

theorem rowStores_iff :
    RowStores trusted context row stored ↔ (rowValue trusted context row).result = .ok stored := by
  constructor
  · intro h
    rcases h with h | ⟨hcell, hwrapped, h⟩ | ⟨hcell, hwrapped⟩
    · rcases cell?_eq_none_iff.mp h with hnone | hempty
      · simp [rowValue, hnone]
      · simp [rowValue, hempty]
    · obtain ⟨hcell, hne⟩ := cell?_eq_some_iff.mp hcell
      simpa [rowValue, hcell, hne, hwrapped] using h
    · obtain ⟨hcell, hne⟩ := cell?_eq_some_iff.mp hcell
      simp [rowValue, hcell, hne, hwrapped]
  · intro h
    unfold rowValue at h
    split at h
    · rename_i hnone
      cases Except.ok.inj h
      exact .nothing (cell?_eq_none_iff.mpr (.inl hnone))
    · rename_i text htext
      split at h
      · rename_i hempty
        cases Except.ok.inj h
        exact .nothing (cell?_eq_none_iff.mpr (.inr (by rw [htext, eq_of_beq hempty])))
      · rename_i hne
        have hcell : cell? row 1 = some text :=
          cell?_eq_some_iff.mpr ⟨htext, fun heq => hne (by simp [heq])⟩
        split at h
        · rename_i hwrapped
          exact .resolved hcell hwrapped h
        · rename_i hwrapped
          cases Except.ok.inj h
          exact .verbatim hcell (Bool.eq_false_iff.mpr hwrapped)

/-- A row stores one thing only. -/
theorem RowStores.unique {stored' : Option Value} (h : RowStores trusted context row stored)
    (h' : RowStores trusted context row stored') : stored = stored' :=
  Except.ok.inj ((rowStores_iff.mp h).symm.trans (rowStores_iff.mp h'))

/-! ### Going through a table -/

/-- The fields with what a row stores under its name. -/
def storeUnder (name : String) (stored : Option Value) (fields : List (String × Value)) :
    List (String × Value) :=
  match stored with
  | some v => Schema.insertField name v fields
  | none => fields

/-- A row without a name is passed over. -/
theorem tableValues_cons_unnamed (h : cell? row 0 = none) :
    tableValues trusted context found required (row :: rows) =
      tableValues trusted context found required rows := by
  rcases row with _ | ⟨first, row⟩
  · rfl
  · have hempty : first = "" := by simpa [cell?_eq_none_iff] using h
    rw [hempty]
    rfl

/-- **One step of going through a table**: a row with a name gives its value to that name, and adds
it to the required names if it is marked. -/
theorem result_tableValues_cons (h : cell? row 0 = some name) :
    (tableValues trusted context found required (row :: rows)).result =
      (rowValue trusted context row).result.bind fun stored =>
        (rowRequired trusted context row).result.bind fun mark =>
          (tableValues trusted context (storeUnder name stored found)
            (if mark then required ++ [name] else required) rows).result := by
  obtain ⟨hname, hne⟩ := cell?_eq_some_iff.mp h
  rcases row with _ | ⟨first, row⟩
  · cases hname
  · obtain rfl : first = name := by simpa using hname
    rw [tableValues.eq_def]
    simp only [Traced.result_bind]
    rfl

/-- A table is gone through to its end exactly if each of its rows with a name is. -/
theorem tableValues_ok_iff :
    (∃ out, (tableValues trusted context found required rows).result = .ok out) ↔
      ∀ row ∈ rows, ∀ name, cell? row 0 = some name →
        (∃ stored, RowStores trusted context row stored) ∧
          ∃ mark, (rowRequired trusted context row).result = .ok mark := by
  simp only [rowStores_iff]
  induction rows generalizing found required with
  | nil => simp [tableValues]
  | cons row rows ih =>
    rw [List.forall_mem_cons]
    cases hrow : cell? row 0 with
    | none =>
      rw [tableValues_cons_unnamed hrow, ih]
      simp
    | some name =>
      rw [result_tableValues_cons hrow]
      cases hvalue : (rowValue trusted context row).result with
      | error fault => simp [Except.bind]
      | ok stored =>
        cases hmark : (rowRequired trusted context row).result with
        | error fault => simp [Except.bind]
        | ok mark =>
          simp only [Except.bind, ih]
          simp

theorem lookup_storeUnder :
    (storeUnder key stored fields).lookup name =
      if name = key ∧ stored.isSome then stored else fields.lookup name := by
  cases stored with
  | none => simp [storeUnder]
  | some v => simp [storeUnder, Schema.lookup_insertField]

/-- The last row of a name that stores a value stores this one. -/
def StoresLast (trusted : Bool) (context : Value) (rows : List (List String)) (name : String)
    (v : Value) : Prop :=
  ∃ before row after, rows = before ++ row :: after ∧ cell? row 0 = some name ∧
    RowStores trusted context row (some v) ∧
    ∀ later ∈ after, cell? later 0 = some name → RowStores trusted context later none

/-- None of the rows of a name stores a value. -/
def StoresNone (trusted : Bool) (context : Value) (rows : List (List String)) (name : String) :
    Prop :=
  ∀ row ∈ rows, cell? row 0 = some name → RowStores trusted context row none

theorem storesLast_cons :
    StoresLast trusted context (row :: rows) name v ↔
      StoresLast trusted context rows name v ∨
        cell? row 0 = some name ∧ RowStores trusted context row (some v) ∧
          StoresNone trusted context rows name := by
  constructor
  · rintro ⟨before, last, after, hrows, hname, hstores, hafter⟩
    rcases before with _ | ⟨first, before⟩
    · obtain ⟨rfl, rfl⟩ := List.cons.inj hrows
      exact .inr ⟨hname, hstores, hafter⟩
    · obtain ⟨rfl, rfl⟩ := List.cons.inj hrows
      exact .inl ⟨before, last, after, rfl, hname, hstores, hafter⟩
  · rintro (⟨before, last, after, rfl, hlast⟩ | ⟨hname, hstores, hafter⟩)
    · exact ⟨row :: before, last, after, rfl, hlast⟩
    · exact ⟨[], row, rows, rfl, hname, hstores, hafter⟩

/-- **What a name has after a table**: the value of its last row that stores one, or else what it
had before. -/
theorem lookup_tableValues
    (h : (tableValues trusted context found required rows).result = .ok (fields, names)) :
    fields.lookup name = some v ↔
      StoresLast trusted context rows name v ∨
        found.lookup name = some v ∧ StoresNone trusted context rows name := by
  induction rows generalizing found required with
  | nil =>
    cases Except.ok.inj h
    simp [StoresLast, StoresNone]
  | cons row rows ih =>
    cases hrow : cell? row 0 with
    | none =>
      rw [tableValues_cons_unnamed hrow] at h
      rw [ih h, storesLast_cons]
      simp [StoresNone, hrow]
    | some key =>
      rw [result_tableValues_cons hrow] at h
      cases hvalue : (rowValue trusted context row).result with
      | error fault =>
        rw [hvalue] at h
        cases h
      | ok stored =>
        cases hmark : (rowRequired trusted context row).result with
        | error fault =>
          rw [hvalue, hmark] at h
          cases h
        | ok mark =>
          rw [hvalue, hmark] at h
          have hstores : ∀ other, RowStores trusted context row other ↔ other = stored := by
            intro other
            rw [rowStores_iff, hvalue]
            exact ⟨fun heq => (Except.ok.inj heq).symm, fun heq => congrArg Except.ok heq.symm⟩
          rw [ih h, storesLast_cons, lookup_storeUnder]
          simp only [StoresNone, List.forall_mem_cons, hrow, hstores, Option.some.injEq]
          by_cases hname : key = name
          · subst hname
            cases stored <;> simp [eq_comm]
          · have hne : ¬name = key := fun heq => hname heq.symm
            simp [hname, hne]

end Rows

/-! ### What the holder of a flow stores -/

/-- How the rows of the table of a flow are stored. -/
structure Flow.StoresRows (f : Flow) (trusted : Bool) (context : Value)
    (rows : List (List String)) : Prop where
  /-- The table is read to its end exactly if what each row with a name stores and whether it is
  required come out. -/
  ends : (∃ holder, (f.holder trusted context).result = .ok holder) ↔
    ∀ row ∈ rows, ∀ name, cell? row 0 = some name →
      (∃ stored, RowStores trusted context row stored) ∧
        ∃ mark, (rowRequired trusted context row).result = .ok mark
  /-- A name has the value of its last row that stores one. -/
  lasts : ∀ holder, (f.holder trusted context).result = .ok holder →
    ∃ fields, holder.values = .object fields ∧
      ∀ name v, fields.lookup name = some v ↔ StoresLast trusted context rows name v
  /-- A cell with an expression in it is stored resolved or not at all exactly if it is in a wrapper
  as a whole, or resolves to itself. -/
  resolves : ∀ row ∈ rows, ∀ cell, cell? row 1 = some cell → Template.isPlain cell = false →
    ((∀ stored, RowStores trusted context row stored →
        stored = none ∨ (Template.resolve trusted context cell).result = .ok stored) ↔
      (∃ body, cell.toList = Template.wrap body) ∨
        (Template.resolve trusted context cell).result = .ok (some (.str cell)))

section Holder

variable {f : Flow} {rows : List (List String)} {row : List String} {cell : String}

theorem result_holder (h : attributeRows f.attributes .values = .ok rows) (trusted : Bool)
    (context : Value) :
    (f.holder trusted context).result =
      (tableValues trusted context [] [] rows).result.map fun (fields, names) =>
        { values := .object fields, location := some ⟨f.path, none⟩
          required := if names.isEmpty then none else some names } := by
  simp only [Flow.holder, Traced.result_bind, Traced.result_ofExcept, h, Except.bind]
  cases (tableValues trusted context [] [] rows).result <;> rfl

/-- What is stored of a cell is what it resolves to if it is in a wrapper as a whole, and otherwise
only if it resolves to itself. -/
theorem stored_resolved_iff {trusted : Bool} {context : Value} (hcell : cell? row 1 = some cell) :
    (∀ stored, RowStores trusted context row stored →
        stored = none ∨ (Template.resolve trusted context cell).result = .ok stored) ↔
      (∃ body, cell.toList = Template.wrap body) ∨
        (Template.resolve trusted context cell).result = .ok (some (.str cell)) := by
  rw [← Template.isWrapped_iff]
  cases hwrapped : Template.isWrapped cell with
  | false =>
    have hstores : RowStores trusted context row (some (.str cell)) := .verbatim hcell hwrapped
    constructor
    · intro h
      exact (h _ hstores).imp (fun hnone => by cases hnone) id
    · rintro (hfalse | hself) stored hstored
      · cases hfalse
      · exact .inr (hstored.unique hstores ▸ hself)
  | true =>
    refine ⟨fun _ => .inl rfl, fun _ stored hstored => .inr ?_⟩
    rcases hstored with hnone | ⟨hcell', -, hfound⟩ | ⟨hcell', hwrapped'⟩
    · cases hnone.symm.trans hcell
    · cases hcell'.symm.trans hcell
      exact hfound
    · cases hcell'.symm.trans hcell
      cases hwrapped'.symm.trans hwrapped

/-- **The rows of a table are stored one by one**, the last of a name counts, and a cell that holds
an expression is stored resolved or not at all just if it is in a wrapper as a whole. -/
theorem Flow.holder_stores (h : attributeRows f.attributes .values = .ok rows) (trusted : Bool)
    (context : Value) : f.StoresRows trusted context rows where
  ends := by
    have htable : (∃ out, (tableValues trusted context [] [] rows).result = .ok out) ↔ _ :=
      tableValues_ok_iff
    rw [← htable, result_holder h]
    cases (tableValues trusted context [] [] rows).result with
    | error fault => simp [Except.map]
    | ok out => simp [Except.map]
  lasts holder hholder := by
    rw [result_holder h] at hholder
    cases htable : (tableValues trusted context [] [] rows).result with
    | error fault =>
      rw [htable] at hholder
      cases hholder
    | ok out =>
      rw [htable] at hholder
      cases Except.ok.inj hholder
      refine ⟨out.1, rfl, fun name v => ?_⟩
      rw [lookup_tableValues htable]
      simp
  resolves _ _ _ hcell _ := stored_resolved_iff hcell

end Holder

/-- A flow with a table and nothing else. -/
def tableFlow (table : String) : Flow :=
  ⟨some [("values", table)], "", "f.ply.flow", [], none, none⟩

/-- A table with two rows of one name, and between them one whose cell is a template in a
wrapper. -/
def repeatedName : List (List String) :=
  [["a", "$\x7bb\x7d"], ["d", "$\x7bb\x7d x $\x7bb\x7d"], ["a", "$\x7bc\x7d"]]

/-- The same as text. -/
def repeatedNameText : String :=
  "[[\"a\", \"$\x7bb\x7d\"], [\"d\", \"$\x7bb\x7d x $\x7bb\x7d\"], " ++
    "[\"a\", \"$\x7bc\x7d\"]]"

theorem Flow.holder_stores_repeatedName :
    attributeRows (tableFlow repeatedNameText).attributes .values = .ok repeatedName ∧
      (tableFlow repeatedNameText).StoresRows false (.ofFields [("b", .int 1)]) repeatedName := by
  have hrows : attributeRows (tableFlow repeatedNameText).attributes .values = .ok repeatedName :=
    eq_ok (by decide +kernel)
  exact ⟨hrows, Flow.holder_stores hrows _ _⟩

/-- **A template with text around its expressions is stored as it is written**, though it resolves
to nothing. -/
theorem Flow.template_is_stored_as_written :
    Template.isPlain "x $\x7bb\x7d" = false ∧
      (Template.resolve false (.object []) "x $\x7bb\x7d").result = .ok none ∧
      ((tableFlow "[[\"a\", \"x $\x7bb\x7d\"]]").holder false (.object [])).result =
        .ok ⟨.object [("a", .str "x $\x7bb\x7d")], some ⟨"f.ply.flow", none⟩, none⟩ := by
  have hnone : (Template.resolve false (.object []) "x $\x7bb\x7d").result.toOption.map
      Option.isNone = some true := by
    decide +kernel
  refine ⟨by decide +kernel, eq_ok_none hnone, ?_⟩
  have hrows : attributeRows (tableFlow "[[\"a\", \"x $\x7bb\x7d\"]]").attributes .values =
      .ok [["a", "x $\x7bb\x7d"]] := eq_ok (by decide +kernel)
  rw [result_holder hrows]
  rfl

end ApiSuite
