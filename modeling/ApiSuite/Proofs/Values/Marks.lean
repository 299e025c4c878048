import ApiSuite.Proofs.Flow.Tables
import ApiSuite.Proofs.Project.Documents

/-!
# Marks for required values

The third cell of a row says whether its value is required. A document can say so by a truth value
or by its word, but rows are texts, and the text that shows a truth value has a capital, which the
word has not. So the two spellings are told apart: `False` counts as `false` does, since neither is
the word `true`, and `True` counts as `false`, too.

Two tables that differ in the spelling of their marks have the same rows up to that capital
(`ApiSuite.respell_rows`). Going through them side by side, what each row stores stays the same, and
the second list of required names has the names of the first and one more for each row whose mark is
lost (`ApiSuite.tableValues_respell`). Hence the required names are the same just if no mark is
lost, and a row with a condition loses none (`ApiSuite.marks_compared`).
-/

namespace ApiSuite

/-! ### Spellings of marks -/

/-- A truth value as its word, and any other value as it is. -/
def wordOf : Value → Value
  | .bool b => .str (if b then "true" else "false")
  | v => v

/-- A row with its mark as a word. -/
def wordMark (row : List Value) : List Value := row.modify 2 wordOf

/-- The mark of a row, if it has one, is a truth value or the word for one. -/
def IsMarked (row : List Value) : Prop :=
  ∀ v, row[2]? = some v → (∃ b, v = .bool b) ∨ v = .str "true" ∨ v = .str "false"

/-- The word for what shows a truth value, and any other text as it is. -/
def respell (s : String) : String :=
  if s = "True" then "true" else if s = "False" then "false" else s

/-- The cells of a row with the mark respelled. -/
def respellMark (cells : List String) : List String := cells.modify 2 respell

section Traversals

variable {α β : Type} {f : α → Except Fault β} {g : α → α} {h : β → β} {xs : List α} {i : Nat}

theorem mapM_modify (hx : ∀ x, xs[i]? = some x → f (g x) = (f x).map h) :
    (xs.modify i g).mapM f = (xs.mapM f).map fun ys => ys.modify i h := by
  induction xs generalizing i with
  | nil =>
    rw [List.modify_nil]
    exact congrArg Except.ok (List.modify_nil h i).symm
  | cons x xs ih =>
    cases i with
    | zero =>
      rw [List.modify_zero_cons, List.mapM_cons, List.mapM_cons, hx x rfl]
      cases f x with
      | error e => rfl
      | ok y => cases xs.mapM f <;> rfl
    | succ i =>
      rw [List.modify_succ_cons, List.mapM_cons, List.mapM_cons, ih fun y hy => hx y hy]
      cases f x with
      | error e => rfl
      | ok y => cases xs.mapM f <;> rfl

theorem mapM_map_of_forall (hx : ∀ x ∈ xs, f (g x) = (f x).map h) :
    (xs.map g).mapM f = (xs.mapM f).map (List.map h) := by
  induction xs with
  | nil => rfl
  | cons x xs ih =>
    obtain ⟨hhead, htail⟩ := List.forall_mem_cons.mp hx
    rw [List.map_cons, List.mapM_cons, List.mapM_cons, hhead, ih htail]
    cases f x with
    | error e => rfl
    | ok y => cases xs.mapM f <;> rfl

end Traversals

section Spellings

variable {table : List (List Value)} {row : List Value} {cells : List String} {v : Value}
  {rows : List (List String)}

theorem cellText_wordOf (h : (∃ b, v = .bool b) ∨ v = .str "true" ∨ v = .str "false") :
    cellText (wordOf v) = (cellText v).map respell := by
  rcases h with ⟨b, rfl⟩ | rfl | rfl
  · cases b <;> rfl
  · rfl
  · rfl

/-- The mark of a row is shown with a capital just if it is the truth value. -/
theorem cellText_eq_true_iff (h : (∃ b, v = .bool b) ∨ v = .str "true" ∨ v = .str "false") :
    cellText v = .ok "True" ↔ v = .bool true := by
  rcases h with ⟨b, rfl⟩ | rfl | rfl
  · cases b with
    | true => exact ⟨fun _ => rfl, fun _ => rfl⟩
    | false =>
      refine ⟨fun heq => ?_, fun heq => by cases heq⟩
      have hne : "False" = "True" := Except.ok.inj heq
      exact absurd hne (by decide)
  · refine ⟨fun heq => ?_, fun heq => by cases heq⟩
    rw [cellText, Value.display_str] at heq
    have hne : "true" = "True" := Except.ok.inj heq
    exact absurd hne (by decide)
  · refine ⟨fun heq => ?_, fun heq => by cases heq⟩
    rw [cellText, Value.display_str] at heq
    have hne : "false" = "True" := Except.ok.inj heq
    exact absurd hne (by decide)

/-- **The rows of a table with its marks as words** are its rows with the marks respelled. -/
theorem respell_rows (h : ∀ row ∈ table, IsMarked row) :
    (table.map wordMark).mapM rowTexts = (table.mapM rowTexts).map (List.map respellMark) :=
  mapM_map_of_forall fun row hrow =>
    mapM_modify fun v hv => cellText_wordOf (h row hrow v hv)

/-- A row shows a mark with a capital just if its mark is the truth value. -/
theorem shows_mark (h : IsMarked row) (hcells : rowTexts row = .ok cells) :
    cells[2]? = some "True" ↔ row[2]? = some (.bool true) := by
  have hall := forall₂_of_mapM hcells
  have hlength := hall.length_eq
  cases hv : row[2]? with
  | none =>
    have hnone : cells[2]? = none := by
      rw [List.getElem?_eq_none_iff] at hv ⊢
      omega
    simp [hnone]
  | some v =>
    obtain ⟨hrow, hget⟩ := List.getElem?_eq_some_iff.mp hv
    have hcell : 2 < cells.length := by omega
    have htext : cellText v = .ok cells[2] := by
      rw [← hget]
      exact (List.forall₂_iff_get.mp hall).2 2 hrow hcell
    rw [List.getElem?_eq_getElem hcell, Option.some.injEq, Option.some.injEq,
      ← cellText_eq_true_iff (h v hv), htext, Except.ok.injEq]

theorem shows_marks (h : ∀ row ∈ table, IsMarked row)
    (hrows : table.mapM rowTexts = .ok rows) :
    List.Forall₂ (fun row cells => cells[2]? = some "True" ↔ row[2]? = some (.bool true))
      table rows := by
  have hall := forall₂_of_mapM hrows
  refine List.forall₂_iff_get.mpr ⟨hall.length_eq, fun i hi hi' => ?_⟩
  exact shows_mark (h _ (List.get_mem table ⟨i, hi⟩)) ((List.forall₂_iff_get.mp hall).2 i hi hi')

end Spellings

/-! ### Required names -/

/-- A row loses its mark: it has a name, its mark is shown with a capital, and it has no condition
that counts instead. -/
def losesMark (cells : List String) : Bool :=
  (cell? cells 0).isSome && cells[2]? == some "True" && (cell? cells 3).isNone

section Required

variable {trusted : Bool} {context : Value} {cells : List String} {rows : List (List String)}
  {found fields : List (String × Value)} {required required' names : List String} {name : String}
  {fault : Fault}

theorem cell?_respellMark {i : Nat} (hi : i ≠ 2) : cell? (respellMark cells) i = cell? cells i := by
  rw [cell?, cell?, respellMark, List.getElem?_modify_ne _ _ (Ne.symm hi)]

/-- What a row stores does not depend on its mark. -/
theorem rowValue_respellMark :
    rowValue trusted context (respellMark cells) = rowValue trusted context cells := by
  rw [rowValue, rowValue, respellMark, List.getElem?_modify_ne _ _ (by decide)]

theorem respell_eq_true (s : String) : (respell s == "true") = (s == "true" || s == "True") := by
  unfold respell
  split
  · rename_i hs
    simp [hs]
  · split
    · rename_i hs
      simp [hs]
    · rename_i hs hs'
      have hne : (s == "True") = false := beq_false_of_ne hs
      rw [hne, Bool.or_false]

/-- A row without a condition is required if its mark is the word for it. -/
theorem rowRequired_of_noCondition {mark : String} (hmark : cells[2]? = some mark)
    (hcondition : cell? cells 3 = none) :
    rowRequired trusted context cells = pure (mark == "true") := by
  unfold rowRequired
  rcases cell?_eq_none_iff.mp hcondition with hnone | hempty
  · simp only [hmark, hnone]
  · simp only [hmark, hempty]

/-- A condition counts instead of the mark. -/
theorem result_rowRequired_of_condition {mark condition : String} (hmark : cells[2]? = some mark)
    (hcondition : cell? cells 3 = some condition) :
    (rowRequired trusted context cells).result =
      (Template.resolve trusted context
        (if Template.isWrapped condition then condition
          else Template.toExpression condition)).result.map isAffirmed := by
  obtain ⟨hcell, hne⟩ := cell?_eq_some_iff.mp hcondition
  unfold rowRequired
  simp only [hmark, hcell, Traced.result_bind]
  cases (Template.resolve trusted context _).result <;> rfl

/-- A row whose mark is lost does not count as required. -/
theorem result_rowRequired_of_losesMark (h : losesMark cells = true) :
    (rowRequired trusted context cells).result = .ok false := by
  simp only [losesMark, Bool.and_eq_true, beq_iff_eq, Option.isNone_iff_eq_none] at h
  rw [rowRequired_of_noCondition h.1.2 h.2]
  rfl

/-- **A mark is read differently once it is respelled** just if it is lost as it is. -/
theorem result_rowRequired_respellMark (hname : cell? cells 0 = some name) :
    (rowRequired trusted context (respellMark cells)).result =
      (rowRequired trusted context cells).result.map (· || losesMark cells) := by
  have hmarks : (respellMark cells)[2]? = (cells[2]?).map respell :=
    List.getElem?_modify_eq respell 2 cells
  have hconditions : cell? (respellMark cells) 3 = cell? cells 3 := cell?_respellMark (by decide)
  cases hmark : cells[2]? with
  | none =>
    rw [hmark] at hmarks
    simp [rowRequired, hmark, hmarks, losesMark, Except.map]
  | some mark =>
    rw [hmark] at hmarks
    cases hcondition : cell? cells 3 with
    | none =>
      rw [hcondition] at hconditions
      rw [rowRequired_of_noCondition hmarks hconditions,
        rowRequired_of_noCondition hmark hcondition]
      simp [losesMark, hname, hmark, hcondition, Except.map, respell_eq_true]
    | some condition =>
      rw [hcondition] at hconditions
      have hkept : losesMark cells = false := by simp [losesMark, hcondition]
      rw [result_rowRequired_of_condition hmarks hconditions,
        result_rowRequired_of_condition hmark hcondition, hkept]
      simp only [Bool.or_false]
      cases (Template.resolve trusted context _).result <;> rfl

/-- A row that is read with its mark respelled adds its name whenever the row does, and when it
loses its mark. -/
theorem required_step {required required' : List String} (hsub : required.Sublist required')
    (name : String) {mark lost : Bool} (hlost : lost = true → mark = false) :
    (if mark then required ++ [name] else required).Sublist
        (if mark || lost then required' ++ [name] else required') ∧
      (if mark || lost then required' ++ [name] else required').length + required.length =
        (if mark then required ++ [name] else required).length + required'.length +
          if lost then 1 else 0 := by
  cases mark with
  | true =>
    have hkept : lost = false := by
      cases lost with
      | true => exact absurd (hlost rfl) (by decide)
      | false => rfl
    subst hkept
    refine ⟨hsub.append (List.Sublist.refl _), ?_⟩
    simp only [Bool.or_false, Bool.false_eq_true, if_true, if_false, List.length_append]
    omega
  | false =>
    cases lost with
    | true =>
      refine ⟨hsub.trans (List.sublist_append_left _ _), ?_⟩
      simp only [Bool.or_true, Bool.false_eq_true, if_true, if_false, List.length_append,
        List.length_singleton]
      omega
    | false => exact ⟨hsub, Nat.add_comm _ _⟩

/-- **Going through a table with its marks respelled**: the same values are stored, and the required
names are those of the table as it is with one more for each row that loses its mark. If the table
cannot be gone through to its end then neither can the respelled one, for the same reason. -/
theorem tableValues_respell :
    (∀ fault, (tableValues trusted context found required rows).result = .error fault →
      (tableValues trusted context found required' (rows.map respellMark)).result =
        .error fault) ∧
    ∀ fields names, (tableValues trusted context found required rows).result = .ok (fields, names) →
      required.Sublist required' →
      ∃ names', (tableValues trusted context found required' (rows.map respellMark)).result =
          .ok (fields, names') ∧
        names.Sublist names' ∧
        names'.length + required.length =
          names.length + required'.length + rows.countP losesMark := by
  induction rows generalizing found required required' with
  | nil =>
    refine ⟨fun fault h => (by cases h), fun fields names h hsub => ?_⟩
    cases Except.ok.inj h
    exact ⟨required', rfl, hsub, by rw [List.countP_nil]; omega⟩
  | cons cells rows ih =>
    have hnames : cell? (respellMark cells) 0 = cell? cells 0 := cell?_respellMark (by decide)
    rw [List.map_cons]
    cases hname : cell? cells 0 with
    | none =>
      have hkept : losesMark cells = false := by simp [losesMark, hname]
      rw [tableValues_cons_unnamed hname, tableValues_cons_unnamed (hnames.trans hname),
        List.countP_cons_of_neg (by simp [hkept])]
      exact ih
    | some name =>
      rw [result_tableValues_cons hname, result_tableValues_cons (hnames.trans hname),
        rowValue_respellMark, result_rowRequired_respellMark hname]
      cases hvalue : (rowValue trusted context cells).result with
      | error fault =>
        exact ⟨fun _ h => h, fun _ _ h => by cases h⟩
      | ok stored =>
        cases hmark : (rowRequired trusted context cells).result with
        | error fault =>
          exact ⟨fun _ h => h, fun _ _ h => by cases h⟩
        | ok mark =>
          obtain ⟨herror, hok⟩ := @ih (storeUnder name stored found)
            (if mark then required ++ [name] else required)
            (if mark || losesMark cells then required' ++ [name] else required')
          refine ⟨herror, fun fields names h hsub => ?_⟩
          have hlost : losesMark cells = true → mark = false := fun hloses =>
            Except.ok.inj (hmark.symm.trans (result_rowRequired_of_losesMark hloses))
          obtain ⟨hstep, hadded⟩ := required_step hsub name hlost
          obtain ⟨names', hnames', hsublist, hlength⟩ := hok fields names h hstep
          refine ⟨names', hnames', hsublist, ?_⟩
          rw [List.countP_cons]
          omega

end Required

/-! ### Required flags -/

/-- The required flags of the values that a subflow takes. -/
def SubflowSpec.flags (spec : SubflowSpec) : List (Option Bool) :=
  (spec.values.getD []).map FlowValue.required

/-- The values that some rows describe, by name. -/
def valuesByName (rows : List (List String)) : List FlowValue :=
  (rows.filterMap FlowValue.ofRow).mergeSort fun a b => decide (a.name ≤ b.name)

section Flags

variable {cells : List String} {rows : List (List String)}

/-- A row describes a required value just if its mark is the word for it. -/
theorem ofRow_required (cells : List String) :
    ((FlowValue.ofRow cells).map fun v => v.required == some true).getD false =
      (cells[2]? == some "true") := by
  rcases cells with _ | ⟨name, cells⟩
  · rfl
  · show ((cell? (name :: cells) 2).map (· == "true") == some true) = _
    cases hcell : cell? (name :: cells) 2 with
    | none =>
      rcases cell?_eq_none_iff.mp hcell with hnone | hempty
      · rw [hnone]
        rfl
      · rw [hempty]
        decide
    | some mark =>
      rw [(cell?_eq_some_iff.mp hcell).1]
      cases hmark : mark == "true" <;> simp_all

/-- A row whose mark is not shown with a capital describes the same once it is respelled. -/
theorem ofRow_respellMark (h : cells[2]? ≠ some "True") :
    FlowValue.ofRow (respellMark cells) = FlowValue.ofRow cells := by
  rcases cells with _ | ⟨name, cells⟩
  · rfl
  · have hmark : (cell? (respellMark (name :: cells)) 2).map (· == "true") =
        (cell? (name :: cells) 2).map (· == "true") := by
      have hmarks : (respellMark (name :: cells))[2]? = ((name :: cells)[2]?).map respell :=
        List.getElem?_modify_eq respell 2 (name :: cells)
      unfold cell?
      rw [hmarks]
      cases hcell : (name :: cells)[2]? with
      | none => rfl
      | some mark =>
        by_cases hfalse : mark = "False"
        · rw [hfalse]
          rfl
        · have hsame : respell mark = mark := by
            rw [respell, if_neg fun heq => h (hcell.trans (congrArg some heq)), if_neg hfalse]
          rw [Option.map_some, hsame]
    show some (FlowValue.mk name (cell? (respellMark (name :: cells)) 1)
      ((cell? (respellMark (name :: cells)) 2).map (· == "true"))
      (cell? (respellMark (name :: cells)) 3)) = _
    rw [hmark, cell?_respellMark (by decide), cell?_respellMark (by decide)]
    rfl

/-- A respelled row is marked by the word just if the row is marked by it or with a capital. -/
theorem respelled_eq_true (cells : List String) :
    ((respellMark cells)[2]? == some "true") =
      (cells[2]? == some "true" || cells[2]? == some "True") := by
  have hmarks : (respellMark cells)[2]? = (cells[2]?).map respell :=
    List.getElem?_modify_eq respell 2 cells
  rw [hmarks]
  cases cells[2]? with
  | none => rfl
  | some mark => exact respell_eq_true mark

/-- The number of values that some rows describe as required. -/
theorem countP_valuesByName (rows : List (List String)) :
    (valuesByName rows).countP (fun v => v.required == some true) =
      rows.countP fun cells => cells[2]? == some "true" := by
  rw [valuesByName, (List.mergeSort_perm _ _).countP_eq, List.countP_filterMap]
  exact List.countP_congr fun cells _ => by rw [ofRow_required]

/-- **The flags of respelled rows are those of the rows as they are** just if no mark is shown with
a capital. -/
theorem flags_respell_iff :
    (valuesByName rows).map FlowValue.required =
        (valuesByName (rows.map respellMark)).map FlowValue.required ↔
      ∀ cells ∈ rows, cells[2]? ≠ some "True" := by
  constructor
  · intro h cells hcells hmark
    have hflags : ∀ vs : List FlowValue, (vs.map FlowValue.required).count (some true) =
        vs.countP fun v => v.required == some true := fun vs => List.countP_map
    have hrespelled : (rows.map respellMark).countP (fun cells => cells[2]? == some "true") =
        rows.countP fun cells => cells[2]? == some "true" || cells[2]? == some "True" := by
      rw [List.countP_map]
      exact List.countP_congr fun cells _ => by rw [Function.comp_apply, respelled_eq_true]
    have hcount := congrArg (List.count (some true)) h
    rw [hflags, hflags, countP_valuesByName, countP_valuesByName, hrespelled,
      List.countP_eq_length_filter, List.countP_eq_length_filter] at hcount
    -- the rows marked by the word are among those marked in either way, and as many
    have hsub := List.monotone_filter_right rows (p := fun cells => cells[2]? == some "true")
      (q := fun cells => cells[2]? == some "true" || cells[2]? == some "True")
      fun _ hword => by simp_all
    have hmem : cells ∈ rows.filter fun cells => cells[2]? == some "true" := by
      rw [hsub.eq_of_length hcount]
      exact List.mem_filter.mpr ⟨hcells, by simp [hmark]⟩
    have hword := (List.mem_filter.mp hmem).2
    rw [hmark] at hword
    exact absurd hword (by decide)
  · intro h
    have hsame : (rows.map respellMark).filterMap FlowValue.ofRow =
        rows.filterMap FlowValue.ofRow := by
      rw [List.filterMap_map]
      exact List.filterMap_congr fun cells hcells => ofRow_respellMark (h cells hcells)
    rw [valuesByName, valuesByName, hsame]

theorem result_subflowSpec (step : Step) (f : Flow) :
    subflowSpec step f =
      (attributeRows f.attributes .values).bind fun values =>
        (attributeRows f.attributes .returns).map fun returns =>
          { stepId := step.id
            subflow := attribute? step.attributes .subflow
            values := nonempty? (valuesByName values)
            returns := nonempty? <| (returns.filterMap FlowReturn.ofRow).mergeSort
              fun a b => decide (a.name ≤ b.name) } := by
  unfold subflowSpec
  cases attributeRows f.attributes .values with
  | error e => rfl
  | ok values => cases attributeRows f.attributes .returns <;> rfl

theorem getD_nonempty? {α : Type} (xs : List α) : (nonempty? xs).getD [] = xs := by
  cases xs <;> rfl

end Flags

/-! ### The two spellings compared -/

/-- Two flows compared that differ in their tables of values: the marks of the second table are the
words for those of the first. -/
structure MarksCompared (table : List (List Value)) (f f' : Flow) : Prop where
  /-- The rows of the second are those of the first with the marks respelled. -/
  rows : attributeRows f'.attributes .values =
    (attributeRows f.attributes .values).map (List.map respellMark)
  /-- A mark is shown with a capital in the first just if it is the truth value. -/
  marks : ∀ rows, attributeRows f.attributes .values = .ok rows →
    List.Forall₂ (fun row cells => cells[2]? = some "True" ↔ row[2]? = some (.bool true)) table rows
  /-- Neither table can be read where the other cannot. -/
  holderFails : ∀ trusted context fault, (f.holder trusted context).result = .error fault ↔
    (f'.holder trusted context).result = .error fault
  /-- The values are the same, no required name is gained by the truth values, and none is lost just
  if no row loses its mark. -/
  required : ∀ rows trusted context holder holder', attributeRows f.attributes .values = .ok rows →
    (f.holder trusted context).result = .ok holder →
    (f'.holder trusted context).result = .ok holder' →
    holder.values = holder'.values ∧
      (holder.required.getD []).Sublist (holder'.required.getD []) ∧
      (holder.required = holder'.required ↔ ∀ cells ∈ rows, losesMark cells = false)
  /-- Neither flow can be described where the other cannot. -/
  specFails : ∀ step fault, subflowSpec step f = .error fault ↔ subflowSpec step f' = .error fault
  /-- The flags are the same just if no mark is shown with a capital. -/
  flags : ∀ rows step spec spec', attributeRows f.attributes .values = .ok rows →
    subflowSpec step f = .ok spec → subflowSpec step f' = .ok spec' →
    (spec.flags = spec'.flags ↔ ∀ cells ∈ rows, cells[2]? ≠ some "True")

section Comparison

variable {table : List (List Value)} {f f' : Flow} {raw raw' : String}

theorem holder_error_iff {fault : Fault} {trusted : Bool} {context : Value}
    {rows : List (List String)} (h : attributeRows f.attributes .values = .ok rows) :
    (f.holder trusted context).result = .error fault ↔
      (tableValues trusted context [] [] rows).result = .error fault := by
  rw [result_holder h]
  cases (tableValues trusted context [] [] rows).result <;> simp [Except.map]

theorem result_holder_of_error {fault : Fault}
    (h : attributeRows f.attributes .values = .error fault) (trusted : Bool) (context : Value) :
    (f.holder trusted context).result = .error fault := by
  simp only [Flow.holder, Traced.result_bind, Traced.result_ofExcept, h, Except.bind]

/-- Neither of two tables that differ in the spelling of their marks can be gone through where the
other cannot. -/
theorem tableValues_error_iff {rows : List (List String)} {trusted : Bool} {context : Value}
    {fault : Fault} :
    (tableValues trusted context [] [] rows).result = .error fault ↔
      (tableValues trusted context [] [] (rows.map respellMark)).result = .error fault := by
  obtain ⟨herror, hok⟩ := @tableValues_respell trusted context rows [] [] []
  constructor
  · exact herror fault
  · intro hfault
    cases htable : (tableValues trusted context [] [] rows).result with
    | error e => exact (herror e htable).symm.trans hfault
    | ok out =>
      obtain ⟨names', hnames', -⟩ := hok out.1 out.2 htable (List.Sublist.refl _)
      cases hnames'.symm.trans hfault

/-- The names of a holder, none if it declares none. -/
theorem getD_names (names : List String) :
    (if names.isEmpty then none else some names).getD [] = names := by
  cases names <;> rfl

/-- **The holders of two tables that differ in the spelling of their marks**: the values are the
same, the first declares no name that the second does not, and it declares all of them just if no
row loses its mark. -/
theorem holders_compared {rows : List (List String)} {trusted : Bool} {context : Value}
    {holder holder' : ValuesHolder} (h : attributeRows f.attributes .values = .ok rows)
    (h' : attributeRows f'.attributes .values = .ok (rows.map respellMark))
    (hholder : (f.holder trusted context).result = .ok holder)
    (hholder' : (f'.holder trusted context).result = .ok holder') :
    holder.values = holder'.values ∧
      (holder.required.getD []).Sublist (holder'.required.getD []) ∧
      (holder.required = holder'.required ↔ ∀ cells ∈ rows, losesMark cells = false) := by
  rw [result_holder h] at hholder
  rw [result_holder h'] at hholder'
  cases htable : (tableValues trusted context [] [] rows).result with
  | error e =>
    rw [htable] at hholder
    cases hholder
  | ok out =>
    obtain ⟨names', hnames', hsub, hlength⟩ :=
      (@tableValues_respell trusted context rows [] [] []).2 out.1 out.2 htable
        (List.Sublist.refl _)
    rw [htable] at hholder
    rw [hnames'] at hholder'
    cases Except.ok.inj hholder
    cases Except.ok.inj hholder'
    have hdeclared : (if out.2.isEmpty then none else some out.2) =
        (if names'.isEmpty then none else some names') ↔ out.2 = names' := by
      refine ⟨fun heq => ?_, fun heq => by rw [heq]⟩
      rw [← getD_names out.2, heq, getD_names]
    have hcount : names'.length = out.2.length + rows.countP losesMark := by simpa using hlength
    refine ⟨rfl, by rwa [getD_names, getD_names], hdeclared.trans ?_⟩
    -- the first list is part of the second, so they are the same just if they are as long
    have hkept : (∀ cells ∈ rows, losesMark cells = false) ↔ rows.countP losesMark = 0 := by
      simp [List.countP_eq_zero]
    rw [hkept, ← hsub.length_eq]
    omega

/-- **Flows whose rows differ in the spelling of their marks** compare as told. -/
theorem MarksCompared.of_rows (hmarks : ∀ row ∈ table, IsMarked row)
    (hrows : attributeRows f.attributes .values = table.mapM rowTexts)
    (hrows' : attributeRows f'.attributes .values = (table.map wordMark).mapM rowTexts)
    (hreturns : attributeRows f'.attributes .returns = attributeRows f.attributes .returns) :
    MarksCompared table f f' := by
  have hrespell : attributeRows f'.attributes .values =
      (attributeRows f.attributes .values).map (List.map respellMark) := by
    rw [hrows, hrows', respell_rows hmarks]
  refine ⟨hrespell, fun rows h => shows_marks hmarks (hrows ▸ h), ?_, ?_, ?_, ?_⟩
  · intro trusted context fault
    cases h : attributeRows f.attributes .values with
    | error e =>
      rw [h] at hrespell
      rw [result_holder_of_error h, result_holder_of_error hrespell]
    | ok rows =>
      rw [h] at hrespell
      rw [holder_error_iff h, holder_error_iff hrespell]
      exact tableValues_error_iff
  · intro rows trusted context holder holder' h hholder hholder'
    rw [h] at hrespell
    exact holders_compared h hrespell hholder hholder'
  · intro step fault
    rw [result_subflowSpec, result_subflowSpec, hrespell, hreturns]
    cases attributeRows f.attributes .values with
    | error e => exact Iff.rfl
    | ok rows =>
      cases attributeRows f.attributes .returns with
      | error e => exact Iff.rfl
      | ok returns => simp [Except.bind, Except.map]
  · intro rows step spec spec' h hspec hspec'
    rw [result_subflowSpec, h] at hspec
    rw [result_subflowSpec, hrespell, hreturns, h] at hspec'
    cases hreturned : attributeRows f.attributes .returns with
    | error e =>
      rw [hreturned] at hspec
      cases hspec
    | ok returns =>
      rw [hreturned] at hspec hspec'
      cases Except.ok.inj hspec
      cases Except.ok.inj hspec'
      rw [SubflowSpec.flags, SubflowSpec.flags, getD_nonempty?, getD_nonempty?]
      exact flags_respell_iff

/-- The comparison depends on a table by its marks only. -/
theorem MarksCompared.of_map {g : List Value → List Value} (h : MarksCompared (table.map g) f f')
    (hg : ∀ row, (g row)[2]? = some (.bool true) ↔ row[2]? = some (.bool true)) :
    MarksCompared table f f' where
  rows := h.rows
  marks rows hrows := by
    have hshown := List.forall₂_map_left_iff.mp (h.marks rows hrows)
    exact hshown.imp fun row cells hcells => hcells.trans (hg row)
  holderFails := h.holderFails
  required := h.required
  specFails := h.specFails
  flags := h.flags

end Comparison

/-! ### Tables in documents -/

/-- How two tables are given to two flows, of which the second has the words for the marks of the
first: both inline, or both as JSON text. -/
inductive GivenAs (table : List (List Value)) : Value → Value → Prop
  | inline : GivenAs table (listOfRows table) (listOfRows (table.map wordMark))
  | text {s s' : String} (h : Json.read s = .ok (listOfRows table))
      (h' : Json.read s' = .ok (listOfRows (table.map wordMark))) :
      GivenAs table (.str s) (.str s')

section Documents

variable {before after es es' : List (Value × Value)} {table : List (List Value)}
  {v v' : Value} {row : List Value} {a a' : Option Attributes} {key other : AttributeKey}

theorem lookup_putFields_congr {name : String} {seen seen' fields : List (String × String)}
    (h : seen.lookup name = seen'.lookup name) :
    (putFields seen fields).lookup name = (putFields seen' fields).lookup name := by
  induction fields generalizing seen seen' with
  | nil => exact h
  | cons f fields ih =>
    refine ih ?_
    rw [Schema.lookup_insertField, Schema.lookup_insertField, h]

/-- What stands under one key does not depend on what stands under another. -/
theorem attribute?_of_other (hv : v.isNull = false) (hv' : v'.isNull = false)
    (hne : other.name ≠ key.name)
    (h : readAttributes (.object (before ++ (.str key.name, v) :: after)) = .valid a)
    (h' : readAttributes (.object (before ++ (.str key.name, v') :: after)) = .valid a') :
    attribute? a' other = attribute? a other := by
  obtain ⟨fields, hfields, rfl⟩ := readAttributes_valid_iff.mp h
  obtain ⟨fields', hfields', rfl⟩ := readAttributes_valid_iff.mp h'
  obtain ⟨first, text, others, hfirst, -, hothers, rfl⟩ := (textFields_around hv).mp hfields
  obtain ⟨first', text', others', hfirst', -, hothers', rfl⟩ := (textFields_around hv').mp hfields'
  cases hfirst.symm.trans hfirst'
  cases hothers.symm.trans hothers'
  show (putFields [] (first ++ _)).lookup other.name = (putFields [] (first ++ _)).lookup other.name
  rw [putFields, putFields, List.foldl_append, List.foldl_append, List.foldl_cons, List.foldl_cons]
  refine lookup_putFields_congr ?_
  rw [Schema.lookup_insertField, Schema.lookup_insertField, if_neg hne, if_neg hne]

theorem attributeRows_congr (h : attribute? a' key = attribute? a key) :
    attributeRows a' key = attributeRows a key := by
  rw [attributeRows, attributeRows, h]

theorem forall_mem_modify {α : Type} {P : α → Prop} {g : α → α} {xs : List α} {i : Nat}
    (h : ∀ x, xs[i]? = some x → (P (g x) ↔ P x)) :
    (∀ y ∈ xs.modify i g, P y) ↔ ∀ x ∈ xs, P x := by
  induction xs generalizing i with
  | nil => rw [List.modify_nil]
  | cons x xs ih =>
    cases i with
    | zero => rw [List.modify_zero_cons, List.forall_mem_cons, List.forall_mem_cons, h x rfl]
    | succ i =>
      rw [List.modify_succ_cons, List.forall_mem_cons, List.forall_mem_cons, ih fun y hy => h y hy]

/-- Both spellings of a mark have a JSON text. -/
theorem hasJson_wordOf (h : (∃ b, v = .bool b) ∨ v = .str "true" ∨ v = .str "false") :
    (wordOf v).HasJson ↔ v.HasJson := by
  rcases h with ⟨b, rfl⟩ | rfl | rfl
  · exact ⟨fun _ => .bool b, fun _ => .str _⟩
  · exact Iff.rfl
  · exact Iff.rfl

theorem hasJson_wordMark (h : ∀ row ∈ table, IsMarked row) :
    (listOfRows (table.map wordMark)).HasJson ↔ (listOfRows table).HasJson := by
  rw [hasJson_listOfRows, hasJson_listOfRows, List.forall_mem_map]
  refine forall₂_congr fun row hrow => ?_
  exact forall_mem_modify fun v hv => hasJson_wordOf (h row hrow v hv)

theorem reread_wordOf (h : (∃ b, v = .bool b) ∨ v = .str "true" ∨ v = .str "false") :
    Json.reread (wordOf v) = wordOf (Json.reread v) := by
  rcases h with ⟨b, rfl⟩ | rfl | rfl <;> rfl

/-- A row with its mark as a word is read back with its mark as a word. -/
theorem map_reread_wordMark (h : IsMarked row) :
    (wordMark row).map Json.reread = wordMark (row.map Json.reread) := by
  refine List.ext_getElem? fun i => ?_
  rw [wordMark, wordMark, List.getElem?_map, List.getElem?_modify, List.getElem?_modify,
    List.getElem?_map]
  cases hv : row[i]? with
  | none => rfl
  | some v =>
    by_cases hi : 2 = i
    · subst hi
      simp [reread_wordOf (h v hv)]
    · simp [hi]

theorem reread_eq_true_iff : Json.reread v = .bool true ↔ v = .bool true := by
  cases v <;> simp [Json.reread]

/-- A truth value is read back as a mark, and nothing else is read back as one. -/
theorem reread_mark (row : List Value) :
    (row.map Json.reread)[2]? = some (.bool true) ↔ row[2]? = some (.bool true) := by
  rw [List.getElem?_map, Option.map_eq_some_iff]
  constructor
  · rintro ⟨v, hv, hread⟩
    rw [hv, reread_eq_true_iff.mp hread]
  · intro hv
    exact ⟨_, hv, rfl⟩

theorem isMarked_reread (h : IsMarked row) : IsMarked (row.map Json.reread) := by
  intro v hv
  rw [List.getElem?_map] at hv
  obtain ⟨w, hw, rfl⟩ := Option.map_eq_some_iff.mp hv
  rcases h w hw with ⟨b, rfl⟩ | rfl | rfl
  · exact .inl ⟨b, rfl⟩
  · exact .inr (.inl rfl)
  · exact .inr (.inr rfl)

/-- The rows of a table that is given inline are those of the table as it is read back. -/
theorem attributeRows_inline (hafter : ∀ e ∈ after, e.1.display ≠ .ok key.name)
    (h : readAttributes (.object (before ++ (.str key.name, listOfRows table) :: after)) =
      .valid a) :
    attributeRows a key = (table.map (List.map Json.reread)).mapM rowTexts := by
  obtain ⟨text, htext, hkept⟩ := attribute?_of_valid rfl hafter h
  have hprint : Json.print .compact (listOfRows table) = .ok text := htext
  refine attributeRows_of_list hkept ?_
  rw [Json.read_print hprint, reread_listOfRows]

/-- The rows of a table that is given as text are those of the table. -/
theorem attributeRows_text {s : String} (hafter : ∀ e ∈ after, e.1.display ≠ .ok key.name)
    (h : readAttributes (.object (before ++ (.str key.name, .str s) :: after)) = .valid a)
    (hread : Json.read s = .ok (listOfRows table)) :
    attributeRows a key = table.mapM rowTexts := by
  obtain ⟨text, htext, hkept⟩ := attribute?_of_valid rfl hafter h
  cases htext
  exact attributeRows_of_list hkept hread

/-- **Two spellings of the marks compared**, for a table given inline and as text alike, whatever
its other cells and the other attributes. Either both flows are valid or neither is. The required
names are the same just if no row with a name and without a condition is marked by the truth value,
and the flags are the same just if no row is. -/
theorem marks_compared (hmarks : ∀ row ∈ table, IsMarked row)
    (hafter : ∀ e ∈ after, e.1.display ≠ .ok AttributeKey.values.name) (hgiven : GivenAs table v v')
    (hes : Value.lookup "attributes" es =
      some (.object (before ++ (.str AttributeKey.values.name, v) :: after)))
    (hes' : Value.lookup "attributes" es' =
      some (.object (before ++ (.str AttributeKey.values.name, v') :: after))) :
    ((∃ a, attributesField es = .valid a) ↔ ∃ a, attributesField es' = .valid a) ∧
      ∀ a a', attributesField es = .valid a → attributesField es' = .valid a' →
        ∀ f : Flow, MarksCompared table { f with attributes := a } { f with attributes := a' } := by
  simp only [attributesField_valid_iff hes, attributesField_valid_iff hes']
  have hother : AttributeKey.returns.name ≠ AttributeKey.values.name := by decide
  rcases hgiven with _ | ⟨hread, hread'⟩
  · constructor
    · refine valid_around rfl rfl ?_
      show (∃ s, Json.print .compact _ = .ok s) ↔ ∃ s, Json.print .compact _ = .ok s
      rw [Json.print_compact_ok_iff, Json.print_compact_ok_iff, hasJson_wordMark hmarks]
    · intro a a' ha ha' f
      have hcommute : (table.map wordMark).map (List.map Json.reread) =
          (table.map (List.map Json.reread)).map wordMark := by
        rw [List.map_map, List.map_map]
        exact List.map_congr_left fun row hrow => map_reread_wordMark (hmarks row hrow)
      refine MarksCompared.of_map (MarksCompared.of_rows ?_ ?_ ?_ ?_) reread_mark
      · exact List.forall_mem_map.mpr fun row hrow => isMarked_reread (hmarks row hrow)
      · exact attributeRows_inline hafter ha
      · exact (attributeRows_inline hafter ha').trans (by rw [hcommute])
      · exact attributeRows_congr (attribute?_of_other rfl rfl hother ha ha')
  · constructor
    · exact valid_around rfl rfl ⟨fun _ => ⟨_, rfl⟩, fun _ => ⟨_, rfl⟩⟩
    · intro a a' ha ha' f
      refine MarksCompared.of_rows hmarks ?_ ?_ ?_
      · exact attributeRows_text hafter ha hread
      · exact attributeRows_text hafter ha' hread'
      · exact attributeRows_congr (attribute?_of_other rfl rfl hother ha ha')

end Documents

/-- A row marked by the truth value, one marked by the word, one marked by the truth value that has
a condition, and one without a mark. -/
def markedTable : List (List Value) :=
  [[.str "a", .str "", .bool true], [.str "b", .int 1, .str "true"],
    [.str "c", .null, .bool true, .str "$\x7bd\x7d"], [.str "e"]]

theorem isMarked_markedTable : ∀ row ∈ markedTable, IsMarked row := by
  simp [markedTable, IsMarked]

theorem hasJson_markedTable : (listOfRows markedTable).HasJson := by
  have hsmall : Value.isHuge 1 = false := by decide +kernel
  simp [hasJson_listOfRows, markedTable, Value.HasJson.null, Value.HasJson.bool, Value.HasJson.str,
    Value.HasJson.int hsmall]

/-- Both ways of giving the table are valid in both spellings, and compare as told. -/
theorem marks_compared_markedTable :
    (∃ a a', attributesField (withValues (listOfRows markedTable)) = .valid a ∧
      attributesField (withValues (listOfRows (markedTable.map wordMark))) = .valid a' ∧
      ∀ f : Flow,
        MarksCompared markedTable { f with attributes := a } { f with attributes := a' }) ∧
    ∃ text worded a a', Json.read text = .ok (listOfRows markedTable) ∧
      attributesField (withValues (.str text)) = .valid a ∧
      attributesField (withValues (.str worded)) = .valid a' ∧
      ∀ f : Flow,
        MarksCompared markedTable { f with attributes := a } { f with attributes := a' } := by
  have hafter : ∀ e ∈ ([] : List (Value × Value)), e.1.display ≠ .ok AttributeKey.values.name := by
    simp
  obtain ⟨text, htext⟩ := Json.print_compact_ok_iff.mpr hasJson_markedTable
  obtain ⟨worded, hworded⟩ := Json.print_compact_ok_iff.mpr
    ((hasJson_wordMark isMarked_markedTable).mpr hasJson_markedTable)
  have hread : Json.read text = .ok (listOfRows markedTable) := Json.read_print htext
  have hread' : Json.read worded = .ok (listOfRows (markedTable.map wordMark)) :=
    Json.read_print hworded
  constructor
  · obtain ⟨hvalid, hcompared⟩ := @marks_compared [] []
      (withValues (listOfRows markedTable)) (withValues (listOfRows (markedTable.map wordMark)))
      markedTable _ _ isMarked_markedTable hafter .inline rfl rfl
    obtain ⟨a, ha⟩ := @withValues_valid (listOfRows markedTable) text rfl htext
    obtain ⟨a', ha'⟩ := hvalid.mp ⟨a, ha⟩
    exact ⟨a, a', ha, ha', hcompared a a' ha ha'⟩
  · obtain ⟨hvalid, hcompared⟩ := @marks_compared [] []
      (withValues (.str text)) (withValues (.str worded))
      markedTable _ _ isMarked_markedTable hafter (.text hread hread') rfl rfl
    obtain ⟨a, ha⟩ := @withValues_valid (.str text) text rfl rfl
    obtain ⟨a', ha'⟩ := hvalid.mp ⟨a, ha⟩
    exact ⟨text, worded, a, a', hread, ha, ha', hcompared a a' ha ha'⟩

/-- **A mark that is a truth value is lost**: with it the row's name is not required and its value
is described as not required, and with the word for it both are. -/
theorem truthMark_is_lost :
    Json.print .compact (listOfRows [[.str "a", .str "", .bool true]]) =
        .ok "[[\"a\", \"\", true]]" ∧
      ((tableFlow "[[\"a\", \"\", true]]").holder false (.object [])).result =
        .ok ⟨.object [], some ⟨"f.ply.flow", none⟩, none⟩ ∧
      ((tableFlow "[[\"a\", \"\", \"true\"]]").holder false (.object [])).result =
        .ok ⟨.object [], some ⟨"f.ply.flow", none⟩, some ["a"]⟩ ∧
      ∀ step, (subflowSpec step (tableFlow "[[\"a\", \"\", true]]")).map SubflowSpec.flags =
          .ok [some false] ∧
        (subflowSpec step (tableFlow "[[\"a\", \"\", \"true\"]]")).map SubflowSpec.flags =
          .ok [some true] := by
  have htruth : attributeRows (tableFlow "[[\"a\", \"\", true]]").attributes .values =
      .ok [["a", "", "True"]] := eq_ok (by decide +kernel)
  have hword : attributeRows (tableFlow "[[\"a\", \"\", \"true\"]]").attributes .values =
      .ok [["a", "", "true"]] := eq_ok (by decide +kernel)
  refine ⟨by decide +kernel, ?_, ?_, fun step => ⟨?_, ?_⟩⟩
  · rw [result_holder htruth]
    rfl
  · rw [result_holder hword]
    rfl
  · rw [result_subflowSpec, htruth]
    show Except.ok (((nonempty? (valuesByName [["a", "", "True"]])).getD []).map _) = _
    rw [getD_nonempty?]
    simp [valuesByName, FlowValue.ofRow, cell?]
  · rw [result_subflowSpec, hword]
    show Except.ok (((nonempty? (valuesByName [["a", "", "true"]])).getD []).map _) = _
    rw [getD_nonempty?]
    simp [valuesByName, FlowValue.ofRow, cell?]

end ApiSuite
