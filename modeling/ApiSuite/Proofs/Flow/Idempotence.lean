import ApiSuite.Flow.Document
import ApiSuite.Proofs.Flow.Sorting
import ApiSuite.Proofs.Flow.Transfer

/-!
# Flows in order stay as they are

A flow is read in two passes: its names are put on one line each (`ApiSuite.Flow.cleanNames`), and
its subflows and steps are put in order (`ApiSuite.Flow.normalize`). Each pass comes to a fixed
point at once, and it does not matter which is made first, since each leaves alone what the other
looks at (`ApiSuite.Flow.passes_settle`). So nothing is left to do for either of them on a flow
that has been read.

That a pass leaves alone what the other looks at is said of steps by `ApiSuite.Inert`, and of
subflows by their phases and identifiers, which no pass changes.
-/

namespace ApiSuite

/-! ### Names on one line -/

section Names

theorem not_mem_flattenBreaks (cs : List Char) : '\n' ∉ flattenBreaks cs := by
  fun_induction flattenBreaks cs with
  | case1 cs ih => simpa using ih
  | case2 cs ih => simpa using ih
  | case3 c cs _ hc ih =>
    have hne : '\n' ≠ c := fun he => hc he.symm
    simpa [hne] using ih
  | case4 => simp

theorem flattenBreaks_of_not_mem {cs : List Char} (h : '\n' ∉ cs) : flattenBreaks cs = cs := by
  fun_induction flattenBreaks cs with
  | case1 cs ih => exact absurd h (by simp)
  | case2 cs ih => exact absurd h (by simp)
  | case3 c cs _ _ ih => rw [ih fun hmem => h (List.mem_cons_of_mem _ hmem)]
  | case4 => rfl

/-- A text is on one line. -/
def OnOneLine (name : String) : Prop := '\n' ∉ name.toList

theorem onOneLine_cleanName (name : String) : OnOneLine (cleanName name) := by
  rw [OnOneLine, cleanName, String.toList_ofList]
  exact not_mem_flattenBreaks name.toList

theorem cleanName_of_onOneLine {name : String} (h : OnOneLine name) : cleanName name = name := by
  rw [cleanName, flattenBreaks_of_not_mem h, String.ofList_toList]

/-- **A clean name stays clean.** -/
theorem cleanName_cleanName (name : String) : cleanName (cleanName name) = cleanName name :=
  cleanName_of_onOneLine (onOneLine_cleanName name)

theorem Step.cleanName_cleanName (s : Step) : s.cleanName.cleanName = s.cleanName := by
  simp [Step.cleanName, ApiSuite.cleanName_cleanName]

theorem map_cleanName_cleanName (steps : List Step) :
    (steps.map Step.cleanName).map Step.cleanName = steps.map Step.cleanName := by
  rw [List.map_map]
  exact List.map_congr_left fun s _ => s.cleanName_cleanName

theorem Subflow.cleanNames_cleanNames (s : Subflow) : s.cleanNames.cleanNames = s.cleanNames := by
  have hsteps : (s.steps.map (·.map Step.cleanName)).map (·.map Step.cleanName) =
      s.steps.map (·.map Step.cleanName) := by
    cases s.steps with
    | none => rfl
    | some steps => exact congrArg some (map_cleanName_cleanName steps)
  simp only [Subflow.cleanNames, ApiSuite.cleanName_cleanName, hsteps]

theorem map_cleanNames_cleanNames (subflows : List Subflow) :
    (subflows.map Subflow.cleanNames).map Subflow.cleanNames =
      subflows.map Subflow.cleanNames := by
  rw [List.map_map]
  exact List.map_congr_left fun s _ => s.cleanNames_cleanNames

/-- **Cleaning the names of a flow once is enough.** -/
theorem Flow.cleanNames_cleanNames (f : Flow) : f.cleanNames.cleanNames = f.cleanNames := by
  have hsubflows : (f.subflows.map (·.map Subflow.cleanNames)).map (·.map Subflow.cleanNames) =
      f.subflows.map (·.map Subflow.cleanNames) := by
    cases f.subflows with
    | none => rfl
    | some subflows => exact congrArg some (map_cleanNames_cleanNames subflows)
  simp only [Flow.cleanNames, map_cleanName_cleanName, hsubflows]

end Names

/-! ### Graphs in order -/

/-- Cleaning names is nothing to the walk. -/
theorem inert_cleanName : Inert Step.cleanName := ⟨fun _ => rfl, fun _ => rfl, fun _ => rfl⟩

/-- The steps of a graph in order; a graph without a start step keeps its order. -/
def inOrder (steps : List Step) : List Step := (linearize? steps).getD steps

theorem inOrder_inOrder (steps : List Step) : inOrder (inOrder steps) = inOrder steps := by
  unfold inOrder
  cases h : linearize? steps with
  | none => rw [Option.getD_none, h, Option.getD_none]
  | some out => rw [Option.getD_some, linearize?_of_linearize? h, Option.getD_some]

theorem inOrder_map_cleanName (steps : List Step) :
    inOrder (steps.map Step.cleanName) = (inOrder steps).map Step.cleanName := by
  rw [inOrder, inOrder, linearize?_map inert_cleanName]
  cases linearize? steps <;> rfl

namespace Subflow

/-- A subflow in order is the subflow with its steps in order, if it has steps. -/
theorem linearize_eq (s : Subflow) : s.linearize = { s with steps := s.steps.map inOrder } := by
  obtain ⟨attributes, id, name, steps⟩ := s
  cases steps with
  | none => rfl
  | some steps =>
    simp only [Subflow.linearize, stepList, Option.getD_some, Option.map_some, inOrder]
    cases linearize? steps <;> rfl

theorem linearize_linearize (s : Subflow) : s.linearize.linearize = s.linearize := by
  simp only [linearize_eq, Option.map_map]
  refine congrArg (Subflow.mk s.attributes s.id s.name) (congrArg (Option.map · s.steps) ?_)
  exact funext inOrder_inOrder

theorem linearize_cleanNames (s : Subflow) : s.cleanNames.linearize = s.linearize.cleanNames := by
  simp only [linearize_eq, cleanNames, Option.map_map]
  refine congrArg (Subflow.mk s.attributes s.id _) (congrArg (Option.map · s.steps) ?_)
  exact funext inOrder_map_cleanName

/-- Putting the steps of a subflow in order leaves its key as it is. -/
theorem phase_linearize (s : Subflow) : s.linearize.phase = s.phase := by
  rw [linearize_eq]
  rfl

theorem id_linearize (s : Subflow) : s.linearize.id = s.id := by
  rw [linearize_eq]

end Subflow

/-! ### Flows in order -/

/-- Subflows in order, each with its steps in order. -/
def subflowsInOrder (subflows : List Subflow) : List Subflow :=
  (sortSubflows subflows).map Subflow.linearize

/-- The subflows can be put in order before or after their steps are. -/
theorem subflowsInOrder_eq (subflows : List Subflow) :
    subflowsInOrder subflows = sortSubflows (subflows.map Subflow.linearize) :=
  map_sortSubflows Subflow.phase_linearize Subflow.id_linearize

theorem subflowsInOrder_subflowsInOrder (subflows : List Subflow) :
    subflowsInOrder (subflowsInOrder subflows) = subflowsInOrder subflows := by
  have hlinearize : (subflowsInOrder subflows).map Subflow.linearize =
      subflowsInOrder subflows := by
    rw [subflowsInOrder, List.map_map]
    exact List.map_congr_left fun s _ => s.linearize_linearize
  rw [subflowsInOrder_eq (subflowsInOrder subflows), hlinearize, subflowsInOrder_eq,
    sortSubflows_sortSubflows]

theorem subflowsInOrder_map_cleanNames (subflows : List Subflow) :
    subflowsInOrder (subflows.map Subflow.cleanNames) =
      (subflowsInOrder subflows).map Subflow.cleanNames := by
  have hsort : sortSubflows (subflows.map Subflow.cleanNames) =
      (sortSubflows subflows).map Subflow.cleanNames :=
    (map_sortSubflows (f := Subflow.cleanNames) (fun _ => rfl) fun _ => rfl).symm
  rw [subflowsInOrder, hsort, subflowsInOrder, List.map_map, List.map_map]
  exact List.map_congr_left fun s _ => s.linearize_cleanNames

namespace Flow

theorem normalize_eq (f : Flow) :
    f.normalize =
      { f with steps := inOrder f.steps, subflows := f.subflows.map subflowsInOrder } := rfl

/-- **A flow in order stays as it is.** -/
theorem normalize_normalize (f : Flow) : f.normalize.normalize = f.normalize := by
  have hsubflows : (f.subflows.map subflowsInOrder).map subflowsInOrder =
      f.subflows.map subflowsInOrder := by
    rw [Option.map_map]
    exact congrArg (Option.map · f.subflows) (funext subflowsInOrder_subflowsInOrder)
  simp only [normalize_eq, inOrder_inOrder, hsubflows]

/-- **Names can be cleaned before or after a flow is put in order.** -/
theorem normalize_cleanNames (f : Flow) : f.cleanNames.normalize = f.normalize.cleanNames := by
  have hsubflows : (f.subflows.map (·.map Subflow.cleanNames)).map subflowsInOrder =
      (f.subflows.map subflowsInOrder).map (·.map Subflow.cleanNames) := by
    rw [Option.map_map, Option.map_map]
    exact congrArg (Option.map · f.subflows) (funext subflowsInOrder_map_cleanNames)
  simp only [normalize_eq, cleanNames, inOrder_map_cleanName, hsubflows]

/-- The steps and subflows of a flow have their names on one line each. -/
structure NamesOnOneLine (f : Flow) : Prop where
  steps : ∀ s ∈ f.steps, OnOneLine s.name
  subflows : ∀ s ∈ f.subflowList, OnOneLine s.name
  subflowSteps : ∀ s ∈ f.subflowList, ∀ t ∈ s.stepList, OnOneLine t.name

theorem namesOnOneLine_cleanNames (f : Flow) : f.cleanNames.NamesOnOneLine := by
  have hsubflows : f.cleanNames.subflowList = f.subflowList.map Subflow.cleanNames := by
    unfold subflowList cleanNames
    cases f.subflows <;> rfl
  have hsteps : ∀ s : Subflow, s.cleanNames.stepList = s.stepList.map Step.cleanName := by
    intro s
    unfold Subflow.stepList Subflow.cleanNames
    cases s.steps <;> rfl
  refine ⟨?_, ?_, ?_⟩
  · exact List.forall_mem_map.mpr fun s _ => onOneLine_cleanName s.name
  · rw [hsubflows]
    exact List.forall_mem_map.mpr fun s _ => onOneLine_cleanName s.name
  · rw [hsubflows]
    refine List.forall_mem_map.mpr fun s _ => ?_
    rw [hsteps]
    exact List.forall_mem_map.mpr fun t _ => onOneLine_cleanName t.name

/-- What is read from a document has gone through both passes. -/
theorem exists_of_ofDocument {path contents : String} {fields : List (String × Value)} {f : Flow}
    (h : Flow.ofDocument path contents fields = .ok f) :
    ∃ g : Flow, f = g.cleanNames.normalize := by
  unfold Flow.ofDocument at h
  cases hv : Document.loadYaml (some path) contents with
  | error fault =>
    rw [hv] at h
    cases h
  | ok v =>
    rw [hv] at h
    change Flow.ofValue path fields v = .ok f at h
    unfold Flow.ofValue at h
    split at h
    · cases h
    · split at h
      · rename_i g _
        cases h
        exact ⟨g, rfl⟩
      · cases h
      · cases h

/-- **Both passes settle at once.** Putting a flow in order twice is doing so once, and so is
cleaning its names twice; and the two can be done in either order. So a flow that has been read
from a document is left as it is by both, and has all its names on one line. -/
theorem passes_settle :
    (∀ f : Flow, f.normalize.normalize = f.normalize ∧ f.cleanNames.cleanNames = f.cleanNames ∧
        f.cleanNames.normalize = f.normalize.cleanNames) ∧
      ∀ path contents fields f, Flow.ofDocument path contents fields = .ok f →
        f.normalize = f ∧ f.cleanNames = f ∧ f.NamesOnOneLine := by
  refine ⟨fun f => ⟨f.normalize_normalize, f.cleanNames_cleanNames, f.normalize_cleanNames⟩, ?_⟩
  intro path contents fields f h
  obtain ⟨g, rfl⟩ := exists_of_ofDocument h
  have hclean : g.cleanNames.normalize.cleanNames = g.cleanNames.normalize := by
    rw [← normalize_cleanNames, cleanNames_cleanNames]
  refine ⟨normalize_normalize _, hclean, ?_⟩
  rw [← hclean]
  exact namesOnOneLine_cleanNames _

/-! ### A document with its steps out of order -/

/-- A document in which the start step comes last, with a name on two lines. -/
def unsettled : String :=
  "steps:\n- id: b\n- id: a\n  path: start\n  name: \"x\\ny\"\n  links:\n  - id: l\n    to: b\n"

/-- It is read as a flow, which both passes leave as it is. -/
theorem passes_settle_unsettled :
    ∃ f, Flow.ofDocument "flow" unsettled [] = .ok f ∧
      f.normalize = f ∧ f.cleanNames = f ∧ f.NamesOnOneLine := by
  have hread : (Flow.ofDocument "flow" unsettled []).isOk := by decide +kernel
  cases h : Flow.ofDocument "flow" unsettled [] with
  | error fault =>
    rw [h] at hread
    cases hread
  | ok f => exact ⟨f, rfl, passes_settle.2 _ _ _ f h⟩

end Flow

end ApiSuite
