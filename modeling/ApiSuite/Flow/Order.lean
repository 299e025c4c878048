import ApiSuite.Flow.Basic

/-!
# Flows in order of execution

A flow is brought into one order, whatever the order of its document: the subflows that run
before the main steps come first, then the untagged ones, then those that run after, by
identifier within each phase; and each graph lists the steps that are reached from its start
step in depth-first preorder, links being followed in the order they are listed. Steps that
are not reached are dropped. A graph without a start step keeps its order.

The walk keeps a stack of steps to visit and the list of those not yet visited, in which
links are looked up, so that a step is visited once and cycles end.
-/

namespace ApiSuite

/-! ### Subflows -/

/-- The place of a phase. -/
def Phase.rank : Option Phase → Nat
  | some .before => 0
  | none => 1
  | some .after => 2

/-- Whether a subflow may stand before another: by phase, then by identifier. -/
def Subflow.comesBefore (a b : Subflow) : Bool :=
  let i := Phase.rank a.phase
  let j := Phase.rank b.phase
  i < j || (i == j && decide (a.id ≤ b.id))

/-- Subflows in order; those that agree in phase and identifier keep theirs. -/
def sortSubflows (subflows : List Subflow) : List Subflow :=
  subflows.mergeSort Subflow.comesBefore

/-! ### Steps -/

/-- The first step with an identifier. -/
def findStep (id : String) (steps : List Step) : Option Step :=
  steps.find? fun s => s.id == id

/-- The steps that the links of a step lead to among some steps, in link order. -/
def linkTargets (steps : List Step) (s : Step) : List Step :=
  s.linkList.filterMap fun l => findStep l.target steps

/-- The steps whose identifier is another. -/
def without (id : String) (steps : List Step) : List Step :=
  steps.filter fun s => s.id != id

theorem length_without_lt {id : String} {steps : List Step}
    (h : (findStep id steps).isSome) : (without id steps).length < steps.length := by
  obtain ⟨s, hs⟩ := Option.isSome_iff_exists.mp h
  have hmem := List.mem_of_find?_eq_some hs
  have hid := List.find?_some hs
  exact List.length_filter_lt_length_iff_exists.mpr ⟨s, hmem, by simp_all⟩

/-- The walk from a stack of steps over those not yet visited. -/
def walk (unvisited : List Step) (stack : List Step) : List Step :=
  match stack with
  | [] => []
  | s :: stack =>
    if _h : (findStep s.id unvisited).isSome then
      let rest := without s.id unvisited
      s :: walk rest (linkTargets rest s ++ stack)
    else walk unvisited stack
termination_by (unvisited.length, stack.length)
decreasing_by
  · exact Prod.Lex.left _ _ (length_without_lt _h)
  · exact Prod.Lex.right _ (by simp)

/-- The steps reached from the start step, in the order they are reached; none without a
start step. -/
def linearize? (steps : List Step) : Option (List Step) :=
  (steps.find? Step.isStart).map fun start => walk steps [start]

/-- A subflow with its steps in order. -/
def Subflow.linearize (s : Subflow) : Subflow :=
  match linearize? s.stepList with
  | some steps => { s with steps := some steps }
  | none => s

/-- A flow in order of execution. -/
def Flow.normalize (f : Flow) : Flow :=
  { f with
    steps := (linearize? f.steps).getD f.steps
    subflows := f.subflows.map fun subflows => (sortSubflows subflows).map Subflow.linearize }

/-! ### Names -/

/-- A text with every line break written as a space. -/
def flattenBreaks : List Char → List Char
  | '\r' :: '\n' :: cs => ' ' :: flattenBreaks cs
  | '\n' :: cs => ' ' :: flattenBreaks cs
  | c :: cs => c :: flattenBreaks cs
  | [] => []

/-- A name on one line. -/
def cleanName (name : String) : String := String.ofList (flattenBreaks name.toList)

/-- A step with its name on one line. -/
def Step.cleanName (s : Step) : Step := { s with name := ApiSuite.cleanName s.name }

/-- A subflow with all names on one line. -/
def Subflow.cleanNames (s : Subflow) : Subflow :=
  { s with name := ApiSuite.cleanName s.name, steps := s.steps.map (·.map Step.cleanName) }

/-- A flow with the names of its steps and subflows on one line. -/
def Flow.cleanNames (f : Flow) : Flow :=
  { f with
    steps := f.steps.map Step.cleanName
    subflows := f.subflows.map (·.map Subflow.cleanNames) }

end ApiSuite
