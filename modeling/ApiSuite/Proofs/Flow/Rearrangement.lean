import ApiSuite.Proofs.Flow.Idempotence
import Mathlib

/-!
# The order of a flow is not that of its document

The order of execution is a function of what a flow is made of: two flows that differ in the order
of their subflows, their steps and the steps of their subflows are put in the same order
(`ApiSuite.Flow.normalize_of_rearranged`). This needs the flow to be **unambiguous**
(`ApiSuite.Flow.Unambiguous`): with two steps of one identifier, or two start steps, it is the
first in the document that counts, and of two subflows with equal keys the first comes first.

Where a flow is ambiguous the document still has its say only among subflows with equal keys. That
is the other half of `ApiSuite.Flow.normalize_orders`, which says of every flow what its subflows
come to.
-/

namespace ApiSuite

/-! ### Graphs in another order -/

/-- In a graph identifiers are those of one step each, and one step is a start step. -/
structure Unambiguous (steps : List Step) : Prop where
  distinct : (steps.map Step.id).Nodup
  starts : steps.countP Step.isStart = 1

section Steps

/-- The order of a list does not matter to a search for the only element of its kind. -/
theorem find?_eq_of_perm {α : Type} {p : α → Bool} {xs ys : List α} (h : xs.Perm ys)
    (hunique : ∀ a ∈ xs, ∀ b ∈ xs, p a → p b → a = b) : ys.find? p = xs.find? p := by
  cases hx : xs.find? p with
  | none =>
    refine List.find?_eq_none.mpr fun b hb => ?_
    exact List.find?_eq_none.mp hx b (h.mem_iff.mpr hb)
  | some a =>
    have ha : a ∈ xs := List.mem_of_find?_eq_some hx
    have hpa : p a := List.find?_some hx
    obtain ⟨b, hb⟩ := Option.isSome_iff_exists.mp
      (List.find?_isSome.mpr ⟨a, h.mem_iff.mp ha, hpa⟩)
    have hbx : b ∈ xs := h.mem_iff.mpr (List.mem_of_find?_eq_some hb)
    rw [hb, hunique b hbx a ha (List.find?_some hb) hpa]

/-- Nor does it to a search by a key, if keys are distinct. -/
theorem find?_key_eq_of_perm {α : Type} {key : α → String} {xs ys : List α} (h : xs.Perm ys)
    (hdistinct : (xs.map key).Nodup) (k : String) :
    ys.find? (fun a => key a == k) = xs.find? fun a => key a == k := by
  refine find?_eq_of_perm h fun a ha b hb hak hbk => ?_
  exact List.inj_on_of_nodup_map hdistinct ha hb ((eq_of_beq hak).trans (eq_of_beq hbk).symm)

variable {steps steps' : List Step}

theorem Unambiguous.start_unique (hs : Unambiguous steps) {s t : Step} (hmem : s ∈ steps)
    (hmem' : t ∈ steps) (hstart : s.isStart) (hstart' : t.isStart) : s = t := by
  have hone := hs.starts
  rw [List.countP_eq_length_filter, List.length_eq_one_iff] at hone
  obtain ⟨start, hfilter⟩ := hone
  have heq : ∀ u ∈ steps, u.isStart → u = start := fun u hu hus => by
    have hmem := List.mem_filter.mpr ⟨hu, hus⟩
    rw [hfilter] at hmem
    exact List.mem_singleton.mp hmem
  exact (heq s hmem hstart).trans (heq t hmem' hstart').symm

/-- **An unambiguous graph has the same order, however its steps are listed**: the walk asks for
the start step and for the steps of identifiers, and there is one of each. -/
theorem linearize?_of_perm (h : steps.Perm steps') (hs : Unambiguous steps) :
    linearize? steps' = linearize? steps := by
  refine linearize?_congr (find?_eq_of_perm h fun s hs' t ht => hs.start_unique hs' ht) ?_
  exact find?_key_eq_of_perm h hs.distinct

theorem inOrder_of_perm (h : steps.Perm steps') (hs : Unambiguous steps) :
    inOrder steps' = inOrder steps := by
  rw [inOrder, inOrder, linearize?_of_perm h hs]
  cases hnone : linearize? steps with
  | some out => rfl
  | none =>
    -- there is an order, as there is a start step
    have hpos : 0 < steps.countP Step.isStart := by simp [hs.starts]
    obtain ⟨s, hmem, hstart⟩ := List.countP_pos_iff.mp hpos
    exact absurd hstart (List.find?_eq_none.mp (linearize?_eq_none_iff.mp hnone) s hmem)

end Steps

/-! ### Subflows in another order -/

/-- A subflow is another one with its steps in another order. -/
structure Subflow.Rearranged (s s' : Subflow) : Prop where
  rest : s' = { s with steps := s'.steps }
  steps : Option.Rel List.Perm s.steps s'.steps

section Subflows

variable {subflows subflows' middle : List Subflow} {s s' : Subflow}

theorem Subflow.Rearranged.linearize_eq (h : s.Rearranged s')
    (hs : ∀ steps, s.steps = some steps → Unambiguous steps) : s'.linearize = s.linearize := by
  have hsteps : s'.steps.map inOrder = s.steps.map inOrder := by
    generalize hxs : s.steps = xs at hs
    generalize hys : s'.steps = ys
    have hrel := h.steps
    rw [hxs, hys] at hrel
    cases hrel with
    | none => rfl
    | some hperm => exact congrArg some (inOrder_of_perm hperm (hs _ rfl))
  rw [Subflow.linearize_eq, Subflow.linearize_eq, hsteps, h.rest]

theorem map_linearize_of_rearranged (h : List.Forall₂ Subflow.Rearranged subflows subflows')
    (hs : ∀ s ∈ subflows, ∀ steps, s.steps = some steps → Unambiguous steps) :
    subflows'.map Subflow.linearize = subflows.map Subflow.linearize := by
  induction h with
  | nil => rfl
  | cons hhead _ ih =>
    obtain ⟨hshead, hsrest⟩ := List.forall_mem_cons.mp hs
    rw [List.map_cons, List.map_cons, hhead.linearize_eq hshead, ih hsrest]

/-- Subflows with distinct identifiers and unambiguous graphs have the same order, however they
are listed, and however their steps are. -/
theorem subflowsInOrder_of_rearranged (h : subflows.Perm middle)
    (h' : List.Forall₂ Subflow.Rearranged middle subflows')
    (hdistinct : (subflows.map Subflow.id).Nodup)
    (hs : ∀ s ∈ subflows, ∀ steps, s.steps = some steps → Unambiguous steps) :
    subflowsInOrder subflows' = subflowsInOrder subflows := by
  have hmiddle : subflows'.map Subflow.linearize = middle.map Subflow.linearize :=
    map_linearize_of_rearranged h' fun s hmem => hs s (h.mem_iff.mpr hmem)
  have hids : (subflows.map Subflow.linearize).map Subflow.id = subflows.map Subflow.id := by
    rw [List.map_map]
    exact List.map_congr_left fun s _ => s.id_linearize
  rw [subflowsInOrder_eq, subflowsInOrder_eq, hmiddle]
  exact (sortSubflows_eq_of_perm (h.map Subflow.linearize) (hids ▸ hdistinct)).symm

end Subflows

/-! ### Flows in another order -/

namespace Flow

/-- A flow is another one with its steps, its subflows and the steps of its subflows in another
order. -/
structure Rearranged (f g : Flow) : Prop where
  rest : g = { f with steps := g.steps, subflows := g.subflows }
  steps : f.steps.Perm g.steps
  subflows : Option.Rel (fun xs ys => ∃ middle, List.Perm xs middle ∧
    List.Forall₂ Subflow.Rearranged middle ys) f.subflows g.subflows

/-- In a flow the identifiers of subflows are distinct and every graph is unambiguous. -/
structure Unambiguous (f : Flow) : Prop where
  steps : ApiSuite.Unambiguous f.steps
  distinct : (f.subflowList.map Subflow.id).Nodup
  subflows : ∀ s ∈ f.subflowList, ∀ steps, s.steps = some steps → ApiSuite.Unambiguous steps

variable {f g : Flow}

/-- **The order of an unambiguous flow is not that of its document.** -/
theorem normalize_of_rearranged (h : f.Rearranged g) (hf : f.Unambiguous) :
    g.normalize = f.normalize := by
  have hsubflows : g.subflows.map subflowsInOrder = f.subflows.map subflowsInOrder := by
    have hdistinct := hf.distinct
    have hgraphs := hf.subflows
    have hrel := h.subflows
    rw [subflowList] at hdistinct hgraphs
    generalize f.subflows = xs at hdistinct hgraphs hrel ⊢
    generalize g.subflows = ys at hrel ⊢
    cases hrel with
    | none => rfl
    | some hlist =>
      obtain ⟨middle, hperm, hrearranged⟩ := hlist
      exact congrArg some (subflowsInOrder_of_rearranged hperm hrearranged hdistinct hgraphs)
  rw [normalize_eq, normalize_eq, inOrder_of_perm h.steps hf.steps, hsubflows, h.rest]

/-- Subflows are in the order of their phases: those before the main steps, those beside them, and
those after them, each with its steps in order. They are the subflows of the document, and within
a phase identifiers ascend and equal ones have the order of the document. -/
def InPhases (subflows ordered : List Subflow) : Prop :=
  ∃ before beside after, ordered = (before ++ beside ++ after).map Subflow.linearize ∧
    (before ++ beside ++ after).Perm subflows ∧ Ranked (some .before) subflows before ∧
    Ranked none subflows beside ∧ Ranked (some .after) subflows after

theorem inPhases_subflowsInOrder (subflows : List Subflow) :
    InPhases subflows (subflowsInOrder subflows) := by
  have hphases := sortSubflows_eq_phases subflows
  refine ⟨ofPhase (some .before) (sortSubflows subflows), ofPhase none (sortSubflows subflows),
    ofPhase (some .after) (sortSubflows subflows), ?_, ?_, ranked_ofPhase _ _,
    ranked_ofPhase _ _, ranked_ofPhase _ _⟩
  · rw [← hphases, subflowsInOrder]
  · rw [← hphases]
    exact sortSubflows_perm subflows

/-- **What a flow is put in order to.** An unambiguous flow has one order, however its document
lists its steps, its subflows and their steps. And of every flow, the subflows are put in the order
of their phases. -/
theorem normalize_orders :
    (∀ f g : Flow, f.Unambiguous → f.Rearranged g → g.normalize = f.normalize) ∧
      ∀ f : Flow, Option.Rel InPhases f.subflows f.normalize.subflows := by
  refine ⟨fun f g hf h => normalize_of_rearranged h hf, fun f => ?_⟩
  rw [normalize_eq]
  cases f.subflows with
  | none => exact .none
  | some subflows => exact .some (inPhases_subflowsInOrder subflows)

/-! ### A flow and the same flow in another order -/

/-- A subflow that runs before the main steps, with its steps in the given order. -/
def setup (steps : List Step) : Subflow := ⟨some [("when", "Before")], "v", "", some steps⟩

/-- A subflow that runs after the main steps, with its steps in the given order. -/
def teardown (steps : List Step) : Subflow := ⟨some [("when", "After")], "t", "", some steps⟩

/-- A subflow without steps that runs beside the main steps. -/
def idle : Subflow := ⟨none, "u", "", none⟩

/-- A flow with its steps and subflows as given. -/
def suite (steps : List Step) (subflows : List Subflow) : Flow :=
  ⟨none, "suite", "suite.flow", steps, some subflows, none⟩

/-- A cycle of two steps. -/
def cycle : List Step := [linked "a" startPath ["b"], linked "b" "request" ["a"]]

theorem unambiguous_cycle : ApiSuite.Unambiguous cycle := ⟨by decide, by decide⟩

/-- Main steps, subflows and the steps of subflows in another order are put in order alike, and
what runs before the main steps comes first, whatever its identifier. -/
theorem normalize_orders_suite :
    (suite cycle [teardown cycle, idle, setup cycle]).Unambiguous ∧
      (suite cycle.reverse [setup cycle.reverse, idle, teardown cycle.reverse]).normalize =
        (suite cycle [teardown cycle, idle, setup cycle]).normalize ∧
      (suite cycle [teardown cycle, idle, setup cycle]).normalize.subflows =
        some [setup cycle, idle, teardown cycle] := by
  have hf : (suite cycle [teardown cycle, idle, setup cycle]).Unambiguous := by
    refine ⟨unambiguous_cycle, by decide, ?_⟩
    simpa [suite, teardown, idle, setup, subflowList] using unambiguous_cycle
  have hsteps : cycle.Perm cycle.reverse := (List.reverse_perm cycle).symm
  have hsetup : (setup cycle).Rearranged (setup cycle.reverse) := ⟨rfl, .some hsteps⟩
  have hteardown : (teardown cycle).Rearranged (teardown cycle.reverse) := ⟨rfl, .some hsteps⟩
  have h : (suite cycle [teardown cycle, idle, setup cycle]).Rearranged
      (suite cycle.reverse [setup cycle.reverse, idle, teardown cycle.reverse]) := by
    refine ⟨rfl, hsteps, .some ⟨[setup cycle, idle, teardown cycle], ?_, ?_⟩⟩
    · exact (List.reverse_perm _).symm
    · exact .cons hsetup (.cons ⟨rfl, .none⟩ (.cons hteardown .nil))
  exact ⟨hf, normalize_orders.1 _ _ hf h, by cbv⟩

end Flow

end ApiSuite
