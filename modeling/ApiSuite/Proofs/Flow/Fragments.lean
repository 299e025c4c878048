import ApiSuite.Flow.Fragment
import ApiSuite.Proofs.Flow.Reach
import ApiSuite.Proofs.Flow.Rearrangement

/-!
# Steps are addressed in a flow in order as in its document

A fragment leads to a graph, that of the main steps or that of a subflow, and looks for an
identifier there (`ApiSuite.Flow.place?`). How it is cut in two does not depend on the order of a
flow, only on whether there are subflows. So a fragment leads to the graph in order in the flow in
order (`ApiSuite.Flow.place?_normalize`), provided that there is one subflow of each identifier;
of two, the sort may put the second first.

Where identifiers are distinct, a step of a graph is a step of the graph in order unless it is
**unreached** (`ApiSuite.mem_inOrder_iff`): there is a start step, and no links lead from it to the
step. Both together say what becomes of an address: it is lost if its step is unreached, and leads
to the same step otherwise (`ApiSuite.Flow.normalize_keeps_addresses`).
-/

namespace ApiSuite

/-! ### Looking for a step in a graph in order -/

/-- A step is unreached in a graph: the graph has a start step, and no links lead from there to the
step. -/
def IsUnreached (steps : List Step) (s : Step) : Prop :=
  ∃ start, steps.find? Step.isStart = some start ∧
    ¬Relation.ReflTransGen (LinksTo steps) start s

section Graph

variable {steps : List Step} {start s : Step} {id : String}

/-- Where identifiers are distinct, a step is found under its own. -/
theorem findStep_eq_some_iff (hdistinct : (steps.map Step.id).Nodup) :
    findStep id steps = some s ↔ s ∈ steps ∧ s.id = id := by
  constructor
  · exact fun h => ⟨List.mem_of_find?_eq_some h, findStep_id h⟩
  · rintro ⟨hs, rfl⟩
    obtain ⟨t, ht⟩ := exists_findStep ⟨s, hs, rfl⟩
    have heq : t = s := List.inj_on_of_nodup_map hdistinct (List.mem_of_find?_eq_some ht) hs
      (findStep_id ht)
    rw [ht, heq]

theorem mem_of_reflTransGen (hstart : start ∈ steps)
    (h : Relation.ReflTransGen (LinksTo steps) start s) : s ∈ steps := by
  rcases Relation.ReflTransGen.cases_tail h with rfl | ⟨_, -, l, -, hl⟩
  · exact hstart
  · exact List.mem_of_find?_eq_some hl

theorem inOrder_of_noStart (h : steps.find? Step.isStart = none) : inOrder steps = steps := by
  rw [inOrder, linearize?, h]
  rfl

/-- Putting a graph in order adds no step. -/
theorem inOrder_subset (steps : List Step) : inOrder steps ⊆ steps := by
  cases hstart : steps.find? Step.isStart with
  | none =>
    rw [inOrder_of_noStart hstart]
    exact List.Subset.refl steps
  | some start =>
    obtain ⟨rest, hout, -, -, hfirst, -⟩ := linearize?_lists_reached hstart
    rw [inOrder, hout, Option.getD_some]
    exact List.cons_subset.mpr ⟨List.mem_of_find?_eq_some hstart,
      fun t ht => List.mem_of_find?_eq_some (hfirst t ht)⟩

/-- **A graph in order has the steps of the graph that are not unreached.** -/
theorem mem_inOrder_iff (hdistinct : (steps.map Step.id).Nodup) :
    s ∈ inOrder steps ↔ s ∈ steps ∧ ¬IsUnreached steps s := by
  cases hstart : steps.find? Step.isStart with
  | none =>
    have hreached : ¬IsUnreached steps s := by
      rintro ⟨start, h, -⟩
      cases hstart.symm.trans h
    rw [inOrder_of_noStart hstart, and_iff_left hreached]
  | some start =>
    have hmem : start ∈ steps := List.mem_of_find?_eq_some hstart
    obtain ⟨rest, hout, hids, -⟩ := linearize?_lists_reached hstart
    have horder : inOrder steps = start :: rest := by rw [inOrder, hout, Option.getD_some]
    have hsub : start :: rest ⊆ steps := horder ▸ inOrder_subset steps
    have hreach : ∀ id, Reaches steps start id ↔
        ∃ t, Relation.ReflTransGen (LinksTo steps) start t ∧ t.id = id := fun _ =>
      reaches_iff_reflTransGen ((findStep_eq_some_iff hdistinct).mpr ⟨hmem, rfl⟩)
    have hunreached : ¬IsUnreached steps s ↔
        Relation.ReflTransGen (LinksTo steps) start s := by
      simp [IsUnreached, hstart]
    rw [horder, hunreached]
    -- both ways, the step is told by its identifier
    constructor
    · intro hs
      obtain ⟨t, ht, hid⟩ := (hreach s.id).mp ((hids s.id).mp (List.mem_map_of_mem hs))
      have heq : t = s := List.inj_on_of_nodup_map hdistinct (mem_of_reflTransGen hmem ht)
        (hsub hs) hid
      exact ⟨hsub hs, heq ▸ ht⟩
    · rintro ⟨hs, hlinks⟩
      obtain ⟨t, ht, hid⟩ := List.mem_map.mp ((hids s.id).mpr ((hreach s.id).mpr ⟨s, hlinks, rfl⟩))
      have heq : t = s := List.inj_on_of_nodup_map hdistinct (hsub ht) hs hid
      exact heq ▸ ht

/-- Putting a graph in order keeps identifiers distinct. -/
theorem nodup_inOrder (hdistinct : (steps.map Step.id).Nodup) :
    ((inOrder steps).map Step.id).Nodup := by
  cases hstart : steps.find? Step.isStart with
  | none => rwa [inOrder_of_noStart hstart]
  | some start =>
    obtain ⟨rest, hout, -, hnodup, -⟩ := linearize?_lists_reached hstart
    rwa [inOrder, hout, Option.getD_some]

/-- **A step is found in a graph in order if it is found in the graph, and is not unreached.** -/
theorem findStep_inOrder_eq_some_iff (hdistinct : (steps.map Step.id).Nodup) :
    findStep id (inOrder steps) = some s ↔ findStep id steps = some s ∧ ¬IsUnreached steps s := by
  rw [findStep_eq_some_iff (nodup_inOrder hdistinct), findStep_eq_some_iff hdistinct,
    mem_inOrder_iff hdistinct]
  exact and_right_comm

end Graph

/-! ### Where fragments lead -/

theorem Subflow.stepList_linearize (s : Subflow) : s.linearize.stepList = inOrder s.stepList := by
  rw [linearize_eq, stepList, stepList]
  cases s.steps <;> rfl

namespace Flow

/-- The steps among which a fragment looks for one, and the identifier that it looks for. -/
def place? (f : Flow) (fragment : String) : Option (List Step × String) :=
  match splitFragment? fragment with
  | some (subflow, step) =>
    if f.subflowList.isEmpty then some (f.steps, fragment)
    else (f.findSubflow subflow).map fun s => (s.stepList, step)
  | none => some (f.steps, fragment)

/-- In a flow the identifiers of subflows are distinct, and so are those of the steps of every
graph. -/
structure HasDistinctIds (f : Flow) : Prop where
  steps : (f.steps.map Step.id).Nodup
  subflows : (f.subflowList.map Subflow.id).Nodup
  subflowSteps : ∀ s ∈ f.subflowList, (s.stepList.map Step.id).Nodup

section Fragments

variable {f : Flow} {fragment id : String} {steps : List Step} {s : Step}

/-- **A fragment addresses the step with its identifier where it leads to.** -/
theorem stepAt_eq (f : Flow) (fragment : String) :
    f.stepAt fragment = (f.place? fragment).bind fun place => findStep place.2 place.1 := by
  unfold stepAt place?
  cases splitFragment? fragment with
  | none => rfl
  | some parts =>
    cases f.subflowList with
    | nil => rfl
    | cons s rest => cases hfound : f.findSubflow parts.1 <;> simp [hfound]

theorem HasDistinctIds.of_place? (hf : f.HasDistinctIds)
    (hplace : f.place? fragment = some (steps, id)) : (steps.map Step.id).Nodup := by
  unfold place? at hplace
  split at hplace
  · split at hplace
    · cases hplace
      exact hf.steps
    · obtain ⟨s, hs, heq⟩ := Option.map_eq_some_iff.mp hplace
      cases heq
      exact hf.subflowSteps s (List.mem_of_find?_eq_some hs)
  · cases hplace
    exact hf.steps

theorem subflowList_normalize (f : Flow) :
    f.normalize.subflowList = subflowsInOrder f.subflowList := by
  rw [normalize_eq, subflowList, subflowList]
  cases f.subflows with
  | none => simp [subflowsInOrder, sortSubflows]
  | some subflows => rfl

/-- Of distinct identifiers, the same subflow is found wherever it stands. -/
theorem findSubflow_normalize (hdistinct : (f.subflowList.map Subflow.id).Nodup) (id : String) :
    f.normalize.findSubflow id = (f.findSubflow id).map Subflow.linearize := by
  have hid : (fun s : Subflow => s.id == id) ∘ Subflow.linearize = fun s => s.id == id :=
    funext fun s => by rw [Function.comp_apply, s.id_linearize]
  rw [findSubflow, subflowList_normalize, subflowsInOrder, List.find?_map, hid, findSubflow]
  exact congrArg (Option.map Subflow.linearize)
    (find?_key_eq_of_perm (sortSubflows_perm f.subflowList).symm hdistinct id)

/-- **A fragment leads to the graph in order** in the flow in order. -/
theorem place?_normalize (hdistinct : (f.subflowList.map Subflow.id).Nodup) (fragment : String) :
    f.normalize.place? fragment =
      (f.place? fragment).map fun place => (inOrder place.1, place.2) := by
  have hempty : f.normalize.subflowList.isEmpty = f.subflowList.isEmpty := by
    have hlength : (sortSubflows f.subflowList).length = f.subflowList.length :=
      (sortSubflows_perm f.subflowList).length_eq
    rw [subflowList_normalize, subflowsInOrder, List.isEmpty_map, Bool.eq_iff_iff,
      List.isEmpty_iff_length_eq_zero, List.isEmpty_iff_length_eq_zero, hlength]
  unfold place?
  cases splitFragment? fragment with
  | none => rfl
  | some parts =>
    simp only [hempty, findSubflow_normalize hdistinct]
    split
    · rfl
    · simp only [Option.map_map]
      refine congrArg (Option.map · (f.findSubflow parts.1)) (funext fun s => ?_)
      simp only [Function.comp_apply, s.stepList_linearize]

/-- A step is lost to a fragment: it is unreached in the graph that the fragment leads to. -/
def IsLost (f : Flow) (fragment : String) (s : Step) : Prop :=
  ∃ steps id, f.place? fragment = some (steps, id) ∧ IsUnreached steps s

theorem stepAt_normalize_eq_some_iff (hf : f.HasDistinctIds) :
    f.normalize.stepAt fragment = some s ↔
      f.stepAt fragment = some s ∧ ¬f.IsLost fragment s := by
  rw [stepAt_eq, stepAt_eq, place?_normalize hf.subflows]
  unfold IsLost
  cases hplace : f.place? fragment with
  | none => simp
  | some place =>
    obtain ⟨steps, id⟩ := place
    have hiff : findStep id (inOrder steps) = some s ↔
        findStep id steps = some s ∧ ¬IsUnreached steps s :=
      findStep_inOrder_eq_some_iff (hf.of_place? hplace)
    simp only [Option.map_some, Option.bind_some, hiff]
    refine and_congr_right fun _ => not_congr ?_
    constructor
    · exact fun h => ⟨steps, id, rfl, h⟩
    · rintro ⟨_, _, heq, h⟩
      cases heq
      exact h

/-- **Addresses are kept.** In a flow with distinct identifiers, a fragment addresses the same step
before and after the flow is put in order, or none after; and it addresses none after just if it
addressed none before, or a step that is unreached in the graph that the fragment leads to. -/
theorem normalize_keeps_addresses (hf : f.HasDistinctIds) (fragment : String) :
    (f.normalize.stepAt fragment = f.stepAt fragment ∨ f.normalize.stepAt fragment = none) ∧
      (f.normalize.stepAt fragment = none ↔
        f.stepAt fragment = none ∨ ∃ s, f.stepAt fragment = some s ∧ f.IsLost fragment s) := by
  cases hafter : f.normalize.stepAt fragment with
  | some s =>
    obtain ⟨hbefore, hkept⟩ := (stepAt_normalize_eq_some_iff hf).mp hafter
    refine ⟨.inl hbefore.symm, ?_⟩
    simp [hbefore, hkept]
  | none =>
    refine ⟨.inr rfl, iff_of_true rfl ?_⟩
    cases hbefore : f.stepAt fragment with
    | none => exact .inl rfl
    | some s =>
      refine .inr ⟨s, rfl, Classical.byContradiction fun hkept => ?_⟩
      cases hafter.symm.trans ((stepAt_normalize_eq_some_iff hf).mpr ⟨hbefore, hkept⟩)

end Fragments

/-! ### A subflow in which a step is lost -/

/-- A cycle of two steps, and a step that leads there. -/
def cycleWithTail : List Step := linked "c.d" "request" ["a"] :: cycle

/-- The fragment `t.c.d` addresses a step that no links lead to. -/
theorem normalize_keeps_addresses_suite :
    (suite cycle [idle, teardown cycleWithTail]).HasDistinctIds ∧
      ((suite cycle [idle, teardown cycleWithTail]).normalize.stepAt "t.c.d" =
          (suite cycle [idle, teardown cycleWithTail]).stepAt "t.c.d" ∨
        (suite cycle [idle, teardown cycleWithTail]).normalize.stepAt "t.c.d" = none) ∧
      ((suite cycle [idle, teardown cycleWithTail]).normalize.stepAt "t.c.d" = none ↔
        (suite cycle [idle, teardown cycleWithTail]).stepAt "t.c.d" = none ∨
          ∃ s, (suite cycle [idle, teardown cycleWithTail]).stepAt "t.c.d" = some s ∧
            (suite cycle [idle, teardown cycleWithTail]).IsLost "t.c.d" s) := by
  have hf : (suite cycle [idle, teardown cycleWithTail]).HasDistinctIds :=
    ⟨by decide, by decide, by decide⟩
  exact ⟨hf, normalize_keeps_addresses hf "t.c.d"⟩

end Flow

end ApiSuite
