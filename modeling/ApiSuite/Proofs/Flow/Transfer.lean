import ApiSuite.Proofs.Flow.Reach

/-!
# Walks carried from one graph to another

What the walk makes of a graph depends on the graph in two ways only: which step it begins with,
and which step each link leads to. This file carries a walk from one graph of steps over to
another in which the links lead alike (`ApiSuite.Follows.transfer`). The steps may be changed on
the way, as long as the walk does not see the change (`ApiSuite.Inert`): identifiers, links and
the marks of start steps stay.

The links need to lead alike only where the walk looks: at the links of the steps that it lists,
and of these at the ones whose target has not been entered before it begins. That is what lets a
graph be compared with its own order, in which the steps that are not reached are missing, and in
which the identifier of the start step may find another step than before. Three comparisons of
this kind follow:

| the second graph | theorem |
|---|---|
| has the steps changed, but not for the walk | `ApiSuite.linearize?_map` |
| finds the same step for every identifier | `ApiSuite.linearize?_congr` |
| is the first graph in order | `ApiSuite.linearize?_of_linearize?` |
-/

namespace ApiSuite

/-! ### Changes that the walk does not see -/

/-- A change of steps leaves alone what the walk looks at. -/
structure Inert (f : Step → Step) : Prop where
  id : ∀ s, (f s).id = s.id
  links : ∀ s, (f s).links.getD [] = s.links.getD []
  isStart : ∀ s, (f s).isStart = s.isStart

theorem inert_id : Inert fun s => s := ⟨fun _ => rfl, fun _ => rfl, fun _ => rfl⟩

section Map

variable {f : Step → Step} {steps : List Step}

theorem Inert.findStep_map (hf : Inert f) (id : String) :
    findStep id (steps.map f) = (findStep id steps).map f := by
  rw [findStep, List.find?_map]
  refine congrArg (Option.map f) (congrArg (List.find? · steps) (funext fun s => ?_))
  rw [Function.comp_apply, hf.id]

theorem Inert.find?_isStart_map (hf : Inert f) :
    (steps.map f).find? Step.isStart = (steps.find? Step.isStart).map f := by
  rw [List.find?_map]
  exact congrArg (Option.map f) (congrArg (List.find? · steps) (funext hf.isStart))

end Map

/-! ### The walk -/

section Walk

variable {f : Step → Step} {steps steps' out : List Step} {visited visited' : List String}
  {links : List Link} {start : Step}

/-- A link to what has been entered is passed over, whether or not it leads to a step. -/
theorem Follows.skip {l : Link} (hl : l.target ∈ visited)
    (h : Follows steps visited links out visited') :
    Follows steps visited (l :: links) out visited' := by
  cases ht : findStep l.target steps with
  | none => exact .unknown ht h
  | some t => exact .seen ht (findStep_id ht ▸ hl) h

/-- **A walk in one graph is a walk in another**, in which the links that it follows lead alike,
those to what was entered before it excepted. -/
theorem Follows.transfer (hf : Inert f) (h : Follows steps visited links out visited')
    (hlinks : ∀ l ∈ links, l.target ∉ visited →
      findStep l.target steps' = (findStep l.target steps).map f)
    (hout : ∀ s ∈ out, ∀ l ∈ s.links.getD [], l.target ∉ visited →
      findStep l.target steps' = (findStep l.target steps).map f) :
    Follows steps' visited links (out.map f) visited' := by
  induction h with
  | done visited => exact .done visited
  | @unknown visited _ l ls _ hl _ ih =>
    obtain ⟨hhead, hrest⟩ := List.forall_mem_cons.mp hlinks
    by_cases hv : l.target ∈ visited
    · exact (ih hrest hout).skip hv
    · refine .unknown ?_ (ih hrest hout)
      rw [hhead hv, hl, Option.map_none]
  | seen hl ht _ ih =>
    obtain ⟨-, hrest⟩ := List.forall_mem_cons.mp hlinks
    exact (ih hrest hout).skip (findStep_id hl ▸ ht)
  | @enter visited v₁ _ l ls below after t hl ht hbelow _ ihb iha =>
    obtain ⟨hhead, hrest⟩ := List.forall_mem_cons.mp hlinks
    obtain ⟨htout, hmore⟩ := List.forall_mem_cons.mp hout
    obtain ⟨hbout, haout⟩ := List.forall_mem_append.mp hmore
    have hnew : l.target ∉ visited := findStep_id hl ▸ ht
    have hft : findStep l.target steps' = some (f t) := by rw [hhead hnew, hl, Option.map_some]
    -- what had not been entered when `t` was left had not been entered before it either
    have hsub : visited ⊆ v₁ := fun id hid => hbelow.subset (List.mem_cons_of_mem _ hid)
    have hbelow' := ihb
      (fun l' hl' hv => htout l' hl' fun hmem => hv (List.mem_cons_of_mem _ hmem))
      (fun s hs l' hl' hv => hbout s hs l' hl' fun hmem => hv (List.mem_cons_of_mem _ hmem))
    have hafter' := iha (fun l' hl' hv => hrest l' hl' fun hmem => hv (hsub hmem))
      (fun s hs l' hl' hv => haout s hs l' hl' fun hmem => hv (hsub hmem))
    rw [List.map_append, List.map_cons]
    refine .enter hft (by rwa [hf.id]) ?_ hafter'
    rwa [hf.id, hf.links]

/-- The preorder from a step is carried over if the links of the steps listed lead alike. Links
back to the start step do not count. -/
theorem IsPreorder.transfer (hf : Inert f) (h : IsPreorder steps start out)
    (hout : ∀ s ∈ out, ∀ l ∈ s.links.getD [], l.target ≠ start.id →
      findStep l.target steps' = (findStep l.target steps).map f) :
    IsPreorder steps' (f start) (out.map f) := by
  obtain ⟨below, visited, hbelow, rfl⟩ := h
  obtain ⟨hstart, hrest⟩ := List.forall_mem_cons.mp hout
  have hwalk : Follows steps' [start.id] (start.links.getD []) (below.map f) visited :=
    hbelow.transfer hf (fun l hl hv => hstart l hl fun he => hv (by simp [he]))
      (fun s hs l hl hv => hrest s hs l hl fun he => hv (by simp [he]))
  refine ⟨below.map f, visited, ?_, List.map_cons⟩
  rwa [hf.id, hf.links]

end Walk

/-! ### Graphs in order -/

section Linearize

variable {f : Step → Step} {steps steps' out : List Step}

theorem linearize?_eq_some_iff :
    linearize? steps = some out ↔
      ∃ start, steps.find? Step.isStart = some start ∧ IsPreorder steps start out := by
  rw [linearize?, Option.map_eq_some_iff]
  refine exists_congr fun start => and_congr_right fun hstart => ?_
  exact (isPreorder_iff (List.mem_of_find?_eq_some hstart)).symm

theorem linearize?_eq_none_iff :
    linearize? steps = none ↔ steps.find? Step.isStart = none := by
  rw [linearize?, Option.map_eq_none_iff]

/-- **A change that the walk does not see can be made before or after it.** -/
theorem linearize?_map (hf : Inert f) :
    linearize? (steps.map f) = (linearize? steps).map (List.map f) := by
  cases h : linearize? steps with
  | none =>
    rw [Option.map_none, linearize?_eq_none_iff, hf.find?_isStart_map,
      linearize?_eq_none_iff.mp h, Option.map_none]
  | some out =>
    obtain ⟨start, hstart, hpre⟩ := linearize?_eq_some_iff.mp h
    rw [Option.map_some, linearize?_eq_some_iff]
    refine ⟨f start, ?_, hpre.transfer hf fun _ _ _ _ _ => hf.findStep_map _⟩
    rw [hf.find?_isStart_map, hstart, Option.map_some]

/-- **Graphs with the same first start step, in which every identifier finds the same step, have
the same order.** -/
theorem linearize?_congr (hstart : steps'.find? Step.isStart = steps.find? Step.isStart)
    (hfind : ∀ id, findStep id steps' = findStep id steps) :
    linearize? steps' = linearize? steps := by
  cases h : linearize? steps with
  | none => rw [linearize?_eq_none_iff, hstart, linearize?_eq_none_iff.mp h]
  | some out =>
    obtain ⟨start, hs, hpre⟩ := linearize?_eq_some_iff.mp h
    have hpre' : IsPreorder steps' start (out.map fun s => s) :=
      hpre.transfer inert_id fun _ _ l _ _ => by rw [hfind, Option.map_id']
    rw [List.map_id'] at hpre'
    exact linearize?_eq_some_iff.mpr ⟨start, hstart.trans hs, hpre'⟩

/-! ### The order of a graph in order -/

section Below

variable {below : List Step} {visited : List String} {start : Step} {id : String}

/-- Below the start step, an identifier finds in the list what it found in the graph. -/
theorem findStep_below {s : Step} (h : Follows steps [start.id] (start.links.getD []) below visited)
    (hs : findStep id below = some s) : findStep id steps = some s := by
  rw [← findStep_id hs]
  exact h.first s (List.mem_of_find?_eq_some hs)

/-- A link of a listed step leads in the list to where it led in the graph, unless it leads back
to the start step: what it leads to has been entered, and so is listed. -/
theorem findStep_listed (h : Follows steps [start.id] (start.links.getD []) below visited) {s : Step}
    (hs : s ∈ start :: below) {l : Link} (hl : l ∈ s.links.getD []) (hne : l.target ≠ start.id) :
    findStep l.target (start :: below) = findStep l.target steps := by
  have hcons : findStep l.target (start :: below) = findStep l.target below := by
    rw [findStep, List.find?_cons_of_neg (by simpa using hne.symm)]
    rfl
  rw [hcons]
  cases hbelow : findStep l.target below with
  | some t => exact (findStep_below h hbelow).symm
  | none =>
    refine Eq.symm (Option.eq_none_iff_forall_ne_some.mpr fun t ht => ?_)
    have hentered : t.id ∈ visited := by
      rcases List.mem_cons.mp hs with rfl | hs
      · exact h.closed.1 l hl t ht
      · exact h.closed.2 s hs t ⟨l, hl, ht⟩
    have htarget : t.id = l.target := findStep_id ht
    rw [h.mem_visited, List.mem_singleton] at hentered
    rcases hentered with he | hmem
    · exact hne (htarget.symm.trans he)
    · obtain ⟨u, hu, hid⟩ := List.mem_map.mp hmem
      have hsome := isSome_findStep_of_mem hu
      rw [hid, htarget, hbelow] at hsome
      cases hsome

end Below

/-- **A graph in order is its own order.** -/
theorem linearize?_of_linearize? (h : linearize? steps = some out) :
    linearize? out = some out := by
  obtain ⟨start, hstart, hpre⟩ := linearize?_eq_some_iff.mp h
  have hfirst : start.isStart := List.find?_some hstart
  obtain ⟨below, visited, hbelow, rfl⟩ := hpre
  have hpre : IsPreorder steps start (start :: below) := ⟨below, visited, hbelow, rfl⟩
  have hpre' : IsPreorder (start :: below) start ((start :: below).map fun s => s) :=
    hpre.transfer inert_id fun s hs l hl hne => by
      rw [findStep_listed hbelow hs hl hne, Option.map_id']
  rw [List.map_id'] at hpre'
  refine linearize?_eq_some_iff.mpr ⟨start, ?_, hpre'⟩
  rw [List.find?_cons_of_pos hfirst]

end Linearize

end ApiSuite
