import ApiSuite.Flow.Order

/-!
# The walk over a stack is the recursive walk

A graph of steps is put in order by a loop over a stack (`ApiSuite.linearize?`). This file
relates the loop to the walk that it stands for, the recursive one: enter a step, follow its
links in their order, and leave out what is unknown or has been entered before.

* `ApiSuite.Follows` is the recursive walk, as a relation: from some identifiers entered so far,
  following a list of links lists some steps and leaves more identifiers entered.
* `ApiSuite.Search` is the loop with everything that it keeps, and `ApiSuite.Search.Ends` says
  that it comes to an end with a list of steps.

The two differ in when they decide. The recursive walk looks at a link when its turn comes; the
loop puts all links of a step on the stack when it enters the step, leaves out those entered by
then, and so keeps copies of steps that are entered before their turn comes. What carries the
comparison (`ApiSuite.Follows.walk_eq`) is that the links on the stack may have been filtered by
any earlier set of identifiers: a copy that should have been left out is skipped later.

The measure that bounds the loop is not the stack, which can grow with every step, but the number
of steps whose identifier has not been entered, `ApiSuite.fresh`.
-/

namespace ApiSuite

/-! ### Steps not yet entered -/

/-- The steps whose identifier is not among some. -/
def fresh (visited : List String) (steps : List Step) : List Step :=
  steps.filter fun s => s.id ∉ visited

section Fresh

variable {visited : List String} {steps : List Step} {id : String} {s t : Step}

@[simp] theorem fresh_nil : fresh [] steps = steps := by simp [fresh]

theorem without_fresh : without id (fresh visited steps) = fresh (id :: visited) steps := by
  simp only [without, fresh, List.filter_filter]
  refine List.filter_congr fun s _ => ?_
  by_cases h : s.id = id <;> simp [h]

/-- Among the steps not yet entered an identifier finds what it finds among all, unless it has
been entered. -/
theorem findStep_fresh :
    findStep id (fresh visited steps) = if id ∈ visited then none else findStep id steps := by
  simp only [findStep, fresh, List.find?_filter]
  split
  · rename_i h
    refine List.find?_eq_none.mpr fun s _ hs => ?_
    simp only [decide_eq_true_eq, beq_iff_eq] at hs
    exact hs.1 (hs.2 ▸ h)
  · rename_i h
    refine congrArg (List.find? · steps) (funext fun s => ?_)
    by_cases hs : s.id = id <;> simp [hs, h]

theorem findStep_id (h : findStep id steps = some t) : t.id = id := by
  have hid := List.find?_some h
  exact eq_of_beq hid

theorem isSome_findStep_of_mem (h : s ∈ steps) : (findStep s.id steps).isSome :=
  List.find?_isSome.mpr ⟨s, h, beq_self_eq_true s.id⟩

theorem length_fresh_lt (ht : t ∈ steps) (h : t.id ∉ visited) :
    (fresh (t.id :: visited) steps).length < (fresh visited steps).length := by
  rw [← without_fresh]
  refine length_without_lt ?_
  rw [findStep_fresh, if_neg h]
  exact isSome_findStep_of_mem ht

theorem length_fresh_le {visited' : List String} (h : visited ⊆ visited') :
    (fresh visited' steps).length ≤ (fresh visited steps).length := by
  have hsub : fresh visited' steps = (fresh visited steps).filter fun s => s.id ∉ visited' := by
    simp only [fresh, List.filter_filter]
    refine List.filter_congr fun s _ => ?_
    by_cases hs : s.id ∈ visited'
    · simp [hs]
    · have hs' : s.id ∉ visited := fun hmem => hs (h hmem)
      simp [hs, hs']
  rw [hsub]
  exact List.length_filter_le _ _

end Fresh

/-! ### The recursive walk -/

/-- **The recursive walk.** Following links with some identifiers entered lists the steps that
are entered on the way, each before what its own links lead to, and ends with more identifiers
entered. A link leads to the first step of its target; a target that is unknown or has been
entered is left out. -/
inductive Follows (steps : List Step) :
    List String → List Link → List Step → List String → Prop
  | done (visited : List String) : Follows steps visited [] [] visited
  | unknown {visited visited' : List String} {l : Link} {ls : List Link} {out : List Step} :
      findStep l.target steps = none → Follows steps visited ls out visited' →
      Follows steps visited (l :: ls) out visited'
  | seen {visited visited' : List String} {l : Link} {ls : List Link} {out : List Step}
      {t : Step} : findStep l.target steps = some t → t.id ∈ visited →
      Follows steps visited ls out visited' → Follows steps visited (l :: ls) out visited'
  | enter {visited visited' visited'' : List String} {l : Link} {ls : List Link}
      {below after : List Step} {t : Step} : findStep l.target steps = some t →
      t.id ∉ visited → Follows steps (t.id :: visited) (t.links.getD []) below visited' →
      Follows steps visited' ls after visited'' →
      Follows steps visited (l :: ls) (t :: below ++ after) visited''

/-- The steps that the recursive walk lists from a first step. -/
def IsPreorder (steps : List Step) (start : Step) (out : List Step) : Prop :=
  ∃ below visited, Follows steps [start.id] (start.links.getD []) below visited ∧
    out = start :: below

section Follows

variable {steps out : List Step} {visited visited' : List String} {links : List Link}

/-- What has been entered stays entered. -/
theorem Follows.subset (h : Follows steps visited links out visited') : visited ⊆ visited' := by
  induction h with
  | done visited => exact List.Subset.refl visited
  | unknown _ _ ih => exact ih
  | seen _ _ _ ih => exact ih
  | enter _ _ _ _ ihb iha =>
    exact fun id hid => iha (ihb (List.mem_cons_of_mem _ hid))

/-- **The recursive walk comes to an end**, whatever the links are: every step that it enters
leaves one identifier less to be entered. -/
theorem exists_follows (steps : List Step) (visited : List String) (links : List Link) :
    ∃ out visited', Follows steps visited links out visited' := by
  induction hn : (fresh visited steps).length using Nat.strongRecOn generalizing visited links with
  | ind n ih =>
    induction links with
    | nil => exact ⟨[], visited, .done visited⟩
    | cons l ls ihls =>
      obtain ⟨out, visited', hls⟩ := ihls
      cases hl : findStep l.target steps with
      | none => exact ⟨out, visited', .unknown hl hls⟩
      | some t =>
        by_cases ht : t.id ∈ visited
        · exact ⟨out, visited', .seen hl ht hls⟩
        · have hlt := length_fresh_lt (List.mem_of_find?_eq_some hl) ht
          rw [hn] at hlt
          obtain ⟨below, v, hbelow⟩ := ih _ hlt (t.id :: visited) (t.links.getD []) rfl
          have hle : (fresh v steps).length ≤ (fresh (t.id :: visited) steps).length :=
            length_fresh_le hbelow.subset
          obtain ⟨after, v', hafter⟩ := ih _ (Nat.lt_of_le_of_lt hle hlt) v ls rfl
          exact ⟨t :: below ++ after, v', .enter hl ht hbelow hafter⟩

/-- The steps that links lead to among those not entered before some time. -/
theorem linkTargets_fresh (s : Step) :
    linkTargets (fresh visited steps) s =
      (s.links.getD []).filterMap fun l => findStep l.target (fresh visited steps) := rfl

theorem walk_seen {s : Step} {stack : List Step} (h : s.id ∈ visited) :
    walk (fresh visited steps) (s :: stack) = walk (fresh visited steps) stack := by
  rw [walk, findStep_fresh, if_pos h]
  rfl

theorem walk_enter {s : Step} {stack : List Step} (hs : s ∈ steps) (h : s.id ∉ visited) :
    walk (fresh visited steps) (s :: stack) =
      s :: walk (fresh (s.id :: visited) steps)
        (linkTargets (fresh (s.id :: visited) steps) s ++ stack) := by
  rw [walk, findStep_fresh, if_neg h]
  simp only [isSome_findStep_of_mem hs, dite_true, without_fresh]

/-- **The loop does to links on the stack what the recursive walk does to links**, also if the
links were filtered when fewer identifiers had been entered: what is on the stack and has been
entered since is skipped. -/
theorem Follows.walk_eq (h : Follows steps visited links out visited') :
    ∀ earlier ⊆ visited, ∀ stack,
      walk (fresh visited steps)
          (links.filterMap (fun l => findStep l.target (fresh earlier steps)) ++ stack) =
        out ++ walk (fresh visited' steps) stack := by
  induction h with
  | done visited => exact fun earlier _ stack => rfl
  | @unknown _ _ l _ _ hl _ ih =>
    intro earlier hsub stack
    have hnone : findStep l.target (fresh earlier steps) = none := by
      rw [findStep_fresh, hl, ite_self]
    simp only [List.filterMap_cons, hnone]
    exact ih earlier hsub stack
  | @seen visited _ l ls out t hl ht _ ih =>
    intro earlier hsub stack
    by_cases he : l.target ∈ earlier
    · have hnone : findStep l.target (fresh earlier steps) = none := by
        rw [findStep_fresh, if_pos he]
      simp only [List.filterMap_cons, hnone]
      exact ih earlier hsub stack
    · -- A stale copy: the step was put on the stack before it was entered elsewhere.
      have hsome : findStep l.target (fresh earlier steps) = some t := by
        rw [findStep_fresh, if_neg he, hl]
      simp only [List.filterMap_cons, hsome, List.cons_append]
      rw [walk_seen ht]
      exact ih earlier hsub stack
  | @enter visited v₁ v₂ l ls below after t hl ht hbelow hafter ihb iha =>
    intro earlier hsub stack
    have he : l.target ∉ earlier := fun hmem => ht (findStep_id hl ▸ hsub hmem)
    have hsome : findStep l.target (fresh earlier steps) = some t := by
      rw [findStep_fresh, if_neg he, hl]
    have hearlier : earlier ⊆ v₁ := fun id hid =>
      hbelow.subset (List.mem_cons_of_mem _ (hsub hid))
    simp only [List.filterMap_cons, hsome, List.cons_append]
    rw [walk_enter (List.mem_of_find?_eq_some hl) ht, linkTargets_fresh,
      ihb _ (List.Subset.refl _), iha earlier hearlier, List.append_assoc]

/-- The walk from one step alone lists what the recursive walk lists. -/
theorem IsPreorder.walk_eq {start : Step} (hs : start ∈ steps) (h : IsPreorder steps start out) :
    walk steps [start] = out := by
  obtain ⟨below, v, hbelow, rfl⟩ := h
  have hnew : start.id ∉ ([] : List String) := List.not_mem_nil
  calc walk steps [start]
      = start :: walk (fresh [start.id] steps)
          (linkTargets (fresh [start.id] steps) start ++ []) := by
        rw [← walk_enter hs hnew, fresh_nil]
    _ = start :: (below ++ walk (fresh v steps) []) := by
        rw [linkTargets_fresh, hbelow.walk_eq _ (List.Subset.refl _)]
    _ = start :: below := by rw [walk, List.append_nil]

end Follows

/-! ### The loop -/

/-- What the loop keeps: the identifiers entered, the stack with its top first, and the steps
listed so far. -/
structure Search where
  visited : List String
  stack : List Step
  ordered : List Step

/-- The steps that a step puts on the stack: those its links lead to, without the unknown ones
and those entered before. -/
def pushed (steps : List Step) (visited : List String) (s : Step) : List Step :=
  (s.links.getD []).filterMap fun l =>
    match findStep l.target steps with
    | some t => if t.id ∈ visited then none else some t
    | none => none

/-- One turn of the loop, none when the stack is empty. -/
def Search.advance (steps : List Step) (w : Search) : Option Search :=
  match w.stack with
  | [] => none
  | s :: stack =>
    if s.id ∈ w.visited then some { w with stack }
    else
      some
        { visited := s.id :: w.visited
          stack := pushed steps (s.id :: w.visited) s ++ stack
          ordered := w.ordered ++ [s] }

/-- The loop comes to an end, with these steps listed. -/
inductive Search.Ends (steps : List Step) : Search → List Step → Prop
  | stop {w : Search} : w.advance steps = none → Ends steps w w.ordered
  | turn {w w' : Search} {out : List Step} :
      w.advance steps = some w' → Ends steps w' out → Ends steps w out

theorem linkTargets_eq_pushed {steps : List Step} {visited : List String} {s : Step} :
    linkTargets (fresh visited steps) s = pushed steps visited s := by
  refine congrArg (List.filterMap · (s.links.getD [])) (funext fun l => ?_)
  rw [findStep_fresh]
  cases hl : findStep l.target steps with
  | none => simp
  | some t => rw [← findStep_id hl]

theorem pushed_subset {steps : List Step} {visited : List String} {s : Step} :
    pushed steps visited s ⊆ steps := by
  intro t ht
  obtain ⟨l, -, hl⟩ := List.mem_filterMap.mp ht
  split at hl
  · rename_i t' hfind
    split at hl
    · exact absurd hl (by simp)
    · obtain rfl := Option.some.inj hl
      exact List.mem_of_find?_eq_some hfind
  · exact absurd hl (by simp)

/-- **From every state the loop comes to an end**, and what it lists from there on is the walk
over the steps not yet entered. -/
theorem Search.ends_walk {steps : List Step} (w : Search) (hw : w.stack ⊆ steps) :
    Search.Ends steps w (w.ordered ++ walk (fresh w.visited steps) w.stack) := by
  obtain ⟨visited, stack, ordered⟩ := w
  simp only at hw ⊢
  induction hu : fresh visited steps, stack using walk.induct generalizing visited ordered with
  | case1 unvisited =>
    rw [walk, List.append_nil]
    exact .stop rfl
  | case2 unvisited s stack hfind rest ih =>
    subst hu
    have hs : s ∈ steps := hw (by simp)
    have hnew : s.id ∉ visited := by
      intro hmem
      rw [findStep_fresh, if_pos hmem] at hfind
      exact absurd hfind (by simp)
    have hturn : Search.advance steps ⟨visited, s :: stack, ordered⟩ =
        some ⟨s.id :: visited, linkTargets (fresh (s.id :: visited) steps) s ++ stack,
          ordered ++ [s]⟩ := by
      simp [Search.advance, hnew, linkTargets_eq_pushed]
    have hstack : linkTargets (fresh (s.id :: visited) steps) s ++ stack ⊆ steps := by
      rw [linkTargets_eq_pushed]
      exact List.append_subset.mpr ⟨pushed_subset, fun t ht => hw (List.mem_cons_of_mem _ ht)⟩
    have hrest : rest = fresh (s.id :: visited) steps := without_fresh
    have hends := ih (s.id :: visited) (ordered ++ [s]) (hrest ▸ hstack) hrest.symm
    rw [hrest] at hends
    rw [walk_enter hs hnew]
    refine .turn hturn ?_
    simpa using hends
  | case3 unvisited s stack hfind ih =>
    subst hu
    have hs : s ∈ steps := hw (by simp)
    have hold : s.id ∈ visited := by
      refine Decidable.byContradiction fun hnew => hfind ?_
      rw [findStep_fresh, if_neg hnew]
      exact isSome_findStep_of_mem hs
    have hturn : Search.advance steps ⟨visited, s :: stack, ordered⟩ =
        some ⟨visited, stack, ordered⟩ := by
      simp [Search.advance, hold]
    rw [walk_seen hold]
    exact .turn hturn (ih visited ordered (fun t ht => hw (List.mem_cons_of_mem _ ht)) rfl)

/-- The loop ends with one list of steps. -/
theorem Search.Ends.unique {steps : List Step} {w : Search} {out out' : List Step}
    (h : Ends steps w out) (h' : Ends steps w out') : out = out' := by
  induction h with
  | stop hnone =>
    cases h' with
    | stop _ => rfl
    | turn hsome _ => exact absurd (hnone.symm.trans hsome) (by simp)
  | turn hsome _ ih =>
    cases h' with
    | stop hnone => exact absurd (hnone.symm.trans hsome) (by simp)
    | turn hsome' hends =>
      obtain rfl := Option.some.inj (hsome.symm.trans hsome')
      exact ih hends

/-! ### The refinement -/

/-- The recursive walk from a step lists some steps, and they are those of the walk over a
stack. -/
theorem isPreorder_iff {steps out : List Step} {start : Step} (hs : start ∈ steps) :
    IsPreorder steps start out ↔ walk steps [start] = out := by
  constructor
  · exact IsPreorder.walk_eq hs
  · rintro rfl
    obtain ⟨below, v, hbelow⟩ := exists_follows steps [start.id] (start.links.getD [])
    have hpre : IsPreorder steps start (start :: below) := ⟨below, v, hbelow, rfl⟩
    rwa [hpre.walk_eq hs]

theorem ends_iff {steps out : List Step} {start : Step} (hs : start ∈ steps) :
    Search.Ends steps ⟨[], [start], []⟩ out ↔ walk steps [start] = out := by
  have hends := Search.ends_walk ⟨[], [start], []⟩ (List.cons_subset.mpr ⟨hs, by simp⟩)
  simp only [fresh_nil, List.nil_append] at hends
  constructor
  · exact fun h => hends.unique h
  · rintro rfl
    exact hends

/-- **A graph in order is the recursive preorder of its start step**, and the loop that puts it
in order comes to an end with this list, whatever cycles, repeated identifiers and unknown
targets the graph has. Without a start step, and only then, there is no order. -/
theorem linearize?_refines_preorder (steps : List Step) :
    (linearize? steps = none ↔ ∀ s ∈ steps, s.path ≠ "start") ∧
      ∀ out, linearize? steps = some out ↔
        ∃ start, steps.find? Step.isStart = some start ∧ IsPreorder steps start out ∧
          Search.Ends steps ⟨[], [start], []⟩ out := by
  constructor
  · simp [linearize?, Step.isStart, startPath]
  · intro out
    simp only [linearize?, Option.map_eq_some_iff]
    refine exists_congr fun start => and_congr_right fun hstart => ?_
    have hs := List.mem_of_find?_eq_some hstart
    rw [isPreorder_iff hs, ends_iff hs, and_self]

end ApiSuite
