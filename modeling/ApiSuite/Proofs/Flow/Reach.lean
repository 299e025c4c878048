import ApiSuite.Proofs.Flow.Walk
import Mathlib.Logic.Relation
import Mathlib.Tactic.Tauto

/-!
# A graph in order lists what is reached

The steps of a graph in order (`ApiSuite.linearize?`) against reachability, which knows nothing
of an order: an identifier is reached (`ApiSuite.Reaches`) if it is that of the start step, or the
target of a link of a step that is reached. The steps listed are exactly those reached, once each,
and each but the start step comes after a step that has a link to it
(`ApiSuite.linearize?_lists_reached`).

Everything is read off the recursive walk (`ApiSuite.Follows`), by what it leaves entered:

| | theorem |
|---|---|
| entered is what was entered before and what is listed | `ApiSuite.Follows.mem_visited` |
| nothing is listed twice, or again | `ApiSuite.Follows.nodup` |
| the links of what is listed lead to what is entered | `ApiSuite.Follows.closed` |
| what is listed comes from a link of a step before it | `ApiSuite.Follows.grown` |

The third is what makes the list complete: what is entered is closed under links. An identifier
can be that of several steps, and then it is the first of them that links lead to, with one
exception. The walk enters the start step without looking it up, and after that its identifier
counts as entered; so the identifier of the start step stands for the start step, and never for a
step before it.
-/

namespace ApiSuite

/-! ### Reachability -/

/-- The step that an identifier stands for in a graph with a start step: the start step for its
own identifier, also where an earlier step has the same one, and for any other identifier the
first step that has it. -/
def stepNamed (steps : List Step) (start : Step) (id : String) : Option Step :=
  if id = start.id then some start else findStep id steps

/-- **The identifiers that are reached from a start step**, along links whose targets exist. -/
inductive Reaches (steps : List Step) (start : Step) : String → Prop
  | start : Reaches steps start start.id
  | link {id : String} {s : Step} {l : Link} : Reaches steps start id →
      stepNamed steps start id = some s → l ∈ s.linkList → (∃ t ∈ steps, t.id = l.target) →
      Reaches steps start l.target

/-- A link of a step leads to a step. -/
def LinksTo (steps : List Step) (s t : Step) : Prop :=
  ∃ l ∈ s.linkList, findStep l.target steps = some t

section Reaches

variable {steps : List Step} {start s t : Step} {id : String}

theorem exists_findStep (h : ∃ t ∈ steps, t.id = id) : ∃ t, findStep id steps = some t := by
  obtain ⟨t, ht, rfl⟩ := h
  exact Option.isSome_iff_exists.mp (isSome_findStep_of_mem ht)

theorem LinksTo.exists_target (h : LinksTo steps s t) : ∃ l ∈ s.linkList, l.target = t.id := by
  obtain ⟨l, hl, hfind⟩ := h
  exact ⟨l, hl, (findStep_id hfind).symm⟩

theorem Reaches.step (h : Reaches steps start s.id) (hs : stepNamed steps start s.id = some s)
    (ht : LinksTo steps s t) : Reaches steps start t.id := by
  obtain ⟨l, hl, hfind⟩ := ht
  have htarget : t.id = l.target := findStep_id hfind
  rw [htarget]
  exact h.link hs hl ⟨t, List.mem_of_find?_eq_some hfind, htarget⟩

/-- Where no step before the start step has its identifier, what is reached are the steps that
links lead to one after another, each link to the first step of its target. -/
theorem reaches_iff_reflTransGen (hfirst : findStep start.id steps = some start) :
    Reaches steps start id ↔ ∃ t, Relation.ReflTransGen (LinksTo steps) start t ∧ t.id = id := by
  have hnamed : ∀ id, stepNamed steps start id = findStep id steps := by
    intro id
    unfold stepNamed
    split
    · rename_i h
      rw [h, hfirst]
    · rfl
  constructor
  · intro h
    induction h with
    | start => exact ⟨start, .refl, rfl⟩
    | @link id s l _ hs hl htarget ih =>
      obtain ⟨t, ht, rfl⟩ := ih
      obtain ⟨u, hu⟩ := exists_findStep htarget
      refine ⟨u, ht.tail ?_, findStep_id hu⟩
      -- what the walk of links has come to is the step that its identifier stands for
      have hts : t = s := by
        rw [hnamed] at hs
        rcases Relation.ReflTransGen.cases_tail ht with rfl | ⟨_, _, l', _, hl'⟩
        · exact Option.some.inj (hfirst.symm.trans hs)
        · rw [findStep_id hl', hl'] at hs
          exact Option.some.inj hs
      exact ⟨l, hts ▸ hl, hu⟩
  · rintro ⟨t, ht, rfl⟩
    have hall : Reaches steps start t.id ∧ stepNamed steps start t.id = some t := by
      induction ht with
      | refl => exact ⟨.start, if_pos rfl⟩
      | tail _ hlink ih =>
        refine ⟨ih.1.step ih.2 hlink, ?_⟩
        obtain ⟨l, _, hl⟩ := hlink
        rw [hnamed, findStep_id hl, hl]
    exact hall.1

end Reaches

/-! ### What a walk leaves entered -/

section Entered

variable {steps out : List Step} {visited visited' : List String} {links : List Link}

/-- What is entered after a walk was entered before it, or is listed by it. -/
theorem Follows.mem_visited (h : Follows steps visited links out visited') (id : String) :
    id ∈ visited' ↔ id ∈ visited ∨ id ∈ out.map Step.id := by
  induction h with
  | done visited => simp
  | unknown _ _ ih => exact ih
  | seen _ _ _ ih => exact ih
  | enter _ _ _ _ ihb iha =>
    rw [iha, ihb]
    simp only [List.mem_cons, List.cons_append, List.map_cons, List.map_append, List.mem_append]
    tauto

/-- A walk lists no identifier twice, and none that was entered before. -/
theorem Follows.nodup (h : Follows steps visited links out visited') :
    (out.map Step.id).Nodup ∧ ∀ s ∈ out, s.id ∉ visited := by
  induction h with
  | done visited => simp
  | unknown _ _ ih => exact ih
  | seen _ _ _ ih => exact ih
  | @enter visited v₁ v₂ l ls below after t _ ht hbelow hafter ihb iha =>
    obtain ⟨hndb, hnewb⟩ := ihb
    obtain ⟨hnda, hnewa⟩ := iha
    -- what comes after is new to all that is entered by then: to `t`, and to what is below it
    have hafter_t : ∀ s ∈ after, s.id ≠ t.id ∧ s.id ∉ below.map Step.id ∧ s.id ∉ visited := by
      intro s hs
      have hnew := hnewa s hs
      rw [hbelow.mem_visited, List.mem_cons] at hnew
      tauto
    have hbelow_t : ∀ s ∈ below, s.id ≠ t.id ∧ s.id ∉ visited := by
      intro s hs
      have hnew := hnewb s hs
      rw [List.mem_cons] at hnew
      tauto
    constructor
    · rw [List.cons_append, List.map_cons, List.map_append, List.nodup_cons, List.nodup_append]
      refine ⟨?_, hndb, hnda, ?_⟩
      · rw [List.mem_append, List.mem_map, List.mem_map]
        rintro (⟨s, hs, he⟩ | ⟨s, hs, he⟩)
        · exact (hbelow_t s hs).1 he
        · exact (hafter_t s hs).1 he
      · rintro id hid _ hid' rfl
        obtain ⟨s, hs, rfl⟩ := List.mem_map.mp hid'
        exact (hafter_t s hs).2.1 hid
    · intro s hs
      rcases List.mem_cons.mp hs with rfl | hs
      · exact ht
      rcases List.mem_append.mp hs with hs | hs
      · exact (hbelow_t s hs).2
      · exact (hafter_t s hs).2.2

/-- A walk lists the first step of each identifier, as it is. -/
theorem Follows.first (h : Follows steps visited links out visited') :
    ∀ s ∈ out, findStep s.id steps = some s := by
  induction h with
  | done visited => simp
  | unknown _ _ ih => exact ih
  | seen _ _ _ ih => exact ih
  | enter hl _ _ _ ihb iha =>
    refine List.forall_mem_cons.mpr ⟨?_, List.forall_mem_append.mpr ⟨ihb, iha⟩⟩
    rw [findStep_id hl, hl]

/-- **What a walk leaves entered is closed under links**: the targets of the links followed, and
of the links of every step listed, are entered in the end. -/
theorem Follows.closed (h : Follows steps visited links out visited') :
    (∀ l ∈ links, ∀ t, findStep l.target steps = some t → t.id ∈ visited') ∧
      ∀ s ∈ out, ∀ t, LinksTo steps s t → t.id ∈ visited' := by
  induction h with
  | done visited => simp
  | @unknown _ _ l ls _ hl _ ih =>
    refine ⟨List.forall_mem_cons.mpr ⟨?_, ih.1⟩, ih.2⟩
    intro t ht
    cases hl.symm.trans ht
  | @seen _ _ l ls _ t hl ht hrest ih =>
    refine ⟨List.forall_mem_cons.mpr ⟨?_, ih.1⟩, ih.2⟩
    intro t' ht'
    cases hl.symm.trans ht'
    exact hrest.subset ht
  | @enter _ _ _ l ls below after t hl _ hbelow hafter ihb iha =>
    have ht : t.id ∈ _ := hafter.subset (hbelow.subset List.mem_cons_self)
    refine ⟨List.forall_mem_cons.mpr ⟨?_, iha.1⟩, ?_⟩
    · intro t' ht'
      cases hl.symm.trans ht'
      exact ht
    · refine List.forall_mem_cons.mpr ⟨?_, List.forall_mem_append.mpr ⟨?_, iha.2⟩⟩
      · rintro u ⟨l', hl', hu⟩
        exact hafter.subset (ihb.1 l' hl' u hu)
      · intro s hs u hu
        exact hafter.subset (ihb.2 s hs u hu)

/-! ### Where listed steps come from -/

/-- Each step of a list is led to by a link of a step before it, in the list or among some that
come earlier. -/
def Grown (steps : List Step) : List Step → List Step → Prop
  | _, [] => True
  | earlier, t :: ts => (∃ s ∈ earlier, LinksTo steps s t) ∧ Grown steps (t :: earlier) ts

theorem Grown.mono {earlier earlier' ts : List Step} (h : Grown steps earlier ts)
    (hsub : earlier ⊆ earlier') : Grown steps earlier' ts := by
  induction ts generalizing earlier earlier' with
  | nil => trivial
  | cons t ts ih =>
    obtain ⟨⟨s, hs, hlink⟩, hrest⟩ := h
    exact ⟨⟨s, hsub hs, hlink⟩, ih hrest (List.cons_subset_cons t hsub)⟩

theorem Grown.append {earlier ts us : List Step} (h : Grown steps earlier ts)
    (h' : Grown steps earlier us) : Grown steps earlier (ts ++ us) := by
  induction ts generalizing earlier with
  | nil => exact h'
  | cons t ts ih => exact ⟨h.1, ih h.2 (h'.mono (List.subset_cons_self t earlier))⟩

/-- A step in a grown list comes after a step that has a link to it. -/
theorem Grown.linksTo {earlier before after : List Step} {t : Step}
    (h : Grown steps earlier (before ++ t :: after)) :
    ∃ s ∈ earlier ++ before, LinksTo steps s t := by
  induction before generalizing earlier with
  | nil =>
    obtain ⟨s, hs, hlink⟩ := h.1
    exact ⟨s, by simpa using hs, hlink⟩
  | cons b before ih =>
    obtain ⟨s, hs, hlink⟩ := ih h.2
    refine ⟨s, ?_, hlink⟩
    simp only [List.cons_append, List.mem_cons, List.mem_append] at hs ⊢
    tauto

/-- What grows from steps that are reached is reached, if every identifier stands for the step
listed under it. -/
theorem Grown.reaches {start : Step} {earlier ts : List Step} (h : Grown steps earlier ts)
    (hnamed : ∀ s ∈ ts, stepNamed steps start s.id = some s)
    (hearlier : ∀ s ∈ earlier, Reaches steps start s.id ∧ stepNamed steps start s.id = some s) :
    ∀ t ∈ ts, Reaches steps start t.id := by
  induction ts generalizing earlier with
  | nil => simp
  | cons t ts ih =>
    obtain ⟨⟨s, hs, hlink⟩, hrest⟩ := h
    have ht : Reaches steps start t.id := (hearlier s hs).1.step (hearlier s hs).2 hlink
    have hall := List.forall_mem_cons.mp hnamed
    refine List.forall_mem_cons.mpr ⟨ht, ih hrest hall.2 ?_⟩
    exact List.forall_mem_cons.mpr ⟨⟨ht, hall.1⟩, hearlier⟩

/-- **What a walk lists grows** from the steps whose links it follows. -/
theorem Follows.grown (h : Follows steps visited links out visited') {earlier : List Step}
    (hlinks : ∀ l ∈ links, ∃ s ∈ earlier, l ∈ s.linkList) : Grown steps earlier out := by
  induction h generalizing earlier with
  | done visited => trivial
  | unknown _ _ ih => exact ih (List.forall_mem_cons.mp hlinks).2
  | seen _ _ _ ih => exact ih (List.forall_mem_cons.mp hlinks).2
  | @enter _ _ _ l ls below after t hl _ _ _ ihb iha =>
    obtain ⟨⟨s, hs, hls⟩, hrest⟩ := List.forall_mem_cons.mp hlinks
    refine ⟨⟨s, hs, l, hls, hl⟩, Grown.append (ihb ?_) ((iha hrest).mono ?_)⟩
    · exact fun l' hl' => ⟨t, List.mem_cons_self, hl'⟩
    · exact List.subset_cons_self t earlier

end Entered

/-! ### The steps listed are those reached -/

section Listed

variable {steps below : List Step} {start : Step} {visited : List String}

/-- Below the start step, every identifier stands for the step that is listed under it. -/
theorem stepNamed_of_mem (h : Follows steps [start.id] start.linkList below visited)
    {s : Step} (hs : s ∈ below) : stepNamed steps start s.id = some s := by
  have hne : s.id ≠ start.id := fun he => h.nodup.2 s hs (by simp [he])
  rw [stepNamed, if_neg hne, h.first s hs]

/-- What is reached is listed: the walk leaves entered what is closed under links. -/
theorem mem_of_reaches (h : Follows steps [start.id] start.linkList below visited) {id : String}
    (hid : Reaches steps start id) : id ∈ (start :: below).map Step.id := by
  have hentered : ∀ id, id ∈ visited → id ∈ (start :: below).map Step.id := by
    intro id hv
    rw [h.mem_visited, List.mem_singleton] at hv
    simpa using hv
  induction hid with
  | start => simp
  | @link id s l _ hs hl htarget ih =>
    obtain ⟨t, ht⟩ := exists_findStep htarget
    have hmem : s ∈ start :: below := by
      obtain ⟨u, hu, rfl⟩ := List.mem_map.mp ih
      have hnamed : stepNamed steps start u.id = some u := by
        rcases List.mem_cons.mp hu with rfl | hu
        · exact if_pos rfl
        · exact stepNamed_of_mem h hu
      obtain rfl := Option.some.inj (hnamed.symm.trans hs)
      exact hu
    rw [← findStep_id ht]
    refine hentered _ ?_
    rcases List.mem_cons.mp hmem with rfl | hmem
    · exact h.closed.1 l hl t ht
    · exact h.closed.2 s hmem t ⟨l, hl, ht⟩

/-- What is listed is reached. -/
theorem reaches_of_mem (h : Follows steps [start.id] start.linkList below visited) {id : String}
    (hid : id ∈ (start :: below).map Step.id) : Reaches steps start id := by
  have hgrown : Grown steps [start] below := h.grown fun l hl => ⟨start, by simp, hl⟩
  have hstart : ∀ s ∈ [start], Reaches steps start s.id ∧ stepNamed steps start s.id = some s := by
    simpa [stepNamed] using Reaches.start
  obtain ⟨s, hs, rfl⟩ := List.mem_map.mp hid
  rcases List.mem_cons.mp hs with rfl | hs
  · exact .start
  · exact hgrown.reaches (fun s hs => stepNamed_of_mem h hs) hstart s hs

/-- **A graph in order lists what is reached from its start step**, no identifier twice. It
begins with the first start step of the document, and every other step that it lists is the first
in the document with its identifier, and the target of a link of a step listed before it. -/
theorem linearize?_lists_reached (hstart : steps.find? Step.isStart = some start) :
    ∃ rest, linearize? steps = some (start :: rest) ∧
      (∀ id, id ∈ (start :: rest).map Step.id ↔ Reaches steps start id) ∧
      ((start :: rest).map Step.id).Nodup ∧
      (∀ s ∈ rest, findStep s.id steps = some s) ∧
      ∀ before t after, rest = before ++ t :: after →
        ∃ s ∈ start :: before, ∃ l ∈ s.linkList, l.target = t.id := by
  have hs : start ∈ steps := List.mem_of_find?_eq_some hstart
  obtain ⟨below, visited, h⟩ := exists_follows steps [start.id] start.linkList
  have hwalk : walk steps [start] = start :: below :=
    IsPreorder.walk_eq hs ⟨below, visited, h, rfl⟩
  have hgrown : Grown steps [start] below := h.grown fun l hl => ⟨start, by simp, hl⟩
  refine ⟨below, ?_, ?_, ?_, h.first, ?_⟩
  · rw [linearize?, hstart, Option.map_some, hwalk]
  · exact fun id => ⟨reaches_of_mem h, mem_of_reaches h⟩
  · rw [List.map_cons, List.nodup_cons]
    refine ⟨?_, h.nodup.1⟩
    rw [List.mem_map]
    rintro ⟨s, hs, he⟩
    exact h.nodup.2 s hs (by simp [he])
  · rintro before t after rfl
    obtain ⟨s, hs, hlink⟩ := hgrown.linksTo
    exact ⟨s, hs, hlink.exists_target⟩

end Listed

/-! ### A graph in which the start step shares its identifier -/

/-- A step with links to some targets. -/
def linked (id path : String) (targets : List String) : Step where
  attributes := none
  id := id
  name := id
  path := path
  links := some (targets.map fun target => ⟨none, "", target, none, none⟩)

/-- The start step of the graph below. -/
def tangledStart : Step := linked "a" startPath ["b", "gone", "b"]

/-- A graph with a step before the start step that shares its identifier, a repeated identifier,
a cycle and a target that is missing. -/
def tangled : List Step :=
  [linked "a" "request" ["d"], tangledStart, linked "b" "request" ["a", "c"],
    linked "b" "request" ["d"], linked "c" "request" ["c"], linked "d" "request" []]

/-- The links of steps that share an identifier with an earlier one, or with the start step, do
not count. -/
theorem linearize?_lists_reached_tangled :
    tangled.find? Step.isStart = some tangledStart ∧ Reaches tangled tangledStart "c" ∧
      ¬Reaches tangled tangledStart "d" := by
  have hstart : tangled.find? Step.isStart = some tangledStart := rfl
  have hout : linearize? tangled =
      some [tangledStart, linked "b" "request" ["a", "c"], linked "c" "request" ["c"]] := by
    cbv
  obtain ⟨rest, hrest, hreached, -⟩ := linearize?_lists_reached hstart
  rw [hout, Option.some_inj] at hrest
  rw [← hrest] at hreached
  refine ⟨hstart, (hreached "c").mp (by decide), ?_⟩
  rw [← hreached "d"]
  decide

end ApiSuite
