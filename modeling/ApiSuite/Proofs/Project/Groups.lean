import ApiSuite.Project.Glob
import Mathlib.Data.List.Basic

/-!
# Groups of braces

A pattern with alternatives is expanded from the inside: the first pair of braces without braces
inside gives way to each of its alternatives in turn, and what comes out is expanded again. This
file says what the first such group is (`ApiSuite.Glob.IsFirstGroup`), that the split finds it and
nothing else (`ApiSuite.Glob.splitBraces?_eq_some_iff`), and that the expansion comes to an end, as
every step removes a pair of braces (`ApiSuite.Glob.expandsTo_expansions`). What is to be shown of
an expansion is shown step by step (`ApiSuite.Glob.expansion_induction`).
-/

namespace ApiSuite.Glob

/-! ### Groups -/

/-- A text without braces. -/
def IsPlain (cs : List Char) : Prop := ∀ c ∈ cs, c ≠ '{' ∧ c ≠ '}'

/-- A closing brace comes somewhere after an opening one. -/
def HasGroup (cs : List Char) : Prop := ['{', '}'].Sublist cs

/-- The first group without braces inside, with what stands before, in and after it. -/
structure IsFirstGroup (cs before inside after : List Char) : Prop where
  text : cs = before ++ '{' :: (inside ++ '}' :: after)
  first : ¬HasGroup before
  plain : IsPlain inside

section Groups

variable {b c d i a u v cs : List Char} {x : Char}

theorem isPlain_nil : IsPlain [] := by simp [IsPlain]

theorem isPlain_cons : IsPlain (x :: cs) ↔ (x ≠ '{' ∧ x ≠ '}') ∧ IsPlain cs :=
  List.forall_mem_cons

theorem isPlain_append : IsPlain (u ++ v) ↔ IsPlain u ∧ IsPlain v := List.forall_mem_append

theorem hasGroup_opening : HasGroup ('{' :: cs) ↔ '}' ∈ cs := by
  rw [HasGroup, List.cons_sublist_cons, List.singleton_sublist]

theorem hasGroup_cons_of_ne (hx : x ≠ '{') : HasGroup (x :: cs) ↔ HasGroup cs := by
  rw [HasGroup, List.sublist_cons_iff]
  constructor
  · rintro (h | ⟨r, hr, -⟩)
    · exact h
    · exact absurd (List.cons.inj hr).1.symm hx
  · exact .inl

theorem HasGroup.append_left (h : HasGroup u) (v : List Char) : HasGroup (u ++ v) :=
  h.trans (List.sublist_append_left u v)

theorem hasGroup_of_text : HasGroup (b ++ '{' :: (i ++ '}' :: a)) := by
  have h : HasGroup ('{' :: (i ++ '}' :: a)) := hasGroup_opening.mpr (by simp)
  exact h.trans (List.sublist_append_right b _)

theorem hasGroup_append :
    HasGroup (u ++ v) ↔ HasGroup u ∨ HasGroup v ∨ '{' ∈ u ∧ '}' ∈ v := by
  constructor
  · intro h
    obtain ⟨s, t, hst, hs, ht⟩ := List.sublist_append_iff.mp h
    rcases List.cons_eq_append_iff.mp hst with ⟨rfl, rfl⟩ | ⟨s', rfl, htail⟩
    · exact .inr (.inl ht)
    · rcases List.cons_eq_append_iff.mp htail with ⟨rfl, rfl⟩ | ⟨s'', rfl, hnil⟩
      · exact .inr (.inr ⟨List.singleton_sublist.mp hs, List.singleton_sublist.mp ht⟩)
      · obtain ⟨rfl, rfl⟩ := List.append_eq_nil_iff.mp hnil.symm
        exact .inl hs
  · rintro (h | h | ⟨hu, hv⟩)
    · exact h.append_left v
    · exact h.trans (List.sublist_append_right u v)
    · exact (List.singleton_sublist.mpr hu).append (List.singleton_sublist.mpr hv)

/-- A text without braces makes no group with what is around it. -/
theorem hasGroup_around (hc : IsPlain c) : HasGroup (u ++ c ++ v) ↔ HasGroup (u ++ v) := by
  have hfilter (ds : List Char) : HasGroup ds ↔
      ['{', '}'].Sublist (ds.filter fun x => x == '{' || x == '}') :=
    ⟨fun h => h.filter fun x => x == '{' || x == '}', fun h => h.trans List.filter_sublist⟩
  have hnone : c.filter (fun x => x == '{' || x == '}') = [] :=
    List.filter_eq_nil_iff.mpr fun x hx => by simp [hc x hx]
  rw [hfilter, hfilter (u ++ v)]
  simp only [List.filter_append, hnone, List.append_nil]

/-- The first closing brace after an opening one, if none is opened in between, closes it. -/
theorem exists_plain_of_mem (h : '}' ∈ cs) (hcs : ¬HasGroup cs) :
    ∃ i a, cs = i ++ '}' :: a ∧ IsPlain i := by
  obtain ⟨i, a, rfl, hi⟩ := List.eq_append_cons_of_mem h
  refine ⟨i, a, rfl, fun x hx => ⟨?_, ?_⟩⟩
  · rintro rfl
    obtain ⟨s, t, rfl⟩ := List.append_of_mem hx
    exact hcs (by simpa using hasGroup_of_text (b := s) (i := t) (a := a))
  · rintro rfl
    exact hi hx

/-- After the last opening brace, if none is closed, there are no braces. -/
theorem exists_opening_of_mem (h : '{' ∈ cs) (hcs : ¬HasGroup cs) :
    ∃ b i, cs = b ++ '{' :: i ∧ IsPlain i := by
  induction cs with
  | nil => cases h
  | cons x cs ih =>
    by_cases hmem : '{' ∈ cs
    · obtain ⟨b, i, rfl, hi⟩ := ih hmem fun hgroup => hcs (hgroup.cons _)
      exact ⟨x :: b, i, rfl, hi⟩
    · obtain rfl : '{' = x := (List.mem_cons.mp h).resolve_right hmem
      refine ⟨[], cs, rfl, fun y hy => ⟨?_, ?_⟩⟩
      · rintro rfl
        exact hmem hy
      · rintro rfl
        exact hcs (hasGroup_opening.mpr hy)

theorem upToBrace_append_closing (hi : IsPlain i) (a : List Char) :
    upToBrace (i ++ '}' :: a) = (i, '}' :: a) := by
  induction i with
  | nil => rfl
  | cons x i ih =>
    obtain ⟨hx, hi⟩ := isPlain_cons.mp hi
    simp [upToBrace, hx, ih hi]

theorem upToBrace_spec (cs : List Char) :
    (upToBrace cs).1 ++ (upToBrace cs).2 = cs ∧ IsPlain (upToBrace cs).1 := by
  induction cs with
  | nil => exact ⟨rfl, isPlain_nil⟩
  | cons x cs ih =>
    rw [upToBrace]
    split
    · exact ⟨rfl, isPlain_nil⟩
    · rename_i hx
      simp only [Bool.or_eq_true, beq_iff_eq, not_or] at hx
      exact ⟨congrArg (x :: ·) ih.1, isPlain_cons.mpr ⟨hx, ih.2⟩⟩

theorem splitBraces?_cons_of_ne (hx : x ≠ '{') : splitBraces? (x :: cs) =
    (splitBraces? cs).map fun p => (x :: p.1, p.2.1, p.2.2) := by
  rw [splitBraces?, if_neg (by simpa using hx)]

theorem splitBraces?_opening_closing (hi : IsPlain i) :
    splitBraces? ('{' :: (i ++ '}' :: a)) = some ([], i, a) := by
  rw [splitBraces?, if_pos (by simp), upToBrace_append_closing hi]
  rfl

theorem splitBraces?_opening_of_not (h : ∀ i a, cs = i ++ '}' :: a → ¬IsPlain i) :
    splitBraces? ('{' :: cs) = (splitBraces? cs).map fun p => ('{' :: p.1, p.2.1, p.2.2) := by
  rw [splitBraces?, if_pos (by simp)]
  split
  · rename_i i a heq
    obtain ⟨htext, hplain⟩ := upToBrace_spec cs
    rw [heq] at htext hplain
    exact absurd hplain (h i a htext.symm)
  · rfl

/-- **A first group is found** by the split. -/
theorem IsFirstGroup.split (h : IsFirstGroup cs b i a) : splitBraces? cs = some (b, i, a) := by
  obtain ⟨rfl, hb, hi⟩ := h
  induction b with
  | nil => exact splitBraces?_opening_closing hi
  | cons x b ih =>
    by_cases hx : x = '{'
    · subst hx
      have hclosing : '}' ∉ b := fun h => hb (hasGroup_opening.mpr h)
      have hb' : ¬HasGroup b := fun h => hb (h.cons _)
      rw [List.cons_append, splitBraces?_opening_of_not, ih hb']
      · rfl
      · -- a text up to a closing brace goes past the group's own opening one
        intro j z hj hplain
        rcases List.append_eq_append_iff.mp hj with ⟨y, rfl, hy⟩ | ⟨y, rfl, hy⟩
        · cases y with
          | nil => exact absurd (List.cons.inj hy).1 (by decide)
          | cons y ys =>
            obtain ⟨rfl, -⟩ := List.cons.inj hy
            exact (hplain '{' (by simp)).1 rfl
        · cases y with
          | nil => exact absurd (List.cons.inj hy).1 (by decide)
          | cons y ys =>
            obtain ⟨rfl, -⟩ := List.cons.inj hy
            exact hclosing (by simp)
    · rw [List.cons_append, splitBraces?_cons_of_ne hx, ih ((hasGroup_cons_of_ne hx).not.mp hb)]
      rfl

/-- If there is a group, there is a first one. -/
theorem HasGroup.exists_first (h : HasGroup cs) : ∃ b i a, IsFirstGroup cs b i a := by
  induction cs with
  | nil => cases h
  | cons x cs ih =>
    have hempty : ¬HasGroup [] := by simp [HasGroup]
    by_cases hx : x = '{'
    · subst hx
      by_cases hclosed : ∃ i a, cs = i ++ '}' :: a ∧ IsPlain i
      · obtain ⟨i, a, rfl, hi⟩ := hclosed
        exact ⟨[], i, a, rfl, hempty, hi⟩
      · have hcs : HasGroup cs := by
          by_contra hcs
          exact hclosed (exists_plain_of_mem (hasGroup_opening.mp h) hcs)
        obtain ⟨b, i, a, rfl, hb, hi⟩ := ih hcs
        refine ⟨'{' :: b, i, a, rfl, fun hgroup => hclosed ?_, hi⟩
        obtain ⟨j, z, rfl, hj⟩ := exists_plain_of_mem (hasGroup_opening.mp hgroup) hb
        exact ⟨j, z ++ '{' :: (i ++ '}' :: a), by simp, hj⟩
    · obtain ⟨b, i, a, rfl, hb, hi⟩ := ih ((hasGroup_cons_of_ne hx).mp h)
      exact ⟨x :: b, i, a, rfl, (hasGroup_cons_of_ne hx).not.mpr hb, hi⟩

theorem splitBraces?_eq_none_iff : splitBraces? cs = none ↔ ¬HasGroup cs := by
  constructor
  · intro hnone h
    obtain ⟨b, i, a, hfirst⟩ := h.exists_first
    cases hnone.symm.trans hfirst.split
  · intro h
    induction cs with
    | nil => rfl
    | cons x cs ih =>
      by_cases hx : x = '{'
      · subst hx
        have hclosing : '}' ∉ cs := fun hmem => h (hasGroup_opening.mpr hmem)
        rw [splitBraces?_opening_of_not, ih fun hcs => h (hcs.cons _)]
        · rfl
        · rintro i a rfl
          exact absurd (by simp) hclosing
      · rw [splitBraces?_cons_of_ne hx, ih ((hasGroup_cons_of_ne hx).not.mp h)]
        rfl

/-- **The split finds the first group** and nothing else. -/
theorem splitBraces?_eq_some_iff :
    splitBraces? cs = some (b, i, a) ↔ IsFirstGroup cs b i a := by
  refine ⟨fun h => ?_, IsFirstGroup.split⟩
  have hgroup : HasGroup cs := by
    by_contra hnone
    cases h.symm.trans (splitBraces?_eq_none_iff.mpr hnone)
  obtain ⟨b', i', a', hfirst⟩ := hgroup.exists_first
  cases h.symm.trans hfirst.split
  exact hfirst

end Groups

/-! ### Alternatives of a text without braces -/

section Commas

variable {c cs : List Char} {x : Char}

theorem splitCommas_ne_nil (cs : List Char) : splitCommas cs ≠ [] := by
  cases cs with
  | nil => simp [splitCommas]
  | cons x cs =>
    by_cases hx : x = ','
    · rw [hx, splitCommas]
      simp
    · rw [splitCommas.eq_3 _ _ hx]
      split <;> simp

theorem splitCommas_cons : splitCommas (x :: cs) =
    if x = ',' then [] :: splitCommas cs else (splitCommas cs).modifyHead (x :: ·) := by
  by_cases hx : x = ','
  · rw [if_pos hx, hx, splitCommas]
  · rw [if_neg hx, splitCommas.eq_3 _ _ hx]
    cases hparts : splitCommas cs with
    | nil => exact absurd hparts (splitCommas_ne_nil cs)
    | cons part parts => rfl

/-- An alternative holds characters of the text, and no comma. -/
theorem mem_of_mem_splitCommas (hc : c ∈ splitCommas cs) (hx : x ∈ c) : x ∈ cs ∧ x ≠ ',' := by
  induction cs generalizing c with
  | nil =>
    rw [splitCommas, List.mem_singleton] at hc
    subst hc
    cases hx
  | cons y cs ih =>
    rw [splitCommas_cons] at hc
    split at hc
    · rcases List.mem_cons.mp hc with rfl | hc
      · cases hx
      · exact ⟨List.mem_cons_of_mem _ (ih hc hx).1, (ih hc hx).2⟩
    · rename_i hy
      cases hparts : splitCommas cs with
      | nil => exact absurd hparts (splitCommas_ne_nil cs)
      | cons part parts =>
        rw [hparts, List.modifyHead_cons] at hc
        rcases List.mem_cons.mp hc with rfl | hc
        · rcases List.mem_cons.mp hx with rfl | hx
          · exact ⟨List.mem_cons_self, hy⟩
          · have hpart := ih (hparts ▸ List.mem_cons_self) hx
            exact ⟨List.mem_cons_of_mem _ hpart.1, hpart.2⟩
        · have hpart := ih (hparts ▸ List.mem_cons_of_mem _ hc) hx
          exact ⟨List.mem_cons_of_mem _ hpart.1, hpart.2⟩

theorem IsPlain.of_mem_splitCommas (h : IsPlain cs) (hc : c ∈ splitCommas cs) : IsPlain c :=
  fun _ hx => h _ (mem_of_mem_splitCommas hc hx).1

end Commas

/-! ### Expansion -/

/-- The patterns that a pattern with alternatives stands for. -/
def expansions (cs : List Char) : List (List Char) := expandWithin (openings cs) cs

/-- What the expansion of a pattern comes to, without a bound on its steps: the pattern itself if
there is no group in it, and else what the pattern comes to with one alternative after the other in
place of the first group. -/
inductive ExpandsTo : List Char → List (List Char) → Prop
  | plain {cs} : splitBraces? cs = none → ExpandsTo cs [cs]
  | group {cs before inside after} {results : List Char → List (List Char)} :
      splitBraces? cs = some (before, inside, after) →
      (∀ choice ∈ splitCommas inside, ExpandsTo (before ++ choice ++ after) (results choice)) →
      ExpandsTo cs ((splitCommas inside).flatMap results)

section Expansion

variable {a b c i cs r : List Char} {results results' : List (List Char)}

/-- **Every step removes a pair of braces.** -/
theorem IsFirstGroup.openings_lt (h : IsFirstGroup cs b i a) (hc : c ∈ splitCommas i) :
    openings (b ++ c ++ a) < openings cs := by
  have hnone : c.count '{' = 0 :=
    List.count_eq_zero.mpr fun hmem => (h.plain.of_mem_splitCommas hc _ hmem).1 rfl
  rw [h.text, openings, openings]
  simp only [List.count_append, List.count_cons, hnone, beq_self_eq_true, if_true]
  omega

/-- As many steps as there are braces to remove are enough. -/
theorem expandsTo_expandWithin {fuel : Nat} (h : openings cs ≤ fuel) :
    ExpandsTo cs (expandWithin fuel cs) := by
  induction fuel generalizing cs with
  | zero =>
    refine .plain (splitBraces?_eq_none_iff.mpr fun hgroup => ?_)
    have hmem : '{' ∈ cs := hgroup.subset List.mem_cons_self
    exact absurd (List.count_pos_iff.mpr hmem) (Nat.not_lt.mpr h)
  | succ fuel ih =>
    rw [expandWithin]
    split
    · rename_i hsplit
      exact .plain hsplit
    · rename_i b i a hsplit
      refine .group hsplit fun c hc => ih ?_
      have hless := (splitBraces?_eq_some_iff.mp hsplit).openings_lt hc
      omega

theorem expandsTo_expansions (cs : List Char) : ExpandsTo cs (expansions cs) :=
  expandsTo_expandWithin (Nat.le_refl _)

/-- The expansion comes to one thing only. -/
theorem ExpandsTo.unique (h : ExpandsTo cs results) (h' : ExpandsTo cs results') :
    results = results' := by
  induction h generalizing results' with
  | plain hsplit =>
    cases h' with
    | plain => rfl
    | group hsplit' => cases hsplit.symm.trans hsplit'
  | group hsplit _ ih =>
    cases h' with
    | plain hsplit' => cases hsplit.symm.trans hsplit'
    | group hsplit' hresults =>
      cases hsplit.symm.trans hsplit'
      exact List.flatMap_congr fun c hc => ih c hc (hresults c hc)

theorem expansions_of_none (h : ¬HasGroup cs) : expansions cs = [cs] :=
  (expandsTo_expansions cs).unique (.plain (splitBraces?_eq_none_iff.mpr h))

/-- **A pattern with a group** stands for what it stands for with each of its alternatives. -/
theorem IsFirstGroup.expansions_eq (h : IsFirstGroup cs b i a) :
    expansions cs = (splitCommas i).flatMap fun c => expansions (b ++ c ++ a) :=
  (expandsTo_expansions cs).unique (.group h.split fun _ _ => expandsTo_expansions _)

/-- To show something of every pattern, show it of those without groups, and of those with a first
group if it holds with each of its alternatives. -/
theorem expansion_induction {P : List Char → Prop} (none : ∀ cs, ¬HasGroup cs → P cs)
    (first : ∀ cs b i a, IsFirstGroup cs b i a →
      (∀ c ∈ splitCommas i, P (b ++ c ++ a)) → P cs) (cs : List Char) : P cs := by
  induction h : openings cs using Nat.strongRecOn generalizing cs with
  | ind n ih =>
    by_cases hgroup : HasGroup cs
    · obtain ⟨b, i, a, hfirst⟩ := hgroup.exists_first
      exact first cs b i a hfirst fun c hc => ih _ (h ▸ hfirst.openings_lt hc) _ rfl
    · exact none cs hgroup

/-- **No group is left** in what a pattern stands for. -/
theorem not_hasGroup_of_mem (h : r ∈ expansions cs) : ¬HasGroup r := by
  induction cs using expansion_induction with
  | none cs hnone =>
    rw [expansions_of_none hnone, List.mem_singleton] at h
    rwa [h]
  | first cs b i a hfirst ih =>
    rw [hfirst.expansions_eq] at h
    obtain ⟨c, hc, hr⟩ := List.mem_flatMap.mp h
    exact ih c hc hr

end Expansion

end ApiSuite.Glob
