import ApiSuite.Proofs.Flow.Fragments
import ApiSuite.Template.Usage
import ApiSuite.Traced

/-!
# The expressions that are listed

A request or flow lists the expressions that it uses. The listing has each of the expressions that
are found exactly once, and in the order in which they are found first
(`ApiSuite.Template.ListsOnce`); this tells it from every other list
(`ApiSuite.Template.distinct_eq_iff`). Leaving references out while going over what is found comes
to the same as leaving them out of the listing (`ApiSuite.Template.distinct_false`), since what has
been seen of the one kind says nothing about the other.

Where expressions are found is said by the texts that are scanned
(`ApiSuite.Template.scannedInRequest`, `ApiSuite.Template.scannedInFlow`), and for a flow by the
names in its table of values besides. Putting a flow in order leaves its table as it is and adds no
step to any graph, so no expression is added to the listing.
-/

namespace ApiSuite.Template

/-! ### Each expression once -/

/-- A list has what is found, once each, in the order of the first finds. -/
structure ListsOnce (found listed : List String) : Prop where
  nodup : listed.Nodup
  mem : ∀ e, e ∈ listed ↔ e ∈ found
  ordered : listed.Pairwise fun a b => found.idxOf a < found.idxOf b

section Distinct

variable {e : String} {found listed seen seen' : List String}

theorem distinctFrom_cons (seen found : List String) :
    distinctFrom true seen (e :: found) =
      if e ∈ seen then distinctFrom true seen found
      else e :: distinctFrom true (e :: seen) found := by
  simp [distinctFrom]

theorem mem_distinctFrom (seen found : List String) (x : String) :
    x ∈ distinctFrom true seen found ↔ x ∈ found ∧ x ∉ seen := by
  induction found generalizing seen with
  | nil => simp [distinctFrom]
  | cons e found ih =>
    rw [distinctFrom_cons]
    by_cases hx : x = e
    · subst hx
      split <;> simp_all
    · split <;> simp [ih, hx]

theorem ne_of_mem_distinctFrom {x : String} (he : e ∈ seen)
    (hx : x ∈ distinctFrom true seen found) : x ≠ e := by
  rintro rfl
  exact ((mem_distinctFrom seen found x).mp hx).2 he

theorem nodup_distinctFrom (seen found : List String) : (distinctFrom true seen found).Nodup := by
  induction found generalizing seen with
  | nil => exact .nil
  | cons e found ih =>
    rw [distinctFrom_cons]
    split
    · exact ih seen
    · refine List.nodup_cons.mpr ⟨fun hmem => ?_, ih (e :: seen)⟩
      exact ne_of_mem_distinctFrom List.mem_cons_self hmem rfl

theorem idxOf_cons_lt {a b : String} (ha : a ≠ e) (hb : b ≠ e)
    (h : found.idxOf a < found.idxOf b) : (e :: found).idxOf a < (e :: found).idxOf b := by
  rw [List.idxOf_cons_ne _ ha.symm, List.idxOf_cons_ne _ hb.symm]
  exact Nat.succ_lt_succ h

/-- What is listed after some expressions have been seen is in the order of the first finds: what
comes first has not been seen, and what comes later is something else. -/
theorem ordered_distinctFrom (seen found : List String) :
    (distinctFrom true seen found).Pairwise fun a b => found.idxOf a < found.idxOf b := by
  induction found generalizing seen with
  | nil => exact .nil
  | cons e found ih =>
    -- whether or not it is listed here, it is seen from here on
    have hrest : ∀ seen, e ∈ seen → (distinctFrom true seen found).Pairwise fun a b =>
        (e :: found).idxOf a < (e :: found).idxOf b := by
      intro seen he
      refine (ih seen).imp_of_mem fun ha hb => ?_
      exact idxOf_cons_lt (ne_of_mem_distinctFrom he ha) (ne_of_mem_distinctFrom he hb)
    rw [distinctFrom_cons]
    split
    · rename_i he
      exact hrest seen he
    · refine List.pairwise_cons.mpr ⟨fun x hx => ?_, hrest (e :: seen) List.mem_cons_self⟩
      have hne : x ≠ e := ne_of_mem_distinctFrom List.mem_cons_self hx
      rw [List.idxOf_cons_self, List.idxOf_cons_ne _ hne.symm]
      exact Nat.succ_pos _

theorem listsOnce_distinct (found : List String) : ListsOnce found (distinct true found) where
  nodup := nodup_distinctFrom [] found
  mem e := by simp [distinct, mem_distinctFrom]
  ordered := ordered_distinctFrom [] found

/-- There is one such list. -/
theorem ListsOnce.unique (h : ListsOnce found listed) (h' : ListsOnce found seen) :
    listed = seen := by
  have hperm : listed.Perm seen :=
    (List.perm_ext_iff_of_nodup h.nodup h'.nodup).mpr fun e => (h.mem e).trans (h'.mem e).symm
  exact hperm.eq_of_pairwise (fun a b _ _ hab hba => absurd hab (Nat.lt_asymm hba)) h.ordered
    h'.ordered

/-- **Each expression is listed once, where it is found first.** -/
theorem distinct_eq_iff : distinct true found = listed ↔ ListsOnce found listed := by
  constructor
  · rintro rfl
    exact listsOnce_distinct found
  · exact (listsOnce_distinct found).unique

/-- The expressions that are no references. -/
def withoutReferences (listed : List String) : List String :=
  listed.filter fun e => !isReference e

theorem distinctFrom_false (hseen : ∀ e, isReference e = false → (e ∈ seen ↔ e ∈ seen')) :
    distinctFrom false seen found = withoutReferences (distinctFrom true seen' found) := by
  induction found generalizing seen seen' with
  | nil => rfl
  | cons e found ih =>
    cases he : isReference e with
    | true =>
      -- a reference that is listed counts as seen, and no other expression is told from it
      have hskip : distinctFrom false seen (e :: found) = distinctFrom false seen found := by
        simp [distinctFrom, he]
      rw [hskip, distinctFrom_cons]
      split
      · exact ih hseen
      · have hseen' : ∀ x, isReference x = false → (x ∈ seen ↔ x ∈ e :: seen') := by
          intro x hx
          have hne : x ≠ e := by
            rintro rfl
            cases hx.symm.trans he
          simp [hseen x hx, hne]
        simp [withoutReferences, he, ih hseen']
    | false =>
      have hiff := hseen e he
      have hseen' : ∀ x, isReference x = false → (x ∈ e :: seen ↔ x ∈ e :: seen') := by
        intro x hx
        simp [hseen x hx]
      rw [distinctFrom_cons]
      by_cases hmem : e ∈ seen
      · simp [distinctFrom, he, hmem, hiff.mp hmem, ih hseen]
      · have hmem' : e ∉ seen' := fun h => hmem (hiff.mpr h)
        simp [distinctFrom, withoutReferences, he, hmem, hmem', ih hseen']

/-- **References can be left out before or after what is repeated is.** -/
theorem distinct_false (found : List String) :
    distinct false found = withoutReferences (distinct true found) :=
  distinctFrom_false fun _ _ => Iff.rfl

end Distinct

/-! ### What is scanned -/

/-- The texts of a request that are scanned: its method, its URL, the values of its headers, and its
body if it has one. -/
def scannedInRequest (r : Request) : List String :=
  r.method :: r.url :: r.headers.map Prod.snd ++ r.body.toList

/-- The values of attributes. -/
def attributeValues (attributes : Option Attributes) : List String :=
  (attributes.getD []).map Prod.snd

/-- The texts of a flow that are scanned: the attributes of the main steps, and then of each subflow
its own and those of its steps. -/
def scannedInFlow (f : Flow) : List String :=
  f.steps.flatMap (fun s => attributeValues s.attributes) ++
    f.subflowList.flatMap fun s =>
      attributeValues s.attributes ++ s.stepList.flatMap fun t => attributeValues t.attributes

/-- The names in the rows of a table: the first cells of the rows, if they are not empty. -/
def rowNames (rows : List (List String)) : List String :=
  (rows.filterMap List.head?).filter (· ≠ "")

section Scanned

theorem inRequest_eq (r : Request) : inRequest r = (scannedInRequest r).flatMap texts := by
  have hbody : texts (r.body.getD "") = r.body.toList.flatMap texts := by
    cases r.body with
    | none => simp [texts, find, split, occurrences]
    | some body => simp
  simp [inRequest, scannedInRequest, hbody, List.flatMap_map]

theorem inAttributes_eq (attributes : Option Attributes) :
    inAttributes attributes = (attributeValues attributes).flatMap texts := by
  simp [inAttributes, attributeValues, List.flatMap_map]

theorem inElements_eq (f : Flow) : inElements f = (scannedInFlow f).flatMap texts := by
  simp [inElements, scannedInFlow, inAttributes_eq, List.flatMap_assoc]

theorem namesInRows_eq (rows : List (List String)) :
    namesInRows rows = (rowNames rows).map toExpression := by
  induction rows with
  | nil => rfl
  | cons row rows ih =>
    cases row with
    | nil => simpa [namesInRows, rowNames, List.filterMap_cons] using ih
    | cons name row =>
      by_cases hname : name = ""
      · simpa [namesInRows, rowNames, hname] using ih
      · simpa [namesInRows, rowNames, hname] using ih

end Scanned

/-! ### Listings -/

section Listings

variable {f : Flow} {rows : List (List String)}

theorem flowExpressions_of_rows (h : attributeRows f.attributes .values = .ok rows)
    (withReferences : Bool) :
    flowExpressions withReferences f = .ok (distinct withReferences
      ((rowNames rows).map toExpression ++ (scannedInFlow f).flatMap texts)) := by
  rw [flowExpressions, h, ← namesInRows_eq, ← inElements_eq]
  rfl

theorem mem_scannedInFlow {s : String} :
    s ∈ scannedInFlow f ↔ (∃ t ∈ f.steps, s ∈ attributeValues t.attributes) ∨
      ∃ u ∈ f.subflowList, s ∈ attributeValues u.attributes ∨
        ∃ t ∈ u.stepList, s ∈ attributeValues t.attributes := by
  simp [scannedInFlow]

/-- Putting a flow in order adds no text to those that are scanned. -/
theorem scannedInFlow_normalize (f : Flow) : scannedInFlow f.normalize ⊆ scannedInFlow f := by
  intro s hs
  rw [mem_scannedInFlow] at hs ⊢
  refine hs.imp ?_ ?_
  · rintro ⟨t, ht, hst⟩
    exact ⟨t, inOrder_subset f.steps ht, hst⟩
  · rintro ⟨u, hu, hsu⟩
    rw [Flow.subflowList_normalize, subflowsInOrder, List.mem_map] at hu
    obtain ⟨v, hv, rfl⟩ := hu
    refine ⟨v, (sortSubflows_perm f.subflowList).mem_iff.mp hv, ?_⟩
    rw [Subflow.stepList_linearize] at hsu
    refine hsu.imp (fun h => ?_) ?_
    · rwa [Subflow.linearize_eq] at h
    · rintro ⟨t, ht, hst⟩
      exact ⟨t, inOrder_subset v.stepList ht, hst⟩

theorem distinct_subset {withReferences : Bool} {found found' : List String}
    (h : found' ⊆ found) : distinct withReferences found' ⊆ distinct withReferences found := by
  have hall : distinct true found' ⊆ distinct true found := fun e he =>
    ((listsOnce_distinct found).mem e).mpr (h (((listsOnce_distinct found').mem e).mp he))
  cases withReferences with
  | true => exact hall
  | false =>
    rw [distinct_false, distinct_false]
    exact List.filter_subset _ hall

/-- **Listings are complete.** The listing with references of a request is the one list that has
what is found in its texts once each, in the order of the first finds; and so it is of a flow with a
table that can be read, the names in the table being found first. The listing without references
is that listing without them. And putting a flow in order adds nothing to either. -/
theorem listings_complete :
    (∀ r, (∀ listed, requestExpressions true r = listed ↔
          ListsOnce ((scannedInRequest r).flatMap texts) listed) ∧
        requestExpressions false r = withoutReferences (requestExpressions true r)) ∧
      ∀ f rows, attributeRows f.attributes .values = .ok rows →
        (∀ listed, flowExpressions true f = .ok listed ↔ ListsOnce
          ((rowNames rows).map toExpression ++ (scannedInFlow f).flatMap texts) listed) ∧
        flowExpressions false f = (flowExpressions true f).map withoutReferences ∧
        ∀ withReferences, ∃ listed ordered, flowExpressions withReferences f = .ok listed ∧
          flowExpressions withReferences f.normalize = .ok ordered ∧ ordered ⊆ listed := by
  refine ⟨fun r => ⟨fun listed => ?_, distinct_false (inRequest r)⟩, fun f rows h => ⟨?_, ?_, ?_⟩⟩
  · rw [requestExpressions, inRequest_eq]
    exact distinct_eq_iff
  · intro listed
    rw [flowExpressions_of_rows h, Except.ok.injEq]
    exact distinct_eq_iff
  · rw [flowExpressions_of_rows h, flowExpressions_of_rows h, distinct_false]
    rfl
  · intro withReferences
    have hnormalize : attributeRows f.normalize.attributes .values = .ok rows := h
    have hscanned : (scannedInFlow f.normalize).flatMap texts ⊆
        (scannedInFlow f).flatMap texts := by
      intro e he
      obtain ⟨s, hs, hes⟩ := List.mem_flatMap.mp he
      exact List.mem_flatMap.mpr ⟨s, scannedInFlow_normalize f hs, hes⟩
    refine ⟨_, _, flowExpressions_of_rows h withReferences,
      flowExpressions_of_rows hnormalize withReferences, distinct_subset ?_⟩
    exact List.append_subset.mpr
      ⟨List.subset_append_left _ _, List.Subset.trans hscanned (List.subset_append_right _ _)⟩

end Listings

/-- A flow with a table of two rows, one of them without a name, and steps that share an expression,
the second of which is not reached. -/
def sharing : Flow where
  attributes := some [("values", "[[\"a\"], [\"\"]]")]
  name := ""
  path := ""
  steps := [⟨some [("request", "$\x7ba\x7d/$\x7b@id\x7d")], "s", "", "start", none⟩,
    ⟨some [("request", "$\x7bb\x7d/$\x7ba\x7d")], "t", "", "request", none⟩]
  subflows := none
  source := none

/-- The table of the flow can be read, so that all its expressions are listed. -/
theorem listings_complete_sharing :
    attributeRows sharing.attributes .values = .ok [["a"], [""]] ∧
      (∀ listed, flowExpressions true sharing = .ok listed ↔ ListsOnce
        ((rowNames [["a"], [""]]).map toExpression ++ (scannedInFlow sharing).flatMap texts)
        listed) ∧
      flowExpressions false sharing = (flowExpressions true sharing).map withoutReferences ∧
      ∀ withReferences, ∃ listed ordered, flowExpressions withReferences sharing = .ok listed ∧
        flowExpressions withReferences sharing.normalize = .ok ordered ∧ ordered ⊆ listed := by
  have hrows : attributeRows sharing.attributes .values = .ok [["a"], [""]] :=
    eq_ok (by decide +kernel)
  exact ⟨hrows, listings_complete.2 sharing _ hrows⟩

end ApiSuite.Template
