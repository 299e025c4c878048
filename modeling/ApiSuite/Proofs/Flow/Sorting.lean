import ApiSuite.Flow.Order
import Mathlib.Data.List.Nodup

/-!
# Subflows in order

Subflows are ordered by their phase and, within a phase, by their identifier
(`ApiSuite.Subflow.comesBefore_iff`). The phase is what the attribute `when` says of a subflow
(`ApiSuite.Subflow.phase_eq_iff`). Subflows that agree in both have equal **keys**, and keep
the order they had. This file says what sorting makes of a list of subflows:

* `ApiSuite.sortSubflows_eq_phases`: the subflows before the main steps, then those beside them,
  then those after them;
* `ApiSuite.Ranked`: what each of the three lists is, among the subflows of its phase;
* `ApiSuite.sortSubflows_eq_of_perm`: that it does not depend on the order before, if no two
  subflows have one identifier.
-/

namespace ApiSuite

/-! ### Phases -/

namespace Subflow

/-- When a subflow runs, by its attribute `when`: before the main steps, after them, or, if the
attribute is missing or anything else, beside them. -/
def RunsIn (s : Subflow) : Option Phase → Prop
  | some .before => (s.attributes.getD []).lookup "when" = some "Before"
  | some .after => (s.attributes.getD []).lookup "when" = some "After"
  | none => (s.attributes.getD []).lookup "when" ≠ some "Before" ∧
      (s.attributes.getD []).lookup "when" ≠ some "After"

theorem phase_eq_iff {s : Subflow} {p : Option Phase} : s.phase = p ↔ s.RunsIn p := by
  simp only [phase, attribute?, AttributeKey.name]
  split
  · rename_i hwhen
    rcases p with - | - | - <;> simp [RunsIn, hwhen]
  · rename_i hwhen
    rcases p with - | - | - <;> simp [RunsIn, hwhen]
  · rename_i hbefore hafter
    rcases p with - | - | -
    · exact iff_of_true rfl ⟨hbefore, hafter⟩
    · exact iff_of_false nofun hbefore
    · exact iff_of_false nofun hafter

instance (s : Subflow) (p : Option Phase) : Decidable (s.RunsIn p) :=
  decidable_of_iff (s.phase = p) phase_eq_iff

/-! ### The order -/

variable {a b c : Subflow}

theorem comesBefore_iff :
    a.comesBefore b ↔ Phase.rank a.phase < Phase.rank b.phase ∨
      Phase.rank a.phase = Phase.rank b.phase ∧ a.id ≤ b.id := by
  simp [comesBefore]

theorem comesBefore_trans (a b c : Subflow) (hab : a.comesBefore b) (hbc : b.comesBefore c) :
    a.comesBefore c := by
  rw [comesBefore_iff] at *
  rcases hab with hab | ⟨hab, habid⟩
  · exact .inl (by omega)
  · rcases hbc with hbc | ⟨hbc, hbcid⟩
    · exact .inl (by omega)
    · exact .inr ⟨hab.trans hbc, String.le_trans habid hbcid⟩

theorem comesBefore_total (a b : Subflow) : a.comesBefore b || b.comesBefore a := by
  rw [Bool.or_eq_true, comesBefore_iff, comesBefore_iff]
  rcases Nat.lt_trichotomy (Phase.rank a.phase) (Phase.rank b.phase) with h | h | h
  · exact .inl (.inl h)
  · rcases String.le_total a.id b.id with hid | hid
    · exact .inl (.inr ⟨h, hid⟩)
    · exact .inr (.inr ⟨h.symm, hid⟩)
  · exact .inr (.inl h)

theorem id_eq_of_comesBefore (hab : a.comesBefore b) (hba : b.comesBefore a) : a.id = b.id := by
  rw [comesBefore_iff] at hab hba
  rcases hab with hab | ⟨hab, habid⟩ <;> rcases hba with hba | ⟨hba, hbaid⟩
  · omega
  · omega
  · omega
  · exact String.le_antisymm habid hbaid

/-- Subflows of the same phase and with the same identifier are not put in an order. -/
theorem comesBefore_of_key (hphase : a.phase = b.phase) (hid : a.id = b.id) :
    a.comesBefore b := by
  rw [comesBefore_iff, hphase, hid]
  exact .inr ⟨rfl, String.le_refl _⟩

end Subflow

/-! ### Sorting -/

section Sorting

variable {subflows subflows' : List Subflow}

theorem sortSubflows_perm (subflows : List Subflow) : (sortSubflows subflows).Perm subflows :=
  List.mergeSort_perm subflows Subflow.comesBefore

theorem pairwise_sortSubflows (subflows : List Subflow) :
    (sortSubflows subflows).Pairwise fun a b => a.comesBefore b :=
  List.pairwise_mergeSort Subflow.comesBefore_trans Subflow.comesBefore_total subflows

/-- What is in order stays as it is. -/
theorem sortSubflows_sortSubflows (subflows : List Subflow) :
    sortSubflows (sortSubflows subflows) = sortSubflows subflows :=
  List.mergeSort_of_pairwise (pairwise_sortSubflows subflows)

/-- A change of subflows that keeps their keys can be made before or after sorting. -/
theorem map_sortSubflows {f : Subflow → Subflow} (hphase : ∀ s, (f s).phase = s.phase)
    (hid : ∀ s, (f s).id = s.id) :
    (sortSubflows subflows).map f = sortSubflows (subflows.map f) := by
  refine List.map_mergeSort fun a _ b _ => ?_
  simp only [Subflow.comesBefore, hphase, hid]

/-- **Sorting depends on the subflows alone, not on their order**, if no two of them have the same
identifier. -/
theorem sortSubflows_eq_of_perm (h : subflows.Perm subflows')
    (hnodup : (subflows.map Subflow.id).Nodup) :
    sortSubflows subflows = sortSubflows subflows' := by
  have hperm := (sortSubflows_perm subflows).trans (h.trans (sortSubflows_perm subflows').symm)
  refine List.Perm.eq_of_pairwise (fun a b ha hb hab hba => ?_) (pairwise_sortSubflows subflows)
    (pairwise_sortSubflows subflows') hperm
  have hmem : ∀ s, s ∈ sortSubflows subflows → s ∈ subflows := fun s hs =>
    (sortSubflows_perm subflows).mem_iff.mp hs
  exact List.inj_on_of_nodup_map hnodup (hmem a ha) (hmem b (hperm.mem_iff.mpr hb))
    (Subflow.id_eq_of_comesBefore hab hba)

/-! ### Equal keys -/

/-- The subflows of a phase with an identifier, in their order. -/
def withKey (p : Option Phase) (id : String) (subflows : List Subflow) : List Subflow :=
  subflows.filter fun s => s.RunsIn p ∧ s.id = id

/-- **Subflows with equal keys keep their order.** -/
theorem withKey_sortSubflows (p : Option Phase) (id : String) (subflows : List Subflow) :
    withKey p id (sortSubflows subflows) = withKey p id subflows := by
  have hordered : (withKey p id subflows).Pairwise fun a b => a.comesBefore b := by
    refine List.pairwise_of_forall_mem_list fun a ha b hb => ?_
    simp only [withKey, List.mem_filter, decide_eq_true_eq, ← Subflow.phase_eq_iff] at ha hb
    exact Subflow.comesBefore_of_key (ha.2.1.trans hb.2.1.symm) (ha.2.2.trans hb.2.2.symm)
  have hsub : (withKey p id subflows).Sublist (sortSubflows subflows) :=
    List.sublist_mergeSort Subflow.comesBefore_trans Subflow.comesBefore_total hordered
      List.filter_sublist
  have hsub' := hsub.filter fun s => decide (s.RunsIn p ∧ s.id = id)
  rw [withKey, List.filter_filter] at hsub'
  simp only [Bool.and_self] at hsub'
  -- one is a part of the other, and they are equally long
  exact (hsub'.eq_of_length ((sortSubflows_perm subflows).filter _).length_eq.symm).symm

/-! ### One phase after another -/

/-- What the subflows of a phase are put in order to: identifiers ascend, and the subflows with
one identifier have the order of the document. -/
structure Ranked (p : Option Phase) (subflows ranked : List Subflow) : Prop where
  runsIn : ∀ s ∈ ranked, s.RunsIn p
  ascending : ranked.Pairwise fun a b => a.id ≤ b.id
  stable : ∀ id, withKey p id ranked = withKey p id subflows

/-- The subflows of a phase. -/
def ofPhase (p : Option Phase) (subflows : List Subflow) : List Subflow :=
  subflows.filter fun s => s.phase = p

theorem mem_ofPhase {p : Option Phase} {s : Subflow} :
    s ∈ ofPhase p subflows ↔ s ∈ subflows ∧ s.phase = p := by
  simp [ofPhase]

theorem ofPhase_cons (p : Option Phase) (s : Subflow) (rest : List Subflow) :
    ofPhase p (s :: rest) = if s.phase = p then s :: ofPhase p rest else ofPhase p rest := by
  simp [ofPhase, List.filter_cons]

theorem ranked_ofPhase (p : Option Phase) (subflows : List Subflow) :
    Ranked p subflows (ofPhase p (sortSubflows subflows)) where
  runsIn s hs := Subflow.phase_eq_iff.mp (mem_ofPhase.mp hs).2
  ascending := by
    have hsorted := (pairwise_sortSubflows subflows).sublist
      (List.filter_sublist (p := fun s => decide (s.phase = p)))
    refine hsorted.imp_of_mem fun {a b} ha hb hab => ?_
    rw [Subflow.comesBefore_iff, (mem_ofPhase.mp ha).2, (mem_ofPhase.mp hb).2] at hab
    rcases hab with hlt | ⟨-, hid⟩
    · omega
    · exact hid
  stable id := by
    rw [← withKey_sortSubflows p id subflows, withKey, withKey, ofPhase, List.filter_filter]
    refine List.filter_congr fun s _ => ?_
    by_cases hp : s.phase = p <;> simp [← Subflow.phase_eq_iff, hp]

/-- Where phases ascend, they come one after another. -/
theorem eq_phases {ordered : List Subflow}
    (h : ordered.Pairwise fun a b => Phase.rank a.phase ≤ Phase.rank b.phase) :
    ordered = ofPhase (some .before) ordered ++ ofPhase none ordered ++
      ofPhase (some .after) ordered := by
  induction ordered with
  | nil => rfl
  | cons s rest ih =>
    obtain ⟨hs, hrest⟩ := List.pairwise_cons.mp h
    -- what comes after `s` has no phase before that of `s`
    have hnone : ∀ p, Phase.rank p < Phase.rank s.phase → ofPhase p rest = [] := by
      refine fun p hp => List.filter_eq_nil_iff.mpr fun t ht htp => ?_
      have hst := hs t ht
      rw [of_decide_eq_true htp] at hst
      omega
    have htail := ih hrest
    simp only [ofPhase_cons]
    rcases hp : s.phase with _ | _ | _
    · rw [hp] at hnone
      simpa [hnone (some .before) (by decide)] using htail
    · simpa using htail
    · rw [hp] at hnone
      simpa [hnone (some .before) (by decide), hnone none (by decide)] using htail

theorem sortSubflows_eq_phases (subflows : List Subflow) :
    sortSubflows subflows =
      ofPhase (some .before) (sortSubflows subflows) ++ ofPhase none (sortSubflows subflows) ++
        ofPhase (some .after) (sortSubflows subflows) := by
  refine eq_phases ((pairwise_sortSubflows subflows).imp fun {a b} hab => ?_)
  rcases Subflow.comesBefore_iff.mp hab with h | ⟨h, -⟩
  · exact Nat.le_of_lt h
  · exact Nat.le_of_eq h

end Sorting

end ApiSuite
