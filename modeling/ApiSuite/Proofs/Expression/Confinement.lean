import ApiSuite.Proofs.Expression.Evaluation
import Mathlib.Logic.Relation

/-!
# Untrusted evaluation is confined to its context

An expression from a document that is not trusted can only select from the values at hand. What
it selects is part of its context (`ApiSuite.Value.Descends`), or the length of a part that has
items in a row; nothing is computed, and nothing can fail in the way that comparisons do
(`ApiSuite.Expression.evaluate_false_confined`).

A part is reached in steps: from an object to the value under a text key, from a list to an item,
and from a text to a character, which is a text again. One step of a path takes one such step, or
takes a length, or leads nowhere (`ApiSuite.Expression.stepInto_cases`). A length has no parts, so
it can only stand at the end of a path, and what has led nowhere stays null.
-/

namespace ApiSuite

namespace Value

/-! ### The parts of a value -/

/-- A value is the immediate part of another: the value under a text key of an object, an item of
a list, or a character of a text. -/
inductive Child : Value → Value → Prop
  | entry {entries : List (Value × Value)} {key : String} {v : Value} :
      lookup key entries = some v → Child (.object entries) v
  | item {items : List Value} {n : Nat} {v : Value} : items[n]? = some v → Child (.list items) v
  | member {items : List Value} {n : Nat} {v : Value} :
      items[n]? = some v → Child (.tuple items) v
  | character {text : String} {n : Nat} {c : Char} :
      text.toList[n]? = some c → Child (.str text) (.str c.toString)

/-- A value is part of another, by any number of steps. -/
abbrev Descends : Value → Value → Prop := Relation.ReflTransGen Child

/-- The number of items of a list, or of characters of a text. -/
def length? : Value → Option Nat
  | .list items | .tuple items => some items.length
  | .str text => some text.toList.length
  | _ => none

/-- A value comes from another: it is null, part of that value, or the length of a part. -/
inductive ComesFrom (v : Value) : Value → Prop
  | null : ComesFrom v .null
  | part {w : Value} : Descends v w → ComesFrom v w
  | length {w : Value} {n : Nat} : Descends v w → w.length? = some n → ComesFrom v (.ofNat n)

theorem ComesFrom.of_child {u v w : Value} (hc : Child u v) (h : ComesFrom v w) :
    ComesFrom u w := by
  cases h with
  | null => exact .null
  | part hd => exact .part (.head hc hd)
  | length hd hn => exact .length (.head hc hd) hn

theorem ComesFrom.cases_of_isNull {v w : Value} (h : ComesFrom v w) (hn : w.isNull = false) :
    Descends v w ∨ ∃ u n, Descends v u ∧ u.length? = some n ∧ w = .ofNat n := by
  cases h with
  | null => cases hn
  | part hd => exact .inl hd
  | length hd hl => exact .inr ⟨_, _, hd, hl, rfl⟩

end Value

namespace Expression

open Value

section Steps

variable {v w : Value} {s : Segment} {path : List Segment}

theorem eq_of_getD_null {o : Option Value} (h : o.getD .null = w) : w = .null ∨ o = some w := by
  cases o with
  | none => exact .inl h.symm
  | some u => exact .inr (congrArg some h)

theorem stepSequence_cases {length : Nat} {item? : Nat → Option Value}
    (h : stepSequence length item? s = .ok w) :
    w = .null ∨ (∃ n, item? n = some w) ∨ w = .ofNat length := by
  cases s with
  | index n =>
    rcases eq_of_getD_null (Except.ok.inj h) with hw | hw
    · exact .inl hw
    · exact .inr (.inl ⟨n, hw⟩)
  | key key =>
    rw [stepSequence] at h
    split at h
    · exact .inr (.inr (Except.ok.inj h).symm)
    · cases hk : keyIndex? key with
      | error stop =>
        rw [hk] at h
        cases h
      | ok found =>
        rw [hk] at h
        cases found with
        | none => exact .inl (Except.ok.inj h).symm
        | some n =>
          rcases eq_of_getD_null (Except.ok.inj h) with hw | hw
          · exact .inl hw
          · exact .inr (.inl ⟨n, hw⟩)

/-- **One step of a path** leads nowhere, to an immediate part, or to the length. -/
theorem stepInto_cases (h : stepInto v s = .ok w) :
    w = .null ∨ Child v w ∨ ∃ n, v.length? = some n ∧ w = .ofNat n := by
  cases v with
  | object entries =>
    rcases eq_of_getD_null (Except.ok.inj h) with hw | hw
    · exact .inl hw
    · exact .inr (.inl (.entry hw))
  | list items =>
    rcases stepSequence_cases h with hw | ⟨n, hw⟩ | hw
    · exact .inl hw
    · exact .inr (.inl (.item hw))
    · exact .inr (.inr ⟨_, rfl, hw⟩)
  | tuple items =>
    rcases stepSequence_cases h with hw | ⟨n, hw⟩ | hw
    · exact .inl hw
    · exact .inr (.inl (.member hw))
    · exact .inr (.inr ⟨_, rfl, hw⟩)
  | str text =>
    rcases stepSequence_cases h with hw | ⟨n, hw⟩ | hw
    · exact .inl hw
    · obtain ⟨c, hc, rfl⟩ := Option.map_eq_some_iff.mp hw
      exact .inr (.inl (.character hc))
    · exact .inr (.inr ⟨_, rfl, hw⟩)
  | _ => exact .inl (Except.ok.inj h).symm

/-- A number has no parts. -/
theorem follow_int {n : Int} (h : follow (.int n) path = .ok w) : w = .int n ∨ w = .null := by
  cases path with
  | nil => exact .inl (Except.ok.inj h).symm
  | cons s rest => exact .inr (Except.ok.inj h).symm

/-- **A path leads to what comes from its beginning.** -/
theorem comesFrom_of_follow (h : follow v path = .ok w) : ComesFrom v w := by
  induction path generalizing v with
  | nil =>
    obtain rfl := Except.ok.inj h
    exact .part .refl
  | cons s rest ih =>
    rw [follow_cons] at h
    cases hs : stepInto v s with
    | error stop =>
      rw [hs] at h
      cases h
    | ok u =>
      rw [hs] at h
      simp only [Except.bind] at h
      split at h
      · cases h
        exact .null
      · rename_i hn
        rcases stepInto_cases hs with rfl | hchild | ⟨n, hlength, rfl⟩
        · exact absurd rfl hn
        · exact (ih h).of_child hchild
        · -- nothing comes after a length
          rcases follow_int h with rfl | rfl
          · exact .length .refl hlength
          · exact .null

end Steps

/-- **Untrusted evaluation is confined to its context.** Whatever the text, a value that is not
null is part of the context, or the length of a list or text that is. Evaluation can fail on a
malformed text, refuse an expression that is no path, or crash; it never fails to compare. -/
theorem evaluate_false_confined (context : Value) (text : String) :
    (∀ v, evaluate false context text = .ok v → v.isNull = false →
      Descends context v ∨
        ∃ part n, Descends context part ∧ part.length? = some n ∧ v = .ofNat n) ∧
      ∀ reason s, evaluate false context text ≠ .error (.expression (.failed reason s)) := by
  constructor
  · intro v h hn
    obtain ⟨e, -, ha, hv⟩ := evaluate_eq_ok_iff.mp h
    obtain ⟨path, hpath⟩ := value_of_path (ha.resolve_left (by simp))
    rw [hpath] at hv
    exact (comesFrom_of_follow hv).cases_of_isNull hn
  · intro reason s h
    rcases evaluate_false_error h with ⟨_, _, _, hfault⟩ | ⟨_, _, _, hfault⟩ | ⟨_, hfault⟩
    all_goals cases hfault

end Expression

end ApiSuite
