import ApiSuite.Value.Order

/-!
# Merging objects

One object overrides another entry by entry. Where both have an object under a key, these are
merged in turn; anything else is replaced whole, lists included. Keys keep the order of the
overridden object, and new keys follow in theirs.
-/

namespace ApiSuite.Value

/-- The value that entries hold under a key. -/
def find? (key : Value) (entries : List (Value × Value)) : Option Value :=
  (entries.find? fun e => same e.1 key).map (·.2)

mutual

/-- What becomes of a value that an object has under a key when another overrides it. -/
def override (existing : Option Value) : Value → Value
  | .object entries =>
    match existing with
    | some (.object base) => .object (merge base entries)
    | _ => .object entries
  | v => v

/-- The entries of an object with those of another over them. -/
def merge (base : List (Value × Value)) : List (Value × Value) → List (Value × Value)
  | [] => base
  | (k, v) :: es => merge (insert k (override (find? k base) v) base) es

end

theorem isObject_iff {v : Value} : v.isObject ↔ ∃ entries, v = .object entries := by
  cases v <;> simp [isObject]

/-- What overrides a value is there as it is, or is merged into it: one object into another. -/
theorem override_cases (existing : Option Value) (w : Value) :
    override existing w = w ∨
      ∃ base es, existing = some (.object base) ∧ w = .object es ∧
        override existing w = .object (merge base es) := by
  cases w with
  | object es =>
    by_cases h : ∃ base, existing = some (.object base)
    · obtain ⟨base, rfl⟩ := h
      exact .inr ⟨base, es, rfl, rfl, by rw [override]⟩
    · refine .inl ?_
      rw [override]
      intro base hb
      exact h ⟨base, hb⟩
  | _ => exact .inl (by rw [override]; simp)

end ApiSuite.Value
