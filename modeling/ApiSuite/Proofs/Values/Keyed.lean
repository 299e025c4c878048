import ApiSuite.Values.Holder
import ApiSuite.Values.Merge

/-!
# Objects with one entry a key

An object is a list of entries, and nothing in that keeps two of them from having one key.
Those that the program works on are **keyed**: no object that is reached through objects has a
text key twice. What JSON texts hold is keyed, and putting environment variables in keeps it
so. In a merge over keyed entries a key leads to what it leads to in one of the two objects, or
to the merge of both (`ApiSuite.Value.lookup_merge`).
-/

namespace ApiSuite.Value

/-! ### Lookups -/

variable {key : String} {k v : Value} {es base : List (Value × Value)}

theorem lookup_cons_of_isText (h : k.isText key) : lookup key ((k, v) :: es) = some v := by
  rw [lookup, if_pos h]

theorem lookup_cons_of_not_isText (h : ¬k.isText key) :
    lookup key ((k, v) :: es) = lookup key es := by
  rw [lookup, if_neg h]

theorem isText_iff : k.isText key ↔ k = .str key := by
  cases k <;> simp [isText]

/-- A key that is the same as a text key is that text. -/
theorem same_str : same k (.str key) = k.isText key := by
  cases k <;> simp [same, isText, sameAsNumber, number?]

theorem str_same : same (.str key) k = k.isText key := by
  cases k with
  | str s =>
    rw [same, isText]
    exact Bool.beq_comm
  | _ => simp [same, isText]

/-- Two keys that are the same are the same text, or no texts at all. -/
theorem isText_of_same {l : Value} (h : same k l) : k.isText key = l.isText key := by
  cases k with
  | str s => rw [isText_iff.mp (str_same.symm.trans h)]
  | _ =>
    cases l with
    | str s => rw [isText_iff.mp (same_str.symm.trans h)]
    | _ => rfl

theorem find?_str : find? (.str key) es = lookup key es := by
  induction es with
  | nil => rfl
  | cons e es ih =>
    obtain ⟨l, w⟩ := e
    by_cases h : l.isText key
    · simp [find?, same_str, h, lookup_cons_of_isText h]
    · have ih' : (es.find? fun e => same e.1 (.str key)).map (·.2) = lookup key es := ih
      simp [find?, same_str, h, lookup_cons_of_not_isText h, ← ih']

theorem lookup_insert :
    lookup key (insert k v es) = if k.isText key then some v else lookup key es := by
  induction es with
  | nil => rfl
  | cons e es ih =>
    obtain ⟨l, w⟩ := e
    rw [insert]
    by_cases hs : same l k
    · have ht : l.isText key = k.isText key := isText_of_same hs
      rw [if_pos hs, lookup, lookup, ht]
      split <;> rfl
    · rw [if_neg hs]
      by_cases hl : l.isText key
      · -- the key at hand is this one, so it is not the one that goes in
        have hk : ¬k.isText key := by
          intro hk
          rw [isText_iff.mp hl, isText_iff.mp hk] at hs
          exact hs (by simp [same])
        rw [lookup_cons_of_isText hl, lookup_cons_of_isText hl, if_neg hk]
      · rw [lookup_cons_of_not_isText hl, lookup_cons_of_not_isText hl, ih]

/-! ### Keyed values -/

mutual

/-- No object that is reached through objects has a text key twice. -/
def Keyed : Value → Prop
  | .object entries => KeyedEntries entries
  | _ => True

/-- No text key occurs twice, and the values are keyed. -/
def KeyedEntries : List (Value × Value) → Prop
  | [] => True
  | (k, v) :: es =>
    (∀ key, k.isText key → lookup key es = none) ∧ Keyed v ∧ KeyedEntries es

end

theorem KeyedEntries.lookup (h : KeyedEntries es) (hv : lookup key es = some v) : v.Keyed := by
  induction es with
  | nil => cases hv
  | cons e es ih =>
    obtain ⟨l, w⟩ := e
    rw [Value.lookup] at hv
    split at hv
    · cases hv
      exact h.2.1
    · exact ih h.2.2 hv

/-- Putting a keyed value in leaves the entries keyed: it takes the place of the one that has
its key. -/
theorem KeyedEntries.insert (h : KeyedEntries es) (hv : v.Keyed) (k : Value) :
    KeyedEntries (insert k v es) := by
  induction es with
  | nil => exact ⟨fun _ _ => rfl, hv, trivial⟩
  | cons e es ih =>
    obtain ⟨l, w⟩ := e
    rw [Value.insert]
    by_cases hs : same l k
    · rw [if_pos hs]
      exact ⟨h.1, hv, h.2.2⟩
    · rw [if_neg hs]
      refine ⟨?_, h.2.1, ih h.2.2⟩
      intro key hl
      have hk : ¬k.isText key := by
        intro hk
        rw [isText_iff.mp hl, isText_iff.mp hk] at hs
        exact hs (by simp [same])
      rw [lookup_insert, if_neg hk]
      exact h.1 key hl

/-- **What a key leads to in a merge.** -/
theorem lookup_merge (h : KeyedEntries es) :
    lookup key (merge base es) =
      match lookup key es with
      | none => lookup key base
      | some v => some (override (lookup key base) v) := by
  induction es generalizing base with
  | nil => rfl
  | cons e es ih =>
    obtain ⟨l, w⟩ := e
    -- The entries are put in one after another. A text key is among them once, so that what is
    -- put in under it stays as it is, and is worked out from what the base has under it.
    rw [merge, ih h.2.2, lookup_insert]
    by_cases hl : l.isText key
    · rw [h.1 key hl, lookup_cons_of_isText hl, isText_iff.mp hl, find?_str]
      simp [isText]
    · rw [lookup_cons_of_not_isText hl]
      simp [hl]

theorem lookup_merge_of_none (h : KeyedEntries es) (hn : lookup key es = none) :
    lookup key (merge base es) = lookup key base := by
  rw [lookup_merge h, hn]

theorem lookup_merge_of_some (h : KeyedEntries es) (hv : lookup key es = some v) :
    lookup key (merge base es) = some (override (lookup key base) v) := by
  rw [lookup_merge h, hv]

/-! ### Environment variables -/

section Environment

variable {env : Environment}

theorem lookup_substituteEntries_of_none (h : lookup key es = none) :
    lookup key (env.substituteEntries es) = none := by
  induction es with
  | nil =>
    rw [Environment.substituteEntries]
    exact h
  | cons e es ih =>
    obtain ⟨l, w⟩ := e
    by_cases hl : l.isText key
    · rw [lookup_cons_of_isText hl] at h
      cases h
    · rw [lookup_cons_of_not_isText hl] at h
      rw [Environment.substituteEntries]
      split
      · rw [lookup_cons_of_not_isText hl]
        exact ih h
      · exact ih h

mutual

theorem Keyed.substitute? {v w : Value} (h : v.Keyed) (hw : env.substitute? v = some w) :
    w.Keyed := by
  cases v with
  | object entries =>
    rw [Environment.substitute?] at hw
    cases hw
    exact KeyedEntries.substitute h
  | str s =>
    obtain ⟨t, -, rfl⟩ := Option.map_eq_some_iff.mp hw
    trivial
  | list items =>
    cases hw
    trivial
  | _ =>
    cases hw
    trivial

/-- **Putting environment variables in keeps entries keyed.** -/
theorem KeyedEntries.substitute {es : List (Value × Value)} (h : KeyedEntries es) :
    KeyedEntries (env.substituteEntries es) := by
  cases es with
  | nil => simp [Environment.substituteEntries, KeyedEntries]
  | cons e es =>
    obtain ⟨l, w⟩ := e
    rw [Environment.substituteEntries]
    split
    · rename_i u hu
      exact ⟨fun key hl => lookup_substituteEntries_of_none (h.1 key hl),
        Keyed.substitute? h.2.1 hu, KeyedEntries.substitute h.2.2⟩
    · exact KeyedEntries.substitute h.2.2

end

end Environment

end ApiSuite.Value

namespace ApiSuite

open Value

/-! ### What is read is keyed -/

namespace Json

/-- A reading that gives a keyed value if it gives one. -/
def GivesKeyed (x : Except Stop (Value × List Char)) : Prop :=
  ∀ v rest, x = .ok (v, rest) → v.Keyed

theorem givesKeyed_error {e : Stop} : GivesKeyed (.error e) := by
  intro v rest h
  cases h

theorem givesKeyed_ok {v : Value} {rest : List Char} (h : v.Keyed) :
    GivesKeyed (.ok (v, rest)) := by
  rintro _ _ ⟨⟩
  exact h

theorem givesKeyed_bind {α : Type} {x : Except Stop α} {f : α → Except Stop (Value × List Char)}
    (h : ∀ a, x = .ok a → GivesKeyed (f a)) : GivesKeyed (x >>= f) := by
  cases x with
  | error e => exact givesKeyed_error
  | ok a => exact h a rfl

theorem givesKeyed_readNumber {cs : List Char} : GivesKeyed (readNumber cs) := by
  unfold readNumber
  simp only
  split
  · exact givesKeyed_error
  · split
    · split
      · exact givesKeyed_error
      · exact givesKeyed_ok trivial
    · exact givesKeyed_ok trivial
    · split <;> exact givesKeyed_ok trivial

theorem keyed_of_readWord? {cs rest : List Char} {v : Value}
    (h : readWord? cs = some (v, rest)) : v.Keyed := by
  obtain ⟨⟨word, w⟩, hmem, hw⟩ := List.exists_of_findSome?_eq_some h
  obtain ⟨_, -, hv⟩ := Option.map_eq_some_iff.mp hw
  cases hv
  simp only [words, List.mem_cons, Prod.mk.injEq, List.not_mem_nil, or_false] at hmem
  rcases hmem with ⟨-, rfl⟩ | ⟨-, rfl⟩ | ⟨-, rfl⟩ | ⟨-, rfl⟩ | ⟨-, rfl⟩ | ⟨-, rfl⟩ <;> trivial

/-- Each of the three reading functions calls the others with less fuel; an object gets its
entries one by one, and each takes the place of one with its key. -/
theorem givesKeyed_read (fuel : Nat) :
    (∀ cs, GivesKeyed (readValue fuel cs)) ∧
      (∀ seen cs, GivesKeyed (readItems fuel seen cs)) ∧
      ∀ seen cs, KeyedEntries seen → GivesKeyed (readEntries fuel seen cs) := by
  induction fuel with
  | zero =>
    refine ⟨fun cs => ?_, fun seen cs => ?_, fun seen cs _ => ?_⟩
    · rw [readValue]
      exact givesKeyed_error
    · rw [readItems]
      exact givesKeyed_error
    · rw [readEntries]
      exact givesKeyed_error
  | succ fuel ih =>
    obtain ⟨hvalue, hitems, hentries⟩ := ih
    refine ⟨fun cs => ?_, fun seen cs => ?_, fun seen cs hseen => ?_⟩
    · rw [readValue.eq_def]
      dsimp only
      split
      · exact givesKeyed_bind fun _ _ => givesKeyed_ok trivial
      · split
        · exact givesKeyed_ok trivial
        · exact hentries _ _ trivial
      · split
        · exact givesKeyed_ok trivial
        · exact hitems _ _
      · split
        · rename_i found hfound
          exact givesKeyed_ok (keyed_of_readWord? hfound)
        · exact givesKeyed_readNumber
    · rw [readItems]
      refine givesKeyed_bind fun a _ => ?_
      obtain ⟨v, rest⟩ := a
      dsimp only
      split
      · exact givesKeyed_ok trivial
      · exact hitems _ _
      · exact givesKeyed_error
    · rw [readEntries.eq_def]
      dsimp only
      split
      · refine givesKeyed_bind fun a _ => ?_
        split
        · refine givesKeyed_bind fun b hb => ?_
          have hkeyed := hseen.insert (hvalue _ _ _ hb) (.str a.1)
          split
          · exact givesKeyed_ok hkeyed
          · exact hentries _ _ hkeyed
          · exact givesKeyed_error
        · exact givesKeyed_error
      · exact givesKeyed_error

/-- **The value that a JSON text holds is keyed.** -/
theorem keyed_of_read {s : String} {v : Value} (h : read s = .ok v) : v.Keyed := by
  unfold read at h
  dsimp only at h
  split at h
  · rename_i w hw
    cases h
    unfold readWhole at hw
    split at hw
    · cases hw
    · rcases hv : readValue (s.toList.length + 1) (skip s.toList) with e | ⟨u, rest⟩
      · simp [hv, bind, Except.bind] at hw
      · have hu := (givesKeyed_read _).1 _ _ _ hv
        simp only [hv, bind, Except.bind] at hw
        split at hw
        · cases hw
          exact hu
        · cases hw
  · cases h
  · cases h

end Json

end ApiSuite
