import ApiSuite.Values.Lookup

/-!
# Sessions of lookups

Lookups made one after another share a **memo**, in which what they find out is kept: what
each key was found to be, a miss included, the sources with environment variables put in, and
the merged view. A session is a traced computation that reads and extends the memo; what was
remembered before a fault stays remembered after it.
-/

namespace ApiSuite

/-- One thing that has been found out. -/
inductive Finding where
  /-- What a key was found to be; no value if it was looked up in vain. -/
  | key (key : String) (found : Option LocatedValue)
  /-- The sources with environment variables put in. -/
  | sources (found : List Source)
  /-- The entries of the merged view. -/
  | merged (found : List (Value × Value))

/-- What has been found out so far, the latest first. -/
abbrev Memo := List Finding

/-- What a key was found to be, if this is what was found out. -/
def Finding.key? (key : String) : Finding → Option (Option LocatedValue)
  | .key k found => if k == key then some found else none
  | _ => none

/-- The sources, if these are what was found out. -/
def Finding.sources? : Finding → Option (List Source)
  | .sources found => some found
  | _ => none

/-- The merged view, if this is what was found out. -/
def Finding.merged? : Finding → Option (List (Value × Value))
  | .merged found => some found
  | _ => none

/-- A computation that makes lookups. -/
def Session (α : Type) : Type := Memo → Traced α × Memo

namespace Session

variable {α β : Type}

/-- The session that makes no lookup. -/
protected def pure (a : α) : Session α := fun memo => (pure a, memo)

/-- One session after another; a fault ends the sequence and keeps the memo. -/
protected def bind (x : Session α) (f : α → Session β) : Session β := fun memo =>
  let (t, memo) := x memo
  match t.result with
  | .ok a =>
    let (u, memo) := f a memo
    (⟨u.result, t.log ++ u.log⟩, memo)
  | .error e => (⟨.error e, t.log⟩, memo)

instance : Monad Session where
  pure := Session.pure
  bind := Session.bind

/-- A traced computation as a session that makes no lookup. -/
def lift (t : Traced α) : Session α := fun memo => (t, memo)

instance : MonadLift Traced Session := ⟨lift⟩

/-- What a computation finds out, unless the memo holds it already. What is found out is kept;
a fault leaves nothing to keep. -/
def once (known? : Finding → Option α) (keep : α → Finding) (compute : Session α) :
    Session α := fun memo =>
  match memo.findSome? known? with
  | some a => (pure a, memo)
  | none =>
    let (t, memo) := compute memo
    match t.result with
    | .ok a => (t, keep a :: memo)
    | .error _ => (t, memo)

/-! ### What a step of a session does -/

theorem bind_of_ok {x : Session α} {memo : Memo} {a : α} (h : (x memo).1.result = .ok a)
    (f : α → Session β) :
    (x >>= f) memo =
      (⟨(f a (x memo).2).1.result, (x memo).1.log ++ (f a (x memo).2).1.log⟩,
        (f a (x memo).2).2) := by
  show Session.bind x f memo = _
  simp only [Session.bind, h]

theorem bind_of_error {x : Session α} {memo : Memo} {e : Fault}
    (h : (x memo).1.result = .error e) (f : α → Session β) :
    (x >>= f) memo = (⟨.error e, (x memo).1.log⟩, (x memo).2) := by
  show Session.bind x f memo = _
  simp only [Session.bind, h]

variable {known? : Finding → Option α} {keep : α → Finding} {compute : Session α} {memo : Memo}

theorem once_of_some {a : α} (h : memo.findSome? known? = some a) :
    once known? keep compute memo = (pure a, memo) := by
  simp only [once, h]

theorem once_of_ok {a : α} (h : memo.findSome? known? = none)
    (ha : (compute memo).1.result = .ok a) :
    once known? keep compute memo = ((compute memo).1, keep a :: (compute memo).2) := by
  simp only [once, h, ha]

theorem once_of_error {e : Fault} (h : memo.findSome? known? = none)
    (he : (compute memo).1.result = .error e) :
    once known? keep compute memo = compute memo := by
  simp only [once, h, he]

/-- **What is done once** is either in the memo already, or computed and then kept, unless it
ends in a fault. -/
theorem once_cases (known? : Finding → Option α) (keep : α → Finding) (compute : Session α)
    (memo : Memo) :
    (∃ f ∈ memo, ∃ a, known? f = some a ∧ once known? keep compute memo = (pure a, memo)) ∨
      ∃ new, once known? keep compute memo = ((compute memo).1, new ++ (compute memo).2) ∧
        ∀ f ∈ new, ∃ a, (compute memo).1.result = .ok a ∧ f = keep a := by
  rcases h : memo.findSome? known? with _ | a
  · rcases ha : (compute memo).1.result with e | a
    · exact .inr ⟨[], once_of_error h ha, by simp⟩
    · refine .inr ⟨[keep a], once_of_ok h ha, ?_⟩
      intro f hf
      exact ⟨a, rfl, List.mem_singleton.mp hf⟩
  · obtain ⟨f, hf, hfa⟩ := List.exists_of_findSome?_eq_some h
    exact .inl ⟨f, hf, a, hfa, once_of_some h⟩

/-- What has been found out is in the memo. -/
theorem findSome?_once {a : α} (hk : known? (keep a) = some a)
    (h : (once known? keep compute memo).1.result = .ok a) :
    (once known? keep compute memo).2.findSome? known? = some a := by
  rcases hm : memo.findSome? known? with _ | b
  · rcases hc : (compute memo).1.result with e | b
    · rw [once_of_error hm hc, hc] at h
      cases h
    · rw [once_of_ok hm hc] at h ⊢
      cases hc.symm.trans h
      rw [List.findSome?_cons, hk]
  · rw [once_of_some hm] at h ⊢
    cases h
    exact hm

end Session

end ApiSuite
