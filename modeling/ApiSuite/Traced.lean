import ApiSuite.Fault
import ApiSuite.Log

/-!
# Traced computations

A **traced** computation ends in a value or a fault and leaves the log entries made on the
way, also those made before a fault. The results of a sequence of computations do not depend
on their logs (`ApiSuite.Traced.result_bind`), so that logs can be disregarded in reasoning
about answers.
-/

namespace ApiSuite

/-- A value or a fault, with the log entries made on the way to it. -/
structure Traced (α : Type) where
  result : Except Fault α
  log : List Log.Entry

namespace Traced

variable {α β : Type}

/-- The computation that is already done. -/
protected def pure (a : α) : Traced α := ⟨.ok a, []⟩

/-- One computation after another; a fault ends the sequence. -/
protected def bind (x : Traced α) (f : α → Traced β) : Traced β :=
  match x.result with
  | .ok a => ⟨(f a).result, x.log ++ (f a).log⟩
  | .error e => ⟨.error e, x.log⟩

instance : Monad Traced where
  pure := Traced.pure
  bind := Traced.bind

/-- The computation that fails. -/
def fail (e : Fault) : Traced α := ⟨.error e, []⟩

/-- The computation with the given result and an empty log. -/
def ofExcept (r : Except Fault α) : Traced α := ⟨r, []⟩

instance : MonadLift (Except Fault) Traced := ⟨ofExcept⟩

/-- The computation that makes one log entry. -/
def tell (e : Log.Entry) : Traced Unit := ⟨.ok (), [e]⟩

/-- The computation with its known faults handled. Crashes pass. -/
def handleKnown (x : Traced α) (handler : Fault → Traced α) : Traced α :=
  match x.result with
  | .ok _ => x
  | .error e =>
    if e.isKnown then ⟨(handler e).result, x.log ++ (handler e).log⟩ else x

@[simp] theorem result_pure (a : α) : (pure a : Traced α).result = .ok a := rfl

@[simp] theorem log_pure (a : α) : (pure a : Traced α).log = [] := rfl

/-- **The result of a sequence is the sequence of the results.** -/
@[simp] theorem result_bind (x : Traced α) (f : α → Traced β) :
    (x >>= f).result = x.result.bind fun a => (f a).result := by
  show (Traced.bind x f).result = _
  unfold Traced.bind
  cases h : x.result <;> simp [Except.bind]

@[simp] theorem result_tell (e : Log.Entry) : (tell e).result = .ok () := rfl

@[simp] theorem result_ofExcept (r : Except Fault α) : (ofExcept r).result = r := rfl

theorem id_map_eq (x : Traced α) : id <$> x = x := by
  show Traced.bind x _ = x
  unfold Traced.bind
  cases h : x.result <;> cases x <;> simp_all [Traced.pure, Function.comp]

theorem pure_bind_eq (a : α) (f : α → Traced β) : pure a >>= f = f a := by
  show Traced.bind (Traced.pure a) f = f a
  simp [Traced.bind, Traced.pure]

theorem bind_assoc_eq {γ : Type} (x : Traced α) (f : α → Traced β) (g : β → Traced γ) :
    x >>= f >>= g = x >>= fun a => f a >>= g := by
  show Traced.bind (Traced.bind x f) g = Traced.bind x fun a => Traced.bind (f a) g
  unfold Traced.bind
  cases h : x.result with
  | error e => rfl
  | ok a => cases h' : (f a).result <;> simp [h', List.append_assoc]

instance : LawfulMonad Traced :=
  LawfulMonad.mk' Traced id_map_eq pure_bind_eq bind_assoc_eq

end Traced

section Results

variable {ε α β : Type} {r : Except ε α} {a : α} {f : α → β} {b : β}

/-- A computation of two parts comes to what the second comes to after the first. -/
theorem bind_eq_ok_iff {f : α → Except ε β} :
    (r >>= f) = .ok b ↔ ∃ a, r = .ok a ∧ f a = .ok b := by
  cases r <;> simp [bind, Except.bind]

/-- A result of which something can be told is a value, and it is told of that value. -/
theorem exists_eq_ok (h : r.toOption.map f = some b) : ∃ a, r = .ok a ∧ f a = b := by
  cases r with
  | error fault => cases h
  | ok a => exact ⟨a, rfl, Option.some.inj h⟩

theorem eq_ok (h : r.toOption = some a) : r = .ok a := by
  obtain ⟨a', rfl, rfl⟩ := exists_eq_ok (f := id) (by simpa using h)
  rfl

theorem eq_ok_none {r : Except ε (Option α)} (h : r.toOption.map Option.isNone = some true) :
    r = .ok none := by
  obtain ⟨found, rfl, hfound⟩ := exists_eq_ok h
  rw [Option.isNone_iff_eq_none.mp hfound]

/-- A list all of whose elements come to something comes to all of that. -/
theorem mapM_of_forall {f : α → Except ε β} {g : α → β} {xs : List α}
    (h : ∀ x ∈ xs, f x = .ok (g x)) : xs.mapM f = .ok (xs.map g) := by
  induction xs with
  | nil => rfl
  | cons x xs ih =>
    obtain ⟨hx, hxs⟩ := List.forall_mem_cons.mp h
    rw [List.mapM_cons, hx, ih hxs]
    rfl

end Results

end ApiSuite
