import Sentential.Circuit.Layout
import Sentential.Format.Error

/-!
# Outcomes of operations

How a sequence of operations that can fail is taken apart: it succeeds if and only if each of its
steps does. The lemmas are stated for the three kinds of errors at once where they can be, and for
each lifting of faults where they cannot.
-/

namespace Sentential

section

variable {ε α β : Type}

@[simp] theorem ok_bind (a : α) (f : α → Except ε β) : (Except.ok a >>= f) = f a := rfl

@[simp] theorem error_bind (e : ε) (f : α → Except ε β) :
    (Except.error e >>= f) = Except.error e := rfl

@[simp] theorem pure_eq (a : α) : (pure a : Except ε α) = .ok a := rfl

@[simp] theorem throw_eq (e : ε) : (throw e : Except ε α) = .error e := rfl

/-- A sequence succeeds if and only if both steps do. -/
theorem bind_eq_ok {x : Except ε α} {f : α → Except ε β} {b : β} :
    (x >>= f) = .ok b ↔ ∃ a, x = .ok a ∧ f a = .ok b := by
  cases x with
  | error e => simp
  | ok a => simp

theorem mapError_bind {ε' : Type} (g : ε → ε') (x : Except ε α) (k : α → Except ε β) :
    (x >>= k).mapError g = x.mapError g >>= fun a => (k a).mapError g := by
  cases x <;> rfl

theorem mapError_self {g : ε → ε} (h : ∀ e, g e = e) (x : Except ε α) : x.mapError g = x := by
  cases x with
  | ok a => rfl
  | error e => exact congrArg Except.error (h e)

end

/-! ## Faults among other errors -/

section

variable {α : Type}

@[simp] theorem format_liftM_ok (a : α) :
    (liftM (Except.ok a : Except Fault α) : Except Format.FormatError α) = .ok a := rfl

@[simp] theorem format_liftM_error (e : Fault) :
    (liftM (Except.error e : Except Fault α) : Except Format.FormatError α)
      = .error (.fault e) := rfl

@[simp] theorem compile_liftM_ok (a : α) :
    (liftM (Except.ok a : Except Fault α) : Except CompileError α) = .ok a := rfl

@[simp] theorem compile_liftM_error (e : Fault) :
    (liftM (Except.error e : Except Fault α) : Except CompileError α) = .error (.fault e) := rfl

theorem format_liftM_eq_ok {x : Except Fault α} {a : α} :
    (liftM x : Except Format.FormatError α) = .ok a ↔ x = .ok a := by
  cases x <;> simp

theorem compile_liftM_eq_ok {x : Except Fault α} {a : α} :
    (liftM x : Except CompileError α) = .ok a ↔ x = .ok a := by
  cases x <;> simp

end
end Sentential
