/-!
# Runs that do not return

Code that runs into a failed check or undefined behaviour does not return. A function that may do
so is modelled in `Except Fault`; its ordinary failures are part of the value it returns.
-/

namespace Toft

/-- How a call can fail to return. -/
inductive Fault where
  /-- a failed `CHECK` or a `LOG(FATAL)` -/
  | fatal
  /-- an access outside of a buffer or container -/
  | overrun
  /-- a negative length given to `std::string` or to `new` -/
  | badLength
  | nullPointer
  /-- a variable that is read before it is set -/
  | uninitialized
  | divideByZero
  /-- a shift by the width of its operand or more -/
  | badShift
  /-- the bound on the rounds of a loop; it is never reached -/
  | unended
  deriving DecidableEq, Repr

variable {α β : Type}

@[simp] theorem ok_bind (a : α) (f : α → Except Fault β) : Except.ok a >>= f = f a := rfl

@[simp] theorem error_bind (e : Fault) (f : α → Except Fault β) :
    (Except.error e >>= f) = Except.error e := rfl

@[simp] theorem pure_eq_ok (a : α) : (pure a : Except Fault α) = Except.ok a := rfl

variable {f : α → Except Fault β}

/-- A sequence succeeds if both of its parts do. -/
theorem bind_eq_ok_iff {x : Except Fault α} {b : β} :
    x >>= f = .ok b ↔ ∃ a, x = .ok a ∧ f a = .ok b := by
  cases x <;> simp

theorem bind_eq_error_iff {x : Except Fault α} {e : Fault} :
    x >>= f = .error e ↔ x = .error e ∨ ∃ a, x = .ok a ∧ f a = .error e := by
  cases x <;> simp

theorem mapM_eq_ok {g : α → β} {xs : List α}
    (h : ∀ x ∈ xs, f x = .ok (g x)) : xs.mapM f = .ok (xs.map g) := by
  induction xs with
  | nil => rfl
  | cons x xs ih =>
    rw [List.mapM_cons, h x List.mem_cons_self, ih fun y hy => h y (List.mem_cons_of_mem _ hy)]
    rfl

end Toft
