import Mathlib.Data.List.Basic

/-!
# Cursors

A cursor stands on an element while it is valid and moves with `next`, which may fault. `Yields` is
what a walk gives; it is determined by the state (`Yields.unique`), and it is shown by a relation
between states and the elements still to come that `next` keeps (`Yields.of_simulates`).
-/

namespace Toft.Lib

/-- The operations of a cursor with states `σ` over elements `α`. -/
structure Cursor (σ ε α : Type) where
  valid : σ → Bool
  item : σ → α
  next : σ → Except ε σ

namespace Cursor

variable {σ ε α : Type} {c : Cursor σ ε α} {s : σ} {x : α} {xs ys : List α}

/-- Walking from a state gives the elements one by one, and then the cursor is invalid. -/
inductive Yields (c : Cursor σ ε α) : σ → List α → Prop
  | done {s : σ} (hvalid : c.valid s = false) : Yields c s []
  | step {s s' : σ} {xs : List α} (hvalid : c.valid s = true) (hnext : c.next s = .ok s')
      (hrest : Yields c s' xs) : Yields c s (c.item s :: xs)

/-- `R` says of each state what is still to come, and `next` keeps it. -/
structure Simulates (c : Cursor σ ε α) (R : σ → List α → Prop) : Prop where
  nil : ∀ s, R s [] → c.valid s = false
  cons : ∀ s x xs, R s (x :: xs) →
    c.valid s = true ∧ c.item s = x ∧ ∃ s', c.next s = .ok s' ∧ R s' xs

namespace Yields

/-- What a simulation predicts is what the cursor yields. -/
theorem of_simulates {R : σ → List α → Prop} (hsim : c.Simulates R) (h : R s xs) :
    c.Yields s xs := by
  induction xs generalizing s with
  | nil => exact .done (hsim.nil s h)
  | cons x xs ih =>
    obtain ⟨hvalid, rfl, s', hnext, hrest⟩ := hsim.cons s x xs h
    exact .step hvalid hnext (ih hrest)

theorem valid_eq (h : c.Yields s xs) : c.valid s = !xs.isEmpty := by
  cases h with
  | done hvalid => exact hvalid
  | step hvalid _ _ => exact hvalid

theorem simulates (c : Cursor σ ε α) : c.Simulates c.Yields where
  nil _ h := h.valid_eq
  cons s x xs h := by
    cases h with
    | step hvalid hnext hrest => exact ⟨hvalid, rfl, _, hnext, hrest⟩

theorem item_eq (h : c.Yields s (x :: xs)) : c.item s = x := ((simulates c).cons s x xs h).2.1

theorem unique (hx : c.Yields s xs) (hy : c.Yields s ys) : xs = ys := by
  induction hx generalizing ys with
  | done hvalid =>
    have hempty := hy.valid_eq
    rw [hvalid] at hempty
    simpa using hempty
  | step hvalid hnext _ ih =>
    cases hy with
    | done hinvalid => simp [hvalid] at hinvalid
    | step _ hnext' hrest =>
      rw [hnext] at hnext'
      cases hnext'
      rw [ih hrest]

end Yields

end Cursor

end Toft.Lib
