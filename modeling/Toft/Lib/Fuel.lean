import Mathlib.Data.Nat.Basic

/-!
# Loops with a bounded number of rounds

A loop that need not end is a function of the number of rounds it may take, `none` when they do
not suffice. Such a run settles on a value when every large enough number of rounds gives it; it
hangs when no number does. Settled runs compose (`Settles.bind`) and have one value.
-/

namespace Toft.Lib

variable {α β : Type}

/-- Every large enough number of rounds gives `x`. -/
def Settles (run : Nat → Option α) (x : α) : Prop :=
  ∃ N, ∀ fuel, N ≤ fuel → run fuel = some x

/-- However large the number of rounds, it does not suffice. -/
def Hangs (run : Nat → Option α) : Prop :=
  ∃ N, ∀ fuel, N ≤ fuel → run fuel = none

namespace Settles

theorem pure (x : α) : Settles (fun _ => some x) x :=
  ⟨0, fun _ _ => rfl⟩

variable {run : Nat → Option α} {x : α}

theorem bind (h : Settles run x) (next : Nat → α → Option β) {y : β}
    (hnext : Settles (fun fuel => next fuel x) y) :
    Settles (fun fuel => run fuel >>= next fuel) y := by
  obtain ⟨N, hN⟩ := h
  obtain ⟨M, hM⟩ := hnext
  refine ⟨max N M, fun fuel hfuel => ?_⟩
  show run fuel >>= next fuel = some y
  rw [hN fuel (by omega), Option.bind_eq_bind]
  exact hM fuel (by omega)

theorem step {run next : Nat → Option α} (h : Settles next x)
    (hstep : ∀ fuel, run (fuel + 1) = next fuel) : Settles run x := by
  obtain ⟨N, hN⟩ := h
  refine ⟨N + 1, fun fuel hfuel => ?_⟩
  obtain ⟨k, rfl⟩ : ∃ k, fuel = k + 1 := ⟨fuel - 1, by omega⟩
  rw [hstep]
  exact hN k (by omega)

theorem congr {run run' : Nat → Option α} (h : Settles run x)
    (heq : ∀ fuel, run' fuel = run fuel) : Settles run' x := by
  rwa [funext heq]

theorem unique {x y : α} (hx : Settles run x) (hy : Settles run y) : x = y := by
  obtain ⟨N, hN⟩ := hx
  obtain ⟨M, hM⟩ := hy
  exact Option.some.inj ((hN (max N M) (by omega)).symm.trans (hM (max N M) (by omega)))

theorem not_hangs (h : Settles run x) : ¬ Hangs run := by
  obtain ⟨N, hN⟩ := h
  rintro ⟨M, hM⟩
  have := (hN (max N M) (by omega)).symm.trans (hM (max N M) (by omega))
  cases this

theorem bind_hangs (h : Settles run x)
    (next : Nat → α → Option β) (hnext : Hangs (fun fuel => next fuel x)) :
    Hangs (fun fuel => run fuel >>= next fuel) := by
  obtain ⟨N, hN⟩ := h
  obtain ⟨M, hM⟩ := hnext
  refine ⟨max N M, fun fuel hfuel => ?_⟩
  show run fuel >>= next fuel = none
  rw [hN fuel (by omega), Option.bind_eq_bind]
  exact hM fuel (by omega)

end Settles

namespace Hangs

theorem bind {run : Nat → Option α} (h : Hangs run) (next : Nat → α → Option β) :
    Hangs (fun fuel => run fuel >>= next fuel) := by
  obtain ⟨N, hN⟩ := h
  refine ⟨N, fun fuel hfuel => ?_⟩
  show run fuel >>= next fuel = none
  rw [hN fuel hfuel]
  rfl

theorem congr {run run' : Nat → Option α} (h : Hangs run) (heq : ∀ fuel, run' fuel = run fuel) :
    Hangs run' := by
  rwa [funext heq]

end Hangs

end Toft.Lib
