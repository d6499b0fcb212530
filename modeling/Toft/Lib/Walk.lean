import Mathlib.Tactic.Common

/-!
# Walks with a price

Two loops that move a state on and add up what the moves cost. `spend` moves as long as a budget
pays for the next move: what holds at the start and is kept by every move that is paid holds where
the loop stops, and there the budget does not pay the next move (`spend_spec`). `approach` moves as
long as the next state is not beyond an end: the same holds for it if the moves come closer to the
end (`approach_spec`), and it does not end if there is always a next state that is not beyond the
end (`approach_unended`).
-/

namespace Toft.Lib

variable {σ ε : Type}

/-- Moves while the budget pays; gives the state where it stops and what is left of the budget. -/
def spend (cost : σ → Except ε Int) (move : σ → Except ε σ) (unended : ε) :
    Nat → σ → Int → Except ε (σ × Int)
  | 0, _, _ => .error unended
  | fuel + 1, s, budget => do
    let price ← cost s
    if budget < price then return (s, budget)
    let s ← move s
    spend cost move unended fuel s (budget - price)

variable {cost : σ → Except ε Int} {move : σ → Except ε σ} {P : σ → Int → Prop}

/-- Every move that is paid keeps `P`, a relation of the state and what is left of the budget. -/
def Spends (cost : σ → Except ε Int) (move : σ → Except ε σ) (P : σ → Int → Prop) : Prop :=
  ∀ s budget, P s budget → ∃ price, cost s = .ok price ∧ 0 < price ∧
    (price ≤ budget → ∃ s', move s = .ok s' ∧ P s' (budget - price))

theorem spend_spec (unended : ε) (hstep : Spends cost move P) (fuel : Nat) {s : σ} {budget : Int}
    (h : P s budget) (hfuel : budget.toNat < fuel) :
    ∃ s' left price, spend cost move unended fuel s budget = .ok (s', left) ∧ P s' left ∧
      cost s' = .ok price ∧ left < price := by
  induction fuel generalizing s budget with
  | zero => exact absurd hfuel (Nat.not_lt_zero _)
  | succ fuel ih =>
    obtain ⟨price, hcost, hpos, hmove⟩ := hstep s budget h
    by_cases hlt : budget < price
    · refine ⟨s, budget, price, ?_, h, hcost, hlt⟩
      simp only [spend, hcost, bind, Except.bind, if_pos hlt, pure, Except.pure]
    · obtain ⟨s', hs', hP⟩ := hmove (Int.not_lt.mp hlt)
      obtain ⟨s'', left, price', hspend, hrest⟩ := ih hP (by omega)
      refine ⟨s'', left, price', ?_, hrest⟩
      simp only [spend, hcost, bind, Except.bind, if_neg hlt, hs', hspend]

/-- Moves while the next state is not beyond the end; gives the state where it stops and the sum of
the costs. -/
def approach (cost : σ → Except ε Int) (move : σ → Except ε σ) (beyond : σ → Bool) (unended : ε) :
    Nat → σ → Int → Except ε (σ × Int)
  | 0, _, _ => .error unended
  | fuel + 1, s, total => do
    let next ← move s
    if beyond next then return (s, total)
    let price ← cost s
    approach cost move beyond unended fuel next (total + price)

variable {beyond : σ → Bool}

/-- Every move that is not beyond the end keeps `P`, a relation of the state and the sum of the
costs, and comes closer to the end. -/
def Approaches (cost : σ → Except ε Int) (move : σ → Except ε σ) (beyond : σ → Bool)
    (distance : σ → Nat) (P : σ → Int → Prop) : Prop :=
  ∀ s total, P s total → ∃ next, move s = .ok next ∧ (beyond next = false →
    ∃ price, cost s = .ok price ∧ P next (total + price) ∧ distance next < distance s)

theorem approach_spec (unended : ε) {distance : σ → Nat}
    (hstep : Approaches cost move beyond distance P) (fuel : Nat) (s : σ) (total : Int)
    (h : P s total) (hfuel : distance s < fuel) :
    ∃ s' total' next, approach cost move beyond unended fuel s total = .ok (s', total') ∧
      P s' total' ∧ move s' = .ok next ∧ beyond next = true := by
  induction fuel generalizing s total with
  | zero => exact absurd hfuel (Nat.not_lt_zero _)
  | succ fuel ih =>
    obtain ⟨next, hmove, hclose⟩ := hstep s total h
    cases hbeyond : beyond next with
    | true =>
      refine ⟨s, total, next, ?_, h, hmove, hbeyond⟩
      simp only [approach, hmove, bind, Except.bind, hbeyond, if_true, pure, Except.pure]
    | false =>
      obtain ⟨price, hcost, hP, hdistance⟩ := hclose hbeyond
      obtain ⟨s', total', next', happroach, hrest⟩ := ih _ _ hP (by omega)
      refine ⟨s', total', next', ?_, hrest⟩
      simp only [approach, hmove, bind, Except.bind, hbeyond, Bool.false_eq_true, if_false, hcost,
        happroach]

theorem approach_unended (unended : ε) {I : σ → Prop}
    (hstep : ∀ s, I s → ∃ next price, move s = .ok next ∧ beyond next = false ∧
      cost s = .ok price ∧ I next)
    {s : σ} (h : I s) (fuel : Nat) (total : Int) :
    approach cost move beyond unended fuel s total = .error unended := by
  induction fuel generalizing s total with
  | zero => rfl
  | succ fuel ih =>
    obtain ⟨next, price, hmove, hbeyond, hcost, hI⟩ := hstep s h
    simp only [approach, hmove, bind, Except.bind, hbeyond, Bool.false_eq_true, if_false, hcost,
      ih hI]

end Toft.Lib
