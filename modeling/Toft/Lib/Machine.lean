import Mathlib.Tactic.Common

/-!
# Machines with events

A machine is a partial step function on states and events; an event says all that is left open in a
step, so that a list of events is one interleaving. What every step keeps holds behind every run
(`run_invariant`). A property of single steps holds all along a run (`Along`); two such properties
agree on a run if they agree in the states of an invariant that one of them keeps (`along_congr`).
-/

namespace Toft.Lib.Machine

variable {σ ε : Type} (step : σ → ε → Option σ)

/-- The state behind the events, `none` if one of them is not possible. -/
def run : σ → List ε → Option σ
  | s, [] => some s
  | s, event :: events => (step s event).bind (run · events)

@[simp] theorem run_nil (s : σ) : run step s [] = some s := rfl

theorem run_cons (s : σ) (event : ε) (events : List ε) :
    run step s (event :: events) = (step s event).bind (run step · events) := rfl

/-- A run goes on where it was left. -/
theorem run_append (s : σ) (events events' : List ε) :
    run step s (events ++ events') = (run step s events).bind (run step · events') := by
  induction events generalizing s with
  | nil => rfl
  | cons event events ih =>
    rw [List.cons_append, run_cons, run_cons, Option.bind_assoc]
    exact congrArg _ (funext ih)

/-- The state behind some run. -/
def Reaches (s s' : σ) : Prop := ∃ events, run step s events = some s'

variable {step}

theorem Reaches.refl (s : σ) : Reaches step s s := ⟨[], rfl⟩

theorem Reaches.trans {s s' s'' : σ} (h : Reaches step s s') (h' : Reaches step s' s'') :
    Reaches step s s'' := by
  obtain ⟨events, hrun⟩ := h
  obtain ⟨events', hrun'⟩ := h'
  exact ⟨events ++ events', by rw [run_append, hrun, Option.bind_some, hrun']⟩

theorem Reaches.single {s s' : σ} (event : ε) (h : step s event = some s') : Reaches step s s' :=
  ⟨[event], by rw [run_cons, h, Option.bind_some, run_nil]⟩

/-- What every step keeps holds in every state that is reached. -/
theorem Reaches.invariant {inv : σ → Prop}
    (hstep : ∀ s event s', inv s → step s event = some s' → inv s') {s s' : σ}
    (hreaches : Reaches step s s') (h : inv s) : inv s' := by
  obtain ⟨events, hrun⟩ := hreaches
  induction events generalizing s with
  | nil =>
    cases hrun
    exact h
  | cons event events ih =>
    obtain ⟨s₁, hs₁, hrun₁⟩ := Option.bind_eq_some_iff.mp hrun
    exact ih (hstep _ _ _ h hs₁) hrun₁

variable (step) in
/-- The property holds of every event of the run and of the state that it happens in. -/
def Along (p : σ → ε → Prop) : σ → List ε → Prop
  | _, [] => True
  | s, event :: events => p s event ∧ ∀ s', step s event = some s' → Along p s' events

instance decidableAlong {p : σ → ε → Prop} [∀ s event, Decidable (p s event)] :
    ∀ s events, Decidable (Along step p s events)
  | _, [] => isTrue trivial
  | s, event :: events =>
    match h : step s event with
    | none => decidable_of_iff (p s event) (by simp [Along, h])
    | some s' =>
      have : Decidable (Along step p s' events) := decidableAlong s' events
      decidable_of_iff (p s event ∧ Along step p s' events) (by simp [Along, h])

theorem Along.of_run {p : σ → ε → Prop} {s s' : σ} {events rest : List ε} {event : ε}
    (h : Along step p s (events ++ event :: rest)) (hrun : run step s events = some s') :
    p s' event := by
  induction events generalizing s with
  | nil =>
    cases hrun
    exact h.1
  | cons first events ih =>
    obtain ⟨s₁, hs₁, hrun₁⟩ := Option.bind_eq_some_iff.mp hrun
    exact ih (h.2 s₁ hs₁) hrun₁

/-- Two properties of steps agree along a run if they agree in the states of an invariant, and the
steps with the second property keep the invariant. -/
theorem along_congr {p q : σ → ε → Prop} {inv : σ → Prop}
    (hiff : ∀ s event, inv s → (p s event ↔ q s event))
    (hstep : ∀ s event s', inv s → q s event → step s event = some s' → inv s')
    {s : σ} (h : inv s) (events : List ε) : Along step p s events ↔ Along step q s events := by
  induction events generalizing s with
  | nil => exact Iff.rfl
  | cons event events ih =>
    rw [Along, hiff s event h]
    refine and_congr_right fun hq => ?_
    constructor
    · intro hp s' hs'
      exact (ih (hstep _ _ _ h hq hs')).mp (hp s' hs')
    · intro hq' s' hs'
      exact (ih (hstep _ _ _ h hq hs')).mpr (hq' s' hs')

end Toft.Lib.Machine
