import Toft.Lib.Machine

/-!
# Threads that share a state

The threads of a system are a list of places in their programs, and they share a state. `act` is
the step of one thread; `stepAt` is the step of the thread at an index. A step of the system takes
one thread out of its place in the list (`stepAt_cases`), and what a thread can do on its own it can
do there (`reaches_of_acts`). If each thread in turn can go from one place to another, all of them
can (`Reaches.sweep`).
-/

namespace Toft.Lib

namespace Threads

variable {σ τ : Type} (act : τ → σ → Option (τ × σ))

/-- A step of one of the threads. -/
def stepAt (threads : List τ) (i : Nat) (s : σ) : Option (List τ × σ) := do
  let t ← threads[i]?
  let (t', s') ← act t s
  return (threads.set i t', s')

theorem stepAt_append (before after : List τ) (t : τ) (s : σ) :
    stepAt act (before ++ t :: after) before.length s =
      (act t s).map fun r => (before ++ r.1 :: after, r.2) := by
  have hget : (before ++ t :: after)[before.length]? = some t := by simp
  have hset (t' : τ) : (before ++ t :: after).set before.length t' = before ++ t' :: after := by
    simp
  simp only [stepAt, hget, hset, Option.bind_eq_bind, Option.bind_some]
  cases act t s <;> rfl

variable {act} {s s' : σ}

/-- A step changes one thread and what they share. -/
theorem stepAt_cases {threads threads' : List τ} {i : Nat}
    (h : stepAt act threads i s = some (threads', s')) :
    ∃ before t t' after, threads = before ++ t :: after ∧ threads' = before ++ t' :: after ∧
      act t s = some (t', s') := by
  obtain ⟨t, hget, hbind⟩ := Option.bind_eq_some_iff.mp h
  obtain ⟨hlt, rfl⟩ := List.getElem?_eq_some_iff.mp hget
  have hthreads : threads = threads.take i ++ threads[i] :: threads.drop (i + 1) := by simp
  have hlength : (threads.take i).length = i := by simp; omega
  have hstep := stepAt_append act (threads.take i) (threads.drop (i + 1)) threads[i] s
  rw [← hthreads, hlength, h] at hstep
  obtain ⟨⟨t', s''⟩, hact, heq⟩ := Option.map_eq_some_iff.mp hstep.symm
  cases heq
  exact ⟨_, _, t', _, hthreads, rfl, hact⟩

/-- What a thread comes to if the others stand still. -/
def Acts (act : τ → σ → Option (τ × σ)) (t : τ) (s : σ) (t' : τ) (s' : σ) : Prop :=
  Machine.Reaches (fun (r : τ × σ) (_ : Unit) => act r.1 r.2) (t, s) (t', s')

theorem Acts.refl (t : τ) (s : σ) : Acts act t s t s := Machine.Reaches.refl _

theorem Acts.step {t t₁ t' : τ} {s s₁ s' : σ} (h : act t s = some (t₁, s₁))
    (h' : Acts act t₁ s₁ t' s') : Acts act t s t' s' :=
  (Machine.Reaches.single () h).trans h'

theorem Acts.via {t t' : τ} (t₁ : τ) (s₁ : σ) (h : act t s = some (t₁, s₁))
    (h' : Acts act t₁ s₁ t' s') : Acts act t s t' s' :=
  h'.step h

theorem reaches_of_acts {κ ε : Type} {step : κ → ε → Option κ} (system : τ → σ → κ)
    (hsystem : ∀ t s t' s', act t s = some (t', s') →
      Machine.Reaches step (system t s) (system t' s'))
    {t t' : τ} (h : Acts act t s t' s') :
    Machine.Reaches step (system t s) (system t' s') := by
  obtain ⟨events, hrun⟩ := h
  induction events generalizing t s with
  | nil =>
    cases hrun
    exact .refl _
  | cons event events ih =>
    obtain ⟨⟨t₁, s₁⟩, hact, hrun₁⟩ := Option.bind_eq_some_iff.mp hrun
    exact (hsystem t s t₁ s₁ hact).trans (ih hrun₁)

end Threads

theorem Machine.Reaches.sweep {σ τ κ ε : Type} {step : κ → ε → Option κ}
    (system : List τ → σ → κ) {t t' : τ} {s : Nat → σ} {n : Nat}
    (hone : ∀ i before after, i < n → Machine.Reaches step
      (system (before ++ t :: after) (s i)) (system (before ++ t' :: after) (s (i + 1)))) :
    Machine.Reaches step (system (List.replicate n t) (s 0))
      (system (List.replicate n t') (s n)) := by
  have hsome : ∀ i ≤ n, Machine.Reaches step (system (List.replicate n t) (s 0))
      (system (List.replicate i t' ++ List.replicate (n - i) t) (s i)) := by
    intro i hi
    induction i with
    | zero => exact .refl _
    | succ i ih =>
      have hstep := hone i (List.replicate i t') (List.replicate (n - (i + 1)) t) hi
      rw [← List.replicate_succ, show n - (i + 1) + 1 = n - i by omega] at hstep
      refine (ih (by omega)).trans ?_
      rw [List.replicate_succ', List.append_assoc]
      exact hstep
  have hall := hsome n (Nat.le_refl n)
  rwa [Nat.sub_self, List.replicate_zero, List.append_nil] at hall

end Toft.Lib
