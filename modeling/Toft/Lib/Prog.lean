/-!
# Programs over a state

A program faults, or it returns with a value or without one and leaves a state (`Prog`). A program
without a value has failed: what follows it is skipped, and the state stays as the failed part left
it.

Through a relation between its states and simpler ones a program has an outcome on the simpler ones
(`Prog.Runs`). Outcomes compose as the programs do (`Runs.bind`, `Runs.bind_none`,
`Runs.bind_error`), so that what a program does is computed on the simpler states.
-/

namespace Toft.Lib

/-- A program on a state: it gives a value, gives up, or has a fault. -/
def Prog (ε σ α : Type) : Type := σ → Except ε (Option α × σ)

variable {ε σ τ α β : Type}

namespace Prog

/-- What follows a part of a program. -/
def andThen (f : α → Prog ε σ β) : Except ε (Option α × σ) → Except ε (Option β × σ)
  | .error e => .error e
  | .ok (none, s) => .ok (none, s)
  | .ok (some a, s) => f a s

instance : Monad (Prog ε σ) where
  pure a := fun s => .ok (some a, s)
  bind m f := fun s => andThen f (m s)

theorem bind_apply (m : Prog ε σ α) (f : α → Prog ε σ β) (s : σ) :
    (m >>= f) s = andThen f (m s) := rfl

theorem pure_apply (a : α) (s : σ) : (pure a : Prog ε σ α) s = .ok (some a, s) := rfl

/-- Gives up. -/
def fail : Prog ε σ α := fun s => .ok (none, s)

def fault (e : ε) : Prog ε σ α := fun _ => .error e

/-- Reads the state. -/
def gets (f : σ → α) : Prog ε σ α := fun s => .ok (some (f s), s)

/-- Changes the state. -/
def modify (f : σ → σ) : Prog ε σ Unit := fun s => .ok (some (), f s)

/-- Catches giving up. -/
def optional (m : Prog ε σ α) : Prog ε σ (Option α) := fun s =>
  match m s with
  | .error e => .error e
  | .ok (a, s') => .ok (some a, s')

/-- Runs on a part of the state. -/
def zoom (get : τ → σ) (set : σ → τ → τ) (m : Prog ε σ α) : Prog ε τ α := fun t =>
  match m (get t) with
  | .error e => .error e
  | .ok (a, s) => .ok (a, set s t)

theorem eq_of_pure {a b : α} {s s' : σ} (h : (pure a : Prog ε σ α) s = .ok (some b, s')) :
    b = a ∧ s' = s := by
  rw [pure_apply, Except.ok.injEq, Prod.mk.injEq, Option.some.injEq] at h
  exact ⟨h.1.symm, h.2.symm⟩

theorem exists_of_bind {m : Prog ε σ α} {f : α → Prog ε σ β} {s s' : σ} {b : β}
    (h : (m >>= f) s = .ok (some b, s')) :
    ∃ a s₁, m s = .ok (some a, s₁) ∧ f a s₁ = .ok (some b, s') := by
  rw [bind_apply] at h
  cases hm : m s with
  | error e =>
    rw [hm] at h
    cases h
  | ok out =>
    rw [hm] at h
    obtain ⟨_ | a, s₁⟩ := out
    · cases h
    · exact ⟨a, s₁, rfl, h⟩

/-! ## What a program leaves alone -/

/-- A program that returns leaves what `view` shows of the state as it was. -/
def Keeps {γ : Type} (view : σ → γ) (m : Prog ε σ α) : Prop :=
  ∀ s a s', m s = .ok (a, s') → view s' = view s

namespace Keeps

variable {γ : Type} {view : σ → γ}

protected theorem pure (a : α) : Keeps view (pure a : Prog ε σ α) := by
  intro s b s' h
  cases h
  rfl

protected theorem fail : Keeps view (fail : Prog ε σ α) := by
  intro s b s' h
  cases h
  rfl

protected theorem gets (f : σ → α) : Keeps view (gets f : Prog ε σ α) := by
  intro s b s' h
  cases h
  rfl

protected theorem modify {f : σ → σ} (hf : ∀ s, view (f s) = view s) :
    Keeps view (modify f : Prog ε σ Unit) := by
  intro s b s' h
  cases h
  exact hf s

protected theorem bind {m : Prog ε σ α} {f : α → Prog ε σ β} (hm : Keeps view m)
    (hf : ∀ a, Keeps view (f a)) : Keeps view (m >>= f) := by
  intro s b s' h
  rw [bind_apply] at h
  cases heq : m s with
  | error e =>
    rw [heq] at h
    cases h
  | ok out =>
    rw [heq] at h
    obtain ⟨_ | a, s₁⟩ := out
    · cases h
      exact hm s none s' heq
    · exact (hf a s₁ b s' h).trans (hm s (some a) s₁ heq)

/-- A program on another part of the state. -/
protected theorem zoom {get : σ → τ} {set : τ → σ → σ} (hset : ∀ t s, view (set t s) = view s)
    (m : Prog ε τ α) : Keeps view (zoom get set m) := by
  intro s b s' h
  unfold Prog.zoom at h
  split at h
  · cases h
  · cases h
    exact hset _ s

end Keeps

/-! ## Outcomes on simpler states -/

/-- Two outcomes are the same but for their states, which are related. -/
def Agrees (R : σ → τ → Prop) : Except ε (Option α × σ) → Except ε (Option α × τ) → Prop
  | .error e, .error e' => e = e'
  | .ok (a, s), .ok (b, t) => a = b ∧ R s t
  | _, _ => False

/-- From the states that are related to `t` the program has the outcome `out`. -/
structure Runs (R : σ → τ → Prop) (m : Prog ε σ α) (t : τ) (out : Except ε (Option α × τ)) :
    Prop where
  agrees : ∀ s, R s t → Agrees R (m s) out

namespace Runs

variable {R : σ → τ → Prop} {m : Prog ε σ α} {f : α → Prog ε σ β} {t t' : τ} {s : σ}

theorem exists_ok {a : Option α} (h : Runs R m t (.ok (a, t'))) (hs : R s t) :
    ∃ s', m s = .ok (a, s') ∧ R s' t' := by
  have hagrees := h.agrees s hs
  cases hm : m s with
  | error e =>
    rw [hm] at hagrees
    exact hagrees.elim
  | ok out =>
    rw [hm] at hagrees
    obtain ⟨b, s'⟩ := out
    obtain ⟨rfl, hR⟩ := hagrees
    exact ⟨s', rfl, hR⟩

variable {e : ε}

theorem eq_error (h : Runs R m t (.error e)) (hs : R s t) : m s = .error e := by
  have hagrees := h.agrees s hs
  cases hm : m s with
  | error e' =>
    rw [hm] at hagrees
    exact congrArg Except.error hagrees
  | ok out =>
    rw [hm] at hagrees
    exact hagrees.elim

theorem of_ok {a : Option α} (h : ∀ s, R s t → ∃ s', m s = .ok (a, s') ∧ R s' t') :
    Runs R m t (.ok (a, t')) := by
  constructor
  intro s hs
  obtain ⟨s', hm, hR⟩ := h s hs
  rw [hm]
  exact ⟨rfl, hR⟩

theorem of_error (h : ∀ s, R s t → m s = .error e) : Runs R m t (.error e) := by
  constructor
  intro s hs
  rw [h s hs]
  exact rfl

protected theorem pure (a : α) : Runs R (pure a : Prog ε σ α) t (.ok (some a, t)) :=
  ⟨fun _ hs => ⟨rfl, hs⟩⟩

protected theorem fail : Runs R (fail : Prog ε σ α) t (.ok (none, t)) := ⟨fun _ hs => ⟨rfl, hs⟩⟩

protected theorem fault (e : ε) : Runs R (fault e : Prog ε σ α) t (.error e) := ⟨fun _ _ => rfl⟩

protected theorem gets {g : σ → α} {a : α} (h : ∀ s, R s t → g s = a) :
    Runs R (gets g : Prog ε σ α) t (.ok (some a, t)) :=
  ⟨fun s hs => ⟨congrArg some (h s hs), hs⟩⟩

protected theorem modify {g : σ → σ} (h : ∀ s, R s t → R (g s) t') :
    Runs R (modify g : Prog ε σ Unit) t (.ok (some (), t')) :=
  ⟨fun s hs => ⟨rfl, h s hs⟩⟩

protected theorem bind {a : α} {out : Except ε (Option β × τ)} (hm : Runs R m t (.ok (some a, t')))
    (hf : Runs R (f a) t' out) : Runs R (m >>= f) t out := by
  constructor
  intro s hs
  obtain ⟨s', heq, hR⟩ := hm.exists_ok hs
  rw [bind_apply, heq]
  exact hf.agrees s' hR

theorem bind_none (hm : Runs R m t (.ok (none, t'))) : Runs R (m >>= f) t (.ok (none, t')) := by
  constructor
  intro s hs
  obtain ⟨s', heq, hR⟩ := hm.exists_ok hs
  rw [bind_apply, heq]
  exact ⟨rfl, hR⟩

theorem bind_error (hm : Runs R m t (.error e)) : Runs R (m >>= f) t (.error e) := by
  constructor
  intro s hs
  rw [bind_apply, hm.eq_error hs]
  exact rfl

protected theorem optional {a : Option α} (hm : Runs R m t (.ok (a, t'))) :
    Runs R m.optional t (.ok (some a, t')) := by
  constructor
  intro s hs
  obtain ⟨s', heq, hR⟩ := hm.exists_ok hs
  rw [Prog.optional, heq]
  exact ⟨rfl, hR⟩

theorem optional_error (hm : Runs R m t (.error e)) : Runs R m.optional t (.error e) := by
  constructor
  intro s hs
  rw [Prog.optional, hm.eq_error hs]
  exact rfl

end Runs

end Prog

end Toft.Lib
