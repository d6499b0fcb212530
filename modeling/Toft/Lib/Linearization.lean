import Mathlib.Data.List.Induction
import Mathlib.Data.List.Nodup

/-!
# Calls that take effect one at a time

An object is given by `apply`: what a call gives in a state and the state behind it, nothing if the
call has to wait. A log of calls and results replays if the calls give these results one behind the
other. It linearizes the calls of a concurrent object if it has each call that has a result exactly
once (`Linearizes`): a call takes effect when it is put behind the log (`Linearizes.snoc`).
-/

namespace Toft.Lib

open List

variable {σ κ ρ : Type}

/-- The calls, one behind the other, give their results and lead to the last state. -/
inductive Replays (apply : κ → σ → Option (ρ × σ)) (s : σ) : List (κ × ρ) → σ → Prop
  | nil : Replays apply s [] s
  | snoc {history : List (κ × ρ)} {c : κ} {r : ρ} {s₁ s₂ : σ} (h : Replays apply s history s₁)
      (hstep : apply c s₁ = some (r, s₂)) : Replays apply s (history ++ [(c, r)]) s₂

theorem Replays.invariant {apply : κ → σ → Option (ρ × σ)} {inv : σ → Prop}
    (hkeep : ∀ c s r s', inv s → apply c s = some (r, s') → inv s') {s s' : σ}
    {history : List (κ × ρ)} (h : Replays apply s history s') (hs : inv s) : inv s' := by
  induction h with
  | nil => exact hs
  | snoc _ hstep ih => exact hkeep _ _ _ _ ih hstep

/-- A call of the log, with its result. -/
structure Entry (κ ρ : Type) where
  id : Nat
  call : κ
  result : ρ
  deriving DecidableEq, Repr

def Entry.outcome (e : Entry κ ρ) : κ × ρ := (e.call, e.result)

/-- The log is an order of the calls with a result, one at a time; `outcome` says which call a
number stands for and what its result is. -/
structure Linearizes (apply : κ → σ → Option (ρ × σ)) (s₀ : σ) (outcome : Nat → Option (κ × ρ))
    (log : List (Entry κ ρ)) (s : σ) : Prop where
  nodup : (log.map Entry.id).Nodup
  mem_iff : ∀ e, e ∈ log ↔ outcome e.id = some e.outcome
  replays : Replays apply s₀ (log.map Entry.outcome) s

namespace Linearizes

variable {apply : κ → σ → Option (ρ × σ)} {s₀ s s' : σ} {outcome outcome' : Nat → Option (κ × ρ)}
  {log : List (Entry κ ρ)}

theorem nil (h : ∀ i, outcome i = none) : Linearizes apply s₀ outcome [] s₀ where
  nodup := nodup_nil
  mem_iff e := iff_of_false not_mem_nil (by rw [h]; exact (Option.some_ne_none _).symm)
  replays := .nil

section

variable (h : Linearizes apply s₀ outcome log s)
include h

theorem congr (heq : ∀ i, outcome' i = outcome i) : Linearizes apply s₀ outcome' log s := by
  rwa [show outcome' = outcome from funext heq]

theorem snoc {i : Nat} {c : κ} {r : ρ} (hnone : outcome i = none) (hsome : outcome' i = some (c, r))
    (heq : ∀ j, j ≠ i → outcome' j = outcome j) (hstep : apply c s = some (r, s')) :
    Linearizes apply s₀ outcome' (log ++ [⟨i, c, r⟩]) s' where
  nodup := by
    rw [map_append, map_singleton]
    refine h.nodup.append (nodup_singleton i) ?_
    rw [disjoint_singleton]
    intro hmem
    obtain ⟨e, he, rfl⟩ := mem_map.mp hmem
    rw [h.mem_iff, hnone] at he
    cases he
  mem_iff e := by
    rw [mem_append, mem_singleton, h.mem_iff]
    by_cases hid : e.id = i
    · rw [hid, hnone, hsome]
      obtain ⟨j, c', r'⟩ := e
      cases hid
      constructor
      · rintro (hfalse | heq)
        · cases hfalse
        · cases heq
          rfl
      · intro heq
        cases heq
        exact Or.inr rfl
    · rw [heq e.id hid]
      refine or_iff_left ?_
      rintro rfl
      exact hid rfl
  replays := by
    rw [map_append]
    exact h.replays.snoc hstep

theorem perm {n : Nat} (hn : ∀ i, n ≤ i → outcome i = none) :
    (log.map Entry.outcome).Perm ((range n).filterMap outcome) := by
  have houtcomes : log.map Entry.outcome = (log.map Entry.id).filterMap outcome := by
    rw [filterMap_map, ← filterMap_eq_map]
    refine filterMap_congr fun e he => ?_
    exact ((h.mem_iff e).mp he).symm
  have hids : (log.map Entry.id).Perm ((range n).filter fun i => (outcome i).isSome) := by
    rw [perm_ext_iff_of_nodup h.nodup (nodup_range.filter _)]
    intro i
    rw [mem_filter, mem_range, mem_map]
    constructor
    · rintro ⟨e, he, rfl⟩
      rw [h.mem_iff] at he
      refine ⟨?_, by rw [he]; rfl⟩
      by_contra hle
      rw [hn e.id (Nat.le_of_not_lt hle)] at he
      cases he
    · rintro ⟨-, hsome⟩
      obtain ⟨⟨c, r⟩, hcr⟩ := Option.isSome_iff_exists.mp hsome
      exact ⟨⟨i, c, r⟩, (h.mem_iff _).mpr hcr, rfl⟩
  rw [houtcomes]
  refine (hids.filterMap outcome).trans (.of_eq ?_)
  rw [filterMap_filter]
  refine filterMap_congr fun i _ => ?_
  cases outcome i <;> rfl

end

end Linearizes

/-- The outcomes of a list, by its indices. -/
theorem filterMap_range_getElem? {α β : Type} (f : α → Option β) (xs : List α) :
    (range xs.length).filterMap (fun i => xs[i]?.bind f) = xs.filterMap f := by
  induction xs using reverseRecOn with
  | nil => rfl
  | append_singleton xs x ih =>
    rw [length_append, length_singleton, range_succ, filterMap_append, filterMap_append, ← ih]
    have hfirst : (range xs.length).filterMap (fun i => (xs ++ [x])[i]?.bind f) =
        (range xs.length).filterMap (fun i => xs[i]?.bind f) := by
      refine filterMap_congr fun i hi => ?_
      rw [getElem?_append_left (mem_range.mp hi)]
    have hlast : (xs ++ [x])[xs.length]? = some x := getElem?_concat_length
    rw [hfirst]
    simp only [filterMap_cons, hlast, Option.bind_some, filterMap_nil]

end Toft.Lib
