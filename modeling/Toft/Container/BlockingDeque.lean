import Mathlib.Algebra.Order.Group.Multiset
import Mathlib.Tactic.Abel
import Toft.Lib.Linearization

/-!
# A bounded sequence with two ends

What the operations of `BlockingQueue` are for, one at a time: `Call.apply` is a double-ended
sequence of at most `bound` elements. A call that has to wait for others gives nothing; a timed call
fails instead. Along a history nothing is lost or duplicated (`coe_pushed`), the bound is kept
(`length_le`), and from back to front the elements come out in order (`pushed_eq`).
-/

namespace Toft.BlockingQueue

open Lib List Option

variable {α : Type}

/-- The two ends of a deque. -/
inductive End where
  | front
  | back
  deriving DecidableEq, Repr

namespace End

def insert (value : α) (q : List α) : End → List α
  | .front => value :: q
  | .back => q ++ [value]

def take (q : List α) : End → Option (α × List α)
  | .front => q.head?.map fun value => (value, q.tail)
  | .back => q.getLast?.map fun value => (value, q.dropLast)

theorem insert_perm (e : End) (value : α) (q : List α) : (e.insert value q).Perm (value :: q) := by
  cases e with
  | front => exact .refl _
  | back => exact perm_append_singleton value q

theorem take_perm {e : End} {q rest : List α} {value : α} (h : e.take q = some (value, rest)) :
    q.Perm (value :: rest) := by
  cases e with
  | front =>
    obtain ⟨v, hv, heq⟩ := map_eq_some_iff.mp h
    cases heq
    rw [cons_head?_tail hv]
  | back =>
    obtain ⟨v, hv, heq⟩ := map_eq_some_iff.mp h
    cases heq
    conv_lhs => rw [← dropLast_append_getLast? value hv]
    exact perm_append_singleton value q.dropLast

theorem take_eq_none {e : End} {q : List α} : e.take q = none ↔ q = [] := by
  cases e <;> simp [take]

end End

/-- The calls of `BlockingDeque`, with their arguments. -/
inductive Call (α : Type) where
  | push (e : End) (value : α)
  | timedPush (e : End) (value : α)
  | pop (e : End)
  | timedPop (e : End)
  | popAll
  | timedPopAll
  | clear
  deriving DecidableEq, Repr

namespace Call

abbrev pushFront (value : α) : Call α := .push .front value

abbrev pushBack (value : α) : Call α := .push .back value

abbrev popFront : Call α := .pop .front

abbrev popBack : Call α := .pop .back

abbrev timedPushFront (value : α) : Call α := .timedPush .front value

abbrev timedPushBack (value : α) : Call α := .timedPush .back value

abbrev timedPopFront : Call α := .timedPop .front

abbrev timedPopBack : Call α := .timedPop .back

end Call

/-- What a call gives: that it is done, that a timed call has failed, what was popped, or, though no
caller sees them, the elements that were cleared. -/
inductive Result (α : Type) where
  | done
  | failed
  | popped (value : α)
  | poppedAll (values : List α)
  | cleared (values : List α)
  deriving DecidableEq, Repr

def Call.apply (bound : Nat) (call : Call α) (q : List α) : Option (Result α × List α) :=
  match call with
  | .push e value => if q.length < bound then some (.done, e.insert value q) else none
  | .timedPush e value =>
    if q.length < bound then some (.done, e.insert value q) else some (.failed, q)
  | .pop e => (e.take q).map fun (value, rest) => (.popped value, rest)
  | .timedPop e =>
    match e.take q with
    | some (value, rest) => some (.popped value, rest)
    | none => some (.failed, q)
  | .popAll => if q = [] then none else some (.poppedAll q, [])
  | .timedPopAll => if q = [] then some (.failed, q) else some (.poppedAll q, [])
  | .clear => some (.cleared q, [])

/-! ## Histories -/

def pushedBy : Call α × Result α → List α
  | (.push _ value, .done) | (.timedPush _ value, .done) => [value]
  | _ => []

def poppedBy : Call α × Result α → List α
  | (_, .popped value) => [value]
  | (_, .poppedAll values) => values
  | _ => []

def clearedBy : Call α × Result α → List α
  | (_, .cleared values) => values
  | _ => []

def pushed (history : List (Call α × Result α)) : List α := history.flatMap pushedBy

def popped (history : List (Call α × Result α)) : List α := history.flatMap poppedBy

def cleared (history : List (Call α × Result α)) : List α := history.flatMap clearedBy

variable {q q' : List α} {call : Call α} {r : Result α} {bound : Nat}

theorem Call.apply_perm (h : call.apply bound q = some (r, q')) :
    (pushedBy (call, r) ++ q).Perm (poppedBy (call, r) ++ (clearedBy (call, r) ++ q')) := by
  cases call with
  | push e value =>
    obtain ⟨-, heq⟩ := ite_none_right_eq_some.mp h
    cases heq
    exact (e.insert_perm value q).symm
  | timedPush e value =>
    rw [apply] at h
    split_ifs at h <;> cases h
    · exact (e.insert_perm value q).symm
    · exact .refl q
  | pop e =>
    obtain ⟨⟨value, rest⟩, htake, heq⟩ := map_eq_some_iff.mp h
    cases heq
    exact End.take_perm htake
  | timedPop e =>
    rw [apply] at h
    cases htake : e.take q with
    | none =>
      rw [htake] at h
      cases h
      exact .refl q
    | some taken =>
      rw [htake] at h
      cases h
      exact End.take_perm htake
  | popAll =>
    obtain ⟨-, heq⟩ := ite_none_left_eq_some.mp h
    cases heq
    exact .of_eq (append_nil q).symm
  | timedPopAll =>
    rw [apply] at h
    split_ifs at h <;> cases h
    · exact .refl q
    · exact .of_eq (append_nil q).symm
  | clear =>
    cases h
    exact .of_eq (append_nil q).symm

theorem Call.apply_length_le
    (hle : q.length ≤ bound) (h : call.apply bound q = some (r, q')) : q'.length ≤ bound := by
  have hinsert : ∀ (e : End) (value : α), (e.insert value q).length = q.length + 1 :=
    fun e value => (e.insert_perm value q).length_eq
  have hlength := (Call.apply_perm h).length_eq
  cases call with
  | push e value =>
    obtain ⟨hlt, heq⟩ := ite_none_right_eq_some.mp h
    cases heq
    rw [hinsert]
    exact hlt
  | timedPush e value =>
    rw [apply] at h
    split_ifs at h with hlt <;> cases h
    · rw [hinsert]
      exact hlt
    · exact hle
  | _ =>
    -- The others push nothing.
    simp only [pushedBy, length_append, length_nil] at hlength
    omega

/-- The operations of a queue from its back to its front. -/
def Call.isFifo : Call α → Bool
  | .push .back _ | .timedPush .back _ | .pop .front | .timedPop .front => true
  | _ => false

/-- Such an operation takes its element from the front of what is queued and pushed. -/
theorem Call.apply_fifo (hfifo : call.isFifo) (h : call.apply bound q = some (r, q')) :
    q ++ pushedBy (call, r) = poppedBy (call, r) ++ q' := by
  cases call with
  | push e value =>
    cases e with
    | front => cases hfifo
    | back =>
      obtain ⟨-, heq⟩ := ite_none_right_eq_some.mp h
      cases heq
      rfl
  | timedPush e value =>
    cases e with
    | front => cases hfifo
    | back =>
      rw [apply] at h
      split_ifs at h <;> cases h
      · rfl
      · exact append_nil q
  | pop e =>
    cases e with
    | back => cases hfifo
    | front =>
      cases q with
      | nil => cases h
      | cons value q =>
        cases h
        exact append_nil _
  | timedPop e =>
    cases e with
    | back => cases hfifo
    | front =>
      cases q with
      | nil =>
        cases h
        rfl
      | cons value q =>
        cases h
        exact append_nil _
  | popAll => cases hfifo
  | timedPopAll => cases hfifo
  | clear => cases hfifo

variable {bound : Nat} {history : List (Call α × Result α)} {q : List α}

theorem flatMap_concat {β γ : Type} (f : β → List γ) (xs : List β) (x : β) :
    (xs ++ [x]).flatMap f = xs.flatMap f ++ f x := by
  rw [flatMap_append, flatMap_singleton]

section

variable (h : Replays (Call.apply bound) [] history q)
include h

/-- What was pushed is popped, cleared or still there. -/
theorem coe_pushed : (pushed history : Multiset α) = popped history + cleared history + q := by
  induction h with
  | nil => rfl
  | @snoc history c r q₁ q₂ _ hstep ih =>
    have hone : (pushedBy (c, r) + q₁ : Multiset α) =
        poppedBy (c, r) + (clearedBy (c, r) + q₂ : Multiset α) := by
      rw [Multiset.coe_add, Multiset.coe_add, Multiset.coe_add, Multiset.coe_eq_coe]
      exact Call.apply_perm hstep
    unfold pushed popped cleared at ih ⊢
    rw [flatMap_concat, flatMap_concat, flatMap_concat, ← Multiset.coe_add, ← Multiset.coe_add,
      ← Multiset.coe_add, ih]
    calc _ = (history.flatMap poppedBy + history.flatMap clearedBy : Multiset α) +
          (pushedBy (c, r) + q₁ : Multiset α) := by abel
      _ = _ := by
        rw [hone]
        abel

theorem length_le : q.length ≤ bound :=
  h.invariant (fun _ _ _ _ hle hstep => Call.apply_length_le hle hstep) (Nat.zero_le bound)

/-- From the back to the front, the elements come out in the order in which they were pushed. -/
theorem pushed_eq (hfifo : ∀ x ∈ history, x.1.isFifo) : pushed history = popped history ++ q := by
  induction h with
  | nil => rfl
  | @snoc history c r q₁ q₂ _ hstep ih =>
    have hone := Call.apply_fifo (hfifo (c, r) mem_concat_self) hstep
    have hprevious := ih fun x hx => hfifo x (mem_append_left _ hx)
    unfold pushed popped at hprevious ⊢
    rw [flatMap_concat, flatMap_concat, hprevious, append_assoc, hone, append_assoc]

end

end Toft.BlockingQueue
