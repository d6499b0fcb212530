import Toft.Lib.Word

/-!
# Transfers in parts

A call that moves bytes may move all that was asked, fewer, or fail. A schedule fixes the outcome
of every call to come; a schedule is fair when no call fails and calls that move something never
stop. `Fair.induction` is the rule for loops that ask again for what is still missing: such a loop
ends, however the schedule cuts the transfer into parts and however often a call moves nothing.
-/

namespace Toft.Lib

/-- How much of what is asked for one transfer moves. -/
inductive Transfer where
  | full
  | short (n : Nat)
  | error
  deriving DecidableEq, Repr

namespace Transfer

/-- The number of bytes moved when `asked` bytes are asked for, `none` on failure. -/
def count : Transfer → Nat → Option Nat
  | full, asked => some asked
  | short n, asked => some (min n asked)
  | error, _ => none

/-- The transfer makes progress. -/
def Moves : Transfer → Prop
  | full => True
  | short n => 0 < n
  | error => False

theorem Moves.count {t : Transfer} (h : t.Moves) {asked : Nat} (hpos : 0 < asked) :
    ∃ c, 0 < c ∧ c ≤ asked ∧ t.count asked = some c := by
  cases t with
  | full => exact ⟨asked, hpos, Nat.le_refl _, rfl⟩
  | short n =>
    have hn : 0 < n := h
    exact ⟨min n asked, by omega, Nat.min_le_right _ _, rfl⟩
  | error => exact h.elim

theorem count_le {t : Transfer} {asked c : Nat} (h : t.count asked = some c) : c ≤ asked := by
  cases t with
  | full => cases h; exact Nat.le_refl _
  | short n => cases h; exact Nat.min_le_right _ _
  | error => cases h

end Transfer

/-- The outcomes of the calls to come, in order. -/
abbrev Schedule := Nat → Transfer

namespace Schedule

/-- The transfers behind the first one. -/
def tail (s : Schedule) : Schedule := fun t => s (t + 1)

/-- Every transfer moves all. -/
def allFull : Schedule := fun _ => .full

@[simp] theorem tail_allFull : allFull.tail = allFull := rfl

/-- No call fails, and at every time some later call moves something. -/
structure Fair (s : Schedule) : Prop where
  noError : ∀ t, s t ≠ .error
  moves : ∀ t, ∃ k, (s (t + k)).Moves

namespace Fair

theorem allFull : Fair Schedule.allFull := ⟨fun _ => Transfer.noConfusion, fun _ => ⟨0, trivial⟩⟩

theorem ofShort {n : Nat} (h : 0 < n) : Fair fun _ => .short n :=
  ⟨fun _ => Transfer.noConfusion, fun _ => ⟨0, h⟩⟩

theorem tail {s : Schedule} (h : Fair s) : Fair s.tail := by
  refine ⟨fun t => h.noError (t + 1), fun t => ?_⟩
  obtain ⟨k, hk⟩ := h.moves (t + 1)
  exact ⟨k, by rwa [Schedule.tail, Nat.add_right_comm]⟩

theorem count {s : Schedule} (h : Fair s) (asked : Nat) : ∃ c, (s 0).count asked = some c := by
  cases hs : s 0 with
  | full => exact ⟨asked, rfl⟩
  | short n => exact ⟨min n asked, rfl⟩
  | error => exact absurd hs (h.noError 0)

/-- **Induction over a transfer in parts.** `P n s`: the loop with `n` bytes missing does its work
under schedule `s`. A call that moves nothing leaves `n` as it is, so the induction is on `n` and,
inside, on the number of calls until one moves something. -/
theorem induction {P : Nat → Schedule → Prop} (done : ∀ s, Fair s → P 0 s)
    (step : ∀ n s c, Fair s → c ≤ n + 1 → (s 0).count (n + 1) = some c →
      P (n + 1 - c) s.tail → P (n + 1) s) :
    ∀ n s, Fair s → P n s := by
  intro n
  induction n using Nat.strongRecOn with
  | _ n ih =>
    cases n with
    | zero => exact done
    | succ n =>
      intro s hs
      obtain ⟨k, hk⟩ := hs.moves 0
      induction k generalizing s with
      | zero =>
        obtain ⟨c, hc, hle, hcount⟩ := hk.count (Nat.succ_pos n)
        exact step n s c hs hle hcount (ih _ (by omega) s.tail hs.tail)
      | succ k ihk =>
        obtain ⟨c, hcount⟩ := hs.count (n + 1)
        have hle := Transfer.count_le hcount
        refine step n s c hs hle hcount ?_
        rcases Nat.eq_zero_or_pos c with rfl | hc
        · exact ihk s.tail hs.tail hk
        · exact ih _ (by omega) s.tail hs.tail

end Fair

end Schedule

end Toft.Lib
