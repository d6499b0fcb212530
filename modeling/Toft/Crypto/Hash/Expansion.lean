import Toft.Crypto.Hash.Sha1Digest
import Toft.Lib.WordFold

/-!
# Blocks that the expansion keeps

`SHA1Transform` leaves the words 64 to 79 of the schedule in a block, least significant byte first,
where the words 0 to 15 stood with the most significant byte first. The schedule is a linear
recurrence. If its words come back with the bytes in the other order, then the words folded three
times come back as they are, so they are zero (`Recurs.eq_zero_of_period`), and then those folded
twice, and so on. So only the block of zeros is kept (`expanded_eq_iff`).
-/

namespace Toft.Fips180

open Lib List Nat

/-- Words that go on as those of a message schedule do. -/
def Recurs (w : Nat → UInt32) : Prop :=
  ∀ t, w (t + 16) = rotl (w (t + 13) ^^^ w (t + 8) ^^^ w (t + 2) ^^^ w t) 1

theorem recurs_W (block : Bytes) : Recurs (W block) := fun t => W_of_ge block (le_add_left 16 t)

namespace Recurs

variable {w : Nat → UInt32} (h : Recurs w)
include h

theorem foldByte_iterate (j : Nat) : Recurs fun t => foldByte^[j] (w t) := by
  induction j with
  | zero => exact h
  | succ j ih =>
    intro t
    simp only [Function.iterate_succ_apply', ih t, foldByte_rotl _ (show 1 < 32 by decide),
      foldByte_xor]

/-- The sum of the words and those at a distance. -/
theorem xor_shift (k : Nat) : Recurs fun t => w (t + k) ^^^ w t := by
  intro t
  have hshift := h (t + k)
  simp only [Nat.add_right_comm t _ k, h t] at hshift ⊢
  rw [hshift, ← rotl_xor _ _ (by decide)]
  congr 1
  ac_rfl

theorem eq_zero (hzero : ∀ t < 16, w t = 0) (t : Nat) : w t = 0 := by
  induction t using Nat.strong_induction_on with
  | _ t ih =>
    rcases Nat.lt_or_ge t 16 with hlt | hge
    · exact hzero t hlt
    · obtain ⟨t, rfl⟩ := Nat.exists_eq_add_of_le' hge
      rw [h, ih _ (by omega), ih _ (by omega), ih _ (by omega), ih _ (by omega)]
      rfl

/-- With a period that is a power of two there are only zeros: a period is halved by adding the
words at half the distance. -/
theorem eq_zero_of_period {k : Nat} (hperiod : ∀ t, w (t + 2 ^ k) = w t) (t : Nat) : w t = 0 := by
  induction k generalizing w t with
  | zero =>
    have hconst : ∀ k, w (t + k) = w t := by
      intro k
      induction k with
      | zero => rfl
      | succ k ih => exact (hperiod (t + k)).trans ih
    have hnext := h t
    rw [hconst, hconst, hconst, hconst, UInt32.xor_self, UInt32.zero_xor, UInt32.xor_self] at hnext
    exact hnext
  | succ k ih =>
    refine ih h (fun t => ?_) t
    have hsum := ih (h.xor_shift (2 ^ k)) (fun t => ?_) t
    · exact UInt32.xor_eq_zero_iff.mp hsum
    · rw [Nat.add_assoc, ← Nat.two_mul, ← Nat.pow_succ', hperiod, UInt32.xor_comm]

/-- Only zeros come back behind 64 words, with the bytes of each in the other order. -/
theorem eq_zero_of_swapWord (hswap : ∀ t < 16, swapWord (w (t + 64)) = w t) (t : Nat) :
    w t = 0 := by
  have hfolded : ∀ j ≤ 4, ∀ t, foldByte^[4 - j] (w t) = 0 := by
    intro j hj
    induction j with
    | zero => exact fun t => foldByte_four _
    | succ j ih =>
      have hbefore := ih (by omega)
      rw [show 4 - j = 4 - (j + 1) + 1 by omega] at hbefore
      generalize hi : 4 - (j + 1) = i at hbefore ⊢
      have hrec := h.foldByte_iterate i
      refine hrec.eq_zero_of_period (k := 6) fun t => ?_
      have hsum := (hrec.xor_shift 64).eq_zero (fun t ht => ?_) t
      · exact UInt32.xor_eq_zero_iff.mp hsum
      · rw [← hswap t ht, ← foldByte_swapWord (by omega) (hbefore (t + 64)), UInt32.xor_self]
  exact hfolded 4 le_rfl t

end Recurs

end Toft.Fips180

namespace Toft.SHA1

open Lib Fips180 List

theorem leWord_flatMap {l : Words} {i : Nat} (h : i < l.length) :
    leWord (l.flatMap wordBytes) i = l.get ⟨i, h⟩ := by
  have hsplit : l.flatMap wordBytes =
      (l.take i).flatMap wordBytes ++ wordBytes (l.get ⟨i, h⟩) ++
        (l.drop (i + 1)).flatMap wordBytes := by
    rw [append_assoc, ← flatMap_cons, get_eq_getElem, ← drop_eq_getElem_cons h, ← flatMap_append,
      take_append_drop]
  rw [hsplit, leWord_append]
  rw [length_flatMap_wordBytes, length_take_of_le h.le]

theorem expanded_eq_iff {block : Bytes} (hblock : block.length = 64) :
    expanded block = block ↔ block = replicate 64 0 := by
  constructor
  · intro h
    have hwords : ∀ t < 16, swapWord (W block (t + 64)) = W block t := by
      intro t ht
      have hword : leWord block t = W block (64 + t) := by
        conv_lhs => rw [← h, expanded]
        rw [leWord_flatMap (by simpa using ht)]
        simp
      rw [W_of_lt block ht, ← swapWord_leWord (by omega), hword, Nat.add_comm]
    have hzero := (recurs_W block).eq_zero_of_swapWord hwords
    rw [← h, expanded]
    simp only [hzero]
    rfl
  · rintro rfl
    decide +kernel

end Toft.SHA1
