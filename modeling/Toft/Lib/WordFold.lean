import Mathlib.Data.Fintype.Pi
import Toft.Lib.Word32

/-!
# Rotations and sums of words

Rotations are linear over the field with two elements, and commute. Adding a word to itself, moved
by a byte, gives zero when it is done four times (`foldByte_four`); where it gives zero when it is
done once more, the order of the bytes does not matter (`foldByte_swapWord`).
-/

namespace Toft.Lib

open List Nat UInt32

theorem getLsbD_rotl (x : UInt32) {s i : Nat} (hs : s < 32) (hi : i < 32) :
    (rotl x s).toBitVec.getLsbD i = x.toBitVec.getLsbD ((i + 32 - s) % 32) := by
  rw [rotl, BitVec.getLsbD_rotateLeft, mod_eq_of_lt hs]
  by_cases hlt : i < s
  · rw [decide_eq_true hlt, cond_true, show (i + 32 - s) % 32 = 32 - s + i by omega]
  · rw [decide_eq_false hlt, cond_false, decide_eq_true hi, Bool.true_and,
      show (i + 32 - s) % 32 = i - s by omega]

theorem rotl_xor (x y : UInt32) {s : Nat} (hs : s < 32) :
    rotl (x ^^^ y) s = rotl x s ^^^ rotl y s := by
  apply UInt32.toBitVec_inj.mp
  apply BitVec.eq_of_getLsbD_eq
  intro i hi
  simp only [UInt32.toBitVec_xor, BitVec.getLsbD_xor, getLsbD_rotl _ hs hi]

theorem rotl_comm (x : UInt32) {s s' : Nat} (hs : s < 32) (hs' : s' < 32) :
    rotl (rotl x s) s' = rotl (rotl x s') s := by
  apply UInt32.toBitVec_inj.mp
  apply BitVec.eq_of_getLsbD_eq
  intro i hi
  rw [getLsbD_rotl _ hs' hi, getLsbD_rotl _ hs hi, getLsbD_rotl _ hs (by omega),
    getLsbD_rotl _ hs' (by omega)]
  congr 1
  omega

/-- The word plus itself, moved by a byte. -/
def foldByte (x : UInt32) : UInt32 := x ^^^ rotl x 8

theorem foldByte_xor (x y : UInt32) : foldByte (x ^^^ y) = foldByte x ^^^ foldByte y := by
  simp only [foldByte, rotl_xor _ _ (show 8 < 32 by decide)]
  ac_rfl

theorem foldByte_rotl (x : UInt32) {s : Nat} (hs : s < 32) :
    foldByte (rotl x s) = rotl (foldByte x) s := by
  rw [foldByte, foldByte, rotl_xor _ _ hs, rotl_comm _ hs (by decide)]

/-- The bits at the place `r` of the four bytes. -/
def column (r : Fin 8) (x : UInt32) (q : Fin 4) : Bool := x.toBitVec.getLsbD (8 * q + r)

/-- A word is known by its columns. -/
theorem ext_column {x y : UInt32} (h : ∀ r, column r x = column r y) : x = y := by
  apply UInt32.toBitVec_inj.mp
  apply BitVec.eq_of_getLsbD_eq
  intro i hi
  have hbit := congrFun (h ⟨i % 8, by omega⟩) ⟨i / 8, by omega⟩
  simpa only [column, div_add_mod] using hbit

/-- `foldByte` on the bits of one column. -/
def foldColumn (b : Fin 4 → Bool) (q : Fin 4) : Bool :=
  b q ^^ b ⟨(q.val + 3) % 4, Nat.mod_lt _ (by decide)⟩

theorem column_foldByte (r : Fin 8) : Function.Semiconj (column r) foldByte foldColumn := by
  intro x
  funext q
  have hindex : (8 * q.val + r.val + 32 - 8) % 32 = 8 * ((q.val + 3) % 4) + r.val := by omega
  rw [column, foldByte, UInt32.toBitVec_xor, BitVec.getLsbD_xor,
    getLsbD_rotl _ (by decide) (by omega), hindex]
  rfl

theorem column_swapWord (r : Fin 8) (x : UInt32) :
    column r (swapWord x) = column r x ∘ Fin.rev := by
  funext q
  rw [column, getLsbD_swapWord x (by omega), Function.comp_apply, column]
  congr 1
  rw [Fin.val_rev]
  omega

/-- Four times gives zero. -/
theorem foldByte_four (x : UInt32) : foldByte^[4] x = 0 := by
  refine ext_column fun r => ?_
  have hzero : ∀ b : Fin 4 → Bool, foldColumn^[4] b = column 0 0 := by decide
  have hcolumn : column r 0 = column 0 0 := by
    funext q
    simp [column]
  rw [(column_foldByte r).iterate_right 4 x, hzero, hcolumn]

/-- The order of the bytes is lost where they are folded once more. -/
theorem foldByte_swapWord {j : Nat} (hj : j < 4) {x : UInt32} (h : foldByte^[j + 1] x = 0) :
    foldByte^[j] (swapWord x) = foldByte^[j] x := by
  refine ext_column fun r => ?_
  have hbits : ∀ j < 4, ∀ b : Fin 4 → Bool, foldColumn^[j + 1] b = (fun _ => false) →
      foldColumn^[j] (b ∘ Fin.rev) = foldColumn^[j] b := by decide
  rw [(column_foldByte r).iterate_right j, (column_foldByte r).iterate_right j, column_swapWord]
  refine hbits j hj _ ?_
  rw [← (column_foldByte r).iterate_right (j + 1), h]
  funext q
  simp [column]

end Toft.Lib
