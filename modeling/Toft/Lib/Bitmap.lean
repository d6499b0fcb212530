import Toft.Lib.Word

/-!
# Bits in a block of bytes

The bits are counted from the lowest one of the first byte.
-/

namespace Toft.Lib

/-- The bit in its byte. -/
def bitMask (i : Nat) : UInt8 := 1 <<< UInt8.ofNat (i % 8)

/-- The bit is set. -/
def hasBit (bitmap : Bytes) (i : Nat) : Bool := bitmap.getD (i / 8) 0 &&& bitMask i ≠ 0

/-- The bitmap with the bit set. -/
def setBit (bitmap : Bytes) (i : Nat) : Bytes := bitmap.modify (i / 8) (· ||| bitMask i)

@[simp] theorem length_setBit (bitmap : Bytes) (i : Nat) :
    (setBit bitmap i).length = bitmap.length := List.length_modify _ _ _

theorem bitMask_and_bitMask (i j : Nat) : bitMask i &&& bitMask j ≠ 0 ↔ i % 8 = j % 8 := by
  have hall : ∀ a < 8, ∀ b < 8,
      ((1 : UInt8) <<< UInt8.ofNat a &&& 1 <<< UInt8.ofNat b ≠ 0 ↔ a = b) := by decide
  exact hall _ (Nat.mod_lt i (by decide)) _ (Nat.mod_lt j (by decide))

theorem or_and_eq (a b c : UInt8) : (a ||| b) &&& c = (a &&& c) ||| (b &&& c) := by
  apply UInt8.eq_of_toBitVec_eq
  ext i
  simp only [UInt8.toBitVec_and, UInt8.toBitVec_or, BitVec.getElem_and, BitVec.getElem_or,
    Bool.and_or_distrib_right]

/-- Setting a bit changes only that bit. -/
theorem hasBit_setBit {bitmap : Bytes} {i : Nat} (h : i / 8 < bitmap.length) (j : Nat) :
    hasBit (setBit bitmap i) j ↔ hasBit bitmap j ∨ j = i := by
  simp only [hasBit, decide_eq_true_eq, setBit, List.getD_eq_getElem?_getD, List.getElem?_modify]
  by_cases hbyte : i / 8 = j / 8
  · rw [hbyte] at h
    have hsame : bitMask i &&& bitMask j ≠ 0 ↔ j = i := by
      rw [bitMask_and_bitMask]
      omega
    rw [List.getElem?_eq_getElem h, Option.map_eq_map, Option.map_some, Option.getD_some,
      Option.getD_some, if_pos hbyte, ← hsame]
    simp only [or_and_eq, ne_eq, UInt8.or_eq_zero_iff, not_and_or]
  · have hsame : (fun a : UInt8 => if i / 8 = j / 8 then a ||| bitMask i else a) = id := by
      funext a
      exact if_neg hbyte
    rw [hsame, id_map]
    refine ⟨Or.inl, fun hbit => hbit.resolve_right ?_⟩
    rintro rfl
    exact hbyte rfl

end Toft.Lib
