import Toft.Lib.Word

/-!
# Output streams on an array

The contract of `std::ostrstream` on an array: insertions fill the put area from its start, and one
that does not fit fails and closes the stream. Any sequence of insertions puts the part of the whole
text that fits (`insert_holding`). What is stored is kept as a list of writes with their offsets, so
that a write outside of the array can be told.
-/

namespace Toft.Lib

open List

/-- What was put into an area of fixed size, and whether an insertion failed. -/
structure StrStream where
  area : Nat
  text : Bytes := []
  failed : Bool := false

namespace StrStream

/-- The size of the put area for an array and a count of type `int`: the length of the string in
the array for 0, the greatest `int` for a negative count. `none` if that string has no end. -/
def areaOf (memory : Bytes) (n : Int) : Option Nat :=
  if 0 < n then some n.toNat
  else if n = 0 then if 0 ∈ memory then some (memory.takeWhile (· ≠ 0)).length else none
  else some (2 ^ 31 - 1)

/-- `operator<<`. -/
def insert (oss : StrStream) (piece : Bytes) : StrStream :=
  if oss.failed then oss
  else
    { oss with
      text := oss.text ++ piece.take (oss.area - oss.text.length)
      failed := oss.area - oss.text.length < piece.length }

/-- `tellp()`. -/
def tellp (oss : StrStream) : Int := if oss.failed then -1 else oss.text.length

/-- The stream behind insertions that make up the text. -/
def holding (area : Nat) (text : Bytes) : StrStream :=
  { area := area, text := text.take area, failed := area < text.length }

@[simp] theorem insert_holding (area : Nat) (text piece : Bytes) :
    (holding area text).insert piece = holding area (text ++ piece) := by
  by_cases hfull : area < text.length
  · have hover : area < (text ++ piece).length := by
      rw [length_append]
      omega
    rw [insert, if_pos (by simpa [holding] using hfull), holding, holding,
      take_append_of_le_length (by omega), decide_eq_true hfull, decide_eq_true hover]
  · have hall : text.take area = text := take_of_length_le (by omega)
    rw [insert, if_neg (by simpa [holding] using hfull)]
    simp only [holding, hall, take_append, length_append]
    congr 2
    exact propext (by omega)

end StrStream

/-! ## Writes -/

/-- The writes of some bytes one after the other. -/
def writesFrom : Nat → Bytes → List (Int × UInt8)
  | _, [] => []
  | start, c :: bytes => ((start : Int), c) :: writesFrom (start + 1) bytes

/-- Memory behind some writes. Offsets count from its start, and a write before the start changes
other memory. -/
def store (memory : Bytes) (writes : List (Int × UInt8)) : Bytes :=
  writes.foldl (fun memory w => if 0 ≤ w.1 then memory.set w.1.toNat w.2 else memory) memory

theorem mem_writesFrom {start : Nat} {bytes : Bytes} {w : Int × UInt8}
    (h : w ∈ writesFrom start bytes) : (start : Int) ≤ w.1 ∧ w.1 < start + bytes.length := by
  induction bytes generalizing start with
  | nil => cases h
  | cons c bytes ih =>
    rw [length_cons]
    rcases mem_cons.mp h with rfl | htail
    · simp only
      omega
    · have := ih htail
      omega

theorem writesFrom_append (start : Nat) (bytes bytes' : Bytes) :
    writesFrom start (bytes ++ bytes') =
      writesFrom start bytes ++ writesFrom (start + bytes.length) bytes' := by
  induction bytes generalizing start with
  | nil => rfl
  | cons c bytes ih =>
    rw [cons_append, writesFrom, ih, writesFrom, length_cons, cons_append,
      Nat.add_assoc, Nat.add_comm 1]

theorem store_writesFrom (memory bytes : Bytes) (start : Nat)
    (h : start + bytes.length ≤ memory.length) :
    store memory (writesFrom start bytes) =
      memory.take start ++ bytes ++ memory.drop (start + bytes.length) := by
  induction bytes generalizing memory start with
  | nil => simp [store, writesFrom]
  | cons c bytes ih =>
    rw [length_cons] at h
    have hstep : store memory (writesFrom start (c :: bytes)) =
        store (memory.set start c) (writesFrom (start + 1) bytes) := by
      simp [store, writesFrom]
    rw [hstep, ih _ _ (by rw [length_set]; omega), take_set, drop_set_of_lt (by omega),
      take_succ_eq_append_getElem (by omega)]
    have hset : (memory.take start ++ [memory[start]]).set start c = memory.take start ++ [c] := by
      rw [set_append_right _ _ (by simp)]
      simp [Nat.min_eq_left (show start ≤ memory.length by omega)]
    rw [hset]
    simp [Nat.add_assoc, Nat.add_comm 1]

end Toft.Lib
