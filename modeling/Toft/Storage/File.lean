import Mathlib.Data.List.TakeDrop
import Toft.Lib.Transfer

/-!
# File objects

`toft::File` as the storage classes use it: a byte content, a file position, and the outcomes of
the `Read` and `Write` calls to come. `Read` and `Write` may move fewer bytes than asked and return
how many, or fail and return -1; `Seek` fails only on a position before the start.
-/

namespace Toft

open Lib List

/-- What an offset counts from. -/
inductive Whence where
  | set
  | cur
  | end_
  deriving DecidableEq, Repr

/-- An open file, and how its next transfers go. -/
structure File where
  data : Bytes
  pos : Nat := 0
  io : Schedule := Schedule.allFull

namespace File

def tell (f : File) : Int := f.pos

/-- `File::Seek`; `none` when it returns false and leaves the position alone. -/
def seek (f : File) (offset : Int) (whence : Whence) : Option File :=
  let base : Int := match whence with
    | .set => 0
    | .cur => f.pos
    | .end_ => f.data.length
  if base + offset < 0 then none else some { f with pos := (base + offset).toNat }

/-- `File::Read` of `size` bytes: the returned count, the bytes put in the buffer, the file. -/
def read (f : File) (size : Nat) : Int × Bytes × File :=
  match (f.io 0).count size with
  | none => (-1, [], { f with io := f.io.tail })
  | some c =>
    let got := (f.data.drop f.pos).take c
    (got.length, got, { f with pos := f.pos + got.length, io := f.io.tail })

/-- `File::Write` of a buffer: the returned count and the file. -/
def write (f : File) (buffer : Bytes) : Int × File :=
  match (f.io 0).count buffer.length with
  | none => (-1, { f with io := f.io.tail })
  | some c =>
    (c, { data := f.data.takeD f.pos 0 ++ buffer.take c ++ f.data.drop (f.pos + c),
          pos := f.pos + c, io := f.io.tail })

variable {f : File}

theorem seek_set {n : Nat} : f.seek n .set = some { f with pos := n } := by
  simp [seek, show ¬ (n : Int) < 0 by omega]

theorem seek_neg {offset : Int} (h : offset < 0) : f.seek offset .set = none := by
  have hneg : (0 : Int) + offset < 0 := by omega
  exact if_pos hneg

theorem seek_end : f.seek 0 .end_ = some { f with pos := f.data.length } := by
  simp [seek, show ¬ (f.data.length : Int) < 0 by omega]

theorem seek_back {n : Nat} (h : n ≤ f.pos) :
    f.seek (-(n : Int)) .cur = some { f with pos := f.pos - n } := by
  have hpos : ¬ (f.pos : Int) + -(n : Int) < 0 := by omega
  have hnat : ((f.pos : Int) + -(n : Int)).toNat = f.pos - n := by omega
  simp only [seek, hpos, ite_false, hnat]

/-- A file that holds `data` and stands at its end, with every call to come doing all its work. -/
def written (data : Bytes) : File := { data := data, pos := data.length }

theorem write_end (h : f.pos = f.data.length) (buffer : Bytes) {c : Nat}
    (hc : (f.io 0).count buffer.length = some c) :
    f.write buffer = ((c : Int),
      { data := f.data ++ buffer.take c, pos := f.data.length + c, io := f.io.tail }) := by
  have hdrop : f.data.drop (f.data.length + c) = [] := drop_eq_nil_of_le (by omega)
  have htake : f.data.takeD f.data.length 0 = f.data := by
    rw [takeD_eq_take _ (Nat.le_refl _), take_length]
  simp only [write, hc, h, hdrop, htake, append_nil]

theorem write_written (data buffer : Bytes) :
    (written data).write buffer = ((buffer.length : Int), written (data ++ buffer)) := by
  rw [write_end rfl buffer rfl]
  simp [written]

theorem read_count (f : File) (size : Nat) {c : Nat} (hc : (f.io 0).count size = some c)
    (havail : f.pos + c ≤ f.data.length) :
    f.read size = ((c : Int), (f.data.drop f.pos).take c,
      { f with pos := f.pos + c, io := f.io.tail }) := by
  have hlen : ((f.data.drop f.pos).take c).length = c := by
    rw [length_take, length_drop]
    omega
  simp only [read, hc, hlen]

theorem read_moves (hmoves : (f.io 0).Moves) (hpos : f.pos ≤ f.data.length) {size : Nat}
    (hsize : 0 < size) :
    ∃ got, f.read size = ((got.length : Int), got,
        { f with pos := f.pos + got.length, io := f.io.tail }) ∧
      got ++ f.data.drop (f.pos + got.length) = f.data.drop f.pos ∧
      f.pos + got.length ≤ f.data.length ∧ got.length ≤ size ∧
      (f.pos < f.data.length → 0 < got.length) := by
  obtain ⟨c, hc, hle, hcount⟩ := hmoves.count hsize
  have hlen : ((f.data.drop f.pos).take c).length = min c (f.data.length - f.pos) := by
    rw [length_take, length_drop]
  refine ⟨(f.data.drop f.pos).take c, by simp only [read, hcount], ?_, ?_, ?_, ?_⟩
  · rw [← drop_drop, hlen, ← length_drop]
    rcases Nat.le_total c (f.data.drop f.pos).length with hshort | hlong
    · rw [Nat.min_eq_left hshort, take_append_drop]
    · rw [Nat.min_eq_right hlong, take_of_length_le hlong, drop_length, append_nil]
  all_goals
    omega

end File

end Toft
