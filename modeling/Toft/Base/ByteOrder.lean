import Toft.Lib.Word

/-!
# Byte order of the host

`ByteOrder::IsBigEndian` is a constant of the machine the library runs on. A number copied to
memory byte by byte (`memcpy`, `reinterpret_cast<char*>`) appears there in the host's order.
-/

namespace Toft

open Lib

/-- The machine: `ByteOrder::IsBigEndian()`. -/
class Host where
  isBigEndian : Bool

namespace Host

@[reducible] def little : Host := ⟨false⟩

variable [Host]

/-- A number in the order of the host. -/
def bytes (w n : Nat) : Bytes :=
  if isBigEndian then (leBytes w n).reverse else leBytes w n

/-- The number that the bytes are in the order of the host. -/
def nat (bs : Bytes) : Nat :=
  if isBigEndian then leNat bs.reverse else leNat bs

@[simp] theorem length_bytes (w n : Nat) : (bytes w n).length = w := by
  unfold bytes
  split <;> simp

theorem nat_lt (bs : Bytes) : nat bs < 256 ^ bs.length := by
  unfold nat
  split
  · simpa using leNat_lt bs.reverse
  · exact leNat_lt bs

theorem nat_bytes (w n : Nat) : nat (bytes w n) = n % 256 ^ w := by
  unfold nat bytes
  split
  · rw [List.reverse_reverse, leNat_leBytes]
  · rw [leNat_leBytes]

theorem nat_bytes_of_lt {w n : Nat} (h : n < 256 ^ w) : nat (bytes w n) = n := by
  rw [nat_bytes, Nat.mod_eq_of_lt h]

end Host

end Toft
