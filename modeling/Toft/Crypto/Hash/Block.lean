import Toft.Base.Fault
import Toft.Lib.BlockHash

/-!
# The block of a hash object

The hash objects keep the bytes behind the last full block in an array of 64 bytes, which their
constructors leave as it is. Copying beyond the array is an overrun.
-/

namespace Toft

open Lib

/-- `memcpy` or `memset` to the array, from `offset` on. -/
def copyIn (block : Buffer 64) (offset : Nat) (bytes : Bytes) : Except Fault (Buffer 64) :=
  match block.copy offset bytes with
  | some block => .ok block
  | none => .error .overrun

theorem copyIn_spec (block : Buffer 64) {offset : Nat} {bytes : Bytes}
    (h : offset + bytes.length ≤ 64) :
    ∃ block', copyIn block offset bytes = .ok block' ∧
      block'.bytes.take (offset + bytes.length) = block.bytes.take offset ++ bytes := by
  obtain ⟨block', hcopy, htake⟩ := block.copy_spec h
  exact ⟨block', by rw [copyIn, hcopy], htake⟩

theorem copyIn_full (block : Buffer 64) {offset : Nat} {bytes : Bytes}
    (h : offset + bytes.length = 64) :
    ∃ block', copyIn block offset bytes = .ok block' ∧
      block'.bytes = block.bytes.take offset ++ bytes := by
  obtain ⟨block', hcopy, htake⟩ := copyIn_spec block h.le
  rw [h, Buffer.take_size] at htake
  exact ⟨block', hcopy, htake⟩

end Toft
