import Toft.Lib.Word32

/-!
# Hashing by blocks

A hash function of the usual kind pads the message to full blocks and folds a compression function
over them. Code that gets the message in parts keeps the state behind the full blocks so far and the
bytes behind them in a buffer (`Absorbed`): it may add bytes to the buffer as long as no block is
full, and compress a block when one is (`Absorbed.more`, `Absorbed.full`). The length of the message
in bits is often kept in two words with a carry (`BitCount`).
-/

namespace Toft.Lib

open List Nat

/-! ## Blocks -/

/-- The full blocks of the bytes. -/
def blocks (size : Nat) (bytes : Bytes) : List Bytes :=
  (List.range (bytes.length / size)).map fun i => (bytes.drop (i * size)).take size

/-- The bytes behind the full blocks. -/
def afterBlocks (size : Nat) (bytes : Bytes) : Bytes := bytes.drop (bytes.length / size * size)

variable {size : Nat}

theorem length_afterBlocks (bytes : Bytes) :
    (afterBlocks size bytes).length = bytes.length % size := by
  have := div_add_mod bytes.length size
  rw [afterBlocks, length_drop, mul_comm]
  omega

variable {bytes : Bytes}

theorem blocks_of_lt (h : bytes.length < size) : blocks size bytes = [] := by
  rw [blocks, div_eq_of_lt h]
  rfl

theorem afterBlocks_of_lt (h : bytes.length < size) : afterBlocks size bytes = bytes := by
  rw [afterBlocks, div_eq_of_lt h, zero_mul, drop_zero]

theorem drop_append_afterBlocks (a b : Bytes) :
    (a ++ b).drop (a.length / size * size) = afterBlocks size a ++ b :=
  drop_append_of_le_length (div_mul_le_self _ _)

theorem mul_add_size_le {i : Nat} (h : i < bytes.length / size) :
    i * size + size ≤ bytes.length := by
  calc i * size + size = (i + 1) * size := (succ_mul i size).symm
    _ ≤ bytes.length / size * size := mul_le_mul_right _ h
    _ ≤ bytes.length := div_mul_le_self _ _

theorem length_of_mem_blocks {bytes block : Bytes} (h : block ∈ blocks size bytes) :
    block.length = size := by
  obtain ⟨i, hi, rfl⟩ := mem_map.mp h
  have hle := mul_add_size_le (mem_range.mp hi)
  rw [length_take, length_drop]
  omega

section

variable (hsize : 0 < size)
include hsize

theorem length_append_div (a b : Bytes) : (a ++ b).length / size =
    a.length / size + (afterBlocks size a ++ b).length / size := by
  have hdiv := div_add_mod a.length size
  rw [length_append, length_append, length_afterBlocks, ← mul_add_div hsize, ← add_assoc, hdiv]

/-- Blocks may be counted on from a full block. -/
theorem blocks_append (a b : Bytes) :
    blocks size (a ++ b) = blocks size a ++ blocks size (afterBlocks size a ++ b) := by
  rw [blocks, length_append_div hsize, range_add, map_append, map_map]
  congr 1
  · refine map_congr_left fun i hi => ?_
    have hle := mul_add_size_le (mem_range.mp hi)
    rw [drop_append_of_le_length (by omega),
      take_append_of_le_length (by rw [length_drop]; omega)]
  · refine map_congr_left fun i _ => ?_
    rw [Function.comp_apply, add_mul, ← drop_drop, drop_append_afterBlocks]

theorem afterBlocks_append (a b : Bytes) :
    afterBlocks size (a ++ b) = afterBlocks size (afterBlocks size a ++ b) := by
  rw [afterBlocks, length_append_div hsize, add_mul, ← drop_drop, drop_append_afterBlocks,
    afterBlocks.eq_1 size (afterBlocks size a ++ b)]

theorem blocks_of_length_eq (h : bytes.length = size) : blocks size bytes = [bytes] := by
  rw [blocks, h, Nat.div_self hsize, range_one, map_singleton, Nat.zero_mul,
    drop_zero, take_of_length_le h.le]

theorem afterBlocks_of_length_eq (h : bytes.length = size) : afterBlocks size bytes = [] := by
  rw [afterBlocks, h, Nat.div_self hsize, Nat.one_mul, drop_of_length_le h.le]

theorem blocks_of_le (h : size ≤ bytes.length) :
    blocks size bytes = bytes.take size :: blocks size (bytes.drop size) ∧
      afterBlocks size bytes = afterBlocks size (bytes.drop size) := by
  have hlength : (bytes.take size).length = size := length_take_of_le h
  have hblocks := blocks_append hsize (bytes.take size) (bytes.drop size)
  have hafter := afterBlocks_append hsize (bytes.take size) (bytes.drop size)
  rw [take_append_drop, afterBlocks_of_length_eq hsize hlength] at hblocks hafter
  rw [blocks_of_length_eq hsize hlength] at hblocks
  exact ⟨hblocks, hafter⟩

theorem flatten_blocks_append (bytes : Bytes) :
    (blocks size bytes).flatten ++ afterBlocks size bytes = bytes := by
  induction hn : bytes.length using Nat.strong_induction_on generalizing bytes with
  | _ n ih =>
    by_cases hle : size ≤ bytes.length
    · obtain ⟨hblocks, hafter⟩ := blocks_of_le hsize hle
      have hrest := ih (bytes.drop size).length (by rw [length_drop]; omega) _ rfl
      rw [hblocks, hafter, flatten_cons, append_assoc, hrest, take_append_drop]
    · rw [blocks_of_lt (by omega), afterBlocks_of_lt (by omega), flatten_nil, nil_append]

end

/-! ## The state behind a message -/

/-- `s` is the state behind the full blocks of the message, and `buffer` holds the bytes behind
them. -/
structure Absorbed {σ : Type} (compress : σ → Bytes → σ) (size : Nat) (init : σ) (message : Bytes)
    (s : σ) (buffer : Bytes) : Prop where
  state : s = (blocks size message).foldl compress init
  buffer : buffer = afterBlocks size message

namespace Absorbed

variable {σ : Type} {compress : σ → Bytes → σ} {init s : σ} {message buffer : Bytes}

theorem start (hsize : 0 < size) : Absorbed compress size init [] init [] where
  state := by rw [blocks_of_lt hsize]; rfl
  buffer := (afterBlocks_of_lt hsize).symm

section

variable (h : Absorbed compress size init message s buffer)
include h

theorem length : buffer.length = message.length % size := by
  rw [h.buffer, length_afterBlocks]

theorem more (bytes : Bytes) (hlt : buffer.length + bytes.length < size) :
    Absorbed compress size init (message ++ bytes) s (buffer ++ bytes) := by
  have hsize : 0 < size := by omega
  have hlength : (afterBlocks size message ++ bytes).length < size := by
    rwa [length_append, ← h.buffer]
  constructor
  · rw [blocks_append hsize, blocks_of_lt hlength, append_nil, ← h.state]
  · rw [afterBlocks_append hsize, afterBlocks_of_lt hlength, ← h.buffer]

theorem full (bytes : Bytes) (heq : buffer.length + bytes.length = size) (hsize : 0 < size) :
    Absorbed compress size init (message ++ bytes) (compress s (buffer ++ bytes)) [] := by
  have hlength : (afterBlocks size message ++ bytes).length = size := by
    rwa [length_append, ← h.buffer]
  constructor
  · rw [blocks_append hsize, blocks_of_length_eq hsize hlength, foldl_append, ← h.state, ← h.buffer]
    rfl
  · rw [afterBlocks_append hsize, afterBlocks_of_length_eq hsize hlength]

end

theorem rest (h : Absorbed compress size init message s []) (bytes : Bytes) (hsize : 0 < size) :
    Absorbed compress size init (message ++ bytes) ((blocks size bytes).foldl compress s)
      (afterBlocks size bytes) := by
  constructor
  · rw [blocks_append hsize, ← h.buffer, nil_append, foldl_append, ← h.state]
  · rw [afterBlocks_append hsize, ← h.buffer, nil_append]

end Absorbed

/-! ## Buffers -/

/-- An array of bytes of a fixed size. -/
structure Buffer (size : Nat) where
  bytes : Bytes
  length_eq : bytes.length = size

namespace Buffer

theorem ext {b b' : Buffer size} (h : b.bytes = b'.bytes) : b = b' := by
  cases b
  cases b'
  cases h
  rfl

@[simp] theorem take_size (b : Buffer size) : b.bytes.take size = b.bytes :=
  take_of_length_le b.length_eq.le

/-- The array with `new` copied to `offset`, if it has the room. -/
def copy (b : Buffer size) (offset : Nat) (new : Bytes) : Option (Buffer size) :=
  if h : offset + new.length ≤ size then
    some ⟨b.bytes.take offset ++ new ++ b.bytes.drop (offset + new.length), by
      have := b.length_eq
      simp only [length_append, length_take, length_drop]
      omega⟩
  else none

theorem copy_spec (b : Buffer size) {offset : Nat} {new : Bytes} (h : offset + new.length ≤ size) :
    ∃ b', b.copy offset new = some b' ∧
      b'.bytes.take (offset + new.length) = b.bytes.take offset ++ new := by
  refine ⟨_, dif_pos h, take_left' ?_⟩
  have := b.length_eq
  simp only [length_append, length_take]
  omega

end Buffer

/-! ## Padding -/

/-- The number of zeros between the marker and the length of a message of `n` bytes. -/
def padZeros (n : Nat) : Nat := (64 + 55 - n % 64) % 64

theorem padZeros_mod (n : Nat) : (n + 1 + padZeros n) % 64 = 56 := by
  unfold padZeros
  omega

/-- The marker, the zeros and the length in bits. -/
def padding (lengthBytes : Nat → Bytes) (n : Nat) : Bytes :=
  0x80 :: (List.replicate (padZeros n) 0 ++ lengthBytes (8 * n))

/-- The message with its padding up to the length. -/
def marked (message : Bytes) : Bytes := message ++ 0x80 :: .replicate (padZeros message.length) 0

theorem length_marked_mod (message : Bytes) : (marked message).length % 64 = 56 := by
  rw [marked, length_append, length_cons, length_replicate, add_comm _ 1, ← add_assoc]
  exact padZeros_mod message.length

theorem append_padding (lengthBytes : Nat → Bytes) (message : Bytes) :
    message ++ padding lengthBytes message.length =
      marked message ++ lengthBytes (8 * message.length) := by
  rw [padding, marked, append_assoc, cons_append]

/-! ## Two-word counters -/

/-- The two words hold the bits of `n` bytes, modulo `2 ^ 64`. -/
structure BitCount (lo hi : UInt32) (n : Nat) : Prop where
  lo : lo.toNat = 8 * n % 2 ^ 32
  hi : hi.toNat = 8 * n / 2 ^ 32 % 2 ^ 32

theorem bitCount_zero : BitCount 0 0 0 := ⟨rfl, rfl⟩

namespace BitCount

variable {lo hi : UInt32} {n : Nat}

theorem bytes_mod (h : BitCount lo hi n) : (lo >>> 3 &&& 0x3f).toNat = n % 64 := by
  have hlo := h.lo
  have hmask : (lo >>> 3 &&& 0x3f).toNat = lo.toNat / 8 % 64 := by
    rw [UInt32.toNat_and, UInt32.toNat_shiftRight]
    exact (and_two_pow_sub_one_eq_mod _ 6).trans (by rw [shiftRight_eq_div_pow]; rfl)
  omega

theorem toNat_add_ofNat (lo : UInt32) (n : Nat) :
    (lo + UInt32.ofNat n).toNat = (lo.toNat + n) % 2 ^ 32 := by
  rw [UInt32.toNat_add, UInt32.toNat_ofNat', add_mod_mod]

/-- The low word has wrapped exactly if it is below what was added. -/
theorem lt_add_iff (lo x : UInt32) : lo + x < x ↔ lo + x < lo := by
  rw [UInt32.lt_iff_toNat_lt, UInt32.lt_iff_toNat_lt, UInt32.toNat_add]
  have := lo.toNat_lt
  have := x.toNat_lt
  omega

theorem add (h : BitCount lo hi n) (len : Nat) :
    BitCount (lo + .ofNat (8 * len))
      ((if lo + .ofNat (8 * len) < lo then hi + 1 else hi) + .ofNat (len / 2 ^ 29)) (n + len) := by
  obtain ⟨hlo, hhi⟩ := h
  have hsum := toNat_add_ofNat lo (8 * len)
  constructor
  · rw [hsum]
    omega
  · rw [toNat_add_ofNat]
    split
    · rename_i hcarry
      rw [UInt32.lt_iff_toNat_lt] at hcarry
      rw [UInt32.toNat_add, UInt32.toNat_one]
      omega
    · rename_i hcarry
      rw [UInt32.lt_iff_toNat_lt] at hcarry
      omega

theorem wordBytes_append (h : BitCount lo hi n) :
    wordBytes lo ++ wordBytes hi = leBytes 8 (8 * n) := by
  have hword (m : Nat) : leBytes 4 (m % 2 ^ 32) = leBytes 4 m := leBytes_mod 4 m
  rw [wordBytes, wordBytes, h.lo, h.hi, hword, hword]
  exact (leBytes_add 4 4 _).symm

end BitCount

end Toft.Lib
