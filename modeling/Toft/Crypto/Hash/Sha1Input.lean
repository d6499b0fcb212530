import Toft.Crypto.Hash.Expansion

/-!
# What SHA1 does to its input

`Update` copies the data that fill a block begun before, and the data behind the last full block.
The full blocks between them are transformed where they are, in the memory of the caller, and the
transformation leaves the words 64 to 79 of the message schedule there. So the data are as before
exactly if each such block is one of zeros (`pass_keeps_iff`).
-/

namespace Toft.SHA1

open Lib Fips180 List

/-- `Update` with each of the pieces of a buffer: the context, and the pieces as they are left. -/
def pass (ctx : Context) : List Bytes → Except Fault (Context × List Bytes)
  | [] => .ok (ctx, [])
  | data :: pieces => do
    let (ctx, data) ← update ctx data
    let (ctx, pieces) ← pass ctx pieces
    return (ctx, data :: pieces)

/-- The digest of the pieces with a new object, and the pieces as they are left. -/
def hash (buffer : Buffer 64) (pieces : List Bytes) : Except Fault (Bytes × List Bytes) := do
  let (ctx, left) ← pass (.init buffer) pieces
  let digest ← final ctx
  return (digest, left)

/-- The blocks of the pieces that are transformed in place. -/
def inPlaceAll : Nat → List Bytes → List Bytes
  | _, [] => []
  | index, data :: pieces =>
    inPlace index data ++ inPlaceAll ((index + data.length) % 64) pieces

def leftOfAll : Nat → List Bytes → List Bytes
  | _, [] => []
  | index, data :: pieces => leftOf index data :: leftOfAll ((index + data.length) % 64) pieces

/-! ## One call -/

theorem index_count (ctx : Context) (len : Nat) :
    (ctx.count len).index = (ctx.index + len) % 64 := by
  have hindex (x : UInt32) : (x >>> 3 &&& 63).toNat = x.toNat / 8 % 64 := by
    rw [UInt32.toNat_and, UInt32.toNat_shiftRight]
    exact (Nat.and_two_pow_sub_one_eq_mod _ 6).trans (by rw [Nat.shiftRight_eq_div_pow]; rfl)
  have hbits : len <<< 3 = 8 * len := by rw [Nat.shiftLeft_eq, Nat.mul_comm]
  rw [Context.index, Context.index, hindex, hindex, Context.count]
  rw [BitCount.toNat_add_ofNat, hbits]
  omega

theorem update_eq (ctx : Context) (data : Bytes) :
    ∃ ctx', update ctx data = .ok (ctx', leftOf ctx.index data) ∧
      ctx'.index = (ctx.index + data.length) % 64 := by
  obtain ⟨state, buffer, hrun, -, -⟩ := absorb_eq (ctx.count data.length) ctx.index_lt data
  exact ⟨_, hrun, index_count ctx data.length⟩

theorem flatMap_eq_flatten_iff {g : Bytes → Bytes} {L : List Bytes}
    (hlength : ∀ b ∈ L, (g b).length = b.length) :
    L.flatMap g = L.flatten ↔ ∀ b ∈ L, g b = b := by
  induction L with
  | nil => simp
  | cons b L ih =>
    have hhead := hlength b mem_cons_self
    have htail := ih fun b' hb' => hlength b' (mem_cons_of_mem _ hb')
    rw [flatMap_cons, flatten_cons, forall_mem_cons, ← htail]
    constructor
    · intro h
      exact append_inj h hhead
    · rintro ⟨hb, hL⟩
      rw [hb, hL]

theorem leftOf_eq_iff (index : Nat) (data : Bytes) :
    leftOf index data = data ↔ ∀ block ∈ inPlace index data, block = replicate 64 0 := by
  have hdata : data = data.take (64 - index) ++
      ((inPlace index data).flatten ++ afterBlocks 64 (data.drop (64 - index))) := by
    rw [inPlace, flatten_blocks_append (by decide), take_append_drop]
  have hlength : ∀ block ∈ inPlace index data, (expanded block).length = block.length := by
    intro block hblock
    rw [length_expanded, length_of_mem_blocks hblock]
  have hkept : (∀ block ∈ inPlace index data, block = replicate 64 0) ↔
      ∀ block ∈ inPlace index data, expanded block = block :=
    forall₂_congr fun block hblock => (expanded_eq_iff (length_of_mem_blocks hblock)).symm
  rw [hkept, ← flatMap_eq_flatten_iff hlength, leftOf, append_assoc]
  constructor
  · intro h
    exact append_cancel_right (append_cancel_left (h.trans hdata))
  · intro h
    rw [h]
    exact hdata.symm

/-! ## All calls -/

theorem pass_eq (ctx : Context) (pieces : List Bytes) :
    ∃ ctx', pass ctx pieces = .ok (ctx', leftOfAll ctx.index pieces) := by
  induction pieces generalizing ctx with
  | nil => exact ⟨ctx, rfl⟩
  | cons data pieces ih =>
    obtain ⟨ctx₁, hdata, hindex⟩ := update_eq ctx data
    obtain ⟨ctx', hpieces⟩ := ih ctx₁
    refine ⟨ctx', ?_⟩
    rw [pass, hdata, ok_bind]
    dsimp only
    rw [hpieces, ok_bind, leftOfAll, hindex]
    rfl

theorem leftOfAll_eq_iff (index : Nat) (pieces : List Bytes) :
    leftOfAll index pieces = pieces ↔
      ∀ block ∈ inPlaceAll index pieces, block = replicate 64 0 := by
  induction pieces generalizing index with
  | nil => simp [leftOfAll, inPlaceAll]
  | cons data pieces ih =>
    rw [leftOfAll, inPlaceAll, List.cons.injEq, leftOf_eq_iff, ih, forall_mem_append]

theorem pass_holds {ctx : Context} {message : Bytes} (h : Holds ctx message) (pieces : List Bytes) :
    ∃ ctx', pass ctx pieces = .ok (ctx', leftOfAll ctx.index pieces) ∧
      Holds ctx' (message ++ pieces.flatten) := by
  induction pieces generalizing ctx message with
  | nil => exact ⟨ctx, rfl, by simpa using h⟩
  | cons data pieces ih =>
    obtain ⟨ctx₁, hdata, h₁⟩ := update_spec h data
    obtain ⟨ctx', hpieces, h'⟩ := ih h₁
    have hindex : ctx₁.index = (ctx.index + data.length) % 64 := by
      have h₀ : ctx.index = message.length % 64 := h.bits.bytes_mod
      have h₁ : ctx₁.index = (message ++ data).length % 64 := h₁.bits.bytes_mod
      rw [h₁, h₀, length_append]
      omega
    refine ⟨ctx', ?_, by simpa using h'⟩
    rw [pass, hdata, ok_bind]
    dsimp only
    rw [hpieces, ok_bind, leftOfAll, hindex]
    rfl

theorem hash_eq (buffer : Buffer 64) (pieces : List Bytes) :
    hash buffer pieces = .ok (Fips180.digest pieces.flatten, leftOfAll 0 pieces) := by
  obtain ⟨ctx, hrun, hctx⟩ := pass_holds (init_holds buffer) pieces
  have hindex : (Context.init buffer).index = 0 := (init_holds buffer).bits.bytes_mod
  rw [hash, hrun, ok_bind]
  dsimp only
  rw [final_spec hctx, ok_bind, hindex]
  rfl

/-- From any context, the calls of `Update` leave the pieces as they were exactly if each block that
is not copied is zero. In this case a second digest of the same memory is the first. -/
theorem pass_keeps_iff (ctx : Context) (pieces : List Bytes) :
    (∃ ctx' left, pass ctx pieces = .ok (ctx', left) ∧
      (left = pieces ↔ ∀ block ∈ inPlaceAll ctx.index pieces, block = replicate 64 0)) ∧
    ∀ first second, (∀ block ∈ inPlaceAll 0 pieces, block = replicate 64 0) →
      ∃ digest, hash first pieces = .ok (digest, pieces) ∧
        hash second pieces = .ok (digest, pieces) := by
  constructor
  · obtain ⟨ctx', hrun⟩ := pass_eq ctx pieces
    exact ⟨ctx', _, hrun, leftOfAll_eq_iff _ _⟩
  · intro first second hkeeps
    have hleft := (leftOfAll_eq_iff 0 pieces).mpr hkeeps
    refine ⟨Fips180.digest pieces.flatten, ?_, ?_⟩
    · rw [hash_eq, hleft]
    · rw [hash_eq, hleft]

/-- The last 64 bytes of the first piece are a block in place. -/
theorem pass_keeps_zeros :
    inPlaceAll 0 [ascii "abc" ++ replicate 125 0, ascii "xyz"] = [replicate 64 0] ∧
    ∃ digest, ∀ buffer ∈ [(⟨replicate 64 0, rfl⟩ : Buffer 64), ⟨replicate 64 1, rfl⟩],
      hash buffer [ascii "abc" ++ replicate 125 0, ascii "xyz"] =
        .ok (digest, [ascii "abc" ++ replicate 125 0, ascii "xyz"]) := by
  have hblocks : inPlaceAll 0 [ascii "abc" ++ replicate 125 0, ascii "xyz"] = [replicate 64 0] := by
    decide +kernel
  obtain ⟨digest, hfirst, hsecond⟩ :=
    (pass_keeps_iff (.init ⟨replicate 64 0, rfl⟩) _).2 ⟨replicate 64 0, rfl⟩ ⟨replicate 64 1, rfl⟩
      (by rw [hblocks]; exact fun block hblock => mem_singleton.mp hblock)
  exact ⟨hblocks, digest, by simp only [forall_mem_cons, hfirst, hsecond]; simp⟩

/-- The second of two full blocks is changed, and the second digest is another one. -/
theorem hash_changes_input :
    ∃ digest left digest' left',
      hash ⟨.replicate 64 0, rfl⟩ [.replicate 128 97] = .ok (digest, left) ∧
      left ≠ [.replicate 128 97] ∧
      hash ⟨.replicate 64 0, rfl⟩ left = .ok (digest', left') ∧ digest ≠ digest' := by
  refine ⟨_, _, _, _, hash_eq _ _, ?_, hash_eq _ _, ?_⟩
  · decide +kernel
  · decide +kernel

end Toft.SHA1
