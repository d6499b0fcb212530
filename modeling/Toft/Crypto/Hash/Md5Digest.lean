import Mathlib.Data.List.Basic
import Toft.Crypto.Hash.Md5
import Toft.Crypto.Hash.Rfc1321

/-!
# MD5 and RFC 1321

`MD5Transform` is the processing of one block of RFC 1321 (`md5Transform_eq`). A context holds a
message if its words are the state behind the full blocks, the array `in` starts with the bytes
behind them, and the two words `bits` count the bits (`Holds`). `Update` adds what it is given to
the message (`update_spec`), and the end pads it (`finalInternal_spec`). So `Final(void*)` writes
the digest of the whole message, however it was cut.

`Final()` reads the second half of its number not from the digest but from the last block.
-/

namespace Toft.MD5

open Lib Rfc1321 List Context Nat UInt32

/-! ## The transformation -/

theorem f1_eq_F : f1 = F := by
  have hbit : ∀ x y z : Bool, (z ^^ (x && (y ^^ z))) = (x && y || !x && z) := by decide
  funext x y z
  apply UInt32.toBitVec_inj.mp
  apply BitVec.eq_of_getLsbD_eq
  intro i hi
  simp only [f1, F, UInt32.toBitVec_xor, UInt32.toBitVec_and, UInt32.toBitVec_or,
    UInt32.toBitVec_not, BitVec.getLsbD_xor, BitVec.getLsbD_and, BitVec.getLsbD_or,
    BitVec.getLsbD_not, hi, decide_true, Bool.true_and]
  apply hbit

theorem f2_eq_G : f2 = G := by
  funext x y z
  rw [f2, f1_eq_F, F, G, UInt32.and_comm z x, UInt32.and_comm _ y]

theorem steps_eq : steps = operations.map fun op => ⟨op.f, op.k, op.t, .ofNat op.s⟩ := by
  rw [steps, f1_eq_F, f2_eq_G]
  rfl

theorem operations_shift : ∀ op ∈ operations, 0 < op.s ∧ op.s < 32 := by decide

theorem Step.apply_eq {op : Operation} (h : 0 < op.s ∧ op.s < 32) (input : Nat → UInt32)
    (buf : MDBuffer) :
    Step.apply input buf ⟨op.f, op.k, op.t, .ofNat op.s⟩ = op.apply input buf := by
  obtain ⟨a, b, c, d⟩ := buf
  simp only [Step.apply, Step.value, Operation.apply, shift_or_shift _ h.1 h.2, UInt32.add_assoc]
  rw [UInt32.add_comm b]

theorem md5Transform_eq (buf : MDBuffer) (block : Bytes) :
    md5Transform buf (leWord block) = processBlock buf block := by
  have hfold : steps.foldl (Step.apply (leWord block)) buf =
      operations.foldl (Operation.apply (leWord block)) buf := by
    rw [steps_eq, foldl_map]
    apply foldl_ext
    intro buf op hop
    exact Step.apply_eq (operations_shift op hop) _ buf
  obtain ⟨a, b, c, d⟩ := buf
  simp only [md5Transform, processBlock, hfold, UInt32.add_comm]

/-! ## The array -/

theorem toNat_pair (a b : UInt8) :
    (b.toUInt32 <<< 8 ||| a.toUInt32).toNat = a.toNat + 2 ^ 8 * b.toNat := by
  have ha : a.toUInt32.toNat < 2 ^ 8 := a.toNat_lt
  have hb : b.toUInt32.toNat < 2 ^ 8 := b.toNat_lt
  rw [UInt32.or_comm]
  exact toNat_or_shiftLeft (i := 8) (by decide) ha (by omega)

theorem pair_pair (a b c d : UInt8) :
    (d.toUInt32 <<< 8 ||| c.toUInt32) <<< 16 ||| (b.toUInt32 <<< 8 ||| a.toUInt32) =
      .ofNat (leNat [a, b, c, d]) := by
  have ha := a.toNat_lt
  have hb := b.toNat_lt
  rw [UInt32.or_comm]
  refine (or_shiftLeft32 (i := 16) (by decide) (by rw [toNat_pair]; omega)).trans ?_
  rw [toNat_pair, toNat_pair]
  congr 1
  simp only [leNat]
  omega

theorem byteReverse_eq (longs : Nat) (buf : Bytes) : byteReverse longs buf = buf := by
  fun_induction byteReverse longs buf with
  | case1 longs b₀ b₁ b₂ b₃ buf t ih =>
    have ht : t = .ofNat (leNat [b₀, b₁, b₂, b₃]) := pair_pair b₀ b₁ b₂ b₃
    rw [ih, ht, wordBytes_ofNat_leNat rfl]
    rfl
  | case2 => rfl

theorem reverseIn_eq (input : Buffer 64) (longs : Nat) : reverseIn input longs = input :=
  Buffer.ext (byteReverse_eq longs input.bytes)

@[simp] theorem transform_buf (ctx : Context) :
    ctx.transform.buf = processBlock ctx.buf ctx.input.bytes := by
  simp only [transform, reverseIn_eq, md5Transform_eq]

@[simp] theorem transform_bits0 (ctx : Context) : ctx.transform.bits0 = ctx.bits0 := by
  unfold transform
  generalize md5Transform _ _ = buf
  rfl

@[simp] theorem transform_bits1 (ctx : Context) : ctx.transform.bits1 = ctx.bits1 := by
  unfold transform
  generalize md5Transform _ _ = buf
  rfl

@[simp] theorem transform_input (ctx : Context) : ctx.transform.input = ctx.input := by
  simp only [transform, reverseIn_eq]

/-! ## The message of a context -/

/-- The context is one behind the message. -/
structure Holds (ctx : Context) (message : Bytes) : Prop where
  absorbed : Absorbed processBlock 64 init message ctx.buf
    (ctx.input.bytes.take (message.length % 64))
  bits : BitCount ctx.bits0 ctx.bits1 message.length

theorem init_holds (input : Buffer 64) : Holds (.init input) [] where
  absorbed := .start (by decide)
  bits := bitCount_zero

variable {ctx : Context} {message : Bytes}

theorem updateBlocks_spec {fuel : Nat} (buf : Bytes) (hfuel : buf.length < fuel)
    (h : Absorbed processBlock 64 init message ctx.buf [])
    (hbits : BitCount ctx.bits0 ctx.bits1 (message ++ buf).length) :
    ∃ ctx', updateBlocks fuel ctx buf = .ok ctx' ∧ Holds ctx' (message ++ buf) := by
  induction fuel generalizing ctx message buf with
  | zero => omega
  | succ fuel ih =>
    rw [updateBlocks]
    split
    · rename_i hlen
      have hroom : 0 + (buf.take 64).length = 64 := by
        rw [length_take_of_le hlen]
      have hdrop : (buf.drop 64).length < fuel := by
        rw [length_drop]
        omega
      obtain ⟨input, hcopy, hinput⟩ := copyIn_full ctx.input hroom
      have hfull := h.full (buf.take 64) hroom (by decide)
      have hsplit : message ++ buf = message ++ buf.take 64 ++ buf.drop 64 := by
        rw [append_assoc, take_append_drop]
      rw [take_zero] at hinput
      rw [← hinput] at hfull
      rw [hsplit] at hbits ⊢
      rw [hcopy]
      apply ih (buf.drop 64) hdrop
      · rwa [transform_buf]
      · rwa [transform_bits0, transform_bits1]
    · rename_i hlen
      have hmod : (message ++ buf).length % 64 = 0 + buf.length := by
        have := h.length
        rw [length_append]
        rw [length_nil] at this
        omega
      have hroom : 0 + buf.length ≤ 64 := by omega
      obtain ⟨input, hcopy, hinput⟩ := copyIn_spec ctx.input hroom
      rw [hcopy, ok_bind]
      refine ⟨_, rfl, ?_, hbits⟩
      rw [hmod, hinput]
      exact h.more buf (by rw [length_nil]; omega)

theorem count_spec {n : Nat} (h : BitCount ctx.bits0 ctx.bits1 n) {len : Nat}
    (hlen : len < 2 ^ 32) :
    BitCount (ctx.count (.ofNat len)).bits0 (ctx.count (.ofNat len)).bits1 (n + len) := by
  have hshl : ofNat len <<< 3 = .ofNat (8 * len) := by
    rw [← UInt32.toNat_inj]
    refine (toNat_shiftLeft32 _ (i := 3) (by decide)).trans ?_
    rw [toNat_ofNat', toNat_ofNat']
    omega
  have hshr : ofNat len >>> 29 = .ofNat (len / 2 ^ 29) := by
    rw [← UInt32.toNat_inj, UInt32.toNat_shiftRight, UInt32.toNat_ofNat',
      mod_eq_of_lt hlen, shiftRight_eq_div_pow]
    exact (mod_eq_of_lt (lt_of_le_of_lt (div_le_self _ _) hlen)).symm
  have := h.add len
  rwa [← hshl, ← hshr] at this

/-- What `Update` takes of a piece: its length is cut to 32 bits. -/
def taken (sp : Bytes) : Bytes := sp.take (sp.length % 2 ^ 32)

theorem taken_of_lt {sp : Bytes} (h : sp.length < 2 ^ 32) : taken sp = sp := by
  rw [taken, mod_eq_of_lt h, take_length]

theorem length_taken (sp : Bytes) : (taken sp).length = sp.length % 2 ^ 32 :=
  length_take_of_le (mod_le _ _)

theorem absorb_spec {message buf : Bytes} {t len : UInt32}
    (h : Absorbed processBlock 64 init message ctx.buf
      (ctx.input.bytes.take (message.length % 64)))
    (hbits : BitCount ctx.bits0 ctx.bits1 (message ++ buf).length)
    (ht : t.toNat = message.length % 64) (hlen : len.toNat = buf.length) :
    ∃ ctx', ctx.absorb t buf len = .ok ctx' ∧ Holds ctx' (message ++ buf) := by
  have hlt : t.toNat < 64 := ht ▸ mod_lt _ (by decide)
  have hbuffer := h.length
  rw [← ht] at h hbuffer
  rw [absorb]
  split
  · have hroom : (64 - t).toNat = 64 - t.toNat :=
      UInt32.toNat_sub_of_le _ _ (UInt32.le_iff_toNat_le.mpr hlt.le)
    simp only [lt_iff_toNat_lt, hroom, hlen]
    split
    · rename_i hshort
      have hmod : (message ++ buf).length % 64 = t.toNat + buf.length := by
        rw [length_append]
        omega
      have hfit : t.toNat + buf.length ≤ 64 := by omega
      obtain ⟨input, hcopy, hinput⟩ := copyIn_spec ctx.input hfit
      rw [hcopy, ok_bind]
      refine ⟨_, rfl, ?_, hbits⟩
      rw [hmod, hinput]
      exact h.more buf (by omega)
    · rename_i hlong
      have hfill : t.toNat + (buf.take (64 - t.toNat)).length = 64 := by
        rw [length_take]
        omega
      have hdrop : (buf.drop (64 - t.toNat)).length < buf.length + 1 := by
        rw [length_drop]
        omega
      have hsplit : message ++ buf =
          message ++ buf.take (64 - t.toNat) ++ buf.drop (64 - t.toNat) := by
        rw [append_assoc, take_append_drop]
      obtain ⟨input, hcopy, hinput⟩ := copyIn_full ctx.input hfill
      have hfull := h.full (buf.take (64 - t.toNat)) (by omega) (by decide)
      rw [← hinput] at hfull
      rw [hsplit] at hbits ⊢
      rw [hcopy]
      apply updateBlocks_spec _ hdrop
      · rwa [transform_buf]
      · rwa [transform_bits0, transform_bits1]
  · rename_i hzero
    have ht0 : t.toNat = 0 := by
      rw [not_not.mp hzero]
      rfl
    rw [ht0] at h
    exact updateBlocks_spec buf (lt_succ_self _) h hbits

theorem update_spec (h : Holds ctx message) (sp : Bytes) :
    ∃ ctx', update ctx sp = .ok ctx' ∧ Holds ctx' (message ++ taken sp) := by
  have hlen : (ofNat sp.length).toNat = sp.length % 2 ^ 32 := toNat_ofNat'
  have hbits : BitCount (ctx.count (.ofNat sp.length)).bits0 (ctx.count (.ofNat sp.length)).bits1
      (message ++ taken sp).length := by
    have := count_spec h.bits (toNat_lt (.ofNat sp.length))
    rwa [UInt32.ofNat_toNat, hlen, ← length_taken, ← length_append] at this
  exact absorb_spec h.absorbed hbits h.bits.bytes_mod (hlen.trans (length_taken sp).symm)

theorem foldlM_update_spec (h : Holds ctx message) (pieces : List Bytes) :
    ∃ ctx', pieces.foldlM update ctx = .ok ctx' ∧
      Holds ctx' (message ++ (pieces.map taken).flatten) := by
  induction pieces generalizing ctx message with
  | nil => exact ⟨ctx, rfl, by simpa using h⟩
  | cons sp pieces ih =>
    obtain ⟨ctx₁, hsp, h₁⟩ := update_spec h sp
    obtain ⟨ctx', hrun, h'⟩ := ih h₁
    refine ⟨ctx', ?_, by simpa using h'⟩
    rw [foldlM_cons, hsp, ok_bind, hrun]

theorem updates_spec (input : Buffer 64) (pieces : List Bytes) :
    ∃ ctx, updates input pieces = .ok ctx ∧ Holds ctx (pieces.map taken).flatten :=
  foldlM_update_spec (init_holds input) pieces

/-! ## The end -/

theorem padInput_spec (h : Holds ctx message) :
    ∃ ctx', padInput ctx = .ok ctx' ∧
      Absorbed processBlock 64 init (marked message) ctx'.buf (ctx'.input.bytes.take 56) ∧
      ctx'.bits0 = ctx.bits0 ∧ ctx'.bits1 = ctx.bits1 := by
  obtain ⟨habs, hbits⟩ := h
  have hlt : message.length % 64 < 64 := mod_lt _ (by decide)
  have hbuffer := habs.length
  have hzeros : padZeros message.length = (64 + 55 - message.length % 64) % 64 := rfl
  simp only [padInput, hbits.bytes_mod]
  generalize message.length % 64 = n at *
  have hmark : n + [(0x80 : UInt8)].length ≤ 64 := hlt
  obtain ⟨input₁, hcopy₁, hinput₁⟩ := copyIn_spec ctx.input hmark
  rw [length_singleton] at hinput₁
  rw [hcopy₁, ok_bind]
  split
  · -- no room for the length: the zeros end this block, and a block of zeros follows
    have hfill : n + 1 + (List.replicate (64 - 1 - n) (0 : UInt8)).length = 64 := by
      rw [length_replicate]
      omega
    obtain ⟨input₂, hcopy₂, hinput₂⟩ := copyIn_full input₁ hfill
    have hroom : 0 + (List.replicate 56 (0 : UInt8)).length ≤ 64 := by decide
    obtain ⟨input₃, hcopy₃, hinput₃⟩ := copyIn_spec input₂ hroom
    have hsplit : padZeros message.length = 64 - 1 - n + 56 := by omega
    have hfull := habs.full (0x80 :: .replicate (64 - 1 - n) 0) (by simp [hbuffer]; omega)
      (by decide)
    have hmore := hfull.more (.replicate 56 0) (by decide)
    rw [hcopy₂, ok_bind]
    simp only [transform_input, hcopy₃, ok_bind, pure_eq_ok]
    refine ⟨_, rfl, ?_, ?_, ?_⟩
    · have hblock : input₂.bytes = ctx.input.bytes.take n ++ 0x80 :: .replicate (64 - 1 - n) 0 := by
        rw [hinput₂, hinput₁, append_assoc, singleton_append]
      have hzero : input₃.bytes.take 56 = [] ++ .replicate 56 0 := hinput₃
      rw [marked, hsplit, ← replicate_append_replicate, transform_buf, hzero, hblock,
        ← cons_append, ← append_assoc]
      exact hmore
    · exact transform_bits0 { ctx with input := input₂ }
    · exact transform_bits1 { ctx with input := input₂ }
  · have hfit : n + 1 + (List.replicate (64 - 1 - n - 8) (0 : UInt8)).length = 56 := by
      rw [length_replicate]
      omega
    obtain ⟨input₂, hcopy₂, hinput₂⟩ := copyIn_spec input₁ (hfit.trans_le (by decide))
    have hsplit : padZeros message.length = 64 - 1 - n - 8 := by omega
    have hmore := habs.more (0x80 :: .replicate (64 - 1 - n - 8) 0) (by simp [hbuffer]; omega)
    rw [hcopy₂, ok_bind]
    refine ⟨_, rfl, ?_, rfl, rfl⟩
    rw [hfit, hinput₁, append_assoc] at hinput₂
    rw [marked, hsplit, hinput₂]
    exact hmore

theorem bufWords_bufBytes (buf : MDBuffer) : bufWords (bufBytes buf) = buf := by
  obtain ⟨a, b, c, d⟩ := buf
  have ha := leWord_append (a := []) (i := 0) (b := wordBytes b ++ wordBytes c ++ wordBytes d) rfl a
  have hb := leWord_append (i := 1) (b := wordBytes c ++ wordBytes d) (length_wordBytes a) b
  have hc := leWord_append (a := wordBytes a ++ wordBytes b) (i := 2) (b := wordBytes d) (by simp) c
  have hd := leWord_append (a := wordBytes a ++ wordBytes b ++ wordBytes c) (i := 3) (b := [])
    (by simp) d
  simp only [nil_append, append_nil, ← append_assoc] at ha hb hc hd
  rw [bufWords, bufBytes, ha, hb, hc, hd]

theorem lastBlock_eq (message : Bytes) :
    lastBlock message = afterBlocks 64 (marked message) ++ leBytes 8 (8 * message.length) := by
  have hmod := length_marked_mod message
  have hlength : (marked message ++ leBytes 8 (8 * message.length)).length - 64 =
      (marked message).length / 64 * 64 := by
    rw [length_append, length_leBytes]
    omega
  rw [lastBlock, padded, append_padding, hlength, drop_append_afterBlocks]

theorem length_lastBlock (message : Bytes) : (lastBlock message).length = 64 := by
  rw [lastBlock_eq, length_append, length_afterBlocks, length_marked_mod, length_leBytes]

theorem finalInternal_spec (h : Holds ctx message) :
    ∃ ctx', finalInternal ctx = .ok ctx' ∧ bufBytes ctx'.buf = Rfc1321.digest message ∧
      ctx'.input.bytes = lastBlock message := by
  obtain ⟨ctx₁, hpad, habs, hbits0, hbits1⟩ := padInput_spec h
  have hlo : 56 + (wordBytes ctx₁.bits0).length = 60 := by rw [length_wordBytes]
  have hhi : 60 + (wordBytes ctx₁.bits1).length = 64 := by rw [length_wordBytes]
  obtain ⟨input₂, hcopy₂, hinput₂⟩ := copyIn_spec ctx₁.input (hlo.trans_le (by decide))
  obtain ⟨input₃, hcopy₃, hinput₃⟩ := copyIn_full input₂ hhi
  have hlength : wordBytes ctx₁.bits0 ++ wordBytes ctx₁.bits1 = leBytes 8 (8 * message.length) := by
    rw [hbits0, hbits1, h.bits.wordBytes_append]
  have hblock : input₃.bytes = ctx₁.input.bytes.take 56 ++ leBytes 8 (8 * message.length) := by
    rw [hlo] at hinput₂
    rw [hinput₃, hinput₂, append_assoc, hlength]
  have hfull := habs.full (leBytes 8 (8 * message.length))
    (by rw [habs.length, length_marked_mod, length_leBytes]) (by decide)
  rw [finalInternal, hpad, ok_bind, reverseIn_eq, hcopy₂, ok_bind, hcopy₃, ok_bind]
  refine ⟨_, rfl, ?_, ?_⟩
  · rw [byteReverse_eq, bufWords_bufBytes, md5Transform_eq, hblock, hfull.state, ← append_padding]
    rfl
  · rw [lastBlock_eq, ← habs.buffer]
    exact hblock

@[simp] theorem length_bufBytes (buf : MDBuffer) : (bufBytes buf).length = 16 := by
  simp [bufBytes]

theorem length_digest (message : Bytes) : (Rfc1321.digest message).length = 16 := length_bufBytes _

theorem final_spec (h : Holds ctx message) : final ctx = .ok (Rfc1321.digest message) := by
  obtain ⟨ctx', hrun, hdigest, -⟩ := finalInternal_spec h
  rw [final, hrun, ok_bind, pure_eq_ok, take_of_length_le (length_bufBytes _).le, hdigest]

/-- `Final(void*)` writes the digest of RFC 1321, however the message was cut into pieces. -/
theorem final_eq_digest (input : Buffer 64) (pieces : List Bytes)
    (h : ∀ sp ∈ pieces, sp.length < 2 ^ 32) :
    (updates input pieces >>= final) = .ok (Rfc1321.digest pieces.flatten) := by
  obtain ⟨ctx, hrun, hctx⟩ := updates_spec input pieces
  have htaken : pieces.map taken = pieces :=
    (map_congr_left fun sp hsp => taken_of_lt (h sp hsp)).trans (map_id' _)
  rw [hrun, ok_bind, final_spec hctx, htaken]

theorem final_eq_digest_pieces :
    (∀ sp ∈ [ascii "message ", [], ascii "digest"], sp.length < 2 ^ 32) ∧
      (updates ⟨.replicate 64 0, rfl⟩ [ascii "message ", [], ascii "digest"] >>= final) =
        .ok (Rfc1321.digest (ascii "message digest")) :=
  have hshort : ∀ sp ∈ [ascii "message ", [], ascii "digest"], sp.length < 2 ^ 32 := by decide
  ⟨hshort, final_eq_digest _ _ hshort⟩

/-! ## The number -/

def halves (bytes : Bytes) : UInt64 × UInt64 :=
  (.ofNat (leNat (bytes.take 8)), .ofNat (leNat ((bytes.drop 8).take 8)))

theorem final128_spec (h : Holds ctx message) :
    final128 ctx = .ok ((halves (Rfc1321.digest message)).1, (halves (lastBlock message)).2) := by
  obtain ⟨ctx', hrun, hdigest, hinput⟩ := finalInternal_spec h
  have htop : ctx'.memory.take 8 = (Rfc1321.digest message).take 8 := by
    rw [memory, append_assoc, append_assoc, ← hdigest,
      take_append_of_le_length (by rw [length_bufBytes]; decide)]
  -- eight words behind the start lie the 16 bytes of the digest, the two words of the count, and
  -- the first eight bytes of the array
  have hbottom : (ctx'.memory.drop (8 * 4)).take 8 = ((lastBlock message).drop 8).take 8 := by
    have hlength : (bufBytes ctx'.buf ++ wordBytes ctx'.bits0 ++ wordBytes ctx'.bits1).length =
        24 := by
      rw [length_append, length_append, length_bufBytes, length_wordBytes, length_wordBytes]
    rw [memory, ← hinput, show 8 * 4 = 24 + 8 from rfl, ← drop_drop, drop_left' hlength]
  rw [final128, hrun, ok_bind, htop, hbottom]
  rfl

theorem leNat_inj {a b : Bytes} (hlength : a.length = b.length) (h : leNat a = leNat b) :
    a = b := by
  rw [← leBytes_leNat a, ← leBytes_leNat b, hlength, h]

theorem ofNat_leNat_inj {a b : Bytes} (ha : a.length = 8) (hb : b.length = 8)
    (h : UInt64.ofNat (leNat a) = UInt64.ofNat (leNat b)) : a = b := by
  have hlt {c : Bytes} (hc : c.length = 8) : leNat c < 2 ^ 64 := by
    have := leNat_lt c
    rwa [hc] at this
  have hnat := congrArg UInt64.toNat h
  rw [UInt64.toNat_ofNat', UInt64.toNat_ofNat', mod_eq_of_lt (hlt ha),
    mod_eq_of_lt (hlt hb)] at hnat
  exact leNat_inj (ha.trans hb.symm) hnat

theorem digest_eq (input : Buffer 64) (sp : Bytes) :
    digest input sp = (updates input [sp] >>= final128) := by
  obtain ⟨ctx, hrun, -⟩ := update_spec (init_holds input) sp
  rw [digest, updates, foldlM_cons, hrun]
  rfl

/-- `Final()`, and so `Digest`, takes its second half from the last block. It is the one of the
digest exactly if these bytes are the same. -/
theorem final128_eq_halves_iff (input : Buffer 64) (pieces : List Bytes) :
    let message := (pieces.map taken).flatten
    (∀ sp, digest input sp = (updates input [sp] >>= final128)) ∧
    (updates input pieces >>= final128) =
        .ok ((halves (Rfc1321.digest message)).1, (halves (lastBlock message)).2) ∧
      ((∃ bytes, (updates input pieces >>= final) = .ok bytes ∧
          (updates input pieces >>= final128) = .ok (halves bytes)) ↔
        ((lastBlock message).drop 8).take 8 = ((Rfc1321.digest message).drop 8).take 8) := by
  intro message
  obtain ⟨ctx, hrun, hctx⟩ := updates_spec input pieces
  rw [hrun, ok_bind, ok_bind, final_spec hctx, final128_spec hctx]
  refine ⟨digest_eq input, rfl, ?_⟩
  constructor
  · rintro ⟨bytes, hbytes, hhalves⟩
    have hlast := length_lastBlock message
    have hdigest := length_digest message
    rw [← Except.ok.inj hbytes] at hhalves
    apply ofNat_leNat_inj
    · rw [length_take, length_drop, hlast]
      rfl
    · rw [length_take, length_drop]
      rfl
    · exact congrArg Prod.snd (Except.ok.inj hhalves)
  · intro h
    refine ⟨_, rfl, ?_⟩
    rw [halves, halves, h]

/-- The second half of the digest of the empty string is not zero, but the bytes 8 to 15 of its only
block are. -/
theorem digest_nil_ne :
    (updates ⟨.replicate 64 0, rfl⟩ [[]] >>= final) =
        .ok [0xd4, 0x1d, 0x8c, 0xd9, 0x8f, 0x00, 0xb2, 0x04,
          0xe9, 0x80, 0x09, 0x98, 0xec, 0xf8, 0x42, 0x7e] ∧
      digest ⟨.replicate 64 0, rfl⟩ [] = .ok (0x04b2008fd98c1dd4, 0) ∧
      (halves [0xd4, 0x1d, 0x8c, 0xd9, 0x8f, 0x00, 0xb2, 0x04,
        0xe9, 0x80, 0x09, 0x98, 0xec, 0xf8, 0x42, 0x7e]).2 = 0x7e42f8ec980980e9 := by
  decide +kernel

end Toft.MD5
