import Toft.Crypto.Hash.Fips180
import Toft.Crypto.Hash.Sha1

/-!
# SHA1 and FIPS 180

`SHA1Transform` keeps the last sixteen words of the message schedule in the block, the word `t` at
the index `t` modulo 16 (`Window`). So it is the processing of one block of FIPS 180, and it leaves
the words 64 to 79 in the block (`sha1Transform_eq`). A context holds a message if its state is the
one behind the full blocks, the array starts with the bytes behind them, and the two words `count`
count the bits (`Holds`). `Update` adds what it is given to the message (`update_spec`), and the end
pads it with calls of `Update` (`finalInternal_spec`).
-/

namespace Toft.SHA1

open Lib Fips180 List Context Nat

/-! ## The functions of the steps -/

theorem rol_eq (x : UInt32) {s : Nat} (h : 0 < s) (h' : s < 32) : rol x (.ofNat s) = rotl x s :=
  shift_or_shift x h h'

theorem ch_eq (w x y : UInt32) : (w &&& (x ^^^ y)) ^^^ y = Ch w x y := by
  have hbit : ∀ w x y : Bool, ((w && (x ^^ y)) ^^ y) = ((w && x) ^^ (!w && y)) := by decide
  apply UInt32.toBitVec_inj.mp
  apply BitVec.eq_of_getLsbD_eq
  intro i hi
  simp only [Ch, UInt32.toBitVec_xor, UInt32.toBitVec_and, UInt32.toBitVec_not, BitVec.getLsbD_xor,
    BitVec.getLsbD_and, BitVec.getLsbD_not, hi, decide_true, Bool.true_and]
  apply hbit

theorem maj_eq (w x y : UInt32) : ((w ||| x) &&& y) ||| (w &&& x) = Maj w x y := by
  have hbit : ∀ w x y : Bool,
      ((w || x) && y || w && x) = ((w && x) ^^ (w && y) ^^ (x && y)) := by decide
  apply UInt32.toBitVec_inj.mp
  apply BitVec.eq_of_getLsbD_eq
  intro i hi
  simp only [Maj, UInt32.toBitVec_xor, UInt32.toBitVec_and, UInt32.toBitVec_or, BitVec.getLsbD_xor,
    BitVec.getLsbD_and, BitVec.getLsbD_or]
  apply hbit

/-! ## The schedule in the block -/

/-- The words of the block before line `t`: the last sixteen words of the schedule, and from `t` on
those of the block as it was. -/
structure Window (block : Bytes) (t : Nat) (l : Words) : Prop where
  length : l.length = 16
  done : ∀ s, s < t → t ≤ s + 16 → l.getD (s % 16) 0 = W block s
  left : ∀ s, t ≤ s → s < 16 → l.getD s 0 = leWord block s

namespace Window

variable {block : Bytes} {t : Nat} {l : Words}

theorem start (block : Bytes) : Window block 0 (words block) where
  length := by rw [words, length_map, length_range]
  done s hs _ := absurd hs (not_lt_zero s)
  left s _ hs := by
    rw [words, getD_eq_getElem?_getD, getElem?_map, getElem?_range hs]
    rfl

theorem getD_set (l : Words) {i : Nat} (h : i < l.length) (x : UInt32) (j : Nat) :
    (l.set i x).getD j 0 = if i = j then x else l.getD j 0 := by
  rw [getD_eq_getElem?_getD, getElem?_set]
  split_ifs <;> rfl

theorem set (h : Window block t l) : Window block (t + 1) (l.set (t % 16) (W block t)) := by
  have hindex : t % 16 < l.length := by
    rw [h.length]
    exact mod_lt _ (by decide)
  refine ⟨by rw [length_set, h.length], ?_, ?_⟩
  · intro s hs hs'
    rw [getD_set l hindex]
    obtain hlt | rfl := Nat.lt_succ_iff_lt_or_eq.mp hs
    · rw [if_neg (by omega)]
      exact h.done s hlt (by omega)
    · rw [if_pos rfl]
  · intro s hs hs'
    rw [getD_set l hindex, if_neg (by omega)]
    exact h.left s (by omega) hs'

theorem blk0_eq (h : Window block t l) (hblock : block.length = 64) (ht : t < 16) :
    blk0 l t = (W block t, l.set (t % 16) (W block t)) := by
  have hword : (rol (l.getD t 0) 24 &&& 0xFF00FF00) ||| (rol (l.getD t 0) 8 &&& 0x00FF00FF) =
      W block t := by
    rw [h.left t (le_refl t) ht, W_of_lt block ht, ← swapWord_leWord (by omega)]
    rfl
  rw [blk0, hword, mod_eq_of_lt ht]

theorem blk_eq (h : Window block t l) (ht : 16 ≤ t) :
    blk l t = (W block t, l.set (t % 16) (W block t)) := by
  have hand (n : Nat) : n &&& 15 = n % 16 := and_two_pow_sub_one_eq_mod n 4
  have h₃ : l.getD ((t + 13) % 16) 0 = W block (t - 3) := by
    rw [show (t + 13) % 16 = (t - 3) % 16 by omega]
    exact h.done (t - 3) (by omega) (by omega)
  have h₈ : l.getD ((t + 8) % 16) 0 = W block (t - 8) := by
    rw [show (t + 8) % 16 = (t - 8) % 16 by omega]
    exact h.done (t - 8) (by omega) (by omega)
  have h₁₄ : l.getD ((t + 2) % 16) 0 = W block (t - 14) := by
    rw [show (t + 2) % 16 = (t - 14) % 16 by omega]
    exact h.done (t - 14) (by omega) (by omega)
  have h₁₆ : l.getD (t % 16) 0 = W block (t - 16) := by
    rw [show t % 16 = (t - 16) % 16 by omega]
    exact h.done (t - 16) (by omega) (by omega)
  have hword :
      rol (W block (t - 3) ^^^ W block (t - 8) ^^^ W block (t - 14) ^^^ W block (t - 16)) 1 =
      W block t := by
    rw [W_of_ge block ht]
    exact rol_eq _ (by decide) (by decide)
  rw [blk]
  simp only [hand, h₃, h₈, h₁₄, h₁₆, hword]

end Window

/-! ## The lines -/

theorem R_eq {g : UInt32 → UInt32 → UInt32 → UInt32} {expand : Words → Nat → UInt32 × Words}
    {k w : UInt32} {t : Nat} {l l' : Words} (hg : g = f t) (hk : k = K t)
    (hexpand : expand l t = (w, l')) (s : State) : R g expand k t (s, l) = (step t w s, l') := by
  obtain ⟨a, b, c, d, e⟩ := s
  have h₅ : rol a 5 = rotl a 5 := rol_eq a (by decide) (by decide)
  have h₃₀ : rol b 30 = rotl b 30 := rol_eq b (by decide) (by decide)
  simp only [R, step, hexpand, h₅, h₃₀, hg, hk]
  congr 2
  ac_rfl

variable {block : Bytes}

theorem line_eq {t : Nat} {l : Words} (h : Window block t l)
    (hblock : block.length = 64) (ht : t < 80) (s : State) :
    line t (s, l) = (step t (W block t) s, l.set (t % 16) (W block t)) := by
  have hch : (fun w x y : UInt32 => (w &&& (x ^^^ y)) ^^^ y) = Ch := by
    funext w x y
    exact ch_eq w x y
  have hmaj : (fun w x y : UInt32 => ((w ||| x) &&& y) ||| (w &&& x)) = Maj := by
    funext w x y
    exact maj_eq w x y
  rw [line]
  split_ifs with h₁₆ h₂₀ h₄₀ h₆₀
  · exact R_eq (by rw [hch, f, if_pos (by omega)]) (by rw [K, if_pos (by omega)])
      (h.blk0_eq hblock h₁₆) s
  · exact R_eq (by rw [hch, f, if_pos h₂₀]) (by rw [K, if_pos h₂₀]) (h.blk_eq (by omega)) s
  · exact R_eq (by rw [f, if_neg h₂₀, if_pos h₄₀]; rfl) (by rw [K, if_neg h₂₀, if_pos h₄₀])
      (h.blk_eq (by omega)) s
  · exact R_eq (by rw [hmaj, f, if_neg h₂₀, if_neg h₄₀, if_pos h₆₀])
      (by rw [K, if_neg h₂₀, if_neg h₄₀, if_pos h₆₀]) (h.blk_eq (by omega)) s
  · exact R_eq (by rw [f, if_neg h₂₀, if_neg h₄₀, if_neg h₆₀]; rfl)
      (by rw [K, if_neg h₂₀, if_neg h₄₀, if_neg h₆₀]) (h.blk_eq (by omega)) s

variable {n : Nat}

theorem lines_spec (hblock : block.length = 64) (s : State) (hn : n ≤ 80) :
    ∃ l, lines n (s, words block) = (steps block n s, l) ∧ Window block n l := by
  induction n with
  | zero => exact ⟨words block, rfl, .start block⟩
  | succ n ih =>
    obtain ⟨l, hlines, hl⟩ := ih (by omega)
    refine ⟨l.set (n % 16) (W block n), ?_, hl.set⟩
    rw [steps_succ, ← line_eq hl hblock (by omega), ← hlines, lines, range_succ,
      foldl_append]
    rfl

/-- What `SHA1Transform` leaves of a block: the words 64 to 79 of the schedule. -/
def expanded (block : Bytes) : Bytes :=
  ((range 16).map fun j => W block (64 + j)).flatMap wordBytes

@[simp] theorem length_expanded (block : Bytes) : (expanded block).length = 64 := by
  rw [expanded, length_flatMap_wordBytes, length_map, length_range]

theorem Window.words_eq {l : Words} (h : Window block 80 l) :
    l = (range 16).map fun j => W block (64 + j) := by
  apply ext_getElem
  · rw [h.length, length_map, length_range]
  · intro j hj hj'
    have hlt : j < 16 := h.length ▸ hj
    have hdone := h.done (64 + j) (by omega) (by omega)
    rw [show (64 + j) % 16 = j by omega, getD_eq_getElem _ _ hj] at hdone
    rw [hdone, getElem_map, getElem_range]

theorem addBack_eq (state : State) (block : Bytes) :
    addBack state (steps block 80 state) = processBlock state block := by
  obtain ⟨s₀, s₁, s₂, s₃, s₄⟩ := state
  rw [processBlock]
  generalize steps block 80 (s₀, s₁, s₂, s₃, s₄) = s
  obtain ⟨a, b, c, d, e⟩ := s
  simp only [addBack, UInt32.add_comm]

theorem sha1Transform_eq (state : State) (h : block.length = 64) :
    sha1Transform state block = (processBlock state block, expanded block) := by
  obtain ⟨l, hlines, hl⟩ := lines_spec h state (le_refl 80)
  rw [sha1Transform, hlines]
  simp only [addBack_eq, hl.words_eq]
  rfl

/-! ## The message of a context -/

/-- The context is one behind the message. -/
structure Holds (ctx : Context) (message : Bytes) : Prop where
  absorbed : Absorbed processBlock 64 Fips180.init message ctx.state
    (ctx.buffer.bytes.take (message.length % 64))
  bits : BitCount ctx.count0 ctx.count1 message.length

theorem init_holds (buffer : Buffer 64) : Holds (.init buffer) [] where
  absorbed := .start (by decide)
  bits := bitCount_zero

theorem updateBlocks_eq (fuel : Nat) (state : State) (data : Bytes) {i : Nat} (hi : i ≤ data.length)
    (hfuel : data.length < i + fuel) :
    ∃ i', updateBlocks fuel state data i =
        .ok ((blocks 64 (data.drop i)).foldl processBlock state,
          data.take i ++ (blocks 64 (data.drop i)).flatMap expanded ++
            afterBlocks 64 (data.drop i), i') ∧
      i' = (data.take i ++ (blocks 64 (data.drop i)).flatMap expanded).length := by
  induction fuel generalizing state data i with
  | zero => omega
  | succ fuel ih =>
    rw [updateBlocks]
    split
    · rename_i hmore
      have hle : 64 ≤ (data.drop i).length := by
        rw [length_drop]
        omega
      have hblock : ((data.drop i).take 64).length = 64 := length_take_of_le hle
      have hfront : (data.take i ++ expanded ((data.drop i).take 64)).length = i + 64 := by
        rw [length_append, length_expanded, length_take_of_le hi]
      obtain ⟨hblocks, hafter⟩ := blocks_of_le (by decide : 0 < 64) hle
      rw [sha1Transform_eq state hblock, hblocks, hafter]
      dsimp only
      generalize hnew : data.take i ++ expanded ((data.drop i).take 64) ++ data.drop (i + 64) = new
      have hdrop : new.drop (i + 64) = (data.drop i).drop 64 := by
        rw [← hnew, drop_left' hfront, drop_drop]
      have htake : new.take (i + 64) = data.take i ++ expanded ((data.drop i).take 64) := by
        rw [← hnew, take_left' hfront]
      have hlength : new.length = data.length := by
        rw [← hnew, length_append, length_drop]
        omega
      obtain ⟨i', hrun, hi'⟩ := ih (processBlock state ((data.drop i).take 64)) new
        (i := i + 64) (by omega) (by omega)
      refine ⟨i', ?_, ?_⟩
      · rw [hrun, hdrop, htake, foldl_cons, flatMap_cons, append_assoc (data.take i)]
      · rw [hi', hdrop, htake, flatMap_cons, append_assoc (data.take i)]
    · rename_i hlast
      have hlt : (data.drop i).length < 64 := by
        rw [length_drop]
        omega
      refine ⟨i, ?_, ?_⟩
      · rw [blocks_of_lt hlt, afterBlocks_of_lt hlt, flatMap_nil, append_nil, take_append_drop]
        rfl
      · rw [blocks_of_lt hlt, flatMap_nil, append_nil, length_take_of_le hi]

variable {ctx : Context}

theorem count_spec (h : BitCount ctx.count0 ctx.count1 n) (len : Nat) :
    BitCount (ctx.count len).count0 (ctx.count len).count1 (n + len) := by
  have hbits : len <<< 3 = 8 * len := by rw [shiftLeft_eq, mul_comm]
  have hadd := h.add len
  simp only [Context.count, hbits, shiftRight_eq_div_pow, BitCount.lt_add_iff]
  exact hadd

/-! ## The data of the caller -/

/-- The blocks of the data that are not copied before they are transformed, with `index` bytes in
the array. -/
def inPlace (index : Nat) (data : Bytes) : List Bytes := blocks 64 (data.drop (64 - index))

/-- The data as `Update` leaves them. -/
def leftOf (index : Nat) (data : Bytes) : Bytes :=
  data.take (64 - index) ++ (inPlace index data).flatMap expanded ++
    afterBlocks 64 (data.drop (64 - index))

theorem leftOf_of_lt {index : Nat} {data : Bytes} (h : index + data.length ≤ 63) :
    leftOf index data = data := by
  have hdrop : data.drop (64 - index) = [] := drop_of_length_le (by omega)
  rw [leftOf, inPlace, hdrop, take_of_length_le (by omega), blocks_of_lt (by decide),
    afterBlocks_of_lt (by decide), flatMap_nil, append_nil, append_nil]

@[simp] theorem transform_state (ctx : Context) :
    ctx.transform.state = processBlock ctx.state ctx.buffer.bytes := by
  rw [transform]
  simp only [sha1Transform_eq ctx.state ctx.buffer.length_eq]

theorem Context.counts_mk (state : State) (count0 count1 : UInt32) (buffer : Buffer 64) :
    (Context.mk state count0 count1 buffer).count0 = count0 ∧
      (Context.mk state count0 count1 buffer).count1 = count1 := ⟨rfl, rfl⟩

theorem transform_counts (ctx : Context) :
    ctx.transform.count0 = ctx.count0 ∧ ctx.transform.count1 = ctx.count1 := by
  exact counts_mk _ _ _ _

theorem absorb_eq (ctx : Context) {index : Nat} (hindex : index < 64) (data : Bytes) :
    ∃ state buffer, ctx.absorb index data =
        .ok ({ ctx with state, buffer }, leftOf index data) ∧
      (index + data.length ≤ 63 → state = ctx.state ∧
        buffer.bytes.take (index + data.length) = ctx.buffer.bytes.take index ++ data) ∧
      (63 < index + data.length →
        state = (inPlace index data).foldl processBlock
          (processBlock ctx.state (ctx.buffer.bytes.take index ++ data.take (64 - index))) ∧
        buffer.bytes.take ((index + data.length) % 64) =
          afterBlocks 64 (data.drop (64 - index))) := by
  rw [absorb]
  split
  · rename_i hlong
    have hfill : index + (data.take (64 - index)).length = 64 := by
      rw [length_take]
      omega
    obtain ⟨buffer₁, hcopy₁, hbuffer₁⟩ := copyIn_full ctx.buffer hfill
    obtain ⟨i', hrun, hi'⟩ := updateBlocks_eq (data.length + 1)
      (transform { ctx with buffer := buffer₁ }).state data (i := 64 - index) (by omega)
      (by omega)
    have hrest : (leftOf index data).drop i' = afterBlocks 64 (data.drop (64 - index)) := by
      rw [hi', leftOf, inPlace, drop_left]
    have hlength : ((leftOf index data).drop i').length = (index + data.length) % 64 := by
      rw [hrest, length_afterBlocks, length_drop]
      omega
    have hfit : 0 + ((leftOf index data).drop i').length ≤ 64 := by
      omega
    obtain ⟨buffer₂, hcopy₂, hbuffer₂⟩ :=
      copyIn_spec (transform { ctx with buffer := buffer₁ }).buffer hfit
    refine ⟨(inPlace index data).foldl processBlock
      (transform { ctx with buffer := buffer₁ }).state, buffer₂, ?_, ?_, ?_⟩
    · rw [← inPlace, ← leftOf] at hrun
      dsimp only
      rw [hcopy₁, ok_bind, hrun, ok_bind]
      rw [hcopy₂, ok_bind, pure_eq_ok, (transform_counts _).1, (transform_counts _).2]
    · intro hshort
      omega
    · intro _
      rw [zero_add, hlength, take_zero, hrest] at hbuffer₂
      refine ⟨?_, hbuffer₂⟩
      rw [transform_state, hbuffer₁]
  · rename_i hshort
    have hfit : index + data.length ≤ 64 := by omega
    obtain ⟨buffer, hcopy, hbuffer⟩ := copyIn_spec ctx.buffer hfit
    refine ⟨ctx.state, buffer, ?_, ?_, ?_⟩
    · rw [hcopy, ok_bind, pure_eq_ok, leftOf_of_lt (by omega)]
    · intro _
      exact ⟨rfl, hbuffer⟩
    · intro hlong
      omega

def Context.index (ctx : Context) : Nat := (ctx.count0 >>> 3 &&& 63).toNat

theorem Context.index_lt (ctx : Context) : ctx.index < 64 := by
  have hle : ctx.index ≤ 63 := by
    exact and_le_right
  omega

variable {message : Bytes}

theorem update_spec (h : Holds ctx message) (data : Bytes) :
    ∃ ctx', update ctx data = .ok (ctx', leftOf ctx.index data) ∧ Holds ctx' (message ++ data) := by
  obtain ⟨state, buffer, hrun, hshort, hlong⟩ := absorb_eq (ctx.count data.length) ctx.index_lt data
  have hindex : ctx.index = message.length % 64 := h.bits.bytes_mod
  have hbuffer := h.absorbed.length
  have hbits := count_spec h.bits data.length
  have habs := h.absorbed
  rw [← length_append] at hbits
  rw [← hindex] at habs hbuffer
  refine ⟨_, hrun, ?_, hbits⟩
  have hmod : (message ++ data).length % 64 = (ctx.index + data.length) % 64 := by
    rw [length_append]
    omega
  rw [hmod]
  by_cases hfit : ctx.index + data.length ≤ 63
  · obtain ⟨hstate, htake⟩ := hshort hfit
    rw [mod_eq_of_lt (by omega), hstate, htake]
    exact habs.more data (by rw [hbuffer]; omega)
  · obtain ⟨hstate, htake⟩ := hlong (by omega)
    have hfill : ctx.index + (data.take (64 - ctx.index)).length = 64 := by
      rw [length_take]
      omega
    have hfull := habs.full (data.take (64 - ctx.index)) (by rw [hbuffer]; exact hfill) (by decide)
    have hrest := hfull.rest (data.drop (64 - ctx.index)) (by decide)
    rw [append_assoc, take_append_drop] at hrest
    rw [hstate, htake]
    exact hrest

theorem feed_spec (h : Holds ctx message) (data : Bytes) :
    ∃ ctx', feed ctx data = .ok ctx' ∧ Holds ctx' (message ++ data) := by
  obtain ⟨ctx', hrun, h'⟩ := update_spec h data
  refine ⟨ctx', ?_, h'⟩
  rw [feed, hrun]
  rfl

theorem updates_spec (buffer : Buffer 64) (pieces : List Bytes) :
    ∃ ctx, updates buffer pieces = .ok ctx ∧ Holds ctx pieces.flatten := by
  suffices hrun : ∀ (pieces : List Bytes) {ctx : Context} {message : Bytes}, Holds ctx message →
      ∃ ctx', pieces.foldlM feed ctx = .ok ctx' ∧ Holds ctx' (message ++ pieces.flatten) from
    hrun pieces (init_holds buffer)
  intro pieces
  induction pieces with
  | nil =>
    intro ctx message h
    exact ⟨ctx, rfl, by simpa using h⟩
  | cons sp pieces ih =>
    intro ctx message h
    obtain ⟨ctx₁, hfeed, h₁⟩ := feed_spec h sp
    obtain ⟨ctx', hrun, h'⟩ := ih h₁
    refine ⟨ctx', ?_, by simpa using h'⟩
    rw [foldlM_cons, hfeed, ok_bind, hrun]

/-! ## The end -/

theorem count0_and {lo hi : UInt32} (h : BitCount lo hi n) : lo &&& 504 = 448 ↔ n % 64 = 56 := by
  have hlo : lo.toNat = (n % 2 ^ 29) <<< 3 := by
    rw [h.lo]
    omega
  have hmask : (lo &&& 504).toNat = 8 * (n % 64) := by
    calc (lo &&& 504).toNat = (n % 2 ^ 29) <<< 3 &&& 63 <<< 3 := by rw [UInt32.toNat_and, hlo]; rfl
      _ = (n % 2 ^ 29 &&& 63) <<< 3 := (shiftLeft_and_distrib ..).symm
      _ = (n % 2 ^ 29 % 64) <<< 3 := congrArg (· <<< 3) (and_two_pow_sub_one_eq_mod _ 6)
      _ = 8 * (n % 64) := by rw [shiftLeft_eq]; omega
  rw [← UInt32.toNat_inj, show (448 : UInt32).toNat = 8 * 56 from rfl]
  omega

theorem padLoop_spec {fuel : Nat} (h : Holds ctx message) {k : Nat}
    (hk : k < 64) (hend : (message.length + k) % 64 = 56) (hfuel : k < fuel) :
    ∃ ctx', padLoop fuel ctx = .ok ctx' ∧ Holds ctx' (message ++ .replicate k 0) := by
  induction k generalizing fuel ctx message with
  | zero =>
    obtain ⟨fuel, rfl⟩ := exists_eq_succ_of_ne_zero (by omega : fuel ≠ 0)
    refine ⟨ctx, ?_, by simpa using h⟩
    rw [padLoop, if_neg (not_not.mpr ((count0_and h.bits).mpr hend))]
  | succ k ih =>
    obtain ⟨fuel, rfl⟩ := exists_eq_succ_of_ne_zero (by omega : fuel ≠ 0)
    have hmore : ctx.count0 &&& 504 ≠ 448 := by
      rw [ne_eq, count0_and h.bits]
      omega
    obtain ⟨ctx₁, hfeed, h₁⟩ := feed_spec h [0]
    have hend₁ : ((message ++ [(0 : UInt8)]).length + k) % 64 = 56 := by
      rw [length_append, length_singleton]
      omega
    obtain ⟨ctx', hrun, h'⟩ := ih h₁ (by omega) hend₁ (by omega : k < fuel)
    refine ⟨ctx', ?_, ?_⟩
    · rw [padLoop, if_pos hmore, hfeed, ok_bind, hrun]
    · rwa [append_assoc, singleton_append] at h'

theorem finalcount_eq (h : BitCount ctx.count0 ctx.count1 n) :
    ctx.finalcount = lengthBytes (8 * n) := by
  have hwords : ctx.finalcount = beWordBytes ctx.count1 ++ beWordBytes ctx.count0 := by
    rw [beWordBytes_eq, beWordBytes_eq]
    rfl
  rw [hwords, lengthBytes, ← h.wordBytes_append]
  rfl

theorem stateBytes_eq (a b c d e : UInt32) :
    stateBytes [a, b, c, d, e] = output (a, b, c, d, e) := by
  rw [output, beWordBytes_eq, beWordBytes_eq, beWordBytes_eq, beWordBytes_eq, beWordBytes_eq]
  rfl

theorem finalInternal_spec (h : Holds ctx message) :
    ∃ ctx', finalInternal ctx = .ok ctx' ∧ Holds ctx' (padded message) := by
  have hzeros : padZeros message.length < 64 := mod_lt _ (by decide)
  obtain ⟨ctx₁, hmark, h₁⟩ := feed_spec h [0x80]
  have hend : ((message ++ [(0x80 : UInt8)]).length + padZeros message.length) % 64 = 56 := by
    rw [length_append]
    exact padZeros_mod message.length
  obtain ⟨ctx₂, hloop, h₂⟩ := padLoop_spec h₁ hzeros hend (lt_of_lt_of_le hzeros (le_refl 64))
  obtain ⟨ctx₃, hlength, h₃⟩ := feed_spec h₂ ctx.finalcount
  refine ⟨ctx₃, ?_, ?_⟩
  · rw [finalInternal, hmark, ok_bind, hloop, ok_bind, hlength]
  · rw [finalcount_eq h.bits, append_assoc message] at h₃
    rwa [padded, append_padding]

theorem final_spec (h : Holds ctx message) : final ctx = .ok (Fips180.digest message) := by
  obtain ⟨ctx', hrun, h'⟩ := finalInternal_spec h
  have hstate := h'.absorbed.state
  rw [final, hrun, ok_bind, Fips180.digest, ← hstate]
  obtain ⟨⟨a, b, c, d, e⟩, count0, count1, buffer⟩ := ctx'
  dsimp only
  rw [stateBytes_eq, pure_eq_ok]

/-- `Final` writes the digest of FIPS 180, however the message was cut into pieces. -/
theorem final_eq_sha1 (buffer : Buffer 64) (pieces : List Bytes) :
    (updates buffer pieces >>= final) = .ok (Fips180.digest pieces.flatten) := by
  obtain ⟨ctx, hrun, hctx⟩ := updates_spec buffer pieces
  rw [hrun, ok_bind, final_spec hctx]

end Toft.SHA1
