import Toft.Base.UInt32Divisor
import Toft.Lib.Bitmap
import Toft.Lib.Word32

/-!
# The Bloom filter

`BloomFilter` sets or tests a bit for each of its hash functions. Four of them share a digest, and
the next digest is taken from the one before. All three calls visit the same bits of a key
(`probes`), so a key that was inserted is found (`Covers`). `InsertUnique` counts in 32 bits the
bits that it finds set, and compares with the number of hash functions, which has 64.
-/

namespace Toft

open Lib List Nat

/-- The members of `BloomFilter`. -/
structure BloomFilter where
  numHashFunctions : Nat
  bitmap : Bytes
  numBits : Nat
  divisor : UInt32Divisor

namespace BloomFilter

/-! ## Construction -/

/-- `UncheckedInitialize` with a bitmap. -/
def uncheckedInitialize (bitmap : Bytes) (numHashes : Nat) : Except Fault BloomFilter := do
  let numBits := uint64 (bitmap.length * 8)
  let (found, divisor) ← ({} : UInt32Divisor).setValue (uint32 numBits)
  if found then
    return ⟨numHashes, bitmap, numBits, divisor⟩
  else .error .fatal

/-- `CheckBitmapSize`: whether it does not throw. -/
def checkBitmapSize (byteSize : Nat) : Bool := uint64 (byteSize * 8) < 0xffffffff

/-- How a filter is made: with a size, or with a bitmap that is there. -/
inductive Construction where
  | size (bitmapByteSize numHashes : Nat)
  | given (bitmap : Bytes) (numHashes : Nat)

def Construction.byteSize : Construction → Nat
  | .size bitmapByteSize _ => bitmapByteSize
  | .given bitmap _ => bitmap.length

/-- The constructors behind the check. With a bitmap the number of hash functions goes through an
`int`. -/
def Construction.unchecked : Construction → Except Fault BloomFilter
  | .size bitmapByteSize numHashes =>
    uncheckedInitialize (List.replicate bitmapByteSize 0) numHashes
  | .given bitmap numHashes => uncheckedInitialize bitmap (uint64 (int32 numHashes))

/-- The constructors, none if they throw. -/
def construct (c : Construction) : Except Fault (Option BloomFilter) :=
  if checkBitmapSize c.byteSize then some <$> c.unchecked else .ok none

/-! ## The probes of a key -/

abbrev Digest := Fin 4 → UInt32

def digestBytes (digest : Digest) : Bytes := (List.finRange 4).flatMap fun i => wordBytes (digest i)

section Calls

-- `MurmurHash3_x86_128` of a key and a seed
variable (hash : Bytes → Nat → Digest)

def nextDigest (key : Bytes) (i : Nat) (digest : Digest) : Digest :=
  if i % 4 = 0 then
    if i ≠ 0 then hash (digestBytes digest) (uint32 i) else hash key 0
  else digest

/-- The bit for the hash function `i`, with the assertion on it. -/
def bitIndex (f : BloomFilter) (digest : Digest) (i : Nat) : Except Fault Nat := do
  let word := (digest (Fin.ofNat 4 i)).toNat
  let bitIndex ← f.divisor.modulu word
  if bitIndex = word % f.numBits then return bitIndex else .error .fatal

variable {σ : Type}

/-- The loop of the three calls. A visit that gives nothing ends it. -/
def probeLoop (f : BloomFilter) (key : Bytes) (visit : Nat → σ → Except Fault (Option σ)) :
    Nat → Nat → Digest → σ → Except Fault (Option σ)
  | 0, _, _, s => .ok (some s)
  | rounds + 1, i, digest, s => do
    let digest := nextDigest hash key i digest
    let bitIndex ← f.bitIndex digest i
    match ← visit bitIndex s with
    | none => return none
    | some s => probeLoop f key visit rounds (i + 1) digest s

/-- The loop over all hash functions. The first round sets the digest. -/
def probe (f : BloomFilter) (key : Bytes) (visit : Nat → σ → Except Fault (Option σ)) (s : σ) :
    Except Fault (Option σ) :=
  probeLoop hash f key visit f.numHashFunctions 0 (fun _ => 0) s

/-- `m_bitmap[bit_index / CHAR_BIT] |= ...` -/
def visitInsert (bitIndex : Nat) (bitmap : Bytes) : Except Fault (Option Bytes) :=
  if bitIndex / 8 < bitmap.length then .ok (some (setBit bitmap bitIndex)) else .error .overrun

/-- `x86_test_and_set_bit`, whose bit is an `int`: the old value and the new bitmap. Its `btsl`
reads and writes the 32-bit word of the bit, whose other bits it keeps; the access counts as one to
the byte of the bit here. -/
def testAndSetBit (nr : Int) (bitmap : Bytes) : Except Fault (Bool × Bytes) :=
  if 0 ≤ nr ∧ nr.toNat / 8 < bitmap.length then
    .ok (hasBit bitmap nr.toNat, setBit bitmap nr.toNat)
  else .error .overrun

/-- A round of `InsertUnique`, with `exist_count`. -/
def visitUnique (bitIndex : Nat) (s : Bytes × Nat) : Except Fault (Option (Bytes × Nat)) := do
  let (old, bitmap) ← testAndSetBit (int32 bitIndex) s.1
  return some (bitmap, uint32 (s.2 + old.toNat))

def visitContain (bitmap : Bytes) (bitIndex : Nat) (_ : Unit) : Except Fault (Option Unit) :=
  if bitIndex / 8 < bitmap.length then
    .ok (if hasBit bitmap bitIndex then some () else none)
  else .error .overrun

def insert (f : BloomFilter) (key : Bytes) : Except Fault BloomFilter := do
  let bitmap ← f.probe hash key visitInsert f.bitmap
  return { f with bitmap := bitmap.getD f.bitmap }

def insertUnique (f : BloomFilter) (key : Bytes) : Except Fault (Bool × BloomFilter) := do
  let s ← f.probe hash key visitUnique (f.bitmap, 0)
  let (bitmap, existCount) := s.getD (f.bitmap, 0)
  return (existCount < f.numHashFunctions, { f with bitmap := bitmap })

def mayContain (f : BloomFilter) (key : Bytes) : Except Fault Bool := do
  let found ← f.probe hash key (visitContain f.bitmap) ()
  return found.isSome

end Calls

def memorySize (f : BloomFilter) : Nat := (f.numBits + 7) / 8

def clear (f : BloomFilter) : Except Fault BloomFilter :=
  if f.memorySize ≤ f.bitmap.length then
    .ok { f with bitmap := List.replicate f.memorySize 0 ++ f.bitmap.drop f.memorySize }
  else .error .overrun

/-! ## Runs -/

/-- The calls that change a filter. -/
inductive Op where
  | insert (key : Bytes)
  | insertUnique (key : Bytes)
  | clear

def step (hash : Bytes → Nat → Digest) (f : BloomFilter) : Op → Except Fault BloomFilter
  | .insert key => f.insert hash key
  | .insertUnique key => Prod.snd <$> f.insertUnique hash key
  | .clear => f.clear

/-- The keys since the last `Clear`. -/
def inserted (keys : List Bytes) : Op → List Bytes
  | .insert key => key :: keys
  | .insertUnique key => key :: keys
  | .clear => []

def run (hash : Bytes → Nat → Digest) (f : BloomFilter) (ops : List Op) :
    Except Fault BloomFilter :=
  ops.foldlM (step hash) f

/-- Keys that were inserted are found, and `InsertUnique` tells whether a key was not found before
it, after every run. -/
def NoFalseNegatives (hash : Bytes → Nat → Digest) (f : BloomFilter) : Prop :=
  ∀ ops, ∃ f', f.run hash ops = .ok f' ∧
    (∀ key ∈ ops.foldl inserted [], f'.mayContain hash key = .ok true) ∧
    ∀ key, ∃ known unique after, f'.mayContain hash key = .ok known ∧
      f'.insertUnique hash key = .ok (unique, after) ∧ (unique = true ↔ known = false)

/-! ## What the calls do -/

/-- A filter that is constructed: the bits are those of the bitmap, and the divisor is their
number. -/
structure Valid (f : BloomFilter) : Prop where
  bits : f.numBits = f.bitmap.length * 8
  pos : 0 < f.numBits
  le : f.numBits ≤ 2 ^ 31
  modulu : ∀ n < 2 ^ 32, f.divisor.modulu n = .ok (n % f.numBits)

section Probes

variable (hash : Bytes → Nat → Digest) {σ : Type} {f : BloomFilter}

def indices (numBits : Nat) (key : Bytes) : Nat → Nat → Digest → List Nat
  | 0, _, _ => []
  | rounds + 1, i, digest =>
    let digest := nextDigest hash key i digest
    (digest (Fin.ofNat 4 i)).toNat % numBits :: indices numBits key rounds (i + 1) digest

def probes (f : BloomFilter) (key : Bytes) : List Nat :=
  indices hash f.numBits key f.numHashFunctions 0 fun _ => 0

/-- The visits without the digests. -/
def visitAll (visit : Nat → σ → Except Fault (Option σ)) : List Nat → σ → Except Fault (Option σ)
  | [], s => .ok (some s)
  | i :: is, s => do
    match ← visit i s with
    | none => return none
    | some s => visitAll visit is s

theorem Valid.bitIndex (h : f.Valid) (digest : Digest) (i : Nat) :
    f.bitIndex digest i = .ok ((digest (Fin.ofNat 4 i)).toNat % f.numBits) := by
  rw [BloomFilter.bitIndex, h.modulu _ (UInt32.toNat_lt _)]
  exact if_pos rfl

section

variable (h : f.Valid) (key : Bytes) (visit : Nat → σ → Except Fault (Option σ))
include h key visit

theorem Valid.probeLoop (rounds i : Nat) (digest : Digest) (s : σ) :
    f.probeLoop hash key visit rounds i digest s =
      visitAll visit (indices hash f.numBits key rounds i digest) s := by
  induction rounds generalizing i digest s with
  | zero => rfl
  | succ rounds ih =>
    rw [BloomFilter.probeLoop, h.bitIndex, ok_bind, indices]
    refine bind_congr fun s' => ?_
    cases s' with
    | none => rfl
    | some s' => exact ih _ _ s'

theorem Valid.probe (s : σ) : f.probe hash key visit s = visitAll visit (f.probes hash key) s :=
  h.probeLoop hash key visit _ _ _ s

end

theorem length_indices (numBits : Nat) (key : Bytes) (rounds i : Nat) (digest : Digest) :
    (indices hash numBits key rounds i digest).length = rounds := by
  induction rounds generalizing i digest with
  | zero => rfl
  | succ rounds ih => rw [indices, length_cons, ih]

theorem indices_lt {numBits : Nat} (h : 0 < numBits) (key : Bytes) (rounds i : Nat)
    (digest : Digest) : ∀ j ∈ indices hash numBits key rounds i digest, j < numBits := by
  induction rounds generalizing i digest with
  | zero =>
    intro j hj
    exact absurd hj not_mem_nil
  | succ rounds ih =>
    exact forall_mem_cons.mpr ⟨mod_lt _ h, ih _ _⟩

end Probes

section Visits

def foundSet : Bytes → List Nat → Nat
  | _, [] => 0
  | bitmap, i :: is => (hasBit bitmap i).toNat + foundSet (setBit bitmap i) is

variable {bitmap : Bytes} {is : List Nat}

theorem length_foldl_setBit (bitmap : Bytes) (is : List Nat) :
    (is.foldl setBit bitmap).length = bitmap.length := by
  induction is generalizing bitmap with
  | nil => rfl
  | cons i is ih => rw [foldl_cons, ih, length_setBit]

theorem hasBit_foldl_setBit (h : ∀ i ∈ is, i / 8 < bitmap.length) (j : Nat) :
    hasBit (is.foldl setBit bitmap) j ↔ hasBit bitmap j ∨ j ∈ is := by
  induction is generalizing bitmap with
  | nil => exact ⟨Or.inl, fun hbit => hbit.resolve_right not_mem_nil⟩
  | cons i is ih =>
    obtain ⟨hi, his⟩ := forall_mem_cons.mp h
    rw [foldl_cons, ih (by simpa only [length_setBit] using his), hasBit_setBit hi,
      mem_cons, or_assoc]

theorem foundSet_le (bitmap : Bytes) (is : List Nat) : foundSet bitmap is ≤ is.length := by
  induction is generalizing bitmap with
  | nil => exact le_rfl
  | cons i is ih =>
    have hle := ih (setBit bitmap i)
    have hone := Bool.toNat_le (hasBit bitmap i)
    rw [foundSet, length_cons]
    omega

section

variable (h : ∀ i ∈ is, i / 8 < bitmap.length)
include h

theorem foundSet_eq_length_iff : foundSet bitmap is = is.length ↔ ∀ i ∈ is, hasBit bitmap i := by
  induction is generalizing bitmap with
  | nil => exact iff_of_true rfl fun i hi => absurd hi not_mem_nil
  | cons i is ih =>
    obtain ⟨hi, his⟩ := forall_mem_cons.mp h
    have hle := foundSet_le (setBit bitmap i) is
    rw [foundSet, length_cons, forall_mem_cons]
    cases hbit : hasBit bitmap i with
    | false =>
      refine iff_of_false ?_ fun hall => absurd hall.1 Bool.false_ne_true
      rw [Bool.toNat_false]
      omega
    | true =>
      have hsame : ∀ j, hasBit (setBit bitmap i) j ↔ hasBit bitmap j := by
        intro j
        rw [hasBit_setBit hi]
        refine or_iff_left_of_imp ?_
        rintro rfl
        exact hbit
      rw [Bool.toNat_true, add_comm, succ_inj, ih (by simpa only [length_setBit] using his)]
      simp only [hsame, true_and]

theorem visitAll_insert : visitAll visitInsert is bitmap = .ok (some (is.foldl setBit bitmap)) := by
  induction is generalizing bitmap with
  | nil => rfl
  | cons i is ih =>
    obtain ⟨hi, his⟩ := forall_mem_cons.mp h
    rw [visitAll, visitInsert, if_pos hi]
    exact ih (by simpa only [length_setBit] using his)

theorem visitAll_contain :
    visitAll (visitContain bitmap) is () =
      .ok (if is.all (hasBit bitmap) then some () else none) := by
  induction is with
  | nil => rfl
  | cons i is ih =>
    obtain ⟨hi, his⟩ := forall_mem_cons.mp h
    rw [visitAll, visitContain, if_pos hi, all_cons]
    cases hbit : hasBit bitmap i with
    | false => rfl
    | true => exact ih his

theorem visitAll_unique (hsmall : ∀ i ∈ is, i < 2 ^ 31) (count : Nat) :
    visitAll visitUnique is (bitmap, count % 2 ^ 32) =
      .ok (some (is.foldl setBit bitmap, (count + foundSet bitmap is) % 2 ^ 32)) := by
  induction is generalizing bitmap count with
  | nil => rfl
  | cons i is ih =>
    obtain ⟨hi, his⟩ := forall_mem_cons.mp h
    obtain ⟨hilt, hislt⟩ := forall_mem_cons.mp hsmall
    have hcount : uint32 (((count % 2 ^ 32 : Nat) : Int) + ((hasBit bitmap i).toNat : Int)) =
        (count + (hasBit bitmap i).toNat) % 2 ^ 32 := by
      unfold uint32
      omega
    have hvisit : visitUnique i (bitmap, count % 2 ^ 32) =
        .ok (some (setBit bitmap i, (count + (hasBit bitmap i).toNat) % 2 ^ 32)) := by
      rw [visitUnique, int32_of_lt hilt, testAndSetBit, Int.toNat_natCast,
        if_pos ⟨Int.natCast_nonneg i, hi⟩, ok_bind]
      dsimp only
      rw [hcount]
      rfl
    rw [visitAll, hvisit, ok_bind]
    dsimp only
    rw [ih (by simpa only [length_setBit] using his) hislt, foundSet, foldl_cons,
      add_assoc]

end

end Visits

section Specs

variable (hash : Bytes → Nat → Digest) {f : BloomFilter}

theorem length_probes (f : BloomFilter) (key : Bytes) :
    (f.probes hash key).length = f.numHashFunctions := length_indices hash _ key _ _ _

theorem Valid.probes_lt (h : f.Valid) (key : Bytes) :
    ∀ i ∈ f.probes hash key, i < 2 ^ 31 ∧ i / 8 < f.bitmap.length := by
  intro i hi
  have hlt := indices_lt hash h.pos key _ _ _ i hi
  have hle := h.le
  have hbits := h.bits
  omega

def added (f : BloomFilter) (key : Bytes) : BloomFilter :=
  { f with bitmap := (f.probes hash key).foldl setBit f.bitmap }

section

variable (h : f.Valid) (key : Bytes)
include h key

theorem Valid.insert : f.insert hash key = .ok (f.added hash key) := by
  rw [BloomFilter.insert, h.probe, visitAll_insert fun i hi => (h.probes_lt hash key i hi).2]
  rfl

theorem Valid.mayContain :
    f.mayContain hash key = .ok ((f.probes hash key).all (hasBit f.bitmap)) := by
  rw [BloomFilter.mayContain, h.probe,
    visitAll_contain fun i hi => (h.probes_lt hash key i hi).2]
  cases (f.probes hash key).all (hasBit f.bitmap) <;> rfl

theorem Valid.insertUnique :
    f.insertUnique hash key = .ok
      (foundSet f.bitmap (f.probes hash key) % 2 ^ 32 < f.numHashFunctions, f.added hash key) := by
  have hvisits := visitAll_unique (fun i hi => (h.probes_lt hash key i hi).2)
    (fun i hi => (h.probes_lt hash key i hi).1) 0
  rw [zero_mod, zero_add] at hvisits
  rw [BloomFilter.insertUnique, h.probe, hvisits]
  rfl

theorem Valid.added : (f.added hash key).Valid where
  bits := by
    rw [BloomFilter.added, length_foldl_setBit]
    exact h.bits
  pos := h.pos
  le := h.le
  modulu := h.modulu

end

theorem Valid.clear (h : f.Valid) :
    ∃ f', f.clear = .ok f' ∧ f'.Valid ∧ f'.numHashFunctions = f.numHashFunctions := by
  have hbits := h.bits
  have hsize : f.memorySize ≤ f.bitmap.length := by
    unfold memorySize
    omega
  refine ⟨_, if_pos hsize, ⟨?_, h.pos, h.le, h.modulu⟩, rfl⟩
  rw [length_append, length_replicate, length_drop, Nat.add_sub_cancel' hsize]
  exact hbits

def Covers (f : BloomFilter) (keys : List Bytes) : Prop :=
  ∀ key ∈ keys, ∀ i ∈ f.probes hash key, hasBit f.bitmap i

section

variable {hash : Bytes → Nat → Digest} {keys : List Bytes} (h : f.Covers hash keys) (hf : f.Valid)
include h hf

theorem Covers.added (key : Bytes) : (f.added hash key).Covers hash (key :: keys) := by
  have hrange : ∀ i ∈ f.probes hash key, i / 8 < f.bitmap.length := fun i hi =>
    (hf.probes_lt hash key i hi).2
  refine forall_mem_cons.mpr ⟨?_, ?_⟩
  · intro i hi
    exact (hasBit_foldl_setBit hrange i).mpr (Or.inr hi)
  · intro key' hkey' i hi
    exact (hasBit_foldl_setBit hrange i).mpr (Or.inl (h key' hkey' i hi))

theorem Covers.step (op : Op) :
    ∃ f', f.step hash op = .ok f' ∧ f'.Valid ∧ f'.numHashFunctions = f.numHashFunctions ∧
      f'.Covers hash (inserted keys op) := by
  cases op with
  | insert key => exact ⟨_, hf.insert hash key, hf.added hash key, rfl, h.added hf key⟩
  | insertUnique key =>
    refine ⟨_, ?_, hf.added hash key, rfl, h.added hf key⟩
    rw [BloomFilter.step, hf.insertUnique]
    rfl
  | clear =>
    obtain ⟨f', hclear, hvalid, hsame⟩ := hf.clear
    exact ⟨f', hclear, hvalid, hsame, fun key hkey => absurd hkey not_mem_nil⟩

theorem Covers.run (ops : List Op) :
    ∃ f', f.run hash ops = .ok f' ∧ f'.Valid ∧ f'.numHashFunctions = f.numHashFunctions ∧
      f'.Covers hash (ops.foldl inserted keys) := by
  induction ops generalizing f keys with
  | nil => exact ⟨f, rfl, hf, rfl, h⟩
  | cons op ops ih =>
    obtain ⟨f₁, hstep, hf₁, hsame₁, h₁⟩ := h.step hf op
    obtain ⟨f₂, hrun, hf₂, hsame₂, h₂⟩ := ih h₁ hf₁
    refine ⟨f₂, ?_, hf₂, hsame₂.trans hsame₁, h₂⟩
    rw [BloomFilter.run, foldlM_cons, hstep]
    exact hrun

end

theorem Valid.mayContain_added (h : f.Valid) (key : Bytes) :
    (f.added hash key).mayContain hash key = .ok true := by
  have hcovers : f.Covers hash [] := fun key hkey => absurd hkey not_mem_nil
  rw [(h.added hash key).mayContain]
  exact congrArg Except.ok (all_eq_true.mpr (hcovers.added h key key mem_cons_self))

/-- A counter of 32 bits is always below so many hash functions. -/
theorem Valid.insertUnique_wrapped (h : f.Valid) (key : Bytes) (hge : 2 ^ 32 ≤ f.numHashFunctions) :
    f.insertUnique hash key = .ok (true, f.added hash key) := by
  have hlt := Nat.mod_lt (foundSet f.bitmap (f.probes hash key)) (Nat.two_pow_pos 32)
  rw [h.insertUnique, decide_eq_true (lt_of_lt_of_le hlt hge)]

theorem Valid.unique_iff (h : f.Valid) (key : Bytes) (hsmall : f.numHashFunctions < 2 ^ 32) :
    decide (foundSet f.bitmap (f.probes hash key) % 2 ^ 32 < f.numHashFunctions) = true ↔
      (f.probes hash key).all (hasBit f.bitmap) = false := by
  have hle := foundSet_le f.bitmap (f.probes hash key)
  have hiff := foundSet_eq_length_iff fun i hi => (h.probes_lt hash key i hi).2
  rw [length_probes] at hle hiff
  rw [decide_eq_true_iff, ← Bool.not_eq_true, all_eq_true,
    ← hiff]
  omega

theorem Valid.noFalseNegatives_iff (h : f.Valid) :
    f.NoFalseNegatives hash ↔ f.numHashFunctions < 2 ^ 32 := by
  have hcovers : f.Covers hash [] := fun key hkey => absurd hkey not_mem_nil
  constructor
  · intro hall
    by_contra hge
    -- a key that is inserted twice is unique to the wrapped counter
    obtain ⟨f', hrun, -, hunique⟩ := hall [.insert []]
    obtain ⟨known, unique, after, hknown, hinsert, hiff⟩ := hunique []
    obtain rfl : f.added hash [] = f' := by
      rw [BloomFilter.run, foldlM_cons, BloomFilter.step, h.insert] at hrun
      exact Except.ok.inj hrun
    rw [h.mayContain_added] at hknown
    rw [(h.added hash []).insertUnique_wrapped hash [] (Nat.le_of_not_lt hge)] at hinsert
    cases hknown
    cases hinsert
    exact absurd (hiff.mp rfl) (by decide)
  · intro hsmall ops
    obtain ⟨f', hrun, hf', hsame, hcovers'⟩ := hcovers.run h ops
    refine ⟨f', hrun, ?_, ?_⟩
    · intro key hkey
      rw [hf'.mayContain]
      exact congrArg Except.ok (all_eq_true.mpr (hcovers' key hkey))
    · intro key
      exact ⟨_, _, _, hf'.mayContain hash key, hf'.insertUnique hash key,
        hf'.unique_iff hash key (hsame ▸ hsmall)⟩

end Specs

/-! ## Constructed filters -/

theorem valid_uncheckedInitialize {bitmap : Bytes} (hpos : 0 < bitmap.length)
    (hle : bitmap.length * 8 ≤ 2 ^ 31) (numHashes : Nat) :
    ∃ f, uncheckedInitialize bitmap numHashes = .ok f ∧ f.Valid ∧
      f.numHashFunctions = numHashes := by
  obtain ⟨divisor, hset, hexact⟩ :=
    UInt32Divisor.setValue_modulu {} (by omega : 0 < bitmap.length * 8) (by omega)
  have hbits : uint64 ((bitmap.length : Int) * 8) = bitmap.length * 8 := by
    unfold uint64
    omega
  rw [uncheckedInitialize, hbits, uint32_of_lt (by omega), hset]
  exact ⟨_, rfl, ⟨rfl, mul_pos hpos (by decide), hle, hexact⟩, rfl⟩

def Construction.numHashFunctions : Construction → Nat
  | .size _ numHashes => numHashes
  | .given _ numHashes => uint64 (int32 numHashes)

theorem valid_construct {c : Construction} (hpos : 0 < c.byteSize) (hle : c.byteSize * 8 ≤ 2 ^ 31) :
    ∃ f, construct c = .ok (some f) ∧ f.Valid ∧ f.numHashFunctions = c.numHashFunctions := by
  have hcheck : checkBitmapSize c.byteSize := by
    refine decide_eq_true ?_
    unfold uint64
    omega
  have hunchecked : ∃ f, c.unchecked = .ok f ∧ f.Valid ∧
      f.numHashFunctions = c.numHashFunctions := by
    cases c with
    | size bitmapByteSize numHashes =>
      rw [← length_replicate (n := bitmapByteSize) (a := (0 : UInt8))]
        at hpos hle
      exact valid_uncheckedInitialize hpos hle numHashes
    | given bitmap numHashes => exact valid_uncheckedInitialize hpos hle _
  obtain ⟨f, hinit, hvalid, hnum⟩ := hunchecked
  refine ⟨f, ?_, hvalid, hnum⟩
  rw [construct, if_pos hcheck, hinit]
  rfl

/-- A filter of at most `2 ^ 31` bits has no false negatives, and `InsertUnique` agrees with
`MayContain`, exactly if it has less than `2 ^ 32` hash functions. -/
theorem bloom_filter_iff (hash : Bytes → Nat → Digest) (c : Construction) (hpos : 0 < c.byteSize)
    (hle : c.byteSize * 8 ≤ 2 ^ 31) :
    ∃ f, construct c = .ok (some f) ∧ (f.NoFalseNegatives hash ↔ c.numHashFunctions < 2 ^ 32) := by
  obtain ⟨f, hconstruct, hvalid, hnum⟩ := valid_construct hpos hle
  exact ⟨f, hconstruct, hnum ▸ hvalid.noFalseNegatives_iff hash⟩

/-- A filter of eight bits with two hash functions. -/
theorem bloom_filter_two : ∃ f, construct (.size 1 2) = .ok (some f) ∧
    f.NoFalseNegatives fun key seed _ => UInt32.ofNat (key.length + seed) := by
  obtain ⟨f, hconstruct, hiff⟩ := bloom_filter_iff
    (fun key seed _ => UInt32.ofNat (key.length + seed)) (.size 1 2) (by decide) (by decide)
  exact ⟨f, hconstruct, hiff.mpr (by decide)⟩

/-- With `2 ^ 32` hash functions a key that is found is inserted as unique. -/
theorem unique_though_found : ∃ f f' after, construct (.size 1 (2 ^ 32)) = .ok (some f) ∧
    f.insert (fun _ _ _ => 0) [] = .ok f' ∧ f'.mayContain (fun _ _ _ => 0) [] = .ok true ∧
    f'.insertUnique (fun _ _ _ => 0) [] = .ok (true, after) := by
  obtain ⟨f, hconstruct, hvalid, hnum⟩ := @valid_construct (.size 1 (2 ^ 32)) one_pos (by decide)
  have hunique :=
    (hvalid.added (fun _ _ _ => 0) []).insertUnique_wrapped (fun _ _ _ => 0) [] hnum.ge
  exact ⟨f, _, _, hconstruct, hvalid.insert _ [], hvalid.mayContain_added _ [], hunique⟩

end BloomFilter

end Toft
