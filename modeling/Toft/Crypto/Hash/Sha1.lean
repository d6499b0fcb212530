import Toft.Crypto.Hash.Block

/-!
# SHA1

The class `SHA1` on a little-endian machine. `SHA1Transform` expands the message in the block that
it is given, so it returns the block as it leaves it. Most blocks are not in the array of the
context but in the data of the caller, and `Update` returns these data as it leaves them.
-/

namespace Toft.SHA1

open Lib List

/-! ## The transformation -/

def rol (value bits : UInt32) : UInt32 := value <<< bits ||| value >>> (32 - bits)

abbrev Words := List UInt32

/-- The macro `blk0`: its value, and the words it leaves. -/
def blk0 (l : Words) (i : Nat) : UInt32 × Words :=
  let w := (rol (l.getD i 0) 24 &&& 0xFF00FF00) ||| (rol (l.getD i 0) 8 &&& 0x00FF00FF)
  (w, l.set i w)

/-- The macro `blk`: its value, and the words it leaves. -/
def blk (l : Words) (i : Nat) : UInt32 × Words :=
  let w := rol (l.getD ((i + 13) &&& 15) 0 ^^^ l.getD ((i + 8) &&& 15) 0 ^^^
    l.getD ((i + 2) &&& 15) 0 ^^^ l.getD (i &&& 15) 0) 1
  (w, l.set (i &&& 15) w)

/-- The five words of `state`, or the working variables in the order of the next line. -/
abbrev State := UInt32 × UInt32 × UInt32 × UInt32 × UInt32

/-- The macros `R0` to `R4` with their function, their expansion and their constant. From line to
line, the five variables change their places in the macro: `a, b, c, d, e`, then `e, a, b, c, d` and
so on. -/
def R (f : UInt32 → UInt32 → UInt32 → UInt32) (blk : Words → Nat → UInt32 × Words) (k : UInt32)
    (i : Nat) : State × Words → State × Words
  | ((v, w, x, y, z), l) =>
    let (b, l) := blk l i
    let z := z + (f w x y + b + k + rol v 5)
    let w := rol w 30
    ((z, v, w, x, y), l)

def R0 : Nat → State × Words → State × Words :=
  R (fun w x y => (w &&& (x ^^^ y)) ^^^ y) blk0 0x5A827999

def R1 : Nat → State × Words → State × Words :=
  R (fun w x y => (w &&& (x ^^^ y)) ^^^ y) blk 0x5A827999

def R2 : Nat → State × Words → State × Words := R (fun w x y => w ^^^ x ^^^ y) blk 0x6ED9EBA1

def R3 : Nat → State × Words → State × Words :=
  R (fun w x y => ((w ||| x) &&& y) ||| (w &&& x)) blk 0x8F1BBCDC

def R4 : Nat → State × Words → State × Words := R (fun w x y => w ^^^ x ^^^ y) blk 0xCA62C1D6

/-- The macro of line `i`. -/
def line (i : Nat) : State × Words → State × Words :=
  if i < 16 then R0 i else if i < 20 then R1 i else if i < 40 then R2 i
  else if i < 60 then R3 i else R4 i

/-- The first `n` lines of `SHA1Transform`, which has 80. -/
def lines (n : Nat) (s : State × Words) : State × Words :=
  (range n).foldl (fun s i => line i s) s

def words (buffer : Bytes) : Words := (range 16).map (leWord buffer)

/-- Adding the working variables back into `state`. -/
def addBack : State → State → State
  | (s₀, s₁, s₂, s₃, s₄), (a, b, c, d, e) => (s₀ + a, s₁ + b, s₂ + c, s₃ + d, s₄ + e)

/-- `SHA1Transform`: the new state, and the block as it is left. -/
def sha1Transform (state : State) (buffer : Bytes) : State × Bytes :=
  let s := lines 80 (state, words buffer)
  (addBack state s.1, s.2.flatMap wordBytes)

theorem length_line (i : Nat) (s : State × Words) : (line i s).2.length = s.2.length := by
  obtain ⟨⟨v, w, x, y, z⟩, l⟩ := s
  unfold line
  split_ifs <;> exact length_set

theorem length_lines (n : Nat) (s : State × Words) : (lines n s).2.length = s.2.length := by
  induction n with
  | zero => rfl
  | succ n ih =>
    rw [lines, range_succ, foldl_append]
    exact (length_line n _).trans ih

theorem length_flatMap_wordBytes (l : Words) : (l.flatMap wordBytes).length = 4 * l.length := by
  induction l with
  | nil => rfl
  | cons x l ih =>
    rw [flatMap_cons, length_append, length_wordBytes, length_cons]
    omega

theorem length_sha1Transform (state : State) (buffer : Bytes) :
    (sha1Transform state buffer).2.length = 64 := by
  simp only [sha1Transform]
  rw [length_flatMap_wordBytes, length_lines, words, length_map, length_range]

/-! ## The context -/

/-- The members of `SHA1_CTX`. -/
structure Context where
  state : State
  count0 : UInt32
  count1 : UInt32
  buffer : Buffer 64

def Context.init (buffer : Buffer 64) : Context :=
  { state := (0x67452301, 0xEFCDAB89, 0x98BADCFE, 0x10325476, 0xC3D2E1F0), count0 := 0, count1 := 0,
    buffer }

/-- `SHA1Transform` of the array in the context. -/
def Context.transform (ctx : Context) : Context :=
  { ctx with
    state := (sha1Transform ctx.state ctx.buffer.bytes).1
    buffer := ⟨(sha1Transform ctx.state ctx.buffer.bytes).2, length_sha1Transform _ _⟩ }

/-- The loop of `Update` over the full blocks of the data: the state, the data and `i` behind it. -/
def updateBlocks : Nat → State → Bytes → Nat → Except Fault (State × Bytes × Nat)
  | 0, _, _, _ => .error .unended
  | fuel + 1, state, data, i =>
    if i + 63 < data.length then
      let (state, block) := sha1Transform state ((data.drop i).take 64)
      updateBlocks fuel state (data.take i ++ block ++ data.drop (i + 64)) (i + 64)
    else .ok (state, data, i)

/-- The bit count of `Update`. -/
def Context.count (ctx : Context) (inputLen : Nat) : Context :=
  let bits := UInt32.ofNat (inputLen <<< 3)
  let count0 := ctx.count0 + bits
  let count1 := if count0 < bits then ctx.count1 + 1 else ctx.count1
  { ctx with count0, count1 := count1 + .ofNat (inputLen >>> 29) }

/-- `Update` behind the bit count, with `index` bytes in the array. -/
def Context.absorb (ctx : Context) (index : Nat) (data : Bytes) : Except Fault (Context × Bytes) :=
  if index + data.length > 63 then do
    let i := 64 - index
    let buffer ← copyIn ctx.buffer index (data.take i)
    let ctx := { ctx with buffer }.transform
    let (state, data, i) ← updateBlocks (data.length + 1) ctx.state data i
    let buffer ← copyIn ctx.buffer 0 (data.drop i)
    return ({ ctx with state, buffer }, data)
  else do
    let buffer ← copyIn ctx.buffer index data
    return ({ ctx with buffer }, data)

/-- `Update`: the context, and the data of the caller as they are left. -/
def update (ctx : Context) (data : Bytes) : Except Fault (Context × Bytes) :=
  (ctx.count data.length).absorb (ctx.count0 >>> 3 &&& 63).toNat data

def feed (ctx : Context) (data : Bytes) : Except Fault Context := do
  let (ctx, _) ← update ctx data
  return ctx

def updates (buffer : Buffer 64) (pieces : List Bytes) : Except Fault Context :=
  pieces.foldlM feed (Context.init buffer)

def Context.finalcount (ctx : Context) : Bytes :=
  (range 8).map fun i =>
    ((if 4 ≤ i then ctx.count0 else ctx.count1) >>> .ofNat ((3 - (i &&& 3)) * 8) &&& 255).toUInt8

def padLoop : Nat → Context → Except Fault Context
  | 0, _ => .error .unended
  | fuel + 1, ctx =>
    if ctx.count0 &&& 504 ≠ 448 then do
      let ctx ← feed ctx [0]
      padLoop fuel ctx
    else .ok ctx

def finalInternal (ctx : Context) : Except Fault Context := do
  let finalcount := ctx.finalcount
  let ctx ← feed ctx [0x80]
  let ctx ← padLoop 64 ctx
  feed ctx finalcount

/-- The bytes that `Final` takes from the words of the state, which are given as a list. -/
def stateBytes (state : List UInt32) : Bytes :=
  (range 20).map fun i =>
    (state.getD (i >>> 2) 0 >>> .ofNat ((3 - (i &&& 3)) * 8) &&& 255).toUInt8

/-- `Final`: the 20 bytes that are written. -/
def final (ctx : Context) : Except Fault Bytes := do
  let ctx ← finalInternal ctx
  let (a, b, c, d, e) := ctx.state
  return stateBytes [a, b, c, d, e]

end Toft.SHA1
