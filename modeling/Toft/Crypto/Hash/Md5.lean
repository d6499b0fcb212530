import Toft.Crypto.Hash.Block

/-!
# MD5

The class `MD5` on a little-endian machine. The context keeps the hash of the full blocks, the
number of bits in two words, and the bytes behind the full blocks in an array of 64 bytes, which the
constructor leaves as it is. Copying beyond the array is an overrun.
-/

namespace Toft.MD5

open Lib

/-! ## The transformation -/

def f1 (x y z : UInt32) : UInt32 := z ^^^ (x &&& (y ^^^ z))

def f2 (x y z : UInt32) : UInt32 := f1 z x y

def f3 (x y z : UInt32) : UInt32 := x ^^^ y ^^^ z

def f4 (x y z : UInt32) : UInt32 := y ^^^ (x ||| ~~~z)

/-- The macro `MD5STEP` up to the names of its variables: the function, the index of the word, the
constant and the shift. -/
structure Step where
  f : UInt32 → UInt32 → UInt32 → UInt32
  i : Nat
  k : UInt32
  s : UInt32

/-- The value that `MD5STEP` gives to the variable `w`. -/
def Step.value (step : Step) (input : Nat → UInt32) (w x y z : UInt32) : UInt32 :=
  let w := w + (step.f x y z + (input step.i + step.k))
  let w := w <<< step.s ||| w >>> (32 - step.s)
  w + x

/-- One line of `MD5Transform`. From line to line, the four variables change their places in the
macro: `a, b, c, d`, then `d, a, b, c` and so on. -/
def Step.apply (input : Nat → UInt32) :
    UInt32 × UInt32 × UInt32 × UInt32 → Step → UInt32 × UInt32 × UInt32 × UInt32
  | (w, x, y, z), step => (z, step.value input w x y z, x, y)

/-- The lines of `MD5Transform`. -/
def steps : List Step :=
  [⟨f1, 0, 0xd76aa478, 7⟩, ⟨f1, 1, 0xe8c7b756, 12⟩,
   ⟨f1, 2, 0x242070db, 17⟩, ⟨f1, 3, 0xc1bdceee, 22⟩,
   ⟨f1, 4, 0xf57c0faf, 7⟩, ⟨f1, 5, 0x4787c62a, 12⟩,
   ⟨f1, 6, 0xa8304613, 17⟩, ⟨f1, 7, 0xfd469501, 22⟩,
   ⟨f1, 8, 0x698098d8, 7⟩, ⟨f1, 9, 0x8b44f7af, 12⟩,
   ⟨f1, 10, 0xffff5bb1, 17⟩, ⟨f1, 11, 0x895cd7be, 22⟩,
   ⟨f1, 12, 0x6b901122, 7⟩, ⟨f1, 13, 0xfd987193, 12⟩,
   ⟨f1, 14, 0xa679438e, 17⟩, ⟨f1, 15, 0x49b40821, 22⟩,
   ⟨f2, 1, 0xf61e2562, 5⟩, ⟨f2, 6, 0xc040b340, 9⟩,
   ⟨f2, 11, 0x265e5a51, 14⟩, ⟨f2, 0, 0xe9b6c7aa, 20⟩,
   ⟨f2, 5, 0xd62f105d, 5⟩, ⟨f2, 10, 0x02441453, 9⟩,
   ⟨f2, 15, 0xd8a1e681, 14⟩, ⟨f2, 4, 0xe7d3fbc8, 20⟩,
   ⟨f2, 9, 0x21e1cde6, 5⟩, ⟨f2, 14, 0xc33707d6, 9⟩,
   ⟨f2, 3, 0xf4d50d87, 14⟩, ⟨f2, 8, 0x455a14ed, 20⟩,
   ⟨f2, 13, 0xa9e3e905, 5⟩, ⟨f2, 2, 0xfcefa3f8, 9⟩,
   ⟨f2, 7, 0x676f02d9, 14⟩, ⟨f2, 12, 0x8d2a4c8a, 20⟩,
   ⟨f3, 5, 0xfffa3942, 4⟩, ⟨f3, 8, 0x8771f681, 11⟩,
   ⟨f3, 11, 0x6d9d6122, 16⟩, ⟨f3, 14, 0xfde5380c, 23⟩,
   ⟨f3, 1, 0xa4beea44, 4⟩, ⟨f3, 4, 0x4bdecfa9, 11⟩,
   ⟨f3, 7, 0xf6bb4b60, 16⟩, ⟨f3, 10, 0xbebfbc70, 23⟩,
   ⟨f3, 13, 0x289b7ec6, 4⟩, ⟨f3, 0, 0xeaa127fa, 11⟩,
   ⟨f3, 3, 0xd4ef3085, 16⟩, ⟨f3, 6, 0x04881d05, 23⟩,
   ⟨f3, 9, 0xd9d4d039, 4⟩, ⟨f3, 12, 0xe6db99e5, 11⟩,
   ⟨f3, 15, 0x1fa27cf8, 16⟩, ⟨f3, 2, 0xc4ac5665, 23⟩,
   ⟨f4, 0, 0xf4292244, 6⟩, ⟨f4, 7, 0x432aff97, 10⟩,
   ⟨f4, 14, 0xab9423a7, 15⟩, ⟨f4, 5, 0xfc93a039, 21⟩,
   ⟨f4, 12, 0x655b59c3, 6⟩, ⟨f4, 3, 0x8f0ccc92, 10⟩,
   ⟨f4, 10, 0xffeff47d, 15⟩, ⟨f4, 1, 0x85845dd1, 21⟩,
   ⟨f4, 8, 0x6fa87e4f, 6⟩, ⟨f4, 15, 0xfe2ce6e0, 10⟩,
   ⟨f4, 6, 0xa3014314, 15⟩, ⟨f4, 13, 0x4e0811a1, 21⟩,
   ⟨f4, 4, 0xf7537e82, 6⟩, ⟨f4, 11, 0xbd3af235, 10⟩,
   ⟨f4, 2, 0x2ad7d2bb, 15⟩, ⟨f4, 9, 0xeb86d391, 21⟩]

def md5Transform (buf : UInt32 × UInt32 × UInt32 × UInt32) (input : Nat → UInt32) :
    UInt32 × UInt32 × UInt32 × UInt32 :=
  let (a, b, c, d) := steps.foldl (Step.apply input) buf
  (buf.1 + a, buf.2.1 + b, buf.2.2.1 + c, buf.2.2.2 + d)

/-! ## The context -/

/-- The members of `MD5::Context`. -/
structure Context where
  buf : UInt32 × UInt32 × UInt32 × UInt32
  bits0 : UInt32
  bits1 : UInt32
  /-- The array `in`. -/
  input : Buffer 64

/-- The words of `buf`, as they lie in memory. -/
def bufBytes : UInt32 × UInt32 × UInt32 × UInt32 → Bytes
  | (a, b, c, d) => wordBytes a ++ wordBytes b ++ wordBytes c ++ wordBytes d

def bufWords (bytes : Bytes) : UInt32 × UInt32 × UInt32 × UInt32 :=
  (leWord bytes 0, leWord bytes 1, leWord bytes 2, leWord bytes 3)

/-- `byteReverse` of the first `longs` words. -/
def byteReverse : Nat → Bytes → Bytes
  | longs + 1, b₀ :: b₁ :: b₂ :: b₃ :: buf =>
    let t := (b₃.toUInt32 <<< 8 ||| b₂.toUInt32) <<< 16 ||| (b₁.toUInt32 <<< 8 ||| b₀.toUInt32)
    wordBytes t ++ byteReverse longs buf
  | _, buf => buf

theorem length_byteReverse (longs : Nat) (buf : Bytes) :
    (byteReverse longs buf).length = buf.length := by
  fun_induction byteReverse longs buf with
  | case1 longs b₀ b₁ b₂ b₃ buf t ih =>
    simp only [List.length_append, length_wordBytes, ih, List.length_cons]
    omega
  | case2 => rfl

/-- `byteReverse` of the first `longs` words of the array `in`. -/
def reverseIn (input : Buffer 64) (longs : Nat) : Buffer 64 :=
  ⟨byteReverse longs input.bytes, by rw [length_byteReverse, input.length_eq]⟩

def Context.init (input : Buffer 64) : Context :=
  { buf := (0x67452301, 0xefcdab89, 0x98badcfe, 0x10325476), bits0 := 0, bits1 := 0, input }

/-- `byteReverse` and `MD5Transform` of the array `in`. -/
def Context.transform (ctx : Context) : Context :=
  { ctx with
    input := reverseIn ctx.input 16
    buf := md5Transform ctx.buf (leWord (reverseIn ctx.input 16).bytes) }

/-- `Update` from the loop over full blocks on. -/
def updateBlocks : Nat → Context → Bytes → Except Fault Context
  | 0, _, _ => .error .unended
  | fuel + 1, ctx, buf =>
    if 64 ≤ buf.length then do
      let input ← copyIn ctx.input 0 (buf.take 64)
      updateBlocks fuel { ctx with input }.transform (buf.drop 64)
    else do
      let input ← copyIn ctx.input 0 buf
      return { ctx with input }

/-- The bit count of `Update`. -/
def Context.count (ctx : Context) (len : UInt32) : Context :=
  let bits0 := ctx.bits0 + len <<< 3
  let bits1 := if bits0 < ctx.bits0 then ctx.bits1 + 1 else ctx.bits1
  { ctx with bits0, bits1 := bits1 + len >>> 29 }

/-- `Update` behind the bit count, with `t` bytes in the array. -/
def Context.absorb (ctx : Context) (t : UInt32) (buf : Bytes) (len : UInt32) :
    Except Fault Context :=
  if t ≠ 0 then
    let room := 64 - t
    if len < room then do
      let input ← copyIn ctx.input t.toNat buf
      return { ctx with input }
    else do
      let input ← copyIn ctx.input t.toNat (buf.take room.toNat)
      updateBlocks (buf.length + 1) { ctx with input }.transform (buf.drop room.toNat)
  else updateBlocks (buf.length + 1) ctx buf

/-- `Update`. The length is cut to 32 bits. -/
def update (ctx : Context) (sp : Bytes) : Except Fault Context :=
  let len := UInt32.ofNat sp.length
  (ctx.count len).absorb (ctx.bits0 >>> 3 &&& 0x3f) (sp.take len.toNat) len

def updates (input : Buffer 64) (pieces : List Bytes) : Except Fault Context :=
  pieces.foldlM update (Context.init input)

/-- The padding of `FinalInternal` up to the place of the length. -/
def padInput (ctx : Context) : Except Fault Context := do
  let count := (ctx.bits0 >>> 3 &&& 0x3F).toNat
  let input ← copyIn ctx.input count [0x80]
  let left := 64 - 1 - count
  if left < 8 then
    let input ← copyIn input (count + 1) (.replicate left 0)
    let ctx := { ctx with input }.transform
    let input ← copyIn ctx.input 0 (.replicate 56 0)
    return { ctx with input }
  else
    let input ← copyIn input (count + 1) (.replicate (left - 8) 0)
    return { ctx with input }

def finalInternal (ctx : Context) : Except Fault Context := do
  let ctx ← padInput ctx
  let input ← copyIn (reverseIn ctx.input 14) 56 (wordBytes ctx.bits0)
  let input ← copyIn input 60 (wordBytes ctx.bits1)
  let buf := md5Transform ctx.buf (leWord input.bytes)
  return { ctx with input, buf := bufWords (byteReverse 4 (bufBytes buf)) }

/-- `Final(void*)`: the 16 bytes that are written. -/
def final (ctx : Context) : Except Fault Bytes := do
  let ctx ← finalInternal ctx
  return (bufBytes ctx.buf).take 16

/-- The bytes of the context from its start on: `buf`, `bits`, `in`. -/
def Context.memory (ctx : Context) : Bytes :=
  bufBytes ctx.buf ++ wordBytes ctx.bits0 ++ wordBytes ctx.bits1 ++ ctx.input.bytes

/-- `Final()`: the two halves of the number, `top` and `bottom`. The second one is read at
`context_.buf + 8`, which is eight words behind the start of the context. -/
def final128 (ctx : Context) : Except Fault (UInt64 × UInt64) := do
  let ctx ← finalInternal ctx
  let top := UInt64.ofNat (leNat (ctx.memory.take 8))
  let bottom := UInt64.ofNat (leNat ((ctx.memory.drop (8 * 4)).take 8))
  return (top, bottom)

def digest (input : Buffer 64) (sp : Bytes) : Except Fault (UInt64 × UInt64) := do
  let ctx ← update (.init input) sp
  final128 ctx

end Toft.MD5
