import Toft.Lib.BlockHash

/-!
# RFC 1321

The message digest of RFC 1321 for a string of bytes, as the document defines it: padding, the
length in bits, and four rounds of sixteen operations for each block of sixteen words. Words are
read and written with the low-order byte first.
-/

namespace Toft.Rfc1321

open Lib

abbrev MDBuffer := UInt32 × UInt32 × UInt32 × UInt32

def F (x y z : UInt32) : UInt32 := (x &&& y) ||| (~~~x &&& z)

def G (x y z : UInt32) : UInt32 := (x &&& z) ||| (y &&& ~~~z)

def H (x y z : UInt32) : UInt32 := x ^^^ y ^^^ z

def I (x y z : UInt32) : UInt32 := y ^^^ (x ||| ~~~z)

/-- The table `T`: the integer parts of `4294967296 * |sin i|` for `i` from 1 to 64. -/
def T : List UInt32 :=
  [0xd76aa478, 0xe8c7b756, 0x242070db, 0xc1bdceee,
    0xf57c0faf, 0x4787c62a, 0xa8304613, 0xfd469501,
    0x698098d8, 0x8b44f7af, 0xffff5bb1, 0x895cd7be,
    0x6b901122, 0xfd987193, 0xa679438e, 0x49b40821,
    0xf61e2562, 0xc040b340, 0x265e5a51, 0xe9b6c7aa,
    0xd62f105d, 0x02441453, 0xd8a1e681, 0xe7d3fbc8,
    0x21e1cde6, 0xc33707d6, 0xf4d50d87, 0x455a14ed,
    0xa9e3e905, 0xfcefa3f8, 0x676f02d9, 0x8d2a4c8a,
    0xfffa3942, 0x8771f681, 0x6d9d6122, 0xfde5380c,
    0xa4beea44, 0x4bdecfa9, 0xf6bb4b60, 0xbebfbc70,
    0x289b7ec6, 0xeaa127fa, 0xd4ef3085, 0x04881d05,
    0xd9d4d039, 0xe6db99e5, 0x1fa27cf8, 0xc4ac5665,
    0xf4292244, 0x432aff97, 0xab9423a7, 0xfc93a039,
    0x655b59c3, 0x8f0ccc92, 0xffeff47d, 0x85845dd1,
    0x6fa87e4f, 0xfe2ce6e0, 0xa3014314, 0x4e0811a1,
    0xf7537e82, 0xbd3af235, 0x2ad7d2bb, 0xeb86d391]

/-- An operation `[abcd k s i]` with its function and `T[i]`. -/
structure Operation where
  f : UInt32 → UInt32 → UInt32 → UInt32
  k : Nat
  t : UInt32
  s : Nat

/-- A round: its function, the words that its operations take, and their shifts. -/
def round (f : UInt32 → UInt32 → UInt32 → UInt32) (words shifts : List Nat) (table : List UInt32) :
    List Operation :=
  (List.range 16).map fun j => ⟨f, words.getD j 0, table.getD j 0, shifts.getD (j % 4) 0⟩

def operations : List Operation :=
  round F [0, 1, 2, 3, 4, 5, 6, 7, 8, 9, 10, 11, 12, 13, 14, 15] [7, 12, 17, 22] (T.take 16) ++
  round G [1, 6, 11, 0, 5, 10, 15, 4, 9, 14, 3, 8, 13, 2, 7, 12] [5, 9, 14, 20]
    ((T.drop 16).take 16) ++
  round H [5, 8, 11, 14, 1, 4, 7, 10, 13, 0, 3, 6, 9, 12, 15, 2] [4, 11, 16, 23]
    ((T.drop 32).take 16) ++
  round I [0, 7, 14, 5, 12, 3, 10, 1, 8, 15, 6, 13, 4, 11, 2, 9] [6, 10, 15, 21] (T.drop 48)

/-- `a = b + ((a + f(b,c,d) + X[k] + T[i]) <<< s)`; the next operation takes the words of the buffer
one place further. -/
def Operation.apply (X : Nat → UInt32) : MDBuffer → Operation → MDBuffer
  | (a, b, c, d), op => (d, b + rotl (a + op.f b c d + X op.k + op.t) op.s, b, c)

/-- One block: the rounds, and the sum with the buffer as it was before. -/
def processBlock : MDBuffer → Bytes → MDBuffer
  | (aa, bb, cc, dd), block =>
    let (a, b, c, d) := operations.foldl (Operation.apply (leWord block)) (aa, bb, cc, dd)
    (a + aa, b + bb, c + cc, d + dd)

def init : MDBuffer := (0x67452301, 0xefcdab89, 0x98badcfe, 0x10325476)

/-- The message with its padding bits and its length, as a 64-bit number of bits. -/
def padded (message : Bytes) : Bytes := message ++ padding (leBytes 8) message.length

def lastBlock (message : Bytes) : Bytes := (padded message).drop ((padded message).length - 64)

def output : MDBuffer → Bytes
  | (a, b, c, d) => wordBytes a ++ wordBytes b ++ wordBytes c ++ wordBytes d

def digest (message : Bytes) : Bytes :=
  output ((blocks 64 (padded message)).foldl processBlock init)

end Toft.Rfc1321
