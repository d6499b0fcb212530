import Toft.Base.ByteOrder
import Toft.Base.Int
import Toft.Storage.File

/-!
# Record files

`RecordWriter` writes each record as a 32-bit length in the host's byte order and then the bytes;
`RecordReader` reads them back one by one. Both loop over `File` calls that may move fewer bytes
than asked. The loops take a number of rounds (`fuel`) and are `none` when it does not suffice.
-/

namespace Toft

open Lib

variable [Host]

/-! ## The writer -/

namespace RecordWriter

/-- `RecordWriter::Write`, when `writeSize` of the `size` bytes at `data` are already written. -/
def write : Nat → Bytes → Nat → Nat → File → Option (Bool × File)
  | 0, _, _, _, _ => none
  | fuel + 1, data, size, writeSize, file =>
    if writeSize < size then
      let (n, file) := file.write ((data.drop writeSize).take (size - writeSize))
      let ret := int32 n
      if ret = -1 then some (false, file)
      else write fuel data size (uint32 (writeSize + ret)) file
    else some (true, file)

/-- `RecordWriter::WriteRecord` of a string: the length is narrowed to `uint32_t`. -/
def writeRecord (fuel : Nat) (data : Bytes) (file : File) : Option (Bool × File) := do
  let size := uint32 data.length
  let (ok, file) ← write fuel (Host.bytes 4 size) 4 0 file
  if ok then write fuel data size 0 file else return (false, file)

def writeRecords (fuel : Nat) : List Bytes → File → Option (Bool × File)
  | [], file => some (true, file)
  | record :: records, file => do
    let (ok, file) ← writeRecord fuel record file
    if ok then writeRecords fuel records file else return (false, file)

end RecordWriter

/-! ## The reader -/

/-- The members of `RecordReader`. -/
structure RecordReader where
  file : File
  buffer : Memory
  fileSize : UInt32
  bufferSize : UInt32
  dataSize : UInt32

namespace RecordReader

def reset (r : RecordReader) : Bool × RecordReader :=
  match r.file.seek 0 .end_ with
  | none => (false, r)
  | some file =>
    let r := { r with file := file, fileSize := UInt32.ofInt file.tell }
    match file.seek 0 .set with
    | none => (false, r)
    | some file => (true, { r with file := file })

/-- The constructor: `alloc n` is what `new char[n]` happens to hold, and `junk` what the members
hold that it does not set. -/
def create (alloc : Nat → Memory) (junk : UInt32) (file : File) : RecordReader :=
  let bufferSize : UInt32 := 1 * 1024 * 1024
  (reset { file := file, buffer := alloc bufferSize.toNat, fileSize := junk,
           bufferSize := bufferSize, dataSize := junk }).2

/-- `RecordReader::Read`, when `readSize` of the `size` bytes are already in `data`. -/
def read : Nat → Nat → Nat → Memory → File → Option (Bool × Memory × File)
  | 0, _, _, _, _ => none
  | fuel + 1, size, readSize, data, file =>
    if readSize < size then
      let (ret, got, file) := file.read (size - readSize)
      let data := data.store readSize got
      if ret = -1 then some (false, data, file)
      else read fuel size (uint32 (readSize + ret)) data file
    else some (true, data, file)

def readSize (fuel : Nat) (r : RecordReader) : Option (Bool × RecordReader) := do
  let word : Memory := fun i => (Host.bytes 4 r.dataSize.toNat).getD i 0
  let (ok, word, file) ← read fuel 4 0 word r.file
  return (ok, { r with dataSize := UInt32.ofNat (Host.nat (word.load 4)), file := file })

/-- `while (m_data_size > m_buffer_size) m_buffer_size *= 2`. -/
def grow : Nat → UInt32 → UInt32 → Option UInt32
  | 0, _, _ => none
  | fuel + 1, dataSize, bufferSize =>
    if dataSize > bufferSize then grow fuel dataSize (bufferSize * 2) else some bufferSize

def reserve (alloc : Nat → Memory) (fuel : Nat) (r : RecordReader) : Option RecordReader :=
  if r.dataSize > r.bufferSize then do
    let bufferSize ← grow fuel r.dataSize r.bufferSize
    return { r with bufferSize := bufferSize, buffer := alloc bufferSize.toNat }
  else some r

/-- The second half of `Next`: the record's bytes. When fewer bytes than the record has are left
in the file, nothing is read and the buffer keeps its old content. -/
def readData (alloc : Nat → Memory) (fuel : Nat) (r : RecordReader) : Option (Int × RecordReader) :=
  let ret := r.file.tell
  if ret = -1 then some (-1, r)
  else if ret ≥ r.fileSize.toNat ∧ r.dataSize ≠ 0 then some (-1, r)
  else if (r.fileSize.toNat : Int) - ret ≥ r.dataSize.toNat then do
    let r ← r.reserve alloc fuel
    let (ok, buffer, file) ← read fuel r.dataSize.toNat 0 r.buffer r.file
    return (if ok then 1 else -1, { r with buffer := buffer, file := file })
  else some (1, r)

/-- `RecordReader::Next`. When fewer than four bytes are left, `m_data_size` keeps the length of
the record before. -/
def next (alloc : Nat → Memory) (fuel : Nat) (r : RecordReader) : Option (Int × RecordReader) :=
  let ret := r.file.tell
  if ret = -1 then some (-1, r)
  else if ret = r.fileSize.toNat then some (0, r)
  else do
    let (ok, r) ← if (r.fileSize.toNat : Int) - ret ≥ 4 then r.readSize fuel else some (true, r)
    if ok then r.readData alloc fuel else return (-1, r)

def readRecord (r : RecordReader) : Bytes := r.buffer.load r.dataSize.toNat

end RecordReader

end Toft
