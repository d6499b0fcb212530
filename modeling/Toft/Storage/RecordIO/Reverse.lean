import Toft.Storage.RecordIO.RoundTrip

/-!
# Reverse record files

`ReverseRecordWriter` writes the bytes of a record and then its length, so that
`ReverseRecordReader` can walk from the end of the file to its start: each read seeks back over
what it is about to read, reads it, and seeks back again. A reader at position `pos` sees the part
of the file before `pos`; a written list comes out in reverse order (`reverseRecordIO_round_trip`).
-/

namespace Toft

open Lib Lib.Schedule List Host RecordReader

/-! ## The writer -/

namespace ReverseRecordWriter

/-- `ReverseRecordWriter::Write`, the loop of `RecordWriter::Write`. -/
def write : Nat → Bytes → Nat → Nat → File → Option (Bool × File) := RecordWriter.write

variable [Host]

/-- `ReverseRecordWriter::WriteRecord` of a string. -/
def writeRecord (fuel : Nat) (data : Bytes) (file : File) : Option (Bool × File) := do
  let size := uint32 data.length
  let (ok, file) ← write fuel data size 0 file
  if ok then write fuel (bytes 4 size) 4 0 file else return (false, file)

def writeRecords (fuel : Nat) : List Bytes → File → Option (Bool × File)
  | [], file => some (true, file)
  | record :: records, file => do
    let (ok, file) ← writeRecord fuel record file
    if ok then writeRecords fuel records file else return (false, file)

end ReverseRecordWriter

/-! ## The reader -/

/-- The members of the reader that goes backwards. -/
structure ReverseRecordReader where
  file : File
  buffer : Memory
  bufferSize : UInt32
  dataSize : UInt32

namespace ReverseRecordReader

def reset (r : ReverseRecordReader) : Bool × ReverseRecordReader :=
  match r.file.seek 0 .end_ with
  | none => (false, r)
  | some file => (true, { r with file := file })

/-- The constructor; `alloc` and `junk` as for `RecordReader.create`. -/
def create (alloc : Nat → Memory) (junk : UInt32) (file : File) : ReverseRecordReader :=
  let bufferSize : UInt32 := 1 * 1024 * 1024
  (reset { file := file, buffer := alloc bufferSize.toNat, bufferSize := bufferSize,
           dataSize := junk }).2

/-- Seek by `offset`, read with the loop of `RecordReader::Read`, and seek by `offset` again. -/
def readBetween (offset : Int) (fuel size : Nat) (data : Memory) (file : File) :
    Option (Bool × Memory × File) :=
  match file.seek offset .cur with
  | none => some (false, data, file)
  | some file => do
    let (ok, data, file) ← RecordReader.read fuel size 0 data file
    if ok then
      match file.seek offset .cur with
      | none => return (false, data, file)
      | some file => return (true, data, file)
    else return (false, data, file)

def read (fuel size : Nat) (data : Memory) (file : File) : Option (Bool × Memory × File) :=
  readBetween (-int32 size) fuel size data file

/-- Makes the buffer large enough for the record, by the loop of `RecordReader::Next`. -/
def reserve (alloc : Nat → Memory) (fuel : Nat) (r : ReverseRecordReader) :
    Option ReverseRecordReader :=
  if r.dataSize > r.bufferSize then do
    let bufferSize ← grow fuel r.dataSize r.bufferSize
    return { r with bufferSize := bufferSize, buffer := alloc bufferSize.toNat }
  else some r

def readData (alloc : Nat → Memory) (fuel : Nat) (r : ReverseRecordReader) :
    Option (Int × ReverseRecordReader) :=
  let ret := r.file.tell
  if ret = -1 then some (-1, r)
  else if ret = 0 ∧ ret ≠ r.dataSize.toNat then some (-1, r)
  else if ret ≥ r.dataSize.toNat then do
    let r ← r.reserve alloc fuel
    let (ok, buffer, file) ← read fuel r.dataSize.toNat r.buffer r.file
    return (if ok then 1 else -1, { r with buffer := buffer, file := file })
  else some (1, r)

variable [Host]

def readSize (fuel : Nat) (r : ReverseRecordReader) : Option (Bool × ReverseRecordReader) := do
  let word : Memory := fun i => (bytes 4 r.dataSize.toNat).getD i 0
  let (ok, word, file) ← read fuel 4 word r.file
  return (ok, { r with dataSize := UInt32.ofNat (nat (word.load 4)), file := file })

def next (alloc : Nat → Memory) (fuel : Nat) (r : ReverseRecordReader) :
    Option (Int × ReverseRecordReader) :=
  let ret := r.file.tell
  if ret = -1 then some (-1, r)
  else if ret = 0 then some (0, r)
  else do
    let (ok, r) ← if ret ≥ 4 then r.readSize fuel else some (true, r)
    if ok then r.readData alloc fuel else return (-1, r)

omit [Host] in
def readRecord (r : ReverseRecordReader) : Bytes := r.buffer.load r.dataSize.toNat

end ReverseRecordReader

/-! ## What the writer writes -/

section Writer

variable [Host]

/-- A record as it stands in a reverse file. -/
def reverseFrame (record : Bytes) : Bytes := record ++ bytes 4 record.length

@[simp] theorem length_reverseFrame (record : Bytes) :
    (reverseFrame record).length = record.length + 4 := by
  simp [reverseFrame]

def reverseFrames (records : List Bytes) : Bytes := records.flatMap reverseFrame

namespace ReverseRecordWriter

theorem writeRecord_spec {record : Bytes} (hrec : record.length < 2 ^ 32 - 1) :
    RecordWriter.Writes (fun fuel => writeRecord fuel record) (reverseFrame record) := by
  have hsize : uint32 record.length = record.length := uint32_of_lt (by omega)
  intro file
  simp only [writeRecord, hsize]
  exact (RecordWriter.write_all record hrec).andThen (RecordWriter.write_word record.length) file

theorem writeRecords_spec (records : List Bytes)
    (hrecs : ∀ record ∈ records, record.length < 2 ^ 32 - 1) :
    RecordWriter.Writes (fun fuel => writeRecords fuel records) (reverseFrames records) := by
  induction records with
  | nil => exact .nil
  | cons record records ih =>
    obtain ⟨hrec, hrest⟩ := forall_mem_cons.mp hrecs
    exact (writeRecord_spec hrec).andThen (ih hrest)

end ReverseRecordWriter

end Writer

/-! ## What the reader reads -/

namespace ReverseRecordReader

theorem read_spec (size : Nat) (h31 : size < 2 ^ 31) (mem : Memory) (file : File)
    (hfair : Fair file.io) (hpos : file.pos ≤ file.data.length) {pre bytes : Bytes}
    (hbytes : bytes.length = size) (hdata : file.data.take file.pos = pre ++ bytes) :
    ∃ file', Settles (fun fuel => read fuel size mem file) (true, mem.store 0 bytes, file') ∧
      file'.data = file.data ∧ file'.pos = pre.length ∧ Fair file'.io := by
  have hlen : file.pos = pre.length + size := by
    have := congrArg length hdata
    simp only [length_take, length_append, hbytes] at this
    omega
  have hoff : -int32 size = -(size : Int) := by rw [int32_of_lt h31]
  have hseek := File.seek_back (f := file) (n := size) (by omega)
  have hsplit : file.data.drop (file.pos - size) = bytes ++ file.data.drop file.pos := by
    conv => lhs; rw [← take_append_drop file.pos file.data, hdata]
    rw [append_assoc, drop_left' (by omega)]
  obtain ⟨file₁, hrun, hd, hp, hf⟩ := read_all size (by omega) mem
    { file with pos := file.pos - size } hfair
    (by show file.pos - size ≤ file.data.length; omega) hbytes hsplit
  have hseek₁ := File.seek_back (f := file₁) (n := size)
    (by rw [hp]; show size ≤ file.pos - size + size; omega)
  refine ⟨{ file₁ with pos := file₁.pos - size }, ?_, hd, ?_, hf⟩
  · obtain ⟨N, hN⟩ := hrun
    refine ⟨N, fun fuel hfuel => ?_⟩
    have hloop : RecordReader.read fuel size 0 mem { file with pos := file.pos - size } =
        some (true, mem.store 0 bytes, file₁) := hN fuel hfuel
    show read fuel size mem file = _
    rw [read, hoff]
    simp only [readBetween, hseek, hloop, Option.bind_eq_bind, Option.bind_some, ite_true, hseek₁]
    rfl
  · show file₁.pos - size = pre.length
    rw [hp]
    show file.pos - size + size - size = pre.length
    omega

/-- The reader stands at `pos` of a file with content `data`. -/
structure At (r : ReverseRecordReader) (data : Bytes) (pos : Nat) : Prop where
  data_eq : r.file.data = data
  pos_eq : r.file.pos = pos
  pos_le : pos ≤ data.length
  fair : Fair r.file.io
  bufferSize : RecordReader.BufferSize r.bufferSize

variable (alloc : Nat → Memory)

theorem create_at (file : File) (hfair : Fair file.io) (junk : UInt32) :
    (create alloc junk file).At file.data file.data.length := by
  exact ⟨rfl, rfl, Nat.le_refl _, hfair, 20, by omega, rfl⟩

variable {r : ReverseRecordReader}

theorem reserve_spec (hsize : r.dataSize.toNat ≤ 2 ^ 31)
    (hb : RecordReader.BufferSize r.bufferSize) :
    ∃ buffer bufferSize, Settles (fun fuel => r.reserve alloc fuel)
        { r with buffer := buffer, bufferSize := bufferSize } ∧
      RecordReader.BufferSize bufferSize := by
  obtain ⟨s, hrun, hkeep | ⟨size, hsize', rfl⟩⟩ := grow_settles hsize hb r
    fun size => { r with bufferSize := size, buffer := alloc size.toNat }
  · exact ⟨r.buffer, r.bufferSize, hkeep ▸ hrun, hb⟩
  · exact ⟨alloc size.toNat, size, hrun, hsize'⟩

variable {data : Bytes}

theorem readData_spec {pos : Nat} (h : r.At data pos)
    {pre record : Bytes} (hsize : r.dataSize.toNat = record.length) (hrec : record.length < 2 ^ 31)
    (hdata : data.take pos = pre ++ record) :
    ∃ r', Settles (fun fuel => r.readData alloc fuel) (1, r') ∧ r'.At data pre.length ∧
      r'.readRecord = record := by
  have hlen : pos = pre.length + record.length := by
    have := congrArg length hdata
    have := h.pos_le
    simp only [length_take, length_append] at *
    omega
  obtain ⟨buffer, bufferSize, hreserve, hb⟩ := reserve_spec alloc (r := r) (by omega) h.bufferSize
  obtain ⟨file', hrun, hd, hp, hf⟩ := read_spec _ hrec buffer r.file h.fair
    (by rw [h.data_eq, h.pos_eq]; exact h.pos_le) rfl (by rw [h.data_eq, h.pos_eq]; exact hdata)
  have hbranch : ∀ fuel, r.readData alloc fuel = r.reserve alloc fuel >>= fun r =>
      read fuel r.dataSize.toNat r.buffer r.file >>= fun p =>
        some (if p.1 then 1 else -1, { r with buffer := p.2.1, file := p.2.2 }) := by
    intro fuel
    have htell : r.file.tell = (pos : Int) := by rw [File.tell, h.pos_eq]
    have h₁ : ¬ ((pos : Int) = 0 ∧ (pos : Int) ≠ r.dataSize.toNat) := by omega
    have h₂ : (pos : Int) ≥ r.dataSize.toNat := by omega
    simp only [readData, htell, show (pos : Int) ≠ -1 by omega, ite_false, h₁, h₂, ite_true]
    rfl
  refine ⟨{ r with buffer := buffer.store 0 record, file := file', bufferSize := bufferSize },
    (hreserve.bind _ ?_).congr hbranch, ?_, ?_⟩
  · refine Settles.bind (x := (true, buffer.store 0 record, file')) ?_ _ (Settles.pure _)
    simp only [hsize]
    exact hrun
  · exact ⟨hd.trans h.data_eq, hp, by have := h.pos_le; omega, hf, hb⟩
  · rw [readRecord, hsize]
    exact Memory.load_store buffer record

variable [Host]

/-- **One record**: a reader that stands behind a frame returns 1 with its record and stands before
the frame. -/
theorem next_reverseFrame {pos : Nat} (h : r.At data pos)
    {pre record : Bytes} (hrec : record.length < 2 ^ 31)
    (hdata : data.take pos = pre ++ reverseFrame record) :
    ∃ r', Settles (fun fuel => r.next alloc fuel) (1, r') ∧ r'.At data pre.length ∧
      r'.readRecord = record := by
  have hlen : pos = (pre ++ record).length + 4 := by
    have := congrArg length hdata
    have := h.pos_le
    simp only [length_take, length_append, length_reverseFrame] at *
    omega
  rw [reverseFrame, ← append_assoc] at hdata
  obtain ⟨file₁, hrun₁, hd₁, hp₁, hf₁⟩ := read_spec 4 (by omega)
    (fun i => (bytes 4 r.dataSize.toNat).getD i 0) r.file h.fair
    (by rw [h.data_eq, h.pos_eq]; exact h.pos_le) (length_bytes 4 record.length)
    (by rw [h.data_eq, h.pos_eq]; exact hdata)
  have htake : data.take (pre ++ record).length = pre ++ record := by
    have := congrArg (take (pre ++ record).length) hdata
    rwa [take_take, Nat.min_eq_left (by omega), take_left] at this
  have h₁ : ReverseRecordReader.At
      { r with dataSize := UInt32.ofNat (nat (bytes 4 record.length)), file := file₁ }
      data (pre ++ record).length :=
    ⟨hd₁.trans h.data_eq, hp₁, by have := h.pos_le; omega, hf₁, h.bufferSize⟩
  obtain ⟨r₂, hrun₂, h₂, hread⟩ := readData_spec alloc h₁ (toNat_word (by omega)) hrec htake
  refine ⟨r₂, ((hrun₁.bind (fun _ p => some (p.1,
      { r with dataSize := UInt32.ofNat (nat (p.2.1.load 4)), file := p.2.2 }))
      (Settles.pure _)).bind (fun fuel p =>
      if p.1 then p.2.readData alloc fuel else some (-1, p.2)) ?_).congr ?_, h₂, hread⟩
  · simp only [load_word, ite_true]
    exact hrun₂
  · intro fuel
    have htell : r.file.tell = (pos : Int) := by rw [File.tell, h.pos_eq]
    simp only [next, htell, show (pos : Int) ≠ -1 by omega, show (pos : Int) ≠ 0 by omega,
      ite_false, show (pos : Int) ≥ 4 by omega, ite_true]
    rfl

theorem next_start (h : r.At data 0) :
    Settles (fun fuel => r.next alloc fuel) (0, r) := by
  refine (Settles.pure _).congr fun fuel => ?_
  simp [next, File.tell, h.pos_eq]

/-- `Next` returns 1 once for each of the records, `ReadRecord` then gives its bytes, and the call
after these returns `last`. -/
def Delivers : ReverseRecordReader → List Bytes → Int → Prop
  | r, [], last => ∃ r', Settles (fun fuel => r.next alloc fuel) (last, r')
  | r, record :: records, last => ∃ r', Settles (fun fuel => r.next alloc fuel) (1, r') ∧
      r'.readRecord = record ∧ Delivers r' records last

/-- The frames before the position are delivered last to first. The induction takes the records in
the order in which they are read, so the file is that of the reversed list. -/
theorem delivers_reverseFrames : ∀ (records : List Bytes) {r : ReverseRecordReader}
    {pos : Nat}, r.At data pos → (∀ record ∈ records, record.length < 2 ^ 31) →
    data.take pos = reverseFrames records.reverse → r.Delivers alloc records 0 := by
  intro records
  induction records with
  | nil =>
    intro r pos h _ hdata
    have hpos : pos = 0 := by
      have := congrArg length hdata
      have := h.pos_le
      simp only [reverseFrames, reverse_nil, flatMap_nil, length_take, length_nil] at *
      omega
    subst hpos
    exact ⟨r, next_start alloc h⟩
  | cons record records ih =>
    intro r pos h hrecs hdata
    have hdata' : data.take pos = reverseFrames records.reverse ++ reverseFrame record := by
      rw [hdata, reverse_cons]
      simp [reverseFrames]
    obtain ⟨r', hrun, h', hread⟩ := next_reverseFrame alloc h (hrecs record mem_cons_self) hdata'
    refine ⟨r', hrun, hread, ih h' (fun r hr => hrecs r (mem_cons_of_mem _ hr)) ?_⟩
    have hle : (reverseFrames records.reverse).length ≤ pos := by
      have := congrArg length hdata'
      simp only [length_take, length_append] at this
      omega
    have := congrArg (take (reverseFrames records.reverse).length) hdata'
    rwa [take_take, Nat.min_eq_left hle, take_left] at this

end ReverseRecordReader

/-- **Reverse RecordIO round trip.** Over files that move all bytes, possibly in parts: a written
list of records is read back in reverse order, and then `Next` returns 0. -/
theorem reverseRecordIO_round_trip [Host] (alloc : Nat → Memory) (junk : UInt32)
    (records : List Bytes) (hrec : ∀ record ∈ records, record.length < 2 ^ 31)
    (wio rio : Schedule) (hw : Fair wio) (hr : Fair rio) :
    ∃ file, Settles
        (fun fuel => ReverseRecordWriter.writeRecords fuel records { data := [], io := wio })
        (true, file) ∧
      (ReverseRecordReader.create alloc junk { data := file.data, io := rio }).Delivers alloc
        records.reverse 0 := by
  have hempty : File.Appends { data := [], io := wio } := ⟨rfl, hw⟩
  obtain ⟨file, hrun, hdata, -⟩ := ReverseRecordWriter.writeRecords_spec records
    (fun record h => by have := hrec record h; omega) _ hempty
  refine ⟨file, hrun, ?_⟩
  rw [hdata]
  refine ReverseRecordReader.delivers_reverseFrames alloc records.reverse
    (ReverseRecordReader.create_at alloc { data := reverseFrames records, io := rio } hr junk)
    (fun record h => hrec record (mem_reverse.mp h)) ?_
  rw [reverse_reverse, take_length]

/-- Two records, the first empty, over files that move one byte at a time. -/
theorem reverseRecordIO_round_trip_bytewise :
    ∃ file, Settles (fun fuel => @ReverseRecordWriter.writeRecords little fuel [[], [7, 8]]
        { data := [], io := fun _ => .short 1 }) (true, file) ∧
      @ReverseRecordReader.Delivers (fun _ _ => 0) little
        (ReverseRecordReader.create (fun _ _ => 0) 99
          { data := file.data, io := fun _ => .short 1 }) [[7, 8], []] 0 :=
  @reverseRecordIO_round_trip little (fun _ _ => 0) 99 [[], [7, 8]] (by decide)
    (fun _ => .short 1) (fun _ => .short 1) (Fair.ofShort (by decide)) (Fair.ofShort (by decide))

end Toft
