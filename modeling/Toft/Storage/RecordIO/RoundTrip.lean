import Toft.Lib.Fuel
import Toft.Storage.RecordIO.Basic

/-!
# Record files: what is written is read back

`writeRecords_spec`: the writer appends the frames of the records, however the file cuts the
writes into parts. `next_frame`: a reader that stands at a frame delivers its record and stands
behind it. The two give the round trip of a whole list by induction on the list.
-/

namespace Toft

open Lib Lib.Schedule List Host RecordReader Nat UInt32

/-! ## Frames -/

section Frames

variable [Host]

/-- A record as it stands in the file. -/
def frame (record : Bytes) : Bytes := bytes 4 record.length ++ record

@[simp] theorem length_frame (record : Bytes) : (frame record).length = 4 + record.length := by
  simp [frame]

def frames (records : List Bytes) : Bytes := records.flatMap frame

@[simp] theorem frames_nil : frames [] = [] := rfl

@[simp] theorem frames_cons (record : Bytes) (records : List Bytes) :
    frames (record :: records) = frame record ++ frames records := rfl

theorem frames_append (as bs : List Bytes) : frames (as ++ bs) = frames as ++ frames bs :=
  flatMap_append

end Frames

/-! ## The writer -/

/-- The file position is at the end, and every transfer ends. -/
structure File.Appends (f : File) : Prop where
  atEnd : f.pos = f.data.length
  fair : Fair f.io

namespace RecordWriter

theorem int32_ne_neg_one {n : Nat} (h : n < 2 ^ 32 - 1) : int32 n ≠ -1 := by
  unfold int32
  rw [Int.bmod_def]
  split <;> omega

/-- The write loop appends what is missing. The induction is on the number of missing bytes and
the schedule. -/
theorem write_spec {data : Bytes} {size : Nat} (hsize : size ≤ data.length)
    (h32 : size < 2 ^ 32 - 1) : ∀ n s, Fair s → ∀ writeSize (file : File),
      writeSize ≤ size → size - writeSize = n → file.io = s → file.Appends →
      ∃ file', Settles (fun fuel => write fuel data size writeSize file) (true, file') ∧
        file'.data = file.data ++ (data.take size).drop writeSize ∧ file'.Appends := by
  apply Fair.induction
  · intro s hs writeSize file hle hn _ hf
    have hdone : writeSize = size := by omega
    subst hdone
    refine ⟨file, (Settles.pure _).step fun fuel => ?_, ?_, hf⟩
    · simp [write]
    · rw [drop_eq_nil_of_le (by rw [length_take]; omega), append_nil]
  · intro n s c hs hc hcount ih writeSize file hle hn hio hf
    have hlen : ((data.drop writeSize).take (size - writeSize)).length = n + 1 := by
      rw [length_take, length_drop]
      omega
    have hw := File.write_end hf.atEnd ((data.drop writeSize).take (size - writeSize))
      (c := c) (by rw [hlen, hio]; exact hcount)
    obtain ⟨file', hrun, hdata, hf'⟩ := ih (writeSize + c)
      { data := file.data ++ ((data.drop writeSize).take (size - writeSize)).take c,
        pos := file.data.length + c, io := file.io.tail } (by omega) (by omega) (by rw [hio])
      ⟨by simp only [length_append, length_take, hlen]; omega, hf.fair.tail⟩
    refine ⟨file', hrun.step fun fuel => ?_, ?_, hf'⟩
    · rw [write, if_pos (by omega : writeSize < size), hw]
      simp only [int32_ne_neg_one (show c < 2 ^ 32 - 1 by omega), ite_false]
      rw [uint32_add_int32 (by omega)]
    · rw [hdata, append_assoc]
      congr 1
      rw [take_take, min_eq_left (by omega : c ≤ size - writeSize), drop_take,
        drop_take, show size - writeSize = c + (size - (writeSize + c)) by omega, take_add,
        drop_drop]

/-- At the end of a file the run appends the bytes. -/
def Writes (run : Nat → File → Option (Bool × File)) (bytes : Bytes) : Prop :=
  ∀ file : File, file.Appends → ∃ file', Settles (fun fuel => run fuel file) (true, file') ∧
    file'.data = file.data ++ bytes ∧ file'.Appends

theorem Writes.nil : Writes (fun _ file => some (true, file)) [] := fun file hf =>
  ⟨file, Settles.pure _, (append_nil _).symm, hf⟩

theorem Writes.andThen {run run' : Nat → File → Option (Bool × File)} {bytes bytes' : Bytes}
    (h : Writes run bytes) (h' : Writes run' bytes') :
    Writes (fun fuel file => run fuel file >>= fun p =>
      if p.1 then run' fuel p.2 else some (false, p.2)) (bytes ++ bytes') := by
  intro file hf
  obtain ⟨file₁, hrun₁, hdata₁, hf₁⟩ := h file hf
  obtain ⟨file₂, hrun₂, hdata₂, hf₂⟩ := h' file₁ hf₁
  refine ⟨file₂, hrun₁.bind (fun fuel p => if p.1 then run' fuel p.2 else some (false, p.2)) hrun₂,
    ?_, hf₂⟩
  rw [hdata₂, hdata₁, append_assoc]

theorem write_all (data : Bytes) (h32 : data.length < 2 ^ 32 - 1) :
    Writes (fun fuel => write fuel data data.length 0) data := by
  intro file hf
  obtain ⟨file', hrun, hdata, hf'⟩ :=
    write_spec (le_refl data.length) h32 _ _ hf.fair 0 file (by omega) rfl rfl hf
  exact ⟨file', hrun, by simpa using hdata, hf'⟩

variable [Host]

theorem write_word (n : Nat) :
    Writes (fun fuel => write fuel (bytes 4 n) 4 0) (bytes 4 n) := by
  have h := write_all (bytes 4 n) (by simp)
  rwa [length_bytes] at h

theorem writeRecord_spec {record : Bytes} (hrec : record.length < 2 ^ 32 - 1) :
    Writes (fun fuel => writeRecord fuel record) (frame record) := by
  have hsize : uint32 record.length = record.length := uint32_of_lt (by omega)
  intro file
  simp only [writeRecord, hsize]
  exact (write_word record.length).andThen (write_all record hrec) file

theorem writeRecords_spec (records : List Bytes)
    (hrecs : ∀ record ∈ records, record.length < 2 ^ 32 - 1) :
    Writes (fun fuel => writeRecords fuel records) (frames records) := by
  induction records with
  | nil => exact .nil
  | cons record records ih =>
    obtain ⟨hrec, hrest⟩ := forall_mem_cons.mp hrecs
    exact (writeRecord_spec hrec).andThen (ih hrest)

end RecordWriter

/-! ## The reader -/

namespace RecordReader

theorem read_spec {size : Nat} (h32 : size < 2 ^ 32) : ∀ n s, Fair s →
    ∀ readSize mem (file : File), readSize ≤ size → size - readSize = n → file.io = s →
      file.pos + n ≤ file.data.length →
      ∃ file', Settles (fun fuel => read fuel size readSize mem file)
          (true, mem.store readSize ((file.data.drop file.pos).take n), file') ∧
        file'.data = file.data ∧ file'.pos = file.pos + n ∧ Fair file'.io := by
  apply Fair.induction
  · intro s hs readSize mem file hle hn hio _
    have hdone : readSize = size := by omega
    subst hdone
    refine ⟨file, (Settles.pure _).step fun fuel => ?_, rfl, rfl, hio ▸ hs⟩
    simp [read]
  · intro n s c hs hc hcount ih readSize mem file hle hn hio havail
    have hr := File.read_count file (size - readSize) (c := c)
      (by rw [hn, hio]; exact hcount) (by omega)
    obtain ⟨file', hrun, hdata, hpos, hfair⟩ := ih (readSize + c)
      (mem.store readSize ((file.data.drop file.pos).take c))
      { file with pos := file.pos + c, io := file.io.tail } (by omega) (by omega)
      (by show file.io.tail = s.tail; rw [hio])
      (by show file.pos + c + (n + 1 - c) ≤ file.data.length; omega)
    have hlen : ((file.data.drop file.pos).take c).length = c := by
      rw [length_take, length_drop]
      omega
    have hsplit : (mem.store readSize ((file.data.drop file.pos).take c)).store (readSize + c)
          ((file.data.drop (file.pos + c)).take (n + 1 - c)) =
        mem.store readSize ((file.data.drop file.pos).take (n + 1)) := by
      conv => lhs; rw [show readSize + c = readSize + ((file.data.drop file.pos).take c).length by
        rw [hlen]]
      rw [Memory.store_store, show n + 1 = c + (n + 1 - c) by omega, take_add, drop_drop,
        show c + (n + 1 - c) - c = n + 1 - c by omega]
    refine ⟨file', ?_, hdata, by rw [hpos]; show file.pos + c + (n + 1 - c) = _; omega, hfair⟩
    rw [← hsplit]
    refine hrun.step fun fuel => ?_
    rw [read, if_pos (by omega : readSize < size), hr]
    simp only [show (c : Int) ≠ -1 by omega, ite_false]
    rw [uint32_add (by omega)]

theorem read_all (size : Nat) (h32 : size < 2 ^ 32) (mem : Memory) (file : File)
    (hfair : Fair file.io) (hpos : file.pos ≤ file.data.length) {bytes post : Bytes}
    (hbytes : bytes.length = size) (hdata : file.data.drop file.pos = bytes ++ post) :
    ∃ file', Settles (fun fuel => read fuel size 0 mem file) (true, mem.store 0 bytes, file') ∧
      file'.data = file.data ∧ file'.pos = file.pos + size ∧ Fair file'.io := by
  have havail : file.pos + size ≤ file.data.length := by
    have := congrArg length hdata
    simp only [length_drop, length_append] at this
    omega
  obtain ⟨file', hrun, hd, hp, hf⟩ :=
    read_spec h32 size _ hfair 0 mem file (Nat.zero_le _) (Nat.sub_zero _) rfl havail
  refine ⟨file', ?_, hd, hp, hf⟩
  rwa [hdata, take_left' hbytes] at hrun

/-- The sizes that doubling from one mebibyte reaches. -/
def BufferSize (n : UInt32) : Prop := ∃ k, k ≤ 31 ∧ n.toNat = 2 ^ k

theorem BufferSize.double {n : UInt32} {k : Nat} (hk : k < 31) (hn : n.toNat = 2 ^ k) :
    (n * 2).toNat = 2 ^ (k + 1) := by
  have hlt : 2 ^ (k + 1) < 2 ^ 32 := Nat.pow_lt_pow_right (by decide) (by omega)
  rw [UInt32.toNat_mul, hn, show (2 : UInt32).toNat = 2 from rfl, ← pow_succ, mod_eq_of_lt hlt]

theorem grow_spec {dataSize : UInt32} (hdata : dataSize.toNat ≤ 2 ^ 31) : ∀ m k bufferSize,
    m + k = 31 → bufferSize.toNat = 2 ^ k →
    ∃ bufferSize', Settles (fun fuel => grow fuel dataSize bufferSize) bufferSize' ∧
      BufferSize bufferSize' ∧ dataSize ≤ bufferSize' := by
  intro m
  induction m with
  | zero =>
    intro k bufferSize hk hb
    obtain rfl : k = 31 := by omega
    have hfit : ¬ dataSize > bufferSize := by
      rw [gt_iff_lt, lt_iff_toNat_lt]
      omega
    refine ⟨bufferSize, (Settles.pure _).step fun fuel => ?_, ⟨31, le_refl _, hb⟩, ?_⟩
    · simp only [grow, hfit, ite_false]
    · exact UInt32.not_lt.mp hfit
  | succ m ih =>
    intro k bufferSize hk hb
    by_cases hfit : dataSize > bufferSize
    · obtain ⟨b', hrun, hb', hle⟩ :=
        ih (k + 1) (bufferSize * 2) (by omega) (BufferSize.double (by omega) hb)
      refine ⟨b', hrun.step fun fuel => ?_, hb', hle⟩
      simp only [grow, hfit, ite_true]
    · refine ⟨bufferSize, (Settles.pure _).step fun fuel => ?_, ⟨k, by omega, hb⟩, ?_⟩
      · simp only [grow, hfit, ite_false]
      · exact UInt32.not_lt.mp hfit

/-- The buffer is kept, or replaced by a larger one. -/
theorem grow_settles {σ : Type} {dataSize bufferSize : UInt32} (hsize : dataSize.toNat ≤ 2 ^ 31)
    (hb : BufferSize bufferSize) (keep : σ) (replace : UInt32 → σ) :
    ∃ s, Settles (fun fuel => if dataSize > bufferSize then do
        let size ← grow fuel dataSize bufferSize
        return replace size
      else some keep) s ∧ (s = keep ∨ ∃ size, BufferSize size ∧ s = replace size) := by
  obtain ⟨k, hk, hb'⟩ := hb
  by_cases hfit : dataSize > bufferSize
  · obtain ⟨b, hrun, hb, -⟩ := grow_spec hsize (31 - k) k bufferSize (by omega) hb'
    refine ⟨replace b, ?_, .inr ⟨b, hb, rfl⟩⟩
    simp only [if_pos hfit]
    exact hrun.bind (fun _ n => some (replace n)) (Settles.pure _)
  · refine ⟨keep, ?_, .inl rfl⟩
    simp only [if_neg hfit]
    exact Settles.pure _

/-- The reader stands at `pos` of a file with content `data`. -/
structure At (r : RecordReader) (data : Bytes) (pos : Nat) : Prop where
  data_eq : r.file.data = data
  pos_eq : r.file.pos = pos
  pos_le : pos ≤ data.length
  fair : Fair r.file.io
  fileSize : r.fileSize.toNat = data.length
  bufferSize : BufferSize r.bufferSize

variable (alloc : Nat → Memory)

theorem create_at (file : File) (hfair : Fair file.io) (h32 : file.data.length < 2 ^ 32)
    (junk : UInt32) : (create alloc junk file).At file.data 0 := by
  have hsize : (ofInt ((file.data.length : Nat) : Int)).toNat = file.data.length := by
    rw [ofInt, toNat_ofNat']
    omega
  exact ⟨rfl, rfl, Nat.zero_le _, hfair, hsize, 20, by omega, rfl⟩

section

variable [Host]

/-- What `Read` makes of the four bytes of a length, over any bytes in the word before. -/
theorem load_word (word : Memory) (n : Nat) : (word.store 0 (bytes 4 n)).load 4 = bytes 4 n := by
  have h := word.load_store (bytes 4 n)
  rwa [length_bytes] at h

theorem toNat_word {n : Nat} (h : n < 2 ^ 32) : (ofNat (nat (bytes 4 n))).toNat = n := by
  rw [nat_bytes_of_lt (by omega), toNat_ofNat']
  omega

end

variable [Host]

variable {r : RecordReader} {data : Bytes} {pos : Nat} {record post : Bytes}

theorem readSize_spec (h : r.At data pos) (hrec : record.length < 2 ^ 32)
    (hdata : data.drop pos = bytes 4 record.length ++ post) :
    ∃ r', Settles (fun fuel => r.readSize fuel) (true, r') ∧ r'.At data (pos + 4) ∧
      r'.dataSize.toNat = record.length := by
  obtain ⟨file', hrun, hd, hp, hf⟩ := read_all 4 (by omega)
    (fun i => (bytes 4 r.dataSize.toNat).getD i 0) r.file h.fair
    (by rw [h.data_eq, h.pos_eq]; exact h.pos_le) (length_bytes 4 record.length)
    (by rw [h.data_eq, h.pos_eq]; exact hdata)
  have hlen : pos + 4 ≤ data.length := by
    have := congrArg length hdata
    simp only [length_drop, length_append, length_bytes] at this
    omega
  refine ⟨_, hrun.bind _ (Settles.pure _), ?_, ?_⟩
  · exact ⟨hd.trans h.data_eq, hp.trans (by rw [h.pos_eq]), hlen, hf, h.fileSize, h.bufferSize⟩
  · show (ofNat (nat (Memory.load _ 4))).toNat = record.length
    rw [load_word, toNat_word hrec]

omit [Host] in
theorem reserve_spec (hsize : r.dataSize.toNat ≤ 2 ^ 31) (hb : BufferSize r.bufferSize) :
    ∃ buffer bufferSize, Settles (fun fuel => r.reserve alloc fuel)
        { r with buffer := buffer, bufferSize := bufferSize } ∧ BufferSize bufferSize := by
  obtain ⟨s, hrun, hkeep | ⟨size, hsize', rfl⟩⟩ := grow_settles hsize hb r
    fun size => { r with bufferSize := size, buffer := alloc size.toNat }
  · exact ⟨r.buffer, r.bufferSize, hkeep ▸ hrun, hb⟩
  · exact ⟨alloc size.toNat, size, hrun, hsize'⟩

omit [Host] in
theorem readData_eq (h : r.At data pos) (hlen : pos + r.dataSize.toNat ≤ data.length) (fuel : Nat) :
    r.readData alloc fuel = r.reserve alloc fuel >>= fun r =>
      read fuel r.dataSize.toNat 0 r.buffer r.file >>= fun p =>
        some (if p.1 then 1 else -1, { r with buffer := p.2.1, file := p.2.2 }) := by
  have htell : r.file.tell = (pos : Int) := by rw [File.tell, h.pos_eq]
  have h₁ : ¬ ((pos : Int) ≥ r.fileSize.toNat ∧ r.dataSize ≠ 0) := by
    rintro ⟨hge, hne⟩
    rw [h.fileSize] at hge
    apply hne
    apply UInt32.toNat_inj.mp
    rw [show (0 : UInt32).toNat = 0 from rfl]
    omega
  have h₂ : (r.fileSize.toNat : Int) - pos ≥ r.dataSize.toNat := by
    rw [h.fileSize]
    omega
  simp only [readData, htell, show (pos : Int) ≠ -1 by omega, ite_false, h₁, h₂, ite_true]
  rfl

theorem next_eq (h : r.At data pos) (hlen : pos + 4 ≤ data.length) (fuel : Nat) :
    r.next alloc fuel = r.readSize fuel >>= fun p =>
      if p.1 then p.2.readData alloc fuel else some (-1, p.2) := by
  have htell : r.file.tell = (pos : Int) := by rw [File.tell, h.pos_eq]
  have hne : (pos : Int) ≠ r.fileSize.toNat := by rw [h.fileSize]; omega
  have hfour : (r.fileSize.toNat : Int) - pos ≥ 4 := by rw [h.fileSize]; omega
  simp only [next, htell, show (pos : Int) ≠ -1 by omega, hne, ite_false, hfour, ite_true]
  rfl

omit [Host] in
theorem readData_spec (h : r.At data pos) (hsize : r.dataSize.toNat = record.length)
    (hrec : record.length ≤ 2 ^ 31)
    (hdata : data.drop pos = record ++ post) :
    ∃ r', Settles (fun fuel => r.readData alloc fuel) (1, r') ∧
      r'.At data (pos + record.length) ∧ r'.readRecord = record := by
  have hlen : pos + record.length ≤ data.length := by
    have := congrArg length hdata
    have := h.pos_le
    simp only [length_drop, length_append] at *
    omega
  obtain ⟨buffer, bufferSize, hreserve, hb⟩ := reserve_spec alloc (hsize ▸ hrec) h.bufferSize
  obtain ⟨file', hrun, hd, hp, hf⟩ := read_all record.length (by omega) buffer _ h.fair
    (by rw [h.data_eq, h.pos_eq]; exact h.pos_le) rfl (by rw [h.data_eq, h.pos_eq]; exact hdata)
  refine ⟨{ r with buffer := buffer.store 0 record, file := file', bufferSize := bufferSize },
    (hreserve.bind _ ?_).congr (readData_eq alloc h (by omega)), ?_, ?_⟩
  · refine Settles.bind (x := (true, buffer.store 0 record, file')) ?_ _ (Settles.pure _)
    simp only [hsize]
    exact hrun
  · exact ⟨hd.trans h.data_eq, by rw [hp, h.pos_eq], hlen, hf, h.fileSize, hb⟩
  · rw [readRecord, hsize]
    exact Memory.load_store buffer record

/-- **One record**: a reader that stands at a frame returns 1 with the frame's record and stands
behind the frame. -/
theorem next_frame (h : r.At data pos) (hrec : record.length ≤ 2 ^ 31)
    (hdata : data.drop pos = frame record ++ post) :
    ∃ r', Settles (fun fuel => r.next alloc fuel) (1, r') ∧
      r'.At data (pos + (frame record).length) ∧ r'.readRecord = record := by
  rw [frame, append_assoc] at hdata
  have hlen : pos + 4 ≤ data.length := by
    have := congrArg length hdata
    simp only [length_drop, length_append, length_bytes] at this
    omega
  obtain ⟨r₁, hrun₁, h₁, hsize⟩ := readSize_spec h (by omega) hdata
  have hdata₁ : data.drop (pos + 4) = record ++ post := by
    rw [← drop_drop, hdata, drop_left' (length_bytes 4 _)]
  obtain ⟨r₂, hrun₂, h₂, hread⟩ := readData_spec alloc h₁ hsize hrec hdata₁
  refine ⟨r₂, (hrun₁.bind (fun fuel p =>
    if p.1 then p.2.readData alloc fuel else some (-1, p.2)) hrun₂).congr (next_eq alloc h hlen),
    ?_, hread⟩
  simpa [add_assoc] using h₂

theorem next_end (h : r.At data data.length) :
    Settles (fun fuel => r.next alloc fuel) (0, r) := by
  refine (Settles.pure _).congr fun fuel => ?_
  have htell : r.file.tell = (data.length : Int) := by rw [File.tell, h.pos_eq]
  simp [next, htell, h.fileSize, show (data.length : Int) ≠ -1 by omega]

/-- `Next` returns 1 once for each of the records, `ReadRecord` then gives its bytes, and the call
after these returns `last`. -/
def Delivers : RecordReader → List Bytes → Int → Prop
  | r, [], last => ∃ r', Settles (fun fuel => r.next alloc fuel) (last, r')
  | r, record :: records, last => ∃ r', Settles (fun fuel => r.next alloc fuel) (1, r') ∧
      r'.readRecord = record ∧ Delivers r' records last

theorem delivers_frames {last : Int} (post : Bytes) :
    ∀ (records : List Bytes) {r : RecordReader} {pos : Nat}, r.At data pos →
      (∀ record ∈ records, record.length ≤ 2 ^ 31) → data.drop pos = frames records ++ post →
      (∀ r' : RecordReader, r'.At data (pos + (frames records).length) →
        r'.Delivers alloc [] last) →
      r.Delivers alloc records last := by
  intro records
  induction records with
  | nil => intro r pos h _ _ hend; exact hend r h
  | cons record records ih =>
    intro r pos h hrecs hdata hend
    rw [frames_cons, append_assoc] at hdata
    obtain ⟨r', hrun, h', hread⟩ := next_frame alloc h (hrecs record mem_cons_self) hdata
    have hdata' : data.drop (pos + (frame record).length) = frames records ++ post := by
      rw [← drop_drop, hdata, drop_left]
    refine ⟨r', hrun, hread, ih h' (fun r hr => hrecs r (mem_cons_of_mem _ hr)) hdata' ?_⟩
    intro r'' h''
    refine hend r'' ?_
    rwa [frames_cons, length_append, ← add_assoc]

end RecordReader

theorem length_frames [Host] (records : List Bytes) :
    (frames records).length = (records.map fun record => 4 + record.length).sum := by
  induction records with
  | nil => rfl
  | cons record records ih => simp [ih]

/-- **RecordIO round trip.** Over files that move all bytes, possibly in parts: a written list of
records is read back record by record, and then `Next` returns 0. -/
theorem recordIO_round_trip [Host] (alloc : Nat → Memory) (junk : UInt32) (records : List Bytes)
    (hrec : ∀ record ∈ records, record.length < 2 ^ 31)
    (htotal : (records.map fun record => 4 + record.length).sum < 2 ^ 32)
    (wio rio : Schedule) (hw : Fair wio) (hr : Fair rio) :
    ∃ file, Settles (fun fuel => RecordWriter.writeRecords fuel records { data := [], io := wio })
        (true, file) ∧
      (create alloc junk { data := file.data, io := rio }).Delivers alloc records 0 := by
  have hempty : File.Appends { data := [], io := wio } := ⟨rfl, hw⟩
  obtain ⟨file, hrun, hdata, -⟩ := RecordWriter.writeRecords_spec records
    (fun record h => by have := hrec record h; omega) _ hempty
  refine ⟨file, hrun, ?_⟩
  rw [hdata]
  have hlen : (frames records).length < 2 ^ 32 := by rw [length_frames]; exact htotal
  have hat := create_at alloc { data := frames records, io := rio } hr hlen junk
  refine delivers_frames alloc [] records hat
    (fun record h => le_of_lt (hrec record h)) (by simp) ?_
  intro r' h'
  rw [zero_add] at h'
  exact ⟨r', next_end alloc h'⟩

/-- Two records, the second empty, over files that move one byte at a time. -/
theorem recordIO_round_trip_bytewise :
    ∃ file, Settles (fun fuel => @RecordWriter.writeRecords little fuel [[7, 8], []]
        { data := [], io := fun _ => .short 1 }) (true, file) ∧
      @RecordReader.Delivers (fun _ _ => 0) little (create (fun _ _ => 0) 99
        { data := file.data, io := fun _ => .short 1 }) [[7, 8], []] 0 :=
  @recordIO_round_trip little (fun _ _ => 0) 99 [[7, 8], []] (by decide) (by decide)
    (fun _ => .short 1) (fun _ => .short 1) (Fair.ofShort (by decide)) (Fair.ofShort (by decide))

end Toft
