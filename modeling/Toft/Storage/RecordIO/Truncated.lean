import Toft.Storage.RecordIO.RoundTrip

/-!
# Record files: cut files

What a reader does with a file that ends inside a record. `Next` compares the bytes that are left
with the length it has, but only a cut right behind the length word of a nonempty record makes it
return -1 (`next_cut`): in every other case it returns 1 without having read the record. A record
above 2^31 bytes is never delivered at all, since the doubled buffer size wraps to zero
(`next_hangs`).
-/

namespace Toft

open Lib Lib.Schedule List Host Nat RecordReader UInt32

/-! ## What a successful writer has written -/

namespace RecordWriter

/-- A write loop that returns true has appended all bytes, whatever the single calls did. -/
theorem write_true {data : Bytes} {size : Nat} (hsize : size ≤ data.length) (h32 : size < 2 ^ 32) :
    ∀ {fuel writeSize : Nat} {file file' : File}, writeSize ≤ size →
      file.pos = file.data.length → write fuel data size writeSize file = some (true, file') →
      file'.data = file.data ++ (data.take size).drop writeSize ∧
        file'.pos = file'.data.length := by
  intro fuel
  induction fuel with
  | zero => intro writeSize file file' _ _ h; cases h
  | succ fuel ih =>
    intro writeSize file file' hle hend h
    rw [write] at h
    by_cases hlt : writeSize < size
    · rw [if_pos hlt] at h
      have hlen : ((data.drop writeSize).take (size - writeSize)).length = size - writeSize := by
        rw [length_take, length_drop]
        omega
      cases hcount : (file.io 0).count (size - writeSize) with
      | none =>
        simp only [File.write, hlen, hcount, show int32 (-1) = -1 from rfl, ite_true] at h
        cases h
      | some c =>
        have hc := Transfer.count_le hcount
        rw [File.write_end hend _ (c := c) (by rw [hlen]; exact hcount)] at h
        simp only at h
        split at h
        · cases h
        · rw [uint32_add_int32 (by omega)] at h
          obtain ⟨hdata, hpos⟩ := ih (by omega)
            (by simp only [length_append, length_take, hlen]; omega) h
          refine ⟨?_, hpos⟩
          rw [hdata, append_assoc]
          congr 1
          rw [take_take, min_eq_left hc, drop_take, drop_take,
            show size - writeSize = c + (size - (writeSize + c)) by omega, take_add,
            drop_drop]
    · rw [if_neg hlt] at h
      cases h
      refine ⟨?_, hend⟩
      rw [drop_eq_nil_of_le (by rw [length_take]; omega), append_nil]

variable [Host]

theorem writeRecord_true {record : Bytes} (hrec : record.length < 2 ^ 32) {fuel : Nat}
    {file file' : File} (hend : file.pos = file.data.length)
    (h : writeRecord fuel record file = some (true, file')) :
    file'.data = file.data ++ frame record ∧ file'.pos = file'.data.length := by
  rw [writeRecord, uint32_of_lt hrec] at h
  obtain ⟨⟨ok, file₁⟩, h₁, h₂⟩ := Option.bind_eq_some_iff.mp h
  cases ok with
  | false => cases h₂
  | true =>
    have hword : (bytes 4 record.length).take 4 = bytes 4 record.length :=
      take_of_length_le (by simp)
    obtain ⟨hdata₁, hend₁⟩ := write_true (by simp) (by omega) (zero_le _) hend h₁
    obtain ⟨hdata₂, hend₂⟩ := write_true (le_refl _) hrec (zero_le _) hend₁ h₂
    refine ⟨?_, hend₂⟩
    rw [hdata₂, hdata₁, hword, drop_zero, take_length, drop_zero, frame, append_assoc]

/-- A list of records that was written without error stands in the file as its frames. -/
theorem writeRecords_true {fuel : Nat} : ∀ {records : List Bytes},
    (∀ record ∈ records, record.length < 2 ^ 32) → ∀ {file file' : File},
      file.pos = file.data.length → writeRecords fuel records file = some (true, file') →
      file'.data = file.data ++ frames records := by
  intro records
  induction records with
  | nil => intro _ file file' _ h; cases h; simp
  | cons record records ih =>
    intro hrecs file file' hend h
    obtain ⟨⟨ok, file₁⟩, h₁, h₂⟩ := Option.bind_eq_some_iff.mp h
    cases ok with
    | false => cases h₂
    | true =>
      obtain ⟨hdata₁, hend₁⟩ := writeRecord_true (hrecs record mem_cons_self) hend h₁
      rw [ih (fun r hr => hrecs r (mem_cons_of_mem _ hr)) hend₁ h₂, hdata₁, frames_cons,
        append_assoc]

end RecordWriter

/-! ## Records that are too large for the reader -/

namespace RecordReader

/-- Doubling never reaches a size above 2^31: it wraps to zero and stays there. -/
theorem grow_none {dataSize : UInt32} (hdata : 2 ^ 31 < dataSize.toNat) : ∀ fuel bufferSize,
    (bufferSize = 0 ∨ BufferSize bufferSize) → grow fuel dataSize bufferSize = none := by
  intro fuel
  induction fuel with
  | zero => intro _ _; rfl
  | succ fuel ih =>
    intro bufferSize hb
    have hlt : dataSize > bufferSize := by
      rw [gt_iff_lt, lt_iff_toNat_lt]
      rcases hb with rfl | ⟨k, hk, hb⟩
      · exact lt_of_le_of_lt (zero_le _) hdata
      · have : 2 ^ k ≤ 2 ^ 31 := Nat.pow_le_pow_right (by decide) hk
        omega
    rw [grow, if_pos hlt]
    apply ih
    rcases hb with rfl | ⟨k, hk, hb⟩
    · exact Or.inl rfl
    · rcases lt_or_ge k 31 with h | h
      · exact Or.inr ⟨k + 1, h, BufferSize.double h hb⟩
      · obtain rfl : k = 31 := by omega
        refine Or.inl (UInt32.toNat_inj.mp ?_)
        rw [UInt32.toNat_mul, hb]
        rfl

variable (alloc : Nat → Memory)

variable [Host]

variable {data : Bytes} {r : RecordReader}

/-- A reader that stands at a complete record above 2^31 bytes does not come back. -/
theorem next_hangs {pos : Nat} (h : r.At data pos)
    {record post : Bytes} (hrec : 2 ^ 31 < record.length) (hrec32 : record.length < 2 ^ 32)
    (hdata : data.drop pos = frame record ++ post) :
    Hangs (fun fuel => r.next alloc fuel) := by
  rw [frame, append_assoc] at hdata
  have hlen : pos + 4 + record.length ≤ data.length := by
    have := congrArg List.length hdata
    simp only [length_drop, length_append, length_bytes] at this
    omega
  obtain ⟨r₁, hrun₁, h₁, hsize⟩ := readSize_spec h hrec32 hdata
  have hbig : r₁.dataSize > r₁.bufferSize := by
    obtain ⟨k, hk, hb⟩ := h₁.bufferSize
    have : 2 ^ k ≤ 2 ^ 31 := Nat.pow_le_pow_right (by decide) hk
    rw [gt_iff_lt, lt_iff_toNat_lt]
    omega
  have hreserve : Hangs (fun fuel => r₁.reserve alloc fuel) := by
    refine ⟨0, fun fuel _ => ?_⟩
    show r₁.reserve alloc fuel = none
    rw [reserve, if_pos hbig, grow_none (hsize ▸ hrec) fuel _ (Or.inr h₁.bufferSize)]
    rfl
  have hread : Hangs (fun fuel => r₁.readData alloc fuel) :=
    (hreserve.bind _).congr (readData_eq alloc h₁ (by omega))
  exact (hrun₁.bind_hangs (fun fuel p =>
    if p.1 then p.2.readData alloc fuel else some (-1, p.2)) hread).congr
      (next_eq alloc h (by omega))

/-! ## The cut record -/

omit [Host] in
/-- With fewer than four bytes left `Next` returns 1, whatever length the record before had. -/
theorem next_short {pos : Nat} (h : r.At data pos)
    (hpos : pos < data.length) (hshort : data.length < pos + 4) [Host] :
    ∃ r', Settles (fun fuel => r.next alloc fuel) (1, r') := by
  have htell : r.file.tell = (pos : Int) := by rw [File.tell, h.pos_eq]
  have hnext : ∀ fuel, r.next alloc fuel = r.readData alloc fuel := by
    intro fuel
    have hne : (pos : Int) ≠ r.fileSize.toNat := by rw [h.fileSize]; omega
    have hfour : ¬ (r.fileSize.toNat : Int) - pos ≥ 4 := by rw [h.fileSize]; omega
    simp only [next, htell, show (pos : Int) ≠ -1 by omega, hne, ite_false, hfour]
    rfl
  rcases lt_or_ge data.length (pos + r.dataSize.toNat) with hlt | hle
  · refine ⟨r, (Settles.pure _).congr fun fuel => ?_⟩
    have h₁ : ¬ ((pos : Int) ≥ r.fileSize.toNat ∧ r.dataSize ≠ 0) := by rw [h.fileSize]; omega
    have h₂ : ¬ (r.fileSize.toNat : Int) - pos ≥ r.dataSize.toNat := by rw [h.fileSize]; omega
    rw [hnext]
    simp only [readData, htell, show (pos : Int) ≠ -1 by omega, ite_false, h₁, h₂]
  · -- the few bytes that are left are taken for a record of the old length
    have hlen : ((data.drop pos).take r.dataSize.toNat).length = r.dataSize.toNat := by
      rw [length_take, length_drop]
      omega
    obtain ⟨r', hrun, -, -⟩ := readData_spec alloc h hlen.symm (by omega)
      (take_append_drop _ _).symm
    exact ⟨r', hrun.congr hnext⟩

/-- A reader at a record of which only `c` bytes are left: only a cut right behind the length word
is reported. -/
theorem next_cut {pos c : Nat} (h : r.At data pos)
    {record : Bytes} (hrec : record.length < 2 ^ 32) (hc : 0 < c) (hcut : c < 4 + record.length)
    (hdata : data.drop pos = (frame record).take c) :
    ∃ r', Settles (fun fuel => r.next alloc fuel) (if c = 4 then -1 else 1, r') := by
  have hlen : data.length = pos + c := by
    have := congrArg List.length hdata
    simp only [length_drop, length_take, length_frame] at *
    omega
  rcases lt_or_ge c 4 with hlt | hge
  · rw [if_neg (by omega)]
    exact next_short alloc h (by omega) (by omega)
  · have hword : data.drop pos = bytes 4 record.length ++ record.take (c - 4) := by
      rw [hdata, frame, take_append, length_bytes, take_of_length_le (by simpa using hge)]
    obtain ⟨r₁, hrun₁, h₁, hsize⟩ := readSize_spec h hrec hword
    refine ⟨r₁, (hrun₁.bind (fun fuel p =>
      if p.1 then p.2.readData alloc fuel else some (-1, p.2)) ?_).congr
        (next_eq alloc h (by omega))⟩
    refine (Settles.pure _).congr fun fuel => ?_
    have htell : r₁.file.tell = ((pos + 4 : Nat) : Int) := by rw [File.tell, h₁.pos_eq]
    have hne : r₁.dataSize ≠ 0 := by
      intro h0
      rw [h0, show (0 : UInt32).toNat = 0 from rfl] at hsize
      omega
    simp only [readData, htell, show ((pos + 4 : Nat) : Int) ≠ -1 by omega, ite_false, ite_true]
    rcases eq_or_lt_of_le hge with rfl | hgt
    · rw [if_pos ⟨by rw [h₁.fileSize]; omega, hne⟩, if_pos rfl]
    · rw [if_neg (by rw [h₁.fileSize]; omega), if_neg (by rw [h₁.fileSize]; omega),
        if_neg (by omega)]

/-- What the reader makes of some complete records and a cut one. -/
theorem delivers_cut_iff {c : Nat} {record : Bytes} (hrec : record.length < 2 ^ 32)
    (hc : 0 < c) (hcut : c < 4 + record.length) : ∀ (records : List Bytes) {r : RecordReader}
      {pos : Nat}, r.At data pos → (∀ record ∈ records, record.length < 2 ^ 32) →
      data.drop pos = frames records ++ (frame record).take c →
      (r.Delivers alloc records (-1) ↔ c = 4 ∧ ∀ record ∈ records, record.length ≤ 2 ^ 31) := by
  intro records
  induction records with
  | nil =>
    intro r pos h _ hdata
    obtain ⟨r', hrun⟩ := next_cut alloc h hrec hc hcut hdata
    constructor
    · rintro ⟨r'', hrun''⟩
      have := congrArg Prod.fst (hrun''.unique hrun)
      refine ⟨?_, by simp⟩
      by_contra hne
      simp only [hne, ite_false] at this
      cases this
    · rintro ⟨rfl, -⟩
      exact ⟨r', hrun⟩
  | cons first records ih =>
    intro r pos h hrecs hdata
    rw [frames_cons, append_assoc] at hdata
    rcases lt_or_ge (2 ^ 31) first.length with hbig | hsmall
    · constructor
      · rintro ⟨r', hrun, -, -⟩
        exact absurd (next_hangs alloc h hbig (hrecs first mem_cons_self) hdata) hrun.not_hangs
      · rintro ⟨-, hall⟩
        have := hall first mem_cons_self
        omega
    · obtain ⟨r', hrun, h', hread⟩ := next_frame alloc h hsmall hdata
      have hdata' : data.drop (pos + (frame first).length) =
          frames records ++ (frame record).take c := by
        rw [← drop_drop, hdata, drop_left]
      have hih := ih h' (fun r hr => hrecs r (mem_cons_of_mem _ hr)) hdata'
      constructor
      · rintro ⟨r'', hrun'', -, hrest⟩
        have heq : r'' = r' := congrArg Prod.snd (hrun''.unique hrun)
        subst heq
        obtain ⟨hc4, hall⟩ := hih.mp hrest
        exact ⟨hc4, forall_mem_cons.mpr ⟨hsmall, hall⟩⟩
      · rintro ⟨hc4, hall⟩
        exact ⟨r', hrun, hread, hih.mpr ⟨hc4, (forall_mem_cons.mp hall).2⟩⟩

end RecordReader

/-- **Cut record files.** The file of a written list of records is cut `c` bytes into record `j`.
The reader delivers the complete records and then reports the cut exactly when the cut is right
behind the length word and the complete records are at most 2^31 bytes long. The cut file is below
2^32 bytes: `m_file_size` wraps beyond, and the reader returns 1 for a record across the wrapped
size with the bytes that the buffer still holds, which may be those of an equal record before. -/
theorem recordIO_cut_reported_iff [Host] (alloc : Nat → Memory) (junk : UInt32)
    (records : List Bytes) (hrec : ∀ record ∈ records, record.length < 2 ^ 32)
    (fuel : Nat) (wio : Schedule) (file : File)
    (hwritten : RecordWriter.writeRecords fuel records { data := [], io := wio } =
      some (true, file))
    (j c : Nat) (hj : j < records.length) (hc : 0 < c) (hcut : c < 4 + records[j].length)
    (htotal : ((records.take j).map fun record => 4 + record.length).sum + c < 2 ^ 32)
    (rio : Schedule) (hr : Fair rio) :
    (create alloc junk
        { data := file.data.take
            (((records.take j).map fun record => 4 + record.length).sum + c),
          io := rio }).Delivers alloc (records.take j) (-1) ↔
      c = 4 ∧ ∀ record ∈ records.take j, record.length ≤ 2 ^ 31 := by
  have hfile : file.data = frames records := by
    simpa using RecordWriter.writeRecords_true hrec (by rfl) hwritten
  have hsplit : frames records =
      frames (records.take j) ++ (frame records[j] ++ frames (records.drop (j + 1))) := by
    calc frames records = frames (records.take j ++ records.drop j) := by
          rw [take_append_drop]
      _ = _ := by rw [frames_append, drop_eq_getElem_cons hj, frames_cons]
  have hdata : file.data.take (((records.take j).map fun record => 4 + record.length).sum + c) =
      frames (records.take j) ++ (frame records[j]).take c := by
    rw [hfile, hsplit, ← length_frames, take_append,
      show (frames (records.take j)).length + c - (frames (records.take j)).length = c by omega,
      take_append, show c - (frame records[j]).length = 0 by rw [length_frame]; omega]
    simp
  rw [hdata]
  have hlen : (frames (records.take j) ++ (frame records[j]).take c).length < 2 ^ 32 := by
    rw [length_append, length_take, length_frames]
    omega
  exact delivers_cut_iff alloc (hrec _ (getElem_mem hj)) hc hcut (records.take j)
    (create_at alloc ⟨_, 0, rio⟩ hr hlen junk)
    (fun record h => hrec record (mem_of_mem_take h)) rfl

/-- A file of two records cut right behind the length word of the second: the first is delivered
and the cut reported. -/
theorem recordIO_cut_reported_at_word :
    ∃ fuel file, @RecordWriter.writeRecords little fuel [[9], [7, 8]] { data := [] } =
        some (true, file) ∧
      @RecordReader.Delivers (fun _ _ => 0) little
        (create (fun _ _ => 0) 99 { data := file.data.take 9 }) [[9]] (-1) := by
  obtain ⟨file, ⟨fuel, hrun⟩, -, -⟩ := @RecordWriter.writeRecords_spec little [[9], [7, 8]]
    (by decide) { data := [] } ⟨rfl, Fair.allFull⟩
  refine ⟨fuel, file, hrun fuel (le_refl _), ?_⟩
  exact (@recordIO_cut_reported_iff little (fun _ _ => 0) 99 [[9], [7, 8]] (by decide) fuel
    Schedule.allFull file (hrun fuel (le_refl _)) 1 4 (by decide) (by decide) (by decide)
    (by decide) Schedule.allFull Fair.allFull).mpr ⟨rfl, by decide⟩

/-- A file of one record cut one byte behind the length word: `Next` returns 1 for the record whose
second byte is missing. -/
theorem recordIO_cut_not_reported :
    ∃ fuel file, @RecordWriter.writeRecords little fuel [[7, 8]] { data := [] } =
        some (true, file) ∧
      (∃ r, Settles (fun fuel => @RecordReader.next little (fun _ _ => 0) fuel
        (create (fun _ _ => 0) 99 { data := file.data.take 5 })) (1, r)) ∧
      ¬ @RecordReader.Delivers (fun _ _ => 0) little
        (create (fun _ _ => 0) 99 { data := file.data.take 5 }) [] (-1) := by
  obtain ⟨file, ⟨fuel, hrun⟩, hdata, -⟩ := @RecordWriter.writeRecords_spec little [[7, 8]]
    (by decide) { data := [] } ⟨rfl, Fair.allFull⟩
  refine ⟨fuel, file, hrun fuel (le_refl _), ?_⟩
  have hcut : file.data.take 5 = [2, 0, 0, 0, 7] := by
    rw [hdata]
    decide
  rw [hcut]
  obtain ⟨r, hnext⟩ := @RecordReader.next_cut (fun _ _ => 0) little _ _ 0 5
    (create_at _ { data := [2, 0, 0, 0, 7] } Fair.allFull (by decide) 99)
    [7, 8] (by decide) (by decide) (by decide) (by decide)
  refine ⟨⟨r, hnext⟩, ?_⟩
  rintro ⟨r', hnext'⟩
  have hone : (-1 : Int) = 1 := congrArg Prod.fst (hnext'.unique hnext)
  exact absurd hone (by decide)

/-- A record above 2^31 bytes is written, and the reader does not return from its `Next`. -/
theorem recordIO_large_hangs [Host] (alloc : Nat → Memory) (junk : UInt32) {record : Bytes}
    (hlarge : 2 ^ 31 < record.length) (htotal : 4 + record.length < 2 ^ 32)
    {wio rio : Schedule} (hw : Fair wio) (hr : Fair rio) :
    ∃ file, Settles (fun fuel => RecordWriter.writeRecord fuel record { data := [], io := wio })
        (true, file) ∧
      Hangs fun fuel => (create alloc junk { data := file.data, io := rio }).next alloc fuel := by
  have hrec : record.length < 2 ^ 32 - 1 := by omega
  obtain ⟨file, hrun, hdata, -⟩ := RecordWriter.writeRecord_spec hrec ⟨[], 0, wio⟩ ⟨rfl, hw⟩
  have hat := create_at alloc ⟨frame record, 0, rio⟩ hr (by simpa using htotal) junk
  refine ⟨file, hrun, ?_⟩
  rw [hdata]
  exact next_hangs alloc hat hlarge (by omega) (append_nil _).symm

theorem recordIO_large_hangs_zeros :
    ∃ file, Settles (fun fuel => @RecordWriter.writeRecord little fuel (replicate (2 ^ 31 + 1) 0)
        { data := [] }) (true, file) ∧
      Hangs fun fuel => @next little (fun _ _ => 0) fuel (create (fun _ _ => 0) 9
        { data := file.data }) :=
  @recordIO_large_hangs little _ 9 _ (by rw [length_replicate]; omega)
    (by rw [length_replicate]; omega) _ _ Fair.allFull Fair.allFull

end Toft
