import Toft.Storage.SeqFile.Header

/-!
# Writing sequence files

`LocalSequenceFileWriter` writes a header of version 6 and then the records, with a marker in front
of a record when a hundred have been written since the last one. A writer in append mode takes the
marker from the header of the file. What a list of sessions leaves is a file of the format
(`runSessions_eq`), so that a reader returns all records that they wrote (`sessions_round_trip`).
-/

namespace Toft.SeqFile

open Lib DataInputBuffer List Item

def defaultClassName : Bytes := ascii "org.apache.hadoop.io.BytesWritable"

/-- The members of `LocalSequenceFileWriter`. -/
structure LocalSequenceFileWriter where
  file : File
  sync : Bytes := []
  version : Int := 0
  keyClassName : Bytes := []
  valueClassName : Bytes := []
  recordsWrittenAfterSync : Nat := 0

namespace LocalSequenceFileWriter

variable [Host]

/-- `Write`: whether all bytes were written. -/
def write (w : LocalSequenceFileWriter) (data : Bytes) : Bool × LocalSequenceFileWriter :=
  let (written, file) := w.file.write data
  (written = data.length, { w with file })

/-! ## The header -/

/-- `TryingToLoadHeader`, with the content of the file and how the reads of it go; `none` if it
returns false. -/
def tryingToLoadHeader (w : LocalSequenceFileWriter) (io : Schedule) :
    Except Fault (Option LocalSequenceFileWriter) := do
  let (loaded, r) ← LocalSequenceFileReader.init (.new { data := w.file.data, io })
  let h := r.header
  if loaded = none then return none
  else if !h.hasSync || h.decompress || h.blockDecompress then return none
  else
    return some { w with
      sync := h.sync
      version := h.version
      keyClassName := h.keyClassName
      valueClassName := h.valueClassName }

/-- The bytes that `WriteHeader` puts together. -/
def headerBytes (sync : Bytes) : Bytes :=
  ascii "SEQ" ++ [6] ++ (writeVLong defaultClassName.length ++ defaultClassName) ++
    (writeVLong defaultClassName.length ++ defaultClassName) ++ [0, 0] ++ Host.bytes 4 0 ++ sync

def writeHeader (w : LocalSequenceFileWriter) : Except Fault (Bool × LocalSequenceFileWriter) :=
  let header := headerBytes w.sync
  let w := { w with
    version := 6
    keyClassName := defaultClassName
    valueClassName := defaultClassName }
  if 10240 < header.length then .error .fatal else .ok (w.write header)

/-- What a writer finds in the file: nothing unless its mode has an `a`. -/
def loadIfAppend (w : LocalSequenceFileWriter) (append : Bool) (io : Schedule) :
    Except Fault (Option LocalSequenceFileWriter) :=
  if append then w.tryingToLoadHeader io else .ok none

/-- `Init`. `append` says whether the mode of the file has an `a`, and `generated` is the marker
that `GenerateSync` makes. -/
def init (w : LocalSequenceFileWriter) (append : Bool) (generated : Bytes) (io : Schedule) :
    Except Fault (Bool × LocalSequenceFileWriter) := do
  match ← w.loadIfAppend append io with
  | some w => return (true, w)
  | none => writeHeader { w with sync := generated }

/-! ## Records -/

/-- The array of `WriteRecord`: its size is an `int`, and what is copied to it has to fill it. -/
def recordData (w : LocalSequenceFileWriter) (key value : Bytes) : Except Fault Bytes :=
  let recordSize := int32 (key.length + value.length)
  let keyLen := int32 key.length
  let marked := decide (100 ≤ w.recordsWrittenAfterSync)
  let size := int32 (8 + recordSize)
  let size' := if marked then int32 (size + 20) else size
  let data := (if marked then intBytes (-1) ++ w.sync else []) ++
    (intBytes recordSize ++ (intBytes keyLen ++ (key ++ value)))
  if size < 0 ∨ size' < 0 then .error .badLength
  else if (data.length : Int) ≠ size' then .error .overrun
  else .ok data

def writeRecord (w : LocalSequenceFileWriter) (key value : Bytes) :
    Except Fault (Bool × LocalSequenceFileWriter) := do
  let data ← w.recordData key value
  let count := if 100 ≤ w.recordsWrittenAfterSync then 0 else w.recordsWrittenAfterSync
  let (ok, w') := w.write data
  return (ok, { w' with recordsWrittenAfterSync := if ok then count + 1 else count })

/-- The records are written one after the other, as long as the calls return true. -/
def writeRecords (w : LocalSequenceFileWriter) :
    List (Bytes × Bytes) → Except Fault (Bool × LocalSequenceFileWriter)
  | [] => .ok (true, w)
  | (key, value) :: records => do
    let (ok, w') ← w.writeRecord key value
    if ok then w'.writeRecords records else return (false, w')

end LocalSequenceFileWriter

/-! ## Sessions -/

/-- A writer on the path, from `Init` to `Close`. -/
structure Session where
  append : Bool
  generated : Bytes
  io : Schedule
  records : List (Bytes × Bytes)

section

variable [Host]

/-- The content of the file behind a session, if all of its calls return true. Without append mode
the file is empty when it is opened. -/
def runSession (content : Bytes) (s : Session) : Except Fault (Option Bytes) := do
  let file := File.written (if s.append then content else [])
  let (ok, w) ← LocalSequenceFileWriter.init { file } s.append s.generated s.io
  if ok then
    let (ok, w) ← w.writeRecords s.records
    return if ok then some w.file.data else none
  else return none

def runSessions : Bytes → List Session → Except Fault (Option Bytes)
  | content, [] => .ok (some content)
  | content, s :: sessions => do
    match ← runSession content s with
    | some content => runSessions content sessions
    | none => return none

end

/-! ## The file that a writer leaves -/

/-- The items of the records that are written when `count` have been written since the last
marker. -/
def sessionItems : Nat → List (Bytes × Bytes) → List Item
  | _, [] => []
  | count, (key, value) :: records =>
    ⟨decide (100 ≤ count), key, value⟩ ::
      sessionItems ((if 100 ≤ count then 0 else count) + 1) records

def writtenLayout (sync : Bytes) (items : List Item) : Layout where
  version := 6
  keyClassName := defaultClassName
  valueClassName := defaultClassName
  sync := sync
  items := items

theorem map_record_sessionItems (count : Nat) (records : List (Bytes × Bytes)) :
    (sessionItems count records).map record = records := by
  induction records generalizing count with
  | nil => rfl
  | cons record records ih =>
    rw [sessionItems, map_cons, ih]
    rfl

theorem size_of_mem_sessionItems {n count : Nat} {records : List (Bytes × Bytes)}
    (h : ∀ record ∈ records, record.1.length + record.2.length < n) :
    ∀ item ∈ sessionItems count records, item.size < n := by
  intro item hitem
  have hmem : item.record ∈ records := by
    rw [← map_record_sessionItems count records]
    exact mem_map_of_mem hitem
  exact h _ hmem

theorem writtenLayout_valid {sync : Bytes} {items : List Item} (hsync : sync.length = 16)
    (hitems : ∀ item ∈ items, item.size < 2 ^ 31) : (writtenLayout sync items).Valid where
  two_le_version := show 2 ≤ 6 by decide
  version_le := show 6 ≤ 6 by decide
  length_keyClassName := show defaultClassName.length ≤ 32767 by decide
  length_valueClassName := show defaultClassName.length ≤ 32767 by decide
  length_metadata := show 0 < 2 ^ 31 by decide
  length_text := by simp [writtenLayout]
  length_sync := hsync
  size_item := hitems

theorem bytes_writtenLayout_append (sync : Bytes) (items more : List Item) :
    (writtenLayout sync (items ++ more)).bytes =
      (writtenLayout sync items).bytes ++ more.flatMap (bytes sync) := by
  have hbody : (writtenLayout sync (items ++ more)).body =
      (writtenLayout sync items).body ++ more.flatMap (bytes sync) :=
    flatMap_append
  rw [Layout.bytes, hbody, Layout.bytes, append_assoc, append_assoc]
  rfl

section

variable [Host] {content sync : Bytes}

namespace LocalSequenceFileWriter

theorem headerBytes_eq (sync : Bytes) : headerBytes sync = (writtenLayout sync []).bytes := by
  have hzero : Host.bytes 4 0 = beBytes 4 0 := by
    unfold Host.bytes beBytes
    split <;> rfl
  have hbody : (writtenLayout sync []).body = [] := rfl
  rw [headerBytes, hzero, Layout.bytes, hbody, append_nil]
  rfl

variable {w : LocalSequenceFileWriter}

omit [Host] in
theorem write_written (hfile : w.file = .written content)
    (data : Bytes) : w.write data = (true, { w with file := .written (content ++ data) }) := by
  rw [write, hfile, File.write_written]
  simp

theorem recordData_eq (hsync : w.sync.length = 16) {key value : Bytes}
    (hfits : Item.Fits w.sync ⟨decide (100 ≤ w.recordsWrittenAfterSync), key, value⟩) :
    w.recordData key value =
      .ok (bytes w.sync ⟨decide (100 ≤ w.recordsWrittenAfterSync), key, value⟩) := by
  unfold Item.Fits at hfits
  rw [length_bytes hsync, Item.size] at hfits
  dsimp only at hfits
  have hsum : (key.length : Int) + value.length = (key.length + value.length : Nat) := by omega
  have hkey : int32 (key.length : Int) = key.length := int32_of_lt (by omega)
  unfold recordData
  simp only [hsum, hkey, intBytes_natCast (show key.length < 2 ^ 31 by omega),
    int32_of_lt (show key.length + value.length < 2 ^ 31 by omega),
    intBytes_natCast (show key.length + value.length < 2 ^ 31 by omega), intBytes_neg_one]
  generalize hn : key.length + value.length = n at hfits
  have hsize₁ : int32 (8 + (n : Int)) = 8 + n := int32_of_bounds (by omega) (by omega)
  by_cases hmarked : 100 ≤ w.recordsWrittenAfterSync
  · simp only [hmarked, decide_true, if_true] at hfits ⊢
    have hsize₂ : int32 (8 + (n : Int) + 20) = 8 + n + 20 := int32_of_bounds (by omega) (by omega)
    rw [hsize₁, if_neg (by omega), if_neg, bytes, if_pos rfl, body, Item.size, hn,
      append_assoc]
    simp only [length_append, length_beBytes, hsync, not_not]
    omega
  · simp only [hmarked, decide_false, Bool.false_eq_true, if_false, hsize₁]
    rw [if_neg (by omega), if_neg, bytes, if_neg Bool.false_ne_true, body, Item.size, hn,
      nil_append]
    simp only [nil_append, length_append, length_beBytes, not_not]
    omega

theorem length_recordData (hsync : sync.length = 16) (marked : Bool) (key value : Bytes) :
    ((if marked then intBytes (-1) ++ sync else []) ++
      (intBytes (int32 (key.length + value.length)) ++
        (intBytes (int32 key.length) ++ (key ++ value)))).length =
      (bytes sync ⟨marked, key, value⟩).length := by
  rw [length_bytes hsync, Item.size]
  cases marked with
  | false =>
    rw [if_neg Bool.false_ne_true, if_neg Bool.false_ne_true, nil_append]
    simp only [length_append, length_intBytes]
    omega
  | true =>
    rw [if_pos rfl, if_pos rfl]
    simp only [length_append, length_intBytes, hsync]
    omega

omit [Host] in
theorem error_of_check {p q : Prop} [Decidable p] [Decidable q] {e₁ e₂ : Fault} {data : Bytes}
    (h : q) : ∃ e : Fault,
      (if p then .error e₁ else if q then .error e₂ else .ok data) = Except.error e := by
  split_ifs
  · exact ⟨e₁, rfl⟩
  · exact ⟨e₂, rfl⟩

/-- An item that is too large does not get through the checks of the array. -/
theorem recordData_error (hsync : w.sync.length = 16) {key value : Bytes}
    (hfits : ¬ Item.Fits w.sync ⟨decide (100 ≤ w.recordsWrittenAfterSync), key, value⟩) :
    ∃ e, w.recordData key value = .error e := by
  unfold recordData
  dsimp only
  rw [length_recordData hsync]
  have hbound (marked : Bool) (i j : Int) : (if marked then int32 i else int32 j) < 2 ^ 31 := by
    split_ifs
    · exact (int32_bounds i).2
    · exact (int32_bounds j).2
  apply error_of_check
  intro heq
  exact hfits (by exact_mod_cast heq.trans_lt (hbound _ _ _))

theorem writeRecords_spec (hfile : w.file = .written content)
    (hsync : w.sync.length = 16) (records : List (Bytes × Bytes)) :
    ((∀ item ∈ sessionItems w.recordsWrittenAfterSync records, item.Fits w.sync) ∧
      ∃ w', w.writeRecords records = .ok (true, w') ∧ w'.file = .written (content ++
        (sessionItems w.recordsWrittenAfterSync records).flatMap (bytes w.sync))) ∨
    ((¬ ∀ item ∈ sessionItems w.recordsWrittenAfterSync records, item.Fits w.sync) ∧
      ∃ e, w.writeRecords records = .error e) := by
  induction records generalizing w content with
  | nil =>
    left
    refine ⟨fun _ hitem => absurd hitem not_mem_nil, w, rfl, ?_⟩
    rw [hfile, sessionItems, flatMap_nil, append_nil]
  | cons record records ih =>
    obtain ⟨key, value⟩ := record
    rw [sessionItems, forall_mem_cons, flatMap_cons, writeRecords, writeRecord]
    by_cases hfits : Item.Fits w.sync ⟨decide (100 ≤ w.recordsWrittenAfterSync), key, value⟩
    · rw [recordData_eq hsync hfits, ok_bind, write_written hfile]
      rw [← append_assoc]
      rcases @ih _ { w with
          file := .written (content ++ _)
          recordsWrittenAfterSync :=
            (if 100 ≤ w.recordsWrittenAfterSync then 0 else w.recordsWrittenAfterSync) + 1 }
          rfl hsync with ⟨hall, hok⟩ | ⟨hnot, herror⟩
      · exact .inl ⟨⟨hfits, hall⟩, hok⟩
      · exact .inr ⟨fun h => hnot h.2, herror⟩
    · obtain ⟨e, herror⟩ := recordData_error hsync hfits
      rw [herror]
      exact .inr ⟨fun h => hfits h.1, e, rfl⟩

theorem writeHeader_eq (hfile : w.file = .written []) (hsync : w.sync.length = 16) :
    ∃ w', w.writeHeader = .ok (true, w') ∧ w'.sync = w.sync ∧
      w'.recordsWrittenAfterSync = w.recordsWrittenAfterSync ∧
      w'.file = .written (writtenLayout w.sync []).bytes := by
  have hlength : ¬ 10240 < (headerBytes w.sync).length := by
    have hvlong : (writeVLong defaultClassName.length).length = 1 := by decide
    have hname : defaultClassName.length = 34 := by decide
    have hseq : (ascii "SEQ").length = 3 := by decide
    simp only [headerBytes, length_append, hvlong]
    simp only [hsync, hname, hseq, Host.length_bytes, length_cons, length_nil]
    omega
  rw [writeHeader, if_neg hlength]
  have hwrite := @write_written [] { w with
    version := 6
    keyClassName := defaultClassName
    valueClassName := defaultClassName } hfile (headerBytes w.sync)
  refine ⟨_, congrArg Except.ok hwrite, rfl, rfl, ?_⟩
  rw [nil_append, headerBytes_eq]

theorem runs_init_written {items : List Item} (hl : (writtenLayout sync items).Valid) :
    Prog.Runs (LocalSequenceFileReader.Rel (writtenLayout sync items).bytes)
      LocalSequenceFileReader.init ⟨⟨(writtenLayout sync items).bytes, 65536⟩, {}⟩
      (.ok (some (), ⟨⟨(writtenLayout sync items).body, 65536⟩,
        (writtenLayout sync items).header⟩)) :=
  runs_init_new hl (.inr (.inl (show 5 ≤ 6 by decide))) _

/-- A writer in append mode takes the marker of the file. -/
theorem tryingToLoadHeader_eq {items : List Item} {io : Schedule}
    (hfile : w.file = .written (writtenLayout sync items).bytes) (hsync : sync.length = 16)
    (hitems : ∀ item ∈ items, item.size < 2 ^ 31) (hmoves : ∀ t, (io t).Moves) :
    ∃ w', w.tryingToLoadHeader io = .ok (some w') ∧ w'.sync = sync ∧ w'.file = w.file ∧
      w'.recordsWrittenAfterSync = w.recordsWrittenAfterSync := by
  have hl := writtenLayout_valid hsync hitems
  have hdata : w.file.data = (writtenLayout sync items).bytes := by
    rw [hfile]
    rfl
  have hnew := @rel_new { data := w.file.data, io } _ hdata rfl hmoves
  obtain ⟨r, heq, hrel⟩ := (runs_init_written hl).exists_ok hnew
  have hheader := hrel.header_eq
  rw [tryingToLoadHeader, heq, ok_bind]
  simp only [hheader]
  exact ⟨_, rfl, rfl, rfl, rfl⟩

theorem tryingToLoadHeader_nil {io : Schedule}
    (hfile : w.file = .written []) (hmoves : ∀ t, (io t).Moves) :
    w.tryingToLoadHeader io = .ok none := by
  have hdata : w.file.data = [] := by
    rw [hfile]
    rfl
  have hnew := @rel_new { data := w.file.data, io } _ hdata rfl hmoves
  have hversion : Prog.Runs (Holds []) readVersion ⟨[], 65536⟩ (.ok (none, ⟨[], 65536⟩)) :=
    runs_readVersion_end (by decide)
  have hinit : Prog.Runs (LocalSequenceFileReader.Rel []) LocalSequenceFileReader.init
      ⟨⟨[], 65536⟩, {}⟩ (.ok (none, ⟨⟨[], 65536⟩, {}⟩)) := by
    refine LocalSequenceFileReader.runs_getHeader.bind ?_
    exact (LocalSequenceFileReader.runs_onInput hversion).bind_none.bind_none.bind_none
  obtain ⟨r, heq, -⟩ := hinit.exists_ok hnew
  rw [tryingToLoadHeader, heq]
  rfl

end LocalSequenceFileWriter

open LocalSequenceFileWriter

/-! ## Sessions append items -/

/-- What a session asks of its environment: a marker of 16 bytes and reads that give something. -/
structure Session.Sound (s : Session) : Prop where
  length_generated : s.generated.length = 16
  moves : ∀ t, (s.io t).Moves

theorem runSession_new {s : Session} (hs : s.Sound) :
    ((∀ item ∈ sessionItems 0 s.records, item.Fits s.generated) ∧
      runSession [] s =
        .ok (some (writtenLayout s.generated (sessionItems 0 s.records)).bytes)) ∨
    ((¬ ∀ item ∈ sessionItems 0 s.records, item.Fits s.generated) ∧
      ∃ e, runSession [] s = .error e) := by
  have hloaded : loadIfAppend { file := .written [] } s.append s.io = .ok none := by
    unfold loadIfAppend
    split_ifs
    · exact tryingToLoadHeader_nil rfl hs.moves
    · rfl
  obtain ⟨w, hheader, hsync, hcount, hfile⟩ :=
    @writeHeader_eq _ { file := .written [], sync := s.generated } rfl hs.length_generated
  have hopen : (if s.append then ([] : Bytes) else []) = [] := ite_self _
  have hrecords := writeRecords_spec hfile (hsync ▸ hs.length_generated) s.records
  rw [hcount, hsync] at hrecords
  rw [runSession, hopen, init, hloaded, ok_bind]
  rw [hheader, ok_bind]
  dsimp only
  rcases hrecords with ⟨hfits, w', hrecords, hfile'⟩ | ⟨hfits, e, herror⟩
  · left
    refine ⟨hfits, ?_⟩
    rw [hrecords, ok_bind]
    rw [hfile']
    show Except.ok (some ((writtenLayout s.generated []).bytes ++ _)) = _
    rw [← bytes_writtenLayout_append, nil_append]
  · right
    rw [herror]
    exact ⟨hfits, e, rfl⟩

variable {items : List Item}

theorem runSession_append {s : Session} (hs : s.Sound)
    (happend : s.append = true) (hsync : sync.length = 16)
    (hitems : ∀ item ∈ items, item.Fits sync) :
    ((∀ item ∈ sessionItems 0 s.records, item.Fits sync) ∧
      runSession (writtenLayout sync items).bytes s =
        .ok (some (writtenLayout sync (items ++ sessionItems 0 s.records)).bytes)) ∨
    ((¬ ∀ item ∈ sessionItems 0 s.records, item.Fits sync) ∧
      ∃ e, runSession (writtenLayout sync items).bytes s = .error e) := by
  obtain ⟨w, hloaded, hsync', hfile, hcount⟩ := @tryingToLoadHeader_eq _ sync
    { file := .written (writtenLayout sync items).bytes } items s.io rfl hsync
    (fun item hitem => (hitems item hitem).size_lt hsync) hs.moves
  have hrecords := writeRecords_spec hfile (hsync' ▸ hsync) s.records
  rw [hcount, hsync'] at hrecords
  rw [runSession, happend, if_pos rfl, init, loadIfAppend, if_pos rfl, hloaded, ok_bind]
  dsimp only
  rw [pure_eq_ok, ok_bind]
  rcases hrecords with ⟨hfits, w', hrecords, hfile'⟩ | ⟨hfits, e, herror⟩
  · left
    refine ⟨hfits, ?_⟩
    rw [hrecords, ok_bind]
    rw [hfile']
    show Except.ok (some ((writtenLayout sync items).bytes ++ _)) = _
    rw [← bytes_writtenLayout_append]
  · right
    rw [herror]
    exact ⟨hfits, e, rfl⟩

def sessionsItems (sessions : List Session) : List Item :=
  sessions.flatMap fun s => sessionItems 0 s.records

theorem runSessions_append {sessions : List Session}
    (hsessions : ∀ s ∈ sessions, s.Sound ∧ s.append = true) (hsync : sync.length = 16)
    (hitems : ∀ item ∈ items, item.Fits sync) :
    ((∀ item ∈ sessionsItems sessions, item.Fits sync) ∧
      runSessions (writtenLayout sync items).bytes sessions =
        .ok (some (writtenLayout sync (items ++ sessionsItems sessions)).bytes)) ∨
    ((¬ ∀ item ∈ sessionsItems sessions, item.Fits sync) ∧
      ∃ e, runSessions (writtenLayout sync items).bytes sessions = .error e) := by
  induction sessions generalizing items with
  | nil =>
    left
    rw [sessionsItems, flatMap_nil, append_nil]
    exact ⟨fun _ hitem => absurd hitem not_mem_nil, rfl⟩
  | cons s sessions ih =>
    obtain ⟨⟨hs, happend⟩, hrest⟩ := forall_mem_cons.mp hsessions
    rw [runSessions, sessionsItems, flatMap_cons, forall_mem_append]
    rcases runSession_append hs happend hsync hitems with ⟨hfits, hok⟩ | ⟨hfits, e, herror⟩
    · rw [hok]
      rw [← append_assoc]
      rcases ih hrest (forall_mem_append.mpr ⟨hitems, hfits⟩) with ⟨hall, hok⟩ | ⟨hall, herror⟩
      · exact .inl ⟨⟨hfits, hall⟩, hok⟩
      · exact .inr ⟨fun h => hall h.2, herror⟩
    · rw [herror]
      exact .inr ⟨fun h => hfits h.1, e, rfl⟩

variable {later : List Session} {first : Session}

section

variable (hfirst : first.Sound) (hlater : ∀ s ∈ later, s.Sound ∧ s.append = true)
include hfirst hlater

/-- What the sessions leave: a file of the format with the marker of the first one. A record that
does not fit stops them. -/
theorem runSessions_spec :
    ((∀ item ∈ sessionsItems (first :: later), item.Fits first.generated) ∧
      runSessions [] (first :: later) =
        .ok (some (writtenLayout first.generated (sessionsItems (first :: later))).bytes)) ∨
    ((¬ ∀ item ∈ sessionsItems (first :: later), item.Fits first.generated) ∧
      ∃ e, runSessions [] (first :: later) = .error e) := by
  rw [runSessions, sessionsItems, flatMap_cons, forall_mem_append]
  rcases runSession_new hfirst with ⟨hfits, hok⟩ | ⟨hfits, e, herror⟩
  · rw [hok]
    rcases runSessions_append hlater hfirst.length_generated hfits with ⟨hall, hok⟩ | ⟨hall, herror⟩
    · exact .inl ⟨⟨hfits, hall⟩, hok⟩
    · exact .inr ⟨fun h => hall h.2, herror⟩
  · rw [herror]
    exact .inr ⟨fun h => hfits h.1, e, rfl⟩

theorem fits_of_runSessions (h : runSessions [] (first :: later) = .ok (some content)) :
    (∀ item ∈ sessionsItems (first :: later), item.Fits first.generated) ∧
      content = (writtenLayout first.generated (sessionsItems (first :: later))).bytes := by
  rcases runSessions_spec hfirst hlater with ⟨hfits, hok⟩ | ⟨-, e, herror⟩
  · rw [hok, Except.ok.injEq, Option.some.injEq] at h
    exact ⟨hfits, h.symm⟩
  · rw [herror] at h
    cases h

end

/-! ## Reading what the sessions wrote -/

omit [Host] in
theorem map_record_sessionsItems (sessions : List Session) :
    (sessionsItems sessions).map record = sessions.flatMap Session.records := by
  induction sessions with
  | nil => rfl
  | cons s sessions ih =>
    rw [sessionsItems, flatMap_cons, map_append, map_record_sessionItems]
    rw [sessionsItems] at ih
    rw [ih, flatMap_cons]

/-- A session with records of less than `2 ^ 30` bytes. -/
structure Session.Good (s : Session) : Prop extends s.Sound where
  size_record : ∀ record ∈ s.records, record.1.length + record.2.length < 2 ^ 30

omit [Host] in
theorem size_of_mem_sessionsItems {sessions : List Session} (h : ∀ s ∈ sessions, s.Good) :
    ∀ item ∈ sessionsItems sessions, item.size < 2 ^ 30 := by
  intro item hitem
  obtain ⟨s, hs, hitem⟩ := mem_flatMap.mp hitem
  exact size_of_mem_sessionItems (h s hs).size_record item hitem

theorem runSessions_eq (hfirst : first.Good) (hlater : ∀ s ∈ later, s.Good ∧ s.append = true) :
    runSessions [] (first :: later) =
      .ok (some (writtenLayout first.generated (sessionsItems (first :: later))).bytes) := by
  have hgood : ∀ s ∈ first :: later, s.Good :=
    forall_mem_cons.mpr ⟨hfirst, fun s hs => (hlater s hs).1⟩
  rcases runSessions_spec hfirst.toSound fun s hs => ⟨(hlater s hs).1.toSound, (hlater s hs).2⟩
    with ⟨-, hok⟩ | ⟨hfits, -⟩
  · exact hok
  · refine absurd (fun item hitem => ?_) hfits
    exact fits_of_size_lt hfirst.length_generated (size_of_mem_sessionsItems hgood item hitem)

theorem readRecords_written {file : File} (hsync : sync.length = 16)
    (hitems : ∀ item ∈ items, item.size < 2 ^ 30)
    (hdata : file.data = (writtenLayout sync items).bytes) (hpos : file.pos = 0)
    (hmoves : ∀ t, (file.io t).Moves) (n : Nat) :
    ∃ r, LocalSequenceFileReader.readRecords (items.length + n) (.new file) =
      .ok (some (items.map (some ·.record) ++ replicate n none), r) := by
  have hl := writtenLayout_valid hsync fun item hitem => (hitems item hitem).trans (by norm_num)
  obtain ⟨r₀, hinit, hrel⟩ := (runs_init_written hl).exists_ok (rel_new hdata hpos hmoves)
  have hparsed : r₀.header.isHeadParsed = true := by
    rw [hrel.header_eq]
    rfl
  obtain ⟨size, hgrow⟩ : ∃ size, growAll 65536 (items.map Item.size) = some size :=
    growAll_of_lt (by simpa using hitems) (by norm_num)
  have hread := @LocalSequenceFileReader.runs_readRecords _ (writtenLayout sync items).bytes _ _
    65536 hl.parsed items hl.size_item n
  rw [hgrow] at hread
  obtain ⟨r, heq, -⟩ := hread.exists_ok hrel
  cases hcount : items.length + n with
  | zero =>
    rw [hcount] at heq
    obtain ⟨hnil, -⟩ := Prog.eq_of_pure heq
    exact ⟨_, congrArg (fun records => Except.ok (some records, _)) hnil.symm⟩
  | succ k =>
    rw [hcount] at heq
    exact ⟨r, (LocalSequenceFileReader.readRecords_init hinit hparsed k).trans heq⟩

/-- All sessions succeed, and a reader then returns all records that they wrote, in order, and
false behind them. -/
theorem sessions_round_trip {first : Session} {later : List Session} (hfirst : first.Good)
    (hlater : ∀ s ∈ later, s.Good ∧ s.append = true) {io : Schedule} (hmoves : ∀ t, (io t).Moves) :
    ∃ content, runSessions [] (first :: later) = .ok (some content) ∧
      ∀ n, ∃ r, LocalSequenceFileReader.readRecords
          (((first :: later).flatMap Session.records).length + n) (.new { data := content, io }) =
        .ok (some (((first :: later).flatMap Session.records).map some ++
          replicate n none), r) := by
  have hgood : ∀ s ∈ first :: later, s.Good :=
    forall_mem_cons.mpr ⟨hfirst, fun s hs => (hlater s hs).1⟩
  refine ⟨_, runSessions_eq hfirst hlater, fun n => ?_⟩
  rw [← map_record_sessionsItems, length_map, map_map]
  exact readRecords_written hfirst.length_generated (size_of_mem_sessionsItems hgood) rfl rfl
    hmoves n

end

/-- A session that makes the file and one that appends to it, read byte by byte. -/
theorem sessions_round_trip_two :
    ∃ content, @runSessions Host.little []
        [⟨false, replicate 16 170, fun _ => .full, [([1], [2])]⟩,
          ⟨true, replicate 16 0, fun _ => .short 1, [([], [3]), ([4], [])]⟩] =
        .ok (some content) ∧
      ∀ n, ∃ r, @LocalSequenceFileReader.readRecords Host.little (3 + n)
          (.new { data := content, io := fun _ => .short 1 }) =
        .ok (some ([some ([1], [2]), some ([], [3]), some ([4], [])] ++
          replicate n none), r) := by
  refine @sessions_round_trip Host.little _ _ ?_ ?_ _ ?_
  · exact ⟨⟨rfl, fun _ => trivial⟩, by decide⟩
  · intro s hs
    obtain rfl := mem_singleton.mp hs
    exact ⟨⟨⟨rfl, fun _ => Nat.one_pos⟩, by decide⟩, rfl⟩
  · exact fun _ => Nat.one_pos

end Toft.SeqFile
