import Toft.Storage.SeqFile.DataInputBuffer
import Toft.Storage.SeqFile.Format

/-!
# Reading sequence files

`LocalSequenceFileReader` parses the header with its first call and keeps what it says. On the rest
of the file (`Rel`) a call of `ReadRecord` takes the next item from the front
(`runs_readRecord`), and at the end it returns false (`runs_readRecord_end`).
-/

namespace Toft.SeqFile

open Lib DataInputBuffer List Prog

/-- What the reader takes from the header of the file. -/
structure Header where
  isHeadParsed : Bool := false
  decompress : Bool := false
  blockDecompress : Bool := false
  hasSync : Bool := false
  sync : Bytes := []
  version : Int := -1
  keyClassName : Bytes := []
  valueClassName : Bytes := []
  deriving DecidableEq

/-- The header is parsed and has the given marker. -/
structure Header.Parsed (h : Header) (sync : Bytes) : Prop where
  isHeadParsed : h.isHeadParsed = true
  version : 1 < h.version
  hasSync : h.hasSync = true
  sync_eq : h.sync = sync
  length_sync : sync.length = 16

/-- The members of `LocalSequenceFileReader`. -/
structure LocalSequenceFileReader where
  input : DataInputBuffer
  header : Header := {}

/-- A method of the reader; without a value it returns false. -/
abbrev Reader := Prog Fault LocalSequenceFileReader

namespace LocalSequenceFileReader

def new (file : File) : LocalSequenceFileReader := { input := { file } }

def onInput {α : Type} (m : Input α) : Reader α :=
  .zoom (·.input) (fun input r => { r with input }) m

/-- The reader's members are changed. -/
def update (f : Header → Header) : Reader Unit := .modify fun r => { r with header := f r.header }

def getHeader : Reader Header := .gets (·.header)

/-! ## The header -/

section

variable [Host]

/-- `ParseTextKeyValueClassName` and `ParseUTF8KeyValueClassName`, which differ in how they read a
length. -/
def parseKeyValueClassName (readLen : Input Int) : Input (Bytes × Bytes) := do
  let keyClassNameLen ← readLen
  let keyClassName ← readString keyClassNameLen
  let valueClassNameLen ← readLen
  let valueClassName ← readString valueClassNameLen
  return (keyClassName, valueClassName)

def parseTextKeyValueClassName : Input (Bytes × Bytes) := parseKeyValueClassName readVInt

def parseUTF8KeyValueClassName : Input (Bytes × Bytes) := parseKeyValueClassName readShort

def parsePairs : Nat → Input Unit
  | 0 => pure ()
  | n + 1 => do
    let _ ← parseTextKeyValueClassName
    parsePairs n

def parseMetadata : Input Unit := do
  let num ← readInt
  parsePairs num.toNat

/-- The second part of `CheckSequenceFileVersion`. -/
def acceptVersion (versionString : Bytes) : Reader Unit :=
  if versionString.take 3 ≠ ascii "SEQ" then .fail
  else
    let version := charValue (versionString.getD 3 0)
    do
      update fun h => { h with version }
      if 6 < version then .fail

def checkSequenceFileVersion : Reader Unit := do
  let versionString ← onInput readVersion
  acceptVersion versionString

def loadKeyValueClassName : Reader Unit := do
  let h ← getHeader
  let (keyClassName, valueClassName) ←
    onInput (if h.version ≤ 4 then parseUTF8KeyValueClassName else parseTextKeyValueClassName)
  update fun h => { h with keyClassName, valueClassName }

/-- A compression byte, from the version behind `last` on. -/
def loadFlag (last : Int) : Reader Bool := do
  let h ← getHeader
  if last < h.version then
    let c ← onInput readByte
    return c ≠ 0
  else return false

def loadCompressInfo : Reader Unit := do
  let decompress ← loadFlag 2
  update fun h => { h with decompress }
  let blockDecompress ← loadFlag 4
  update fun h => { h with blockDecompress }
  if decompress then .fail
  else if blockDecompress then .fail

def loadMetadata : Reader Unit := do
  let h ← getHeader
  if h.version < 6 then return () else onInput parseMetadata

def loadSync : Reader Unit := do
  let h ← getHeader
  if h.version ≤ 1 then return ()
  else
    let sync ← onInput (readBuffer 16)
    update fun h => { h with sync, hasSync := true }

def loadSequenceFileHeader : Reader Unit := do
  checkSequenceFileVersion
  loadKeyValueClassName
  loadCompressInfo
  loadMetadata
  loadSync

/-- `Init`, with which the other methods begin. -/
def init : Reader Unit := do
  let h ← getHeader
  if h.isHeadParsed then return ()
  else
    loadSequenceFileHeader
    update fun h => { h with isHeadParsed := true }

/-! ## Records -/

def loadRecordLen : Reader Int := do
  let length ← onInput readInt
  let h ← getHeader
  if 1 < h.version ∧ h.hasSync ∧ length = -1 then
    let syncCheck ← onInput (readBuffer 16)
    if syncCheck ≠ h.sync then .fail else onInput readInt
  else return length

def readNext : Reader (Bytes × Bytes) := do
  let recordLen ← loadRecordLen
  let keyLen ← onInput readInt
  onInput (readKeyValue keyLen (int32 (recordLen - keyLen)))

def readRecord : Reader (Bytes × Bytes) := do
  init
  readNext

/-- What so many calls of `ReadRecord` give, `none` for false. -/
def readRecords : Nat → Reader (List (Option (Bytes × Bytes)))
  | 0 => return []
  | n + 1 => do
    let record ← readRecord.optional
    let records ← readRecords n
    return record :: records

/-! ## Seeking -/

/-- The loop of `SkipToSync`. Every round that goes on has skipped something. -/
def skipLoop (sync : Bytes) : Nat → Int → Input Int
  | 0, _ => .fault .unended
  | fuel + 1, returnedOffset => do
    loadAtLeast 16
    let oldOffset ← .gets fun d => d.offset
    let found ← findSync sync
    let offset ← .gets fun d => d.offset
    let returnedOffset := returnedOffset + ((offset : Int) - oldOffset)
    if found then return returnedOffset else skipLoop sync fuel returnedOffset

/-- `SkipToSync`; without a value it returns -1. -/
def skipToSync (offset : Int) : Reader Int := do
  init
  onInput (seek offset)
  let h ← getHeader
  let fuel ← onInput (.gets fun d => d.file.data.length + 1)
  onInput (skipLoop h.sync fuel offset)

end

/-! ## The rest of the file -/

/-- What the reader is for its users. -/
structure View where
  window : Window
  header : Header

/-- The reader is in the state that the view describes. -/
structure Rel (content : Bytes) (r : LocalSequenceFileReader) (v : View) : Prop where
  holds : Holds content r.input v.window
  header_eq : r.header = v.header

section

variable {content : Bytes} {α : Type} {w w' : Window} {h : Header} {m : Input α}

theorem runs_onInput {a : Option α} (hm : Prog.Runs (Holds content) m w (.ok (a, w'))) :
    Prog.Runs (Rel content) (onInput m) ⟨w, h⟩ (.ok (a, ⟨w', h⟩)) := by
  apply Prog.Runs.of_ok
  intro r hr
  obtain ⟨d, heq, hd⟩ := hm.exists_ok hr.holds
  exact ⟨{ r with input := d }, by rw [onInput, zoom, heq], ⟨hd, hr.header_eq⟩⟩

theorem runs_onInput_error {e : Fault} (hm : Prog.Runs (Holds content) m w (.error e)) :
    Prog.Runs (Rel content) (onInput m) ⟨w, h⟩ (.error e) := by
  apply Prog.Runs.of_error
  intro r hr
  rw [onInput, zoom, hm.eq_error hr.holds]

theorem runs_onInput_grown {a : α} {rest : Bytes} {size? : Option Nat}
    (hm : Prog.Runs (Holds content) m w (grown a (⟨rest, ·⟩) size?)) :
    Prog.Runs (Rel content) (onInput m) ⟨w, h⟩ (grown a (⟨⟨rest, ·⟩, h⟩) size?) := by
  cases size? with
  | none => exact runs_onInput_error hm
  | some size => exact runs_onInput hm

theorem runs_update (f : Header → Header) :
    Prog.Runs (Rel content) (update f) ⟨w, h⟩ (.ok (some (), ⟨w, f h⟩)) :=
  .modify fun _ hr => ⟨hr.holds, congrArg f hr.header_eq⟩

theorem runs_getHeader : Prog.Runs (Rel content) getHeader ⟨w, h⟩ (.ok (some h, ⟨w, h⟩)) :=
  .gets fun _ hr => hr.header_eq

end

/-! ## Records are taken from the front -/

section

variable [Host] {content sync : Bytes} {w : Window} {h : Header} {size size' : Nat}

theorem runs_init (hparsed : h.isHeadParsed = true) :
    Prog.Runs (Rel content) init ⟨w, h⟩ (.ok (some (), ⟨w, h⟩)) := by
  refine runs_getHeader.bind ?_
  rw [if_pos hparsed]
  exact .pure _

theorem init_of_parsed {r : LocalSequenceFileReader} (h : r.header.isHeadParsed = true) :
    init r = .ok (some (), r) :=
  congrFun (if_pos h) r

theorem readRecords_init {r r' : LocalSequenceFileReader} (hinit : init r = .ok (some (), r'))
    (hparsed : r'.header.isHeadParsed = true) (n : Nat) :
    readRecords (n + 1) r = readRecords (n + 1) r' := by
  have hrecord : readRecord r = readRecord r' := by
    rw [readRecord, bind_apply, bind_apply, hinit, init_of_parsed hparsed]
  have hoptional : readRecord.optional r = readRecord.optional r' := by
    rw [Prog.optional, Prog.optional, hrecord]
  rw [readRecords, bind_apply, bind_apply, hoptional]

variable {item : Item}

theorem runs_loadRecordLen (hh : h.Parsed sync) (hsize : item.size < 2 ^ 31) (rest : Bytes) :
    Prog.Runs (Rel content) loadRecordLen ⟨⟨item.bytes sync ++ rest, size⟩, h⟩
      (.ok (some (item.size : Int),
        ⟨⟨beBytes 4 item.key.length ++ (item.key ++ item.value ++ rest), size⟩, h⟩)) := by
  have hlen : Prog.Runs (Rel content) (onInput readInt) ⟨⟨beBytes 4 item.size ++
        (beBytes 4 item.key.length ++ (item.key ++ item.value ++ rest)), size⟩, h⟩
      (.ok (some (int32 item.size),
        ⟨⟨beBytes 4 item.key.length ++ (item.key ++ item.value ++ rest), size⟩, h⟩)) :=
    runs_onInput (runs_readInt _ (by omega))
  rw [int32_of_lt hsize] at hlen
  have hbody : item.body ++ rest = beBytes 4 item.size ++
      (beBytes 4 item.key.length ++ (item.key ++ item.value ++ rest)) := by
    simp only [Item.body, append_assoc]
  unfold Item.bytes
  by_cases hmarked : item.marked = true
  · rw [if_pos hmarked, append_assoc, append_assoc]
    refine (runs_onInput (runs_readInt _ (by decide))).bind (runs_getHeader.bind ?_)
    rw [if_pos ⟨hh.version, hh.hasSync, by decide⟩]
    refine (runs_onInput (runs_readBuffer sync _ hh.length_sync (by decide))).bind ?_
    rw [if_neg (not_not.mpr hh.sync_eq.symm)]
    exact hlen
  · rw [if_neg hmarked]
    refine hlen.bind (runs_getHeader.bind ?_)
    rw [if_neg (by omega)]
    exact .pure _

theorem runs_readRecord (hh : h.Parsed sync) (hsize : item.size < 2 ^ 31) (rest : Bytes) :
    Prog.Runs (Rel content) readRecord ⟨⟨item.bytes sync ++ rest, size⟩, h⟩
      (grown item.record (⟨⟨rest, ·⟩, h⟩) (grow size item.size)) := by
  refine (runs_init hh.isHeadParsed).bind ((runs_loadRecordLen hh hsize rest).bind ?_)
  unfold Item.size at hsize
  have hvalue : (((item.key.length + item.value.length : Nat) : Int) - item.key.length) =
      item.value.length := by omega
  refine (runs_onInput (runs_readInt _ (by omega))).bind ?_
  rw [Item.size, int32_of_lt (show item.key.length < 2 ^ 31 by omega), hvalue,
    int32_of_lt (show item.value.length < 2 ^ 31 by omega)]
  exact runs_onInput_grown (runs_readKeyValue item.key item.value rest hsize)

theorem runs_readRecord_end (hparsed : h.isHeadParsed = true) :
    Prog.Runs (Rel content) readRecord ⟨⟨[], size⟩, h⟩ (.ok (none, ⟨⟨[], size⟩, h⟩)) := by
  have hend : Prog.Runs (Holds content) readInt ⟨[], size⟩ (.ok (none, ⟨[], size⟩)) :=
    runs_readInt_end (by decide)
  exact (runs_init hparsed).bind (runs_onInput hend).bind_none.bind_none

/-! ## Calls in sequence -/

theorem runs_readRecords_end (hparsed : h.isHeadParsed = true) (n : Nat) :
    Prog.Runs (Rel content) (readRecords n) ⟨⟨[], size⟩, h⟩
      (.ok (some (List.replicate n none), ⟨⟨[], size⟩, h⟩)) := by
  induction n with
  | zero => exact .pure _
  | succ n ih => exact (runs_readRecord_end hparsed).optional.bind (ih.bind (.pure _))

/-- A buffer that cannot grow is a fault. -/
theorem runs_readRecords (hh : h.Parsed sync) {items : List Item}
    (hitems : ∀ item ∈ items, item.size < 2 ^ 31) (n : Nat) :
    Prog.Runs (Rel content) (readRecords (items.length + n))
      ⟨⟨items.flatMap (Item.bytes sync), size⟩, h⟩
      (grown (items.map (some ·.record) ++ List.replicate n none) (⟨⟨[], ·⟩, h⟩)
        (growAll size (items.map Item.size))) := by
  induction items generalizing size with
  | nil =>
    rw [length_nil, Nat.zero_add]
    exact runs_readRecords_end hh.isHeadParsed n
  | cons item items ih =>
    obtain ⟨hitem, hrest⟩ := forall_mem_cons.mp hitems
    rw [length_cons, Nat.succ_add, map_cons, map_cons]
    refine grown_bind (grown_optional (runs_readRecord hh hitem _)) fun size₁ => ?_
    exact grown_map (ih hrest) fun _ => .pure _

end

end LocalSequenceFileReader

end Toft.SeqFile
