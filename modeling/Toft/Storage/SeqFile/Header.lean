import Toft.Storage.SeqFile.Reader

/-!
# Headers of sequence files

A new reader on a file of the format parses its header (`runs_init_new`), provided that it can read
the lengths of the class names (`Layout.NamesReadable`) and that its buffer can grow to the texts of
the metadata.
-/

namespace Toft.SeqFile

open Lib DataInputBuffer LocalSequenceFileReader List Layout UInt8

/-- `ReadShort` gives the lengths of the class names, if it is used for them. -/
def Layout.NamesReadable [Host] (l : Layout) : Prop :=
  Host.isBigEndian = true ∨ 5 ≤ l.version ∨ l.keyClassName = [] ∧ l.valueClassName = []

/-- The header that the reader has parsed. -/
def Layout.header (l : Layout) : Header where
  isHeadParsed := true
  hasSync := true
  sync := l.sync
  version := l.version
  keyClassName := l.keyClassName
  valueClassName := l.valueClassName

theorem Layout.Valid.parsed {l : Layout} (h : l.Valid) : l.header.Parsed l.sync where
  isHeadParsed := rfl
  version := by
    have := h.two_le_version
    show (1 : Int) < l.version
    omega
  hasSync := rfl
  sync_eq := rfl
  length_sync := h.length_sync

/-! ## Names and metadata -/

section

variable {content : Bytes} {size : Nat} {key value : Bytes}

theorem runs_parseKeyValueClassName {readLen : Input Int} (lengthBytes : Bytes → Bytes)
    (hkey : ∀ rest size, Prog.Runs (Holds content) readLen ⟨lengthBytes key ++ rest, size⟩
      (.ok (some (key.length : Int), ⟨rest, size⟩)))
    (hvalue : ∀ rest size, Prog.Runs (Holds content) readLen ⟨lengthBytes value ++ rest, size⟩
      (.ok (some (value.length : Int), ⟨rest, size⟩)))
    (hlength : key.length < 2 ^ 31) (hlength' : value.length < 2 ^ 31) (rest : Bytes) :
    Prog.Runs (Holds content) (parseKeyValueClassName readLen)
      ⟨lengthBytes key ++ key ++ (lengthBytes value ++ value ++ rest), size⟩
      (grown (key, value) (⟨rest, ·⟩) (growAll size [key.length, value.length])) := by
  rw [append_assoc, append_assoc]
  refine (hkey _ _).bind (grown_bind (runs_readString key _ hlength) fun size₁ => ?_)
  exact (hvalue _ _).bind (grown_bind (runs_readString value _ hlength') fun _ => .pure _)

theorem runs_readVInt_length {s : Bytes} (hs : s.length < 2 ^ 31) (rest : Bytes) (size : Nat) :
    Prog.Runs (Holds content) readVInt ⟨writeVLong s.length ++ rest, size⟩
      (.ok (some (s.length : Int), ⟨rest, size⟩)) :=
  runs_readVInt rest (by omega) (by omega)

theorem runs_parseText (hkey : key.length < 2 ^ 31) (hvalue : value.length < 2 ^ 31)
    (rest : Bytes) :
    Prog.Runs (Holds content) parseTextKeyValueClassName
      ⟨text key ++ (text value ++ rest), size⟩
      (grown (key, value) (⟨rest, ·⟩) (growAll size [key.length, value.length])) :=
  runs_parseKeyValueClassName (fun s => writeVLong s.length) (runs_readVInt_length hkey)
    (runs_readVInt_length hvalue) hkey hvalue rest

variable {pairs : List (Bytes × Bytes)}

theorem runs_parsePairs
    (hpairs : ∀ pair ∈ pairs, pair.1.length < 2 ^ 31 ∧ pair.2.length < 2 ^ 31) (rest : Bytes) :
    Prog.Runs (Holds content) (parsePairs pairs.length) ⟨pairsBytes pairs ++ rest, size⟩
      (grown () (⟨rest, ·⟩)
        (growAll size (pairs.flatMap fun pair => [pair.1.length, pair.2.length]))) := by
  induction pairs generalizing size with
  | nil => exact .pure _
  | cons pair pairs ih =>
    obtain ⟨hpair, hrest⟩ := forall_mem_cons.mp hpairs
    rw [pairsBytes, flatMap_cons, append_assoc, append_assoc, flatMap_cons, growAll_append]
    exact grown_bind (runs_parseText hpair.1 hpair.2 _) fun _ => ih hrest

theorem runs_parseMetadata [Host] (hlength : pairs.length < 2 ^ 31)
    (hpairs : ∀ pair ∈ pairs, pair.1.length < 2 ^ 31 ∧ pair.2.length < 2 ^ 31) (rest : Bytes) :
    Prog.Runs (Holds content) parseMetadata ⟨metadataBytes pairs ++ rest, size⟩
      (grown () (⟨rest, ·⟩)
        (growAll size (pairs.flatMap fun pair => [pair.1.length, pair.2.length]))) := by
  refine (runs_readInt _ (by omega)).bind ?_
  rw [int32_of_lt hlength]
  exact runs_parsePairs hpairs rest

theorem runs_readShort_length [Host] {name : Bytes} (hname : name.length ≤ 32767)
    (hread : Host.isBigEndian = true ∨ name = []) (rest : Bytes) (size : Nat) :
    Prog.Runs (Holds content) readShort ⟨beBytes 2 name.length ++ rest, size⟩
      (.ok (some (name.length : Int), ⟨rest, size⟩)) := by
  have hshort : shortOf (beBytes 2 name.length) = name.length := by
    rcases hread with hbig | rfl
    · exact shortOf_beBytes hbig (by omega)
    · exact shortOf_zero
  rw [← hshort]
  exact runs_readShort _ rest (length_beBytes 2 _)

end

/-! ## The parts of the header -/

section

variable [Host] {l : Layout} {content : Bytes} {size : Nat} {h : Header}

theorem runs_loadKeyValueClassName (hl : l.Valid) (hnames : l.NamesReadable)
    (hsize : 65536 ≤ size) (hversion : h.version = l.version) (rest : Bytes) :
    Prog.Runs (Rel content) loadKeyValueClassName
      ⟨⟨className l.version l.keyClassName ++
        (className l.version l.valueClassName ++ rest), size⟩, h⟩
      (.ok (some (), ⟨⟨rest, size⟩,
        { h with keyClassName := l.keyClassName, valueClassName := l.valueClassName }⟩)) := by
  have hkey := hl.length_keyClassName
  have hvalue := hl.length_valueClassName
  have hgrow : growAll size [l.keyClassName.length, l.valueClassName.length] = some size := by
    apply growAll_of_le
    intro n hn
    simp only [mem_cons, not_mem_nil, or_false] at hn
    omega
  refine runs_getHeader.bind ?_
  unfold className
  by_cases hold : l.version ≤ 4
  · have hread : Host.isBigEndian = true ∨ l.keyClassName = [] ∧ l.valueClassName = [] := by
      rcases hnames with hbig | hnew | hnil
      · exact .inl hbig
      · omega
      · exact .inr hnil
    have hparse := @runs_parseKeyValueClassName content size _ _ _ (fun s => beBytes 2 s.length)
      (runs_readShort_length hkey (hread.imp_right And.left))
      (runs_readShort_length hvalue (hread.imp_right And.right)) (by omega) (by omega) rest
    rw [hgrow] at hparse
    rw [if_pos hold, if_pos hold, if_pos (by omega)]
    exact (runs_onInput hparse).bind (runs_update _)
  · have hparse :=
      @runs_parseText content size l.keyClassName l.valueClassName (by omega) (by omega)
      rest
    rw [hgrow] at hparse
    rw [if_neg hold, if_neg hold, if_neg (by omega)]
    exact (runs_onInput hparse).bind (runs_update _)

omit [Host] in
theorem runs_loadFlag (last : Nat) {version : Nat} (hversion : h.version = version) (rest : Bytes) :
    Prog.Runs (Rel content) (loadFlag last)
      ⟨⟨(if last < version then [0] else []) ++ rest, size⟩, h⟩
      (.ok (some false, ⟨⟨rest, size⟩, h⟩)) := by
  refine runs_getHeader.bind ?_
  by_cases hhas : last < version
  · rw [if_pos hhas, if_pos (by omega)]
    exact (runs_onInput (runs_readByte 0 rest)).bind (.pure _)
  · rw [if_neg hhas, if_neg (by omega)]
    exact .pure _

omit [Host] in
theorem runs_loadCompressInfo {version : Nat} (hversion : h.version = version) (rest : Bytes) :
    Prog.Runs (Rel content) loadCompressInfo ⟨⟨compressInfo version ++ rest, size⟩, h⟩
      (.ok (some (),
        ⟨⟨rest, size⟩, { h with decompress := false, blockDecompress := false }⟩)) := by
  rw [compressInfo, append_assoc]
  refine (runs_loadFlag 2 hversion _).bind ((runs_update _).bind ?_)
  refine (runs_loadFlag (h := { h with decompress := false }) 4 hversion rest).bind ?_
  exact (runs_update _).bind (.pure _)

theorem runs_loadMetadata (hl : l.Valid) (hversion : h.version = l.version) (rest : Bytes) :
    Prog.Runs (Rel content) loadMetadata
      ⟨⟨(if 6 ≤ l.version then metadataBytes l.metadata else []) ++ rest, size⟩, h⟩
      (grown () (⟨⟨rest, ·⟩, h⟩) (growAll size l.textLengths)) := by
  refine runs_getHeader.bind ?_
  unfold textLengths
  by_cases hhas : 6 ≤ l.version
  · rw [if_pos hhas, if_pos hhas, if_neg (by omega)]
    exact runs_onInput_grown (runs_parseMetadata hl.length_metadata hl.length_text rest)
  · rw [if_neg hhas, if_neg hhas, if_pos (by omega)]
    exact .pure _

omit [Host] in
theorem runs_loadSync (hl : l.Valid) (hversion : h.version = l.version) (rest : Bytes) :
    Prog.Runs (Rel content) loadSync ⟨⟨l.sync ++ rest, size⟩, h⟩
      (.ok (some (), ⟨⟨rest, size⟩, { h with sync := l.sync, hasSync := true }⟩)) := by
  have htwo := hl.two_le_version
  refine runs_getHeader.bind ?_
  rw [if_neg (by omega)]
  exact (runs_onInput (runs_readBuffer l.sync rest hl.length_sync (by decide))).bind (runs_update _)

end

/-! ## A new reader -/

theorem charValue_ofNat {n : Nat} (h : n < 128) : charValue (ofNat n) = n := by
  unfold charValue
  rw [toNat_ofNat', Int.bmod_def]
  split_ifs <;> omega

/-- A file that starts with the header of the layout. -/
def Layout.start (l : Layout) (tail : Bytes) : Bytes := l.preamble ++ (l.sync ++ tail)

/-- The header behind the version, and what follows. -/
def Layout.fields (l : Layout) (tail : Bytes) : Bytes :=
  className l.version l.keyClassName ++ (className l.version l.valueClassName ++
    (compressInfo l.version ++
      ((if 6 ≤ l.version then metadataBytes l.metadata else []) ++ (l.sync ++ tail))))

theorem Layout.start_eq (l : Layout) (tail : Bytes) :
    l.start tail = (ascii "SEQ" ++ [ofNat l.version]) ++ l.fields tail := by
  simp only [start, preamble, fields, append_assoc]

theorem rel_new {file : File} {content : Bytes} (hdata : file.data = content) (hpos : file.pos = 0)
    (hmoves : ∀ t, (file.io t).Moves) : Rel content (new file) ⟨⟨content, 65536⟩, {}⟩ where
  holds := {
    data_eq := hdata
    moves := hmoves
    pos_le := hpos ▸ Nat.zero_le _
    offset_le := le_rfl
    length_le := Nat.zero_le _
    rest_eq := by
      show [] ++ content.drop file.pos = content
      rw [hpos, drop_zero, nil_append]
    size_eq := rfl
    le_size := le_rfl
    size_lt := by norm_num
    suffix := suffix_rfl
    start := fun _ => rfl }
  header_eq := rfl

section

variable [Host] {l : Layout} {size : Nat}

omit [Host] in
theorem runs_checkSequenceFileVersion (hl : l.Valid) (tail : Bytes) {h : Header} :
    Prog.Runs (Rel (l.start tail)) checkSequenceFileVersion ⟨⟨l.start tail, size⟩, h⟩
      (.ok (some (), ⟨⟨l.fields tail, size⟩, { h with version := l.version }⟩)) := by
  have hversion := hl.version_le
  refine (runs_onInput (runs_readVersion (l.start_eq tail) rfl)).bind ?_
  unfold acceptVersion
  show Prog.Runs _ (do
    update fun h => { h with version := charValue (ofNat l.version) }
    if 6 < charValue (ofNat l.version) then .fail) _ _
  rw [charValue_ofNat (by omega), if_neg (by omega)]
  exact (runs_update _).bind (.pure _)

/-- A text of the metadata for which the buffer cannot grow is a fault. -/
theorem runs_init_new (hl : l.Valid) (hnames : l.NamesReadable) (tail : Bytes) :
    Prog.Runs (Rel (l.start tail)) init ⟨⟨l.start tail, 65536⟩, {}⟩
      (grown () (⟨⟨tail, ·⟩, l.header⟩) (growAll 65536 l.textLengths)) := by
  have hload : Prog.Runs (Rel (l.start tail)) loadSequenceFileHeader ⟨⟨l.start tail, 65536⟩, {}⟩
      (grown () (⟨⟨tail, ·⟩, { l.header with isHeadParsed := false }⟩)
        (growAll 65536 l.textLengths)) := by
    refine (runs_checkSequenceFileVersion hl tail).bind ?_
    refine (runs_loadKeyValueClassName hl hnames le_rfl rfl _).bind ?_
    refine (runs_loadCompressInfo rfl _).bind (grown_map (runs_loadMetadata hl rfl _) fun _ => ?_)
    exact runs_loadSync hl rfl tail
  refine runs_getHeader.bind ?_
  exact grown_map hload fun _ => runs_update _

end

end Toft.SeqFile
