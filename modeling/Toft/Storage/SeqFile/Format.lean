import Toft.Storage.SeqFile.Coding

/-!
# The format of sequence files

A sequence file has a header and then items, each of which is a record that may have a marker in
front of it. What the header has depends on the version: the class names have a length of two bytes
up to version 4 and a `vint` from version 5, the two compression bytes come with versions 3 and 5,
and the metadata with version 6.
-/

namespace Toft.SeqFile

open Lib

/-- A record, and whether a marker stands in front of it. -/
structure Item where
  marked : Bool
  key : Bytes
  value : Bytes

namespace Item

/-- The length that the file gives for the record. -/
def size (item : Item) : Nat := item.key.length + item.value.length

def record (item : Item) : Bytes × Bytes := (item.key, item.value)

def body (item : Item) : Bytes :=
  beBytes 4 item.size ++ (beBytes 4 item.key.length ++ (item.key ++ item.value))

/-- The escape of a marker is the length -1. -/
def bytes (sync : Bytes) (item : Item) : Bytes :=
  if item.marked then beBytes 4 (2 ^ 32 - 1) ++ (sync ++ item.body) else item.body

/-- The size of what is written for the record is an `int`. -/
def Fits (sync : Bytes) (item : Item) : Prop := (item.bytes sync).length < 2 ^ 31

theorem length_body (item : Item) : item.body.length = 8 + item.size := by
  simp only [body, size, List.length_append, length_beBytes]
  omega

variable {sync : Bytes}

theorem length_bytes (hsync : sync.length = 16) (item : Item) :
    (item.bytes sync).length = (if item.marked then 20 else 0) + (8 + item.size) := by
  unfold bytes
  split_ifs
  · rw [List.length_append, List.length_append, length_beBytes, length_body]
    omega
  · rw [length_body, Nat.zero_add]

theorem fits_of_size_lt (hsync : sync.length = 16) {item : Item}
    (h : item.size < 2 ^ 30) : item.Fits sync := by
  unfold Fits
  rw [length_bytes hsync]
  split_ifs <;> omega

theorem Fits.size_lt {item : Item} (h : item.Fits sync)
    (hsync : sync.length = 16) : item.size < 2 ^ 31 := by
  unfold Fits at h
  rw [length_bytes hsync] at h
  omega

end Item

/-- What a sequence file is made of. -/
structure Layout where
  version : Nat
  keyClassName : Bytes
  valueClassName : Bytes
  metadata : List (Bytes × Bytes) := []
  sync : Bytes
  items : List Item

namespace Layout

/-- A string with a `vint` for its length. -/
def text (s : Bytes) : Bytes := writeVLong s.length ++ s

def className (version : Nat) (name : Bytes) : Bytes :=
  if version ≤ 4 then beBytes 2 name.length ++ name else text name

/-- Neither the records nor the blocks are compressed. -/
def compressInfo (version : Nat) : Bytes :=
  (if 2 < version then [0] else []) ++ if 4 < version then [0] else []

def pairsBytes (pairs : List (Bytes × Bytes)) : Bytes :=
  pairs.flatMap fun pair => text pair.1 ++ text pair.2

def metadataBytes (metadata : List (Bytes × Bytes)) : Bytes :=
  beBytes 4 metadata.length ++ pairsBytes metadata

def preamble (l : Layout) : Bytes :=
  ascii "SEQ" ++ [UInt8.ofNat l.version] ++
    (className l.version l.keyClassName ++ (className l.version l.valueClassName ++
      (compressInfo l.version ++ if 6 ≤ l.version then metadataBytes l.metadata else [])))

def body (l : Layout) : Bytes := l.items.flatMap (Item.bytes l.sync)

def bytes (l : Layout) : Bytes := l.preamble ++ (l.sync ++ l.body)

/-- The lengths of the texts of the metadata, if the version has one. -/
def textLengths (l : Layout) : List Nat :=
  if 6 ≤ l.version then l.metadata.flatMap fun pair => [pair.1.length, pair.2.length] else []

/-- The lengths fit into the numbers that are written for them. -/
structure Valid (l : Layout) : Prop where
  two_le_version : 2 ≤ l.version
  version_le : l.version ≤ 6
  length_keyClassName : l.keyClassName.length ≤ 32767
  length_valueClassName : l.valueClassName.length ≤ 32767
  length_metadata : l.metadata.length < 2 ^ 31
  length_text : ∀ pair ∈ l.metadata, pair.1.length < 2 ^ 31 ∧ pair.2.length < 2 ^ 31
  length_sync : l.sync.length = 16
  size_item : ∀ item ∈ l.items, item.size < 2 ^ 31

end Layout

end Toft.SeqFile
