import Toft.Storage.SSTable.Hfile.Coding
import Toft.Storage.SSTable.Types

/-!
# The file info

Four reserved items and then the meta data of the table, each item as a name and a value with their
lengths as varints. The meta data that is added is what is read back
(`decodeFromString_encodeToString`).
-/

namespace Toft.Hfile

open Lib List Varint UInt32

/-- The members of `FileInfo`. -/
structure FileInfo where
  metaItems : List Record := []
  itemNum : Int := 4
  lastKey : Bytes := []
  avgKeyLen : Int := 0
  avgValueLen : Int := 0
  comparator : Bytes := ascii "org.apache.hadoop.hbase.util.Bytes$ByteArrayComparator"
  buffer : Bytes := []

namespace FileInfo

def RESERVED_PREFIX : Bytes := ascii "hfile."
def AVG_KEY_LEN : Bytes := RESERVED_PREFIX ++ ascii "AVG_KEY_LEN"
def AVG_VALUE_LEN : Bytes := RESERVED_PREFIX ++ ascii "AVG_VALUE_LEN"
def COMPARATOR : Bytes := RESERVED_PREFIX ++ ascii "COMPARATOR"
def LASTKEY : Bytes := RESERVED_PREFIX ++ ascii "LASTKEY"

/-- The names of the reserved items. -/
def reserved : List Bytes := [AVG_KEY_LEN, AVG_VALUE_LEN, COMPARATOR, LASTKEY]

/-- The text of an item: a name, a byte for compatibility and a value. -/
def itemBytes (key value : Bytes) : Bytes :=
  put32 (ofNat key.length) ++ key ++ [1] ++
    put32 (ofNat value.length) ++ value

def addItem (info : FileInfo) (key value : Bytes) : FileInfo :=
  { info with buffer := info.buffer ++ itemBytes key value, itemNum := info.itemNum + 1 }

theorem foldl_addItem (info : FileInfo) (items : List Record) :
    items.foldl (fun info item => info.addItem item.1 item.2) info =
      { info with
        buffer := info.buffer ++ items.flatMap fun item => itemBytes item.1 item.2
        itemNum := info.itemNum + items.length } := by
  induction items generalizing info with
  | nil => simp
  | cons item items ih =>
    rw [foldl_cons, ih]
    simp only [addItem, flatMap_cons, append_assoc, length_cons, Nat.cast_add, Nat.cast_one]
    congr 1
    omega

section Codec

variable [Host]

def encodeToString (info : FileInfo) : Bytes :=
  putFixed32 (ofInt info.itemNum) ++
    put32 (ofNat AVG_KEY_LEN.length) ++ AVG_KEY_LEN ++ [1] ++ put32 4 ++
    putFixed32 (ofInt info.avgKeyLen) ++
    put32 (ofNat AVG_VALUE_LEN.length) ++ AVG_VALUE_LEN ++ [1] ++ put32 4 ++
    putFixed32 (ofInt info.avgValueLen) ++
    itemBytes COMPARATOR info.comparator ++ itemBytes LASTKEY info.lastKey ++ info.buffer

/-- The length of the encoded file info with the given meta data. -/
def size (buffer lastKey : Bytes) : Nat :=
  ({ buffer := buffer, lastKey := lastKey } : FileInfo).encodeToString.length

theorem length_encodeToString {info : FileInfo} (h : info.comparator = ({} : FileInfo).comparator) :
    info.encodeToString.length = size info.buffer info.lastKey := by
  simp only [size, encodeToString, h, length_append, length_putFixed32]

/-- Reads the value of an item: a reserved one sets its member, any other is meta data. -/
def readValue (info : FileInfo) (key : Bytes) (valueLength : Int) (begin_ : Bytes) :
    Except Fault (FileInfo × Bytes) :=
  if key = AVG_KEY_LEN then do
    let (avgKeyLen, begin_) ← readInt32 begin_
    return ({ info with avgKeyLen := avgKeyLen }, begin_)
  else if key = AVG_VALUE_LEN then do
    let (avgValueLen, begin_) ← readInt32 begin_
    return ({ info with avgValueLen := avgValueLen }, begin_)
  else if key = COMPARATOR then do
    let (comparator, begin_) ← readString valueLength begin_
    return ({ info with comparator := comparator }, begin_)
  else if key = LASTKEY then do
    let (lastKey, begin_) ← readString valueLength begin_
    return ({ info with lastKey := lastKey }, begin_)
  else do
    let (value, begin_) ← readString valueLength begin_
    return ({ info with metaItems := info.metaItems ++ [(key, value)] }, begin_)

def decodeLoop : Nat → FileInfo → Bytes → Except Fault FileInfo
  | _, info, [] => .ok info
  | 0, _, _ :: _ => .error .unended
  | fuel + 1, info, begin_ => do
    let (keyLength, begin_) ← readVint begin_
    let (key, begin_) ← readString keyLength begin_
    -- one byte more is skipped; for the greatest `int`, `key_length + 1` would go back
    if keyLength = 2 ^ 31 - 1 then .error .overrun
    let (valueLength, begin_) ← readVint (begin_.drop 1)
    let (info, begin_) ← readValue info key valueLength begin_
    decodeLoop fuel info begin_

def decodeFromString (info : FileInfo) (str : Bytes) : Except Fault (Bool × FileInfo) := do
  let (itemNum, begin_) ← readInt32 str
  let info ← decodeLoop str.length { info with itemNum := itemNum } begin_
  return (true, info)

/-! ## Round trip -/

omit [Host] in
theorem int32_length {s : Bytes} (h : s.length < 2 ^ 31) :
    int32 (ofNat s.length).toNat = s.length := by
  rw [toNat_ofNat', Nat.mod_eq_of_lt (by omega), int32_of_lt h]

theorem decodeLoop_item {fuel : Nat} {info info' : FileInfo} {key rest rest' : Bytes} {n : UInt32}
    (hkey : key.length < 2 ^ 31 - 1)
    (hvalue : readValue info key (int32 n.toNat) rest = .ok (info', rest')) :
    decodeLoop (fuel + 1) info
        (put32 (ofNat key.length) ++ (key ++ ([1] ++ (put32 n ++ rest)))) =
      decodeLoop fuel info' rest' := by
  obtain ⟨c, t, hct⟩ : ∃ c t, put32 (ofNat key.length) ++
      (key ++ ([1] ++ (put32 n ++ rest))) = c :: t :=
    exists_cons_of_length_pos (by simp)
  rw [hct, decodeLoop, ← hct]
  · have hint : ¬ (key.length : Int) = 2 ^ 31 - 1 := by omega
    simp only [readVint_put32, ok_bind, int32_length (show key.length < 2 ^ 31 by omega),
      readString_append, hint, ite_false, singleton_append, drop_succ_cons, drop_zero, hvalue]
  · simp

variable {v : Bytes} (info : FileInfo)

theorem readValue_meta {key : Bytes} (hkey : key ∉ reserved)
    {n : Int} (hn : n = v.length) (rest : Bytes) :
    readValue info key n (v ++ rest) =
      .ok ({ info with metaItems := info.metaItems ++ [(key, v)] }, rest) := by
  simp only [reserved, mem_cons, not_mem_nil, or_false, not_or] at hkey
  obtain ⟨h₁, h₂, h₃, h₄⟩ := hkey
  rw [hn, readValue, if_neg h₁, if_neg h₂, if_neg h₃, if_neg h₄, readString_append]
  rfl

/-- Meta data that can be written and read back. -/
structure ItemFits (item : Record) : Prop where
  notReserved : item.1 ∉ reserved
  key : item.1.length < 2 ^ 31 - 1
  value : item.2.length < 2 ^ 31

instance (item : Record) : Decidable (ItemFits item) :=
  decidable_of_iff (item.1 ∉ reserved ∧ item.1.length < 2 ^ 31 - 1 ∧ item.2.length < 2 ^ 31)
    ⟨fun h => ⟨h.1, h.2.1, h.2.2⟩, fun h => ⟨h.1, h.2, h.3⟩⟩

theorem decodeLoop_items {items : List Record} (hfits : ∀ item ∈ items, ItemFits item)
    (fuel : Nat) (hfuel : items.length ≤ fuel) (info : FileInfo) :
    decodeLoop fuel info (items.flatMap fun item => itemBytes item.1 item.2) =
      .ok { info with metaItems := info.metaItems ++ items } := by
  induction items generalizing fuel info with
  | nil => cases fuel <;> simp [decodeLoop]
  | cons item items ih =>
    obtain ⟨fuel, rfl⟩ : ∃ k, fuel = k + 1 := ⟨fuel - 1, by simp at hfuel; omega⟩
    have hitem := hfits item mem_cons_self
    have hrest := ih (fun i hi => hfits i (mem_cons_of_mem _ hi)) fuel (by simpa using hfuel)
    simp only [flatMap_cons, itemBytes, append_assoc] at hrest ⊢
    rw [decodeLoop_item hitem.key
      (readValue_meta info hitem.notReserved (int32_length hitem.value) _), hrest]
    simp

theorem readValue_avgKeyLen (n : Int) (v : UInt32) (rest : Bytes) :
    readValue info AVG_KEY_LEN n (putFixed32 v ++ rest) =
      .ok ({ info with avgKeyLen := int32 v.toNat }, rest) := by
  simp only [readValue, ite_true, readInt32_putFixed32, ok_bind, pure_eq_ok]

theorem readValue_avgValueLen (n : Int) (v : UInt32) (rest : Bytes) :
    readValue info AVG_VALUE_LEN n (putFixed32 v ++ rest) =
      .ok ({ info with avgValueLen := int32 v.toNat }, rest) := by
  rw [readValue, if_neg (by decide)]
  simp only [ite_true, readInt32_putFixed32, ok_bind, pure_eq_ok]

theorem readValue_comparator {n : Int} (hn : n = v.length) (rest : Bytes) :
    readValue info COMPARATOR n (v ++ rest) = .ok ({ info with comparator := v }, rest) := by
  rw [hn, readValue, if_neg (by decide), if_neg (by decide)]
  simp only [ite_true, readString_append, ok_bind, pure_eq_ok]

theorem readValue_lastKey {n : Int} (hn : n = v.length) (rest : Bytes) :
    readValue info LASTKEY n (v ++ rest) = .ok ({ info with lastKey := v }, rest) := by
  rw [hn, readValue, if_neg (by decide), if_neg (by decide), if_neg (by decide)]
  simp only [ite_true, readString_append, ok_bind, pure_eq_ok]

omit [Host] in
theorem length_flatMap_itemBytes (items : List Record) :
    items.length ≤ (items.flatMap fun item => itemBytes item.1 item.2).length := by
  induction items with
  | nil => simp
  | cons item items ih =>
    simp only [flatMap_cons, length_cons, length_append]
    have : 1 ≤ (itemBytes item.1 item.2).length := by simp [itemBytes]; omega
    omega

omit [Host] in
theorem length_reserved : AVG_KEY_LEN.length < 2 ^ 31 - 1 ∧ AVG_VALUE_LEN.length < 2 ^ 31 - 1 ∧
    COMPARATOR.length < 2 ^ 31 - 1 ∧ LASTKEY.length < 2 ^ 31 - 1 := by
  decide

/-- **File info round trip.** -/
theorem decodeFromString_encodeToString {info : FileInfo} {items : List Record}
    (hbuffer : info.buffer = items.flatMap fun item => itemBytes item.1 item.2)
    (hfits : ∀ item ∈ items, ItemFits item) (hlast : info.lastKey.length < 2 ^ 31)
    (hcomp : info.comparator.length < 2 ^ 31) {s : FileInfo} (hs : s.metaItems = []) :
    ∃ info', s.decodeFromString info.encodeToString = .ok (true, info') ∧
      info'.metaItems = items := by
  have hlen := length_flatMap_itemBytes items
  obtain ⟨fuel, hfuel, hitems⟩ :
      ∃ k, info.encodeToString.length = k + 1 + 1 + 1 + 1 ∧ items.length ≤ k := by
    refine ⟨info.encodeToString.length - 4, ?_⟩
    simp only [encodeToString, length_append, length_putFixed32, hbuffer]
    omega
  obtain ⟨h₁, h₂, h₃, h₄⟩ := length_reserved
  unfold decodeFromString
  rw [hfuel]
  simp only [encodeToString, itemBytes, append_assoc]
  rw [readInt32_putFixed32, ok_bind]
  simp only
  rw [decodeLoop_item h₁ (readValue_avgKeyLen _ _ _ _),
    decodeLoop_item h₂ (readValue_avgValueLen _ _ _ _),
    decodeLoop_item h₃ (readValue_comparator _ (int32_length hcomp) _),
    decodeLoop_item h₄ (readValue_lastKey _ (int32_length hlast) _), hbuffer,
    decodeLoop_items hfits fuel hitems, ok_bind]
  refine ⟨_, rfl, ?_⟩
  simp only [hs, nil_append]

end Codec

end FileInfo

end Toft.Hfile
