import Toft.Lib.ReadAll
import Toft.Storage.SSTable.Hfile.DataBlock
import Toft.Storage.SSTable.Hfile.DataIndex
import Toft.Storage.SSTable.Hfile.FileInfo

/-!
# The decoders on arbitrary bytes

The decoders of a data block, of the index and of the file info take items until they reach the end
of the string, and look at nothing but the lengths that stand there. A decoder keeps within the
string exactly if the string is made of whole items, up to its end or up to an item that stops the
run: a negative length, which `std::string` refuses, or a varint that does not end, which is
fatal.
-/

namespace Toft.Hfile

open Lib List Host Except

/-- The run stops with something else than a read outside of the string. -/
def Refused {α : Type} (m : Except Fault α) : Prop := ∃ e, e ≠ .overrun ∧ m = .error e

section

variable {α β : Type}

theorem not_refused_ok (a : α) : ¬ Refused (.ok a) := by
  rintro ⟨e, -, h⟩
  cases h

variable {m : Except Fault α}

theorem refused_bind_iff {f : α → Except Fault β} :
    Refused (m >>= f) ↔ Refused m ∨ ∃ a, m = .ok a ∧ Refused (f a) := by
  cases m <;> simp [Refused, ok_bind, error_bind]

variable {f : β → Except Fault α}

theorem refused_guard_iff {p : Prop} [Decidable p] :
    Refused (if p then .error .overrun >>= f else m) ↔ ¬ p ∧ Refused m := by
  split_ifs with h <;> simp [Refused, error_bind, h]

theorem guard_eq_ok_iff {p : Prop} [Decidable p]
    {a : α} : (if p then .error .overrun >>= f else m) = .ok a ↔ ¬ p ∧ m = .ok a := by
  split_ifs with h <;> simp [error_bind, h]

theorem refused_readVint_iff {s : Bytes} : Refused (readVint s) ↔ Varint.decode32 s = none := by
  simp [Refused, readVint_eq_error_iff]

theorem refused_readString_iff {length : Int} {s : Bytes} :
    Refused (readString length s) ↔ length < 0 := by
  constructor
  · rintro ⟨e, hne, h⟩
    exact ((readString_eq_error_iff.mp h).resolve_right fun hover => hne hover.2.symm).1
  · intro hneg
    exact ⟨.badLength, nofun, readString_eq_error_iff.mpr (.inl ⟨hneg, rfl⟩)⟩

theorem not_refused_readInt32 [Host] (s : Bytes) : ¬ Refused (readInt32 s) := by
  simp [Refused, readInt32_eq_error_iff]

theorem not_refused_readInt64 [Host] (s : Bytes) : ¬ Refused (readInt64 s) := by
  rintro ⟨e, hne, h⟩
  exact hne (readInt64_eq_error h).symm

end

/-- A decoder of items behind a magic string. -/
theorem decode_magic_iff {α σ : Type} {read : Bytes → Except Fault (α × Bytes)}
    {layout : α → Bytes → Prop} (h : Parses read layout) {refused : Bytes → Prop}
    (hrefused : ∀ {rest}, Refused (read rest) ↔ refused rest)
    {magic str : Bytes} {result : Except Fault (Bool × σ)} (old : σ) (new : List α → σ)
    (hresult : result = if magic.isPrefixOf str then do
      let xs ← readAll read .unended str.length (str.drop magic.length)
      return (true, new xs)
      else .ok (false, old))
    {P : σ → Prop} (hP : ∀ xs body, str = magic ++ body → Laid layout xs body → P (new xs)) :
    (result ≠ .error .overrun ∧ ∀ s, result = .ok (true, s) → P s) ↔
      ∀ body, str = magic ++ body → LaidUpTo layout refused body := by
  by_cases hmagic : magic <+: str
  · obtain ⟨body, rfl⟩ := hmagic
    have hfuel : body.length ≤ (magic ++ body).length := by
      rw [length_append]
      omega
    have hloop := h.readAll_ne_error_iff .unended hfuel hrefused
    rw [if_pos (List.isPrefixOf_iff_prefix.mpr (prefix_append _ _)), drop_left] at hresult
    rw [hresult, ne_eq, bind_eq_error_iff]
    simp only [pure_eq_ok, reduceCtorEq, and_false, exists_false, or_false]
    rw [← ne_eq, hloop]
    constructor
    · rintro ⟨hlaid, -⟩ body' hbody'
      rwa [← append_cancel_left hbody']
    · intro hall
      refine ⟨hall body rfl, fun s hs => ?_⟩
      obtain ⟨xs, hread, heq⟩ := bind_eq_ok_iff.mp hs
      cases heq
      exact hP xs body rfl ((h.readAll_ok_iff hfuel).mp hread)
  · rw [if_neg (by simpa using hmagic)] at hresult
    rw [hresult]
    exact iff_of_true ⟨nofun, nofun⟩ fun body hbody => absurd ⟨body, hbody.symm⟩ hmagic

variable [Host]

namespace DataBlock

/-! ## Data blocks -/

def readItem (begin_ : Bytes) : Except Fault (Record × Bytes) := do
  let (keyLength, begin_) ← readInt32 begin_
  let (valueLength, begin_) ← readInt32 begin_
  let (key, begin_) ← readString keyLength begin_
  let (value, begin_) ← readString valueLength begin_
  return ((key, value), begin_)

/-- The bytes of an item; its length fields are those of its strings. -/
def ItemLayout (item : Record) (piece : Bytes) : Prop :=
  ∃ keyLength valueLength, keyLength.length = 4 ∧ valueLength.length = 4 ∧
    piece = keyLength ++ (valueLength ++ (item.1 ++ item.2)) ∧
    int32 (nat keyLength) = item.1.length ∧ int32 (nat valueLength) = item.2.length

/-- An item whose negative length is met before anything is missing. -/
def ItemRefused (s : Bytes) : Prop :=
  ∃ keyLength valueLength rest, keyLength.length = 4 ∧ valueLength.length = 4 ∧
    s = keyLength ++ (valueLength ++ rest) ∧
    (int32 (nat keyLength) < 0 ∨
      ∃ key rest', rest = key ++ rest' ∧ int32 (nat keyLength) = key.length ∧
        int32 (nat valueLength) < 0)

theorem parses_readItem : Parses readItem ItemLayout where
  ne_nil := by
    rintro item piece ⟨keyLength, valueLength, hkey, -, rfl, -⟩ hnil
    rw [(append_eq_nil_iff.mp hnil).1] at hkey
    cases hkey
  read_iff := by
    rintro s ⟨key, value⟩ rest
    simp only [readItem, bind_eq_ok_iff, Prod.exists, readInt32_eq_ok_iff, readString_eq_ok_iff,
      pure_eq_ok, ok.injEq, Prod.mk.injEq]
    constructor
    · rintro ⟨n, s₁, ⟨keyLength, hlen, rfl, hn⟩, m, s₂, ⟨valueLength, hlen', rfl, hm⟩, key, s₃,
        ⟨rfl, hkey⟩, value, s₄, ⟨rfl, hvalue⟩, ⟨rfl, rfl⟩, rfl⟩
      exact ⟨keyLength ++ (valueLength ++ (key ++ value)), by simp, keyLength, valueLength, hlen,
        hlen', rfl, hn.symm.trans hkey, hm.symm.trans hvalue⟩
    · rintro ⟨piece, rfl, keyLength, valueLength, hlen, hlen', rfl, hkey, hvalue⟩
      exact ⟨_, _, ⟨keyLength, hlen, append_assoc _ _ _, rfl⟩, _, _,
        ⟨valueLength, hlen', append_assoc _ _ _, rfl⟩, key, _, ⟨append_assoc _ _ _, hkey⟩, value,
        rest, ⟨rfl, hvalue⟩, ⟨rfl, rfl⟩, rfl⟩

theorem readItem_refused_iff {s : Bytes} : Refused (readItem s) ↔ ItemRefused s := by
  simp only [readItem, refused_bind_iff, not_refused_readInt32, refused_readString_iff, pure_eq_ok,
    not_refused_ok, Prod.exists, readInt32_eq_ok_iff, readString_eq_ok_iff, false_or, and_false,
    exists_false, or_false]
  constructor
  · rintro ⟨n, s₁, ⟨keyLength, hlen, rfl, hn⟩, m, s₂, ⟨valueLength, hlen', rfl, hm⟩, hneg⟩
    rw [hn, hm] at hneg
    refine ⟨keyLength, valueLength, s₂, hlen, hlen', rfl, hneg.imp_right ?_⟩
    rintro ⟨key, s₃, ⟨rfl, hkey⟩, hvalue⟩
    exact ⟨key, s₃, rfl, hkey, hvalue⟩
  · rintro ⟨keyLength, valueLength, rest, hlen, hlen', rfl, hneg⟩
    refine ⟨_, _, ⟨keyLength, hlen, rfl, rfl⟩, _, _, ⟨valueLength, hlen', rfl, rfl⟩,
      hneg.imp_right ?_⟩
    rintro ⟨key, rest', rfl, hkey, hvalue⟩
    exact ⟨key, rest', ⟨rfl, hkey⟩, hvalue⟩

theorem decodeItems_eq (fuel : Nat) (s : Bytes) :
    decodeItems fuel s = readAll readItem .unended fuel s := by
  induction fuel generalizing s with
  | zero => cases s <;> rfl
  | succ fuel ih =>
    cases s with
    | nil => rfl
    | cons c s =>
      rw [readAll_cons, decodeItems, readItem]
      · simp only [bind_assoc, pure_bind, ih]
      · simp

/-- Nothing is read outside of the string, and the block is accepted only if its items make up the
string. -/
def DecodesSafely (b : DataBlock) (str : Bytes) : Prop :=
  b.decodeFromString str ≠ .error .overrun ∧
    ∀ b', b.decodeFromString str = .ok (true, b') →
      ∃ body, str = kDataBlockMagic ++ body ∧ Laid ItemLayout b'.dataItems body

/-- **Data blocks.** -/
theorem decodesSafely_iff {b : DataBlock} (h : b.compression = none) (str : Bytes) :
    b.DecodesSafely str ↔
      ∀ body, str = kDataBlockMagic ++ body → LaidUpTo ItemLayout ItemRefused body := by
  refine decode_magic_iff parses_readItem readItem_refused_iff b
    (fun items => { b with dataItems := items }) ?_
    fun items body hbody hlaid => ⟨body, hbody, hlaid⟩
  have hdecode : b.decodeFromString str = b.decodeInternal str := by rw [decodeFromString, h]
  rw [hdecode, decodeInternal, ← decodeItems_eq]

end DataBlock

namespace DataIndex

/-! ## The data index -/

def readInfo (begin_ : Bytes) : Except Fault (DataBlockInfo × Bytes) := do
  let (offset, begin_) ← readInt64 begin_
  let (dataSize, begin_) ← readInt32 begin_
  let (keyLen, begin_) ← readVint begin_
  let (key, begin_) ← readString keyLen begin_
  return ({ offset := offset, dataSize := dataSize, key := key }, begin_)

/-- The bytes of an entry; its length field is that of its key. -/
def InfoLayout (info : DataBlockInfo) (piece : Bytes) : Prop :=
  ∃ offset dataSize keyLen, offset.length = 8 ∧ dataSize.length = 4 ∧
    piece = offset ++ (dataSize ++ (keyLen ++ info.key)) ∧
    info.offset = int64 (nat offset) ∧ info.dataSize = int32 (nat dataSize) ∧
    Vint info.key.length keyLen

/-- An entry whose length does not end or is negative. -/
def InfoRefused (s : Bytes) : Prop :=
  ∃ offset dataSize rest, offset.length = 8 ∧ dataSize.length = 4 ∧
    s = offset ++ (dataSize ++ rest) ∧
    (Varint.decode32 rest = none ∨ ∃ n keyLen rest', rest = keyLen ++ rest' ∧ Vint n keyLen ∧ n < 0)

theorem parses_readInfo : Parses readInfo InfoLayout where
  ne_nil := by
    rintro info piece ⟨offset, dataSize, keyLen, hlen, -, rfl, -⟩ hnil
    rw [(append_eq_nil_iff.mp hnil).1] at hlen
    cases hlen
  read_iff := by
    rintro s ⟨n, m, key⟩ rest
    simp only [readInfo, bind_eq_ok_iff, Prod.exists, readInt64_eq_ok_iff, readInt32_eq_ok_iff,
      readVint_eq_ok_iff, readString_eq_ok_iff, pure_eq_ok, ok.injEq, Prod.mk.injEq,
      DataBlockInfo.mk.injEq]
    constructor
    · rintro ⟨_, s₁, ⟨offset, hlen, rfl, hn⟩, _, s₂, ⟨dataSize, hlen', rfl, hm⟩, k, s₃,
        ⟨keyLen, rfl, hk⟩, key, s₄, ⟨rfl, rfl⟩, ⟨rfl, rfl, rfl⟩, rfl⟩
      exact ⟨offset ++ (dataSize ++ (keyLen ++ key)), by simp, offset, dataSize, keyLen, hlen,
        hlen', rfl, hn, hm, hk⟩
    · rintro ⟨piece, rfl, offset, dataSize, keyLen, hlen, hlen', rfl, hn, hm, hk⟩
      exact ⟨n, _, ⟨offset, hlen, append_assoc _ _ _, hn⟩, m, _,
        ⟨dataSize, hlen', append_assoc _ _ _, hm⟩, _, _, ⟨keyLen, append_assoc _ _ _, hk⟩, key,
        rest, ⟨rfl, rfl⟩, ⟨rfl, rfl, rfl⟩, rfl⟩

theorem readInfo_refused_iff {s : Bytes} : Refused (readInfo s) ↔ InfoRefused s := by
  simp only [readInfo, refused_bind_iff, not_refused_readInt64, not_refused_readInt32,
    refused_readVint_iff, refused_readString_iff, pure_eq_ok, not_refused_ok, Prod.exists,
    readInt64_eq_ok_iff, readInt32_eq_ok_iff, readVint_eq_ok_iff, false_or, and_false, exists_false,
    or_false]
  constructor
  · rintro ⟨n, s₁, ⟨offset, hlen, rfl, -⟩, m, s₂, ⟨dataSize, hlen', rfl, -⟩, hstop⟩
    refine ⟨offset, dataSize, s₂, hlen, hlen', rfl, hstop.imp_right ?_⟩
    rintro ⟨k, s₃, ⟨keyLen, rfl, hk⟩, hneg⟩
    exact ⟨k, keyLen, s₃, rfl, hk, hneg⟩
  · rintro ⟨offset, dataSize, rest, hlen, hlen', rfl, hstop⟩
    refine ⟨_, _, ⟨offset, hlen, rfl, rfl⟩, _, _, ⟨dataSize, hlen', rfl, rfl⟩, hstop.imp_right ?_⟩
    rintro ⟨k, keyLen, rest', rfl, hk, hneg⟩
    exact ⟨k, rest', ⟨keyLen, rfl, hk⟩, hneg⟩

theorem decodeInfos_eq (fuel : Nat) (s : Bytes) :
    decodeInfos fuel s = readAll readInfo .unended fuel s := by
  induction fuel generalizing s with
  | zero => cases s <;> rfl
  | succ fuel ih =>
    cases s with
    | nil => rfl
    | cons c s =>
      rw [readAll_cons, decodeInfos, readInfo]
      · simp only [bind_assoc, pure_bind, ih]
      · simp

/-- Nothing is read outside of the string, and the index is accepted only if its entries make up
the string. -/
def DecodesSafely (ix : DataIndex) (str : Bytes) : Prop :=
  ix.decodeFromString str ≠ .error .overrun ∧
    ∀ ix', ix.decodeFromString str = .ok (true, ix') →
      ∃ body, str = kIndexBlockMagic ++ body ∧ Laid InfoLayout ix'.blockInfo body

/-- **The data index.** -/
theorem decodesSafely_iff (ix : DataIndex) (str : Bytes) :
    ix.DecodesSafely str ↔
      ∀ body, str = kIndexBlockMagic ++ body → LaidUpTo InfoLayout InfoRefused body := by
  refine decode_magic_iff parses_readInfo readInfo_refused_iff ix
    (fun infos => { ix with blockInfo := infos }) ?_
    fun infos body hbody hlaid => ⟨body, hbody, hlaid⟩
  rw [decodeFromString, ← decodeInfos_eq]

end DataIndex

namespace FileInfo

/-! ## The file info -/

/-- An item of the file info as it stands in the string. -/
structure Entry where
  key : Bytes
  valueLength : Int
  value : Bytes

/-- The bytes taken for a value: the averages are read as numbers, whatever their length says. -/
def valueBytes (key : Bytes) (valueLength : Int) : Int :=
  if key = AVG_KEY_LEN ∨ key = AVG_VALUE_LEN then 4 else valueLength

def readEntry (begin_ : Bytes) : Except Fault (Entry × Bytes) := do
  let (keyLength, begin_) ← readVint begin_
  let (key, begin_) ← readString keyLength begin_
  if keyLength = 2 ^ 31 - 1 then .error .overrun
  let (valueLength, begin_) ← readVint (begin_.drop 1)
  let (value, begin_) ← readString (valueBytes key valueLength) begin_
  return ({ key := key, valueLength := valueLength, value := value }, begin_)

def add (info : FileInfo) (entry : Entry) : FileInfo :=
  if entry.key = AVG_KEY_LEN then { info with avgKeyLen := int32 (nat entry.value) }
  else if entry.key = AVG_VALUE_LEN then { info with avgValueLen := int32 (nat entry.value) }
  else if entry.key = COMPARATOR then { info with comparator := entry.value }
  else if entry.key = LASTKEY then { info with lastKey := entry.value }
  else { info with metaItems := info.metaItems ++ [(entry.key, entry.value)] }

theorem readInt32_eq_readString (s : Bytes) : readInt32 s = (do
    let (bytes, rest) ← readString 4 s
    return (int32 (nat bytes), rest)) := by
  cases h : readString 4 s with
  | error e =>
    rcases readString_eq_error_iff.mp h with ⟨hneg, -⟩ | ⟨hlen, he⟩
    · exact absurd hneg (by decide)
    · exact readInt32_eq_error_iff.mpr ⟨by omega, he⟩
  | ok result =>
    obtain ⟨bytes, rest⟩ := result
    obtain ⟨rfl, hlen⟩ := readString_eq_ok_iff.mp h
    exact readInt32_append (by omega) rest

theorem readValue_eq (info : FileInfo) (key : Bytes) (valueLength : Int) (s : Bytes) :
    readValue info key valueLength s = (do
      let (value, rest) ← readString (valueBytes key valueLength) s
      return (info.add { key := key, valueLength := valueLength, value := value }, rest)) := by
  unfold readValue add valueBytes
  split_ifs <;> simp_all [readInt32_eq_readString]

theorem decodeLoop_eq (fuel : Nat) (info : FileInfo) (s : Bytes) :
    decodeLoop fuel info s = (do
      let entries ← readAll readEntry .unended fuel s
      return entries.foldl add info) := by
  induction fuel generalizing info s with
  | zero => cases s <;> rfl
  | succ fuel ih =>
    cases s with
    | nil => rfl
    | cons c s =>
      rw [readAll_cons, decodeLoop, readEntry]
      · simp only [bind_assoc, pure_bind, readValue_eq, ih, foldl_cons]
        refine bind_congr fun x => bind_congr fun y => ?_
        split_ifs
        · rfl
        · simp only [bind_assoc, pure_bind]
      · simp

def EntryLayout (entry : Entry) (piece : Bytes) : Prop :=
  ∃ keyLength sep valueLength,
    piece = keyLength ++ (entry.key ++ (sep :: (valueLength ++ entry.value))) ∧
    Vint entry.key.length keyLength ∧ (entry.key.length : Int) ≠ 2 ^ 31 - 1 ∧
    Vint entry.valueLength valueLength ∧
    valueBytes entry.key entry.valueLength = entry.value.length

/-- An item with a length that does not end, or with a negative one that is used. -/
def EntryRefused (s : Bytes) : Prop :=
  Varint.decode32 s = none ∨
    ∃ n keyLength rest, s = keyLength ++ rest ∧ Vint n keyLength ∧
      (n < 0 ∨ ∃ key rest', rest = key ++ rest' ∧ n = key.length ∧ n ≠ 2 ^ 31 - 1 ∧
        (Varint.decode32 (rest'.drop 1) = none ∨
          ∃ m valueLength rest'', rest'.drop 1 = valueLength ++ rest'' ∧ Vint m valueLength ∧
            valueBytes key m < 0))

omit [Host] in
theorem parses_readEntry : Parses readEntry EntryLayout where
  ne_nil := by
    rintro entry piece ⟨keyLength, sep, valueLength, rfl, hkey, -⟩ hnil
    exact hkey.ne_nil (append_eq_nil_iff.mp hnil).1
  read_iff := by
    rintro s ⟨key, m, value⟩ rest
    simp only [readEntry, bind_eq_ok_iff, guard_eq_ok_iff, Prod.exists, readVint_eq_ok_iff,
      readString_eq_ok_iff, pure_eq_ok, ok.injEq, Prod.mk.injEq, Entry.mk.injEq]
    constructor
    · rintro ⟨n, s₁, ⟨keyLength, rfl, hn⟩, key, s₂, ⟨rfl, rfl⟩, hmax, m, s₃,
        ⟨valueLength, hdrop, hm⟩, value, s₄, ⟨rfl, hvalue⟩, ⟨rfl, rfl, rfl⟩, rfl⟩
      -- a varint follows, so there was a byte to skip
      cases s₂ with
      | nil => exact absurd (append_eq_nil_iff.mp hdrop.symm).1 hm.ne_nil
      | cons sep s₂ =>
        rw [drop_succ_cons, drop_zero] at hdrop
        exact ⟨keyLength ++ (key ++ (sep :: (valueLength ++ value))), by simp [hdrop], keyLength,
          sep, valueLength, rfl, hn, hmax, hm, hvalue⟩
    · rintro ⟨piece, rfl, keyLength, sep, valueLength, rfl, hkey, hmax, hm, hvalue⟩
      exact ⟨_, _, ⟨keyLength, append_assoc _ _ _, hkey⟩, key, _, ⟨append_assoc _ _ _, rfl⟩, hmax,
        m, _, ⟨valueLength, append_assoc _ _ _, hm⟩, value, rest, ⟨rfl, hvalue⟩,
        ⟨rfl, rfl, rfl⟩, rfl⟩

omit [Host] in
theorem readEntry_refused_iff {s : Bytes} : Refused (readEntry s) ↔ EntryRefused s := by
  simp only [readEntry, refused_bind_iff, refused_guard_iff, refused_readVint_iff,
    refused_readString_iff, pure_eq_ok, not_refused_ok, Prod.exists, readVint_eq_ok_iff,
    readString_eq_ok_iff, and_false, exists_false, or_false]
  refine or_congr_right ⟨?_, ?_⟩
  · rintro ⟨n, s₁, ⟨keyLength, rfl, hn⟩, hstop⟩
    refine ⟨n, keyLength, s₁, rfl, hn, hstop.imp_right ?_⟩
    rintro ⟨key, s₂, ⟨rfl, hkey⟩, hmax, hstop⟩
    refine ⟨key, s₂, rfl, hkey, hmax, hstop.imp_right ?_⟩
    rintro ⟨m, s₃, ⟨valueLength, hdrop, hm⟩, hneg⟩
    exact ⟨m, valueLength, s₃, hdrop, hm, hneg⟩
  · rintro ⟨n, keyLength, rest, rfl, hn, hstop⟩
    refine ⟨n, rest, ⟨keyLength, rfl, hn⟩, hstop.imp_right ?_⟩
    rintro ⟨key, rest', rfl, hkey, hmax, hstop⟩
    refine ⟨key, rest', ⟨rfl, hkey⟩, hmax, hstop.imp_right ?_⟩
    rintro ⟨m, valueLength, rest'', hdrop, hm, hneg⟩
    exact ⟨m, rest'', ⟨valueLength, hdrop, hm⟩, hneg⟩

/-- Nothing is read outside of the string, and the file info is accepted only if its items make up
the string behind the number of items and none has a negative length. -/
def DecodesSafely (info : FileInfo) (str : Bytes) : Prop :=
  info.decodeFromString str ≠ .error .overrun ∧
    ∀ info', info.decodeFromString str = .ok (true, info') →
      ∃ head body entries, head.length = 4 ∧ str = head ++ body ∧ Laid EntryLayout entries body ∧
        (∀ entry ∈ entries, 0 ≤ entry.valueLength) ∧
        info' = entries.foldl add { info with itemNum := int32 (nat head) }

theorem decodeFromString_append (info : FileInfo) {head : Bytes} (hhead : head.length = 4)
    (body : Bytes) :
    info.decodeFromString (head ++ body) = (do
      let entries ← readAll readEntry .unended (head ++ body).length body
      return (true, entries.foldl add { info with itemNum := int32 (nat head) })) := by
  rw [decodeFromString, readInt32_append hhead, ok_bind]
  simp only [decodeLoop_eq, bind_assoc, pure_bind]

/-- **The file info.** -/
theorem decodesSafely_iff (info : FileInfo) (str : Bytes) :
    info.DecodesSafely str ↔
      ∃ head body, head.length = 4 ∧ str = head ++ body ∧ LaidUpTo EntryLayout EntryRefused body ∧
        ∀ entries, Laid EntryLayout entries body → ∀ entry ∈ entries, 0 ≤ entry.valueLength := by
  by_cases hshort : str.length < 4
  · have hfail : info.decodeFromString str = .error .overrun := by
      rw [decodeFromString, readInt32_eq_error_iff.mpr ⟨hshort, rfl⟩, error_bind]
    refine iff_of_false (fun h => h.1 hfail) ?_
    rintro ⟨head, body, hhead, rfl, -⟩
    rw [length_append] at hshort
    omega
  obtain ⟨head, body, hhead, rfl⟩ : ∃ head body, head.length = 4 ∧ str = head ++ body :=
    ⟨str.take 4, str.drop 4, by rw [length_take]; omega, (take_append_drop 4 str).symm⟩
  have hfuel : body.length ≤ (head ++ body).length := by
    rw [length_append]
    omega
  have hloop := parses_readEntry.readAll_ne_error_iff .unended hfuel readEntry_refused_iff
  have hok (entries : List Entry) : readAll readEntry .unended (head ++ body).length body =
      .ok entries ↔ Laid EntryLayout entries body := parses_readEntry.readAll_ok_iff hfuel
  unfold DecodesSafely
  rw [decodeFromString_append info hhead, ne_eq, bind_eq_error_iff]
  simp only [pure_eq_ok, reduceCtorEq, and_false, exists_false, or_false]
  rw [← ne_eq, hloop]
  constructor
  · rintro ⟨hlaid, hall⟩
    refine ⟨head, body, hhead, rfl, hlaid, fun entries hentries => ?_⟩
    obtain ⟨head', body', entries', hhead', heq, hlaid', hnonneg, -⟩ :=
      hall _ (bind_eq_ok_iff.mpr ⟨entries, (hok entries).mpr hentries, rfl⟩)
    obtain ⟨-, rfl⟩ := append_inj heq (hhead.trans hhead'.symm)
    rwa [ok.inj (((hok entries).mpr hentries).symm.trans ((hok entries').mpr hlaid'))]
  · rintro ⟨head', body', hhead', heq, hlaid, hnonneg⟩
    obtain ⟨rfl, rfl⟩ := append_inj heq (hhead.trans hhead'.symm)
    refine ⟨hlaid, fun info' h => ?_⟩
    obtain ⟨entries, hread, hinfo⟩ := bind_eq_ok_iff.mp h
    have hentries := (hok entries).mp hread
    exact ⟨head, body, entries, hhead, rfl, hentries, hnonneg entries hentries,
      (Prod.mk.inj (ok.inj hinfo)).2.symm⟩

end FileInfo

/-- **The decoders on arbitrary bytes.** What each decoder needs of a string to stay within it and
to accept it only as a whole: without that the decoder reads beyond the end or, for the averages of
the file info, takes an item with a negative length. -/
theorem decodesSafely_iff_laidUpTo {b : DataBlock} (h : b.compression = none) (ix : DataIndex)
    (info : FileInfo) (str : Bytes) :
    (b.DecodesSafely str ↔ ∀ body, str = kDataBlockMagic ++ body →
      LaidUpTo DataBlock.ItemLayout DataBlock.ItemRefused body) ∧
    (ix.DecodesSafely str ↔ ∀ body, str = kIndexBlockMagic ++ body →
      LaidUpTo DataIndex.InfoLayout DataIndex.InfoRefused body) ∧
    (info.DecodesSafely str ↔ ∃ head body, head.length = 4 ∧ str = head ++ body ∧
      LaidUpTo FileInfo.EntryLayout FileInfo.EntryRefused body ∧
      ∀ entries, Laid FileInfo.EntryLayout entries body →
        ∀ entry ∈ entries, 0 ≤ entry.valueLength) :=
  ⟨DataBlock.decodesSafely_iff h str, ix.decodesSafely_iff str, info.decodesSafely_iff str⟩

omit [Host] in
/-- A block, an index and a file info with one item each. -/
theorem decodesSafely_one_item :
    @DataBlock.DecodesSafely little { compression := none }
      (kDataBlockMagic ++ [1, 0, 0, 0, 1, 0, 0, 0, 0x61, 0x62]) ∧
    @DataIndex.DecodesSafely little {}
      (kIndexBlockMagic ++ [5, 0, 0, 0, 0, 0, 0, 0, 9, 0, 0, 0, 1, 0x61]) ∧
    @FileInfo.DecodesSafely little {} ([5, 0, 0, 0] ++ [1, 0x61, 1, 1, 0x62]) := by
  have hiff := @decodesSafely_iff_laidUpTo little { compression := none } rfl {} {}
  have hlaid : Laid FileInfo.EntryLayout [⟨[0x61], 1, [0x62]⟩] [1, 0x61, 1, 1, 0x62] :=
    ⟨_, [], (append_nil _).symm, ⟨[1], 1, [1], rfl, ⟨1, rfl, by decide⟩, by decide,
      ⟨1, rfl, by decide⟩, by decide⟩, rfl⟩
  refine ⟨(hiff _).1.mpr fun body hbody => ?_, (hiff _).2.1.mpr fun body hbody => ?_,
    (hiff _).2.2.mpr ⟨_, _, rfl, rfl, ⟨_, _, [], (append_nil _).symm, hlaid, .inl rfl⟩,
      fun entries hentries entry hentry => ?_⟩⟩
  · obtain rfl := append_cancel_left hbody
    refine ⟨[([0x61], [0x62])], _, [], (append_nil _).symm, ⟨_, [], (append_nil _).symm,
      ⟨[1, 0, 0, 0], [1, 0, 0, 0], rfl, rfl, rfl, ?_, ?_⟩, rfl⟩, .inl rfl⟩ <;> decide
  · obtain rfl := append_cancel_left hbody
    exact ⟨[⟨5, 9, [0x61]⟩], _, [], (append_nil _).symm, ⟨_, [], (append_nil _).symm,
      ⟨[5, 0, 0, 0, 0, 0, 0, 0], [9, 0, 0, 0], [1], rfl, rfl, rfl, by decide, by decide,
        ⟨1, rfl, by decide⟩⟩, rfl⟩, .inl rfl⟩
  · have hread := @FileInfo.parses_readEntry.readAll_ok_iff _ _ _ _ _ .unended 5
      [1, 0x61, 1, 1, 0x62] (le_refl _)
    obtain rfl := ok.inj ((hread.mpr hentries).symm.trans (hread.mpr hlaid))
    rw [mem_singleton.mp hentry]
    decide

def negativeAverage : Bytes :=
  [5, 0, 0, 0] ++ ([17] ++ (FileInfo.AVG_KEY_LEN ++ (1 :: ([0xff, 0xff, 0xff, 0xff, 0x0f] ++
    [0, 0, 0, 0]))))

omit [Host] in
/-- A byte behind the magic string of a block or of an index, and an empty file info, are read
beyond the end; a negative length of an average is accepted. -/
theorem not_decodesSafely :
    ¬ @DataBlock.DecodesSafely little { compression := none }
        (kDataBlockMagic ++ [1]) ∧
    ¬ @DataIndex.DecodesSafely little {} (kIndexBlockMagic ++ [0]) ∧
    ¬ @FileInfo.DecodesSafely little {} [] ∧
    (∃ info, @FileInfo.decodeFromString little {} negativeAverage = .ok (true, info)) ∧
    ¬ @FileInfo.DecodesSafely little {} negativeAverage := by
  refine ⟨fun h => h.1 rfl, fun h => h.1 rfl, fun h => h.1 rfl, ⟨_, rfl⟩, fun h => ?_⟩
  obtain ⟨head, body, hhead, heq, -, hnonneg⟩ := (@FileInfo.decodesSafely_iff little _ _).mp h
  obtain ⟨rfl, rfl⟩ := append_inj heq (Eq.symm hhead)
  have := hnonneg [⟨FileInfo.AVG_KEY_LEN, -1, [0, 0, 0, 0]⟩]
    ⟨_, [], (append_nil _).symm, ⟨[17], 1, [0xff, 0xff, 0xff, 0xff, 0x0f], rfl,
      ⟨17, rfl, by decide⟩, by decide, ⟨0xffffffff, by decide, by decide⟩, by decide⟩, rfl⟩
    _ mem_cons_self
  exact absurd this (by decide)

end Toft.Hfile
