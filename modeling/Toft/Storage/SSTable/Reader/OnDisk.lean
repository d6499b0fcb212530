import Toft.Container.LruCache
import Toft.Storage.SSTable.Reader.Basic

/-!
# The reader that leaves the records on disk

`OnDiskSSTableReader` loads a block when an iterator gets to it and keeps the last used blocks in a
cache. What a walk gives does not depend on the cache: it is the rest of the table (`yields`), from
the first record that is not smaller than the key (`seek_spec`).
-/

namespace Toft

open Lib Hfile SSTableReader List TableBlock

def onDiskSSTableBlockCache : Nat := 128

/-- More rounds than a walk over a table can have: its entries are counted in an `int`. -/
def roundLimit : Nat := 2 ^ 31

/-- The members of `OnDiskSSTableReader`. Of a cached block only the items are used. -/
structure OnDiskSSTableReader where
  impl : Impl
  blockCache : LruCache Int (List Record) := { capacity := onDiskSSTableBlockCache }

/-- The members of `OnDiskIterator`. -/
structure OnDiskIterator where
  valid : Bool := false
  key : Bytes := []
  value : Bytes := []
  cachedBlock : Option (List Record) := none
  blockIdx : Int := -1
  dataIdx : Int := -1

namespace OnDiskSSTableReader

def getBlockSize (r : OnDiskSSTableReader) : Int := r.impl.dataIndex.getBlockSize

def findMinimalBlock (r : OnDiskSSTableReader) (key : Bytes) : Except Fault Int :=
  r.impl.dataIndex.findMinimalBlock key

variable [SSTableEnv]

/-- `OnDiskSSTableReader::LoadDataBlock`; `none` is the null pointer. -/
def loadDataBlock (r : OnDiskSSTableReader) (blockId : Int) :
    Except Fault (Option (List Record) × OnDiskSSTableReader) :=
  match r.blockCache.get blockId with
  | (some items, blockCache) => .ok (some items, { r with blockCache := blockCache })
  | (none, blockCache) => do
    let newBlock ← DataBlock.create SSTableEnv.snappy r.impl.fileTrailer.compressType
    let (ok, block, impl) ← r.impl.loadDataBlock blockId newBlock
    if ok then
      return (some block.dataItems,
        { impl := impl, blockCache := blockCache.put blockId block.dataItems })
    else return (none, { impl := impl, blockCache := blockCache })

end OnDiskSSTableReader

namespace OnDiskIterator

/-- `GetKey` and `GetValue` of the cached block at the current index. -/
def current (it : OnDiskIterator) : Except Fault Record :=
  match it.cachedBlock with
  | none => .error .nullPointer
  | some items =>
    if it.dataIdx < 0 then .error .fatal
    else match items[it.dataIdx.toNat]? with
      | some item => .ok item
      | none => .error .fatal

def loadItem (it : OnDiskIterator) : Except Fault OnDiskIterator := do
  let item ← it.current
  return { it with key := item.1, value := item.2 }

variable [SSTableEnv]

/-- `NextItem`; what it returns is the new `valid`. -/
def nextItem (it : OnDiskIterator) (r : OnDiskSSTableReader) :
    Except Fault (OnDiskIterator × OnDiskSSTableReader) :=
  match it.cachedBlock with
  | none => .error .nullPointer
  | some items =>
    if it.dataIdx = (items.length : Int) - 1 then
      if it.blockIdx = r.getBlockSize - 1 then .ok ({ it with valid := false }, r)
      else do
        let (block, r) ← r.loadDataBlock (it.blockIdx + 1)
        return ({ it with valid := block.isSome, blockIdx := it.blockIdx + 1, dataIdx := 0,
                          cachedBlock := block }, r)
    else .ok ({ it with valid := true, dataIdx := it.dataIdx + 1 }, r)

def seekLoop (key : Bytes) : Nat → OnDiskIterator → OnDiskSSTableReader →
    Except Fault (OnDiskIterator × OnDiskSSTableReader)
  | 0, _, _ => .error .unended
  | fuel + 1, it, r => do
    let (it, r) ← it.nextItem r
    if it.valid then
      let item ← it.current
      let it := { it with key := item.1 }
      if key ≤ item.1 then return (it, r) else seekLoop key fuel it r
    else return (it, r)

/-- `SeekKey`, from the first item of the block that was found. -/
def seekInBlock (it : OnDiskIterator) (key : Bytes) (r : OnDiskSSTableReader) :
    Except Fault (OnDiskIterator × OnDiskSSTableReader) := do
  let it := { it with dataIdx := 0 }
  let first ← it.current
  let it := { it with key := first.1 }
  if first.1 < key then
    let (it, r) ← seekLoop key roundLimit it r
    if it.valid then
      let item ← it.current
      return ({ it with value := item.2 }, r)
    else return (it, r)
  else return ({ it with valid := true, value := first.2 }, r)

def seekKey (it : OnDiskIterator) (key : Bytes) (r : OnDiskSSTableReader) :
    Except Fault (OnDiskIterator × OnDiskSSTableReader) :=
  let it := { it with valid := false }
  if r.getBlockSize = 0 then .ok (it, r)
  else do
    let blockIdx ← r.findMinimalBlock key
    if it.blockIdx = blockIdx then it.seekInBlock key r
    else
      let (block, r) ← r.loadDataBlock blockIdx
      let it := { it with blockIdx := blockIdx, cachedBlock := block }
      if block.isSome then it.seekInBlock key r else return (it, r)

def create (r : OnDiskSSTableReader) (key : Bytes) :
    Except Fault (OnDiskIterator × OnDiskSSTableReader) := do
  let (it, r) ← seekKey {} key r
  if it.valid then return (← it.loadItem, r) else return (it, r)

def next (it : OnDiskIterator) (r : OnDiskSSTableReader) :
    Except Fault (OnDiskIterator × OnDiskSSTableReader) := do
  let (it, r) ← it.nextItem r
  if it.valid then return (← it.loadItem, r) else return (it, r)

end OnDiskIterator

instance [SSTableEnv] : SSTableReader.OfFile OnDiskSSTableReader where
  Iterator := OnDiskIterator
  seek := OnDiskIterator.create
  next := OnDiskIterator.next
  valid := OnDiskIterator.valid
  key := OnDiskIterator.key
  value := OnDiskIterator.value
  init impl := .ok { impl := impl }
  impl := OnDiskSSTableReader.impl

section Walk

variable [SSTableEnv] {blocks : List TableBlock} {r : OnDiskSSTableReader} {it : OnDiskIterator}

/-! ## Loading blocks -/

/-- The reader of a table, with any part of its blocks in the cache. -/
structure OnDiskSSTableReader.Reads (r : OnDiskSSTableReader) (blocks : List TableBlock) :
    Prop where
  holds : r.impl.Holds blocks
  cache : r.blockCache.WF
  cached : ∀ node ∈ r.blockCache.valueList, ∃ (i : Nat) (b : TableBlock),
    node.key = i ∧ blocks[i]? = some b ∧ node.value = b.items ∧ b.items ≠ []

namespace OnDiskSSTableReader

theorem Reads.getBlockSize (h : r.Reads blocks) : r.getBlockSize = blocks.length :=
  h.holds.getBlockSize

theorem Reads.init {impl : Impl} (h : impl.Holds blocks) :
    ({ impl := impl } : OnDiskSSTableReader).Reads blocks :=
  ⟨h, LruCache.WF.empty _, fun _ hnode => by cases hnode⟩

theorem loadDataBlock_spec (h : r.Reads blocks) {i : Nat} {b : TableBlock}
    (hb : blocks[i]? = some b) :
    ∃ r', r.loadDataBlock i = .ok (if b.items.isEmpty then none else some b.items, r') ∧
      r'.Reads blocks := by
  have hcache := h.cache.get (i : Int)
  have hcached : ∀ node ∈ (r.blockCache.get (i : Int)).2.valueList, ∃ (i : Nat) (b : TableBlock),
      node.key = i ∧ blocks[i]? = some b ∧ node.value = b.items ∧ b.items ≠ [] :=
    fun node hnode => h.cached node ((LruCache.mem_get h.cache _ node).mp hnode)
  rcases LruCache.get_cases h.cache (i : Int) with ⟨node, hnode, hkey, hget⟩ | ⟨hget, -⟩
  · obtain ⟨i', b', hi', hb', hvalue, hne⟩ := h.cached node hnode
    obtain rfl : i = i' := by omega
    cases hb.symm.trans hb'
    refine ⟨{ r with blockCache := (r.blockCache.get (i : Int)).2 }, ?_, h.holds, hcache, hcached⟩
    have hpair : r.blockCache.get (i : Int) = (some b.items, (r.blockCache.get (i : Int)).2) := by
      rw [← hvalue, ← hget]
    unfold loadDataBlock
    rw [hpair]
    simp [hne]
  · obtain ⟨pos, hload⟩ := h.holds.load i b hb r.impl.fileBase.pos
      { compression := DataBlock.codec SSTableEnv.snappy r.impl.fileTrailer.compressType } rfl
    have hpos : r.impl.atPos r.impl.fileBase.pos = r.impl := rfl
    rw [hpos] at hload
    unfold loadDataBlock
    rw [hget, DataBlock.create_eq _ h.holds.supported]
    simp only [ok_bind, hload]
    cases hitems : b.items with
    | nil =>
      exact ⟨_, rfl, h.holds.atPos pos, h.cache, h.cached⟩
    | cons item items =>
      refine ⟨_, rfl, h.holds.atPos pos, h.cache.put _ _, fun node hnode => ?_⟩
      rcases LruCache.mem_put h.cache _ _ hnode with ⟨hkey, hvalue⟩ | hold
      · exact ⟨i, b, hkey, hb, by rw [hvalue, hitems]; rfl, by simp [hitems]⟩
      · exact h.cached node hold

end OnDiskSSTableReader

/-! ## Walking -/

namespace OnDiskIterator

/-- The iterator stands on an item of the table, and `xs` is what follows from that item on. -/
def Stands (it : OnDiskIterator) (blocks : List TableBlock) (xs : List Record) : Prop :=
  ∃ (i j : Nat) (b : TableBlock), blocks[i]? = some b ∧ it.blockIdx = i ∧ it.dataIdx = j ∧
    it.cachedBlock = some b.items ∧ j < b.items.length ∧
    (∀ b' ∈ blocks.drop (i + 1), b'.items ≠ []) ∧
    xs = b.items.drop j ++ (blocks.drop (i + 1)).flatMap items

variable {xs : List Record} {x : Record}

omit [SSTableEnv] in
theorem current_eq (h : it.Stands blocks (x :: xs)) : it.current = .ok x := by
  obtain ⟨i, j, b, -, -, hdata, hcached, hj, -, hxs⟩ := h
  rw [drop_eq_getElem_cons hj, cons_append, cons.injEq] at hxs
  simp only [current, hcached, hdata, show ¬ (j : Int) < 0 by omega, ite_false, Int.toNat_natCast,
    getElem?_eq_getElem hj, hxs.1]

omit [SSTableEnv] in
theorem stands_congr {it' : OnDiskIterator} (h : it.Stands blocks xs)
    (hblock : it'.blockIdx = it.blockIdx) (hdata : it'.dataIdx = it.dataIdx)
    (hcached : it'.cachedBlock = it.cachedBlock) : it'.Stands blocks xs := by
  unfold Stands
  rw [hblock, hdata, hcached]
  exact h

theorem nextItem_spec (hr : r.Reads blocks) (h : it.Stands blocks (x :: xs)) :
    ∃ it' r', it.nextItem r = .ok (it', r') ∧ r'.Reads blocks ∧ it'.key = it.key ∧
      it'.valid = !xs.isEmpty ∧ (xs ≠ [] → it'.Stands blocks xs) := by
  obtain ⟨i, j, b, hb, hblock, hdata, hcached, hj, hlater, hxs⟩ := h
  have hi : i < blocks.length := (List.getElem?_eq_some_iff.mp hb).1
  rw [drop_eq_getElem_cons hj, cons_append, cons.injEq] at hxs
  unfold nextItem
  simp only [hcached]
  by_cases hlast : j + 1 = b.items.length
  · have hdrop : b.items.drop (j + 1) = [] := drop_eq_nil_of_le (by omega)
    rw [hdrop, nil_append] at hxs
    rw [if_pos (by omega), hblock, hr.getBlockSize]
    by_cases hend : i + 1 = blocks.length
    · -- the last item of the last block
      have hxs' : xs = [] := by rw [hxs.2, drop_eq_nil_of_le (by omega), flatMap_nil]
      rw [if_pos (by omega)]
      exact ⟨_, _, rfl, hr, rfl, by rw [hxs']; rfl, absurd hxs'⟩
    · -- the first item of the next block
      have hsucc : i + 1 < blocks.length := by omega
      have hcons := drop_eq_getElem_cons hsucc
      have hne : blocks[i + 1].items ≠ [] := hlater _ (by rw [hcons]; exact mem_cons_self)
      obtain ⟨r', hload, hr'⟩ :=
        OnDiskSSTableReader.loadDataBlock_spec hr (getElem?_eq_getElem hsucc)
      rw [if_neg (by omega), ← Nat.cast_succ, hload]
      rw [hcons] at hxs
      have hxs' : xs ≠ [] := by
        rw [hxs.2]
        exact append_ne_nil_of_left_ne_nil hne _
      refine ⟨_, r', rfl, hr', rfl, by simp [hne, hxs'], fun _ => ?_⟩
      refine ⟨i + 1, 0, blocks[i + 1], getElem?_eq_getElem hsucc, rfl, rfl, by simp [hne],
        length_pos_iff.mpr hne, fun b' hb' => hlater b' ?_, hxs.2⟩
      rw [hcons]
      exact mem_cons_of_mem _ hb'
  · -- the next item of the same block
    have hjs : j + 1 < b.items.length := by omega
    have hxs' : xs ≠ [] := by
      rw [hxs.2]
      exact append_ne_nil_of_left_ne_nil (by simp; omega) _
    rw [if_neg (by omega)]
    refine ⟨_, r, rfl, hr, rfl, by simp [hxs'], fun _ => ?_⟩
    exact ⟨i, j + 1, b, hb, hblock, by simp [hdata], rfl, hjs, hlater, hxs.2⟩

/-- An iterator that lists `xs`: it is invalid, or stands on the first of them and shows it. -/
def Shows (it : OnDiskIterator) (blocks : List TableBlock) : List Record → Prop
  | [] => it.valid = false
  | x :: xs => it.valid = true ∧ (it.key, it.value) = x ∧ it.Stands blocks (x :: xs)

omit [SSTableEnv] in
theorem loadItem_spec (hvalid : it.valid = true) (h : it.Stands blocks (x :: xs)) :
    ∃ it', it.loadItem = .ok it' ∧ it'.Shows blocks (x :: xs) := by
  refine ⟨{ it with key := x.1, value := x.2 }, ?_, hvalid, rfl, stands_congr h rfl rfl rfl⟩
  rw [loadItem, current_eq h]
  rfl

/-- `Next` does not depend on the record that is shown. -/
theorem next_spec (hr : r.Reads blocks) (h : it.Stands blocks (x :: xs)) :
    ∃ it' r', it.next r = .ok (it', r') ∧ r'.Reads blocks ∧ it'.Shows blocks xs := by
  obtain ⟨it₁, r₁, hnext, hr₁, -, hvalid, hstands⟩ := nextItem_spec hr h
  unfold next
  rw [hnext]
  simp only [ok_bind]
  cases xs with
  | nil =>
    have hinvalid : it₁.valid = false := hvalid
    simp only [hinvalid, Bool.false_eq_true, ite_false]
    exact ⟨it₁, r₁, rfl, hr₁, hinvalid⟩
  | cons y ys =>
    have hvalid : it₁.valid = true := hvalid
    obtain ⟨it₂, hload, hshows⟩ := loadItem_spec hvalid (hstands (cons_ne_nil _ _))
    simp only [hvalid, ite_true, hload]
    exact ⟨it₂, r₁, rfl, hr₁, hshows⟩

/-- **Walking.** An iterator gives what it shows. -/
theorem yields (hr : r.Reads blocks) (h : it.Shows blocks xs) :
    (cursor OnDiskSSTableReader).Yields (it, r) xs := by
  refine Cursor.Yields.of_simulates
    (R := fun s xs => s.2.Reads blocks ∧ OnDiskIterator.Shows s.1 blocks xs) ⟨?_, ?_⟩ ⟨hr, h⟩
  · exact fun s hs => hs.2
  · rintro s x xs ⟨hr, hs⟩
    obtain ⟨it', r', hnext, hr', hs'⟩ := next_spec hr hs.2.2
    exact ⟨hs.1, hs.2.1, (it', r'), hnext, hr', hs'⟩

/-! ## Seeking -/

/-- What `SeekKey` reaches: the first of `xs`, or the end, with a key that was passed. -/
def Reaches (it : OnDiskIterator) (blocks : List TableBlock) (key : Bytes) :
    List Record → Prop
  | [] => it.valid = false ∧ it.key < key
  | x :: xs => it.valid = true ∧ it.key = x.1 ∧ it.Stands blocks (x :: xs)

variable {key : Bytes}

/-- The loop stops at the first item that is not smaller than the key. -/
theorem seekLoop_spec (fuel : Nat)
    (hfuel : xs.length < fuel) (hr : r.Reads blocks) (hkey : it.key = x.1) (hlt : x.1 < key)
    (h : it.Stands blocks (x :: xs)) :
    ∃ it' r', seekLoop key fuel it r = .ok (it', r') ∧ r'.Reads blocks ∧
      it'.Reaches blocks key (xs.dropWhile (·.1 < key)) := by
  induction fuel generalizing it r x xs with
  | zero => omega
  | succ fuel ih =>
    obtain ⟨it₁, r₁, hnext, hr₁, hkey₁, hvalid, hstands⟩ := nextItem_spec hr h
    rw [hkey] at hkey₁
    unfold seekLoop
    rw [hnext]
    simp only [ok_bind]
    cases xs with
    | nil =>
      have hinvalid : it₁.valid = false := hvalid
      simp only [hinvalid, Bool.false_eq_true, ite_false]
      exact ⟨it₁, r₁, rfl, hr₁, hinvalid, by rwa [hkey₁]⟩
    | cons y ys =>
      have hvalid : it₁.valid = true := hvalid
      have hstands := hstands (cons_ne_nil _ _)
      have hstands' : OnDiskIterator.Stands { it₁ with valid := true, key := y.1 } blocks
          (y :: ys) :=
        stands_congr hstands rfl rfl rfl
      simp only [hvalid, ite_true, current_eq hstands, ok_bind]
      by_cases hle : key ≤ y.1
      · have hnot : ¬ y.1 < key := Std.not_lt.mpr hle
        rw [if_pos hle, dropWhile_cons_of_neg (by simpa using hnot)]
        exact ⟨_, r₁, rfl, hr₁, rfl, rfl, stands_congr hstands rfl rfl rfl⟩
      · have hlt : y.1 < key := Std.not_le.mp hle
        rw [if_neg hle, dropWhile_cons_of_pos (by simpa using hlt)]
        exact ih (by simpa using hfuel) hr₁ rfl hlt hstands'

variable {b : TableBlock}

theorem seekInBlock_spec {i : Nat} (hr : r.Reads blocks)
    (hb : blocks[i]? = some b) (hblock : it.blockIdx = i) (hcached : it.cachedBlock = some b.items)
    (hne : ∀ b' ∈ blocks.drop i, b'.items ≠ [])
    (hcount : (blocks.flatMap items).length < roundLimit) :
    ∃ it' r', it.seekInBlock key r = .ok (it', r') ∧ r'.Reads blocks ∧
      it'.Reaches blocks key (((blocks.drop i).flatMap items).dropWhile (·.1 < key)) := by
  obtain ⟨hi, rfl⟩ := List.getElem?_eq_some_iff.mp hb
  have hdrop := drop_eq_getElem_cons hi
  rw [hdrop] at hne
  obtain ⟨first, items, hitems⟩ := exists_cons_of_ne_nil (hne _ mem_cons_self)
  have hlist : (blocks.drop i).flatMap TableBlock.items =
      first :: (items ++ (blocks.drop (i + 1)).flatMap TableBlock.items) := by
    rw [hdrop, flatMap_cons, hitems, cons_append]
  have hstands : OnDiskIterator.Stands { it with dataIdx := 0 } blocks
      ((blocks.drop i).flatMap TableBlock.items) := by
    refine ⟨i, 0, blocks[i], hb, hblock, rfl, hcached, by simp [hitems],
      fun b' hb' => hne b' (mem_cons_of_mem _ hb'), ?_⟩
    rw [hdrop, flatMap_cons, drop_zero]
  have hlen : ((blocks.drop i).flatMap TableBlock.items).length ≤
      (blocks.flatMap TableBlock.items).length := by
    conv_rhs => rw [← take_append_drop i blocks, flatMap_append, length_append]
    omega
  rw [hlist] at hstands hlen ⊢
  unfold seekInBlock
  simp only [current_eq hstands, ok_bind]
  by_cases hlt : first.1 < key
  · have hstands' : OnDiskIterator.Stands { it with dataIdx := 0, key := first.1 } blocks _ :=
      stands_congr hstands rfl rfl rfl
    obtain ⟨it₁, r₁, hloop, hr₁, hreach⟩ := seekLoop_spec roundLimit
      (by rw [length_cons] at hlen; omega) hr rfl hlt hstands'
    rw [if_pos hlt, hloop, dropWhile_cons_of_pos (by simpa using hlt)]
    simp only [ok_bind]
    revert hreach
    cases dropWhile (fun x : Record => decide (x.1 < key))
        (items ++ (blocks.drop (i + 1)).flatMap TableBlock.items) with
    | nil =>
      rintro ⟨hvalid, hkey⟩
      simp only [hvalid, Bool.false_eq_true, ite_false]
      exact ⟨it₁, r₁, rfl, hr₁, hvalid, hkey⟩
    | cons y ys =>
      rintro ⟨hvalid, hkey, hstands⟩
      simp only [hvalid, ite_true, current_eq hstands]
      exact ⟨_, r₁, rfl, hr₁, rfl, hkey, stands_congr hstands rfl rfl rfl⟩
  · rw [if_neg hlt, dropWhile_cons_of_neg (by simpa using hlt)]
    exact ⟨_, r, rfl, hr, rfl, rfl, stands_congr hstands rfl rfl rfl⟩

theorem seekKey_spec (it : OnDiskIterator) {i : Nat} (hr : r.Reads blocks)
    (hfind : r.findMinimalBlock key = .ok (i : Int)) (hb : blocks[i]? = some b)
    (hcached : it.blockIdx = i → it.cachedBlock = some b.items)
    (hne : ∀ b' ∈ blocks.drop i, b'.items ≠ [])
    (hcount : (blocks.flatMap items).length < roundLimit) :
    ∃ it' r', it.seekKey key r = .ok (it', r') ∧ r'.Reads blocks ∧
      it'.Reaches blocks key (((blocks.drop i).flatMap items).dropWhile (·.1 < key)) := by
  have hi : i < blocks.length := (List.getElem?_eq_some_iff.mp hb).1
  have hb' : b.items ≠ [] := hne b (by
    rw [drop_eq_getElem_cons hi, (List.getElem?_eq_some_iff.mp hb).2]
    exact mem_cons_self)
  unfold seekKey
  rw [if_neg (by rw [hr.getBlockSize]; omega), hfind]
  simp only [ok_bind]
  split
  · rename_i hblock
    exact seekInBlock_spec hr hb hblock (hcached hblock) hne hcount
  · obtain ⟨r₁, hload, hr₁⟩ := OnDiskSSTableReader.loadDataBlock_spec hr hb
    rw [hload]
    simp only [ok_bind, hb', List.isEmpty_iff, ite_false, Option.isSome_some, ite_true]
    exact seekInBlock_spec hr₁ hb rfl rfl hne hcount

/-- A new iterator. It lists the records from the first one on that is not smaller than the key; at
the end it keeps a key that is smaller. -/
theorem create_spec {i : Nat} (hr : r.Reads blocks)
    (hfind : r.findMinimalBlock key = .ok (i : Int)) (hb : blocks[i]? = some b)
    (hne : ∀ b' ∈ blocks.drop i, b'.items ≠ [])
    (hcount : (blocks.flatMap items).length < roundLimit) :
    ∃ it r', create r key = .ok (it, r') ∧ r'.Reads blocks ∧
      it.Shows blocks (((blocks.drop i).flatMap items).dropWhile (·.1 < key)) ∧
      (it.valid = false → it.key < key) := by
  obtain ⟨it₁, r₁, hseek, hr₁, hreach⟩ := seekKey_spec {} hr hfind hb
    (fun h => by simp at h) hne hcount
  unfold create
  rw [hseek]
  simp only [ok_bind]
  revert hreach
  cases ((blocks.drop i).flatMap items).dropWhile (·.1 < key) with
  | nil =>
    rintro ⟨hvalid, hkey⟩
    simp only [hvalid, Bool.false_eq_true, ite_false]
    exact ⟨it₁, r₁, rfl, hr₁, hvalid, fun _ => hkey⟩
  | cons x xs =>
    rintro ⟨hvalid, -, hstands⟩
    obtain ⟨it₂, hload, hshows⟩ := loadItem_spec hvalid hstands
    simp only [hvalid, ite_true, hload]
    refine ⟨it₂, r₁, rfl, hr₁, hshows, fun hinvalid => ?_⟩
    rw [hshows.1] at hinvalid
    cases hinvalid

end OnDiskIterator

end Walk

end Toft
