import Toft.Lib.Grouped
import Toft.Lib.InsertNew
import Toft.Storage.SSTable.Reader.Basic

/-!
# The reader that loads the whole table

`InMemorySSTableReader` loads all records when it is opened and keeps the values of each key
together. The bisection of `SeekKey` ends at the last key it looked at, which may be the one in
front of the key that is looked for.
-/

namespace Toft

open Lib Hfile SSTableReader List DataBlock SSTableEnv Option

/-- The members of `InMemorySSTableReader`; an iterator into `data_` is a place of that vector. -/
structure InMemorySSTableReader where
  impl : Impl
  data : List (Bytes × List Bytes)
  index : Std.TreeMap Bytes Nat

/-- The members that only `SeekKey` sets. -/
structure InMemoryIterator.Position where
  curIt : Nat
  pos : Int
  size : Int

/-- The members of `InMemoryIterator`. Behind the last key `SeekKey` returns before it sets the
position. -/
structure InMemoryIterator where
  valid : Bool := false
  key : Bytes := []
  value : Bytes := []
  position : Option InMemoryIterator.Position := none

namespace InMemorySSTableReader

/-- The variables of the loop of `Init`. -/
structure Grouping where
  data : List (Bytes × List Bytes) := []
  oriKey : Bytes := []
  values : List Bytes := []

/-- The body of the inner loop of `Init`; `first` holds for the first item of the first block. -/
def Grouping.add (g : Grouping) (first : Bool) (item : Record) : Grouping :=
  let g := if first then { g with oriKey := item.1 } else g
  let g :=
    if item.1 ≠ g.oriKey then
      { data := g.data ++ [(g.oriKey, g.values)], oriKey := item.1, values := [] }
    else g
  { g with values := g.values ++ [item.2] }

def Grouping.addItems (g : Grouping) (blockId : Nat) (items : List Record) : Grouping :=
  items.zipIdx.foldl (fun g item => g.add (blockId = 0 ∧ item.2 = 0) item.1) g

/-- `data_`, once the loop is left. -/
def Grouping.finish (g : Grouping) : List (Bytes × List Bytes) := g.data ++ [(g.oriKey, g.values)]

/-- `index_`: the place of each key. -/
def indexOf (data : List (Bytes × List Bytes)) : Std.TreeMap Bytes Nat :=
  insertNew (data.zipIdx.map fun entry => (entry.1.1, entry.2))

variable [SSTableEnv]

/-- The loop of `Init` over the blocks from `blockId` on. What `LoadDataBlock` returns is not
looked at. -/
def initLoop : Nat → Nat → DataBlock → Impl → Grouping → Except Fault (Impl × Grouping)
  | 0, _, _, impl, g => .ok (impl, g)
  | count + 1, blockId, block, impl, g => do
    let (_, block, impl) ← impl.loadDataBlock blockId block
    initLoop count (blockId + 1) block impl (g.addItems blockId block.dataItems)

def init (impl : Impl) : Except Fault InMemorySSTableReader := do
  let cachedBlock ← create snappy impl.fileTrailer.compressType
  let (impl, g) ← initLoop impl.fileTrailer.dataIndexCount.toNat 0 cachedBlock impl {}
  return { impl := impl, data := g.finish, index := indexOf g.finish }

end InMemorySSTableReader

namespace InMemoryIterator

/-- The entry that `cur_it_` points to. -/
def entryAt (r : InMemorySSTableReader) (curIt : Nat) : Except Fault (Bytes × List Bytes) :=
  match r.data[curIt]? with
  | some entry => .ok entry
  | none => .error .overrun

def loadItem (it : InMemoryIterator) (r : InMemorySSTableReader) :
    Except Fault InMemoryIterator :=
  match it.position with
  | none => .error .uninitialized
  | some p => do
    let entry ← entryAt r p.curIt
    if p.pos < 0 then .error .overrun
    else match entry.2[p.pos.toNat]? with
      | some value => return { it with key := entry.1, value := value }
      | none => .error .overrun

/-- The end of `SeekKey`, once `cur_it_` is set. -/
def standAt (it : InMemoryIterator) (r : InMemorySSTableReader) (place : Nat) :
    Except Fault InMemoryIterator := do
  let entry ← entryAt r place
  return { it with valid := true, position := some ⟨place, 0, int32 entry.2.length⟩ }

/-- `NextItem`; what it returns is the new `valid`. -/
def nextItem (it : InMemoryIterator) (r : InMemorySSTableReader) : Except Fault InMemoryIterator :=
  match it.position with
  | none => .error .uninitialized
  | some p =>
    if p.pos < p.size - 1 then
      .ok { it with valid := true, position := some { p with pos := p.pos + 1 } }
    else if p.curIt + 1 ≠ r.data.length then it.standAt r (p.curIt + 1)
    else .ok { it with valid := false, position := some { p with curIt := p.curIt + 1 } }

def next (it : InMemoryIterator) (r : InMemorySSTableReader) :
    Except Fault (InMemoryIterator × InMemorySSTableReader) := do
  let it ← it.nextItem r
  if it.valid then return (← it.loadItem r, r) else return (it, r)

/-- The loop of `SeekKey`, on variables of type `unsigned int`: the last value of `mid`. -/
def seekLoop (data : List (Bytes × List Bytes)) (key : Bytes) :
    Nat → Nat → Nat → Nat → Except Fault Nat
  | 0, _, _, _ => .error .unended
  | fuel + 1, begin_, end_, mid =>
    if begin_ ≤ end_ then
      let mid := uint32 (begin_ + end_) / 2
      match data[mid]? with
      | none => .error .overrun
      | some entry =>
        if entry.1 = key then .ok mid
        else if entry.1 < key then seekLoop data key fuel (uint32 (mid + 1)) end_ mid
        else seekLoop data key fuel begin_ (uint32 (mid - 1)) mid
    else .ok mid

def seekKey (it : InMemoryIterator) (key : Bytes) (r : InMemorySSTableReader) :
    Except Fault InMemoryIterator :=
  match r.index[key]? with
  | some place => it.standAt r place
  | none =>
    match r.data.head?, r.data.getLast? with
    | some first, some last =>
      if key < first.1 then it.standAt r 0
      else if last.1 < key then .ok { it with valid := false }
      else do
        let mid ← seekLoop r.data key (r.data.length + 1) 0 (uint32 (r.data.length - 1)) 0
        it.standAt r mid
    | _, _ => .error .overrun

def create (r : InMemorySSTableReader) (key : Bytes) :
    Except Fault (InMemoryIterator × InMemorySSTableReader) := do
  let it ← seekKey {} key r
  if it.valid then return (← it.loadItem r, r) else return (it, r)

end InMemoryIterator

instance [SSTableEnv] : SSTableReader.OfFile InMemorySSTableReader where
  Iterator := InMemoryIterator
  seek := InMemoryIterator.create
  next := InMemoryIterator.next
  valid := InMemoryIterator.valid
  key := InMemoryIterator.key
  value := InMemoryIterator.value
  init := InMemorySSTableReader.init
  impl := InMemorySSTableReader.impl

namespace InMemorySSTableReader

/-! ## Loading -/

variable {g : Grouping}

theorem Grouping.add_spec (h : Grouped g.finish) {item : Record} (hle : g.oriKey ≤ item.1) :
    Grouped (g.add false item).finish ∧
      ungroup (g.add false item).finish = ungroup g.finish ++ [item] ∧
      (g.add false item).oriKey = item.1 := by
  by_cases heq : item.1 = g.oriKey
  · have hadd : g.add false item = { g with values := g.values ++ [item.2] } := by
      simp [add, heq]
    rw [hadd]
    refine ⟨h.extend item.2, ?_, heq.symm⟩
    simp [finish, ungroup_append, ungroup_cons, ← heq]
  · have hadd : g.add false item = { data := g.finish, oriKey := item.1, values := [item.2] } := by
      simp [add, heq, finish]
    rw [hadd]
    refine ⟨h.snoc (Std.lt_of_le_of_ne hle (Ne.symm heq)) item.2, ?_, rfl⟩
    simp [finish, ungroup_append, ungroup_cons]

theorem Grouping.foldl_add_spec (h : Grouped g.finish) {items : List Record}
    (hsorted : SortedBy Prod.fst items) (hle : ∀ item ∈ items, g.oriKey ≤ item.1) :
    Grouped (items.foldl (·.add false ·) g).finish ∧
      ungroup (items.foldl (·.add false ·) g).finish = ungroup g.finish ++ items := by
  induction items generalizing g with
  | nil => exact ⟨h, (append_nil _).symm⟩
  | cons item items ih =>
    obtain ⟨hgrouped, hflat, hkey⟩ := add_spec h (hle item mem_cons_self)
    rw [foldl_cons]
    obtain ⟨hgrouped', hflat'⟩ := ih hgrouped hsorted.of_cons
      fun x hx => hkey ▸ rel_of_pairwise_cons hsorted hx
    exact ⟨hgrouped', by rw [hflat', hflat, append_assoc]; rfl⟩

theorem Grouping.foldl_zipIdx (g : Grouping) (first : Nat → Bool) (items : List Record) (n : Nat)
    (h : ∀ i, n ≤ i → first i = false) :
    (items.zipIdx n).foldl (fun g item => g.add (first item.2) item.1) g =
      items.foldl (·.add false ·) g := by
  induction items generalizing g n with
  | nil => rfl
  | cons item items ih =>
    rw [zipIdx_cons, foldl_cons, h n (Nat.le_refl n)]
    exact ih _ (n + 1) fun i hi => h i (by omega)

theorem Grouping.addItems_of_pos (g : Grouping) {blockId : Nat} (h : 0 < blockId)
    (items : List Record) : g.addItems blockId items = items.foldl (·.add false ·) g :=
  foldl_zipIdx g (fun i => decide (blockId = 0 ∧ i = 0)) items 0 fun i _ => by simp; omega

theorem Grouping.addItems_zero (item : Record) (items : List Record) :
    ({} : Grouping).addItems 0 (item :: items) =
      items.foldl (·.add false ·) { oriKey := item.1, values := [item.2] } := by
  have hfirst : ({} : Grouping).add true item = { oriKey := item.1, values := [item.2] } := by
    simp [add]
  rw [← hfirst]
  exact foldl_zipIdx _ (fun i => decide (0 = 0 ∧ i = 0)) items 1 fun i hi => by simp; omega

section Init

variable [SSTableEnv] {impl : Impl} {blocks : List TableBlock}

theorem initLoop_succ (h : impl.Holds blocks) {i : Nat} {b : TableBlock}
    (hb : blocks[i]? = some b) (hne : b.items ≠ []) (count pos : Nat) (g : Grouping)
    {block : DataBlock} (hblock : block.compression =
      codec snappy impl.fileTrailer.compressType) :
    ∃ pos' block', block'.compression = block.compression ∧
      initLoop (count + 1) i block (impl.atPos pos) g =
        initLoop count (i + 1) block' (impl.atPos pos') (g.addItems i b.items) := by
  obtain ⟨pos', hload⟩ := h.load i b hb pos block hblock
  refine ⟨pos', { block with dataItems := b.items }, rfl, ?_⟩
  rw [initLoop, hload]
  simp [hne, ok_bind]

theorem initLoop_spec (h : impl.Holds blocks) {i : Nat} (hi : 0 < i)
    (hne : ∀ b ∈ blocks.drop i, b.items ≠ []) (count pos : Nat)
    (hcount : i + count = blocks.length) (g : Grouping) {block : DataBlock}
    (hblock : block.compression =
      codec snappy impl.fileTrailer.compressType) :
    ∃ pos', initLoop count i block (impl.atPos pos) g =
      .ok (impl.atPos pos',
        ((blocks.drop i).flatMap TableBlock.items).foldl (·.add false ·) g) := by
  induction count generalizing i pos g block with
  | zero =>
    rw [drop_eq_nil_of_le (by omega)]
    exact ⟨pos, rfl⟩
  | succ count ih =>
    have hlt : i < blocks.length := by omega
    rw [drop_eq_getElem_cons hlt] at hne ⊢
    obtain ⟨pos', block', hblock', hstep⟩ := initLoop_succ h (getElem?_eq_getElem hlt)
      (hne _ mem_cons_self) count pos g hblock
    rw [hstep, flatMap_cons, foldl_append, ← Grouping.addItems_of_pos g hi]
    exact ih (by omega) (fun b hb => hne b (mem_cons_of_mem _ hb)) pos' (by omega) _
      (hblock'.trans hblock)

end Init

/-- The reader of a table with the records. -/
structure Reads (r : InMemorySSTableReader) (records : List Record) : Prop where
  grouped : Grouped r.data
  flat : ungroup r.data = records
  ne_nil : r.data ≠ []
  index : r.index = indexOf r.data

/-- **Loading a table.** -/
theorem init_spec [SSTableEnv] {impl : Impl} {t : Table} (h : impl.Holds t.blocks)
    (hcount : impl.fileTrailer.dataIndexCount = t.blocks.length) :
    ∃ r pos, init impl = .ok r ∧ r.impl = impl.atPos pos ∧ r.Reads t.records := by
  obtain ⟨b, bs, hcons⟩ := exists_cons_of_ne_nil t.ne_nil
  have hb : b ∈ t.blocks := by rw [hcons]; exact mem_cons_self
  obtain ⟨value, items, hitems⟩ := (t.keyed b hb).exists_cons
  have hrecords : t.records = (b.key, value) :: (items ++ bs.flatMap TableBlock.items) := by
    rw [Table.records, hcons, flatMap_cons, hitems, cons_append]
  have hsorted := t.sorted
  rw [← Table.records, hrecords] at hsorted
  -- the first block sets the first key, and its other items are added to it
  obtain ⟨pos, block, hblock, hfirst⟩ := @initLoop_succ _ _ _ h 0 b (by rw [hcons]; rfl)
    (by simp [hitems]) bs.length impl.fileBase.pos {}
    { compression := codec snappy impl.fileTrailer.compressType } rfl
  obtain ⟨pos', hrest⟩ := @initLoop_spec _ _ _ h _ Nat.one_pos
    (fun b hb => t.items_ne_nil (mem_of_mem_drop hb)) bs.length pos
    (by rw [hcons, length_cons]; omega) (({} : Grouping).addItems 0 b.items) block
    (by rw [hblock])
  have hdrop : t.blocks.drop 1 = bs := by rw [hcons]; rfl
  rw [hitems, Grouping.addItems_zero, ← foldl_append, hdrop] at hrest
  rw [hitems, Grouping.addItems_zero, hrest] at hfirst
  obtain ⟨hgrouped, hflat⟩ := Grouping.foldl_add_spec (g := { oriKey := b.key, values := [value] })
    ⟨pairwise_singleton _ _, by simp [Grouping.finish]⟩ hsorted.of_cons
    fun item hitem => rel_of_pairwise_cons hsorted hitem
  generalize (items ++ bs.flatMap TableBlock.items).foldl (·.add false ·)
    { oriKey := b.key, values := [value] : Grouping } = g at hgrouped hflat hfirst
  refine ⟨{ impl := impl.atPos pos', data := g.finish, index := indexOf g.finish }, pos', ?_, rfl,
    hgrouped, ?_, by simp [Grouping.finish], rfl⟩
  · have hpos : impl.atPos impl.fileBase.pos = impl := rfl
    rw [hpos] at hfirst
    rw [init, create_eq _ h.supported, ok_bind, hcount, Int.toNat_natCast, hcons,
      length_cons, hfirst]
    rfl
  · rw [hflat, hrecords]
    rfl

/-! ## An empty block in front

The first block sets the first key of the loop of `Init`. If it has no items, the first key stays
empty, and the empty key gets an entry even if no record has it. -/

theorem Grouping.head?_add (item : Record) (h : g.finish.head?.map Prod.fst = some []) :
    (g.add false item).finish.head?.map Prod.fst = some [] := by
  by_cases heq : item.1 = g.oriKey
  · have hadd : g.add false item = { g with values := g.values ++ [item.2] } := by
      simp [add, heq]
    rw [hadd]
    cases hdata : g.data <;> simpa [finish, hdata] using h
  · have hadd : g.add false item = { data := g.finish, oriKey := item.1, values := [item.2] } := by
      simp [add, heq, finish]
    rw [hadd, finish]
    cases hhead : g.finish.head? with
    | none => simp [hhead] at h
    | some entry => simpa [hhead] using h

theorem Grouping.head?_foldl_add (items : List Record) (h : g.finish.head?.map Prod.fst = some []) :
    (items.foldl (·.add false ·) g).finish.head?.map Prod.fst = some [] := by
  induction items generalizing g with
  | nil => exact h
  | cons item items ih => exact ih (head?_add item h)

theorem init_padded [SSTableEnv] {impl : Impl} {t : Table} {key : Bytes}
    (h : impl.Holds (⟨key, []⟩ :: t.blocks))
    (hcount : impl.fileTrailer.dataIndexCount = (t.blocks.length + 1 : Nat)) :
    ∃ r, init impl = .ok r ∧ r.data.head?.map Prod.fst = some [] ∧ r.index = indexOf r.data := by
  obtain ⟨pos, hload⟩ := h.load 0 ⟨key, []⟩ rfl impl.fileBase.pos
    { compression := codec snappy impl.fileTrailer.compressType } rfl
  obtain ⟨pos', hrest⟩ := @initLoop_spec _ _ _ h 1 Nat.one_pos
    (fun b hb => t.items_ne_nil hb) t.blocks.length pos
    (by rw [length_cons, Nat.add_comm]) {}
    { compression := codec snappy impl.fileTrailer.compressType } rfl
  have hpos : impl.atPos impl.fileBase.pos = impl := rfl
  rw [hpos] at hload
  let g := t.records.foldl (·.add false ·) ({} : Grouping)
  refine ⟨{ impl := impl.atPos pos', data := g.finish, index := indexOf g.finish }, ?_,
    Grouping.head?_foldl_add t.records rfl, rfl⟩
  rw [init, create_eq _ h.supported, ok_bind, hcount, Int.toNat_natCast, initLoop, hload]
  simp only [isEmpty_nil, ite_true, ok_bind]
  rw [show ({} : Grouping).addItems 0 [] = {} from rfl, hrest]
  rfl

/-! ## Places of keys -/

variable {r : InMemorySSTableReader} {records : List Record} {k : Bytes}

/-- The number of keys smaller than `k`. -/
def rank (r : InMemorySSTableReader) (k : Bytes) : Nat :=
  ((r.data.map Prod.fst).takeWhile (· < k)).length

theorem rank_le (r : InMemorySSTableReader) (k : Bytes) : r.rank k ≤ r.data.length := by
  rw [← length_map Prod.fst]
  exact (takeWhile_sublist _).length_le

section

variable (h : r.Reads records)
include h

theorem Reads.splits (k : Bytes) :
    Splits (fun i => (r.data.map Prod.fst)[i]?.any (· < k)) 0 r.data.length (r.rank k) := by
  have hsplits := @Splits.of_pairwise _ (fun key : Bytes => decide (key < k))
    (r.data.map Prod.fst)
    (pairwise_map.mpr (h.grouped.keys.imp fun hlt hlt' => by
      simpa using Std.lt_trans hlt (by simpa using hlt')))
  rwa [length_map] at hsplits

/-- The keys below the rank are the smaller ones. -/
theorem Reads.key_lt_iff {i : Nat} (hi : i < r.data.length) : r.data[i].1 < k ↔ i < r.rank k := by
  have hiff := (h.splits k).before_iff i (Nat.zero_le _) (by omega)
  simpa [hi] using hiff

theorem Reads.rank_eq {i : Nat} (hi : i < r.data.length) : r.rank r.data[i].1 = i := by
  have hnot : ¬ i < r.rank r.data[i].1 := by
    rw [← h.key_lt_iff hi]
    exact Std.lt_irrefl
  by_cases hlt : r.rank r.data[i].1 < i
  · have hkey := pairwise_iff_getElem.mp h.grouped.keys _ i (by omega) hi hlt
    rw [h.key_lt_iff (by omega)] at hkey
    omega
  · omega

theorem Reads.getElem?_index :
    r.index[k]? = if k ∈ r.data.map Prod.fst then some (r.rank k) else none := by
  rw [h.index, indexOf, getElem?_insertNew]
  cases hfind : (r.data.zipIdx.map fun entry => (entry.1.1, entry.2)).find?
      fun x => decide (x.1 = k) with
  | some x =>
    have hkey : x.1 = k := by simpa using find?_some hfind
    obtain ⟨entry, hentry, rfl⟩ := mem_map.mp (mem_of_find?_eq_some hfind)
    obtain ⟨hlt, hget⟩ := List.getElem?_eq_some_iff.mp (mem_zipIdx_iff_getElem?.mp hentry)
    have hrank : r.rank k = entry.2 := by
      rw [← hkey, ← hget]
      exact h.rank_eq hlt
    have hmem : k ∈ r.data.map Prod.fst :=
      mem_map.mpr ⟨_, getElem_mem hlt, by rw [hget]; exact hkey⟩
    rw [if_pos hmem, hrank]
    rfl
  | none =>
    rw [if_neg, map_none]
    intro hmem
    obtain ⟨g, hg, rfl⟩ := mem_map.mp hmem
    obtain ⟨i, hi, rfl⟩ := getElem_of_mem hg
    have hentry : (r.data[i], i) ∈ r.data.zipIdx :=
      mem_zipIdx_iff_getElem?.mpr (getElem?_eq_getElem hi)
    exact find?_eq_none.mp hfind _ (mem_map.mpr ⟨_, hentry, rfl⟩) (by simp)

end

end InMemorySSTableReader

/-! ## Walking -/

namespace InMemoryIterator

variable {r : InMemorySSTableReader} {records xs : List Record} {x : Record}
  {it : InMemoryIterator}

/-- The iterator stands on a value, and `xs` is what follows from there on. -/
def Stands (it : InMemoryIterator) (r : InMemorySSTableReader) (xs : List Record) : Prop :=
  ∃ (entry : Bytes × List Bytes) (place i : Nat), r.data[place]? = some entry ∧
    i < entry.2.length ∧ it.position = some ⟨place, i, entry.2.length⟩ ∧
    xs = (entry.2.drop i).map (fun v => (entry.1, v)) ++ ungroup (r.data.drop (place + 1))

/-- An iterator that lists `xs`: it is invalid, or stands on the first of them and shows it. -/
def Shows (it : InMemoryIterator) (r : InMemorySSTableReader) : List Record → Prop
  | [] => it.valid = false
  | x :: xs => it.valid = true ∧ (it.key, it.value) = x ∧ it.Stands r (x :: xs)

theorem loadItem_spec (hvalid : it.valid = true) (h : it.Stands r (x :: xs)) :
    ∃ it', it.loadItem r = .ok it' ∧ it'.Shows r (x :: xs) := by
  obtain ⟨entry, place, i, hentry, hi, hposition, hxs⟩ := h
  have hx := hxs
  rw [drop_eq_getElem_cons hi, map_cons, cons_append, cons.injEq] at hx
  refine ⟨{ it with key := entry.1, value := entry.2[i] }, ?_, hvalid, hx.1.symm,
    entry, place, i, hentry, hi, hposition, hxs⟩
  simp only [loadItem, hposition, entryAt, hentry, ok_bind, show ¬ (i : Int) < 0 by omega,
    ite_false, Int.toNat_natCast, getElem?_eq_getElem hi, pure_eq_ok]

section

variable (h : r.Reads records) (hcount : records.length < 2 ^ 31)
include h hcount

theorem standAt_spec (it : InMemoryIterator) {place : Nat} (hplace : place < r.data.length) :
    ∃ it', it.standAt r place = .ok it' ∧ it'.valid = true ∧
      it'.Stands r (ungroup (r.data.drop place)) := by
  have hget := getElem?_eq_getElem hplace
  have hmem := getElem_mem hplace
  have hlen := length_le_ungroup hmem
  rw [h.flat] at hlen
  refine ⟨{ it with valid := true, position := some ⟨place, 0, r.data[place].2.length⟩ }, ?_, rfl,
    r.data[place], place, 0, hget, length_pos_iff.mpr (h.grouped.ne_nil _ hmem), rfl, ?_⟩
  · simp only [standAt, entryAt, hget, ok_bind, pure_eq_ok]
    rw [int32_of_lt (by omega)]
  · rw [drop_eq_getElem_cons hplace, ungroup_cons, drop_zero]

theorem nextItem_spec (hstands : it.Stands r (x :: xs)) :
    ∃ it', it.nextItem r = .ok it' ∧ it'.valid = !xs.isEmpty ∧ (xs ≠ [] → it'.Stands r xs) := by
  obtain ⟨entry, place, i, hentry, hi, hposition, hxs⟩ := hstands
  have hcur := (List.getElem?_eq_some_iff.mp hentry).1
  rw [drop_eq_getElem_cons hi, map_cons, cons_append, cons.injEq] at hxs
  rw [nextItem, hposition]
  dsimp only
  by_cases hlast : i + 1 = entry.2.length
  · rw [hlast, drop_length, map_nil, nil_append] at hxs
    rw [if_neg (by omega)]
    by_cases hend : place + 1 = r.data.length
    · -- the last value of the last key
      have hnil : xs = [] := by rw [hxs.2, hend, drop_length, ungroup_nil]
      rw [if_neg (not_not.mpr hend)]
      exact ⟨_, rfl, by rw [hnil]; rfl, fun hne => absurd hnil hne⟩
    · -- the first value of the next key
      obtain ⟨it', hstand, hvalid, hstands⟩ :=
        @standAt_spec _ _ h hcount it (place + 1) (by omega)
      rw [← hxs.2] at hstands
      have hne : xs ≠ [] := by
        rintro rfl
        obtain ⟨_, _, j, -, hj, -, hnil⟩ := hstands
        have hlen := congrArg length hnil
        simp at hlen
        omega
      rw [if_pos hend]
      exact ⟨it', hstand, by rw [hvalid]; simp [hne], fun _ => hstands⟩
  · -- the next value of the same key
    have hne : xs ≠ [] := by
      rw [hxs.2]
      exact append_ne_nil_of_left_ne_nil (by simp; omega) _
    rw [if_pos (by omega)]
    exact ⟨_, rfl, by simp [hne], fun _ =>
      ⟨entry, place, i + 1, hentry, by omega, rfl, hxs.2⟩⟩

/-- `Next` does not depend on the record that is shown. -/
theorem next_spec
    (hstands : it.Stands r (x :: xs)) : ∃ it', it.next r = .ok (it', r) ∧ it'.Shows r xs := by
  obtain ⟨it₁, hnext, hvalid, hstands⟩ := nextItem_spec h hcount hstands
  unfold next
  rw [hnext]
  simp only [ok_bind]
  cases xs with
  | nil =>
    have hinvalid : it₁.valid = false := hvalid
    simp only [hinvalid, Bool.false_eq_true, ite_false]
    exact ⟨it₁, rfl, hinvalid⟩
  | cons y ys =>
    have hvalid : it₁.valid = true := hvalid
    obtain ⟨it₂, hload, hshows⟩ := loadItem_spec hvalid (hstands (cons_ne_nil _ _))
    simp only [hvalid, ite_true, hload]
    exact ⟨it₂, rfl, hshows⟩

/-- **Walking.** An iterator gives what it shows. -/
theorem yields [SSTableEnv]
    (hshows : it.Shows r xs) : (cursor InMemorySSTableReader).Yields (it, r) xs := by
  refine Cursor.Yields.of_simulates
    (R := fun s xs => s.2 = r ∧ InMemoryIterator.Shows s.1 r xs) ⟨?_, ?_⟩ ⟨rfl, hshows⟩
  · exact fun s hs => hs.2
  · rintro ⟨it, _⟩ x xs ⟨rfl, hs⟩
    obtain ⟨it', hnext, hs'⟩ := next_spec h hcount hs.2.2
    exact ⟨hs.1, hs.2.1, (it', _), hnext, rfl, hs'⟩

end

/-! ## Seeking -/

variable {k : Bytes}

/-- The loop is a bisection. It is entered only behind the first key, so `mid - 1` does not wrap
around. -/
theorem seekLoop_eq (hcount : r.data.length < 2 ^ 31)
    (habsent : k ∉ r.data.map Prod.fst) (hpos : 0 < r.rank k) (fuel lo len last : Nat)
    (hfuel : len < fuel) (hlen : lo + len ≤ r.data.length)
    (hr : Splits (fun i => (r.data.map Prod.fst)[i]?.any (· < k)) lo len (r.rank k)) :
    seekLoop r.data k fuel lo (lo + len - 1) last =
      .ok (lastProbe (fun i => (r.data.map Prod.fst)[i]?.any (· < k)) lo len last) := by
  induction fuel generalizing lo len last with
  | zero => omega
  | succ fuel ih =>
    have hend := hr.le_end
    unfold seekLoop lastProbe
    by_cases hzero : len = 0
    · rw [if_neg (by omega), if_pos hzero]
    · have hmid : uint32 ((lo : Int) + (lo + len - 1 : Nat)) / 2 = lo + (len - 1) / 2 := by
        rw [uint32_add (by omega)]
        omega
      have hlt : lo + (len - 1) / 2 < r.data.length := by omega
      have hne : r.data[lo + (len - 1) / 2].1 ≠ k :=
        fun heq => habsent (mem_map.mpr ⟨_, getElem_mem hlt, heq⟩)
      rw [if_pos (by omega)]
      simp only [hmid, getElem?_eq_getElem hlt, hne, ite_false, getElem?_map,
        map_some, any_some, decide_eq_true_eq]
      split
      · rename_i hkey
        have hsucc : uint32 (((lo + (len - 1) / 2 : Nat) : Int) + 1) = lo + (len - 1) / 2 + 1 :=
          uint32_add (n := 1) (by omega)
        have hrest := ih (lo + (len - 1) / 2 + 1) (len - 1 - (len - 1) / 2) (lo + (len - 1) / 2)
          (by omega) (by omega) (hr.right hzero (by simpa [hlt] using hkey))
        rw [hsucc, show lo + len - 1 =
          lo + (len - 1) / 2 + 1 + (len - 1 - (len - 1) / 2) - 1 by omega, hrest]
        simp only [getElem?_map]
      · rename_i hkey
        have hleft := hr.left hzero (by simpa [hlt] using hkey)
        have hend' := hleft.le_end
        have hpred : uint32 (((lo + (len - 1) / 2 : Nat) : Int) - 1) = lo + (len - 1) / 2 - 1 := by
          rw [show ((lo + (len - 1) / 2 : Nat) : Int) - 1 = (lo + (len - 1) / 2 - 1 : Nat) by omega,
            uint32_of_lt (by omega)]
        rw [hpred, ih lo ((len - 1) / 2) (lo + (len - 1) / 2) (by omega) (by omega) hleft]
        simp only [getElem?_map]

end InMemoryIterator

namespace InMemorySSTableReader

variable {r : InMemorySSTableReader} {records : List Record}

/-- The place that `SeekKey` finds; behind the last key, the end. -/
def place (r : InMemorySSTableReader) (k : Bytes) : Nat :=
  if (r.data.map Prod.fst).contains k ∨ r.rank k = 0 ∨ r.rank k = r.data.length then r.rank k
  else lastProbe (fun i => (r.data.map Prod.fst)[i]?.any (· < k)) 0 r.data.length 0

section

variable (h : r.Reads records)
include h

/-- The place is the rank, or the one in front of it. -/
theorem Reads.place_cases (k : Bytes) : r.place k = r.rank k ∨ r.place k + 1 = r.rank k := by
  have hpos := length_pos_iff.mpr h.ne_nil
  unfold place
  split
  · exact .inl rfl
  · rcases lastProbe_cases 0 (h.splits k) with h' | h' | h'
    · exact .inl h'.1
    · exact .inr h'.1
    · omega

theorem Reads.place_le (k : Bytes) : r.place k ≤ r.data.length := by
  have hle := r.rank_le k
  rcases h.place_cases k with h' | h' <;> omega

/-- When the bisection ends at the rank. -/
theorem Reads.place_eq_rank_iff (k : Bytes) :
    r.place k = r.rank k ↔ k ∈ r.data.map Prod.fst ∨ r.rank k = r.data.length ∨
      endsLeft (r.data.length + 1) (r.rank k) = true := by
  have hpos := length_pos_iff.mpr h.ne_nil
  have hprobe := lastProbe_eq_iff 0 (h.splits k) (by omega)
  rw [Nat.sub_zero] at hprobe
  simp only [place, contains_iff_mem]
  by_cases hzero : r.rank k = 0
  · have hends : endsLeft (r.data.length + 1) (r.rank k) = true := by
      rw [← hprobe]
      rcases lastProbe_cases 0 (h.splits k) with h' | h' | h' <;> omega
    rw [if_pos (.inr (.inl hzero))]
    exact iff_of_true rfl (.inr (.inr hends))
  · split
    · rename_i hcases
      tauto
    · rename_i hcases
      tauto

theorem Reads.seekKey_eq (hcount : r.data.length < 2 ^ 31) (k : Bytes) (it : InMemoryIterator) :
    it.seekKey k r =
      if r.place k = r.data.length then .ok { it with valid := false }
      else it.standAt r (r.place k) := by
  have hpos := length_pos_iff.mpr h.ne_nil
  have hlast : r.data.length - 1 < r.data.length := by omega
  unfold InMemoryIterator.seekKey
  rw [h.getElem?_index]
  by_cases hmem : k ∈ r.data.map Prod.fst
  · obtain ⟨entry, hentry, rfl⟩ := mem_map.mp hmem
    obtain ⟨i, hi, rfl⟩ := getElem_of_mem hentry
    have hplace : r.place r.data[i].1 = i := by
      rw [place, if_pos (.inl (contains_iff_mem.mpr hmem)), h.rank_eq hi]
    rw [if_pos hmem, hplace, h.rank_eq hi, if_neg (show ¬ i = r.data.length by omega)]
  · have hle := r.rank_le k
    have hfirst : k < r.data[0].1 ↔ r.rank k = 0 := by
      have hne : r.data[0].1 ≠ k := fun heq =>
        hmem (mem_map.mpr ⟨_, getElem_mem hpos, heq⟩)
      have hiff := h.key_lt_iff (k := k) hpos
      rw [← Nat.le_zero, ← Nat.not_lt, ← hiff]
      exact ⟨Std.le_of_lt, fun hle => Std.lt_of_le_of_ne hle hne.symm⟩
    have hbehind : r.data[r.data.length - 1].1 < k ↔ r.rank k = r.data.length := by
      rw [h.key_lt_iff hlast]
      omega
    rw [if_neg hmem, head?_eq_getElem?, getLast?_eq_getElem?,
      getElem?_eq_getElem hpos, getElem?_eq_getElem hlast]
    simp only [hfirst, hbehind]
    by_cases hzero : r.rank k = 0
    · have hplace : r.place k = 0 := by rw [place, if_pos (.inr (.inl hzero)), hzero]
      rw [if_pos hzero, hplace, if_neg (show ¬ 0 = r.data.length by omega)]
    · rw [if_neg hzero]
      by_cases hfull : r.rank k = r.data.length
      · have hplace : r.place k = r.data.length := by
          rw [place, if_pos (.inr (.inr hfull)), hfull]
        rw [if_pos hfull, if_pos hplace]
      · have hplace : r.place k =
            lastProbe (fun i => (r.data.map Prod.fst)[i]?.any (· < k)) 0 r.data.length 0 := by
          rw [place, if_neg (by rw [contains_iff_mem]; tauto)]
        have hloop := InMemoryIterator.seekLoop_eq hcount hmem (by omega) (r.data.length + 1) 0
          r.data.length 0 (by omega) (by omega) (h.splits k)
        have hend : uint32 ((r.data.length : Int) - 1) = 0 + r.data.length - 1 := by
          rw [show (r.data.length : Int) - 1 = (r.data.length - 1 : Nat) by omega,
            uint32_of_lt (by omega)]
          omega
        have hlt : r.place k ≠ r.data.length := by
          rcases h.place_cases k with h' | h' <;> omega
        rw [if_neg hfull, if_neg hlt, hend, hloop, ← hplace]
        rfl

/-- A new iterator. It lists the records from the place on; behind the last key it has no key. -/
theorem Reads.create_spec (hcount : records.length < 2 ^ 31) (k : Bytes) :
    ∃ it, InMemoryIterator.create r k = .ok (it, r) ∧
      it.Shows r (ungroup (r.data.drop (r.place k))) ∧
      (it.valid = false → it.key = []) := by
  have hlen := h.grouped.length_le
  rw [h.flat] at hlen
  have hseek := h.seekKey_eq (by omega) k {}
  have hle := h.place_le k
  by_cases hend : r.place k = r.data.length
  · rw [if_pos hend] at hseek
    refine ⟨{}, ?_, ?_, fun _ => rfl⟩
    · simp [InMemoryIterator.create, hseek, ok_bind]
    · rw [hend, drop_length]
      rfl
  · have hplace : r.place k < r.data.length := by omega
    obtain ⟨it, hstand, hvalid, hstands⟩ := InMemoryIterator.standAt_spec h hcount {} hplace
    rw [if_neg hend, hstand] at hseek
    rw [drop_eq_getElem_cons hplace, ungroup_cons] at hstands ⊢
    obtain ⟨v, vs, hvs⟩ := exists_cons_of_ne_nil (h.grouped.ne_nil _ (getElem_mem hplace))
    rw [hvs, map_cons] at hstands ⊢
    obtain ⟨it', hload, hshows⟩ := InMemoryIterator.loadItem_spec hvalid hstands
    refine ⟨it', ?_, hshows, fun hinvalid => ?_⟩
    · simp [InMemoryIterator.create, hseek, hvalid, ok_bind, hload]
    · rw [hshows.1] at hinvalid
      cases hinvalid

/-- **Seek.** The reader lists the records from the place on. -/
theorem Reads.lists [SSTableEnv] (hcount : records.length < 2 ^ 31)
    (k : Bytes) : Lists r k (ungroup (r.data.drop (r.place k))) := by
  obtain ⟨it, hcreate, hshows, -⟩ := h.create_spec hcount k
  exact ⟨(it, r), hcreate, InMemoryIterator.yields h hcount hshows⟩

/-- The first record from the place on has the key, if there is a record with it. -/
theorem Reads.find?_eq (hsorted : SortedBy Prod.fst records) (k : Bytes) :
    ((ungroup (r.data.drop (r.place k))).head?.filter fun x => x.1 = k) =
      records.find? fun x => x.1 = k := by
  have hdrop : records.dropWhile (·.1 < k) = ungroup (r.data.drop (r.rank k)) := by
    rw [← h.flat, h.grouped.dropWhile_ungroup]
    rfl
  rw [hsorted.find?_eq, hdrop]
  rcases h.place_cases k with hplace | hplace
  · rw [hplace]
  · -- in front of the rank stands a smaller key, and at the rank none that is equal
    have hrank := r.rank_le k
    have hlt : r.place k < r.data.length := by omega
    have habsent : k ∉ r.data.map Prod.fst := fun hmem => by
      have := (h.place_eq_rank_iff k).mpr (.inl hmem)
      omega
    have hrank' : r.rank k < r.data.length := Nat.lt_of_le_of_ne hrank fun hfull => by
      have := (h.place_eq_rank_iff k).mpr (.inr (.inl hfull))
      omega
    have hfilter {i : Nat} (hi : i < r.data.length) :
        ((ungroup (r.data.drop i)).head?.filter fun x => x.1 = k) = none := by
      have hne : r.data[i].1 ≠ k := fun heq =>
        habsent (mem_map.mpr ⟨_, getElem_mem hi, heq⟩)
      obtain ⟨v, vs, hvs⟩ := exists_cons_of_ne_nil (h.grouped.ne_nil _ (getElem_mem hi))
      rw [drop_eq_getElem_cons hi, ungroup_cons, hvs]
      simp [Option.filter, hne]
    rw [hfilter hlt, hfilter hrank']

/-- Behind the last key the iterator has the empty key, which is not behind any key. -/
theorem Reads.ne_nil_of_end {k : Bytes}
    (hend : ungroup (r.data.drop (r.place k)) = []) : k ≠ [] := by
  have hpos := length_pos_iff.mpr h.ne_nil
  have hplace : r.place k = r.data.length := by
    refine Nat.le_antisymm (h.place_le k) (Nat.not_lt.mp fun hlt => ?_)
    obtain ⟨v, vs, hvs⟩ := exists_cons_of_ne_nil (h.grouped.ne_nil _ (getElem_mem hlt))
    rw [drop_eq_getElem_cons hlt, ungroup_cons, hvs] at hend
    cases hend
  have hfirst : r.data[0].1 < k :=
    (h.key_lt_iff hpos).mpr (by rcases h.place_cases k with h' | h' <;> omega)
  rintro rfl
  exact not_lt_nil _ hfirst

theorem Reads.lookup [SSTableEnv] (hsorted : SortedBy Prod.fst records)
    (hcount : records.length < 2 ^ 31) (k : Bytes) :
    SSTableReader.lookup r k = .ok ((records.find? fun x => x.1 = k).map Prod.snd, r) := by
  obtain ⟨it, hcreate, hshows, hend⟩ := h.create_spec hcount k
  rw [← h.find?_eq hsorted]
  refine lookup_of_yields hcreate (InMemoryIterator.yields h hcount hshows) fun hnil => ?_
  rw [hnil] at hshows
  change it.key ≠ k
  rw [hend hshows]
  exact (h.ne_nil_of_end hnil).symm

end

/-- The reader of a table that has an entry for the empty key in front. Its first iterator does not
end at once: it is valid, or the entry has no value and `LoadItem` fails. -/
theorem not_lists_nil [SSTableEnv] (hhead : r.data.head?.map Prod.fst = some [])
    (hindex : r.index = indexOf r.data) : ¬ Lists r [] [] := by
  obtain ⟨⟨key, values⟩, rest, hdata⟩ := exists_cons_of_ne_nil
    (fun hnil : r.data = [] => by simp [hnil] at hhead)
  obtain rfl : key = [] := by simpa [hdata] using hhead
  have hplace : r.index[([] : Bytes)]? = some 0 := by
    rw [hindex, indexOf, getElem?_insertNew, hdata]
    rfl
  rintro ⟨s, hseek, hyields⟩
  have hinvalid : s.1.valid = false := hyields.valid_eq
  have hseek : InMemoryIterator.create r [] = .ok s := hseek
  simp only [InMemoryIterator.create, InMemoryIterator.seekKey, hplace, InMemoryIterator.standAt,
    InMemoryIterator.entryAt, hdata, getElem?_cons_zero, ok_bind, pure_eq_ok, ite_true,
    InMemoryIterator.loadItem, Int.lt_irrefl, ite_false, Int.toNat_zero] at hseek
  cases hvalue : values[0]? with
  | none =>
    rw [hvalue] at hseek
    cases hseek
  | some value =>
    rw [hvalue] at hseek
    rw [← Except.ok.inj hseek] at hinvalid
    cases hinvalid

theorem place_nil (r : InMemorySSTableReader) : r.place [] = 0 := by
  have hrank : r.rank [] = 0 := by
    rw [rank, length_eq_zero_iff]
    simp
  rw [place, if_pos (.inr (.inl hrank)), hrank]

theorem Reads.lists_nil [SSTableEnv] (h : r.Reads records) (hcount : records.length < 2 ^ 31) :
    Lists r [] records := by
  have hlists := h.lists hcount []
  rwa [place_nil, drop_zero, h.flat] at hlists

end InMemorySSTableReader

end Toft
