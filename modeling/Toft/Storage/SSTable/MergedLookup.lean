import Toft.Storage.SSTable.Reader.MergedOpen
import Toft.Storage.SSTable.Reader.MergedView
import Toft.Storage.SSTable.TableFiles

/-!
# Looking up a key in several tables

Without a sharding policy, `Lookup` asks every table for the key and keeps the least value. An empty
value counts as none found so far, so it is kept only if no table after it has the key. `Seek` takes
the least of the records that the tables start with, and in memory a table may start with a smaller
key. `lookupAgrees_iff` says when the two agree.
-/

namespace Toft

open Lib SSTableReader List SSTableEnv Schedule Std.TreeMap

variable {ρ : Type}

/-! ## The least value -/

namespace SSTableReaderSet

/-- A round of the loop of `Lookup` in which the key is found. -/
def offer (best : Option Bytes) (value : Bytes) : Option Bytes :=
  if best.getD [] = [] ∨ value < best.getD [] then some value else best

theorem offer_ne {best : Option Bytes} {value : Bytes} (hvalue : value ≠ []) :
    offer best value ≠ some [] := by
  unfold offer
  split
  · simpa using hvalue
  · rename_i h
    rw [not_or] at h
    rintro rfl
    exact h.1 rfl

variable {values : List Bytes}

theorem foldl_offer_least (hne : [] ∉ values) {best : Option Bytes}
    (hbest : best ≠ some []) {v : Bytes} (hfold : values.foldl offer best = some v) :
    (∀ w ∈ values, v ≤ w) ∧ ∀ w ∈ best, v ≤ w := by
  induction values generalizing best with
  | nil =>
    refine ⟨by simp, fun w hw => ?_⟩
    cases hw.symm.trans hfold
    exact Std.le_refl _
  | cons u values ih =>
    rw [mem_cons, not_or] at hne
    obtain ⟨hrest, hoffer⟩ := ih hne.2 (offer_ne (Ne.symm hne.1)) hfold
    unfold offer at hoffer
    split at hoffer
    · rename_i h
      have hu : v ≤ u := hoffer u rfl
      refine ⟨fun w hw => ?_, fun w hw => ?_⟩
      · rcases mem_cons.mp hw with rfl | hw
        · exact hu
        · exact hrest w hw
      · obtain rfl : best = some w := hw
        rcases h with h | h
        · exact absurd (congrArg some h) hbest
        · exact Std.le_trans hu (Std.le_of_lt h)
    · rename_i h
      rw [not_or] at h
      obtain ⟨b, rfl⟩ : ∃ b, best = some b := Option.ne_none_iff_exists'.mp fun hnone =>
        h.1 (by rw [hnone]; rfl)
      refine ⟨fun w hw => ?_, hoffer⟩
      rcases mem_cons.mp hw with rfl | hw
      · exact Std.le_trans (hoffer b rfl) (Std.not_lt.mp h.2)
      · exact hrest w hw

theorem foldl_offer_mem (best : Option Bytes) (hne : values ≠ []) :
    ∃ v ∈ best.toList ++ values, values.foldl offer best = some v := by
  induction values generalizing best with
  | nil => exact absurd rfl hne
  | cons u values ih =>
    have hoffer : ∃ b ∈ best.toList ++ [u], offer best u = some b := by
      unfold offer
      split
      · exact ⟨u, by simp, rfl⟩
      · rename_i h
        rw [not_or] at h
        obtain ⟨b, rfl⟩ : ∃ b, best = some b := Option.ne_none_iff_exists'.mp fun hnone =>
          h.1 (by rw [hnone]; rfl)
        exact ⟨b, by simp, rfl⟩
    obtain ⟨b, hb, heq⟩ := hoffer
    rw [foldl_cons, heq]
    rw [mem_append, mem_singleton] at hb
    by_cases hnil : values = []
    · subst hnil
      exact ⟨b, by simpa using hb, rfl⟩
    · obtain ⟨v, hv, hfold⟩ := ih (some b) hnil
      refine ⟨v, ?_, hfold⟩
      rw [Option.toList_some, singleton_append, mem_cons] at hv
      rw [mem_append, mem_cons]
      rcases hv with rfl | hv
      · exact hb.imp_right .inl
      · exact .inr (.inr hv)

/-- The loop keeps the least value exactly if no value is empty, or the last one is. -/
theorem foldl_offer_eq_iff {m : Bytes} (hmem : m ∈ values) (hle : ∀ w ∈ values, m ≤ w) :
    values.foldl offer none = some m ↔ [] ∉ values ∨ values.getLast? = some [] := by
  obtain ⟨v, hv, hfold⟩ := foldl_offer_mem none (ne_nil_of_mem hmem)
  obtain ⟨init, last, rfl⟩ : ∃ init last, values = init ++ [last] :=
    ⟨_, _, (dropLast_append_getLast (ne_nil_of_mem hmem)).symm⟩
  have hnil : [] ∈ init ++ [last] → m = [] := fun h =>
    Std.le_antisymm (hle _ h) (nil_le _)
  rw [getLast?_append, getLast?_singleton, Option.some_or, Option.some.injEq]
  by_cases hlast : last = []
  · -- the last value is offered last, and nothing is less than it
    subst hlast
    refine iff_of_true ?_ (.inr rfl)
    rw [hnil (by simp), foldl_append, foldl_cons, offer]
    split
    · rfl
    · rename_i h
      rw [not_or] at h
      exact absurd (Std.lt_of_le_of_ne (nil_le _) (Ne.symm h.1)) h.2
  · rw [or_iff_left hlast]
    constructor
    · intro hm hmem'
      rw [hnil hmem', foldl_append, foldl_cons] at hm
      exact offer_ne hlast hm
    · intro hne
      have hleast := (foldl_offer_least hne (by simp) hfold).1
      rw [hfold, Std.le_antisymm (hleast m hmem) (hle v hv)]

end SSTableReaderSet

/-! ## Looking up in the set without an id -/

namespace MergedSSTableReader

open MergedIterator SSTableReaderSet

theorem toList_placed (n : Nat) : (placed n).toList.map Prod.snd = range n := by
  have heq : (placed n).toList = (range n).map fun i : Nat => ((i : Int), i) := by
    refine @List.Perm.eq_of_pairwise _ (fun a b => a.1 < b.1) _ _ ?_ ?_ ?_ ?_
    · intro a b _ _ hab hba
      omega
    · exact ordered_keys_toList.imp fun h => Int.compare_eq_lt.mp h
    · rw [pairwise_map]
      exact pairwise_lt_range.imp fun h => by simpa using h
    · refine (perm_ext_iff_of_nodup ?_ ?_).mpr fun ⟨i, j⟩ => ?_
      · exact distinct_keys_toList.imp fun h heq => h (by simp [heq])
      · exact (nodup_range).map fun i j h => by simpa using h
      · rw [mem_toList_iff_getElem?_eq_some, getElem?_placed, mem_map]
        constructor
        · intro h
          split at h
          · rename_i hi
            cases h
            exact ⟨i.toNat, mem_range.mpr (by omega), by simp [hi.1]⟩
          · cases h
        · rintro ⟨a, ha, h⟩
          cases h
          rw [if_pos ⟨by omega, by simpa using ha⟩, Int.toNat_natCast]
  rw [heq, map_map]
  exact map_id _

end MergedSSTableReader

section Lookup

variable [SSTableReader ρ] {views : List (TableView ρ)} {tables : List ρ}

open MergedIterator

theorem SSTableReaderSet.lookupIn_spec (hserve : Serve views tables) {i : Nat} {v : TableView ρ}
    (hv : views[i]? = some v) (k : Bytes) :
    ∃ tables', lookupIn tables i k = .ok (firstValue v.records k, tables') ∧
      Serve views tables' := by
  obtain ⟨t, ht, hserves⟩ := forall₂_getElem? hserve hv
  obtain ⟨t', hlookup, hserves'⟩ := v.lookup_spec hserves k
  refine ⟨tables.set i t', ?_, forall₂_set hserve hv hserves'⟩
  simp only [lookupIn, ht, hlookup, ok_bind, pure_eq_ok]

theorem SSTableReaderSet.lookupLoop_spec (hserve : Serve views tables) (k : Bytes)
    {places : List Nat} {vs : List (TableView ρ)}
    (hvs : List.Forall₂ (fun i v => views[i]? = some v) places vs)
    (best : Option Bytes) :
    ∃ tables', lookupLoop k places tables best =
        .ok ((vs.filterMap fun v => firstValue v.records k).foldl offer best, tables') ∧
      Serve views tables' := by
  induction hvs generalizing tables best with
  | nil => exact ⟨tables, rfl, hserve⟩
  | @cons i v places vs hv _ ih =>
    obtain ⟨tables₁, hlookup, hserve₁⟩ := lookupIn_spec hserve hv k
    rw [lookupLoop, hlookup]
    cases hvalue : firstValue v.records k with
    | none =>
      have hcons : (v :: vs).filterMap (fun v => firstValue v.records k) =
          vs.filterMap fun v => firstValue v.records k := filterMap_cons_none hvalue
      rw [hcons]
      exact ih hserve₁ best
    | some value =>
      obtain ⟨tables', hloop, hserve'⟩ := ih hserve₁ (offer best value)
      have hcons : (v :: vs).filterMap (fun v => firstValue v.records k) =
          value :: vs.filterMap fun v => firstValue v.records k :=
        filterMap_cons_some hvalue
      rw [hcons, foldl_cons]
      refine ⟨tables', ?_, hserve'⟩
      rw [← hloop]
      simp only [ok_bind, offer]
      split <;> rfl

namespace MergedSSTableReader

variable {r : MergedSSTableReader ρ} {k : Bytes}

omit [SSTableReader ρ] in
theorem Plain.toList_sets (h : r.Plain) : r.sets.toList.map Prod.snd =
    if r.tables = [] then [] else [plainSet r.tables.length] := by
  by_cases hnil : r.tables = []
  · have hequiv : r.sets.Equiv (∅ : Std.TreeMap Bytes SSTableReaderSet) := by
      refine Std.TreeMap.Equiv.of_forall_constGet?_eq fun s => ?_
      rw [h s, if_neg fun hs => hs.2 hnil]
      rfl
    rw [hequiv.toList_eq, if_pos hnil]
    rfl
  · have hequiv : r.sets.Equiv ((∅ : Std.TreeMap Bytes SSTableReaderSet).insert []
        (plainSet r.tables.length)) := by
      refine Std.TreeMap.Equiv.of_forall_constGet?_eq fun s => ?_
      rw [h s]
      by_cases hs : s = []
      · simp [hs, hnil]
      · have hne : ¬ compare ([] : Bytes) s = .eq :=
          fun h => hs (Std.LawfulEqOrd.eq_of_compare h).symm
        simp [hs, hne]
    rw [hequiv.toList_eq, if_neg hnil]
    rfl

theorem Plain.lookup_eq [SSTableEnv] (h : r.Plain) (hserve : Serve views r.tables) :
    ∃ tables, r.lookup k =
      .ok ((views.filterMap fun v => firstValue v.records k).foldl SSTableReaderSet.offer none,
        { r with tables := tables }) ∧ Serve views tables := by
  rw [lookup, h.toList_sets]
  by_cases hnil : r.tables = []
  · obtain rfl : views = [] := eq_nil_of_length_eq_zero (by
      rw [List.Forall₂.length_eq hserve, hnil]
      rfl)
    rw [if_pos hnil]
    exact ⟨_, rfl, hserve⟩
  · have hplaces : List.Forall₂ (fun i v => views[i]? = some v) (range r.tables.length)
        views := by
      rw [← List.Forall₂.length_eq hserve, forall₂_iff_get]
      exact ⟨length_range, fun i hi hi' => by simp⟩
    obtain ⟨tables', hloop, hserve'⟩ := SSTableReaderSet.lookupLoop_spec hserve k hplaces none
    generalize (views.filterMap fun v => firstValue v.records k).foldl SSTableReaderSet.offer none =
      found at hloop ⊢
    have hset : (plainSet r.tables.length).lookup k r.tables = .ok (found, tables') := by
      rw [SSTableReaderSet.lookup]
      simp only [plainSet, toList_placed]
      exact hloop
    rw [if_neg hnil, lookupLoop, hset]
    cases found <;> exact ⟨tables', rfl, hserve'⟩

/-- A record that a table starts with. -/
def IsHead (views : List (TableView ρ)) (k : Bytes) (x : Record) : Prop :=
  ∃ v ∈ views, (v.recordsFrom k).head? = some x

/-- `Seek` takes the least of the records that the tables start with. -/
theorem create_least (hserve : Serve views r.tables) (k : Bytes) :
    ∃ it tables, MergedIterator.create r k = .ok (it, { r with tables := tables }) ∧
      Serve views tables ∧ (∃ xss, Queues views it.iterQueue xss) ∧
      (it.valid = true → IsHead views k (it.key, it.value)) ∧
      ∀ x, IsHead views k x → it.valid = true ∧ ¬ Before x (it.key, it.value) := by
  obtain ⟨it₁, tables₁, hseek, hserve₁, hseeks⟩ := @seekKey_seeks _ _ views {} [] _ k hserve .nil
  obtain ⟨xss, hqueues, hperm⟩ := hseeks.queues
  rw [nil_append] at hperm
  have hhead : ∀ x, IsHead views k x → ∃ xs, x :: xs ∈ xss := by
    rintro x ⟨v, hv, hx⟩
    obtain ⟨xs, hxs⟩ := head?_eq_some_iff.mp hx
    refine ⟨xs, hperm.mem_iff.mpr (mem_filter.mpr ⟨?_, rfl⟩)⟩
    rw [← hxs]
    exact mem_map_of_mem hv
  have hvalid := hseeks.valid
  unfold create
  rw [hseek]
  simp only [ok_bind]
  cases xss with
  | nil =>
    rw [nil_perm.mp hperm] at hvalid
    have hinvalid : it₁.valid = false := hvalid
    rw [hinvalid]
    refine ⟨it₁, tables₁, rfl, hserve₁, ⟨[], hqueues⟩, fun h => ?_, fun x hx => ?_⟩
    · rw [hinvalid] at h
      cases h
    · obtain ⟨xs, hxs⟩ := hhead x hx
      cases hxs
  | cons xs xss =>
    obtain ⟨it', tables', ys, hload, hserve', rfl, hvalid', ⟨xss', hqueues', -⟩, hordered⟩ :=
      @loadItem_takes _ _ _ _ _ { r with tables := tables₁ } hserve₁ _ hqueues
    have hmem := hperm.mem_iff.mp mem_cons_self
    have hvalid₁ : it₁.valid = true := by
      rw [hvalid]
      simpa using ne_nil_of_mem hmem
    obtain ⟨v, hv, hlist⟩ := mem_map.mp (mem_filter.mp hmem).1
    rw [hvalid₁]
    refine ⟨it', tables', hload, hserve', ⟨xss', hqueues'⟩,
      fun _ => ⟨v, hv, by rw [hlist]; rfl⟩, fun x hx => ⟨?_, ?_⟩⟩
    · rw [hvalid', hvalid₁]
    · obtain ⟨zs, hzs⟩ := hhead x hx
      obtain ⟨e, he, -, w, -, hshows⟩ := forall₂_mem_right hqueues hzs
      rw [← w.item_eq hshows]
      exact (hordered (hseeks.ordered List.Pairwise.nil)).2 e he

/-- In use, the tables still serve their views, and are in the same set. -/
theorem Plain.used [SSTableEnv] (h : r.Plain) (hserve : Serve views r.tables)
    {its : List (MergedIterator ρ)} {r' : MergedSSTableReader ρ}
    (hused : Used MergedSSTableReader.lookup r its r') : r'.Plain ∧ Serve views r'.tables := by
  have hkeep {r : MergedSSTableReader ρ} {tables : List ρ} (hr : r.Plain ∧ Serve views r.tables)
      (hserve : Serve views tables) : Plain { r with tables := tables } := by
    have hlength := (List.Forall₂.length_eq hserve).symm.trans (List.Forall₂.length_eq hr.2)
    have hne : tables ≠ [] ↔ r.tables ≠ [] := by
      rw [← length_pos_iff, hlength, length_pos_iff]
    intro s
    simp only [hne, hlength]
    exact hr.1 s
  refine hused.keeps (P := fun r => r.Plain ∧ Serve views r.tables)
    (Q := fun it => ∃ xss, Queues views (MergedIterator.iterQueue it) xss) ?_ ?_ ?_ ⟨h, hserve⟩
  · intro r k it r' hr hseek
    obtain ⟨it₁, tables, hcreate, hserve₁, hqueues, -⟩ := create_least hr.2 k
    cases (show create r k = .ok (it, r') from hseek).symm.trans hcreate
    exact ⟨⟨hkeep hr hserve₁, hserve₁⟩, hqueues⟩
  · rintro it r it' r' hr ⟨xss, hqueues⟩ - hnext
    have hnext : it.next r = .ok (it', r') := hnext
    rw [MergedIterator.next] at hnext
    split at hnext
    · cases hnext
      exact ⟨hr, xss, hqueues⟩
    · rename_i hne
      cases xss with
      | nil =>
        rw [forall₂_nil_right_iff.mp hqueues] at hne
        exact absurd rfl hne
      | cons xs xss =>
        obtain ⟨it₁, tables, ys, hload, hserve₁, -, -, ⟨xss', hqueues', -⟩, -⟩ :=
          @loadItem_takes _ _ _ { it with valid := true } _ _ hr.2 _ hqueues
        cases hnext.symm.trans hload
        exact ⟨⟨hkeep hr hserve₁, hserve₁⟩, xss', hqueues'⟩
  · intro r k value r' hr hlookup
    obtain ⟨tables, hlookup₁, hserve₁⟩ := hr.1.lookup_eq (k := k) hr.2
    cases hlookup.symm.trans hlookup₁
    exact ⟨hkeep hr hserve₁, hserve₁⟩

/-- `Lookup` finds the key exactly if the iterator of `Seek` stands on it, and then gives the value
there, which is the least of `values`. -/
def LookupAgrees [SSTableEnv] (r : MergedSSTableReader ρ) (k : Bytes) (values : List Bytes) :
    Prop :=
  ∃ found r₁ it r₂, r.lookup k = .ok (found, r₁) ∧ MergedIterator.create r k = .ok (it, r₂) ∧
    found = (if it.valid = true ∧ it.key = k then some it.value else none) ∧
    ∀ v ∈ found, v ∈ values ∧ ∀ w ∈ values, v ≤ w

theorem mem_values_iff {value : Bytes} :
    value ∈ views.filterMap (fun v => firstValue v.records k) ↔ IsHead views k (k, value) := by
  simp only [mem_filterMap, TableView.firstValue_eq_some_iff, IsHead]

/-- The least record stands on the key, with the least value, if no table starts with a smaller
key. -/
theorem least_eq {x : Record} (hx : IsHead views k x)
    (hleast : ∀ y, IsHead views k y → ¬ Before y x) (hstarts : ∀ y, IsHead views k y → k ≤ y.1)
    {value : Bytes} (hvalue : IsHead views k (k, value)) :
    x.1 = k ∧ IsHead views k (k, x.2) ∧ ∀ w, IsHead views k (k, w) → x.2 ≤ w := by
  have hkey : x.1 = k := by
    rcases not_before_iff.mp (hleast _ hvalue) with hlt | ⟨heq, -⟩
    · exact absurd hlt (Std.not_lt.mpr (hstarts x hx))
    · exact heq
  refine ⟨hkey, ?_, fun w hw => ?_⟩
  · rwa [show (k, x.2) = x from Prod.ext hkey.symm rfl]
  · rcases not_before_iff.mp (hleast _ hw) with hlt | ⟨-, hle⟩
    · exact absurd (hkey ▸ hlt) Std.lt_irrefl
    · exact hle

/-- **Lookup and Seek.** They agree exactly if no table has the key, or no table starts with a
smaller key and no value is empty or the last one is. -/
theorem Plain.lookupAgrees_iff [SSTableEnv] (h : r.Plain) (hserve : Serve views r.tables)
    {values : List Bytes} (hvalues : views.filterMap (fun v => firstValue v.records k) = values) :
    r.LookupAgrees k values ↔ values = [] ∨ (∀ x, IsHead views k x → k ≤ x.1) ∧
      ([] ∉ values ∨ values.getLast? = some []) := by
  obtain ⟨tables₁, hlookup, -⟩ := h.lookup_eq (k := k) hserve
  obtain ⟨it, tables₂, hcreate, -, -, hhead, hleast⟩ := create_least hserve k
  have hmem {w : Bytes} : w ∈ values ↔ IsHead views k (k, w) := hvalues ▸ mem_values_iff
  rw [hvalues] at hlookup
  constructor
  · rintro ⟨found, r₁', it', r₂', hlookup', hcreate', hfound, hmin⟩
    rw [hlookup] at hlookup'
    rw [hcreate] at hcreate'
    cases hlookup'
    cases hcreate'
    refine or_iff_not_imp_left.mpr fun hne => ?_
    obtain ⟨v, -, hfold⟩ := SSTableReaderSet.foldl_offer_mem none hne
    rw [hfold] at hfound hmin
    obtain ⟨hv, hle⟩ := hmin v rfl
    refine ⟨fun x hx => ?_, (SSTableReaderSet.foldl_offer_eq_iff hv hle).mp hfold⟩
    split at hfound
    · rename_i hon
      refine Std.not_lt.mp fun hlt => (hleast x hx).2 (.inl ?_)
      rwa [hon.2]
    · cases hfound
  · intro hcond
    refine ⟨_, _, it, _, hlookup, hcreate, ?_⟩
    by_cases hnil : values = []
    · have hnot : ¬ (it.valid = true ∧ it.key = k) := by
        rintro ⟨hvalid, rfl⟩
        exact not_mem_nil (hnil ▸ hmem.mpr (hhead hvalid))
      rw [hnil, if_neg hnot]
      exact ⟨rfl, by simp⟩
    · obtain ⟨hstarts, hempty⟩ := hcond.resolve_left hnil
      obtain ⟨u, hu⟩ := exists_mem_of_ne_nil values hnil
      have hvalid := (hleast _ (hmem.mp hu)).1
      obtain ⟨hkey, hvalue, hle⟩ :=
        least_eq (hhead hvalid) (fun y hy => (hleast y hy).2) hstarts (hmem.mp hu)
      have hle' : ∀ w ∈ values, it.value ≤ w := fun w hw => hle w (hmem.mp hw)
      rw [(SSTableReaderSet.foldl_offer_eq_iff (hmem.mpr hvalue) hle').mpr hempty,
        if_pos ⟨hvalid, hkey⟩]
      refine ⟨rfl, fun v hv => ?_⟩
      cases hv
      exact ⟨hmem.mpr hvalue, hle'⟩

end MergedSSTableReader

end Lookup

/-! ## Opened files -/

def firstValues (ts : List Table) (k : Bytes) : List Bytes :=
  ts.filterMap fun t => firstValue t.records k

def tablesOf (opened : List (Option (Impl × Table))) : List Table :=
  (opened.filterMap id).map Prod.snd

namespace MergedSSTableReader

open MergedIterator

section Open

variable [SSTableEnv] [OfFile ρ] {starts : Table → Bytes → Prop} {fs : FileSystem}
  {paths : List Bytes} {opened : List (Option (Impl × Table))}

theorem openFile_of_opens_none {path : Bytes} (h : Opens fs path none) :
    openFile ρ fs path allFull = .ok none := by
  rw [openFile, show Impl.loadFile fs path allFull = .ok none from h]
  rfl

omit [SSTableEnv] [OfFile ρ] in
theorem filterMap_firstValue [SSTableReader ρ] {views : List (TableView ρ)} {ts : List Table}
    (h : List.Forall₂ (Matches starts) views ts) (k : Bytes) :
    views.filterMap (fun v => firstValue v.records k) = firstValues ts k := by
  induction h with
  | nil => rfl
  | cons hv _ ih =>
    rw [firstValues] at ih ⊢
    rw [filterMap_cons, filterMap_cons, hv.1, ih]

omit [SSTableEnv] [OfFile ρ] in
theorem starts_iff [SSTableReader ρ] {views : List (TableView ρ)} {ts : List Table}
    (h : List.Forall₂ (Matches starts) views ts) (k : Bytes) :
    (∀ x, IsHead views k x → k ≤ x.1) ↔ ∀ t ∈ ts, starts t k := by
  constructor
  · intro hle t ht
    obtain ⟨v, hv, hmatches⟩ := forall₂_mem_right h ht
    exact (hmatches.2 k).mp fun x hx => hle x ⟨v, hv, hx⟩
  · rintro hall x ⟨v, hv, hx⟩
    obtain ⟨t, ht, hmatches⟩ := forall₂_mem_right h.flip hv
    exact (hmatches.2 k).mpr (hall t ht) x hx

section

variable (hserving : Serving ρ starts) (h : List.Forall₂ (Opens fs) paths opened)
  (hplain : ∀ x ∈ opened.filterMap id, x.1.getMetaData kSSTableSetID = [])
include hserving h hplain

theorem exists_readers :
    ∃ (readers : List (Option ρ)) (views : List (TableView ρ)),
      List.Forall₂ (fun path t => openFile ρ fs path allFull = .ok t ∧
        ∀ sstable ∈ t, SSTableReader.entryCount sstable ≠ 0 ∧
          getMetaData sstable kSSTableSetID = []) paths readers ∧
      (none ∈ readers → none ∈ opened) ∧ Serve views (readers.filterMap id) ∧
      List.Forall₂ (Matches starts) views (tablesOf opened) := by
  induction h with
  | nil => exact ⟨[], [], .nil, by simp, .nil, .nil⟩
  | @cons path o paths opened ho _ ih =>
    cases o with
    | none =>
      obtain ⟨readers, views, hreaders, hnone, hserve, hviews⟩ := ih hplain
      exact ⟨none :: readers, views, .cons ⟨openFile_of_opens_none ho, by simp⟩ hreaders,
        fun _ => mem_cons_self, hserve, hviews⟩
    | some x =>
      rcases x with ⟨impl, t⟩
      obtain ⟨readers, views, hreaders, hnone, hserve, hviews⟩ := ih fun x hx =>
        hplain x (mem_cons_of_mem _ hx)
      obtain ⟨reader, v, pos, hopen, himpl, hserves, hrecords, hstarts⟩ := hserving ho
      have hcount : SSTableReader.entryCount reader ≠ 0 := by
        obtain ⟨x, xs, hcons⟩ := t.exists_records
        rw [SSTableReader.entryCount, himpl]
        change impl.entryCount ≠ 0
        rw [ho.entryCount, hcons]
        exact Int.natCast_ne_zero.mpr (Nat.succ_ne_zero _)
      have hset : getMetaData reader kSSTableSetID = [] := by
        rw [getMetaData, himpl]
        exact hplain (impl, t) mem_cons_self
      refine ⟨some reader :: readers, v :: views, .cons ⟨hopen, ?_⟩ hreaders, fun hmem => ?_,
        .cons hserves hserve, .cons ⟨hrecords, hstarts⟩ hviews⟩
      · intro sstable hsstable
        cases hsstable
        exact ⟨hcount, hset⟩
      · exact mem_cons_of_mem _ (hnone (by simpa using hmem))

variable {ignoreBadFiles : Bool}

/-- The merged reader of tables without a set id, in any read mode. -/
theorem openAll_serves (hignore : ignoreBadFiles = true ∨ none ∉ opened) :
    ∃ (r : MergedSSTableReader ρ) (views : List (TableView ρ)),
      openAll fs paths ignoreBadFiles allFull = .ok (!(tablesOf opened).isEmpty, r) ∧
      r.Plain ∧ Serve views r.tables ∧ List.Forall₂ (Matches starts) views (tablesOf opened) := by
  obtain ⟨readers, views, hreaders, hnone, hserve, hviews⟩ := exists_readers hserving h hplain
  obtain ⟨r, hopen, htables, hr⟩ := openAll_plain hreaders
    (hignore.imp_right fun hmem hmem' => hmem (hnone hmem'))
  have hempty : (readers.filterMap id).isEmpty = (tablesOf opened).isEmpty := by
    have hlength := (List.Forall₂.length_eq hserve).symm.trans hviews.length_eq
    rw [Bool.eq_iff_iff, isEmpty_iff_length_eq_zero, isEmpty_iff_length_eq_zero, hlength]
  exact ⟨r, views, by rw [hopen, hempty], hr, htables ▸ hserve, hviews⟩

theorem openAll_lookupAgrees_iff (hignore : ignoreBadFiles = true ∨ none ∉ opened) (k : Bytes) :
    ∃ r : MergedSSTableReader ρ,
      openAll fs paths ignoreBadFiles allFull = .ok (!(tablesOf opened).isEmpty, r) ∧
      ∀ its r', Used MergedSSTableReader.lookup r its r' →
        (r'.LookupAgrees k (firstValues (tablesOf opened) k) ↔
          firstValues (tablesOf opened) k = [] ∨ (∀ t ∈ tablesOf opened, starts t k) ∧
            ([] ∉ firstValues (tablesOf opened) k ∨
              (firstValues (tablesOf opened) k).getLast? = some [])) := by
  obtain ⟨r, views, hopen, hr, hserve, hviews⟩ := openAll_serves hserving h hplain hignore
  refine ⟨r, hopen, fun its r' hused => ?_⟩
  obtain ⟨hr', hserve'⟩ := hr.used hserve hused
  rw [hr'.lookupAgrees_iff hserve' (filterMap_firstValue hviews k), starts_iff hviews]

end

end Open

/-- **Merged lookups.** Whatever the reader was used for before, on disk `Lookup` agrees with `Seek`
exactly if no value for the key is empty, or that of the last table is. In memory, moreover, no
table may start with a smaller key. -/
theorem merged_lookup_agrees_iff [SSTableEnv] {fs : FileSystem} {paths : List Bytes}
    {opened : List (Option (Impl × Table))} (h : List.Forall₂ (Opens fs) paths opened)
    (hplain : ∀ x ∈ opened.filterMap id, x.1.getMetaData kSSTableSetID = [])
    {ignoreBadFiles : Bool} (hignore : ignoreBadFiles = true ∨ none ∉ opened) (k : Bytes) :
    (∃ r : MergedSSTableReader OnDiskSSTableReader,
      openAll fs paths ignoreBadFiles allFull = .ok (!(tablesOf opened).isEmpty, r) ∧
      ∀ its r', Used MergedSSTableReader.lookup r its r' →
        (r'.LookupAgrees k (firstValues (tablesOf opened) k) ↔
          [] ∉ firstValues (tablesOf opened) k ∨
            (firstValues (tablesOf opened) k).getLast? = some [])) ∧
    ∃ r : MergedSSTableReader InMemorySSTableReader,
      openAll fs paths ignoreBadFiles allFull = .ok (!(tablesOf opened).isEmpty, r) ∧
      ∀ its r', Used MergedSSTableReader.lookup r its r' →
        (r'.LookupAgrees k (firstValues (tablesOf opened) k) ↔
          firstValues (tablesOf opened) k = [] ∨ (∀ t ∈ tablesOf opened, t.BisectsTo k) ∧
            ([] ∉ firstValues (tablesOf opened) k ∨
              (firstValues (tablesOf opened) k).getLast? = some [])) := by
  refine ⟨?_, openAll_lookupAgrees_iff InMemorySSTableReader.serving h hplain hignore k⟩
  obtain ⟨r, hopen, hiff⟩ := openAll_lookupAgrees_iff OnDiskSSTableReader.serving h hplain hignore k
  refine ⟨r, hopen, fun its r' hused => (hiff its r' hused).trans ?_⟩
  constructor
  · rintro (hnil | ⟨-, hempty⟩)
    · exact .inl (by simp [hnil])
    · exact hempty
  · exact fun hempty => .inr ⟨fun _ _ => trivial, hempty⟩

/-! ### Two tables -/

def oneRecord (key value : Bytes) : Table := .single (key, value) [] (pairwise_singleton _ _)

def aceTable : Table :=
  .single (ascii "a", ascii "1") [(ascii "c", ascii "2"), (ascii "e", ascii "3")]
    (by unfold SortedBy; decide)

theorem not_bisectsTo_ace : ¬ aceTable.BisectsTo (ascii "b") := by
  have hcard : aceTable.keySet.card = 3 := by decide
  have hsmaller : (aceTable.keySet.filter (· < ascii "b")).card = 1 := by decide
  rintro (h | h | h)
  · exact absurd h (by decide)
  · exact absurd (h (ascii "e") (by decide)) (by decide)
  · rw [hcard, hsmaller] at h
    simp [endsLeft] at h

theorem opens_two {t₁ t₂ : Table} (h₁ : letI := inverting; (t₁.file []).Fits [])
    (h₂ : letI := inverting; (t₂.file []).Fits [])
    (hcount₁ : t₁.blocks.length ≤ 2 ^ 30) (hcount₂ : t₂.blocks.length ≤ 2 ^ 30) :
    letI := inverting
    ∃ (fs : FileSystem) (impl₁ impl₂ : Impl), LoadsTable fs (ascii "1") impl₁ t₁ ∧
      LoadsTable fs (ascii "2") impl₂ t₂ ∧
      impl₁.getMetaData kSSTableSetID = [] ∧ impl₂.getMetaData kSSTableSetID = [] := by
  let _ := inverting
  obtain ⟨impl₁, impl₂, hload₁, hload₂, hmetas₁, hmetas₂⟩ := loadsTable_twoFiles
    BlockCompression.lossless_inverting h₁ h₂ hcount₁ hcount₂
  refine ⟨_, impl₁, impl₂, hload₁, hload₂, ?_, ?_⟩
  · rw [Impl.getMetaData_eq, hmetas₁]
    rfl
  · rw [Impl.getMetaData_eq, hmetas₂]
    rfl

theorem fits_file {t : Table} (h : t = oneRecord (ascii "k") [] ∨
      t = oneRecord (ascii "k") (ascii "x") ∨ t = oneRecord (ascii "b") (ascii "x") ∨
      t = aceTable) :
    letI := inverting
    (t.file []).Fits [] := by
  let _ := inverting
  rcases h with rfl | rfl | rfl | rfl
  all_goals exact ⟨trivial, cons_ne_nil _ _,
    ⟨by decide, by decide, by decide, by decide, by decide⟩,
    by decide, by decide +kernel, rfl, by decide, by decide, by decide⟩

theorem fits_file_ace :
    letI := inverting
    (aceTable.file []).Fits [] :=
  fits_file (.inr (.inr (.inr rfl)))

/-- The table with the empty value is opened last. -/
theorem merged_lookup_agrees_last :
    letI := inverting
    ∃ (fs : FileSystem) (r : MergedSSTableReader OnDiskSSTableReader),
      openAll fs [ascii "2", ascii "1"] false allFull = .ok (true, r) ∧
      ∀ its r', Used MergedSSTableReader.lookup r its r' →
        r'.LookupAgrees (ascii "k") [ascii "x", []] := by
  let _ := inverting
  obtain ⟨fs, impl₁, impl₂, hload₁, hload₂, hset₁, hset₂⟩ := opens_two (fits_file (.inl rfl))
    (fits_file (.inr (.inl rfl))) (by decide) (by decide)
  let opened := [some (impl₂, oneRecord (ascii "k") (ascii "x")),
    some (impl₁, oneRecord (ascii "k") [])]
  have hopens : List.Forall₂ (Opens fs) [ascii "2", ascii "1"] opened :=
    .cons hload₂ (.cons hload₁ .nil)
  have hignore : false = true ∨ none ∉ opened := .inr (by simp [opened])
  obtain ⟨⟨r, hopen, hiff⟩, -⟩ := merged_lookup_agrees_iff hopens (by simp [opened, hset₁, hset₂])
    hignore (ascii "k")
  exact ⟨fs, r, hopen, fun its r' hused => (hiff its r' hused).mpr (.inr rfl)⟩

/-- A table with an empty value is opened first: `Seek` stands on the empty value, and `Lookup`
gives the value of the other table. In memory a table with other keys is enough: `Seek` stands on a
smaller key of it. -/
theorem merged_lookup_differs :
    letI := inverting
    (∃ (fs : FileSystem) (r : MergedSSTableReader OnDiskSSTableReader),
      openAll fs [ascii "1", ascii "2"] false allFull = .ok (true, r) ∧
      ¬ r.LookupAgrees (ascii "k") [[], ascii "x"]) ∧
    ∃ (fs : FileSystem) (r : MergedSSTableReader InMemorySSTableReader),
      openAll fs [ascii "1", ascii "2"] false allFull = .ok (true, r) ∧
      ¬ r.LookupAgrees (ascii "b") [ascii "x"] := by
  let _ := inverting
  constructor
  · obtain ⟨fs, impl₁, impl₂, hload₁, hload₂, hset₁, hset₂⟩ := opens_two (fits_file (.inl rfl))
      (fits_file (.inr (.inl rfl))) (by decide) (by decide)
    let opened := [some (impl₁, oneRecord (ascii "k") []),
      some (impl₂, oneRecord (ascii "k") (ascii "x"))]
    have hopens : List.Forall₂ (Opens fs) [ascii "1", ascii "2"] opened :=
      .cons hload₁ (.cons hload₂ .nil)
    have hignore : false = true ∨ none ∉ opened := .inr (by simp [opened])
    obtain ⟨r, hopen, hiff⟩ := openAll_lookupAgrees_iff OnDiskSSTableReader.serving hopens
      (by simp [opened, hset₁, hset₂]) hignore (ascii "k")
    rw [show firstValues (tablesOf opened) (ascii "k") = [[], ascii "x"] from rfl] at hiff
    refine ⟨fs, r, hopen, fun hagrees => ?_⟩
    rcases (hiff [] r .opened).mp hagrees with hnil | ⟨-, hnot | hlast⟩
    · cases hnil
    · exact hnot mem_cons_self
    · exact absurd hlast (by decide)
  · obtain ⟨fs, impl₁, impl₂, hload₁, hload₂, hset₁, hset₂⟩ := opens_two fits_file_ace
      (fits_file (.inr (.inr (.inl rfl)))) (by decide) (by decide)
    let opened := [some (impl₁, aceTable), some (impl₂, oneRecord (ascii "b") (ascii "x"))]
    have hopens : List.Forall₂ (Opens fs) [ascii "1", ascii "2"] opened :=
      .cons hload₁ (.cons hload₂ .nil)
    have hignore : false = true ∨ none ∉ opened := .inr (by simp [opened])
    obtain ⟨r, hopen, hiff⟩ := openAll_lookupAgrees_iff InMemorySSTableReader.serving hopens
      (by simp [opened, hset₁, hset₂]) hignore (ascii "b")
    refine ⟨fs, r, hopen, fun hagrees => ?_⟩
    rcases (hiff [] r .opened).mp hagrees with hnil | ⟨hbisects, -⟩
    · cases hnil
    · exact not_bisectsTo_ace (hbisects aceTable mem_cons_self)

end MergedSSTableReader

end Toft
