import Toft.Lib.Cursor
import Toft.Storage.SSTable.Reader.Impl

/-!
# Readers and their iterators

The base classes `SSTableReader` and `SSTableReader::Iterator`. An iterator works on its reader and
may change the reader's caches, so the two are passed along together.
-/

namespace Toft

open Lib

/-- The virtual functions of a reader class and of its iterator class. -/
class SSTableReader (ρ : Type) where
  Iterator : Type
  seek : ρ → Bytes → Except Fault (Iterator × ρ)
  next : Iterator → ρ → Except Fault (Iterator × ρ)
  valid : Iterator → Bool
  key : Iterator → Bytes
  value : Iterator → Bytes

namespace SSTableReader

variable {ρ : Type} [SSTableReader ρ]

def newIterator (r : ρ) : Except Fault (Iterator ρ × ρ) := seek r []

/-- `SSTableReader::Lookup`: the value, if it returns true. -/
def lookup (r : ρ) (k : Bytes) : Except Fault (Option Bytes × ρ) := do
  let (it, r) ← seek r k
  return (if key it = k then some (value it) else none, r)

/-- Walking an iterator with `Next`. -/
def cursor (ρ : Type) [SSTableReader ρ] : Cursor (Iterator ρ × ρ) Fault Record where
  valid s := valid s.1
  item s := (key s.1, value s.1)
  next s := next s.1 s.2

/-- `Seek(k)` and then `Next` give the records `xs`, and then the iterator is invalid. -/
def Lists (r : ρ) (k : Bytes) (xs : List Record) : Prop :=
  ∃ s, seek r k = .ok s ∧ (cursor ρ).Yields s xs

theorem Lists.unique {r : ρ} {k : Bytes} {xs ys : List Record} (hx : Lists r k xs)
    (hy : Lists r k ys) : xs = ys := by
  obtain ⟨s, hs, hxs⟩ := hx
  obtain ⟨s', hs', hys⟩ := hy
  cases hs.symm.trans hs'
  exact hxs.unique hys

/-- `Lookup` looks at the first record that `Seek` lists. It does not ask whether the iterator is
valid, so the iterator must not keep the key at the end. -/
theorem lookup_of_yields {r r' : ρ} {it : Iterator ρ} {k : Bytes} {xs : List Record}
    (hseek : seek r k = .ok (it, r')) (hyields : (cursor ρ).Yields (it, r') xs)
    (hend : xs = [] → key it ≠ k) :
    lookup r k = .ok ((xs.head?.filter fun x => x.1 = k).map Prod.snd, r') := by
  rw [lookup, hseek, ok_bind]
  simp only [pure_eq_ok]
  congr 2
  cases xs with
  | nil => exact if_neg (hend rfl)
  | cons x xs =>
    have hitem : (key it, value it) = x := hyields.item_eq
    subst hitem
    by_cases heq : key it = k <;> simp [Option.filter, heq]

/-- The states of a reader in use, with its iterators: each is made by `Seek` and moved by `Next`
while it is valid, and there may be calls of `lookup` in between. -/
inductive Used (lookup : ρ → Bytes → Except Fault (Option Bytes × ρ)) (r : ρ) :
    List (Iterator ρ) → ρ → Prop
  | opened : Used lookup r [] r
  | seek {its : List (Iterator ρ)} {it : Iterator ρ} {r₁ r₂ : ρ} {k : Bytes}
      (h : Used lookup r its r₁) (hseek : SSTableReader.seek r₁ k = .ok (it, r₂)) :
      Used lookup r (it :: its) r₂
  | next {before after : List (Iterator ρ)} {it it' : Iterator ρ} {r₁ r₂ : ρ}
      (h : Used lookup r (before ++ it :: after) r₁) (hvalid : valid it = true)
      (hnext : SSTableReader.next it r₁ = .ok (it', r₂)) :
      Used lookup r (before ++ it' :: after) r₂
  | lookup {its : List (Iterator ρ)} {r₁ r₂ : ρ} {k : Bytes} {value : Option Bytes}
      (h : Used lookup r its r₁) (hlookup : lookup r₁ k = .ok (value, r₂)) :
      Used lookup r its r₂

/-- What the calls keep holds of a reader in use. -/
theorem Used.keeps {lookup : ρ → Bytes → Except Fault (Option Bytes × ρ)} {P : ρ → Prop}
    {Q : Iterator ρ → Prop}
    (hseek : ∀ {r k it r'}, P r → SSTableReader.seek r k = .ok (it, r') → P r' ∧ Q it)
    (hnext : ∀ {it r it' r'}, P r → Q it → valid it = true →
      SSTableReader.next it r = .ok (it', r') → P r' ∧ Q it')
    (hlookup : ∀ {r k value r'}, P r → lookup r k = .ok (value, r') → P r')
    {r r' : ρ} {its : List (Iterator ρ)} (h : Used lookup r its r') (hr : P r) : P r' := by
  suffices hkept : P r' ∧ ∀ it ∈ its, Q it from hkept.1
  induction h with
  | opened => exact ⟨hr, List.forall_mem_nil _⟩
  | seek _ hcall ih =>
    obtain ⟨hkept, hits⟩ := ih
    obtain ⟨hkept', hit⟩ := hseek hkept hcall
    exact ⟨hkept', List.forall_mem_cons.mpr ⟨hit, hits⟩⟩
  | next _ hvalid hcall ih =>
    obtain ⟨hkept, hits⟩ := ih
    rw [List.forall_mem_append, List.forall_mem_cons] at hits ⊢
    obtain ⟨hkept', hit'⟩ := hnext hkept hits.2.1 hvalid hcall
    exact ⟨hkept', hits.1, hit', hits.2.2⟩
  | lookup _ hcall ih => exact ⟨hlookup ih.1 hcall, ih.2⟩

/-- The readers of a single file: how they start from a loaded file. -/
class OfFile (ρ : Type) extends SSTableReader ρ where
  init : Impl → Except Fault ρ
  impl : ρ → Impl

def getMetaData {ρ : Type} [OfFile ρ] (r : ρ) (key : Bytes) : Bytes :=
  (OfFile.impl r).getMetaData key

def entryCount {ρ : Type} [OfFile ρ] (r : ρ) : Int := (OfFile.impl r).entryCount

/-- `SSTableReader::Open`: `none` when it returns a null pointer. -/
def openFile (ρ : Type) [OfFile ρ] [Host] (fs : FileSystem) (path : Bytes) (io : Schedule) :
    Except Fault (Option ρ) := do
  match ← Impl.loadFile fs path io with
  | none => return none
  | some impl => return some (← OfFile.init impl)

end SSTableReader

end Toft
