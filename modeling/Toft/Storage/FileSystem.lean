import Mathlib.Logic.Function.Basic
import Toft.Storage.File

/-!
# The file system

The files by their paths, and the calls of `File` that work on paths. What is written to an open
file is there once the file is closed.
-/

namespace Toft

open Lib

/-- The contents of the files, and the paths at which a file can be made. -/
structure FileSystem where
  files : Bytes → Option Bytes
  writable : Bytes → Bool

namespace FileSystem

def set (fs : FileSystem) (path : Bytes) (content : Option Bytes) : FileSystem :=
  { fs with files := Function.update fs.files path content }

/-- `File::Open(path, "r")`, with the outcomes of the reads to come. -/
def openRead (fs : FileSystem) (path : Bytes) (io : Schedule) : Option File :=
  (fs.files path).map fun data => { data := data, io := io }

/-- `File::Open(path, "w")`, with the outcomes of the writes to come. -/
def openWrite (fs : FileSystem) (path : Bytes) (io : Schedule) : Option (File × FileSystem) :=
  if fs.writable path then some ({ data := [], io := io }, fs.set path (some [])) else none

def close (fs : FileSystem) (path : Bytes) (f : File) : FileSystem := fs.set path (some f.data)

def rename (fs : FileSystem) (source target : Bytes) : Bool × FileSystem :=
  match fs.files source with
  | none => (false, fs)
  | some data =>
    if fs.writable target then (true, (fs.set source none).set target (some data)) else (false, fs)

/-- `remove`; its result is only logged. -/
def remove (fs : FileSystem) (path : Bytes) : FileSystem := fs.set path none

def AllWritable (fs : FileSystem) : Prop := ∀ path, fs.writable path = true

theorem openWrite_allFull {fs : FileSystem} (h : fs.AllWritable) {path : Bytes} :
    fs.openWrite path Schedule.allFull = some (File.written [], fs.set path (some [])) := by
  rw [openWrite, if_pos (h _)]
  rfl

@[simp] theorem files_set_self (fs : FileSystem) (path : Bytes) (content : Option Bytes) :
    (fs.set path content).files path = content :=
  Function.update_self ..

theorem files_set_of_ne (fs : FileSystem) {path path' : Bytes} (h : path' ≠ path)
    (content : Option Bytes) : (fs.set path content).files path' = fs.files path' :=
  Function.update_of_ne h ..

theorem rename_close (fs : FileSystem) (h : fs.AllWritable) (path target : Bytes) (f : File) :
    ∃ fs', (fs.close path f).rename path target = (true, fs') ∧ fs'.AllWritable ∧
      fs'.files target = some f.data ∧
      ∀ p, p ≠ path → p ≠ target → fs'.files p = fs.files p := by
  have hpath : (fs.close path f).files path = some f.data := files_set_self ..
  have hwritable : (fs.close path f).writable target = true := h target
  refine ⟨((fs.close path f).set path none).set target (some f.data),
    by simp only [rename, hpath, hwritable, ite_true], h, files_set_self .., fun p hp ht => ?_⟩
  rw [files_set_of_ne _ ht, files_set_of_ne _ hp, close, files_set_of_ne _ hp]

theorem foldl_remove (fs : FileSystem) (paths : List Bytes) :
    (paths.foldl remove fs).writable = fs.writable ∧
      ∀ p ∉ paths, (paths.foldl remove fs).files p = fs.files p := by
  induction paths generalizing fs with
  | nil => exact ⟨rfl, fun _ _ => rfl⟩
  | cons path paths ih =>
    obtain ⟨hwritable, hfiles⟩ := ih (fs.remove path)
    refine ⟨hwritable, fun p hp => ?_⟩
    rw [List.mem_cons, not_or] at hp
    exact (hfiles p hp.2).trans (files_set_of_ne fs hp.1 none)

end FileSystem

end Toft
