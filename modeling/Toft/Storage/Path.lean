import Toft.Base.Int
import Toft.Base.Split

/-!
# Paths

Joining paths, their normal form and the way from a directory to a file.
-/

namespace Toft.Path

open Lib

def doJoin : Bytes → List Bytes → Bytes
  | result, [] => result
  | result, path :: paths =>
    match path with
    | [] => doJoin result paths
    | c :: _ =>
      if c = 0x2f then doJoin path paths
      else if result ≠ [] ∧ result.getLast? ≠ some 0x2f then doJoin (result ++ [0x2f] ++ path) paths
      else doJoin (result ++ path) paths

/-- `Path::Join` of two paths. -/
def join (p₁ p₂ : Bytes) : Bytes := doJoin p₁ [p₂]

/-! ## Normal forms -/

def isAbsolute (filepath : Bytes) : Bool := filepath.head? = some 0x2f

/-- `initial_slashes`: two slashes are kept, three or more are one. -/
def initialSlashes (path : Bytes) : Nat :=
  if path.head? = some 0x2f then
    if (ascii "//").isPrefixOf path && !(ascii "///").isPrefixOf path then 2 else 1
  else 0

def pushComp (slashes : Nat) (newComps : List Bytes) (comp : Bytes) : List Bytes :=
  if comp.isEmpty ∨ comp = ascii "." then newComps
  else if comp ≠ ascii ".." ∨ (slashes = 0 ∧ newComps = []) ∨
      newComps.getLast? = some (ascii "..") then
    newComps ++ [comp]
  else newComps.dropLast

def normalize (path : Bytes) : Except Fault Bytes :=
  if path.isEmpty then .ok (ascii ".")
  else do
    let slashes := initialSlashes path
    let comps ← splitStringKeepEmpty path (ascii "/")
    let newPath := joinStrings (ascii "/") (comps.foldl (pushComp slashes) [])
    let newPath := List.replicate slashes 0x2f ++ newPath
    return if newPath.isEmpty then ascii "." else newPath

/-- `Path::ToAbsolute` in a working directory. -/
def toAbsolute (cwd filepath : Bytes) : Except Fault Bytes :=
  if isAbsolute filepath then normalize filepath else normalize (join cwd filepath)

/-! ## Relative paths -/

/-- The loop over the common components: how many there are. -/
def commonCount : List Bytes → List Bytes → Nat
  | x :: xs, y :: ys => if x ≠ y then 0 else commonCount xs ys + 1
  | [], _ => 0
  | _ :: _, [] => 0

/-- The components of the way from a directory to a file, both given by their components. The
numbers of components are kept as `int`, and `insert` refuses a negative one. -/
def relativeComps (directory file : List Bytes) : Except Fault (List Bytes) :=
  let directorySize := int32 directory.length
  let fileSize := int32 file.length
  let i := commonCount (directory.take directorySize.toNat) (file.take fileSize.toNat)
  let restSize := directorySize - i
  if restSize < 0 then .error .badLength
  else .ok (List.replicate restSize.toNat (ascii "..") ++ file.drop i)

/-- The components from the second to the last one are joined to the first; their number is kept as
an `int`. -/
def joinComps (comps : List Bytes) : Bytes :=
  match comps with
  | [] => []
  | first :: others => (others.take (int32 comps.length - 1).toNat).foldl join first

/-- `Path::ToRelative` in a working directory. -/
def toRelative (cwd baseDirectory filePath : Bytes) : Except Fault Bytes := do
  let absoluteBaseDirectory ← toAbsolute cwd baseDirectory
  let absoluteFilePath ← toAbsolute cwd filePath
  let comps ← relativeComps (splitString absoluteBaseDirectory (ascii "/"))
    (splitString absoluteFilePath (ascii "/"))
  return joinComps comps

end Toft.Path
