import Toft.Base.StringScan
import Toft.Net.Http.Headers

/-!
# HTTP messages

A message is a version, headers and a body, with a start line that requests and responses write and
read in their own ways (`StartLine`). What `HeadersToString` writes is read by `ParseHeaders` as far
as the start line is (`parseHeaders_text`).
-/

namespace Toft

open Lib List UInt32

/-! ## Versions -/

/-- Both numbers of the version in one word. -/
structure HttpVersion where
  value : UInt32
  deriving DecidableEq, Repr

namespace HttpVersion

/-- The constructor from two `int`. -/
def ofInts (major minor : Int) : HttpVersion :=
  ⟨ofInt major <<< 16 ||| ofInt minor⟩

def major (v : HttpVersion) : Int := (v.value >>> 16).toNat

def minor (v : HttpVersion) : Int := (v.value &&& 0xffff).toNat

def isEmpty (v : HttpVersion) : Bool := v.value = 0

section

variable (v : HttpVersion)
include v

theorem major_eq : v.major = (v.value.toNat / 2 ^ 16 : Nat) := by
  rw [major, UInt32.toNat_shiftRight, Nat.shiftRight_eq_div_pow]
  rfl

theorem minor_eq : v.minor = (v.value.toNat % 2 ^ 16 : Nat) := by
  rw [minor, UInt32.toNat_and, show (0xffff : UInt32).toNat = 2 ^ 16 - 1 from rfl,
    Nat.and_two_pow_sub_one_eq_mod]

theorem major_nonneg : 0 ≤ v.major := Int.natCast_nonneg _

theorem major_lt : v.major < 2 ^ 16 := by
  have := v.value.toNat_lt
  rw [major_eq]
  omega

theorem minor_nonneg : 0 ≤ v.minor := Int.natCast_nonneg _

theorem minor_lt : v.minor < 2 ^ 16 := by
  rw [minor_eq]
  omega

end

section

variable {m n : Nat} (hm : m < 2 ^ 16) (hn : n < 2 ^ 16)
include hm hn

theorem toNat_ofInts : (ofInts m n).value.toNat = 2 ^ 16 * m + n := by
  have hvalue : ∀ {k : Nat}, k < 2 ^ 16 → (ofInt k).toNat = k := by
    intro k hk
    rw [ofInt, toNat_ofNat']
    omega
  have hor := @toNat_or_shiftLeft 16 (ofInt n) (ofInt m) (by decide)
    (by rwa [hvalue hn]) (by rw [hvalue hm]; omega)
  rw [hvalue hm, hvalue hn] at hor
  rw [ofInts, UInt32.or_comm, Nat.add_comm]
  exact hor

theorem major_ofInts : (ofInts m n).major = m := by
  rw [major_eq, toNat_ofInts hm hn]
  omega

theorem minor_ofInts : (ofInts m n).minor = n := by
  rw [minor_eq, toNat_ofInts hm hn]
  omega

end

theorem eq_iff {v w : HttpVersion} : v = w ↔ v.major = w.major ∧ v.minor = w.minor := by
  refine ⟨fun h => h ▸ ⟨rfl, rfl⟩, fun ⟨hmajor, hminor⟩ => ?_⟩
  rw [major_eq, major_eq] at hmajor
  rw [minor_eq, minor_eq] at hminor
  have hvalue : v.value.toNat = w.value.toNat := by omega
  exact congrArg mk (UInt32.toNat_inj.mp hvalue)

end HttpVersion

/-! ## Messages -/

/-- `HttpMessage`; what a derived class has on the start line besides the version is `line`. A new
message has version 1.1. -/
structure HttpMessage (σ : Type) where
  version : HttpVersion := .ofInts 1 1
  headers : HttpHeaders := []
  body : Bytes := []
  line : σ
  deriving DecidableEq, Repr

/-- The virtual functions of a message class. -/
class StartLine (σ : Type) where
  /-- `ParseStartLine`: its result, and the message after the call -/
  parseStartLine : HttpMessage σ → Bytes → Except HttpError Unit × HttpMessage σ
  /-- `AppendStartLineToString` to an empty target -/
  startLine : HttpMessage σ → Except Fault Bytes

namespace HttpMessage

variable {σ : Type}

def parseVersion (m : HttpMessage σ) (versionStr : Bytes) : Bool × HttpMessage σ :=
  if (ascii "HTTP/").isPrefixOf versionStr then
    match stringScan (versionStr.drop 5) (ascii "%d.%d") with
    | [major, minor] => (true, { m with version := .ofInts major minor })
    | _ => (false, m)
  else (false, m)

variable [StartLine σ]

def headersToString (m : HttpMessage σ) : Except Fault Bytes := do
  return (← StartLine.startLine m) ++ ascii "\r\n" ++ m.headers.toString ++ ascii "\r\n"

/-- `ParseHeaders`: its result, and the message after the call. -/
def parseHeaders (m : HttpMessage σ) (data : Bytes) : Except HttpError Unit × HttpMessage σ :=
  let pos := (data.findIdx? (· == lf)).getD data.length
  let firstLine := stringTrimRight (data.take pos) (ascii "\r")
  if firstLine.isEmpty then (.error .noStartLine, m)
  else
    match StartLine.parseStartLine m firstLine with
    | (.error e, m) => (.error e, m)
    | (.ok (), m) =>
      let (result, headers) := HttpHeaders.parse (data.drop (pos + 1))
      (result, { m with headers })

def versionText (major minor : Nat) : Bytes :=
  ascii "HTTP/" ++ (decimal major ++ ascii "." ++ decimal minor)

omit [StartLine σ] in
theorem parseVersion_versionText (m : HttpMessage σ) {major minor : Nat} (hmajor : major < 2 ^ 31)
    (hminor : minor < 2 ^ 31) :
    parseVersion m (versionText major minor) =
      (true, { m with version := .ofInts major minor }) := by
  have hpre : (ascii "HTTP/").isPrefixOf (versionText major minor) = true := by
    exact isPrefixOf_iff_prefix.mpr (prefix_append _ _)
  have hdrop : (versionText major minor).drop 5 = decimal major ++ ascii "." ++ decimal minor := by
    rw [versionText, show 5 = (ascii "HTTP/").length from rfl, drop_left]
  rw [parseVersion, if_pos hpre, hdrop, stringScan_dotted hmajor hminor]

theorem notMem_decimal {c : UInt8} (h : isDigitOf 10 c = false) (n : Nat) : c ∉ decimal n := by
  intro hmem
  rw [isDigitOf_decimal hmem] at h
  cases h

theorem notMem_versionText {c : UInt8} (hdigit : isDigitOf 10 c = false)
    (hname : c ∉ ascii "HTTP/.") (major minor : Nat) : c ∉ versionText major minor := by
  have hparts : ascii "HTTP/." = ascii "HTTP/" ++ ascii "." := rfl
  rw [hparts, mem_append, not_or] at hname
  simp [versionText, notMem_decimal hdigit, hname.1, hname.2]

theorem parseHeaders_text {line : Bytes} (hline : OneLine line) (hne : line ≠ [])
    {headers : HttpHeaders} (hheaders : ∀ header ∈ headers, HttpHeaders.Plain header)
    {m read : HttpMessage σ} (hread : StartLine.parseStartLine m line = (.ok (), read)) :
    parseHeaders m (line ++ ascii "\r\n" ++ headers.toString ++ ascii "\r\n") =
      (.ok (), { read with headers := headers.take (int32 headers.length).toNat }) := by
  have htext : line ++ ascii "\r\n" ++ headers.toString ++ ascii "\r\n" =
      line ++ [cr] ++ lf :: (headers.toString ++ crlf) := by
    simp [show ascii "\r\n" = [cr, lf] from rfl, crlf]
  have hlf : lf ∉ line ++ [cr] := by simp [hline.lf, show lf ≠ cr by decide]
  have hfirst : stringTrimRight (line ++ [cr]) (ascii "\r") = line := stringTrimRight_cr hline.cr
  have hrest : (line ++ [cr] ++ lf :: (headers.toString ++ crlf)).drop ((line ++ [cr]).length + 1) =
      headers.toString ++ crlf := by
    rw [drop_length_add_append]
    rfl
  have hisEmpty : line.isEmpty = false := by simpa using hne
  rw [parseHeaders, htext, Segments.findIdx?_sep hlf, Option.getD_some, take_left]
  simp only [hfirst, hisEmpty, Bool.false_eq_true, if_false, hread, hrest,
    HttpHeaders.parse_toString hheaders]

end HttpMessage

end Toft
