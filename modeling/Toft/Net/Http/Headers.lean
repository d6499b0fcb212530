import Toft.Base.Lines
import Toft.Encoding.Ascii

/-!
# HTTP headers

`HttpHeaders::Parse` reads one header from each line, up to an empty line that must be the last.
The headers that `AppendToString` writes are read back (`parse_toString`), as many of them as the
`int` that counts the lines can tell.
-/

namespace Toft

open Lib List

/-- The values of `HttpMessage::ErrorCode` but success. -/
inductive HttpError where
  | noStartLine
  | startLineNotComplete
  | versionUnsupported
  | responseStatusNotFound
  | fieldNotComplete
  | methodNotFound
  | messageNotComplete
  deriving DecidableEq, Repr

/-- A header field. -/
structure HttpHeader where
  name : Bytes
  value : Bytes
  deriving DecidableEq, Repr

abbrev HttpHeaders := List HttpHeader

namespace HttpHeaders

abbrev colon : UInt8 := ':'.toUInt8

/-- `AppendToString` to an empty target. -/
def toString (headers : HttpHeaders) : Bytes :=
  headers.flatMap fun header => header.name ++ ascii ": " ++ header.value ++ ascii "\r\n"

def ignoreCaseEqual (x y : Bytes) : Bool := x.map Ascii.toUpper == y.map Ascii.toUpper

/-- `Get`: the value of the first header of a name. -/
def get (headers : HttpHeaders) (name : Bytes) : Option Bytes :=
  (headers.find? fun header => ignoreCaseEqual name header.name).map HttpHeader.value

def has (headers : HttpHeaders) (name : Bytes) : Bool :=
  headers.any fun header => ignoreCaseEqual name header.name

/-- The loop of `Parse` over the lines. -/
def parseLoop : List Bytes → HttpHeaders → Except HttpError Unit × HttpHeaders
  | [], headers => (.ok (), headers)
  | line :: lines, headers =>
    match line.findIdx? (· == colon) with
    | some pos =>
      parseLoop lines (headers ++ [⟨stringTrim (line.take pos), stringTrim (line.drop (pos + 1))⟩])
    | none =>
      if line.isEmpty then (.error .fieldNotComplete, [])
      -- a line that is no header is left out
      else parseLoop lines headers

/-- `Parse`. The number of lines in front of the last is converted to an `int`. -/
def parse (data : Bytes) : Except HttpError Unit × HttpHeaders :=
  let lines := splitLines data false
  if lines.getLast? = some [] then
    parseLoop (lines.take (int32 (lines.length - 1 : Nat)).toNat) []
  else (.error .messageNotComplete, [])

/-! ## Reading back -/

/-- A field that parsing gives back as it was. -/
structure Plain (header : HttpHeader) : Prop where
  nonempty : header.name ≠ []
  colon : HttpHeaders.colon ∉ header.name
  nameLine : OneLine header.name
  valueLine : OneLine header.value
  nameTrimmed : Trimmed header.name
  valueTrimmed : Trimmed header.value

def line (header : HttpHeader) : Bytes := header.name ++ colon :: 0x20 :: header.value

theorem toString_eq (headers : HttpHeaders) :
    toString headers = (headers.map line).flatMap (· ++ crlf) := by
  simp [toString, line, flatMap_map, show ascii ": " = [colon, 0x20] from rfl,
    show ascii "\r\n" = crlf from rfl]

theorem Plain.oneLine {header : HttpHeader} (h : Plain header) : OneLine (line header) := by
  refine h.nameLine.append ⟨?_, ?_⟩
  · simp [h.valueLine.cr, show cr ≠ HttpHeaders.colon by decide, show cr ≠ 0x20 by decide]
  · simp [h.valueLine.lf, show lf ≠ HttpHeaders.colon by decide, show lf ≠ 0x20 by decide]

theorem parseLoop_line {header : HttpHeader} (h : Plain header) (lines : List Bytes)
    (headers : HttpHeaders) :
    parseLoop (line header :: lines) headers = parseLoop lines (headers ++ [header]) := by
  have hfind : (line header).findIdx? (· == colon) = some header.name.length :=
    Segments.findIdx?_sep h.colon _
  have hname : (line header).take header.name.length = header.name := take_left
  have hvalue : (line header).drop (header.name.length + 1) = 0x20 :: header.value := by
    rw [line, drop_length_add_append]
    rfl
  rw [parseLoop, hfind]
  simp only [hname, hvalue, stringTrim_of_trimmed h.nameTrimmed, stringTrim_space h.valueTrimmed]

theorem parseLoop_lines {written : HttpHeaders} (h : ∀ header ∈ written, Plain header)
    (headers : HttpHeaders) :
    parseLoop (written.map line) headers = (.ok (), headers ++ written) := by
  induction written generalizing headers with
  | nil => rw [map_nil, parseLoop, append_nil]
  | cons header written ih =>
    obtain ⟨hheader, hwritten⟩ := forall_mem_cons.mp h
    rw [map_cons, parseLoop_line hheader, ih hwritten, append_assoc, singleton_append]

/-- The headers that are written are read, up to the number that the `int` tells. -/
theorem parse_toString {headers : HttpHeaders} (h : ∀ header ∈ headers, Plain header) :
    parse (toString headers ++ crlf) = (.ok (), headers.take (int32 headers.length).toNat) := by
  have htext : toString headers ++ crlf = (headers.map line ++ [[]]).flatMap (· ++ crlf) := by
    rw [toString_eq, flatMap_append, flatMap_singleton, nil_append]
  have hlines : ∀ l ∈ headers.map line ++ [[]], OneLine l := by
    intro l hl
    rcases mem_append.mp hl with hl | hl
    · obtain ⟨header, hmem, rfl⟩ := mem_map.mp hl
      exact (h header hmem).oneLine
    · obtain rfl := mem_singleton.mp hl
      exact ⟨not_mem_nil, not_mem_nil⟩
  have hcount := toNat_int32_le headers.length
  rw [parse, htext, splitLines_crlf hlines]
  simp only [List.getLast?_concat, if_true, length_append, length_map,
    length_singleton, Nat.add_sub_cancel]
  rw [take_append_of_le_length (by rwa [length_map]), ← map_take,
    parseLoop_lines fun header hmem => h header (mem_of_mem_take hmem), nil_append]

/-- All headers are read exactly if the `int` can tell their number. -/
theorem take_count_eq_iff (headers : HttpHeaders) :
    headers.take (int32 headers.length).toNat = headers ↔ headers.length < 2 ^ 31 := by
  rw [← toNat_int32_eq_iff]
  constructor
  · intro h
    have hlen := congrArg List.length h
    rwa [length_take, Nat.min_eq_left (toNat_int32_le _)] at hlen
  · intro h
    exact take_of_length_le h.ge

end HttpHeaders

end Toft
