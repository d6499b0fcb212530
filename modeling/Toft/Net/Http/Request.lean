import Toft.Base.Split
import Toft.Net.Http.Message

/-!
# HTTP requests

The start line of a request has its method, its URI and, unless the version is empty, the version.
Requests are restored from their text as far as the `int` that counts the headers goes
(`request_restored_iff`).
-/

namespace Toft

open Lib Lib.Segments HttpMessage

/-- The values of `MethodType`. -/
inductive MethodType where
  | unknown
  | head
  | get
  | post
  | put
  | delete
  | options
  | trace
  | connect
  | upperBound
  deriving DecidableEq, Repr

/-- The members that `HttpRequest` adds. -/
structure RequestLine where
  method : MethodType := .unknown
  uri : Bytes := ascii "/"
  deriving DecidableEq, Repr

abbrev HttpRequest := HttpMessage RequestLine

namespace HttpRequest

open HttpMessage (versionText notMem_versionText)

def method (r : HttpRequest) : MethodType := r.line.method

def uri (r : HttpRequest) : Bytes := r.line.uri

/-- The names of `kValidMethodNames`, up to the entry without one. -/
def kValidMethodNames : List (MethodType × String) :=
  [(.head, "HEAD"),
   (.get, "GET"),
   (.post, "POST"),
   (.put, "PUT"),
   (.delete, "DELETE"),
   (.options, "OPTIONS"),
   (.trace, "TRACE"),
   (.connect, "CONNECT")]

/-- `GetMethodByName`. The name ends at its first zero byte. -/
def getMethodByName (methodName : Bytes) : MethodType :=
  ((kValidMethodNames.find? fun entry => methodName.takeWhile (· ≠ 0) == ascii entry.2).map
    Prod.fst).getD .unknown

/-- `GetMethodName`; the table is indexed with the value of the method. -/
def getMethodName (method : MethodType) : Option Bytes :=
  if method.ctorIdx ≤ MethodType.unknown.ctorIdx ∨
      MethodType.upperBound.ctorIdx ≤ method.ctorIdx then
    none
  else kValidMethodNames[method.ctorIdx - 1]?.map fun entry => ascii entry.2

def parseStartLine (r : HttpRequest) (data : Bytes) : Except HttpError Unit × HttpRequest :=
  let parse (r : HttpRequest) (name uri : Bytes) (version : Option Bytes) :=
    let method := getMethodByName name
    let r := { r with line := { r.line with method } }
    if method = .unknown then (.error .methodNotFound, r)
    else
      let r := { r with line := { r.line with uri } }
      match version with
      | none => (.ok (), r)
      | some version =>
        match r.parseVersion version with
        | (false, r) => (.error .versionUnsupported, r)
        | (true, r) => (.ok (), r)
  match splitString data (ascii " ") with
  | [name, uri] => parse r name uri none
  | [name, uri, version] => parse r name uri (some version)
  | _ => (.error .startLineNotComplete, r)

/-- `AppendStartLineToString`. -/
def startLine (r : HttpRequest) : Except Fault Bytes :=
  if r.method = .unknown then .error .fatal
  else
    match getMethodName r.method with
    | none => .error .nullPointer
    | some name => do
      let line := name ++ ascii " " ++ r.uri
      if r.version.isEmpty then return line
      return line ++ ascii " " ++ ascii "HTTP/" ++
        (← numberToString r.version.major) ++ ascii "." ++
        (← numberToString r.version.minor)

instance : StartLine RequestLine := ⟨parseStartLine, startLine⟩

def Known (method : MethodType) : Prop := method ≠ .unknown ∧ method ≠ .upperBound

/-- Every known method has a name that is one field of a line, and is found by it. -/
theorem Known.name {method : MethodType} (h : Known method) :
    ∃ name, getMethodName method = some name ∧ getMethodByName name = method ∧ name ≠ [] ∧
      0x20 ∉ name ∧ OneLine name := by
  obtain ⟨hunknown, hupper⟩ := h
  cases method with
  | unknown => exact absurd rfl hunknown
  | upperBound => exact absurd rfl hupper
  | _ => exact ⟨_, rfl, by decide, by decide, by decide, ⟨by decide, by decide⟩⟩

def lineText (name uri : Bytes) (major minor : Nat) : Bytes :=
  name ++ 0x20 :: (uri ++ 0x20 :: versionText major minor)

theorem startLine_eq {r : HttpRequest} (hmethod : Known r.method) {name : Bytes}
    (hname : getMethodName r.method = some name) (hversion : r.version.isEmpty = false)
    {major minor : Nat} (hmajor : r.version.major = major) (hminor : r.version.minor = minor)
    (hmajorFits : major < 2 ^ 31) (hminorFits : minor < 2 ^ 31) :
    startLine r = .ok (lineText name r.uri major minor) := by
  rw [startLine, if_neg hmethod.1, hname, hmajor, hminor,
    @numberToString_eq major (by omega) (by omega), @numberToString_eq minor (by omega) (by omega),
    decimalInt_natCast, decimalInt_natCast]
  simp [lineText, versionText, hversion, show ascii " " = [0x20] from rfl]

theorem parseStartLine_lineText (r : HttpRequest) {name uri : Bytes} (hname : name ≠ [])
    (hnameSpace : 0x20 ∉ name) (hmethod : getMethodByName name ≠ .unknown) (huri : uri ≠ [])
    (huriSpace : 0x20 ∉ uri) {major minor : Nat} (hmajor : major < 2 ^ 31)
    (hminor : minor < 2 ^ 31) :
    parseStartLine r (lineText name uri major minor) =
      (.ok (), { r with version := .ofInts major minor, line := ⟨getMethodByName name, uri⟩ }) := by
  have hversionSpace := notMem_versionText (show isDigitOf 10 0x20 = false by decide) (by decide)
    major minor
  have hversion : versionText major minor ≠ [] := by simp [versionText, decimal_ne_nil]
  have hfields : splitString (lineText name uri major minor) (ascii " ") =
      [name, uri, versionText major minor] := by
    rw [lineText, show ascii " " = [0x20] from rfl, splitString_cons hnameSpace hname,
      splitString_cons huriSpace huri, splitString_free hversionSpace hversion]
  rw [parseStartLine, hfields]
  simp only [if_neg hmethod, parseVersion_versionText _ hmajor hminor]

theorem oneLine_lineText {name uri : Bytes} (hname : OneLine name) (huri : OneLine uri)
    (major minor : Nat) : OneLine (lineText name uri major minor) := by
  have hcr := notMem_versionText (show isDigitOf 10 cr = false by decide) (by decide) major minor
  have hlf := notMem_versionText (show isDigitOf 10 lf = false by decide) (by decide) major minor
  constructor
  · simp [lineText, hcr, hname.cr, huri.cr, show cr ≠ 0x20 by decide]
  · simp [lineText, hlf, hname.lf, huri.lf, show lf ≠ 0x20 by decide]

def fresh : HttpRequest := { line := {} }

/-- A request whose parts can be told apart on its lines. -/
structure Printable (r : HttpRequest) : Prop where
  method : Known r.method
  uri : r.uri ≠ []
  uriSpace : 0x20 ∉ r.uri
  uriLine : OneLine r.uri
  version : r.version.isEmpty = false
  major : r.version.major < 32768
  headers : ∀ header ∈ r.headers, HttpHeaders.Plain header

theorem Printable.parseHeaders {r : HttpRequest} (h : Printable r) :
    ∃ text, r.headersToString = .ok text ∧ fresh.parseHeaders text =
      (.ok (), { r with
        headers := r.headers.take (int32 r.headers.length).toNat
        body := [] }) := by
  obtain ⟨name, hname, hfound, hne, hspace, hline⟩ := h.method.name
  obtain ⟨major, hmajor⟩ := Int.eq_ofNat_of_zero_le r.version.major_nonneg
  obtain ⟨minor, hminor⟩ := Int.eq_ofNat_of_zero_le r.version.minor_nonneg
  have hmajorLt := h.major
  have hminorLt := r.version.minor_lt
  have hstart : StartLine.startLine r = .ok (lineText name r.uri major minor) :=
    startLine_eq h.method hname h.version hmajor hminor (by omega) (by omega)
  have hread : StartLine.parseStartLine fresh (lineText name r.uri major minor) = _ :=
    parseStartLine_lineText fresh hne hspace (by rw [hfound]; exact h.method.1) h.uri h.uriSpace
      (by omega) (by omega)
  have hversion : HttpVersion.ofInts major minor = r.version := by
    rw [HttpVersion.eq_iff, HttpVersion.major_ofInts (by omega) (by omega),
      HttpVersion.minor_ofInts (by omega) (by omega), hmajor, hminor]
    exact ⟨rfl, rfl⟩
  have hlineNe : lineText name r.uri major minor ≠ [] := by simp [lineText]
  refine ⟨_, ?_, (parseHeaders_text (oneLine_lineText hline h.uriLine major minor)
    hlineNe h.headers hread).trans ?_⟩
  · rw [headersToString, hstart]
    rfl
  · rw [hversion, hfound]
    rfl

/-- `ParseHeaders` on a new request succeeds on what `HeadersToString` writes, and restores the
method, the URI, the version and the headers. -/
def Restored (r : HttpRequest) : Prop :=
  ∃ text, ∃ read : HttpRequest, r.headersToString = .ok text ∧
    fresh.parseHeaders text = (.ok (), read) ∧ read.method = r.method ∧ read.uri = r.uri ∧
    read.version = r.version ∧ read.headers = r.headers

/-- A request is restored exactly if the `int` can tell the number of its headers. -/
theorem request_restored_iff {r : HttpRequest} (h : Printable r) :
    Restored r ↔ r.headers.length < 2 ^ 31 := by
  obtain ⟨text, htext, hparse⟩ := h.parseHeaders
  rw [← HttpHeaders.take_count_eq_iff]
  constructor
  · rintro ⟨text', read, htext', hread, -, -, -, hheaders⟩
    cases htext.symm.trans htext'
    rw [← (Prod.mk.inj (hparse.symm.trans hread)).2] at hheaders
    dsimp only at hheaders
    exact hheaders
  · intro hheaders
    refine ⟨text, _, htext, hparse, ?_⟩
    dsimp only [method, uri]
    exact ⟨rfl, rfl, rfl, hheaders⟩

def index (headers : HttpHeaders) : HttpRequest where
  headers := headers
  line := ⟨.get, ascii "/index.html"⟩

theorem printable_index {headers : HttpHeaders}
    (h : ∀ header ∈ headers, HttpHeaders.Plain header) : Printable (index headers) where
  method := ⟨MethodType.noConfusion, MethodType.noConfusion⟩
  uri := show ascii "/index.html" ≠ [] by decide
  uriSpace := show 0x20 ∉ ascii "/index.html" by decide
  uriLine := show OneLine (ascii "/index.html") from ⟨by decide, by decide⟩
  version := show (HttpVersion.ofInts 1 1).isEmpty = false by decide
  major := show (HttpVersion.ofInts 1 1).major < 32768 by decide
  headers := h

theorem plain_host {value : Bytes} (hline : OneLine value) (htrimmed : Trimmed value) :
    HttpHeaders.Plain ⟨ascii "Host", value⟩ where
  nonempty := show ascii "Host" ≠ [] by decide
  colon := show HttpHeaders.colon ∉ ascii "Host" by decide
  nameLine := show OneLine (ascii "Host") from ⟨by decide, by decide⟩
  valueLine := hline
  nameTrimmed := ⟨by rintro _ ⟨⟩; rfl, by rintro _ ⟨⟩; rfl⟩
  valueTrimmed := htrimmed

theorem request_restored_host : Restored (index [⟨ascii "Host", ascii "a:80"⟩]) := by
  refine (request_restored_iff (printable_index ?_)).mpr (by decide)
  intro header hmem
  obtain rfl := List.mem_singleton.mp hmem
  exact plain_host ⟨by decide, by decide⟩ ⟨by rintro _ ⟨⟩; rfl, by rintro _ ⟨⟩; rfl⟩

/-- Of `2 ^ 31` headers none is read: their number is negative as an `int`. -/
theorem not_restored_many :
    Printable (index (.replicate (2 ^ 31) ⟨ascii "Host", []⟩)) ∧
      ¬ Restored (index (.replicate (2 ^ 31) ⟨ascii "Host", []⟩)) := by
  have hprintable : Printable (index (.replicate (2 ^ 31) ⟨ascii "Host", []⟩)) := by
    apply printable_index
    intro header hmem
    rw [List.eq_of_mem_replicate hmem]
    exact plain_host ⟨by decide, by decide⟩ ⟨by rintro _ ⟨⟩, by rintro _ ⟨⟩⟩
  refine ⟨hprintable, ?_⟩
  obtain ⟨text, htext, hparse⟩ := hprintable.parseHeaders
  rintro ⟨text', read, htext', hread, -, -, -, hheaders⟩
  cases htext.symm.trans htext'
  rw [← (Prod.mk.inj (hparse.symm.trans hread)).2] at hheaders
  dsimp only [index] at hheaders
  have hlt := (HttpHeaders.take_count_eq_iff _).mp hheaders
  rw [List.length_replicate] at hlt
  exact absurd hlt (Nat.lt_irrefl _)

end HttpRequest

end Toft
