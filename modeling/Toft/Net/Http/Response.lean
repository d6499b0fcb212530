import Toft.Base.Split
import Toft.Net.Http.Message

/-!
# HTTP responses

The start line of a response has the major number of the version in both places, so that a version
is restored exactly if its two numbers are the same (`restored_iff`).
-/

namespace Toft

open Lib Lib.Segments HttpMessage List

/-- What an `HttpResponse` has besides the message: its status, `Status_None` at first. -/
structure HttpStatus where
  code : Int := 0
  deriving DecidableEq, Repr

abbrev HttpResponse := HttpMessage HttpStatus

namespace HttpResponse

open HttpMessage (notMem_decimal notMem_versionText)

def status (r : HttpResponse) : Int := r.line.code

def kResponseStatus : List (Int × String) :=
  [(100, "Continue"),
   (101, "Switching Protocols"),
   (200, "OK"),
   (201, "Created"),
   (202, "Accepted"),
   (203, "Non-Authoritative Information"),
   (204, "No Content"),
   (205, "Reset Content"),
   (206, "Partial Content"),
   (300, "Multiple Choices"),
   (301, "Moved Permanently"),
   (302, "Found"),
   (303, "See Other"),
   (304, "Not Modified"),
   (305, "Use Proxy"),
   (307, "Temporary Redirect"),
   (400, "Bad Request"),
   (401, "Unauthorized"),
   (402, "Payment Required"),
   (403, "Forbidden"),
   (404, "Not Found"),
   (405, "Method Not Allowed"),
   (406, "Not Acceptable"),
   (407, "Proxy Authentication Required"),
   (408, "Request Timeout"),
   (409, "Conflict"),
   (410, "Gone"),
   (411, "Length Required"),
   (412, "Precondition Failed"),
   (413, "Request Entity Too Large"),
   (414, "Request-URI Too Long"),
   (415, "Unsupported Media Type"),
   (416, "Requested Range Not Satisfiable"),
   (417, "Expectation Failed"),
   (500, "Internal Server Error"),
   (501, "Not Implemented"),
   (502, "Bad Gateway"),
   (503, "Service Unavailable"),
   (504, "Gateway Timeout"),
   (505, "HTTP Version Not Supported")]

def statusCodeToReasonPhraseSafe (statusCode : Int) : Bytes :=
  ascii (((kResponseStatus.find? (·.1 == statusCode)).map Prod.snd).getD "Unknown")

def parseStartLine (r : HttpResponse) (data : Bytes) : Except HttpError Unit × HttpResponse :=
  match splitString data (ascii " ") with
  | version :: code :: _ =>
    match r.parseVersion version with
    | (false, r) => (.error .versionUnsupported, r)
    | (true, r) =>
      let (ok, status) := stringToNumberIn .int 10 code 0
      if !ok then (.error .responseStatusNotFound, r)
      else if status < 100 ∨ status > 999 then (.error .responseStatusNotFound, r)
      else (.ok (), { r with line := ⟨status⟩ })
  | _ => (.error .startLineNotComplete, r)

/-- `AppendStartLineToString`. The number behind the dot is the major number too. -/
def startLine (r : HttpResponse) : Except Fault Bytes := do
  return ascii "HTTP/" ++ (← numberToString r.version.major) ++ ascii "." ++
    (← numberToString r.version.major) ++ ascii " " ++ (← numberToString r.status) ++ ascii " " ++
    statusCodeToReasonPhraseSafe r.status

instance : StartLine HttpStatus := ⟨parseStartLine, startLine⟩

theorem parseStartLine_body (r : HttpResponse) (data : Bytes) :
    (parseStartLine r data).2.body = r.body := by
  have hversion : ∀ text, (r.parseVersion text).2.body = r.body := by
    intro text
    unfold parseVersion
    split
    · split <;> rfl
    · rfl
  unfold parseStartLine
  split
  · rename_i version code _ _
    have := hversion version
    split
    · rename_i heq
      rwa [heq] at this
    · rename_i heq
      rw [heq] at this
      dsimp only
      split
      · exact this
      · split <;> exact this
  · rfl

/-- The headers are read without a look at the body. -/
theorem parseHeaders_body (r : HttpResponse) (data : Bytes) :
    (r.parseHeaders data).2.body = r.body := by
  unfold parseHeaders
  dsimp only
  split
  · rfl
  · have := parseStartLine_body r
      (stringTrimRight (data.take ((data.findIdx? (· == lf)).getD data.length)) (ascii "\r"))
    split
    · rename_i heq
      rwa [show parseStartLine r _ = _ from heq] at this
    · rename_i heq
      rwa [show parseStartLine r _ = _ from heq] at this

def lineText (major code : Nat) : Bytes :=
  versionText major major ++ 0x20 :: (decimal code ++ 0x20 ::
    statusCodeToReasonPhraseSafe code)

theorem startLine_eq (r : HttpResponse) {major code : Nat} (hmajor : r.version.major = major)
    (hcode : r.status = code) (hmajorFits : major < 2 ^ 31) (hcodeFits : code < 2 ^ 31) :
    startLine r = .ok (lineText major code) := by
  rw [startLine, hmajor, hcode, @numberToString_eq major (by omega) (by omega),
    @numberToString_eq code (by omega) (by omega), decimalInt_natCast, decimalInt_natCast]
  simp [lineText, versionText, show ascii " " = [0x20] from rfl]

theorem oneLine_phrases : ∀ phrase ∈ "Unknown" :: kResponseStatus.map Prod.snd,
    cr ∉ ascii phrase ∧ lf ∉ ascii phrase := by
  decide

theorem oneLine_reasonPhrase (statusCode : Int) :
    OneLine (statusCodeToReasonPhraseSafe statusCode) := by
  rw [statusCodeToReasonPhraseSafe]
  cases hfind : kResponseStatus.find? (·.1 == statusCode) with
  | none =>
    have := oneLine_phrases _ mem_cons_self
    exact ⟨this.1, this.2⟩
  | some entry =>
    have hmem := mem_map_of_mem (f := Prod.snd) (mem_of_find?_eq_some hfind)
    have := oneLine_phrases _ (mem_cons_of_mem _ hmem)
    exact ⟨this.1, this.2⟩

theorem oneLine_lineText (major code : Nat) : OneLine (lineText major code) := by
  have hphrase := oneLine_reasonPhrase code
  constructor
  · have hversion :=
      notMem_versionText (show isDigitOf 10 cr = false by decide) (by decide) major major
    simp [lineText, hversion, notMem_decimal (show isDigitOf 10 cr = false by decide), hphrase.cr,
      show cr ≠ 0x20 by decide]
  · have hversion :=
      notMem_versionText (show isDigitOf 10 lf = false by decide) (by decide) major major
    simp [lineText, hversion, notMem_decimal (show isDigitOf 10 lf = false by decide), hphrase.lf,
      show lf ≠ 0x20 by decide]

theorem parseStartLine_lineText (r : HttpResponse) {major code : Nat} (hmajor : major < 2 ^ 31)
    (hlow : 100 ≤ code) (hhigh : code ≤ 999) :
    parseStartLine r (lineText major code) =
      (.ok (), { r with version := .ofInts major major, line := ⟨code⟩ }) := by
  have hspace : isDigitOf 10 0x20 = false := by decide
  have hversion : versionText major major ≠ [] := by
    simp [versionText, decimal_ne_nil]
  have hfields : splitString (lineText major code) (ascii " ") =
      versionText major major :: decimal code ::
        splitString (statusCodeToReasonPhraseSafe code) [0x20] := by
    rw [lineText, show ascii " " = [0x20] from rfl,
      splitString_cons (notMem_versionText hspace (by decide) major major) hversion,
      splitString_cons (notMem_decimal hspace code) (decimal_ne_nil code)]
  rw [parseStartLine, hfields]
  simp only [parseVersion_versionText r hmajor hmajor,
    stringToNumberIn_ten_decimal (show code < 2 ^ 31 by omega), Bool.not_true, Bool.false_eq_true,
    if_false]
  rw [if_neg (by omega)]

def fresh : HttpResponse := { line := {} }

theorem parseHeaders_headersToString {r : HttpResponse} (hlow : 100 ≤ r.status)
    (hhigh : r.status ≤ 999) (hmajor : r.version.major < 32768)
    (hheaders : ∀ header ∈ r.headers, HttpHeaders.Plain header) :
    ∃ text, r.headersToString = .ok text ∧ fresh.parseHeaders text =
      (.ok (), { r with
        version := .ofInts r.version.major r.version.major
        headers := r.headers.take (int32 r.headers.length).toNat
        body := [] }) := by
  obtain ⟨major, hmajorEq⟩ := Int.eq_ofNat_of_zero_le r.version.major_nonneg
  obtain ⟨code, hcodeEq⟩ := Int.eq_ofNat_of_zero_le (show 0 ≤ r.status by omega)
  have hstart : StartLine.startLine r = .ok (lineText major code) :=
    startLine_eq r hmajorEq hcodeEq (by omega) (by omega)
  have hread : StartLine.parseStartLine fresh (lineText major code) = _ :=
    parseStartLine_lineText fresh (by omega) (by omega) (by omega)
  have hne : lineText major code ≠ [] := by simp [lineText]
  refine ⟨_, ?_, (parseHeaders_text (oneLine_lineText major code) hne hheaders hread).trans ?_⟩
  · rw [headersToString, hstart]
    rfl
  · have hline : r.line = ⟨code⟩ := congrArg HttpStatus.mk hcodeEq
    rw [hmajorEq, hline]
    rfl

/-- `ParseHeaders` on a new response succeeds on what `HeadersToString` writes, and restores the
version, the status and the headers. -/
def Restored (r : HttpResponse) : Prop :=
  ∃ text, ∃ read : HttpResponse, r.headersToString = .ok text ∧
    fresh.parseHeaders text = (.ok (), read) ∧ read.version = r.version ∧
    read.status = r.status ∧ read.headers = r.headers

theorem ofInts_major_eq_iff {v : HttpVersion} :
    .ofInts v.major v.major = v ↔ v.minor = v.major := by
  obtain ⟨m, hm⟩ := Int.eq_ofNat_of_zero_le v.major_nonneg
  have hlt := v.major_lt
  rw [HttpVersion.eq_iff, hm, HttpVersion.major_ofInts (by omega) (by omega),
    HttpVersion.minor_ofInts (by omega) (by omega)]
  simp [eq_comm]

theorem restored_iff {r : HttpResponse} (hlow : 100 ≤ r.status) (hhigh : r.status ≤ 999)
    (hmajor : r.version.major < 32768)
    (hheaders : ∀ header ∈ r.headers, HttpHeaders.Plain header) :
    Restored r ↔ r.version.minor = r.version.major ∧ r.headers.length < 2 ^ 31 := by
  obtain ⟨text, htext, hparse⟩ := parseHeaders_headersToString hlow hhigh hmajor hheaders
  rw [← ofInts_major_eq_iff, ← HttpHeaders.take_count_eq_iff]
  constructor
  · rintro ⟨text', read, htext', hread, hversion, -, hrestored⟩
    cases htext.symm.trans htext'
    rw [← (Prod.mk.inj (hparse.symm.trans hread)).2] at hversion hrestored
    dsimp only at hversion hrestored
    exact ⟨hversion, hrestored⟩
  · rintro ⟨hversion, hrestored⟩
    refine ⟨text, _, htext, hparse, ?_⟩
    dsimp only [status]
    exact ⟨hversion, rfl, hrestored⟩

def ok (version : HttpVersion) : HttpResponse where
  version := version
  headers := [⟨ascii "Content-Type", ascii "text/html"⟩, ⟨ascii "X-Empty", []⟩]
  line := ⟨200⟩

theorem plain_ok (version : HttpVersion) :
    ∀ header ∈ (ok version).headers, HttpHeaders.Plain header := by
  simp only [ok, forall_mem_cons]
  refine ⟨?_, ?_, fun _ h => absurd h not_mem_nil⟩ <;>
    exact ⟨by decide, by decide, ⟨by decide, by decide⟩, ⟨by decide, by decide⟩,
      ⟨by rintro _ ⟨⟩; rfl, by rintro _ ⟨⟩; rfl⟩,
      ⟨by rintro _ ⟨⟩ <;> rfl, by rintro _ ⟨⟩ <;> rfl⟩⟩

theorem restored_http11 : Restored (ok (.ofInts 1 1)) :=
  (restored_iff (by decide) (by decide) (by decide) (plain_ok _)).mpr (by decide)

/-- The minor number of version 1.0 comes back as one. -/
theorem not_restored_http10 : ¬ Restored (ok (.ofInts 1 0)) := by
  rintro ⟨text, read, htext, hread, hversion, -⟩
  obtain ⟨text', htext', hparse⟩ := parseHeaders_headersToString (by decide) (by decide)
    (by decide) (plain_ok (.ofInts 1 0))
  cases htext'.symm.trans htext
  obtain rfl := (Prod.mk.inj (hparse.symm.trans hread)).2
  exact absurd hversion (by decide)

end HttpResponse

end Toft
