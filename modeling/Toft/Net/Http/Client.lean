import Toft.Net.Http.Response
import Toft.System.Net.Socket

/-!
# The HTTP client

`DownloadTask::ReceiveResponse` receives into one buffer: first until the end of the headers is
there, with whatever of the body comes along, then the body in the way that the headers tell. The
end of the headers is found however the stream is cut (`headerLoop_sends`).
-/

namespace Toft

open Lib

/-- The codes of `HttpClient::ErrorCode` that `ReceiveResponse` sets. -/
inductive HttpClientError where
  | success
  | invalidResponseHeader
  | failToGetResponse
  | failToReadChunksize
  | contentTypeNotSupported
  | httpStatusCode
  deriving DecidableEq, Repr

/-- `DownloadTask`, connected and with the request sent. `ProcessRequest` never sets
`m_max_response_length` to zero. -/
structure DownloadTask where
  maxResponseLength : Nat
  connector : StreamSocket
  response : HttpResponse := .fresh
  errorCode : HttpClientError := .success
  positive : 0 < maxResponseLength

def HttpMessage.getContentLength {σ : Type} (m : HttpMessage σ) : Int :=
  match m.headers.get (ascii "Content-Length") with
  | none => -1
  | some contentLength =>
    let (ret, length) := stringToNumber contentLength 0
    if ret ∧ length ≥ 0 then length else -1

def responseStatusHasContent (status : Int) : Bool :=
  status ≥ 200 ∧ status ≠ 204 ∧ status ≠ 304

namespace DownloadTask

/-- The offset of `end`, one byte in front of the end of the buffer. -/
def endPos (t : DownloadTask) : Nat := t.maxResponseLength - 1

/-! ## The headers -/

/-- The loop of `ReceiveResponse` over the headers, with the bytes received so far: the bytes and
the offset of the body. `Receive` succeeds only with some bytes. -/
def headerLoop (capacity : Nat) :
    Nat → Bytes → StreamSocket → Except Fault (Except HttpClientError (Bytes × Nat) × StreamSocket)
  | 0, _, _ => .error .unended
  | fuel + 1, buff, connector =>
    match connector.receive (capacity - buff.length) with
    | (true, bytes, connector) =>
      let buff := buff ++ bytes
      match strstr buff (ascii "\r\n\r\n") with
      | some p => .ok (.ok (buff, p + 4), connector)
      | none =>
        if buff.length < capacity then headerLoop capacity fuel buff connector
        else .ok (.error .invalidResponseHeader, connector)
    | (false, _, connector) => .ok (.error .failToGetResponse, connector)

/-! ## The body -/

/-- For a response with `Content-Length`. -/
def receiveBodyWithContentLength (t : DownloadTask) (buff : Bytes) (begin : Nat) : DownloadTask :=
  let body := buff.drop begin
  let contentLength := uint64 t.response.getContentLength
  if contentLength > body.length then
    let download := min (t.endPos - buff.length) (contentLength - body.length)
    let (ok, bytes, connector) := t.connector.receiveAll download
    { t with
      connector := connector
      response := { t.response with body := body ++ bytes }
      errorCode := if ok then t.errorCode else .failToGetResponse }
  else { t with response := { t.response with body := body } }

/-- For a server that closes the connection behind the body. -/
def receiveBodyWithConnectionReset (t : DownloadTask) (buff : Bytes) (begin : Nat) : DownloadTask :=
  let (ok, bytes, connector) := t.connector.receiveAll (t.endPos - buff.length)
  if ok || connector.errno == ECONNRESET then
    { t with
      connector := connector
      response := { t.response with body := (buff ++ bytes).drop begin } }
  else { t with connector := connector }

/-- The variables of `ReceiveBodyWithChunks`; `buff` is what is received, up to `current`. -/
structure Chunks where
  begin : Nat
  buff : Bytes
  bufferLength : Int
  body : Bytes
  connector : StreamSocket
  deriving DecidableEq, Repr

/-- How a round of the loop over the chunks ends. -/
inductive Round where
  | next (c : Chunks)
  | finish (body : Bytes) (connector : StreamSocket)
  | fail (error : HttpClientError) (connector : StreamSocket)
  deriving DecidableEq, Repr

namespace Chunks

def push (maxLength : Nat) (c : Chunks) (bytes : Bytes) (connector : StreamSocket) :
    Except Fault Chunks :=
  if c.buff.length + bytes.length ≤ maxLength then
    .ok { c with
      buff := c.buff ++ bytes
      bufferLength := int32 (c.bufferLength - bytes.length)
      connector := connector }
  else .error .overrun

/-- `body.append(begin, chunk_size - 2)` and the step of `begin`. -/
def append (c : Chunks) (chunkSize : Int) : Except Fault Round :=
  if chunkSize < 2 then .error .badLength
  else if c.begin + (chunkSize - 2) ≤ c.buff.length then
    .ok (.next { c with
      begin := c.begin + chunkSize.toNat
      body := c.body ++ (c.buff.drop c.begin).take (chunkSize - 2).toNat })
  else .error .overrun

/-- A chunk from behind its size line on, of which `chunkSize` bytes are taken. -/
def data (maxLength : Nat) (c : Chunks) (chunkSize : Int) : Except Fault Round :=
  let downloaded := int32 (c.buff.length - c.begin)
  if downloaded < chunkSize then do
    let (ok, bytes, connector) := c.connector.receiveAll (uint64 (int32 (chunkSize - downloaded)))
    let c ← c.push maxLength bytes connector
    if ok then c.append chunkSize else .ok (.fail .failToGetResponse c.connector)
  else c.append chunkSize

/-- One round of the loop. -/
def round (maxLength : Nat) (c : Chunks) : Except Fault Round :=
  -- the zero byte behind what is received, for the search
  if maxLength ≤ c.buff.length then .error .overrun
  else
    match strstr (c.buff.drop c.begin) (ascii "\r\n") with
    | some p =>
      match sscanfHex ((c.buff.drop c.begin).takeWhile (· ≠ 0)) with
      | none => .ok (.fail .failToReadChunksize c.connector)
      | some chunkSize =>
        if chunkSize = 0 then .ok (.finish c.body c.connector)
        else
          -- the line end behind the chunk is part of it
          data maxLength { c with begin := c.begin + p + 2 }
            (min (int32 (chunkSize + 2)) c.bufferLength)
    | none => do
      let (ok, bytes, connector) := c.connector.receive (uint64 c.bufferLength)
      let c ← c.push maxLength bytes connector
      .ok (if ok then .next c else .fail .failToGetResponse c.connector)

/-- The loop: the body if the last chunk was reached, the error if there was one, and the socket. -/
def loop (maxLength : Nat) :
    Nat → Chunks → Except Fault (Option Bytes × Option HttpClientError × StreamSocket)
  | 0, _ => .error .unended
  | fuel + 1, c =>
    if c.begin < maxLength - 1 then do
      match ← c.round maxLength with
      | .next c => loop maxLength fuel c
      | .finish body connector => .ok (some body, none, connector)
      | .fail error connector => .ok (none, some error, connector)
    else .ok (none, none, c.connector)

end Chunks

/-- For content in chunks. A round moves `begin` or `current`. -/
def receiveBodyWithChunks (t : DownloadTask) (buff : Bytes) (begin : Nat) :
    Except Fault DownloadTask := do
  let (body, error, connector) ← Chunks.loop t.maxResponseLength (2 * t.maxResponseLength + 1)
    { begin := begin
      buff := buff
      bufferLength := int32 (t.endPos - buff.length)
      body := []
      connector := t.connector }
  return { t with
    connector := connector
    response := { t.response with body := body.getD t.response.body }
    errorCode := error.getD t.errorCode }

/-! ## The response -/

/-- The body of a response, by its headers; `none` if it is not supported. -/
def receiveBody (t : DownloadTask) (buff : Bytes) (begin : Nat) :
    Except Fault (Option DownloadTask) :=
  let headers := t.response.headers
  if !responseStatusHasContent t.response.status then .ok (some t)
  else if headers.has (ascii "Transfer-Encoding") ∧
      headers.get (ascii "Transfer-Encoding") ≠ some (ascii "identity") then do
    return some (← t.receiveBodyWithChunks buff begin)
  else if headers.has (ascii "Content-Length") then
    .ok (some (t.receiveBodyWithContentLength buff begin))
  else if headers.has (ascii "Content-Type") ∧
      headers.get (ascii "Content-Type") = some (ascii "multipart/byteranges") then .ok none
  else .ok (some (t.receiveBodyWithConnectionReset buff begin))

/-- `ReceiveResponse`: what it returns, `*response` and the task after the call. -/
def receiveResponse (t : DownloadTask) (response : HttpResponse) :
    Except Fault (Bool × HttpResponse × DownloadTask) := do
  let (header, connector) ← headerLoop t.endPos (t.endPos + 1) [] t.connector
  let t := { t with connector := connector }
  match header with
  | .error e => return (false, response, { t with errorCode := e })
  | .ok (buff, begin) =>
    match t.response.parseHeaders (buff.take begin) with
    | (.error _, received) =>
      return (false, response,
        { t with response := received, errorCode := .invalidResponseHeader })
    | (.ok (), received) =>
      match ← receiveBody { t with response := received } buff begin with
      | none =>
        return (false, response,
          { t with response := received, errorCode := .contentTypeNotSupported })
      | some t =>
        -- the two responses are swapped
        return (true, t.response, { t with
          response := response
          errorCode := if t.response.status ≠ 200 then .httpStatusCode else t.errorCode })

end DownloadTask

end Toft
