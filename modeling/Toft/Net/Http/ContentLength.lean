import Toft.Net.Http.Receive

/-!
# Bodies with a given length

`ReceiveBodyWithContentLength` takes all that came along with the headers for the body, and receives
only what is missing up to the length. So the body is cut at the length exactly if no more than that
came along (`delivers_contentLength_iff`), which the segments of the stream decide.
-/

namespace Toft.DownloadTask

open Lib List

/-- The number of bytes of the body that are received together with the headers. -/
def withHeaders (t : DownloadTask) : Nat :=
  match headerLoop t.endPos (t.endPos + 1) [] t.connector with
  | .ok (.ok (buff, begin), _) => buff.length - begin
  | _ => 0

/-- The length of the body is taken from `Content-Length`. -/
structure HasLength (received : HttpResponse) : Prop where
  length : received.headers.has (ascii "Content-Length") = true
  transfer : ¬ (received.headers.has (ascii "Transfer-Encoding") = true ∧
    received.headers.get (ascii "Transfer-Encoding") ≠ some (ascii "identity"))

/-- How many bytes of the body are taken, if there are so many. -/
def taken (t : DownloadTask) (header : Bytes) (received : HttpResponse) : Nat :=
  max t.withHeaders (min (t.endPos - header.length) (uint64 received.getContentLength))

theorem receiveBodyWithContentLength_body {t : DownloadTask} {header got left : Bytes}
    (hsends : t.connector.Sends left) (hroom : header.length + got.length ≤ t.endPos) :
    (t.receiveBodyWithContentLength (header ++ got) header.length).response.body =
      (got ++ left).take
        (max got.length (min (t.endPos - header.length) (uint64 t.response.getContentLength))) := by
  rw [receiveBodyWithContentLength, drop_left]
  generalize uint64 t.response.getContentLength = length
  dsimp only
  split
  · rename_i hmissing
    obtain ⟨s', hall, -, -⟩ := StreamSocket.receiveAll_sends hsends
      (min (t.endPos - (header ++ got).length) (length - got.length))
    have htaken : max got.length (min (t.endPos - header.length) length) =
        got.length + min (t.endPos - (header ++ got).length) (length - got.length) := by
      rw [length_append]
      omega
    rw [hall, htaken, take_length_add_append]
  · rename_i hwhole
    have htaken : max got.length (min (t.endPos - header.length) length) = got.length := by omega
    rw [htaken, take_left]

theorem take_eq_take_iff {body : Bytes} {m n : Nat} (hn : n ≤ body.length) :
    body.take m = body.take n ↔ min m body.length = n := by
  rw [List.take_eq_take_iff, Nat.min_eq_left hn]

theorem getContentLength_decimal {received : HttpResponse} {n : Nat} (hn : n < 2 ^ 31)
    (htext : received.headers.get (ascii "Content-Length") = some (decimal n)) :
    received.getContentLength = n := by
  rw [HttpMessage.getContentLength, htext]
  simp only [stringToNumber_decimal hn]
  rw [if_pos ⟨trivial, by omega⟩]

/-- The first `n` bytes behind the headers are delivered exactly if so many are taken; a response
without content has no body. For a length `n` that is an `int`, it is enough that no more than `n`
bytes come along with the headers, and it is necessary. -/
theorem delivers_contentLength_iff {header body : Bytes} {received : HttpResponse}
    (hheader : Header header received) (hlength : HasLength received) {t : DownloadTask}
    (hfresh : t.response = .fresh) (hsends : t.connector.Sends (header ++ body)) {n : Nat}
    (hn : n ≤ body.length) (hfit : header.length + n ≤ t.endPos) (response : HttpResponse) :
    (t.Delivers response (body.take n) ↔
      if responseStatusHasContent received.status then
        min (t.taken header received) body.length = n
      else n = 0) ∧
    (n < 2 ^ 31 → received.headers.get (ascii "Content-Length") = some (decimal n) →
      responseStatusHasContent received.status →
      (t.Delivers response (body.take n) ↔ t.withHeaders ≤ n)) := by
  obtain ⟨got, left, s', hloop, hroom, rfl, hleft, -⟩ :=
    exists_headerLoop hheader hsends (by omega)
  have hwith : t.withHeaders = got.length := by
    rw [withHeaders, hloop]
    simp
  have hiff : t.Delivers response ((got ++ left).take n) ↔
      if responseStatusHasContent received.status then
        min (t.taken header received) (got ++ left).length = n
      else n = 0 := by
    rw [delivers_iff_receiveBody hfresh hheader hloop, receiveBody]
    by_cases hcontent : responseStatusHasContent received.status = true
    · have htaken := @receiveBodyWithContentLength_body
        { t with connector := s', response := received } header got left hleft hroom
      simp only [hcontent, hlength.length, hlength.transfer, Bool.not_true, Bool.false_eq_true,
        if_false, if_true, Except.ok.injEq, Option.some.injEq, exists_eq_left', htaken,
        take_eq_take_iff hn, taken, hwith]
      rfl
    · simp only [hcontent, Bool.not_false, if_true, if_false, Bool.false_eq_true, Except.ok.injEq,
        Option.some.injEq, exists_eq_left', hheader.body_eq]
      constructor
      · intro hnil
        rcases take_eq_nil_iff.mp hnil.symm with hzero | hempty
        · exact hzero
        · rw [hempty] at hn
          exact Nat.le_zero.mp hn
      · rintro rfl
        exact take_zero.symm
  refine ⟨hiff, ?_⟩
  intro hint htext hcontent
  have hread := getContentLength_decimal hint htext
  rw [hiff, if_pos hcontent, taken, hread, uint64_of_lt (by omega)]
  rw [length_append] at hn ⊢
  omega

def twoHeader : Bytes := ascii "HTTP/1.1 200 OK\r\nContent-Length: 2\r\n\r\n"

def twoReceived : HttpResponse :=
  { headers := [⟨ascii "Content-Length", ascii "2"⟩], line := ⟨200⟩ }

theorem header_twoHeader : Header twoHeader twoReceived where
  terminated :=
    { suffix := ⟨ascii "HTTP/1.1 200 OK\r\nContent-Length: 2", rfl⟩
      first := by
        have hfirst : ∀ i < 34, ¬ ascii "\r\n\r\n" <+: twoHeader.drop i := by decide
        exact fun i hi => hfirst i (Nat.lt_of_add_lt_add_right hi)
      nul := by decide }
  parsed := by decide

theorem hasLength_twoReceived : HasLength twoReceived := ⟨by decide, by decide⟩

/-- A client with a peer that sends `first` with the headers, and then `rest`. -/
def twoTask (first rest : Bytes) : DownloadTask where
  maxResponseLength := 64
  connector := ⟨[.data (twoHeader ++ first), .data rest], 0⟩
  positive := by decide

/-- One byte comes with the headers, the other ones behind them. -/
theorem delivers_contentLength_two :
    (twoTask (ascii "h") (ascii "i there")).Delivers .fresh ((ascii "hi there").take 2) :=
  ((delivers_contentLength_iff header_twoHeader hasLength_twoReceived rfl
    ⟨[twoHeader ++ ascii "h", ascii "i there"], by decide, rfl, rfl⟩ (by decide) (by decide)
    _).2 (by decide) (by rw [decimal_of_lt (by decide)]; decide) (by decide)).mpr (by decide)

/-- Six bytes come with the headers, and all of them are the body. -/
theorem delivers_too_much :
    (twoTask (ascii "hi the") (ascii "re")).Delivers .fresh (ascii "hi the") ∧
      ¬ (twoTask (ascii "hi the") (ascii "re")).Delivers .fresh ((ascii "hi there").take 2) := by
  refine ⟨⟨_, _, rfl, by decide⟩, ?_⟩
  exact @not_delivers_of_ne _ _ _ (ascii "hi the") (by decide) (by decide)

end Toft.DownloadTask
