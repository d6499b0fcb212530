import Toft.Net.Http.Client

/-!
# Bodies that the end of the connection ends

However the stream is cut, the end of the headers is found with some of the body behind it
(`headerLoop_sends`). `ReceiveAll` fails when the peer closes the connection, and only with
`ECONNRESET` does the client take what came before: the body is delivered if it fills the buffer or
`errno` had that value before (`delivers_closed_iff`).
-/

namespace Toft.DownloadTask

open Lib List

/-- The headers of a response up to the empty line, and the response that they are read as. -/
structure Header (header : Bytes) (received : HttpResponse) : Prop where
  terminated : Terminated (ascii "\r\n\r\n") header
  parsed : HttpResponse.fresh.parseHeaders header = (.ok (), received)

variable {received : HttpResponse}

theorem Header.length_le {header : Bytes} (h : Header header received) :
    4 ≤ header.length := h.terminated.suffix.length_le

theorem Header.body_eq {header : Bytes} (h : Header header received) : received.body = [] := by
  have := HttpResponse.parseHeaders_body .fresh header
  rwa [h.parsed] at this

theorem headerLoop_sends {header body : Bytes} (hheader : Terminated (ascii "\r\n\r\n") header)
    {capacity : Nat} (hfit : header.length ≤ capacity) {fuel : Nat} {buff rest : Bytes}
    {s : StreamSocket} (hbuff : buff.length < header.length)
    (hstream : buff ++ rest = header ++ body)
    (hs : s.Sends rest) (hfuel : header.length - buff.length ≤ fuel) :
    ∃ got left s', headerLoop capacity fuel buff s =
        .ok (.ok (header ++ got, header.length), s') ∧ header.length + got.length ≤ capacity ∧
      body = got ++ left ∧ s'.Sends left ∧ s'.errno = s.errno := by
  have hfour : 4 ≤ header.length := hheader.suffix.length_le
  induction fuel generalizing buff rest s with
  | zero => omega
  | succ fuel ih =>
    have hlen := congrArg List.length hstream
    rw [length_append, length_append] at hlen
    have hrest : rest ≠ [] := by
      rintro rfl
      rw [length_nil] at hlen
      omega
    obtain ⟨bytes, left, s', hreceive, hbytes, hle, rfl, hleft, herrno⟩ :=
      StreamSocket.receive_sends hs hrest (show 0 < capacity - buff.length by omega)
    have hpos := length_pos_iff.mpr hbytes
    rw [← append_assoc] at hstream
    rw [headerLoop, hreceive]
    dsimp only
    rcases Nat.lt_or_ge (buff ++ bytes).length header.length with hlt | hge
    · -- a part of the headers
      have hpre : buff ++ bytes <+: header :=
        prefix_of_prefix_length_le ⟨left, hstream⟩ (prefix_append _ _) hlt.le
      rw [hheader.strstr_prefix hpre hlt]
      rw [if_pos (by omega)]
      rw [length_append] at hlt
      obtain ⟨got, left', s'', hloop, hgot, hbody, hsends, herrno'⟩ :=
        ih (by rwa [length_append]) hstream hleft (by rw [length_append]; omega)
      exact ⟨got, left', s'', hloop, hgot, hbody, hsends, herrno'.trans herrno⟩
    · -- all of them, and something behind
      obtain ⟨got, hgot⟩ := prefix_of_prefix_length_le (prefix_append header body)
        ⟨left, hstream⟩ hge
      have hroom : header.length + got.length ≤ capacity := by
        have hgotLen := congrArg List.length hgot
        rw [length_append, length_append] at hgotLen
        omega
      rw [← hgot, append_assoc] at hstream
      rw [← hgot, hheader.strstr_append]
      have hfound : header.length - (ascii "\r\n\r\n").length + 4 = header.length :=
        Nat.sub_add_cancel hfour
      simp only [hfound]
      exact ⟨got, left, s', rfl, hroom, (append_cancel_left hstream).symm, hleft, herrno⟩

theorem exists_headerLoop {header body : Bytes} (hheader : Header header received)
    {t : DownloadTask} (hsends : t.connector.Sends (header ++ body))
    (hfit : header.length ≤ t.endPos) :
    ∃ got left s', headerLoop t.endPos (t.endPos + 1) [] t.connector =
        .ok (.ok (header ++ got, header.length), s') ∧ header.length + got.length ≤ t.endPos ∧
      body = got ++ left ∧ s'.Sends left ∧ s'.errno = t.connector.errno := by
  have hfour := hheader.length_le
  have hnil : ([] : Bytes).length = 0 := rfl
  exact headerLoop_sends hheader.terminated hfit (by omega) (nil_append _) hsends (by omega)

def Delivers (t : DownloadTask) (response : HttpResponse) (body : Bytes) : Prop :=
  ∃ delivered t', t.receiveResponse response = .ok (true, delivered, t') ∧ delivered.body = body

variable {t : DownloadTask}

theorem not_delivers_of_ne {response : HttpResponse} {body other : Bytes}
    (hrun : (t.receiveResponse response).map (fun result => result.2.1.body) = .ok other)
    (hne : other ≠ body) : ¬ t.Delivers response body := by
  rintro ⟨delivered, t', hdelivered, hbody⟩
  rw [hdelivered] at hrun
  exact hne ((Except.ok.inj hrun).symm.trans hbody)

theorem delivers_iff_receiveBody (hfresh : t.response = .fresh)
    {header got : Bytes} (hheader : Header header received)
    {connector : StreamSocket}
    (hloop : headerLoop t.endPos (t.endPos + 1) [] t.connector =
      .ok (.ok (header ++ got, header.length), connector))
    (response : HttpResponse) (body : Bytes) :
    t.Delivers response body ↔ ∃ t' : DownloadTask,
      receiveBody { t with connector := connector, response := received } (header ++ got)
        header.length = .ok (some t') ∧ t'.response.body = body := by
  have hparsed :
      t.response.parseHeaders ((header ++ got).take header.length) = (.ok (), received) := by
    rw [take_left, hfresh, hheader.parsed]
  rw [Delivers, receiveResponse, hloop]
  simp only [ok_bind, hparsed]
  cases receiveBody { t with connector := connector, response := received } (header ++ got)
    header.length with
  | error e => simp
  | ok result =>
    cases result with
    | none => simp
    | some t' => simp

/-! ## Close-delimited bodies -/

/-- A response whose content type the client does not take. -/
def Unsupported (received : HttpResponse) : Prop :=
  responseStatusHasContent received.status ∧ received.headers.has (ascii "Content-Type") ∧
    received.headers.get (ascii "Content-Type") = some (ascii "multipart/byteranges")

theorem receiveBodyWithConnectionReset_body {buff left : Bytes}
    (hsends : t.connector.Sends left) (hfit : buff.length + left.length ≤ t.endPos) (begin : Nat) :
    (t.receiveBodyWithConnectionReset buff begin).response.body =
      if buff.length + left.length = t.endPos ∨ t.connector.errno = ECONNRESET then
        (buff ++ left).drop begin
      else t.response.body := by
  obtain ⟨s', hall, -, herrno⟩ := StreamSocket.receiveAll_sends hsends (t.endPos - buff.length)
  have hok : t.endPos - buff.length ≤ left.length ↔ buff.length + left.length = t.endPos := by omega
  have hbytes : left.take (t.endPos - buff.length) = left := take_of_length_le (by omega)
  rw [receiveBodyWithConnectionReset, hall]
  simp only [herrno, hbytes, hok, Bool.or_eq_true, decide_eq_true_eq, beq_iff_eq]
  split <;> rfl

theorem delivers_closed_iff {header body : Bytes} {received : HttpResponse}
    (hheader : Header header received)
    (htransfer : received.headers.has (ascii "Transfer-Encoding") = false)
    (hlength : received.headers.has (ascii "Content-Length") = false) {t : DownloadTask}
    (hfresh : t.response = .fresh) (hsends : t.connector.Sends (header ++ body))
    (hfit : header.length + body.length ≤ t.endPos) (response : HttpResponse) :
    t.Delivers response body ↔ ¬ Unsupported received ∧
      (body = [] ∨ responseStatusHasContent received.status ∧
        (header.length + body.length = t.endPos ∨ t.connector.errno = ECONNRESET)) := by
  obtain ⟨got, left, s', hloop, -, rfl, hleft, herrno⟩ :=
    exists_headerLoop hheader hsends (by omega)
  have hlen : (header ++ got).length + left.length = header.length + (got ++ left).length := by
    simp only [length_append, Nat.add_assoc]
  rw [delivers_iff_receiveBody hfresh hheader hloop, receiveBody]
  simp only [htransfer, hlength, Bool.false_eq_true, false_and, if_false]
  by_cases hcontent : responseStatusHasContent received.status = true
  · by_cases htype : received.headers.has (ascii "Content-Type") = true ∧
        received.headers.get (ascii "Content-Type") = some (ascii "multipart/byteranges")
    · -- the client gives up
      have hunsupported : Unsupported received := ⟨hcontent, htype⟩
      simp [hcontent, htype, hunsupported]
    · have hsupported : ¬ Unsupported received := fun h => htype h.2
      have hreset := @receiveBodyWithConnectionReset_body
        { t with connector := s', response := received } (header ++ got) left hleft
        (hlen.trans_le hfit) header.length
      rw [hlen, append_assoc, drop_left, hheader.body_eq, herrno] at hreset
      simp only [hcontent, htype, hsupported, Bool.not_true, Bool.false_eq_true, if_false,
        Except.ok.injEq, Option.some.injEq, exists_eq_left', hreset, not_false_eq_true, true_and]
      split
      · rename_i hwhole
        exact iff_of_true rfl (.inr hwhole)
      · rename_i hnone
        exact ⟨fun h => .inl h.symm, fun h => (h.resolve_right hnone).symm⟩
  · -- nothing is taken for the body
    have hsupported : ¬ Unsupported received := fun h => hcontent h.1
    simp only [hcontent, hsupported, Bool.not_false, if_true, Except.ok.injEq, Option.some.injEq,
      exists_eq_left', hheader.body_eq, not_false_eq_true, true_and, false_and, or_false,
      Bool.false_eq_true]
    exact eq_comm

def okHeader : Bytes := ascii "HTTP/1.1 200 OK\r\n\r\n"

theorem header_okHeader : Header okHeader { line := ⟨200⟩ } where
  terminated :=
    { suffix := ⟨ascii "HTTP/1.1 200 OK", rfl⟩
      first := by
        have hfirst : ∀ i < 15, ¬ ascii "\r\n\r\n" <+: okHeader.drop i := by decide
        exact fun i hi => hfirst i (Nat.lt_of_add_lt_add_right hi)
      nul := by decide }
  parsed := by decide

/-- A peer that sends two bytes of content in two segments and closes the connection. -/
def okSocket : StreamSocket := ⟨[.data (okHeader ++ ascii "h"), .data (ascii "i")], 0⟩

theorem sends_okSocket : okSocket.Sends (okHeader ++ ascii "hi") :=
  ⟨[okHeader ++ ascii "h", ascii "i"], by decide, rfl, rfl⟩

/-- The buffer is full with the last byte. -/
theorem delivers_full_buffer :
    Delivers { maxResponseLength := 22, connector := okSocket, positive := by decide } .fresh
      (ascii "hi") :=
  (delivers_closed_iff header_okHeader (by decide) (by decide) rfl sends_okSocket (by decide)
    _).mpr ⟨fun h => absurd h.2.1 (by decide), .inr ⟨by decide, .inl (by decide)⟩⟩

/-- With room left in the buffer the body is lost. -/
theorem not_delivers_closed :
    ¬ Delivers { maxResponseLength := 64, connector := okSocket, positive := by decide } .fresh
      (ascii "hi") :=
  @not_delivers_of_ne _ _ _ [] (by decide) (by decide)

end Toft.DownloadTask
