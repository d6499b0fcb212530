import Mathlib.Data.List.Basic
import Toft.Lib.Word

/-!
# Receiving from a stream socket

A socket is modelled by the results of the calls of `recv` to come. A socket that sends a stream of
bytes gives it in segments, cut in any way, and is closed behind it (`Sends`). `Receive` gives some
of the bytes that are left (`receive_sends`), `ReceiveAll` all that it is asked for
(`receiveAll_sends`), or what there is (`receiveAll_closed`).
-/

namespace Toft

open Lib List

/-- The error codes that the socket classes look at. -/
def EINTR : Int := 4

@[inherit_doc EINTR] def ECONNRESET : Int := 104

/-- What a call of `recv` finds: bytes, of which it takes as many as it is asked for, or an
error. -/
inductive RecvResult where
  | data (bytes : Bytes)
  | error (errno : Int)
  deriving DecidableEq, Repr

/-- A connected `StreamSocket`, with `errno`. Behind the results the peer has closed the connection
in an orderly way: `recv` returns 0 and leaves `errno` as it is. -/
structure StreamSocket where
  results : List RecvResult
  errno : Int
  deriving DecidableEq, Repr

namespace StreamSocket

/-- The results when one call has taken `size` bytes of the first. -/
def leave (bytes : Bytes) (size : Nat) (results : List RecvResult) : List RecvResult :=
  if (bytes.drop size).isEmpty then results else .data (bytes.drop size) :: results

/-- The loop of `DataSocket::Receive`, which calls `recv` again when it was interrupted. The result
of a call is an `int`. -/
def receiveLoop (bufferSize : Nat) (errno : Int) : List RecvResult → Bytes × StreamSocket
  | [] => ([], ⟨[], errno⟩)
  | .data bytes :: results =>
    let size := min bufferSize (2 ^ 31 - 1)
    (bytes.take size, ⟨leave bytes size results, errno⟩)
  | .error e :: results =>
    if e = EINTR then receiveLoop bufferSize e results else ([], ⟨results, e⟩)

/-- `DataSocket::Receive`: what it returns, the bytes received and the socket after the call. -/
def receive (bufferSize : Nat) (s : StreamSocket) : Bool × Bytes × StreamSocket :=
  let (bytes, s) := receiveLoop bufferSize s.errno s.results
  (bytes.length > 0, bytes, s)

/-- The loop of `StreamSocket::ReceiveAll`. Each round but the last receives something, so
`bufferSize` rounds suffice. -/
def receiveAllLoop : Nat → Nat → StreamSocket → Bool × Bytes × StreamSocket
  | 0, _, s => (true, [], s)
  | fuel + 1, bufferSize, s =>
    if bufferSize = 0 then (true, [], s)
    else
      match receive bufferSize s with
      | (true, bytes, s) =>
        if bytes.length = 0 then (false, [], { s with errno := ECONNRESET })
        else
          let (ok, rest, s) := receiveAllLoop fuel (bufferSize - bytes.length) s
          (ok, bytes ++ rest, s)
      | (false, _, s) => (false, [], s)

/-- `StreamSocket::ReceiveAll`: what it returns, the bytes received and the socket after the
call. -/
def receiveAll (bufferSize : Nat) (s : StreamSocket) : Bool × Bytes × StreamSocket :=
  receiveAllLoop bufferSize bufferSize s

/-! ## Streams -/

/-- The bytes to come are `stream`, in any segments; then the connection is closed. -/
def Sends (s : StreamSocket) (stream : Bytes) : Prop :=
  ∃ segments : List Bytes, (∀ segment ∈ segments, segment ≠ []) ∧ segments.flatten = stream ∧
    s.results = segments.map .data

variable {s : StreamSocket}

theorem sends_nil_iff : s.Sends [] ↔ s.results = [] := by
  constructor
  · rintro ⟨segments, hne, hflat, hresults⟩
    cases segments with
    | nil => exact hresults
    | cons segment segments =>
      rw [flatten_cons, append_eq_nil_iff] at hflat
      exact absurd hflat.1 (hne segment mem_cons_self)
  · intro h
    exact ⟨[], fun _ hmem => absurd hmem not_mem_nil, rfl, h⟩

variable {stream : Bytes}

theorem sends_data {bytes : Bytes} (hne : bytes ≠ [])
    (h : s.Sends stream) :
    Sends { s with results := .data bytes :: s.results } (bytes ++ stream) := by
  obtain ⟨segments, hsegments, rfl, hresults⟩ := h
  exact ⟨bytes :: segments, forall_mem_cons.mpr ⟨hne, hsegments⟩, rfl, by rw [hresults]; rfl⟩

theorem receive_closed (h : s.Sends []) (bufferSize : Nat) :
    s.receive bufferSize = (false, [], s) := by
  obtain ⟨results, errno⟩ := s
  obtain rfl : results = [] := sends_nil_iff.mp h
  rfl

theorem receive_sends (h : s.Sends stream) (hne : stream ≠ [])
    {bufferSize : Nat} (hpos : 0 < bufferSize) :
    ∃ bytes rest s', s.receive bufferSize = (true, bytes, s') ∧ bytes ≠ [] ∧
      bytes.length ≤ bufferSize ∧ stream = bytes ++ rest ∧ s'.Sends rest ∧ s'.errno = s.errno := by
  obtain ⟨results, errno⟩ := s
  obtain ⟨segments, hsegments, rfl, rfl : results = _⟩ := h
  cases segments with
  | nil => exact absurd rfl hne
  | cons segment segments =>
    obtain ⟨hsegment, hsegments⟩ := forall_mem_cons.mp hsegments
    have hlen := length_pos_iff.mpr hsegment
    have htaken : 0 < (segment.take (min bufferSize (2 ^ 31 - 1))).length := by
      rw [length_take]
      omega
    refine ⟨segment.take (min bufferSize (2 ^ 31 - 1)),
      segment.drop (min bufferSize (2 ^ 31 - 1)) ++ segments.flatten, _,
      Prod.ext (decide_eq_true htaken) rfl, length_pos_iff.mp htaken, ?_, ?_, ?_, rfl⟩
    · rw [length_take]
      omega
    · rw [← append_assoc, take_append_drop, flatten_cons]
    · have hrest : Sends ⟨segments.map .data, errno⟩ segments.flatten :=
        ⟨segments, hsegments, rfl, rfl⟩
      unfold leave
      split
      · rename_i hempty
        rwa [List.isEmpty_iff.mp hempty]
      · rename_i hleft
        exact sends_data (fun hnil => hleft (by rw [hnil]; rfl)) hrest

theorem receiveAllLoop_sends {fuel bufferSize : Nat} (hfuel : bufferSize ≤ fuel)
    (h : s.Sends stream) :
    ∃ s', receiveAllLoop fuel bufferSize s =
        (decide (bufferSize ≤ stream.length), stream.take bufferSize, s') ∧
      s'.Sends (stream.drop bufferSize) ∧ s'.errno = s.errno := by
  induction fuel generalizing bufferSize s stream with
  | zero =>
    obtain rfl : bufferSize = 0 := by omega
    exact ⟨s, rfl, h, rfl⟩
  | succ fuel ih =>
    rw [receiveAllLoop]
    split
    · rename_i hzero
      subst hzero
      exact ⟨s, rfl, h, rfl⟩
    · rename_i hzero
      rcases eq_or_ne stream [] with rfl | hne
      · rw [receive_closed h]
        exact ⟨s, by simp [hzero], by simpa using h, rfl⟩
      · obtain ⟨bytes, rest, s', hreceive, hbytes, hle, rfl, hrest, herrno⟩ :=
          receive_sends h hne (Nat.pos_of_ne_zero hzero)
        have hpos := length_pos_iff.mpr hbytes
        obtain ⟨s'', hloop, hsends, herrno'⟩ := @ih _ _ (bufferSize - bytes.length) (by omega) hrest
        refine ⟨s'', ?_, ?_, herrno'.trans herrno⟩
        · rw [hreceive]
          simp only [hpos.ne', if_false, hloop, Prod.mk.injEq, and_true]
          rw [take_append, take_of_length_le hle, length_append]
          exact ⟨decide_eq_decide.mpr (by omega), rfl⟩
        · rwa [drop_append, drop_of_length_le hle]

/-- `ReceiveAll` takes as much of the stream as it is asked for, and fails if that is too much. -/
theorem receiveAll_sends (h : s.Sends stream) (bufferSize : Nat) :
    ∃ s', s.receiveAll bufferSize =
        (decide (bufferSize ≤ stream.length), stream.take bufferSize, s') ∧
      s'.Sends (stream.drop bufferSize) ∧ s'.errno = s.errno :=
  receiveAllLoop_sends le_rfl h

end StreamSocket

end Toft
