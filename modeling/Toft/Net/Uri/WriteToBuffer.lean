import Toft.Base.Fault
import Toft.Base.Int
import Toft.Lib.StrStream
import Toft.Net.Uri.Basic

/-!
# Writing a URI into a buffer

`URI::WriteToBuffer` inserts the same parts as `URI::ToString` appends (`writeParts_holding`), but
it neither keeps room for the zero byte nor looks whether the stream has failed before it stores it:
a text that fills the buffer is followed by a zero byte behind the buffer, and for a longer one
`tellp` is -1. An empty buffer is refused with `return -1`, which is true.
-/

namespace Toft

open Lib List StrStream

/-- What a call of `WriteToBuffer` does: the value it returns, `*result_size` if it is set, and the
bytes it stores with their offsets from `buffer`. -/
structure BufferWrite where
  returned : Bool
  resultSize : Option Nat := none
  writes : List (Int × UInt8) := []
  deriving DecidableEq

namespace URI

def writeAuthority (a : UriAuthority) (oss : StrStream) : StrStream :=
  let oss := if a.hasUserInfo then (oss.insert a.userInfo).insert (ascii "@") else oss
  let oss := oss.insert a.host
  if a.hasPort then (oss.insert (ascii ":")).insert a.port else oss

def writeParts (u : URI) (oss : StrStream) : StrStream :=
  let oss := if u.scheme.isEmpty then oss else (oss.insert u.scheme).insert (ascii ":")
  let oss := if u.hasAuthority then writeAuthority u.authority (oss.insert (ascii "//")) else oss
  let oss := oss.insert u.path
  let oss := if u.hasQuery then (oss.insert (ascii "?")).insert u.query else oss
  if u.hasFragment then (oss.insert (ascii "#")).insert u.fragment else oss

/-- `URI::WriteToBuffer`, with the memory from `buffer` on. The stream takes the size of the buffer
as an `int`. Since addresses wrap, `buffer[*result_size]` is where `tellp` says. -/
def writeToBuffer (u : URI) (memory : Bytes) (bufferSize : UInt64) : Except Fault BufferWrite :=
  if bufferSize < 1 then .ok { returned := true }
  else
    match areaOf memory (int32 bufferSize.toNat) with
    | none => .error .overrun
    | some area =>
      let oss := u.writeParts { area := area }
      .ok { returned := !oss.failed
            resultSize := some (uint64 oss.tellp)
            writes := writesFrom 0 oss.text ++ [(oss.tellp, 0)] }

theorem writeAuthority_holding (a : UriAuthority) (area : Nat) (text : Bytes) :
    writeAuthority a (.holding area text) = .holding area (text ++ authorityText a) := by
  unfold writeAuthority authorityText
  cases a.hasUserInfo <;> cases a.hasPort <;> simp

theorem writeParts_holding (u : URI) (area : Nat) (text : Bytes) :
    u.writeParts (.holding area text) = .holding area (text ++ u.toString) := by
  unfold writeParts toString
  cases u.scheme.isEmpty <;> cases u.hasAuthority <;> cases u.hasQuery <;> cases u.hasFragment <;>
    simp [writeAuthority_holding]

/-- `WriteToBuffer` does what `ToString` says: it returns true exactly if the text and a zero byte
fit, then they stand in the buffer and `*result_size` is the length of the text, and nothing is
written outside of the buffer. -/
def BufferAgrees (u : URI) (memory : Bytes) (bufferSize : UInt64) : Prop :=
  ∃ out, u.writeToBuffer memory bufferSize = .ok out ∧
    (out.returned = true ↔ u.toString.length + 1 ≤ bufferSize.toNat) ∧
    (out.returned = true →
      (store memory out.writes).take (u.toString.length + 1) = u.toString ++ [0] ∧
      out.resultSize = some u.toString.length) ∧
    ∀ w ∈ out.writes, 0 ≤ w.1 ∧ w.1 < bufferSize.toNat

/-- The stream that is made for the buffer takes a text of `n` bytes. For a buffer of less than 2 GB
its size is that of the buffer. -/
def StreamTakes (memory : Bytes) (bufferSize : UInt64) (n : Nat) : Prop :=
  ∃ area, areaOf memory (int32 bufferSize.toNat) = some area ∧ n ≤ area

theorem streamTakes_iff {memory : Bytes} {bufferSize : UInt64} (hpos : 0 < bufferSize.toNat)
    (hsize : bufferSize.toNat < 2 ^ 31) (n : Nat) :
    StreamTakes memory bufferSize n ↔ n ≤ bufferSize.toNat := by
  have harea : areaOf memory (int32 bufferSize.toNat) = some bufferSize.toNat := by
    rw [int32_of_lt hsize, areaOf, if_pos (by omega), Int.toNat_natCast]
  simp [StreamTakes, harea]

variable {u : URI} {memory : Bytes} {bufferSize : UInt64}

theorem writeToBuffer_of_area (hpos : 0 < bufferSize.toNat) {area : Nat}
    (harea : areaOf memory (int32 bufferSize.toNat) = some area) :
    u.writeToBuffer memory bufferSize =
      if u.toString.length ≤ area then
        .ok { returned := true
              resultSize := some (uint64 u.toString.length)
              writes := writesFrom 0 (u.toString ++ [0]) }
      else
        .ok { returned := false
              resultSize := some (uint64 (-1))
              writes := writesFrom 0 (u.toString.take area) ++ [(-1, 0)] } := by
  have hone : ¬ bufferSize < 1 := by
    exact Nat.not_lt.mpr hpos
  have hparts : u.writeParts { area := area } = .holding area u.toString := by
    have := u.writeParts_holding area []
    rwa [show holding area [] = { area := area } by
      simp [holding]] at this
  rw [writeToBuffer, if_neg hone, harea]
  simp only [hparts, tellp, holding]
  by_cases hfits : u.toString.length ≤ area
  · rw [if_pos hfits, take_of_length_le hfits, decide_eq_false (by omega), writesFrom_append]
    simp [writesFrom]
  · rw [if_neg hfits, decide_eq_true (by omega)]
    rfl

/-- **Writing into a buffer.** `WriteToBuffer` agrees with `ToString` exactly if the text is shorter
than the buffer (and a stream on a buffer of 2 GB or more takes it). -/
theorem writeToBuffer_agrees_iff (hmemory : bufferSize.toNat ≤ memory.length) :
    u.BufferAgrees memory bufferSize ↔ u.toString.length < bufferSize.toNat ∧
      StreamTakes memory bufferSize u.toString.length := by
  constructor
  · rintro ⟨out, hout, hreturned, -, hinside⟩
    have hpos : 0 < bufferSize.toNat := by
      rcases Nat.eq_zero_or_pos bufferSize.toNat with hzero | hpos
      · -- the empty buffer: true is returned
        rw [writeToBuffer, if_pos (by rw [UInt64.lt_iff_toNat_lt, hzero]; decide)] at hout
        cases hout
        have := hreturned.mp rfl
        omega
      · exact hpos
    cases harea : areaOf memory (int32 bufferSize.toNat) with
    | none =>
      have hone : ¬ bufferSize < 1 := by
        exact Nat.not_lt.mpr hpos
      rw [writeToBuffer, if_neg hone, harea] at hout
      cases hout
    | some area =>
      rw [writeToBuffer_of_area hpos harea] at hout
      by_cases hfits : u.toString.length ≤ area
      · rw [if_pos hfits] at hout
        cases hout
        have := hreturned.mp rfl
        exact ⟨by omega, area, harea, hfits⟩
      · -- a stream that failed: the zero byte is stored in front of the buffer
        rw [if_neg hfits] at hout
        cases hout
        have := (hinside (-1, 0) (mem_append_right _ mem_cons_self)).1
        omega
  · rintro ⟨hlt, area, harea, hfits⟩
    have hwrite := writeToBuffer_of_area (u := u) (by omega) harea
    rw [if_pos hfits] at hwrite
    refine ⟨_, hwrite, iff_of_true rfl hlt, fun _ => ⟨?_, ?_⟩, fun w hw => ?_⟩
    · rw [store_writesFrom _ _ _ (by simp; omega), take_zero, nil_append,
        take_left' (by simp)]
    · have := bufferSize.toNat_lt
      rw [uint64_of_lt (by omega)]
    · have := mem_writesFrom hw
      simp only [length_append, length_singleton] at this
      omega

/-- `http:` with the path `/s`, in a buffer of eight bytes. -/
theorem writeToBuffer_agrees_eight :
    BufferAgrees { scheme := ascii "http", path := ascii "/s" } (List.replicate 8 0xff) 8 :=
  (writeToBuffer_agrees_iff (by decide)).mpr
    ⟨by decide, (streamTakes_iff (by decide) (by decide) _).mpr (by decide)⟩

/-- A buffer of no bytes: true is returned. A buffer that the text fills: true is returned, and the
zero byte is written behind it. A text that is longer: the zero byte is written in front of the
buffer. -/
theorem writeToBuffer_not_agrees :
    let u : URI := { scheme := ascii "a", path := ascii "b" }
    let memory : Bytes := List.replicate 4 0xff
    (u.writeToBuffer memory 0 = .ok { returned := true } ∧ ¬ u.BufferAgrees memory 0) ∧
    (u.writeToBuffer memory 3 = .ok
        { returned := true, resultSize := some 3, writes := writesFrom 0 (ascii "a:b" ++ [0]) } ∧
      ¬ u.BufferAgrees memory 3) ∧
    (u.writeToBuffer memory 2 = .ok
        { returned := false
          resultSize := some (2 ^ 64 - 1)
          writes := writesFrom 0 (ascii "a:") ++ [(-1, 0)] } ∧
      ¬ u.BufferAgrees memory 2) := by
  refine ⟨⟨rfl, ?_⟩, ⟨by decide, ?_⟩, ⟨by decide, ?_⟩⟩
  · rintro ⟨out, hout, hreturned, -⟩
    cases hout
    exact absurd (hreturned.mp rfl) (by decide)
  · rintro ⟨out, hout, hreturned, -⟩
    cases hout
    exact absurd (hreturned.mp rfl) (by decide)
  · rintro ⟨out, hout, -, -, hinside⟩
    cases hout
    exact absurd (hinside (-1, 0) (by decide)) (by decide)

end URI

end Toft
