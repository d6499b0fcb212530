import Toft.Storage.SeqFile.Markers
import Toft.Storage.SeqFile.Versions

/-!
# Resynchronising

A reader that accepts the header of its file finds the first marker at an offset or behind it, with
its first call or a later one, however the file splits what is read (`skipToSync_finds`).
-/

namespace Toft.SeqFile

open Lib DataInputBuffer LocalSequenceFileReader Prog List Host

variable {content sync : Bytes}

/-- Nothing is read behind the end of the file. -/
theorem loadAtLeast_beyond {d : DataInputBuffer} {n : Nat} (hn : 0 < n) (hsize : n ≤ d.bufferSize)
    (hleft : d.left = []) (hpos : d.file.data.length ≤ d.file.pos) :
    ∃ d', loadAtLeast n d = .ok (none, d') := by
  have hloop : loadLoop n (n + 1) d = (loadMoreContent >>= fun _ => loadLoop n n) d :=
    congrFun (if_pos (hleft ▸ hn : d.left.length < n)) d
  have hmore : ∃ d', loadMoreContent d = .ok (none, d') := by
    simp only [loadMoreContent, adjust_eq, File.read, drop_eq_nil_of_le hpos, take_nil]
    cases (d.file.io 0).count (d.bufferSize - d.left.length) <;> exact ⟨_, rfl⟩
  obtain ⟨d', hmore⟩ := hmore
  refine ⟨d', ?_⟩
  rw [loadAtLeast, bind_apply, enlarge, if_neg (by omega), andThen, hloop, bind_apply, hmore,
    andThen]

section

variable [Host] {r : LocalSequenceFileReader} {w : Window} {h : Header}

/-- A file may be positioned behind its end. -/
theorem skipToSync_beyond (hr : Rel content r ⟨w, h⟩) (hh : h.Parsed sync) {offset : Nat}
    (hoffset : content.length ≤ offset) : ∃ r', skipToSync offset r = .ok (none, r') := by
  have hparsed : r.header.isHeadParsed = true := hr.header_eq ▸ hh.isHeadParsed
  have hsize : 16 ≤ r.input.bufferSize := hr.holds.size_eq ▸ le_trans (by decide) hr.holds.le_size
  obtain ⟨d, hd⟩ := @loadAtLeast_beyond (DataInputBuffer.mk
    { r.input.file with pos := offset } r.input.bufferSize [] 0 r.input.isFinished) 16
    (by decide) hsize rfl (hr.holds.data_eq ▸ hoffset)
  refine ⟨{ r with input := d }, ?_⟩
  simp only [skipToSync, bind_apply, init_of_parsed hparsed, andThen, onInput, zoom,
    seek, File.seek_set, getHeader, gets, skipLoop, hd]

/-- The reader is new on a file with a header that it accepts, or has accepted one. -/
inductive Accepts (content sync : Bytes) : LocalSequenceFileReader → Prop
  | parsed {r : LocalSequenceFileReader} {w : Window} {h : Header} (hr : Rel content r ⟨w, h⟩)
      (hh : h.Parsed sync) : Accepts content sync r
  | new {l : Layout} {tail : Bytes} {file : File} {size : Nat} (hl : l.Valid)
      (hnames : l.NamesReadable) (hgrow : growAll 65536 l.textLengths = some size)
      (hcontent : content = l.preamble ++ (l.sync ++ tail)) (hsync : sync = l.sync)
      (hdata : file.data = content) (hpos : file.pos = 0) (hmoves : ∀ t, (file.io t).Moves) :
      Accepts content sync (new file)

/-- The first call parses the header. -/
theorem Accepts.init (h : Accepts content sync r) : ∃ r' w h, init r = .ok (some (), r') ∧
    Rel content r' ⟨w, h⟩ ∧ h.Parsed sync := by
  cases h with
  | @parsed r w h hr hh =>
    exact ⟨r, w, h, init_of_parsed (hr.header_eq ▸ hh.isHeadParsed), hr, hh⟩
  | @new l tail file size hl hnames hgrow hcontent hsync hdata hpos hmoves =>
    have hinit := runs_init_new hl hnames tail
    rw [hgrow] at hinit
    obtain ⟨r', heq, hr'⟩ := hinit.exists_ok (rel_new (hdata.trans hcontent) hpos hmoves)
    subst hcontent hsync
    exact ⟨r', _, _, heq, hr', hl.parsed⟩

/-- **Resynchronising.** `SkipToSync` returns the offset behind the first marker that starts at the
given offset or behind it, and leaves the reader in front of what follows the marker; it returns -1
exactly if there is none. -/
theorem skipToSync_finds (haccepts : Accepts content sync r) (offset : Nat) :
    ∃ result r', skipToSync offset r = .ok (result, r') ∧
      (result = none ↔ ¬ ∃ pre post, content = pre ++ sync ++ post ∧ offset ≤ pre.length) ∧
      ∀ pre post, content = pre ++ sync ++ post → offset ≤ pre.length →
        (∀ pre' post', content = pre' ++ sync ++ post' → offset ≤ pre'.length →
          pre.length ≤ pre'.length) →
        result = some (pre.length + 16 : Int) ∧ r'.input.tell = pre.length + 16 ∧
          ∃ size h, Rel content r' ⟨⟨post, size⟩, h⟩ ∧ h.Parsed sync := by
  obtain ⟨r₀, w, h, hinit, hr, hh⟩ := haccepts.init
  have hfirst : skipToSync offset r = skipToSync offset r₀ := by
    rw [skipToSync, bind_apply, bind_apply, hinit,
      init_of_parsed (hr.header_eq ▸ hh.isHeadParsed)]
  rw [hfirst]
  have hlength := hh.length_sync
  have hsync : sync ≠ [] := ne_nil_of_length_pos (by omega)
  by_cases hfound : ∃ pre post, content = pre ++ sync ++ post ∧ offset ≤ pre.length
  · obtain ⟨pre₀, post₀, hcontent, hfrom⟩ := hfound
    obtain ⟨rest, hrest, -⟩ := exists_behindSync hsync hfrom post₀
    rw [← hcontent] at hrest
    have hle : offset ≤ content.length := by
      rw [hcontent, append_assoc, length_append]
      omega
    obtain ⟨r', heq, hr'⟩ := (runs_skipToSync hh hle hrest).exists_ok hr
    refine ⟨_, r', heq, iff_of_false nofun (not_not.mpr ⟨pre₀, post₀, hcontent, hfrom⟩), ?_⟩
    intro pre post hpre hoffset hleast
    obtain ⟨first, hfirst, hfrom'⟩ := append_of_behindSync hle hrest
    obtain ⟨rest', hrest', hge⟩ := exists_behindSync hsync hoffset post
    rw [← hpre, hrest] at hrest'
    cases hrest'
    have hle' := hleast first rest hfirst hfrom'
    have hlength₁ := congrArg length hpre
    have hlength₂ := congrArg length hfirst
    simp only [length_append] at hlength₁ hlength₂
    obtain rfl : post = rest := (append_inj' (hpre.symm.trans hfirst) (by omega)).2
    refine ⟨congrArg some (by omega), ?_, _, _, hr', hh⟩
    rw [hr'.holds.tell_eq]
    dsimp only
    omega
  · have hnone : ∃ r', skipToSync offset r₀ = .ok (none, r') := by
      by_cases hle : offset ≤ content.length
      · cases hbehind : behindSync sync (content.drop offset) with
        | some rest =>
          obtain ⟨pre, hpre⟩ := append_of_behindSync hle hbehind
          exact absurd ⟨pre, rest, hpre⟩ hfound
        | none =>
          obtain ⟨rest, hruns⟩ := runs_skipToSync_none hh hle hbehind
          obtain ⟨r', heq, -⟩ := hruns.exists_ok hr
          exact ⟨r', heq⟩
      · exact skipToSync_beyond hr hh (by omega)
    obtain ⟨r', heq⟩ := hnone
    exact ⟨none, r', heq, iff_of_true rfl hfound,
      fun pre post hpre hoffset => absurd ⟨pre, post, hpre, hoffset⟩ hfound⟩

end

/-- A new reader on a file of version 5 that is read byte by byte. Behind the start of the marker of
the header there is one more, in front of the record. -/
theorem skipToSync_finds_five :
    (∃ r size h, @skipToSync little 11 (new
        { data := (smallLayout 5).bytes, io := fun _ => .short 1 }) = .ok (some 46, r) ∧
      Rel (smallLayout 5).bytes r ⟨⟨(smallLayout 5).bytes.drop 46, size⟩, h⟩) ∧
    ∃ r, @skipToSync little 31 (new
      { data := (smallLayout 5).bytes, io := fun _ => .short 1 }) = .ok (none, r) := by
  let _ := little
  have haccepts : Accepts (smallLayout 5).bytes (smallLayout 5).sync (new
      { data := (smallLayout 5).bytes, io := fun _ => .short 1 }) :=
    .new (smallLayout_valid (by decide) (by decide)) (.inr (.inl le_rfl))
      (show growAll 65536 [] = some 65536 from rfl) rfl rfl rfl rfl fun _ => Nat.one_pos
  have hplaces : ∀ k < 57, (smallLayout 5).sync <+: (smallLayout 5).bytes.drop k →
      k = 10 ∨ k = 30 := by decide +kernel
  have hmarker {pre post : Bytes}
      (h : (smallLayout 5).bytes = pre ++ (smallLayout 5).sync ++ post) :
      pre.length = 10 ∨ pre.length = 30 := by
    refine hplaces pre.length ?_ ⟨post, ?_⟩
    · have := congrArg length h
      rw [length_append, length_append, show (smallLayout 5).bytes.length = 56 from rfl] at this
      omega
    · rw [h, append_assoc, drop_left]
  constructor
  · obtain ⟨result, r, hskip, -, hfound⟩ := skipToSync_finds haccepts 11
    obtain ⟨rfl, -, size, h, hr, -⟩ := hfound ((smallLayout 5).bytes.take 30)
      ((smallLayout 5).bytes.drop 46) (by decide) (by decide) fun pre' post' hpre' hle => by
        have := hmarker hpre'
        rw [show ((smallLayout 5).bytes.take 30).length = 30 from rfl]
        omega
    exact ⟨r, size, h, hskip, hr⟩
  · obtain ⟨result, r, hskip, hnone, -⟩ := skipToSync_finds haccepts 31
    obtain rfl := hnone.mpr fun ⟨pre, post, hpre, hle⟩ => by
      have := hmarker hpre
      omega
    exact ⟨r, hskip⟩

end Toft.SeqFile
