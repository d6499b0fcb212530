import Toft.Storage.Path

/-!
# The way from a directory to a file

The normal form of an absolute path is a stack of components: `..` takes one off, every other
component is put on. Normalising a joined path goes on from the components of its first part
(`comps_join`), so a way of some `..` and then components of the file leads to the file
(`foldl_pushComp_way`). `ToRelative` finds this way if the numbers of components are in the range
of an `int`.
-/

namespace Toft.Path

open Lib Lib.Segments List Nat

/-! ## Components of a normal form -/

/-- A component that the normal form of an absolute path can have. -/
structure Plain (comp : Bytes) : Prop where
  ne_nil : comp ≠ []
  ne_dot : comp ≠ ascii "."
  ne_dotDot : comp ≠ ascii ".."
  free : 0x2f ∉ comp

theorem pushComp_plain {comp : Bytes} (h : Plain comp) (slashes : Nat) (comps : List Bytes) :
    pushComp slashes comps comp = comps ++ [comp] := by
  rw [pushComp, if_neg, if_pos (.inl h.ne_dotDot)]
  rintro (hempty | hdot)
  · exact h.ne_nil (isEmpty_iff.mp hempty)
  · exact h.ne_dot hdot

theorem pushComp_dotDot {comps : List Bytes} (h : ∀ c ∈ comps, Plain c) :
    pushComp 1 comps (ascii "..") = comps.dropLast := by
  rw [pushComp, if_neg (by decide), if_neg]
  rintro (hne | hslashes | hlast)
  · exact hne rfl
  · exact absurd hslashes.1 (by decide)
  · exact (h _ (mem_of_getLast? hlast)).ne_dotDot rfl

theorem pushComp_nil (slashes : Nat) (comps : List Bytes) : pushComp slashes comps [] = comps :=
  if_pos (.inl rfl)

theorem plain_pushComp {comps : List Bytes} {comp : Bytes} (h : ∀ c ∈ comps, Plain c)
    (hfree : 0x2f ∉ comp) : ∀ c ∈ pushComp 1 comps comp, Plain c := by
  by_cases hskip : comp.isEmpty ∨ comp = ascii "."
  · rw [pushComp, if_pos hskip]
    exact h
  · obtain ⟨hempty, hdot⟩ := not_or.mp hskip
    by_cases hdots : comp = ascii ".."
    · rw [hdots, pushComp_dotDot h]
      exact fun c hc => h c (dropLast_subset _ hc)
    · have hplain : Plain comp := ⟨fun hnil => hempty (isEmpty_iff.mpr hnil), hdot, hdots, hfree⟩
      rw [pushComp_plain hplain]
      intro c hc
      rcases mem_append.mp hc with hc | hc
      · exact h c hc
      · rw [mem_singleton.mp hc]
        exact hplain

theorem plain_foldl {comps xs : List Bytes} (h : ∀ c ∈ comps, Plain c) (hfree : Free 0x2f xs) :
    ∀ c ∈ xs.foldl (pushComp 1) comps, Plain c := by
  induction xs generalizing comps with
  | nil => exact h
  | cons x xs ih =>
    obtain ⟨hx, hxs⟩ := forall_mem_cons.mp hfree
    exact ih (plain_pushComp h hx) hxs

variable {xs : List Bytes}

theorem foldl_pushComp_plain (h : ∀ c ∈ xs, Plain c) (comps : List Bytes) :
    xs.foldl (pushComp 1) comps = comps ++ xs := by
  induction xs generalizing comps with
  | nil => exact (append_nil comps).symm
  | cons x xs ih =>
    obtain ⟨hx, hxs⟩ := forall_mem_cons.mp h
    rw [foldl_cons, pushComp_plain hx, ih hxs, append_assoc, singleton_append]

theorem foldl_pushComp_way {comps xs : List Bytes} (h : ∀ c ∈ comps, Plain c)
    (hxs : ∀ c ∈ xs, Plain c) (n : Nat) :
    (replicate n (ascii "..") ++ xs).foldl (pushComp 1) comps =
      comps.take (comps.length - n) ++ xs := by
  induction n generalizing comps with
  | zero => rw [replicate_zero, nil_append, foldl_pushComp_plain hxs, Nat.sub_zero,
      take_length]
  | succ n ih =>
    rw [replicate_succ, cons_append, foldl_cons, pushComp_dotDot h,
      ih fun c hc => h c (dropLast_subset _ hc), dropLast_eq_take, take_take,
      length_take]
    congr 2
    omega

/-! ## The normal form of an absolute path -/

/-- The components of the normal form of a path with one initial slash. -/
def comps (path : Bytes) : List Bytes := (segments 0x2f path).foldl (pushComp 1) []

theorem plain_comps (path : Bytes) : ∀ c ∈ comps path, Plain c :=
  plain_foldl (fun _ hc => absurd hc not_mem_nil) (free_segments path)

variable {path : Bytes}

theorem normalize_eq (h : initialSlashes path = 1) :
    normalize path = .ok (0x2f :: joinStrings (ascii "/") (comps path)) := by
  have hne : path ≠ [] := by
    rintro rfl
    exact absurd h (by decide)
  have hempty : ¬ path.isEmpty = true := by simpa using hne
  rw [normalize, if_neg hempty, h]
  simp only [show ascii "/" = [0x2f] from rfl, splitStringKeepEmpty_byte 0x2f hne, ok_bind]
  rfl

theorem splitString_normal (h : ∀ c ∈ xs, Plain c) :
    splitString (0x2f :: joinStrings (ascii "/") xs) (ascii "/") = xs := by
  rw [show ascii "/" = [0x2f] from rfl, splitString_byte, cut_sep]
  cases xs with
  | nil => rfl
  | cons first others =>
    obtain ⟨hfirst, hothers⟩ := forall_mem_cons.mp h
    rw [joinStrings_segments, cut_append hfirst.free fun c hc => (hothers c hc).free]
    have hkept : (first :: others).filter (!·.isEmpty) = first :: others :=
      filter_eq_self.mpr fun c hc => by simpa using (h c hc).ne_nil
    exact hkept

theorem initialSlashes_eq_one_iff : initialSlashes path = 1 ↔
    ∃ t, path = 0x2f :: t ∧ (t.head? = some 0x2f → t.tail.head? = some 0x2f) := by
  have htwo : ascii "//" = [0x2f, 0x2f] := rfl
  have hthree : ascii "///" = [0x2f, 0x2f, 0x2f] := rfl
  have hbeq : ∀ c : UInt8, ((0x2f : UInt8) == c) = decide (c = 0x2f) := by
    intro c
    rw [Bool.eq_iff_iff, beq_iff_eq, decide_eq_true_eq, eq_comm]
  rw [initialSlashes, htwo, hthree]
  match path with
  | [] => simp
  | [c] => simp [isPrefixOf]
  | [c, d] =>
    simp only [head?_cons, Option.some.injEq, isPrefixOf, hbeq]
    by_cases hc : c = 0x2f <;> by_cases hd : d = 0x2f <;> simp [hc, hd]
  | c :: d :: e :: t =>
    simp only [head?_cons, Option.some.injEq, isPrefixOf, hbeq]
    by_cases hc : c = 0x2f <;> by_cases hd : d = 0x2f <;> by_cases he : e = 0x2f <;>
      simp [hc, hd, he]

theorem initialSlashes_append (h : initialSlashes path = 1) {s : Bytes}
    (hs : path = [0x2f] → s.head? ≠ some 0x2f) : initialSlashes (path ++ s) = 1 := by
  obtain ⟨t, rfl, hsecond⟩ := initialSlashes_eq_one_iff.mp h
  refine initialSlashes_eq_one_iff.mpr ⟨t ++ s, rfl, ?_⟩
  match t, hsecond with
  | [], _ => exact fun hhead => absurd hhead (hs rfl)
  | [c], hsecond =>
    intro hhead
    exact absurd (hsecond hhead) nofun
  | _ :: _ :: _, hsecond => exact hsecond

/-! ## Joining components -/

theorem join_comp {path comp : Bytes} (hpath : path ≠ []) (hlast : path.getLast? ≠ some 0x2f)
    (hcomp : comp ≠ []) (hfree : 0x2f ∉ comp) : join path comp = path ++ 0x2f :: comp := by
  obtain ⟨c, rest, rfl⟩ := exists_cons_of_ne_nil hcomp
  have hc : c ≠ 0x2f := fun heq => hfree (heq ▸ mem_cons_self)
  simp [join, doJoin, hc, hpath, hlast]

theorem foldl_join (hpath : path ≠ []) (hlast : path.getLast? ≠ some 0x2f)
    (hne : ∀ c ∈ xs, c ≠ []) (hfree : Free 0x2f xs) :
    xs.foldl join path = path ++ behind 0x2f xs := by
  induction xs generalizing path with
  | nil => exact (append_nil path).symm
  | cons x xs ih =>
    obtain ⟨hx, hxs⟩ := forall_mem_cons.mp hne
    obtain ⟨hxfree, hxsfree⟩ := forall_mem_cons.mp hfree
    have hend : (path ++ 0x2f :: x).getLast? ≠ some 0x2f := by
      rw [getLast?_append_of_ne_nil _ (cons_ne_nil _ _), getLast?_cons_of_ne_nil hx]
      exact fun hmem => hxfree (mem_of_getLast? hmem)
    rw [foldl_cons, join_comp hpath hlast hx hxfree, ih (by simp) hend hxs hxsfree, behind_cons,
      append_assoc, cons_append]

theorem joinComps_eq (hne : ∀ c ∈ xs, c ≠ []) (hfree : Free 0x2f xs) :
    joinComps xs = joinStrings (ascii "/") (xs.take ((int32 xs.length - 1).toNat + 1)) := by
  cases xs with
  | nil => rfl
  | cons first others =>
    obtain ⟨hfirst, hothers⟩ := forall_mem_cons.mp hne
    obtain ⟨hfirstfree, hothersfree⟩ := forall_mem_cons.mp hfree
    rw [take_succ_cons, show ascii "/" = [0x2f] from rfl, joinStrings_segments]
    exact foldl_join hfirst (fun hmem => hfirstfree (mem_of_getLast? hmem))
      (fun c hc => hothers c (mem_of_mem_take hc))
      (fun c hc => hothersfree c (mem_of_mem_take hc))

theorem join_relative {path rel : Bytes} (h : initialSlashes path = 1) (hrel : rel ≠ [])
    (hhead : rel.head? ≠ some 0x2f) :
    initialSlashes (join path rel) = 1 ∧
      comps (join path rel) = (segments 0x2f rel).foldl (pushComp 1) (comps path) := by
  have hpath : path ≠ [] := by
    rintro rfl
    exact absurd h (by decide)
  obtain ⟨c, rest, rfl⟩ := exists_cons_of_ne_nil hrel
  have hc : c ≠ 0x2f := by simpa using hhead
  by_cases hlast : path.getLast? = some 0x2f
  · -- the segment behind the last slash of the path is empty
    obtain ⟨front, rfl⟩ := getLast?_eq_some_iff.mp hlast
    have hjoin : join (front ++ [0x2f]) (c :: rest) = front ++ [0x2f] ++ c :: rest := by
      simp [join, doJoin, hc]
    have hsegments : segments 0x2f (front ++ [0x2f]) = segments 0x2f front ++ [[]] :=
      segments_append_sep front []
    refine ⟨hjoin ▸ initialSlashes_append h fun _ => hhead, ?_⟩
    rw [hjoin, append_assoc, singleton_append, comps, segments_append_sep, comps,
      hsegments, foldl_append, foldl_append, foldl_cons, foldl_nil, pushComp_nil]
  · have hjoin : join path (c :: rest) = path ++ 0x2f :: c :: rest := by
      simp [join, doJoin, hc, hpath, hlast]
    refine ⟨hjoin ▸ initialSlashes_append h fun heq => absurd (heq ▸ rfl) hlast, ?_⟩
    rw [hjoin, comps, segments_append_sep, foldl_append, comps]

/-- Normalising a joined path goes on from the components of its first part. -/
theorem normalize_join (h : initialSlashes path = 1) {way : List Bytes}
    (hne : ∀ c ∈ way, c ≠ []) (hfree : Free 0x2f way) :
    normalize (join path (joinStrings (ascii "/") way)) =
      .ok (0x2f :: joinStrings (ascii "/") (way.foldl (pushComp 1) (comps path))) := by
  cases way with
  | nil => exact normalize_eq h
  | cons first others =>
    obtain ⟨hfirst, -⟩ := forall_mem_cons.mp hne
    obtain ⟨hfirstfree, hothersfree⟩ := forall_mem_cons.mp hfree
    obtain ⟨c, rest, rfl⟩ := exists_cons_of_ne_nil hfirst
    have hc : c ≠ 0x2f := fun heq => hfirstfree (heq ▸ mem_cons_self)
    have htext : joinStrings (ascii "/") ((c :: rest) :: others) =
        c :: rest ++ behind 0x2f others := joinStrings_segments 0x2f (c :: rest) others
    obtain ⟨hslashes, hcomps⟩ := @join_relative path
      (joinStrings (ascii "/") ((c :: rest) :: others)) h (by rw [htext]; exact cons_ne_nil _ _)
      (by rw [htext]; simpa using hc)
    rw [normalize_eq hslashes, hcomps, htext, segments_append_behind hfirstfree hothersfree]

/-! ## Common components -/

theorem commonCount_le (xs ys : List Bytes) :
    commonCount xs ys ≤ xs.length ∧ commonCount xs ys ≤ ys.length := by
  induction xs generalizing ys with
  | nil => simp [commonCount]
  | cons x xs ih =>
    cases ys with
    | nil => simp [commonCount]
    | cons y ys =>
      have hle := ih ys
      rw [commonCount, length_cons, length_cons]
      split <;> omega

theorem take_commonCount (xs ys : List Bytes) :
    xs.take (commonCount xs ys) = ys.take (commonCount xs ys) := by
  induction xs generalizing ys with
  | nil => simp [commonCount]
  | cons x xs ih =>
    cases ys with
    | nil => simp [commonCount]
    | cons y ys =>
      rw [commonCount]
      split
      · rfl
      · rename_i heq
        rw [Decidable.not_not.mp heq, take_succ_cons, take_succ_cons, ih]

theorem commonCount_append (xs ys : List Bytes) : commonCount (xs ++ ys) xs = xs.length := by
  induction xs with
  | nil => cases ys <;> rfl
  | cons x xs ih => rw [cons_append, commonCount, if_neg (by simp), ih, length_cons]

theorem commonCount_nil (xs : List Bytes) : commonCount xs [] = 0 := by
  cases xs <;> rfl

/-! ## The way to a file -/

/-- The components that `ToRelative` gives lead from the directory to the file. -/
def Leads (directory file : List Bytes) : Prop :=
  ∃ way, relativeComps directory file = .ok way ∧
    (way.take ((int32 way.length - 1).toNat + 1)).foldl (pushComp 1) directory = file

/-- The number of components of the way from a directory to a file. -/
def wayLength (directory file : List Bytes) : Nat :=
  (directory.length - commonCount directory file) + (file.length - commonCount directory file)

theorem relativeComps_eq {directory file : List Bytes} (hd : directory.length < 2 ^ 31)
    (hf : file.length < 2 ^ 31) :
    relativeComps directory file =
      .ok (replicate (directory.length - commonCount directory file) (ascii "..") ++
        file.drop (commonCount directory file)) := by
  have hle := commonCount_le directory file
  unfold relativeComps
  rw [int32_of_lt hd, int32_of_lt hf]
  simp only [Int.toNat_natCast, take_length]
  rw [if_neg (by omega)]
  congr 3
  omega

section Leads

variable {directory file : List Bytes} (hdirectory : ∀ c ∈ directory, Plain c)
  (hfile : ∀ c ∈ file, Plain c)

include hdirectory hfile in
theorem foldl_take_way (n i r : Nat) :
    ((replicate r (ascii "..") ++ file.drop i).take n).foldl (pushComp 1) directory =
      directory.take (directory.length - min n r) ++ (file.drop i).take (n - r) := by
  rw [take_append, take_replicate, length_replicate, foldl_pushComp_way hdirectory
      fun c hc => hfile c (mem_of_mem_drop (mem_of_mem_take hc))]

include hdirectory hfile in
theorem leads_of_lt (hd : directory.length < 2 ^ 31) (hf : file.length < 2 ^ 31)
    (hway : wayLength directory file < 2 ^ 31) : Leads directory file := by
  have hle := commonCount_le directory file
  refine ⟨_, relativeComps_eq hd hf, ?_⟩
  have hlength : (replicate (directory.length - commonCount directory file) (ascii "..") ++
      file.drop (commonCount directory file)).length = wayLength directory file := by
    rw [length_append, length_replicate, length_drop, wayLength]
  rw [hlength, int32_of_lt hway, foldl_take_way hdirectory hfile]
  unfold wayLength
  rw [Nat.min_eq_right (by omega), Nat.sub_sub_self hle.1, take_commonCount]
  conv_rhs => rw [← take_append_drop (commonCount directory file) file]
  congr 1
  exact take_of_length_le (by rw [length_drop]; omega)

include hdirectory hfile in
/-- **The way to a file.** Below 2^32 components the way leads to the file exactly if the numbers of
components, and that of the way, are less than 2^31. -/
theorem leads_iff (hd : directory.length < 2 ^ 32) (hf : file.length < 2 ^ 32) :
    Leads directory file ↔ directory.length < 2 ^ 31 ∧ file.length < 2 ^ 31 ∧
      wayLength directory file < 2 ^ 31 := by
  refine ⟨?_, fun ⟨hd, hf, hway⟩ => leads_of_lt hdirectory hfile hd hf hway⟩
  rintro ⟨way, hway, hleads⟩
  have hd31 : directory.length < 2 ^ 31 := by
    -- otherwise `insert` is asked for a negative number of components
    by_contra hlarge
    rw [relativeComps, int32_of_ge (Nat.le_of_not_lt hlarge) hd] at hway
    rw [if_pos (by omega)] at hway
    cases hway
  have hf31 : file.length < 2 ^ 31 := by
    -- otherwise no common component is seen, and the way is cut off
    by_contra hlarge
    have hbounds := int32_bounds ((directory.length : Int) + file.length)
    rw [relativeComps, int32_of_lt hd31, int32_of_ge (Nat.le_of_not_lt hlarge) hf] at hway
    have hnone : ((file.length : Int) - 2 ^ 32).toNat = 0 := by omega
    rw [hnone, take_zero, commonCount_nil] at hway
    cases hway
    rw [foldl_take_way hdirectory hfile] at hleads
    have hlength := congrArg length hleads
    simp only [length_append, length_take, length_replicate, length_drop,
      Nat.cast_add, Nat.cast_zero, Int.sub_zero, Int.toNat_natCast, Nat.sub_zero] at hlength
    omega
  refine ⟨hd31, hf31, ?_⟩
  by_contra hlarge
  -- only the first component of the way is left
  rw [relativeComps_eq hd31 hf31] at hway
  cases hway
  rw [foldl_take_way hdirectory hfile, length_append, length_replicate, length_drop,
    ← wayLength, int32_of_ge (Nat.le_of_not_lt hlarge) (by unfold wayLength; omega),
    Int.toNat_of_nonpos (by unfold wayLength; omega)] at hleads
  unfold wayLength at hlarge
  rcases lt_or_ge (commonCount directory file) directory.length with hup | hup
  · have hdown : 0 + 1 - (directory.length - commonCount directory file) = 0 := by omega
    rw [min_eq_left (by omega), hdown, take_zero, append_nil] at hleads
    have hcommon := commonCount_append (directory.take (directory.length - (0 + 1)))
      (directory.drop (directory.length - (0 + 1)))
    rw [take_append_drop, hleads] at hcommon
    have hlength := congrArg length hleads
    omega
  · have hlength := congrArg length hleads
    omega

end Leads

/-! ## Paths -/

/-- An absolute path whose normal form starts with a single slash. -/
def SingleSlash (path : Bytes) : Prop :=
  isAbsolute path = true ∧
    ∃ normal, normalize path = .ok normal ∧ [0x2f] <+: normal ∧ ¬ [0x2f, 0x2f] <+: normal

theorem SingleSlash.initialSlashes (h : SingleSlash path) : initialSlashes path = 1 := by
  obtain ⟨habsolute, normal, hnormal, -, hdouble⟩ := h
  have hhead : path.head? = some 0x2f := by simpa [isAbsolute] using habsolute
  have hne : path ≠ [] := by
    rintro rfl
    cases hhead
  by_contra hslashes
  have htwo : Path.initialSlashes path = 2 := by
    unfold Path.initialSlashes at hslashes ⊢
    rw [if_pos hhead] at hslashes ⊢
    split at hslashes
    · rw [if_pos ‹_›]
    · exact absurd rfl hslashes
  rw [normalize, if_neg (by simpa using hne), htwo, show ascii "/" = [0x2f] from rfl,
    splitStringKeepEmpty_byte 0x2f hne] at hnormal
  cases hnormal
  exact hdouble (prefix_append _ _)

theorem joinStrings_inj {xs ys : List Bytes} (hx : ∀ c ∈ xs, Plain c) (hy : ∀ c ∈ ys, Plain c) :
    joinStrings (ascii "/") xs = joinStrings (ascii "/") ys ↔ xs = ys := by
  constructor
  · intro heq
    rw [← splitString_normal hx, heq, splitString_normal hy]
  · rintro rfl
    rfl

theorem toAbsolute_eq (cwd : Bytes) (h : initialSlashes path = 1) :
    toAbsolute cwd path = .ok (0x2f :: joinStrings (ascii "/") (comps path)) := by
  obtain ⟨t, rfl, -⟩ := initialSlashes_eq_one_iff.mp h
  have habsolute : isAbsolute (0x2f :: t) = true := by simp [isAbsolute]
  rw [toAbsolute, if_pos habsolute, normalize_eq h]

/-- `Normalize(Join(base, ToRelative(base, file)))` is `Normalize(file)`. -/
def Inverts (cwd base file : Bytes) : Prop :=
  ∃ rel normal, toRelative cwd base file = .ok rel ∧ normalize (join base rel) = .ok normal ∧
    normalize file = .ok normal

theorem way_free {directory file way : List Bytes} (hfile : ∀ c ∈ file, Plain c)
    (hway : relativeComps directory file = .ok way) : (∀ c ∈ way, c ≠ []) ∧ Free 0x2f way := by
  have hcomp : ∀ r i, ∀ c ∈ replicate r (ascii "..") ++ file.drop i, c ≠ [] ∧ 0x2f ∉ c := by
    intro r i c hc
    rcases mem_append.mp hc with hc | hc
    · rw [eq_of_mem_replicate hc]
      exact ⟨by decide, by decide⟩
    · have hplain := hfile c (mem_of_mem_drop hc)
      exact ⟨hplain.ne_nil, hplain.free⟩
  unfold relativeComps at hway
  dsimp only at hway
  split at hway
  · cases hway
  · rw [← Except.ok.inj hway]
    exact ⟨fun c hc => (hcomp _ _ c hc).1, fun c hc => (hcomp _ _ c hc).2⟩

section

variable {base file : Bytes} (cwd : Bytes) (hbase : initialSlashes base = 1)
  (hfile : initialSlashes file = 1)
include cwd hbase hfile

theorem toRelative_eq :
    toRelative cwd base file = (relativeComps (comps base) (comps file)).map joinComps := by
  rw [toRelative, toAbsolute_eq cwd hbase, toAbsolute_eq cwd hfile, ok_bind, ok_bind,
    splitString_normal (plain_comps base), splitString_normal (plain_comps file)]
  cases relativeComps (comps base) (comps file) <;> rfl

theorem inverts_iff : Inverts cwd base file ↔ Leads (comps base) (comps file) := by
  rw [Inverts, toRelative_eq cwd hbase hfile, normalize_eq hfile, Leads]
  cases hway : relativeComps (comps base) (comps file) with
  | error fault => simp [Except.map]
  | ok way =>
    obtain ⟨hne, hfree⟩ := way_free (plain_comps file) hway
    have hnormal := @normalize_join base hbase (way.take ((int32 way.length - 1).toNat + 1))
      (fun c hc => hne c (mem_of_mem_take hc)) (fun c hc => hfree c (mem_of_mem_take hc))
    have hplain := @plain_foldl (comps base) (way.take ((int32 way.length - 1).toNat + 1))
      (plain_comps base) (fun c hc => hfree c (mem_of_mem_take hc))
    rw [← joinComps_eq hne hfree] at hnormal
    constructor
    · rintro ⟨rel, normal, hrel, hjoined, htarget⟩
      cases hrel
      refine ⟨way, rfl, (joinStrings_inj hplain (plain_comps file)).mp ?_⟩
      have heq := hnormal.symm.trans (hjoined.trans htarget.symm)
      exact (cons.inj (Except.ok.inj heq)).2
    · rintro ⟨way', hway', hleads⟩
      cases hway'
      exact ⟨_, _, rfl, hleads ▸ hnormal, rfl⟩

end

/-- **Relative paths.** For absolute paths whose normal forms start with a single slash and have
less than 2^32 components, joining the relative path to the directory leads to the file exactly if
both have less than 2^31 components and so has the way between them. -/
theorem toRelative_inverts_iff (cwd : Bytes) {base file : Bytes} (hbase : SingleSlash base)
    (hfile : SingleSlash file) (hbaseSize : (comps base).length < 2 ^ 32)
    (hfileSize : (comps file).length < 2 ^ 32) :
    Inverts cwd base file ↔ (comps base).length < 2 ^ 31 ∧ (comps file).length < 2 ^ 31 ∧
      wayLength (comps base) (comps file) < 2 ^ 31 := by
  rw [inverts_iff cwd hbase.initialSlashes hfile.initialSlashes]
  exact leads_iff (plain_comps base) (plain_comps file) hbaseSize hfileSize

/-- From `/a/b/../c` to `/a/./d` it is `../d`. -/
theorem toRelative_inverts_acd :
    toRelative (ascii "/") (ascii "/a/b/../c") (ascii "/a/./d") = .ok (ascii "../d") ∧
      Inverts (ascii "/") (ascii "/a/b/../c") (ascii "/a/./d") := by
  have hbase : SingleSlash (ascii "/a/b/../c") :=
    ⟨by decide, ascii "/a/c", by rfl, by decide, by decide⟩
  have hfile : SingleSlash (ascii "/a/./d") :=
    ⟨by decide, ascii "/a/d", by rfl, by decide, by decide⟩
  refine ⟨by decide +kernel, (toRelative_inverts_iff _ hbase hfile (by decide) (by decide)).mpr
    ⟨by decide, by decide, by decide⟩⟩

theorem comps_behind (h : ∀ c ∈ xs, Plain c) : comps (behind 0x2f xs) = xs := by
  have hsegments := @segments_append_behind _ _ 0x2f [] xs not_mem_nil fun c hc => (h c hc).free
  rw [nil_append] at hsegments
  rw [comps, hsegments, foldl_cons, pushComp_nil, foldl_pushComp_plain h, nil_append]

/-- Plain components behind slashes are a normal form. -/
theorem singleSlash_behind {x : Bytes} (h : ∀ c ∈ x :: xs, Plain c) :
    SingleSlash (behind 0x2f (x :: xs)) := by
  obtain ⟨hx, -⟩ := forall_mem_cons.mp h
  have hcomps := comps_behind h
  obtain ⟨c, rest, rfl⟩ := exists_cons_of_ne_nil hx.ne_nil
  have hc : c ≠ 0x2f := fun heq => hx.free (heq ▸ mem_cons_self)
  have hslashes : Path.initialSlashes (behind 0x2f ((c :: rest) :: xs)) = 1 :=
    initialSlashes_eq_one_iff.mpr
      ⟨c :: rest ++ behind 0x2f xs, rfl, fun hhead => absurd (Option.some.inj hhead) hc⟩
  refine ⟨by simp [isAbsolute], _, normalize_eq hslashes, ⟨_, rfl⟩, ?_⟩
  rw [hcomps, show ascii "/" = [0x2f] from rfl, joinStrings_segments, cons_append,
    cons_prefix_cons, cons_prefix_cons]
  rintro ⟨-, heq, -⟩
  exact hc heq.symm

/-- From a directory with 2^31 components `a` to the root: the number of components to go up is
negative as an `int`. -/
theorem toRelative_not_inverts :
    ∃ base file, SingleSlash base ∧ SingleSlash file ∧ ∀ cwd,
      toRelative cwd base file = .error .badLength ∧ ¬ Inverts cwd base file := by
  obtain ⟨n, hn⟩ : ∃ n, n + 1 = 2 ^ 31 := ⟨2 ^ 31 - 1, by omega⟩
  have hplain : ∀ c ∈ replicate (n + 1) (ascii "a"), Plain c := by
    intro c hc
    rw [eq_of_mem_replicate hc]
    exact ⟨by decide, by decide, by decide, by decide⟩
  have hbase : SingleSlash (behind 0x2f (replicate (n + 1) (ascii "a"))) :=
    singleSlash_behind hplain
  have hfile : SingleSlash (ascii "/") := ⟨by decide, ascii "/", by rfl, by decide, by decide⟩
  refine ⟨_, _, hbase, hfile, fun cwd => ?_⟩
  have hrelative : toRelative cwd (behind 0x2f (replicate (n + 1) (ascii "a"))) (ascii "/") =
      .error .badLength := by
    rw [toRelative_eq cwd hbase.initialSlashes hfile.initialSlashes, comps_behind hplain,
      relativeComps, length_replicate, hn]
    rfl
  refine ⟨hrelative, ?_⟩
  rintro ⟨rel, normal, hrel, -⟩
  cases hrelative.symm.trans hrel

end Toft.Path
