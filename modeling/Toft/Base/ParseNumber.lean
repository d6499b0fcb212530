import Toft.Base.Number

/-!
# Parsing numbers of any integer type

`ParseNumberT` reads a number with one of the functions `strtol`, `strtoul`, `strtoll` and
`strtoull` and checks that it fits into the type; `StringToNumber` checks that nothing follows. The
texts of numbers are those of the C standard (`Written`). The functions for unsigned types take a
minus sign too, and negate the number modulo `2 ^ 64`.
-/

namespace Toft

open Lib List

/-! ## The texts of numbers -/

/-- The digits of a number in a base, with what may stand before them to name the base. The base
zero is the one that the text names. -/
inductive Numeral : Nat → Bytes → Nat → Prop
  | plain {base : Nat} {text : Bytes} (hbase : base ≠ 0) (hne : text ≠ [])
      (hdigits : ∀ c ∈ text, isDigitOf base c) : Numeral base text (numeral base text)
  | hex {base : Nat} {x : UInt8} {text : Bytes} (hbase : base = 0 ∨ base = 16)
      (hx : x = 0x78 ∨ x = 0x58) (hne : text ≠ []) (hdigits : ∀ c ∈ text, isDigitOf 16 c) :
      Numeral base (0x30 :: x :: text) (numeral 16 text)
  | octal {text : Bytes} (hdigits : ∀ c ∈ text, isDigitOf 8 c) :
      Numeral 0 (0x30 :: text) (numeral 8 (0x30 :: text))
  | decimal {c : UInt8} {text : Bytes} (hc : c ≠ 0x30) (hdigits : ∀ d ∈ c :: text, isDigitOf 10 d) :
      Numeral 0 (c :: text) (numeral 10 (c :: text))

/-- The texts of a sign, and whether it is a minus. -/
inductive Sign : Bytes → Bool → Prop
  | none : Sign [] false
  | plus : Sign [0x2b] false
  | minus : Sign [0x2d] true

/-- The whole text is that of a number: blanks, a sign and a numeral. -/
def Written (base : Nat) (s : Bytes) (negative : Bool) (magnitude : Nat) : Prop :=
  ∃ spaces sign text, s = spaces ++ (sign ++ text) ∧ (∀ c ∈ spaces, isSpace c) ∧
    Sign sign negative ∧ Numeral base text magnitude

/-- The number that a text denotes. -/
def Denotes (base : Nat) (s : Bytes) (n : Int) : Prop :=
  ∃ negative magnitude, Written base s negative magnitude ∧
    n = if negative then -(magnitude : Int) else magnitude

theorem digitOf_ne {c : UInt8} (h : (digitOf c).isSome) :
    c ≠ 0 ∧ c ≠ 0x2d ∧ c ≠ 0x2b ∧ isSpace c = false := by
  refine ⟨?_, ?_, ?_, ?_⟩
  · rintro rfl
    exact absurd h (by decide)
  · rintro rfl
    exact absurd h (by decide)
  · rintro rfl
    exact absurd h (by decide)
  · grind [isSpace, digitOf]

variable {base : Nat}

theorem isSome_of_isDigitOf {c : UInt8} (h : isDigitOf base c) : (digitOf c).isSome := by
  unfold isDigitOf at h
  cases hc : digitOf c with
  | none =>
    rw [hc] at h
    cases h
  | some d => rfl

theorem Numeral.isSome {base m : Nat} {text : Bytes} (h : Numeral base text m) :
    ∀ c ∈ text, (digitOf c).isSome := by
  cases h with
  | plain _ _ hdigits => exact fun c hc => isSome_of_isDigitOf (hdigits c hc)
  | hex _ hx _ hdigits =>
    refine forall_mem_cons.mpr ⟨rfl, forall_mem_cons.mpr ⟨?_, ?_⟩⟩
    · rcases hx with rfl | rfl <;> rfl
    · exact fun c hc => isSome_of_isDigitOf (hdigits c hc)
  | octal hdigits =>
    exact forall_mem_cons.mpr ⟨rfl, fun c hc => isSome_of_isDigitOf (hdigits c hc)⟩
  | decimal _ hdigits => exact fun c hc => isSome_of_isDigitOf (hdigits c hc)

theorem Numeral.ne_nil {base m : Nat} {text : Bytes} (h : Numeral base text m) : text ≠ [] := by
  cases h with
  | plain _ hne => exact hne
  | hex | octal | decimal => exact cons_ne_nil _ _

variable {negative : Bool} {s : Bytes}

theorem Written.ne {base m : Nat} (h : Written base s negative m) :
    0 ∉ s ∧ (0x2d ∈ s ↔ negative = true) := by
  obtain ⟨spaces, sign, text, rfl, hspaces, hsign, htext⟩ := h
  have hspace : ∀ c ∈ spaces, c ≠ 0 ∧ c ≠ 0x2d := by
    intro c hc
    refine ⟨?_, ?_⟩ <;>
    · rintro rfl
      exact absurd (hspaces _ hc) (by decide)
  have hnot : 0 ∉ spaces ∧ 0x2d ∉ spaces :=
    ⟨fun hmem => (hspace _ hmem).1 rfl, fun hmem => (hspace _ hmem).2 rfl⟩
  have hnot' : 0 ∉ text ∧ 0x2d ∉ text :=
    ⟨fun hmem => (digitOf_ne (htext.isSome _ hmem)).1 rfl,
      fun hmem => (digitOf_ne (htext.isSome _ hmem)).2.1 rfl⟩
  cases hsign <;> simp [hnot, hnot']

theorem Numeral.eq {base m m' : Nat} {text : Bytes} (h : Numeral base text m)
    (h' : Numeral base text m') : m = m' := by
  have hletter : ∀ x : UInt8, x = 0x78 ∨ x = 0x58 → ¬ isDigitOf 16 x ∧ ¬ isDigitOf 8 x := by
    rintro x (rfl | rfl) <;> decide
  cases h with
  | plain hbase _ hdigits =>
    cases h' with
    | plain => rfl
    | hex hbase' hx =>
      obtain rfl := hbase'.resolve_left hbase
      exact absurd (hdigits _ (by simp)) (hletter _ hx).1
    | octal => exact absurd rfl hbase
    | decimal => exact absurd rfl hbase
  | hex hbase hx =>
    cases h' with
    | plain hbase' _ hdigits =>
      obtain rfl := hbase.resolve_left hbase'
      exact absurd (hdigits _ (by simp)) (hletter _ hx).1
    | hex => rfl
    | octal hdigits => exact absurd (hdigits _ mem_cons_self) (hletter _ hx).2
    | decimal hc => exact absurd rfl hc
  | octal hdigits =>
    cases h' with
    | plain hbase => exact absurd rfl hbase
    | hex _ hx => exact absurd (hdigits _ mem_cons_self) (hletter _ hx).2
    | octal => rfl
    | decimal hc => exact absurd rfl hc
  | decimal hc =>
    cases h' with
    | plain hbase => exact absurd rfl hbase
    | hex => exact absurd rfl hc
    | octal => exact absurd rfl hc
    | decimal => rfl

/-- The blanks and the sign of a text are found: the numeral begins with neither. -/
theorem Written.strtolSign_eq {base m : Nat} (h : Written base s negative m) :
    ∃ text, strtolSign (s.dropWhile isSpace) = (negative, text) ∧ Numeral base text m := by
  obtain ⟨spaces, sign, text, rfl, hspaces, hsign, htext⟩ := h
  refine ⟨text, ?_, htext⟩
  rw [dropWhile_append_of_pos hspaces]
  cases hsign with
  | none =>
    obtain ⟨c, rest, rfl⟩ := exists_cons_of_ne_nil htext.ne_nil
    obtain ⟨-, hminus, hplus, hspace⟩ := digitOf_ne (htext.isSome c mem_cons_self)
    rw [nil_append, dropWhile_cons_of_neg (by rw [hspace]; decide)]
    unfold strtolSign
    split
    · rename_i heq
      cases heq
      exact absurd rfl hminus
    · rename_i heq
      cases heq
      exact absurd rfl hplus
    · rfl
  | plus => rfl
  | minus => rfl

theorem Written.eq {base m m' : Nat} {negative' : Bool} (h : Written base s negative m)
    (h' : Written base s negative' m') : m = m' := by
  obtain ⟨text, hsign, htext⟩ := h.strtolSign_eq
  obtain ⟨text', hsign', htext'⟩ := h'.strtolSign_eq
  cases hsign.symm.trans hsign'
  exact htext.eq htext'

/-! ## Reading -/

theorem sign_of_strtolSign {s text : Bytes}
    (h : strtolSign s = (negative, text)) : ∃ sign, s = sign ++ text ∧ Sign sign negative := by
  unfold strtolSign at h
  split at h
  · cases h
    exact ⟨[0x2d], rfl, .minus⟩
  · cases h
    exact ⟨[0x2b], rfl, .plus⟩
  · cases h
    exact ⟨[], rfl, .none⟩

theorem numeral_of_strtolBase {base b : Nat} {s text : Bytes} (h : strtolBase base s = (b, text))
    (hne : text ≠ []) (hdigits : ∀ c ∈ text, isDigitOf b c) : Numeral base s (numeral b text) := by
  unfold strtolBase at h
  split at h
  · rename_i x c rest
    split_ifs at h with hhex hzero
    · cases h
      exact .hex hhex.1 hhex.2.1 hne hdigits
    · cases h
      rw [hzero]
      exact .octal (forall_mem_cons.mp hdigits).2
    · cases h
      exact .plain hzero hne hdigits
  · split_ifs at h with hzero
    · cases h
      rw [hzero]
      exact .octal (forall_mem_cons.mp hdigits).2
    · cases h
      exact .plain hzero hne hdigits
  · rename_i hnot hnot'
    split_ifs at h with hzero
    · cases h
      rw [hzero]
      cases s with
      | nil => exact absurd rfl hne
      | cons c s =>
        refine .decimal ?_ hdigits
        rintro rfl
        exact hnot' s rfl
    · cases h
      exact .plain hzero hne hdigits

/-- A text that is read to its end is that of a number. -/
theorem written_of_scan {base b : Nat} {s signed text : Bytes}
    (hsign : strtolSign (s.dropWhile isSpace) = (negative, signed))
    (hbase : strtolBase base signed = (b, text)) (hne : text.takeWhile (isDigitOf b) ≠ [])
    (hrest : text.dropWhile (isDigitOf b) = []) :
    Written base s negative (numeral b (text.takeWhile (isDigitOf b))) := by
  have hall := dropWhile_eq_nil_iff.mp hrest
  have htext : text.takeWhile (isDigitOf b) = text := takeWhile_eq_self_iff.mpr hall
  rw [htext] at hne ⊢
  obtain ⟨sign, heq, hs⟩ := sign_of_strtolSign hsign
  refine ⟨s.takeWhile isSpace, sign, signed, ?_, ?_, hs, numeral_of_strtolBase hbase hne hall⟩
  · rw [← heq, takeWhile_append_dropWhile]
  · intro c hc
    exact mem_takeWhile_imp hc

theorem foldl_numeral (base : Nat) (digits : Bytes) (v : Nat) :
    digits.foldl (fun (v : Int) c => base * v + ((digitOf c).getD 0 : Nat)) v =
      (digits.foldl (fun v c => base * v + (digitOf c).getD 0) v : Nat) := by
  induction digits generalizing v with
  | nil => rfl
  | cons c digits ih =>
    rw [foldl_cons, foldl_cons, ← ih]
    rfl

theorem numeral_decimal (n : Nat) : numeral 10 (decimal n) = n := by
  have hvalue := @foldl_digitOf (decimal n) (fun c hc => exists_digit_of_mem_decimal hc) 0
  rw [foldl_numeral, digitsValue_decimal] at hvalue
  exact Int.ofNat_inj.mp hvalue

theorem strtoul_decimal_append {n : Nat} (hn : n < 2 ^ 64) {rest : Bytes}
    (hrest : ∀ c ∈ rest.head?, isDigitOf 10 c = false) :
    strtoul (decimal n ++ rest) 10 = ((n : Int), rest, false) := by
  obtain ⟨hsign, htake, hdrop⟩ := scan_decimal n hrest
  unfold strtoul
  simp only [hsign, strtolBase_ten, htake, hdrop]
  split
  · rename_i hnil
    exact absurd hnil (decimal_ne_nil n)
  · rw [numeral_decimal, if_neg (Nat.not_le.mpr hn), if_neg Bool.false_ne_true]

theorem strtol_spec {n : Int} (h : strtol s base = (n, [], false))
    (hs : s ≠ []) : Denotes base s n ∧ -2 ^ 63 ≤ n ∧ n < 2 ^ 63 := by
  rcases hsign : strtolSign (s.dropWhile isSpace) with ⟨negative, signed⟩
  rcases hbase : strtolBase base signed with ⟨b, text⟩
  simp only [strtol, hsign, hbase] at h
  have hfold := foldl_numeral b (text.takeWhile (isDigitOf b)) 0
  generalize hdigits : text.takeWhile (isDigitOf b) = digits at h hfold
  cases digits with
  | nil =>
    cases h
    exact absurd rfl hs
  | cons c digits =>
    rw [Nat.cast_zero] at hfold
    simp only [hfold] at h
    generalize hn : (if negative = true then -((numeral b (c :: digits) : Nat) : Int)
      else ((numeral b (c :: digits) : Nat) : Int)) = number
    rw [numeral] at hn
    rw [hn] at h
    split_ifs at h with hlow hhigh
    · cases congrArg (·.2.2) h
    · cases congrArg (·.2.2) h
    · simp only [Prod.mk.injEq, and_true] at h
      obtain ⟨rfl, hrest⟩ := h
      have hwritten := written_of_scan hsign hbase (hdigits ▸ cons_ne_nil c digits) hrest
      rw [hdigits] at hwritten
      exact ⟨⟨negative, _, hwritten, hn.symm⟩, Int.not_lt.mp hlow, Int.not_le.mp hhigh⟩

theorem strtoul_spec {n : Int} (h : strtoul s base = (n, [], false))
    (hs : s ≠ []) : ∃ negative magnitude, Written base s negative magnitude ∧ magnitude < 2 ^ 64 ∧
      n = (if negative then uint64 (-(magnitude : Int)) else magnitude : Nat) := by
  rcases hsign : strtolSign (s.dropWhile isSpace) with ⟨negative, signed⟩
  rcases hbase : strtolBase base signed with ⟨b, text⟩
  simp only [strtoul, hsign, hbase] at h
  generalize hdigits : text.takeWhile (isDigitOf b) = digits at h
  cases digits with
  | nil =>
    cases h
    exact absurd rfl hs
  | cons c digits =>
    dsimp only at h
    by_cases hlarge : 2 ^ 64 ≤ numeral b (c :: digits)
    · rw [if_pos hlarge] at h
      cases congrArg (·.2.2) h
    · rw [if_neg hlarge] at h
      simp only [Prod.mk.injEq, and_true] at h
      obtain ⟨rfl, hrest⟩ := h
      have hwritten := written_of_scan hsign hbase (hdigits ▸ cons_ne_nil c digits) hrest
      rw [hdigits] at hwritten
      exact ⟨negative, _, hwritten, Nat.lt_of_not_le hlarge, rfl⟩

theorem stringToNumberT_eq_true {t : IntegerType} {str : Bytes} {value v : Int}
    (h : stringToNumberT t str value = (true, v)) :
    str.takeWhile (· ≠ 0) ≠ [] ∧ convert t (str.takeWhile (· ≠ 0)) 0 = (v, [], false) ∧
      (t.bits < 64 → t.min ≤ v ∧ v ≤ t.max) := by
  rcases hconvert : convert t (str.takeWhile (· ≠ 0)) 0 with ⟨number, rest, erange⟩
  simp only [stringToNumberT, stringToNumberIn, parseNumberT, hconvert] at h
  split_ifs at h with herange hrange hlength
  · cases congrArg Prod.fst h
  · cases congrArg Prod.fst h
  · cases congrArg Prod.fst h
  · simp only [Prod.mk.injEq, List.isEmpty_iff] at h
    obtain ⟨rfl, rfl⟩ := h
    refine ⟨?_, ?_, ?_⟩
    · intro hnil
      exact hlength (congrArg List.length hnil.symm)
    · rw [Bool.eq_false_of_not_eq_true herange]
    · intro hbits
      have hbounds := not_or.mp (not_and.mp hrange hbits)
      exact ⟨Int.not_lt.mp hbounds.2, Int.not_lt.mp hbounds.1⟩

theorem IntegerType.in_range {t : IntegerType} {n : Int}
    (hsmall : t.bits < 64 → t.min ≤ n ∧ n ≤ t.max)
    (hlarge : if t.isSigned then -2 ^ 63 ≤ n ∧ n < 2 ^ 63 else 0 ≤ n ∧ n < 2 ^ 64) :
    t.min ≤ n ∧ n ≤ t.max := by
  have hbits : t.bits < 64 ∨ t.bits = 64 := by cases t <;> decide
  rcases hbits with hbits | hbits
  · exact hsmall hbits
  · rw [min, max, hbits]
    split_ifs at hlarge ⊢
    all_goals omega

/-- When `StringToNumber` returns true, the text denotes the number, and it is one of the type,
exactly if there is no zero byte in the text and, for an unsigned type, no minus sign unless the
text denotes zero. -/
theorem stringToNumber_denotes_iff (t : IntegerType) (str : Bytes) (value v : Int)
    (h : stringToNumberT t str value = (true, v)) :
    (∃ n, Denotes 0 str n ∧ t.min ≤ n ∧ n ≤ t.max ∧ v = n) ↔
      0 ∉ str ∧ (t.isSigned ∨ 0x2d ∉ str ∨ Denotes 0 str 0) := by
  obtain ⟨hne, hconvert, hrange⟩ := stringToNumberT_eq_true h
  constructor
  · rintro ⟨n, ⟨negative, m, hwritten, hn⟩, hmin, -, rfl⟩
    obtain ⟨hnul, hminus⟩ := hwritten.ne
    refine ⟨hnul, ?_⟩
    cases hsigned : t.isSigned with
    | true => exact Or.inl rfl
    | false =>
      refine Or.inr ?_
      cases negative with
      | false => exact Or.inl fun hmem => absurd (hminus.mp hmem) Bool.false_ne_true
      | true =>
        rw [IntegerType.min, hsigned] at hmin
        rw [if_pos rfl] at hn
        simp only [Bool.false_eq_true, if_false] at hmin
        exact Or.inr ⟨true, m, hwritten, by rw [if_pos rfl]; omega⟩
  · rintro ⟨hnul, hsign⟩
    have htext : str.takeWhile (· ≠ 0) = str := by
      rw [takeWhile_eq_self_iff]
      intro c hc
      exact decide_eq_true fun heq => hnul (heq ▸ hc)
    rw [htext] at hne hconvert
    cases hsigned : t.isSigned with
    | true =>
      rw [convert, hsigned] at hconvert
      obtain ⟨hdenotes, hbounds⟩ := strtol_spec hconvert hne
      obtain ⟨hmin, hmax⟩ := IntegerType.in_range hrange (by rwa [hsigned])
      exact ⟨v, hdenotes, hmin, hmax, rfl⟩
    | false =>
      rw [convert, hsigned] at hconvert
      obtain ⟨negative, m, hwritten, hm, hv⟩ := strtoul_spec hconvert hne
      have hbounds : 0 ≤ v ∧ v < 2 ^ 64 := by
        unfold uint64 at hv
        split_ifs at hv <;> omega
      obtain ⟨hmin, hmax⟩ := IntegerType.in_range hrange
        (by rwa [hsigned])
      refine ⟨v, ⟨negative, m, hwritten, ?_⟩, hmin, hmax, rfl⟩
      cases negative with
      | false => exact hv
      | true =>
        -- there is a minus sign, so the number is zero
        have hmem := hwritten.ne.2.mpr rfl
        have hzero : m = 0 := by
          rcases hsign with hsign | hsign | ⟨negative, m', hwritten', hm'⟩
          · rw [hsigned] at hsign
            cases hsign
          · exact absurd hmem hsign
          · have := hwritten.eq hwritten'
            split at hm' <;> omega
        rw [if_pos rfl, uint64] at hv
        omega

/-- A number in hexadecimal with a sign, and zero with a minus sign for an unsigned type. -/
theorem stringToNumber_denotes_hex :
    (∃ n, Denotes 0 (ascii "-0x7f") n ∧ IntegerType.signedChar.min ≤ n ∧
      n ≤ IntegerType.signedChar.max ∧ -127 = n) ∧
    ∃ n, Denotes 0 (ascii "-0") n ∧ IntegerType.unsignedInt.min ≤ n ∧
      n ≤ IntegerType.unsignedInt.max ∧ 0 = n := by
  refine ⟨(stringToNumber_denotes_iff .signedChar (ascii "-0x7f") 0 (-127) (by decide)).mpr
    ⟨by decide, Or.inl rfl⟩, (stringToNumber_denotes_iff .unsignedInt (ascii "-0") 0 0
    (by decide)).mpr ⟨by decide, Or.inr (Or.inr ⟨true, 0, ?_, rfl⟩)⟩⟩
  exact ⟨[], ascii "-", ascii "0", rfl, nofun, .minus, .octal nofun⟩

/-- A negative number is taken for an unsigned type, and bytes behind a zero byte are not seen. -/
theorem stringToNumber_accepts :
    stringToNumberT .unsignedLong (ascii "-1") 0 = (true, 2 ^ 64 - 1) ∧
      stringToNumberT .unsignedInt (ascii "-18446744073709551615") 0 = (true, 1) ∧
      stringToNumberT .int (ascii "12" ++ 0 :: ascii "abc") 0 = (true, 12) ∧
      (¬ ∃ n, Denotes 0 (ascii "-1") n ∧ IntegerType.unsignedLong.min ≤ n ∧
        n ≤ IntegerType.unsignedLong.max ∧ 2 ^ 64 - 1 = n) ∧
      (¬ ∃ n, Denotes 0 (ascii "-18446744073709551615") n ∧ IntegerType.unsignedInt.min ≤ n ∧
        n ≤ IntegerType.unsignedInt.max ∧ 1 = n) ∧
      ¬ ∃ n, Denotes 0 (ascii "12" ++ 0 :: ascii "abc") n := by
  refine ⟨by decide, by decide, by decide, ?_, ?_, ?_⟩
  · rintro ⟨n, ⟨negative, m, hwritten, hn⟩, -, -, rfl⟩
    rw [hwritten.ne.2.mp (by decide), if_pos rfl] at hn
    omega
  · rintro ⟨n, ⟨negative, m, hwritten, hn⟩, -, -, rfl⟩
    rw [hwritten.ne.2.mp (by decide), if_pos rfl] at hn
    omega
  · rintro ⟨n, negative, m, hwritten, -⟩
    exact hwritten.ne.1 (by decide)

end Toft
