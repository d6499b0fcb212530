import Toft.Base.Split
import Toft.Encoding.Percent

/-!
# Query parameters

`QueryParams::ToString` writes each parameter as its name, an equals sign and the encoded value;
names are not encoded. `Parse` splits at `&` and at the first `=`. Neither byte occurs in an encoded
value, so the parameters come back one by one, but each with the value that the decoder makes of
its encoding (`parse_toString`): the round trip holds exactly if no value has a plus.
-/

namespace Toft

open Lib Lib.Segments PercentEncoding List

/-- A parameter, encoded or not. -/
structure QueryParam where
  name : Bytes
  value : Bytes
  deriving DecidableEq, Repr

abbrev QueryParams := List QueryParam

namespace QueryParams

abbrev ampersand : UInt8 := '&'.toUInt8

abbrev equals : UInt8 := '='.toUInt8

/-- The loop of `Parse` over the pieces; a value that is not decoded ends it. -/
def parseLoop : List Bytes → QueryParams → Bool × QueryParams
  | [], params => (true, params)
  | piece :: pieces, params =>
    match piece.findIdx? (· == equals) with
    | some pos =>
      let (ok, value) := decode (piece.drop (pos + 1))
      let params := params ++ [⟨piece.take pos, value⟩]
      if ok then parseLoop pieces params else (false, params)
    | none => parseLoop pieces (params ++ [⟨piece, []⟩])

def parse (text : Bytes) : Bool × QueryParams := parseLoop (splitString text (ascii "&")) []

/-- `AppendToString` to an empty target. A parameter without name is left out, and so is the
ampersand behind it. -/
def toString : QueryParams → Bytes
  | [] => []
  | param :: params =>
    if param.name.isEmpty then toString params
    else
      param.name ++ ascii "=" ++ encode param.value ++
        (if params.isEmpty then [] else ascii "&") ++ toString params

/-! ## One parameter -/

def piece (param : QueryParam) : Bytes := param.name ++ equals :: encode param.value

/-- A name that splitting leaves as it is. -/
structure PlainName (param : QueryParam) : Prop where
  nonempty : param.name ≠ []
  ampersand : QueryParams.ampersand ∉ param.name
  equals : QueryParams.equals ∉ param.name

variable {param : QueryParam}

theorem PlainName.ampersand_notMem_piece (h : PlainName param) :
    QueryParams.ampersand ∉ piece param := by
  have hvalue : QueryParams.ampersand ∉ encode param.value :=
    notMem_doEncode (by decide) (by decide) (by decide) _
  simp only [piece, mem_append, mem_cons, not_or]
  exact ⟨h.ampersand, by decide, hvalue⟩

def readBack (param : QueryParam) : QueryParam :=
  { param with value := replaceByte '+'.toUInt8 ' '.toUInt8 param.value }

theorem parseLoop_piece (h : PlainName param) (pieces : List Bytes) (params : QueryParams) :
    parseLoop (piece param :: pieces) params = parseLoop pieces (params ++ [readBack param]) := by
  have hfind : (piece param).findIdx? (· == equals) = some param.name.length :=
    findIdx?_sep h.equals _
  have hdrop : (piece param).drop (param.name.length + 1) = encode param.value := by
    simp [piece]
  have htake : (piece param).take param.name.length = param.name := by
    simp [piece]
  rw [parseLoop, hfind]
  simp only [hdrop, htake, decode_encode, if_true]
  rfl

variable {params : QueryParams}

theorem parseLoop_pieces (h : ∀ param ∈ params, PlainName param) (before : QueryParams) :
    parseLoop (params.map piece) before = (true, before ++ params.map readBack) := by
  induction params generalizing before with
  | nil => simp [parseLoop]
  | cons param params ih =>
    obtain ⟨hparam, hparams⟩ := forall_mem_cons.mp h
    rw [map_cons, parseLoop_piece hparam, ih hparams]
    simp

/-! ## The whole text -/

theorem toString_cons (h : param.name ≠ []) (params : QueryParams) :
    toString (param :: params) =
      piece param ++ ((if params.isEmpty then [] else [ampersand]) ++ toString params) := by
  have hequals : ascii "=" = [equals] := rfl
  have hampersand : ascii "&" = [ampersand] := rfl
  rw [toString, if_neg (by simp [h]), hequals, hampersand]
  simp [piece]

theorem toString_eq (h : ∀ p ∈ param :: params, PlainName p) :
    toString (param :: params) = piece param ++ behind ampersand (params.map piece) := by
  induction params generalizing param with
  | nil =>
    rw [toString_cons (h param mem_cons_self).nonempty]
    rfl
  | cons next params ih =>
    obtain ⟨hparam, hparams⟩ := forall_mem_cons.mp h
    rw [toString_cons hparam.nonempty, ih hparams]
    rfl

theorem splitString_toString (h : ∀ param ∈ params, PlainName param) :
    splitString (toString params) (ascii "&") = params.map piece := by
  cases params with
  | nil => rfl
  | cons param params =>
    obtain ⟨hparam, hparams⟩ := forall_mem_cons.mp h
    have hfree : Free ampersand (params.map piece) := by
      intro segment hmem
      obtain ⟨p, hp, rfl⟩ := mem_map.mp hmem
      exact (hparams p hp).ampersand_notMem_piece
    have hcut := cut_append hparam.ampersand_notMem_piece hfree
    refine (splitString_byte ampersand _).trans ?_
    rw [toString_eq h, hcut]
    refine filter_eq_self.mpr fun segment hmem => ?_
    obtain ⟨p, -, rfl⟩ := mem_map.mp (show segment ∈ (param :: params).map piece from hmem)
    simp [piece]

/-- What comes back are the parameters, with spaces for pluses. -/
theorem parse_toString (h : ∀ param ∈ params, PlainName param) :
    parse (toString params) = (true, params.map readBack) := by
  rw [parse, splitString_toString h, parseLoop_pieces h, nil_append]

theorem readBack_eq_iff (param : QueryParam) :
    readBack param = param ↔ '+'.toUInt8 ∉ param.value := by
  rw [← @replaceByte_eq_self_iff _ _ ' '.toUInt8 (by decide)]
  constructor
  · exact fun h => congrArg QueryParam.value h
  · intro h
    rw [readBack, h]

/-- **Query parameters.** The text of parameters is parsed as the parameters exactly if no value
has a plus. -/
theorem parse_toString_eq_iff {params : QueryParams}
    (h : ∀ param ∈ params, param.name ≠ [] ∧ '&'.toUInt8 ∉ param.name ∧ '='.toUInt8 ∉ param.name) :
    parse (toString params) = (true, params) ↔ ∀ param ∈ params, '+'.toUInt8 ∉ param.value := by
  have hplain : ∀ param ∈ params, PlainName param :=
    fun param hmem => ⟨(h param hmem).1, (h param hmem).2.1, (h param hmem).2.2⟩
  rw [parse_toString hplain]
  simp only [Prod.mk.injEq, true_and, map_eq_self_iff, readBack_eq_iff]

/-- Two parameters, with separators in a value. -/
theorem parse_toString_separators :
    parse (toString [⟨ascii "a", ascii "1&2=%"⟩, ⟨ascii "b", []⟩]) =
      (true, [⟨ascii "a", ascii "1&2=%"⟩, ⟨ascii "b", []⟩]) := by
  refine (parse_toString_eq_iff ?_).mpr ?_ <;> decide

/-- A plus comes back as a space. -/
theorem parse_toString_plus :
    parse (toString [⟨ascii "a", ascii "+"⟩]) = (true, [⟨ascii "a", ascii " "⟩]) ∧
      parse (toString [⟨ascii "a", ascii "+"⟩]) ≠ (true, [⟨ascii "a", ascii "+"⟩]) := by
  decide

end QueryParams

end Toft
