import Toft.System.Time.SubDays

/-!
# Sequences of calls on a date

The calls that change a date keep it valid, but for some arguments of `SetMonth`, `AddMonths` and
`AddDays`: a month is taken without a check, a day 31 is kept in a month of 30 days, and what is
subtracted from the 8-bit month or day wraps (`keeps_iff`). A sequence of calls leaves a valid date
behind each call exactly if none of them is of this kind (`calls_stayValid_iff`).
-/

namespace Toft.Date

open Lib Lib.Calendar Int

/-- The calls that change a date. -/
inductive Call where
  | setYear (year : Int)
  | setMonth (month : Int)
  | setDay (day : Int)
  | addYears (years : Int)
  | addMonths (months : Int)
  | addDays (days : Int)
  | next
  | prev
  deriving DecidableEq, Repr

namespace Call

def run (date : Date) : Call → Except Fault Date
  | setYear year => do
    let (_, date) ← date.setYear year
    return date
  | setMonth month => do
    let (_, date) ← date.setMonth month
    return date
  | setDay day => do
    let (_, date) ← date.setDay day
    return date
  | addYears years => date.addYears years
  | addMonths months => date.addMonths months
  | addDays days => date.addDays days
  | next => date.next
  | prev => date.prev

/-- The year that the call asks for is one of the 16-bit field. -/
def YearFits (date : Date) : Call → Prop
  | setYear year => -32768 ≤ year ∧ year < 32768
  | setMonth _ | setDay _ => True
  | addYears years => -32768 ≤ date.year + years ∧ date.year + years < 32768
  | addMonths months =>
    -32768 ≤ date.year + (date.month - 1 + months) / 12 ∧
      date.year + (date.month - 1 + months) / 12 < 32768
  | addDays days => firstNumber ≤ date.number + days ∧ date.number + days ≤ lastNumber
  | next => date.number < lastNumber
  | prev => firstNumber < date.number

/-- The day may stay in the month, since only in February it is adjusted. -/
def DayFits (day month : Int) : Prop :=
  day = 31 → month ≠ 4 ∧ month ≠ 6 ∧ month ≠ 9 ∧ month ≠ 11

instance (day month : Int) : Decidable (DayFits day month) :=
  inferInstanceAs (Decidable (_ → _))

/-- The arguments with which a call keeps a valid date valid. -/
def Keeps (date : Date) : Call → Prop
  | setMonth month =>
    0 < month → 1 ≤ month % 256 ∧ month % 256 ≤ 12 ∧ DayFits date.day (month % 256)
  | addMonths months =>
    (months < 0 → -months % 12 ≤ date.month) ∧
      DayFits date.day ((date.month - 1 + months) % 12 + 1)
  | addDays days =>
    days < 0 → ∀ y left, date.StopsBack (-days) y left →
      MonthsKeep y date.month (date.dayBack y) left
  | setYear _ | setDay _ | addYears _ | next | prev => True

/-! ## One call -/

def GivesValid (date : Date) (call : Call) : Prop :=
  ∃ date', call.run date = .ok date' ∧ date'.Valid

theorem givesValid_iff {date date' : Date} {call : Call} (h : call.run date = .ok date') :
    call.GivesValid date ↔ date'.Valid := by
  constructor
  · rintro ⟨date'', hrun, hvalid⟩
    cases h.symm.trans hrun
    exact hvalid
  · intro hvalid
    exact ⟨date', h, hvalid⟩

theorem isDate_limitDay_iff (y : Int) {m d : Int} (hm : 1 ≤ m) (hm' : m ≤ 12) (hd : 1 ≤ d)
    (hd' : d ≤ 31) : IsDate y m (limitDay y m d) ↔ DayFits d m := by
  have hleap := leapDay_nonneg y
  have hlength := monthLength_cases y m
  unfold limitDay DayFits
  constructor
  · intro h
    have := h.day_le
    split at this <;> omega
  · intro h
    refine ⟨hm, hm', ?_, ?_⟩ <;> split <;> omega

variable {date : Date}

/-- With more months beyond whole years than the month has, the 8-bit month wraps. -/
theorem borrowMonth_wraps (h : date.month ≤ 12) {k r : Int} (hr : date.month < r)
    (hr' : r < 12) : 12 < (date.borrowMonth k r).month := by
  have hbounds := date.month_bounds
  obtain ⟨diff, hdiff, -, hm, -⟩ := date.withMonth_spec (date.year - k) (date.month - r)
  simp only [borrowMonth, hdiff]
  rw [if_neg (by omega)]
  omega

section

variable (h : date.Valid)
include h

theorem setYear_givesValid {year : Int} (hy : -32768 ≤ year)
    (hy' : year < 32768) : (setYear year).GivesValid date := by
  obtain ⟨date', hset, hyear, hmonth, hday⟩ := date.setYear_spec hy hy'
  refine ⟨date', by rw [run, hset]; rfl, ?_⟩
  rw [Valid, hyear, hmonth, hday]
  exact isDate_limitDay year h

theorem addYears_givesValid {years : Int}
    (hy : -32768 ≤ date.year + years) (hy' : date.year + years < 32768) :
    (addYears years).GivesValid date := by
  obtain ⟨date', hset, hyear, hmonth, hday⟩ := date.addYears_spec hy hy'
  refine ⟨date', hset, ?_⟩
  rw [Valid, hyear, hmonth, hday]
  exact isDate_limitDay _ h

theorem setDay_givesValid (day : Int) : (setDay day).GivesValid date := by
  have hlength := daysInMonth_eq date.year h.month_pos h.month_le
  simp only [GivesValid, run, Date.setDay, hlength, ok_bind, pure_eq_ok]
  split
  · exact ⟨date, rfl, h⟩
  · split
    · exact ⟨date, rfl, h⟩
    · refine ⟨_, rfl, h.month_pos, h.month_le, ?_, ?_⟩
      · rw [Date.day, toNat_ofInt8 (by omega) (by omega)]
        omega
      · rw [Date.day, toNat_ofInt8 (by omega) (by omega)]
        exact not_lt.mp ‹_›

theorem setMonth_givesValid_iff (month : Int) :
    (setMonth month).GivesValid date ↔ (setMonth month).Keeps date := by
  have hle := h.month_le
  by_cases hpos : 0 < month
  · obtain ⟨date', hadjust, hyear, hmonth, hday⟩ :=
      adjustMonthLimit_spec { date with mMonth := .ofInt month }
    have hm : Date.month { date with mMonth := .ofInt month } = month % 256 := by
      simp [Date.month, UInt8.ofInt]
      omega
    have hrun : (setMonth month).run date = .ok date' := by
      rw [run, Date.setMonth, if_neg (by omega), hadjust]
      rfl
    rw [givesValid_iff hrun, Valid, hyear, hmonth, hday, hm]
    constructor
    · intro hdate _
      have hm1 := hdate.month_pos
      have hm12 := hdate.month_le
      exact ⟨hm1, hm12, (isDate_limitDay_iff _ hm1 hm12 h.day_pos h.nearDate.day_le).mp hdate⟩
    · intro hkeeps
      obtain ⟨hm1, hm12, hfits⟩ := hkeeps hpos
      exact (isDate_limitDay_iff _ hm1 hm12 h.day_pos h.nearDate.day_le).mpr hfits
  · have hrun : (setMonth month).run date = .ok date := by
      rw [run, Date.setMonth, if_pos (by omega)]
      rfl
    rw [givesValid_iff hrun]
    exact ⟨fun _ hpos' => absurd hpos' hpos, fun _ => h⟩

theorem addMonths_fields {months : Int}
    (hfits : (addMonths months).YearFits date) (hborrow : months < 0 → -months % 12 ≤ date.month) :
    ∃ date', date.addMonths months = .ok date' ∧
      date'.year = date.year + (date.month - 1 + months) / 12 ∧
      date'.month = (date.month - 1 + months) % 12 + 1 ∧
      date'.day = limitDay date'.year date'.month date.day := by
  have hm := h.month_pos
  have hm' := h.month_le
  rcases lt_trichotomy months 0 with hneg | hzero | hpos
  · obtain ⟨date', hadd, hfields⟩ := addMonths_neg_spec hm hm' (show 0 < -months by omega)
      (hborrow hneg) (by rw [Int.sub_neg]; exact hfits.1)
    rw [neg_neg] at hadd
    rw [Int.sub_neg] at hfields
    exact ⟨date', hadd, hfields⟩
  · subst hzero
    refine ⟨date, rfl, by omega, by omega, ?_⟩
    have hday := h.day_le
    have hlength := monthLength_cases date.year date.month
    unfold limitDay
    split <;> omega
  · exact addMonths_pos_spec hm hm' hpos hfits.2

theorem addMonths_givesValid_iff {months : Int} (hfits : (addMonths months).YearFits date) :
    (addMonths months).GivesValid date ↔ (addMonths months).Keeps date := by
  have hm' := h.month_le
  by_cases hborrow : months < 0 → -months % 12 ≤ date.month
  · obtain ⟨date', hadd, hyear, hmonth, hday⟩ := addMonths_fields h hfits hborrow
    rw [givesValid_iff (show (addMonths months).run date = .ok date' from hadd), Valid, hday,
      isDate_limitDay_iff _ (by omega) (by omega) h.day_pos h.nearDate.day_le, hmonth]
    exact ⟨fun hfit => ⟨hborrow, hfit⟩, And.right⟩
  · obtain ⟨hneg, hwrap⟩ := Classical.not_imp.mp hborrow
    obtain ⟨date', hadjust, -, hmonth, -⟩ :=
      adjustMonthLimit_spec (date.borrowMonth (-months / 12) (-months % 12))
    have hwraps := borrowMonth_wraps hm' (k := -months / 12) (r := -months % 12) (by omega)
      (by omega)
    have hrun : (addMonths months).run date = .ok date' := by
      rw [run, Date.addMonths, if_neg (by omega), if_neg (by omega),
        tdiv_eq_ediv_of_nonneg (by omega), tmod_eq_emod_of_nonneg (by omega), hadjust]
    rw [givesValid_iff hrun]
    refine ⟨fun hvalid => ?_, fun hkeeps => absurd hkeeps.1 hborrow⟩
    have := hvalid.month_le
    omega

/-- `AddDays` forward gives a valid date, also where it goes too far. -/
theorem addDays_givesValid_forward {days : Int} (hpos : 0 < days)
    (hlast : date.number + days ≤ lastNumber) : (addDays days).GivesValid date := by
  obtain ⟨result, hrun, hvalid, -⟩ := addDays_forward_spec h hpos hlast
  exact ⟨result, hrun, hvalid⟩

theorem addDays_givesValid_back_iff {days : Int} (hneg : days < 0)
    (hfirst : firstNumber ≤ date.number + days) :
    (addDays days).GivesValid date ↔ (addDays days).Keeps date := by
  obtain ⟨y, left, result, hstops, hrun, hvalid_iff, -⟩ := addDays_back_spec h hneg hfirst
  rw [givesValid_iff (show (addDays days).run date = .ok result from hrun), hvalid_iff]
  refine ⟨fun hkeeps _ y' left' hstops' => ?_, fun hall => hall hneg y left hstops⟩
  obtain ⟨rfl, rfl⟩ := h.stopsBack_unique hstops hstops'
  exact hkeeps

/-- One call on a valid date. -/
theorem keeps_iff {call : Call} (hfits : call.YearFits date) :
    call.GivesValid date ↔ call.Keeps date := by
  cases call with
  | setYear year => exact ⟨fun _ => trivial, fun _ => setYear_givesValid h hfits.1 hfits.2⟩
  | setMonth month => exact setMonth_givesValid_iff h month
  | setDay day => exact ⟨fun _ => trivial, fun _ => setDay_givesValid h day⟩
  | addYears years => exact ⟨fun _ => trivial, fun _ => addYears_givesValid h hfits.1 hfits.2⟩
  | addMonths months => exact addMonths_givesValid_iff h hfits
  | addDays days =>
    rcases lt_trichotomy days 0 with hneg | hzero | hpos
    · exact addDays_givesValid_back_iff h hneg hfits.1
    · subst hzero
      exact ⟨fun _ hneg => absurd hneg (by omega), fun _ => ⟨date, rfl, h⟩⟩
    · exact ⟨fun _ hneg => absurd hneg (by omega),
        fun _ => addDays_givesValid_forward h hpos hfits.2⟩
  | next =>
    obtain ⟨date', hnext, hvalid, -⟩ := next_spec h hfits
    exact ⟨fun _ => trivial, fun _ => ⟨date', hnext, hvalid⟩⟩
  | prev =>
    obtain ⟨date', hprev, hvalid, -⟩ := prev_spec h hfits
    exact ⟨fun _ => trivial, fun _ => ⟨date', hprev, hvalid⟩⟩

end

end Call

/-! ## The month index -/

/-- `AddMonths(n)` moves the month by `n` and the day no further than the month makes it. -/
def MovesMonths (date : Date) (n : Int) : Prop :=
  ∃ date', date.addMonths n = .ok date' ∧
    12 * date'.year + date'.month = 12 * date.year + date.month + n ∧
    date'.day = min date.day (monthLength date'.year date'.month) ∧
    isValid date'.year date'.month date'.day = .ok true

theorem limitDay_eq_min {y m d : Int} (hd : d ≤ 31) (hfits : Call.DayFits d m) :
    limitDay y m d = min d (monthLength y m) := by
  have hlength := monthLength_cases y m
  unfold Call.DayFits at hfits
  unfold limitDay
  split <;> omega

/-- **Adding months.** With a year that fits, `AddMonths(n)` moves a valid date by `n` months
exactly if the months to go back beyond whole years are not more than the month, and the day is not
a 31st that comes to a month of 30 days. -/
theorem addMonths_moves_iff {date : Date} (h : date.Valid) {n : Int}
    (hfits : (Call.addMonths n).YearFits date) :
    date.MovesMonths n ↔ (n < 0 → -n % 12 ≤ date.month) ∧
      Call.DayFits date.day ((date.month - 1 + n) % 12 + 1) := by
  constructor
  · rintro ⟨date', hadd, -, -, hvalid⟩
    exact (Call.addMonths_givesValid_iff h hfits).mp ⟨date', hadd, (isValid_iff _ _ _).mp hvalid⟩
  · rintro ⟨hborrow, hday⟩
    obtain ⟨date', hadd, hy, hm, hd⟩ := Call.addMonths_fields h hfits hborrow
    rw [← hm] at hday
    refine ⟨date', hadd, by omega, hd.trans (limitDay_eq_min h.nearDate.day_le hday), ?_⟩
    rw [isValid_iff, hd]
    exact (Call.isDate_limitDay_iff _ (by omega) (by omega) h.day_pos h.nearDate.day_le).mpr hday

/-- From the last of January 2013: 25 months on the day is cut to the end of February, and a month
back it stays. -/
theorem addMonths_moves_january : MovesMonths ⟨2013, 1, 31⟩ 25 ∧ MovesMonths ⟨2013, 1, 31⟩ (-1) :=
  ⟨(addMonths_moves_iff (by decide) ⟨by decide, by decide⟩).mpr ⟨by decide, by decide⟩,
    (addMonths_moves_iff (by decide) ⟨by decide, by decide⟩).mpr ⟨by decide, by decide⟩⟩

theorem not_isValid_of_eq {r : Except Fault Date} {date date' : Date} (hdate : r = .ok date)
    (hinvalid : ¬ date.Valid) (hdate' : r = .ok date') :
    isValid date'.year date'.month date'.day ≠ .ok true := by
  cases hdate.symm.trans hdate'
  exact fun hvalid => hinvalid ((isValid_iff _ _ _).mp hvalid)

/-- Three months after the last of January is the 31st of April, and two months before January the
month is 255. -/
theorem addMonths_not_moves :
    (addMonths ⟨2013, 1, 31⟩ 3 = .ok ⟨2013, 4, 31⟩ ∧ ¬ MovesMonths ⟨2013, 1, 31⟩ 3) ∧
    (addMonths ⟨2013, 1, 15⟩ (-2) = .ok ⟨2013, 255, 15⟩ ∧ ¬ MovesMonths ⟨2013, 1, 15⟩ (-2)) := by
  refine ⟨⟨by rfl, ?_⟩, by rfl, ?_⟩
  all_goals
    rintro ⟨date', hadd, -, -, hvalid⟩
    exact not_isValid_of_eq (by rfl) (by decide) hadd hvalid

/-! ## Sequences of calls -/

/-- The date behind each of the calls exists, and `IsValid` holds of its fields. -/
def StaysValid : Date → List Call → Prop
  | _, [] => True
  | date, call :: calls =>
    ∃ date', call.run date = .ok date' ∧ isValid date'.year date'.month date'.day = .ok true ∧
      date'.StaysValid calls

/-- `p` holds of each call and the date that it is made on. -/
def EachCall (p : Date → Call → Prop) : Date → List Call → Prop
  | _, [] => True
  | date, call :: calls =>
    p date call ∧ ∀ date', call.run date = .ok date' → date'.EachCall p calls

/-- **Sequences of calls.** From a valid date on, with years that fit, the date is valid behind
every call exactly if each call is made with arguments that keep a date valid. -/
theorem calls_stayValid_iff {date : Date} (h : date.Valid) {calls : List Call}
    (hfits : date.EachCall Call.YearFits calls) :
    date.StaysValid calls ↔ date.EachCall Call.Keeps calls := by
  induction calls generalizing date with
  | nil => exact Iff.rfl
  | cons call calls ih =>
    obtain ⟨hfit, hrest⟩ := hfits
    constructor
    · rintro ⟨date', hrun, hvalid, hstays⟩
      rw [isValid_iff] at hvalid
      refine ⟨(Call.keeps_iff h hfit).mp ⟨date', hrun, hvalid⟩, ?_⟩
      intro date'' hrun'
      cases hrun.symm.trans hrun'
      exact (ih hvalid (hrest date' hrun)).mp hstays
    · rintro ⟨hkeeps, heach⟩
      obtain ⟨date', hrun, hvalid⟩ := (Call.keeps_iff h hfit).mpr hkeeps
      exact ⟨date', hrun, (isValid_iff _ _ _).mpr hvalid,
        (ih hvalid (hrest date' hrun)).mpr (heach date' hrun)⟩

/-- From the last of January: two months on, then a day back. -/
theorem calls_stayValid_2013 : StaysValid ⟨2013, 1, 31⟩ [.addMonths 2, .prev] := by
  have hrun : (Call.addMonths 2).run ⟨2013, 1, 31⟩ = .ok ⟨2013, 3, 31⟩ := by rfl
  have hfits : EachCall Call.YearFits ⟨2013, 1, 31⟩ [.addMonths 2, .prev] := by
    refine ⟨⟨by decide, by decide⟩, ?_⟩
    intro date' hrun'
    cases hrun.symm.trans hrun'
    exact ⟨show firstNumber < number ⟨2013, 3, 31⟩ by decide, fun _ _ => trivial⟩
  refine (calls_stayValid_iff (by decide) hfits).mpr ⟨⟨by decide, by decide⟩, ?_⟩
  intro date' hrun'
  cases hrun.symm.trans hrun'
  exact ⟨trivial, fun _ _ => trivial⟩

/-- A month after the last of March, a month 13, two months before January and ten days before the
fifth of March are no dates. -/
theorem calls_not_stayValid :
    ((Call.addMonths 1).run ⟨2013, 3, 31⟩ = .ok ⟨2013, 4, 31⟩ ∧
      ¬ StaysValid ⟨2013, 3, 31⟩ [.addMonths 1]) ∧
    ((Call.setMonth 13).run ⟨2013, 1, 1⟩ = .ok ⟨2013, 13, 1⟩ ∧
      ¬ StaysValid ⟨2013, 1, 1⟩ [.setMonth 13]) ∧
    ((Call.addMonths (-2)).run ⟨2013, 1, 1⟩ = .ok ⟨2013, 255, 1⟩ ∧
      ¬ StaysValid ⟨2013, 1, 1⟩ [.addMonths (-2)]) ∧
    ((Call.addDays (-10)).run ⟨2013, 3, 5⟩ = .ok ⟨2013, 3, 251⟩ ∧
      ¬ StaysValid ⟨2013, 3, 5⟩ [.addDays (-10)]) := by
  refine ⟨⟨by rfl, ?_⟩, ⟨by rfl, ?_⟩, ⟨by rfl, ?_⟩, by rfl, ?_⟩
  all_goals
    rintro ⟨date', hrun, hvalid, -⟩
    exact not_isValid_of_eq (by rfl) (by decide) hrun hvalid

end Toft.Date
