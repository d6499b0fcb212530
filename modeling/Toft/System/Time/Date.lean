import Toft.Base.Fault
import Toft.Lib.Calendar

/-!
# Dates

A `Date` has a 16-bit year and 8-bit unsigned fields for the month and the day; what is assigned to
a field is cut to its width. `DaysInMonth` reads a table by the month, so it must not be called with
a month above 12. The steps `++` and `--` move a valid date by one day (`next_spec`, `prev_spec`).
-/

namespace Toft

open Lib.Calendar Int UInt8

/-- The members of `Date`. -/
structure Date where
  mYear : Int16
  mMonth : UInt8
  mDay : UInt8
  deriving DecidableEq, Repr

namespace Date

def year (date : Date) : Int := date.mYear.toInt

def month (date : Date) : Int := date.mMonth.toNat

def day (date : Date) : Int := date.mDay.toNat

/-! ## The calendar of the class -/

def kDaysInMonth : List Int := [0, 31, 28, 31, 30, 31, 30, 31, 31, 30, 31, 30, 31]

def isLeapYear (year : Int) : Bool :=
  (year.tmod 4 = 0 ∧ year.tmod 100 ≠ 0) ∨ year.tmod 400 = 0

def daysInMonth (year month : Int) : Except Fault Int :=
  if month < 0 then .error .overrun
  else
    match kDaysInMonth[month.toNat]? with
    | none => .error .overrun
    | some days => .ok (if month = 2 ∧ isLeapYear year then days + 1 else days)

def daysInPreviousMonth (year month : Int) : Except Fault Int :=
  if 1 < month then daysInMonth year (month - 1) else daysInMonth (year - 1) 12

def daysInNextMonth (year month : Int) : Except Fault Int :=
  if month < 12 then daysInMonth year (month + 1) else daysInMonth (year + 1) 1

def isValid (year month day : Int) : Except Fault Bool := do
  if month < 1 ∨ 12 < month then return false
  if day < 1 then return false
  let days ← daysInMonth year month
  return day ≤ days

def compare (lhs rhs : Date) : Int :=
  if rhs.year < lhs.year then 1
  else if lhs.year < rhs.year then -1
  else if rhs.month < lhs.month then 1
  else if lhs.month < rhs.month then -1
  else if rhs.day < lhs.day then 1
  else if lhs.day < rhs.day then -1
  else 0

/-! ## Setting and adding -/

def adjustMonthLimit (date : Date) : Except Fault Date :=
  if date.month = 2 ∧ 28 < date.day then do
    let days ← daysInMonth date.year date.month
    return if days < date.day then { date with mDay := .ofInt days } else date
  else .ok date

def setYear (date : Date) (year : Int) : Except Fault (Bool × Date) := do
  let date ← adjustMonthLimit { date with mYear := .ofInt year }
  return (true, date)

/-- `SetMonth` looks at the month that the date has, not at the one that it is given. -/
def setMonth (date : Date) (month : Int) : Except Fault (Bool × Date) := do
  if month ≤ 0 ∨ 12 < date.month then return (false, date)
  let date ← adjustMonthLimit { date with mMonth := .ofInt month }
  return (true, date)

def setDay (date : Date) (day : Int) : Except Fault (Bool × Date) := do
  if day ≤ 0 ∨ 31 < day then return (false, date)
  let days ← daysInMonth date.year date.month
  if days < day then return (false, date)
  return (true, { date with mDay := .ofInt day })

def addYears (date : Date) (years : Int) : Except Fault Date := do
  let (_, date) ← date.setYear (date.year + years)
  return date

/-- The fields behind `m_year += years; m_month += months` with the carry of one year. -/
def carryMonth (date : Date) (years months : Int) : Date :=
  let date := { date with
    mYear := .ofInt (date.year + years)
    mMonth := .ofInt (date.month + months) }
  if 12 < date.month then
    { date with mYear := .ofInt (date.year + 1), mMonth := .ofInt (date.month - 12) }
  else date

/-- The fields behind `m_year -= years; m_month -= months` with the borrow of one year. -/
def borrowMonth (date : Date) (years months : Int) : Date :=
  let date := { date with
    mYear := .ofInt (date.year - years)
    mMonth := .ofInt (date.month - months) }
  if date.month < 1 then
    { date with mYear := .ofInt (date.year - 1), mMonth := .ofInt (date.month + 12) }
  else date

def addMonths (date : Date) (months : Int) : Except Fault Date :=
  if months = 0 then .ok date
  else if 0 < months then (date.carryMonth (months.tdiv 12) (months.tmod 12)).adjustMonthLimit
  else (date.borrowMonth ((-months).tdiv 12) ((-months).tmod 12)).adjustMonthLimit

def nextYear (date : Date) : Except Fault Date := date.addYears 1

def nextMonth (date : Date) : Except Fault Date := date.addMonths 1

/-- The operator `++`. -/
def next (date : Date) : Except Fault Date := do
  let date := { date with mDay := date.mDay + 1 }
  let days ← daysInMonth date.year date.month
  if days < date.day then
    let date := { date with mDay := 1, mMonth := date.mMonth + 1 }
    return if 12 < date.month then { date with mYear := date.mYear + 1, mMonth := 1 } else date
  else return date

/-- The operator `--`. -/
def prev (date : Date) : Except Fault Date := do
  let date := { date with mDay := date.mDay - 1 }
  if date.day = 0 then
    let date := { date with mMonth := date.mMonth - 1 }
    let date :=
      if date.month = 0 then { date with mMonth := 12, mYear := date.mYear - 1 } else date
    let days ← daysInMonth date.year date.month
    return { date with mDay := .ofInt days }
  else return date

/-! ## Distances -/

def daysToNextYear (date : Date) : Int :=
  if 2 < date.month ∨ date.month = 2 ∧ 28 < date.day then
    365 + (isLeapYear (date.year + 1)).toNat
  else 365 + (isLeapYear date.year).toNat

def daysToNextMonth (date : Date) : Except Fault Int := do
  let thisMonthDays ← daysInMonth date.year date.month
  let nextMonthDays ← daysInNextMonth date.year date.month
  return if date.day ≤ nextMonthDays then thisMonthDays
    else nextMonthDays + thisMonthDays - date.day

def daysToPreviousYear (date : Date) : Int :=
  if date.month < 2 ∨ date.month = 2 ∧ date.day < 28 then
    365 + (isLeapYear (date.year - 1)).toNat
  else 365 + (isLeapYear date.year).toNat

def daysToPreviousMonth (date : Date) : Except Fault Int := do
  let prevMonthDays ← daysInPreviousMonth date.year date.month
  return max date.day prevMonthDays

/-! ## The fields as integers -/

theorem toInt_ofInt16 {x : Int} (h : -32768 ≤ x) (h' : x < 32768) : (Int16.ofInt x).toInt = x := by
  rw [Int16.toInt_ofInt]
  exact bmod_eq_of_le (by simpa [Int16.size] using h) (by simpa [Int16.size] using h')

theorem toNat_ofInt (x : Int) : ((ofInt x).toNat : Int) = x % 256 := by
  simp [ofInt]
  omega

theorem toNat_ofInt8 {x : Int} (h : 0 ≤ x) (h' : x < 256) : ((ofInt x).toNat : Int) = x := by
  rw [toNat_ofInt, emod_eq_of_lt h h']

/-- What is assigned to the day is cut to eight bits. -/
theorem withDay_spec (date : Date) (k : Int) : ∃ d : Date, { date with mDay := .ofInt k } = d ∧
    d.year = date.year ∧ d.month = date.month ∧ d.day = k % 256 :=
  ⟨_, rfl, rfl, rfl, toNat_ofInt k⟩

theorem withMonth_spec (date : Date) (y m : Int) :
    ∃ d : Date, { date with mYear := .ofInt y, mMonth := .ofInt m } = d ∧
      (-32768 ≤ y → y < 32768 → d.year = y) ∧ d.month = m % 256 ∧ d.day = date.day :=
  ⟨_, rfl, toInt_ofInt16, toNat_ofInt m, rfl⟩

theorem year_bounds (date : Date) : -32768 ≤ date.year ∧ date.year < 32768 :=
  ⟨date.mYear.le_toInt, date.mYear.toInt_lt⟩

theorem month_bounds (date : Date) : 0 ≤ date.month ∧ date.month < 256 :=
  ⟨natCast_nonneg _, by have := date.mMonth.toNat_lt; unfold month; omega⟩

theorem ext_fields {date date' : Date} (hyear : date.year = date'.year)
    (hmonth : date.month = date'.month) (hday : date.day = date'.day) : date = date' := by
  cases date
  cases date'
  have hmonth := UInt8.toNat_inj.mp (ofNat_inj.mp hmonth)
  have hday := UInt8.toNat_inj.mp (ofNat_inj.mp hday)
  have hyear := Int16.toInt_inj.mp hyear
  exact congr (congr (congrArg mk hyear) hmonth) hday

/-- `Compare` orders by year, month and day. -/
theorem compare_pos_iff (lhs rhs : Date) : 0 < compare lhs rhs ↔
    rhs.year < lhs.year ∨ rhs.year = lhs.year ∧
      (rhs.month < lhs.month ∨ rhs.month = lhs.month ∧ rhs.day < lhs.day) := by
  unfold compare
  grind

theorem compare_neg_iff (lhs rhs : Date) : compare lhs rhs < 0 ↔
    lhs.year < rhs.year ∨ lhs.year = rhs.year ∧
      (lhs.month < rhs.month ∨ lhs.month = rhs.month ∧ lhs.day < rhs.day) := by
  unfold compare
  grind

/-! ## The calendar -/

theorem isLeapYear_iff (year : Int) : isLeapYear year = true ↔ IsLeap year := by
  have h (n : Int) : year.tmod n = 0 ↔ year % n = 0 :=
    dvd_iff_tmod_eq_zero.symm.trans dvd_iff_emod_eq_zero
  simp only [isLeapYear, IsLeap, decide_eq_true_eq, ne_eq, h]
  omega

theorem isLeapYear_toNat (year : Int) : ((isLeapYear year).toNat : Int) = leapDay year := by
  have hleap := isLeapYear_iff year
  rcases leapDay_cases year with ⟨h, heq⟩ | ⟨h, heq⟩
  · rw [heq, hleap.mpr h]
    rfl
  · rw [heq, Bool.eq_false_iff.mpr (mt hleap.mp h)]
    rfl

theorem daysInMonth_eq (year : Int) {month : Int} (h : 1 ≤ month) (h' : month ≤ 12) :
    daysInMonth year month = .ok (monthLength year month) := by
  by_cases hfebruary : month = 2
  · subst hfebruary
    have hleap := isLeapYear_iff year
    rcases leapDay_cases year with ⟨hyes, hone⟩ | ⟨hno, hzero⟩
    · simp [daysInMonth, kDaysInMonth, monthLength, hleap.mpr hyes, hone]
    · simp [daysInMonth, kDaysInMonth, monthLength, Bool.eq_false_iff.mpr (mt hleap.mp hno), hzero]
  · interval_cases month <;> first | rfl | exact absurd rfl hfebruary

theorem daysInNextMonth_eq (year : Int) {month : Int} (h : 1 ≤ month) (h' : month ≤ 12) :
    daysInNextMonth year month =
      .ok (if month < 12 then monthLength year (month + 1) else 31) := by
  unfold daysInNextMonth
  split
  · rw [daysInMonth_eq _ (by omega) (by omega)]
  · rw [daysInMonth_eq _ (by omega) (by omega)]
    rfl

theorem daysInPreviousMonth_eq (year : Int) {month : Int} (h : 1 ≤ month) (h' : month ≤ 12) :
    daysInPreviousMonth year month =
      .ok (if 1 < month then monthLength year (month - 1) else 31) := by
  unfold daysInPreviousMonth
  split
  · rw [daysInMonth_eq _ (by omega) (by omega)]
  · rw [daysInMonth_eq _ (by omega) (by omega)]
    rfl

def Valid (date : Date) : Prop := IsDate date.year date.month date.day

instance (date : Date) : Decidable date.Valid := inferInstanceAs (Decidable (IsDate _ _ _))

theorem isValid_iff (year month day : Int) :
    isValid year month day = .ok true ↔ IsDate year month day := by
  unfold isValid
  by_cases hmonth : month < 1 ∨ 12 < month
  · refine ⟨fun h => ?_, fun h => ?_⟩
    · simp [hmonth] at h
    · exact absurd hmonth (by have := h.month_pos; have := h.month_le; omega)
  · rw [daysInMonth_eq year (by omega) (by omega)]
    by_cases hday : day < 1
    · refine ⟨fun h => ?_, fun h => ?_⟩
      · simp [hmonth, hday] at h
      · exact absurd hday (by have := h.day_pos; omega)
    · simp only [if_neg hmonth, if_neg hday, ok_bind, pure_eq_ok, Except.ok.injEq,
        decide_eq_true_eq]
      exact ⟨fun h => ⟨by omega, by omega, by omega, h⟩, fun h => h.day_le⟩

/-- The day number of a date; the day may be beyond the end of the month. -/
def number (date : Date) : Int := dayNumber date.year date.month date.day

theorem Valid.ext {date date' : Date} (h : date.Valid) (h' : date'.Valid)
    (heq : date.number = date'.number) : date = date' := by
  obtain ⟨hyear, hmonth, hday⟩ := IsDate.ext h h' heq
  exact ext_fields hyear hmonth hday

/-! ## Steps of one day -/

def firstNumber : Int := dayNumber (-32768) 1 1

def lastNumber : Int := dayNumber 32767 12 31

variable {date : Date}

theorem Valid.number_le (h : date.Valid) : date.number ≤ lastNumber := by
  have hlast : IsDate 32767 12 31 := by decide
  have hyear := date.year_bounds
  have hlength := monthLength_le date.year date.month
  have hlt := (dayNumber_lt_iff hlast h).mp
  have := h.month_le
  have := h.day_le
  unfold number lastNumber
  omega

theorem toNat_add_one8 {x : UInt8} (h : (x.toNat : Int) < 255) :
    ((x + 1).toNat : Int) = x.toNat + 1 := by
  rw [UInt8.toNat_add, UInt8.toNat_one]
  omega

theorem toNat_sub_one8 {x : UInt8} (h : 1 ≤ (x.toNat : Int)) :
    ((x - 1).toNat : Int) = x.toNat - 1 := by
  have := x.toNat_lt
  rw [UInt8.toNat_sub, UInt8.toNat_one]
  omega

theorem toInt_add_one16 {x : Int16} (h : x.toInt < 32767) : (x + 1).toInt = x.toInt + 1 := by
  have := x.le_toInt
  rw [Int16.toInt_add]
  exact bmod_eq_of_le (by simp; omega) (by simp; omega)

theorem toInt_sub_one16 {x : Int16} (h : -32768 < x.toInt) : (x - 1).toInt = x.toInt - 1 := by
  have := x.toInt_lt
  rw [Int16.toInt_sub]
  exact bmod_eq_of_le (by simp; omega) (by simp; omega)

theorem next_spec (h : date.Valid) (hlast : date.number < lastNumber) :
    ∃ date', date.next = .ok date' ∧ date'.Valid ∧ date'.number = date.number + 1 := by
  obtain ⟨hmonth, hmonth', hday, hday'⟩ := h
  have hlength := monthLength_le date.year date.month
  obtain ⟨y, m, d⟩ := date
  simp only [number, year, month, day, Valid] at *
  have hd := toNat_add_one8 (x := d) (by omega)
  have hm := toNat_add_one8 (x := m) (by omega)
  have hone : ((1 : UInt8).toNat : Int) = 1 := rfl
  simp only [next, year, month, day, daysInMonth_eq _ hmonth hmonth', ok_bind, pure_eq_ok, hd, hm]
  split
  · rename_i hend
    split
    · -- behind the last day of the year
      have hm12 : (m.toNat : Int) = 12 := by omega
      have hdecember : monthLength y.toInt 12 = 31 := rfl
      rw [hm12] at hday' hlast hend ⊢
      have hy : y.toInt < 32767 := by
        by_contra hnot
        have := y.toInt_lt
        rw [show y.toInt = 32767 by omega, show (d.toNat : Int) = 31 by omega] at hlast
        exact lt_irrefl _ hlast
      have hnext := daysBefore_next_year y.toInt
      refine ⟨_, rfl, ?_, ?_⟩
      · simp only [hone]
        have := le_monthLength (y + 1).toInt 1
        exact ⟨by omega, by omega, by omega, by omega⟩
      · simp only [hone, toInt_add_one16 hy, dayNumber]
        omega
    · have hnext := @daysBefore_next_month y.toInt _ hmonth (by omega)
      refine ⟨_, rfl, ?_, ?_⟩
      · simp only [hone, hm]
        have := le_monthLength y.toInt (m.toNat + 1)
        exact ⟨by omega, by omega, by omega, by omega⟩
      · simp only [hone, hm, dayNumber]
        omega
  · refine ⟨_, rfl, ?_, ?_⟩
    · simp only [hd]
      exact ⟨hmonth, hmonth', by omega, by omega⟩
    · simp only [hd, dayNumber]
      omega

theorem prev_spec (h : date.Valid) (hfirst : firstNumber < date.number) :
    ∃ date', date.prev = .ok date' ∧ date'.Valid ∧ date'.number = date.number - 1 := by
  obtain ⟨hmonth, hmonth', hday, hday'⟩ := h
  obtain ⟨y, m, d⟩ := date
  simp only [number, year, month, day, Valid] at *
  have hd := toNat_sub_one8 (x := d) (by omega)
  have hm := toNat_sub_one8 (x := m) (by omega)
  have htwelve : ((12 : UInt8).toNat : Int) = 12 := rfl
  simp only [prev, year, month, day, pure_eq_ok, hd, hm]
  split
  · by_cases hjanuary : (m.toNat : Int) - 1 = 0
    · -- before the first day of the year
      have hm1 : (m.toNat : Int) = 1 := by omega
      have hy : -32768 < y.toInt := by
        by_contra hnot
        have := y.le_toInt
        rw [show y.toInt = -32768 by omega, hm1, show (d.toNat : Int) = 1 by omega] at hfirst
        exact lt_irrefl _ hfirst
      have hnext := daysBefore_next_year (y.toInt - 1)
      have hdecember : monthLength (y.toInt - 1) 12 = 31 := rfl
      rw [sub_add_cancel] at hnext
      have hlast := toNat_ofInt8 (x := 31) (by omega) (by omega)
      simp only [if_pos hjanuary, htwelve, toInt_sub_one16 hy,
        daysInMonth_eq _ (show (1 : Int) ≤ 12 by omega) (le_refl 12), ok_bind, hdecember]
      refine ⟨_, rfl, ?_, ?_⟩
      · simp only [htwelve, toInt_sub_one16 hy, hlast]
        exact ⟨by omega, by omega, by omega, by omega⟩
      · simp only [htwelve, toInt_sub_one16 hy, hlast, dayNumber, hm1]
        omega
    · have hnext := @daysBefore_next_month y.toInt ((m.toNat : Int) - 1) (by omega) (by omega)
      rw [sub_add_cancel] at hnext
      have hle := le_monthLength y.toInt ((m.toNat : Int) - 1)
      have hlast := toNat_ofInt8 (x := monthLength y.toInt ((m.toNat : Int) - 1)) (by omega)
        (by have := monthLength_le y.toInt ((m.toNat : Int) - 1); omega)
      simp only [if_neg hjanuary, hm, @daysInMonth_eq y.toInt ((m.toNat : Int) - 1)
        (by omega) (by omega), ok_bind]
      refine ⟨_, rfl, ?_, ?_⟩
      · simp only [hm, hlast]
        exact ⟨by omega, by omega, by omega, by omega⟩
      · simp only [hm, hlast, dayNumber]
        omega
  · refine ⟨_, rfl, ?_, ?_⟩
    · simp only [hd]
      exact ⟨hmonth, hmonth', by omega, by omega⟩
    · simp only [hd, dayNumber]
      omega

theorem Valid.firstNumber_le (h : date.Valid) : firstNumber ≤ date.number := by
  have hfirst : IsDate (-32768) 1 1 := by decide
  have hyear := date.year_bounds
  have hlt := (dayNumber_lt_iff h hfirst).mp
  have := h.month_pos
  have := h.day_pos
  unfold number firstNumber
  omega

theorem Valid.compare_iff {date' : Date} (h : date.Valid) (h' : date'.Valid) :
    (0 < compare date date' ↔ date'.number < date.number) ∧
      (compare date date' < 0 ↔ date.number < date'.number) := by
  rw [compare_pos_iff, compare_neg_iff]
  exact ⟨(dayNumber_lt_iff h' h).symm, (dayNumber_lt_iff h h').symm⟩

/-- **Steps of one day.** Inside the range of the years `++` and `--` move by one day and undo each
other, and no valid date lies between a date and what `++` gives. -/
theorem step_exact (h : date.Valid) :
    (date.number < lastNumber → ∃ date', date.next = .ok date' ∧ date'.Valid ∧
      date'.number = date.number + 1 ∧ date'.prev = .ok date ∧ 0 < compare date' date ∧
      ∀ other : Date, other.Valid → 0 < compare other date → 0 ≤ compare other date') ∧
    (firstNumber < date.number → ∃ date', date.prev = .ok date' ∧ date'.Valid ∧
      date'.number = date.number - 1 ∧ date'.next = .ok date) := by
  constructor
  · intro hlast
    obtain ⟨date', hnext, h', hnumber⟩ := next_spec h hlast
    have hfirst := h.firstNumber_le
    obtain ⟨back, hprev, hback, hsame⟩ := prev_spec h' (by omega)
    obtain rfl : back = date := hback.ext h (by omega)
    refine ⟨date', hnext, h', hnumber, hprev, (h'.compare_iff h).1.mpr (by omega), ?_⟩
    intro other hother hgreater
    have hbehind := (hother.compare_iff h).1.mp hgreater
    have hnotBefore := (hother.compare_iff h').2.mp
    omega
  · intro hfirst
    obtain ⟨date', hprev, h', hnumber⟩ := prev_spec h hfirst
    have hlast := h.number_le
    obtain ⟨back, hnext, hback, hsame⟩ := next_spec h' (by omega)
    obtain rfl : back = date := hback.ext h (by omega)
    exact ⟨date', hprev, h', hnumber, hnext⟩

/-- Over the end of a year, and back over the end of a February. -/
theorem step_exact_december :
    (∃ date', next ⟨2012, 12, 31⟩ = .ok date' ∧ date'.Valid ∧ date'.prev = .ok ⟨2012, 12, 31⟩) ∧
    ∃ date', prev ⟨2012, 3, 1⟩ = .ok date' ∧ date'.Valid ∧ date'.next = .ok ⟨2012, 3, 1⟩ := by
  obtain ⟨date, hnext, hvalid, -, hprev, -⟩ :=
    (@step_exact ⟨2012, 12, 31⟩ (by decide)).1 (by decide)
  obtain ⟨date', hprev', hvalid', -, hnext'⟩ := (@step_exact ⟨2012, 3, 1⟩ (by decide)).2 (by decide)
  exact ⟨⟨date, hnext, hvalid, hprev⟩, date', hprev', hvalid', hnext'⟩

def steps (step : Date → Except Fault Date) : Nat → Date → Except Fault Date
  | 0, date => .ok date
  | count + 1, date => do
    let date ← step date
    steps step count date

/-- `n` applications of `++`, or `-n` applications of `--`. -/
def stepDays (date : Date) (n : Int) : Except Fault Date :=
  if 0 ≤ n then steps next n.toNat date else steps prev (-n).toNat date

theorem steps_next_spec (h : date.Valid) (count : Nat) (hlast : date.number + count ≤ lastNumber) :
    ∃ date', steps next count date = .ok date' ∧ date'.Valid ∧
      date'.number = date.number + count := by
  induction count generalizing date with
  | zero => exact ⟨date, rfl, h, (add_zero _).symm⟩
  | succ count ih =>
    obtain ⟨date₁, hnext, hvalid, hnumber⟩ := next_spec h (by omega)
    obtain ⟨date₂, hsteps, hvalid', hnumber'⟩ := ih hvalid (by omega)
    exact ⟨date₂, by rw [steps, hnext, ok_bind, hsteps], hvalid', by omega⟩

theorem steps_prev_spec (h : date.Valid) (count : Nat)
    (hfirst : firstNumber ≤ date.number - count) :
    ∃ date', steps prev count date = .ok date' ∧ date'.Valid ∧
      date'.number = date.number - count := by
  induction count generalizing date with
  | zero => exact ⟨date, rfl, h, (sub_zero _).symm⟩
  | succ count ih =>
    obtain ⟨date₁, hprev, hvalid, hnumber⟩ := prev_spec h (by omega)
    obtain ⟨date₂, hsteps, hvalid', hnumber'⟩ := ih hvalid (by omega)
    exact ⟨date₂, by rw [steps, hprev, ok_bind, hsteps], hvalid', by omega⟩

theorem stepDays_spec (h : date.Valid) {n : Int}
    (hfirst : firstNumber ≤ date.number + n) (hlast : date.number + n ≤ lastNumber) :
    ∃ date', date.stepDays n = .ok date' ∧ date'.Valid ∧ date'.number = date.number + n := by
  unfold stepDays
  split
  · obtain ⟨date', hsteps, hvalid, hnumber⟩ := steps_next_spec h n.toNat (by omega)
    exact ⟨date', hsteps, hvalid, by omega⟩
  · obtain ⟨date', hsteps, hvalid, hnumber⟩ := steps_prev_spec h (-n).toNat (by omega)
    exact ⟨date', hsteps, hvalid, by omega⟩

/-! ## Fields behind setting and adding -/

/-- The day that `AdjustMonthLimit` leaves: only February has a limit. -/
def limitDay (y m d : Int) : Int := if m = 2 then min d (28 + leapDay y) else d

theorem adjustMonthLimit_spec (date : Date) :
    ∃ date', date.adjustMonthLimit = .ok date' ∧ date'.year = date.year ∧
      date'.month = date.month ∧ date'.day = limitDay date.year date.month date.day := by
  have hlow := leapDay_nonneg date.year
  have hhigh := leapDay_le date.year
  unfold adjustMonthLimit limitDay
  by_cases hmonth : date.month = 2
  · by_cases hday : 28 < date.day
    · have hlength : monthLength date.year 2 = 28 + leapDay date.year := rfl
      rw [if_pos ⟨hmonth, hday⟩, hmonth, daysInMonth_eq _ (by omega) (by omega)]
      refine ⟨_, rfl, ?_⟩
      split
      · refine ⟨rfl, hmonth, ?_⟩
        rw [min_eq_right (by omega)]
        exact toNat_ofInt8 (by omega) (by omega)
      · exact ⟨rfl, hmonth, by omega⟩
    · rw [if_neg (by omega)]
      exact ⟨date, rfl, rfl, rfl, by omega⟩
  · rw [if_neg (by omega), if_neg hmonth]
    exact ⟨date, rfl, rfl, rfl, rfl⟩

theorem setYear_spec (date : Date) {y : Int} (h : -32768 ≤ y) (h' : y < 32768) :
    ∃ date', date.setYear y = .ok (true, date') ∧ date'.year = y ∧ date'.month = date.month ∧
      date'.day = limitDay y date.month date.day := by
  obtain ⟨date', hadjust, hyear, hmonth, hday⟩ :=
    adjustMonthLimit_spec { date with mYear := .ofInt y }
  have hy : year { date with mYear := .ofInt y } = y := toInt_ofInt16 h h'
  rw [hy] at hyear hday
  exact ⟨date', by rw [setYear, hadjust]; rfl, hyear, hmonth, hday⟩

theorem addYears_spec (date : Date) {years : Int} (h : -32768 ≤ date.year + years)
    (h' : date.year + years < 32768) :
    ∃ date', date.addYears years = .ok date' ∧ date'.year = date.year + years ∧
      date'.month = date.month ∧
      date'.day = limitDay (date.year + years) date.month date.day := by
  obtain ⟨date', hset, hfields⟩ := date.setYear_spec h h'
  exact ⟨date', by rw [addYears, hset]; rfl, hfields⟩

theorem carryMonth_spec {k r : Int} (hmonth : 0 ≤ date.month + r)
    (hmonth' : date.month + r < 256) (hyear : -32768 ≤ date.year + k)
    (hyear' : date.year + k + (if 12 < date.month + r then 1 else 0) < 32768) :
    (date.carryMonth k r).year = date.year + k + (if 12 < date.month + r then 1 else 0) ∧
      (date.carryMonth k r).month =
        date.month + r - (if 12 < date.month + r then 12 else 0) ∧
      (date.carryMonth k r).day = date.day := by
  obtain ⟨sum, hsum, hy, hm, hd⟩ := date.withMonth_spec (date.year + k) (date.month + r)
  have hy := hy hyear (by split at hyear' <;> omega)
  rw [emod_eq_of_lt hmonth hmonth'] at hm
  simp only [carryMonth, hsum]
  rw [← hm, ← hy] at hyear' ⊢
  split
  · rename_i hover
    rw [if_pos hover] at hyear'
    exact ⟨toInt_ofInt16 (by omega) hyear', toNat_ofInt8 (by omega) (by omega), rfl⟩
  · exact ⟨by omega, by omega, hd⟩

theorem borrowMonth_spec {k r : Int} (hmonth : 0 ≤ date.month - r)
    (hmonth' : date.month - r < 244) (hyear : date.year - k < 32768)
    (hyear' : -32768 ≤ date.year - k - (if date.month - r < 1 then 1 else 0)) :
    (date.borrowMonth k r).year = date.year - k - (if date.month - r < 1 then 1 else 0) ∧
      (date.borrowMonth k r).month =
        date.month - r + (if date.month - r < 1 then 12 else 0) ∧
      (date.borrowMonth k r).day = date.day := by
  obtain ⟨diff, hdiff, hy, hm, hd⟩ := date.withMonth_spec (date.year - k) (date.month - r)
  have hy := hy (by split at hyear' <;> omega) hyear
  rw [emod_eq_of_lt hmonth (by omega)] at hm
  simp only [borrowMonth, hdiff]
  rw [← hm, ← hy] at hyear' ⊢
  split
  · rename_i hunder
    rw [if_pos hunder] at hyear'
    exact ⟨toInt_ofInt16 hyear' (by omega), toNat_ofInt8 (by omega) (by omega), rfl⟩
  · exact ⟨by omega, by omega, hd⟩

theorem addMonths_pos_spec (hmonth : 1 ≤ date.month) (hmonth' : date.month ≤ 12)
    {n : Int} (hn : 0 < n) (hyear : date.year + (date.month - 1 + n) / 12 < 32768) :
    ∃ date', date.addMonths n = .ok date' ∧
      date'.year = date.year + (date.month - 1 + n) / 12 ∧
      date'.month = (date.month - 1 + n) % 12 + 1 ∧
      date'.day = limitDay date'.year date'.month date.day := by
  have hbounds := date.year_bounds
  have htdiv : n.tdiv 12 = n / 12 := tdiv_eq_ediv_of_nonneg (by omega)
  have htmod : n.tmod 12 = n % 12 := tmod_eq_emod_of_nonneg (by omega)
  obtain ⟨hy, hm, hd⟩ := @carryMonth_spec date (n / 12) (n % 12) (by omega) (by omega) (by omega)
    (by split <;> omega)
  obtain ⟨date', hadjust, hyear', hmonth', hday'⟩ :=
    adjustMonthLimit_spec (date.carryMonth (n / 12) (n % 12))
  rw [← hyear', ← hmonth', hd] at hday'
  refine ⟨date', ?_, hyear'.trans (hy.trans ?_), hmonth'.trans (hm.trans ?_), hday'⟩
  · rw [addMonths, if_neg (by omega), if_pos hn, htdiv, htmod, hadjust]
  · split <;> omega
  · split <;> omega

/-- `AddMonths` for a negative number of months. The 8-bit month must not wrap: the months beyond
whole years must not be more than the month. -/
theorem addMonths_neg_spec (hmonth : 1 ≤ date.month) (hmonth' : date.month ≤ 12)
    {n : Int} (hn : 0 < n) (hborrow : n % 12 ≤ date.month)
    (hyear : -32768 ≤ date.year + (date.month - 1 - n) / 12) :
    ∃ date', date.addMonths (-n) = .ok date' ∧
      date'.year = date.year + (date.month - 1 - n) / 12 ∧
      date'.month = (date.month - 1 - n) % 12 + 1 ∧
      date'.day = limitDay date'.year date'.month date.day := by
  have hbounds := date.year_bounds
  have htdiv : n.tdiv 12 = n / 12 := tdiv_eq_ediv_of_nonneg (by omega)
  have htmod : n.tmod 12 = n % 12 := tmod_eq_emod_of_nonneg (by omega)
  obtain ⟨hy, hm, hd⟩ := @borrowMonth_spec date (n / 12) (n % 12) (by omega) (by omega) (by omega)
    (by split <;> omega)
  obtain ⟨date', hadjust, hyear', hmonth', hday'⟩ :=
    adjustMonthLimit_spec (date.borrowMonth (n / 12) (n % 12))
  rw [← hyear', ← hmonth', hd] at hday'
  refine ⟨date', ?_, hyear'.trans (hy.trans ?_), hmonth'.trans (hm.trans ?_), hday'⟩
  · rw [addMonths, if_neg (by omega), if_neg (by omega), neg_neg, htdiv, htmod, hadjust]
  · split <;> omega
  · split <;> omega

end Date

end Toft
