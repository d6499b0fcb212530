import Toft.Lib.Walk
import Toft.System.Time.Date

/-!
# Adding days

`AddDays` walks by whole years, then by whole months, and takes the rest of the days from the day of
the month. The walk forward keeps the day number of the date plus the days that are left
(`addYearsLoop_spec`), unless it steps by a month from a day 31 into a month of 30 days: the day is
not adjusted there, and the walk goes too far (`addMonthsLoop_spec`).
-/

namespace Toft.Date

open Lib Lib.Calendar

/-! ## The function -/

/-- The rounds that a loop of `AddDays` may take. A day beyond 31 can make the distance to the next
month negative, but only until February. -/
def rounds (days : Int) : Nat := days.toNat + 4096

def addYearsLoop (date : Date) (days : Int) : Except Fault (Date × Int) :=
  spend (fun date => .ok date.daysToNextYear) (addYears · 1) .unended (rounds days) date days

def addMonthsLoop (date : Date) (days : Int) : Except Fault (Date × Int) :=
  spend daysToNextMonth (addMonths · 1) .unended (rounds days) date days

def subYearsLoop (date : Date) (days : Int) : Except Fault (Date × Int) :=
  spend (fun date => .ok date.daysToPreviousYear) (addYears · (-1)) .unended (rounds days) date days

def subMonthsLoop (date : Date) (days : Int) : Except Fault (Date × Int) :=
  spend daysToPreviousMonth (addMonths · (-1)) .unended (rounds days) date days

/-- What `AddDays` does behind its loops with the days that are left to add. -/
def addRest (date : Date) (days : Int) : Except Fault Date := do
  let date := { date with mDay := .ofInt (date.day + days) }
  let days ← daysInMonth date.year date.month
  if days < date.day then addMonths { date with mDay := .ofInt (date.day - days) } 1
  else return date

/-- What `AddDays` does behind its loops with the days that are left to subtract. -/
def subRest (date : Date) (days : Int) : Except Fault Date := do
  let date := { date with mDay := .ofInt (date.day - days) }
  if date.day < 1 then
    let days ← daysInPreviousMonth date.year date.month
    addMonths { date with mDay := .ofInt (date.day + days) } (-1)
  else return date

def addDays (date : Date) (days : Int) : Except Fault Date :=
  if days = 0 then .ok date
  else if 0 < days then do
    let (date, days) ← date.addYearsLoop days
    let (date, days) ← date.addMonthsLoop days
    date.addRest days
  else do
    let (date, days) ← date.subYearsLoop (-days)
    let (date, days) ← date.subMonthsLoop days
    date.subRest days

/-! ## Distances -/

theorem daysToNextYear_eq (date : Date) : date.daysToNextYear =
    365 + if 2 < date.month ∨ date.month = 2 ∧ 28 < date.day then leapDay (date.year + 1)
      else leapDay date.year := by
  unfold daysToNextYear
  split <;> rw [isLeapYear_toNat]

theorem daysToPreviousYear_eq (date : Date) : date.daysToPreviousYear =
    365 + if date.month < 2 ∨ date.month = 2 ∧ date.day < 28 then leapDay (date.year - 1)
      else leapDay date.year := by
  unfold daysToPreviousYear
  split <;> rw [isLeapYear_toNat]

/-- A date on the way of `AddDays`: a date of the calendar or the 31st of a month of 30 days. -/
structure NearDate (date : Date) : Prop where
  month_pos : 1 ≤ date.month
  month_le : date.month ≤ 12
  day_pos : 1 ≤ date.day
  day_le : date.day ≤ 31
  february : date.month = 2 → date.day ≤ 28 + leapDay date.year

variable {date : Date}

theorem Valid.nearDate (h : date.Valid) : date.NearDate where
  month_pos := h.month_pos
  month_le := h.month_le
  day_pos := h.day_pos
  day_le := h.day_le.trans (monthLength_le _ _)
  february := by
    intro hmonth
    have hday := h.day_le
    rw [hmonth] at hday
    exact hday

def nextLength (date : Date) : Int :=
  if date.month < 12 then monthLength date.year (date.month + 1) else 31

def prevLength (date : Date) : Int :=
  if 1 < date.month then monthLength date.year (date.month - 1) else 31

theorem NearDate.daysToNextMonth_eq (h : date.NearDate) : date.daysToNextMonth =
    .ok (if date.day ≤ date.nextLength then monthLength date.year date.month
      else date.nextLength + monthLength date.year date.month - date.day) := by
  rw [daysToNextMonth, daysInMonth_eq _ h.month_pos h.month_le,
    daysInNextMonth_eq _ h.month_pos h.month_le]
  rfl

theorem NearDate.daysToPreviousMonth_eq (h : date.NearDate) :
    date.daysToPreviousMonth = .ok (max date.day date.prevLength) := by
  rw [daysToPreviousMonth, daysInPreviousMonth_eq _ h.month_pos h.month_le]
  rfl

variable {y m d : Int}

theorem year_le_of_dayNumber (hm : 1 ≤ m) (hm' : m ≤ 12) (hd : 1 ≤ d)
    (h : dayNumber y m d ≤ lastNumber) : y < 32768 := by
  by_contra hnot
  have hlast : IsDate 32767 12 31 := by decide
  have := dayNumber_lt_of_year_lt hlast (show 32767 < y by omega) hm hm' hd
  unfold lastNumber at h
  omega

theorem le_year_of_dayNumber (hdate : IsDate y m d)
    (h : firstNumber ≤ dayNumber y m d) : -32768 ≤ y := by
  by_contra hnot
  have := dayNumber_lt_of_year_lt hdate (show y < -32768 by omega) (Int.le_refl 1)
    (show (1 : Int) ≤ 12 by omega) (Int.le_refl 1)
  unfold firstNumber at h
  omega

/-! ## Whole years forward -/

theorem isDate_limitDay (y' : Int) (h : IsDate y m d) : IsDate y' m (limitDay y' m d) := by
  obtain ⟨hm, hm', hd, hd'⟩ := h
  have := leapDay_nonneg y'
  refine ⟨hm, hm', ?_, ?_⟩
  · unfold limitDay
    split <;> omega
  · unfold limitDay
    unfold monthLength at hd' ⊢
    split <;> omega

theorem Valid.anniversary (h : date.Valid) :
    dayNumber (date.year + 1) date.month (limitDay (date.year + 1) date.month date.day) =
      date.number + date.daysToNextYear := by
  have hday := h.nearDate.february
  have hsum := leapDay_add_le date.year
  have hlow' := leapDay_nonneg (date.year + 1)
  rw [daysToNextYear_eq, number, dayNumber, dayNumber, daysBefore_add_year, limitDay]
  split <;> split <;> split <;> omega

theorem Valid.addYears_one (h : date.Valid) (hyear : date.year < 32767) :
    ∃ date', date.addYears 1 = .ok date' ∧ date'.Valid ∧
      date'.number = date.number + date.daysToNextYear ∧ date'.year = date.year + 1 ∧
      date'.month = date.month ∧ date'.day = limitDay (date.year + 1) date.month date.day := by
  have hbounds := date.year_bounds
  obtain ⟨date', hadd, hyear', hmonth', hday'⟩ := @addYears_spec date 1 (by omega) (by omega)
  refine ⟨date', hadd, ?_, ?_, hyear', hmonth', hday'⟩
  · rw [Valid, hyear', hmonth', hday']
    exact isDate_limitDay _ h
  · rw [number, hyear', hmonth', hday', h.anniversary]

theorem Valid.year_lt (h : date.Valid)
    (hle : date.number + date.daysToNextYear ≤ lastNumber) : date.year < 32767 := by
  have hdate := isDate_limitDay (date.year + 1) h
  have hyear := year_le_of_dayNumber hdate.month_pos hdate.month_le hdate.day_pos
    (h.anniversary.trans_le hle)
  omega

theorem addYearsLoop_spec (h : date.Valid) {n : Int} (hn : 0 ≤ n)
    (hlast : date.number + n ≤ lastNumber) :
    ∃ date' left, date.addYearsLoop n = .ok (date', left) ∧ date'.Valid ∧
      date'.number + left = date.number + n ∧ 0 ≤ left ∧ left < date'.daysToNextYear ∧
      date'.month = date.month ∧ (date.month ≠ 2 → date'.day = date.day) := by
  have hstep : Spends (fun d => .ok d.daysToNextYear) (addYears · 1) fun d left =>
      d.Valid ∧ d.number + left = date.number + n ∧ 0 ≤ left ∧ d.month = date.month ∧
        (date.month ≠ 2 → d.day = date.day) := by
    intro d left ⟨hvalid, hsum, hleft, hmonth, hday⟩
    refine ⟨d.daysToNextYear, rfl, ?_, fun hle => ?_⟩
    · have := leapDay_nonneg d.year
      have := leapDay_nonneg (d.year + 1)
      rw [daysToNextYear_eq]
      split <;> omega
    · obtain ⟨d', hadd, hvalid', hnumber', -, hmonth', hday'⟩ :=
        hvalid.addYears_one (hvalid.year_lt (by omega))
      refine ⟨d', hadd, hvalid', by omega, by omega, by omega, fun hne => ?_⟩
      rw [hday', limitDay, if_neg (by omega)]
      exact hday hne
  obtain ⟨date', left, price, hloop, ⟨hvalid, hsum, hleft, hmonth, hday⟩, hprice, hlt⟩ :=
    spend_spec .unended hstep (rounds n) ⟨h, rfl, hn, rfl, fun _ => rfl⟩ (by unfold rounds; omega)
  cases hprice
  exact ⟨date', left, hloop, hvalid, hsum, hleft, hlt, hmonth, hday⟩

/-- Every year has a day 31 in a month in which one has. -/
theorem Valid.isDate_of_day (h : date.Valid) (h31 : date.day = 31) (y : Int) :
    IsDate y date.month 31 := by
  have hcases := monthLength_cases date.year date.month
  have hcases' := monthLength_cases y date.month
  have hleap := leapDay_le date.year
  have := h.day_le
  exact ⟨h.month_pos, h.month_le, by omega, by omega⟩

/-- There is one last anniversary of a day 31 that is not behind a day. -/
theorem Valid.anniversary_unique (h : date.Valid) (h31 : date.day = 31) {y z number : Int}
    (hle : dayNumber y date.month 31 ≤ number) (hlt : number < dayNumber (y + 1) date.month 31)
    (hle' : dayNumber z date.month 31 ≤ number)
    (hlt' : number < dayNumber (z + 1) date.month 31) : y = z := by
  have hdate := h.isDate_of_day h31
  have := (dayNumber_lt_iff (hdate y) (hdate (z + 1))).mp (by omega)
  have := (dayNumber_lt_iff (hdate z) (hdate (y + 1))).mp (by omega)
  omega

/-! ## Whole months forward -/

/-- The day by which a step to the next month goes too far. -/
def slip (date : Date) : Int := if date.day = 31 ∧ date.nextLength = 30 then 1 else 0

theorem nextLength_cases (hmonth' : date.month ≤ 12) :
    date.month < 12 ∧ date.nextLength = monthLength date.year (date.month + 1) ∨
      date.month = 12 ∧ date.nextLength = 31 := by
  unfold nextLength
  split <;> omega

theorem NearDate.addMonths_one (h : date.NearDate) (hyear : date.year < 32767 ∨ date.month < 12) :
    ∃ date' price, date.daysToNextMonth = .ok price ∧ date.addMonths 1 = .ok date' ∧
      date'.NearDate ∧ (date.slip = 0 → date'.Valid) ∧
      date'.number = date.number + price + date.slip ∧
      date'.month = (if date.month < 12 then date.month + 1 else 1) ∧
      date'.day = limitDay date'.year date'.month date.day ∧
      date'.year = (if date.month < 12 then date.year else date.year + 1) := by
  have hprice := h.daysToNextMonth_eq
  obtain ⟨hmonth, hmonth', hday, hday', hfebruary⟩ := h
  have hbounds := date.year_bounds
  obtain ⟨date', hadd, hy, hm, hd⟩ := addMonths_pos_spec hmonth hmonth' (n := 1) (by omega)
    (by omega)
  have hlength := monthLength_cases date.year date.month
  have hlow := leapDay_nonneg date.year
  have hhigh := leapDay_le date.year
  refine ⟨date', _, hprice, hadd, ?_⟩
  simp only [slip, number, dayNumber]
  rcases nextLength_cases hmonth' with ⟨hlt, hnext⟩ | ⟨heq, hnext⟩
  · have hy' : date'.year = date.year := by omega
    have hm' : date'.month = date.month + 1 := by omega
    have hbefore := @daysBefore_next_month date.year date.month hmonth (by omega)
    have hlength' := monthLength_cases date.year (date.month + 1)
    have hday'' : date'.day = if date.month = 1 then min date.day (28 + leapDay date.year)
        else date.day := by
      rw [hd, limitDay, hy']
      split <;> split <;> omega
    have hfeb : date'.month = 2 → date'.day ≤ 28 + leapDay date'.year := by
      rw [hy']
      omega
    refine ⟨⟨by omega, by omega, by omega, by omega, hfeb⟩, fun hslip => ?_, ?_, ?_, ?_, ?_⟩
    · refine ⟨by omega, by omega, by omega, ?_⟩
      rw [hy', hm']
      split at hslip <;> omega
    · rw [hy', hm']
      split <;> split <;> omega
    · rw [hm', if_pos hlt]
    · rw [hd]
    · rw [hy', if_pos hlt]
  · have hy' : date'.year = date.year + 1 := by omega
    have hm' : date'.month = 1 := by omega
    have hbefore := daysBefore_next_year date.year
    have hday'' : date'.day = date.day := by
      rw [hd, hm']
      rfl
    rw [heq] at hlength
    refine ⟨⟨by omega, by omega, by omega, by omega, by omega⟩, fun _ => ?_, ?_, ?_, ?_, ?_⟩
    · have hjanuary : monthLength date'.year 1 = 31 := rfl
      exact ⟨by omega, by omega, by omega, by rw [hm']; omega⟩
    · rw [hy', hm', heq]
      split <;> split <;> omega
    · rw [hm', if_neg (by omega)]
    · rw [hd]
    · rw [hy', if_neg (by omega)]

/-- The walk by months forward with `days` days does not step from a 31st into a month of 30 days:
not at once, nor from July by way of August. -/
def Clear (date : Date) (days : Int) : Prop :=
  date.day = 31 → (date.month = 3 ∨ date.month = 5 ∨ date.month = 8 ∨ date.month = 10 → days < 30) ∧
    (date.month = 7 → days < 61)

theorem slip_cases (hmonth : 1 ≤ date.month) (hmonth' : date.month ≤ 12) :
    (date.day = 31 ∧
      (date.month = 3 ∨ date.month = 5 ∨ date.month = 8 ∨ date.month = 10)) ∧ date.slip = 1 ∨
    ¬ (date.day = 31 ∧
      (date.month = 3 ∨ date.month = 5 ∨ date.month = 8 ∨ date.month = 10)) ∧ date.slip = 0 := by
  have hlength := monthLength_cases date.year (date.month + 1)
  have hhigh := leapDay_le date.year
  unfold slip
  rcases nextLength_cases hmonth' with ⟨hlt, hnext⟩ | ⟨heq, hnext⟩
  · split <;> omega
  · split <;> omega

variable {price : Int}

section

variable (h : date.NearDate) (hprice : date.daysToNextMonth = .ok price)
include h hprice

/-- What a step to the next month costs. -/
theorem NearDate.price_cases :
    date.day ≤ date.nextLength ∧ price = monthLength date.year date.month ∨
      date.nextLength < date.day ∧
        price = date.nextLength + monthLength date.year date.month - date.day := by
  rw [h.daysToNextMonth_eq] at hprice
  cases hprice
  split <;> omega

theorem NearDate.le_price : 28 ≤ price := by
  have hcost := h.price_cases hprice
  have hlength := monthLength_cases date.year date.month
  have hlength' := monthLength_cases date.year (date.month + 1)
  have hlow := leapDay_nonneg date.year
  have hnext := nextLength_cases h.month_le
  have hday := h.day_le
  omega

theorem NearDate.year_lt (hle : date.number + price < lastNumber + date.day) :
    date.year < 32767 ∨ date.month < 12 := by
  by_contra hnot
  have hbounds := date.year_bounds
  have hmonth := h.month_le
  have hy : date.year = 32767 := by omega
  have hm : date.month = 12 := by omega
  have hlength : monthLength 32767 12 = 31 := rfl
  have hnext : date.nextLength = 31 := by
    have := nextLength_cases hmonth
    omega
  have hday := h.day_le
  have hcost := h.price_cases hprice
  simp only [hy, hm, hlength, hnext, number, lastNumber, dayNumber] at *
  omega

end

theorem Valid.price_of_day (h : date.Valid)
    (hprice : date.daysToNextMonth = .ok price) (hday : date.day = 31) :
    (date.month = 1 ∨ date.month = 3 ∨ date.month = 5 ∨ date.month = 7 ∨ date.month = 8 ∨
      date.month = 10 ∨ date.month = 12) ∧
      (date.month = 7 → price = 31) ∧
      (date.month = 3 ∨ date.month = 5 ∨ date.month = 8 ∨ date.month = 10 → price = 30) := by
  have hcost := h.nearDate.price_cases hprice
  have hlength := monthLength_cases date.year date.month
  have hlength' := monthLength_cases date.year (date.month + 1)
  have hhigh := leapDay_le date.year
  have hnext := nextLength_cases h.month_le
  have hle := h.day_le
  have := h.month_pos
  omega

/-- A step that goes too far takes 30 days. -/
theorem NearDate.price_of_slip (h : date.NearDate)
    (hprice : date.daysToNextMonth = .ok price) (hday : date.day = 31)
    (hmonth : date.month = 3 ∨ date.month = 5 ∨ date.month = 8 ∨ date.month = 10) :
    price = 30 := by
  have hlength := monthLength_cases date.year date.month
  have hvalid : date.Valid := ⟨h.month_pos, h.month_le, h.day_pos, by omega⟩
  exact (hvalid.price_of_day hprice hday).2.2 hmonth

theorem not_clear_iff {days : Int} : ¬ date.Clear days ↔ date.day = 31 ∧
    ((date.month = 3 ∨ date.month = 5 ∨ date.month = 8 ∨ date.month = 10) ∧ 30 ≤ days ∨
      date.month = 7 ∧ 61 ≤ days) := by
  unfold Clear
  omega

/-- The walk by months forward is exact if it is clear, and goes too far otherwise. -/
theorem addMonthsLoop_spec (h : date.Valid) {n : Int} (hn : 0 ≤ n) (hn' : n ≤ 366)
    (hlast : date.number + n ≤ lastNumber) :
    ∃ date' left price, date.addMonthsLoop n = .ok (date', left) ∧ date'.NearDate ∧ 0 ≤ left ∧
      date'.daysToNextMonth = .ok price ∧ left < price ∧
      date.number + n ≤ date'.number + left ∧
      (date'.number + left = date.number + n ↔ date.Clear n) := by
  -- `30 * excess + left` does not grow: a step that goes too far takes 30 days
  have hstep : Spends daysToNextMonth (addMonths · 1) fun d left =>
      d.NearDate ∧ 0 ≤ left ∧ 30 * (d.number + left - (date.number + n)) + left ≤ 366 ∧
        (d.Valid ∧ d.number + left = date.number + n ∧ (d.Clear left ↔ date.Clear n) ∨
          28 ≤ d.day ∧ date.number + n < d.number + left ∧ ¬ date.Clear n) := by
    intro d left ⟨hnear, hleft, hbound, hstate⟩
    obtain ⟨price, hprice⟩ : ∃ price, d.daysToNextMonth = .ok price := ⟨_, hnear.daysToNextMonth_eq⟩
    have hpositive := hnear.le_price hprice
    refine ⟨price, hprice, by omega, fun hle => ?_⟩
    have hyear : d.year < 32767 ∨ d.month < 12 := by
      have := hnear.day_pos
      rcases hstate with ⟨-, hsum, -⟩ | ⟨hlarge, hfar, -⟩
      · exact hnear.year_lt hprice (by omega)
      · exact hnear.year_lt hprice (by omega)
    obtain ⟨d', price', hprice', hadd, hnear', hvalid, hnumber, hmonth, hday, -⟩ :=
      hnear.addMonths_one hyear
    cases Except.ok.inj (hprice.symm.trans hprice')
    have hlow := leapDay_nonneg d'.year
    unfold limitDay at hday
    refine ⟨d', hadd, hnear', by omega, ?_⟩
    rcases slip_cases hnear.month_pos hnear.month_le with ⟨⟨h31, hcase⟩, hslip⟩ | ⟨hno, hslip⟩
    · have hcost := hnear.price_of_slip hprice h31 hcase
      refine ⟨by omega, .inr ⟨by split at hday <;> omega, ?_⟩⟩
      rcases hstate with ⟨-, hsum, hclear⟩ | ⟨-, hfar, hnot⟩
      · exact ⟨by omega, mt hclear.mpr (not_clear_iff.mpr ⟨h31, .inl ⟨hcase, by omega⟩⟩)⟩
      · exact ⟨by omega, hnot⟩
    · refine ⟨by omega, ?_⟩
      rcases hstate with ⟨hvalid', hsum, hclear⟩ | ⟨hlarge, hfar, hnot⟩
      · refine .inl ⟨hvalid hslip, by omega, .trans ?_ hclear⟩
        have hle31 := hnear.day_le
        by_cases h31 : d.day = 31
        · have hcost := hvalid'.price_of_day hprice h31
          unfold Clear
          split at hmonth <;> split at hday <;> omega
        · have h31' : d'.day ≠ 31 := by split at hday <;> omega
          exact iff_of_true (fun h => absurd h h31') fun h => absurd h h31
      · exact .inr ⟨by split at hday <;> omega, by omega, hnot⟩
  obtain ⟨date', left, price, hloop, ⟨hnear, hleft, -, hstate⟩, hprice, hlt⟩ :=
    spend_spec .unended hstep (rounds n) ⟨h.nearDate, hn, by omega, .inl ⟨h, rfl, Iff.rfl⟩⟩
      (by unfold rounds; omega)
  refine ⟨date', left, price, hloop, hnear, hleft, hprice, hlt, ?_⟩
  rcases hstate with ⟨hvalid, hsum, hclear⟩ | ⟨-, hfar, hnot⟩
  · refine ⟨hsum.ge, iff_of_true hsum (hclear.mp fun h31 => ?_)⟩
    have hcost := hvalid.price_of_day hprice h31
    omega
  · exact ⟨hfar.le, iff_of_false hfar.ne' hnot⟩

/-! ## The rest of the days, forward -/

/-- Behind the last month comes the first one. -/
theorem addMonths_one_wraps (hyear : date.year = 32767) (hmonth : date.month = 12) :
    ∃ date', date.addMonths 1 = .ok date' ∧ date'.year = -32768 ∧ date'.month = 1 ∧
      date'.day = date.day := by
  obtain ⟨y, m, d⟩ := date
  obtain rfl : y = 32767 := Int16.toInt_inj.mp hyear
  obtain rfl : m = 12 := UInt8.toNat_inj.mp (Int.ofNat_inj.mp hmonth)
  exact adjustMonthLimit_spec ⟨-32768, 1, d⟩

/-- Before the first month comes the last one. -/
theorem addMonths_neg_one_wraps (hyear : date.year = -32768) (hmonth : date.month = 1) :
    ∃ date', date.addMonths (-1) = .ok date' ∧ date'.year = 32767 ∧ date'.month = 12 ∧
      date'.day = date.day := by
  obtain ⟨y, m, d⟩ := date
  obtain rfl : y = -32768 := Int16.toInt_inj.mp hyear
  obtain rfl : m = 1 := UInt8.toNat_inj.mp (Int.ofNat_inj.mp hmonth)
  exact adjustMonthLimit_spec ⟨32767, 12, d⟩

theorem NearDate.rest_le (h : date.NearDate) {price days : Int}
    (hprice : date.daysToNextMonth = .ok price) (hlt : days < price) :
    date.day + days - monthLength date.year date.month < date.nextLength ∧
      date.day + days - monthLength date.year date.month ≤ 30 ∧
      (date.month = 2 → date.day + days - monthLength date.year date.month ≤ 28) := by
  have hcost := h.price_cases hprice
  have hhigh := leapDay_le date.year
  have hday := h.day_le
  have hfebruary := h.february
  omega

/-- A step to the next month with a day that the next month has. -/
theorem addMonths_one_of_le (hmonth : 1 ≤ date.month) (hmonth' : date.month ≤ 12)
    (hday : 1 ≤ date.day) (hday' : date.day ≤ 30)
    (hfebruary : date.month = 2 → date.day ≤ 28 + leapDay date.year)
    (hnext : date.day ≤ date.nextLength) (hyear : date.year < 32767 ∨ date.month < 12) :
    ∃ date', date.addMonths 1 = .ok date' ∧ date'.Valid ∧
      date'.number = date.number + monthLength date.year date.month := by
  have hnear : date.NearDate := ⟨hmonth, hmonth', hday, by omega, hfebruary⟩
  obtain ⟨date', price, hprice, hadd, -, hvalid, hnumber, -⟩ := hnear.addMonths_one hyear
  have hslip : date.slip = 0 := if_neg (by omega)
  rcases hnear.price_cases hprice with ⟨-, hcost⟩ | ⟨hgt, -⟩
  · exact ⟨date', hadd, hvalid hslip, by omega⟩
  · omega

/-- The rest of the days is added exactly, unless it leads out of the last year. -/
theorem addRest_spec (h : date.NearDate) {price days : Int} (hdays : 0 ≤ days)
    (hprice : date.daysToNextMonth = .ok price) (hlt : days < price) :
    ∃ date', date.addRest days = .ok date' ∧ date'.Valid ∧
      (date'.number = date.number + days ∨
        lastNumber < date.number + days ∧ date'.year = -32768 ∧ date'.month = 1) := by
  obtain ⟨hrest, hrest', hfeb⟩ := h.rest_le hprice hlt
  obtain ⟨hmonth, hmonth', hday, hday', hfebruary⟩ := h
  have hlow := leapDay_nonneg date.year
  have hlength := monthLength_le date.year date.month
  obtain ⟨sum, hsum, hy, hm, hd⟩ := date.withDay_spec (date.day + days)
  rw [Int.emod_eq_of_lt (by omega) (by omega)] at hd
  simp only [addRest, hsum]
  rw [hy, hm, daysInMonth_eq _ hmonth hmonth', ok_bind, hd]
  split
  · rename_i hover
    obtain ⟨less, hless, hy', hm', hd'⟩ :=
      date.withDay_spec (date.day + days - monthLength date.year date.month)
    rw [hless]
    have hnext : less.nextLength = date.nextLength := by rw [nextLength, hy', hm', nextLength]
    by_cases hin : date.year < 32767 ∨ date.month < 12
    · obtain ⟨date', hadd, hvalid, hnumber⟩ := @addMonths_one_of_le less (by omega) (by omega)
        (by omega) (by omega) (by rw [hy']; omega) (by omega) (by omega)
      refine ⟨date', hadd, hvalid, .inl ?_⟩
      rw [hnumber, number, number, dayNumber, dayNumber, hy', hm']
      omega
    · have hbounds := date.year_bounds
      obtain ⟨date', hadd, hyear, hjanuary, hday''⟩ :=
        @addMonths_one_wraps less (by omega) (by omega)
      have hvalid : date'.Valid := by
        have : monthLength date'.year 1 = 31 := rfl
        exact ⟨by omega, by omega, by omega, by rw [hjanuary]; omega⟩
      refine ⟨date', hadd, hvalid, .inr ⟨?_, hyear, hjanuary⟩⟩
      have hy32767 : date.year = 32767 := by omega
      have hm12 : date.month = 12 := by omega
      have hdecember : monthLength 32767 12 = 31 := rfl
      rw [hy32767, hm12] at hover
      rw [number, dayNumber, hy32767, hm12, lastNumber, dayNumber]
      omega
  · refine ⟨sum, rfl, ⟨by omega, by omega, by omega, ?_⟩, .inl ?_⟩
    · rw [hy, hm]
      omega
    · rw [number, number, dayNumber, dayNumber, hy, hm]
      omega

/-- From a day 31, the days beyond the last anniversary that is not behind the day with this number
do not lead into a month of 30 days. -/
def ClearUntil (date : Date) (number : Int) : Prop :=
  date.day = 31 → ∀ y, dayNumber y date.month 31 ≤ number →
    number < dayNumber (y + 1) date.month 31 →
    (date.month = 3 ∨ date.month = 5 ∨ date.month = 8 ∨ date.month = 10 →
      number - dayNumber y date.month 31 < 30) ∧
    (date.month = 7 → number - dayNumber y date.month 31 < 61)

theorem Valid.clearUntil_iff {d : Date} (h : date.Valid) (hvalid : d.Valid) {left : Int}
    (hleft : 0 ≤ left) (hlt : left < d.daysToNextYear) (hmonth : d.month = date.month)
    (hday : date.month ≠ 2 → d.day = date.day) :
    date.ClearUntil (d.number + left) ↔ d.Clear left := by
  have hfebruary := h.nearDate.february
  have hleap := leapDay_le date.year
  unfold Clear
  by_cases h31 : date.day = 31
  · have hd31 := (hday (by omega)).trans h31
    have hanniversary := hvalid.anniversary
    have hnumber : d.number = dayNumber d.year date.month 31 := by rw [number, hmonth, hd31]
    rw [limitDay, if_neg (by omega), hd31, hmonth] at hanniversary
    rw [hmonth]
    constructor
    · intro hclear _
      have := hclear h31 d.year (by omega) (by omega)
      omega
    · intro hclear _ y hle hlt'
      rw [h.anniversary_unique h31 hle hlt' (z := d.year) (by omega) (by omega), ← hnumber]
      have := hclear hd31
      omega
  · have hd31 : d.day ≠ 31 := by
      have hfebruary' := hvalid.nearDate.february
      have := leapDay_le d.year
      omega
    exact iff_of_true (fun h => absurd h h31) fun h => absurd h hd31

/-- The result is valid, and it is the wanted date if no step leads from a day 31 into a month of 30
days. -/
theorem addDays_forward_spec (h : date.Valid) {n : Int} (hn : 0 < n)
    (hlast : date.number + n ≤ lastNumber) :
    ∃ result, date.addDays n = .ok result ∧ result.Valid ∧
      (result.number = date.number + n ↔ date.ClearUntil (date.number + n)) := by
  obtain ⟨date₁, left, hyears, hvalid₁, hsum₁, hleft, hlt₁, hmonth₁, hday₁⟩ :=
    addYearsLoop_spec h hn.le hlast
  have hprice := date₁.daysToNextYear_eq
  have hleap := leapDay_le date₁.year
  have hleap' := leapDay_le (date₁.year + 1)
  obtain ⟨date₂, rest, price, hmonths, hnear, hrest, hprice₂, hlt₂, -, hiff⟩ :=
    addMonthsLoop_spec hvalid₁ hleft (by split at hprice <;> omega) (by omega)
  obtain ⟨result, hresult, hvalid, hcases⟩ := addRest_spec hnear hrest hprice₂ hlt₂
  refine ⟨result, ?_, hvalid, ?_⟩
  · rw [addDays, if_neg (by omega), if_pos hn, hyears]
    simp only [hmonths, ok_bind, hresult]
  · rw [← hsum₁, h.clearUntil_iff hvalid₁ hleft hlt₁ hmonth₁ hday₁, ← hiff]
    refine ⟨fun hnumber => ?_, fun hsum => by omega⟩
    rcases hcases with hnumber' | ⟨-, hyear, hmonth⟩
    · omega
    · -- the result is in the first month of the range, and `date₁` is not
      by_contra hnot
      obtain ⟨hday31, hcase⟩ := not_clear_iff.mp (mt hiff.mpr hnot)
      have hlater := (dayNumber_lt_iff hvalid hvalid₁).mpr
      have hbounds := date₁.year_bounds
      unfold number at *
      omega

end Toft.Date
