import Toft.System.Time.AddDays

/-!
# Subtracting days

The walk of `AddDays` back in time, in closed form. Where the walk by years stops follows from day
numbers (`subYearsLoop_spec`): a step from the 28th of February takes the length of the wrong year.
The walk by months is exact, but from a day 31 every step takes 31 days, and the day is not adjusted
in a month of 30 days; from February on the walk goes on with the last day of it
(`subMonthsLoop_spec`). If more days are left at the end than the day of the month, the 8-bit day
wraps (`subRest_spec`).
-/

namespace Toft.Date

open Lib Lib.Calendar Int

/-! ## Whole years back -/

/-- The day number at which the walk by years back from `date` turns to the year before `y`. From
the 28th of February on a step takes the length of the year that it is in, as from its last day. -/
def turn (date : Date) (y : Int) : Int :=
  if date.month = 2 ∧ 28 ≤ date.day then dayNumber y 12 31 else dayNumber y date.month date.day

/-- The day of the month to which this walk comes in the year `y`. -/
def dayBack (date : Date) (y : Int) : Int :=
  if date.month = 2 ∧ date.day = 29 ∧ y ≠ date.year then 28 else date.day

/-- The walk by years back with `days` days comes to the year `y` with `left` days to go. -/
structure StopsBack (date : Date) (days y left : Int) : Prop where
  nonneg : 0 ≤ left
  lt : date.turn (y - 1) < date.turn y - left
  sum : date.turn y - left = date.turn date.year - days

variable {date : Date}

theorem Valid.turn_eq (h : date.Valid) :
    ∃ m d, (∀ y, IsDate y m d) ∧ ∀ y, date.turn y = dayNumber y m d := by
  unfold turn
  split
  · exact ⟨12, 31, fun _ => ⟨by omega, by omega, by omega, le_refl 31⟩, fun _ => rfl⟩
  · refine ⟨_, _, fun y => ⟨h.month_pos, h.month_le, h.day_pos, ?_⟩, fun _ => rfl⟩
    have hlength := monthLength_cases date.year date.month
    have hlength' := monthLength_cases y date.month
    have hday := h.day_le
    have hleap := leapDay_nonneg y
    omega

theorem Valid.number_le_turn (h : date.Valid) : date.number ≤ date.turn date.year := by
  unfold turn
  split
  · exact (dayNumber_lt_of_month_lt h.month_pos h.day_le (by omega) (by omega) (by omega)).le
  · exact le_refl _

theorem Valid.stopsBack_unique (h : date.Valid) {days y y' left left' : Int}
    (hstops : date.StopsBack days y left) (hstops' : date.StopsBack days y' left') :
    y = y' ∧ left = left' := by
  obtain ⟨m, d, hdate, hturn⟩ := h.turn_eq
  obtain ⟨hleft, hlt, hsum⟩ := hstops
  obtain ⟨hleft', hlt', hsum'⟩ := hstops'
  rw [hturn y] at *
  rw [hturn y', hturn (y' - 1), hturn date.year] at *
  rw [hturn (y - 1)] at hlt
  have hyear := (dayNumber_lt_iff (hdate (y - 1)) (hdate y')).mp (by omega)
  have hyear' := (dayNumber_lt_iff (hdate (y' - 1)) (hdate y)).mp (by omega)
  obtain rfl : y = y' := by omega
  exact ⟨rfl, by omega⟩

/-- What a step back by a year costs. -/
theorem daysToPreviousYear_turn {d : Date} (hmonth : d.month = date.month)
    (hday : 28 ≤ d.day ↔ 28 ≤ date.day) :
    d.daysToPreviousYear = date.turn d.year - date.turn (d.year - 1) := by
  have hyear (m : Int) := daysBefore_add_year (d.year - 1) m
  unfold turn dayNumber
  simp only [sub_add_cancel] at hyear
  rw [daysToPreviousYear_eq]
  by_cases hfebruary : date.month = 2 ∧ 28 ≤ date.day
  · rw [if_pos hfebruary, if_pos hfebruary, hyear 12]
    split <;> omega
  · rw [if_neg hfebruary, if_neg hfebruary, hyear date.month]
    split <;> split <;> omega

theorem Valid.limitDay_dayBack (h : date.Valid) {y : Int} (hy : y ≤ date.year) :
    limitDay (y - 1) date.month (date.dayBack y) = date.dayBack (y - 1) := by
  have hfebruary := h.nearDate.february
  have hsum := leapDay_add_le (y - 1)
  have hlow := leapDay_nonneg (y - 1)
  have hhigh := leapDay_le date.year
  rw [sub_add_cancel] at hsum
  rw [limitDay, dayBack, dayBack]
  by_cases hyear : y = date.year
  · subst hyear
    split <;> split <;> split <;> omega
  · split <;> split <;> split <;> omega

/-- The walk by years back stops as `StopsBack` says. -/
theorem subYearsLoop_spec (h : date.Valid) {n : Int} (hn : 0 ≤ n)
    (hfirst : firstNumber ≤ date.number - n) :
    ∃ d left, date.subYearsLoop n = .ok (d, left) ∧ d.Valid ∧ d.month = date.month ∧
      d.day = date.dayBack d.year ∧ date.StopsBack n d.year left ∧ left ≤ 365 := by
  have hprice {d : Date} (hmonth : d.month = date.month) (hday : d.day = date.dayBack d.year) :
      d.daysToPreviousYear = date.turn d.year - date.turn (d.year - 1) := by
    refine daysToPreviousYear_turn hmonth ?_
    rw [hday, dayBack]
    split <;> omega
  have hstep : Spends (fun d => .ok d.daysToPreviousYear) (addYears · (-1)) fun d left =>
      d.Valid ∧ d.month = date.month ∧ d.day = date.dayBack d.year ∧ d.year ≤ date.year ∧
        0 ≤ left ∧ date.turn d.year - left = date.turn date.year - n := by
    intro d left ⟨hvalid, hmonth, hday, hyear, hleft, hsum⟩
    refine ⟨d.daysToPreviousYear, rfl, ?_, fun hle => ?_⟩
    · have := leapDay_nonneg d.year
      have := leapDay_nonneg (d.year - 1)
      rw [daysToPreviousYear_eq]
      split <;> omega
    · have hcost := hprice hmonth hday
      have hlow : -32768 ≤ d.year + -1 := by
        obtain ⟨m, day, hdate, hturn⟩ := h.turn_eq
        have hnumber := h.number_le_turn
        refine le_year_of_dayNumber (hdate _) ?_
        rw [← hturn, ← sub_eq_add_neg]
        omega
      have hbounds := d.year_bounds
      obtain ⟨d', hadd, hyear', hmonth', hday'⟩ := @addYears_spec d (-1) hlow (by omega)
      refine ⟨d', hadd, ?_, by omega, ?_, by omega, by omega, ?_⟩
      · rw [Valid, hyear', hmonth', hday']
        exact isDate_limitDay _ hvalid
      · rw [hday', hyear', hmonth, hday]
        exact h.limitDay_dayBack hyear
      · rw [hyear', ← sub_eq_add_neg]
        omega
  obtain ⟨d, left, price, hloop, ⟨hvalid, hmonth, hday, -, hleft, hsum⟩, hcost, hlt⟩ :=
    spend_spec .unended hstep (rounds n)
      ⟨h, rfl, by simp [dayBack], le_refl _, hn, rfl⟩ (by unfold rounds; omega)
  cases hcost
  have hcost := hprice hmonth hday
  refine ⟨d, left, hloop, hvalid, hmonth, hday, ⟨hleft, by omega, hsum⟩, ?_⟩
  have := leapDay_le d.year
  have := leapDay_le (d.year - 1)
  rw [daysToPreviousYear_eq] at hlt
  split at hlt <;> omega

/-! ## Whole months back -/

/-- The month before. -/
theorem exists_prevMonth (hm : 1 ≤ date.month) (hm' : date.month ≤ 12) :
    ∃ y m, 1 ≤ m ∧ m ≤ 12 ∧ 12 * y + m = 12 * date.year + date.month - 1 ∧
      monthLength y m = date.prevLength ∧
      daysBefore date.year date.month = daysBefore y m + date.prevLength := by
  unfold prevLength
  split
  · have hbefore := @daysBefore_next_month date.year (date.month - 1) (by omega) (by omega)
    rw [sub_add_cancel] at hbefore
    exact ⟨date.year, date.month - 1, by omega, by omega, by omega, rfl, hbefore⟩
  · have hbefore := daysBefore_next_year (date.year - 1)
    rw [sub_add_cancel] at hbefore
    exact ⟨date.year - 1, 12, by omega, by omega, by omega, rfl,
      by rw [show date.month = 1 by omega]; exact hbefore⟩

theorem prevLength_bounds (date : Date) : 28 ≤ date.prevLength ∧ date.prevLength ≤ 31 := by
  have hle := monthLength_le date.year (date.month - 1)
  have hge := le_monthLength date.year (date.month - 1)
  unfold prevLength
  split <;> omega

/-- A step to the month before. It goes a day less than it costs if it leads from a 31st into a
month of 30 days. -/
theorem addMonths_neg_one (hmonth : 1 ≤ date.month) (hmonth' : date.month ≤ 12)
    (hday : 1 ≤ date.day) (hday' : date.day ≤ 31)
    (hyear : -32768 < date.year ∨ 1 < date.month) :
    ∃ date', date.addMonths (-1) = .ok date' ∧ date'.NearDate ∧
      (¬ (date.day = 31 ∧ date.prevLength = 30) → date'.Valid) ∧
      date'.number = date.number - max date.day date.prevLength +
        (if date.day = 31 ∧ date.prevLength = 30 then 1 else 0) ∧
      12 * date'.year + date'.month = 12 * date.year + date.month - 1 ∧
      date'.day = (if date.month = 3 then min date.day date.prevLength else date.day) := by
  have hbounds := date.year_bounds
  obtain ⟨date', hadd, hy, hm, hd⟩ := addMonths_neg_spec hmonth hmonth' (n := 1) (by omega)
    (by omega) (by omega)
  obtain ⟨y, m, hpos, hle, hindex, hlength, hbefore⟩ := exists_prevMonth hmonth hmonth'
  have hcases := monthLength_cases y m
  have hleap := leapDay_le y
  have hrange := date.prevLength_bounds
  obtain rfl : date'.year = y := by omega
  obtain rfl : date'.month = m := by omega
  have hday'' : date'.day = if date.month = 3 then min date.day date.prevLength
      else date.day := by
    rw [hd, limitDay]
    split <;> split <;> omega
  have hsmall : date'.day ≤ date.day := by
    rw [hday'']
    split <;> omega
  have hpositive : 1 ≤ date'.day := by
    rw [hday'']
    split <;> omega
  have hfits : ¬ (date.day = 31 ∧ date.prevLength = 30) →
      date'.day = min date.day date.prevLength := by
    intro hclear
    rw [hday'']
    split <;> omega
  refine ⟨date', hadd, ⟨hpos, hle, hpositive, by omega, ?_⟩, fun hclear => ?_, ?_, hindex, hday''⟩
  · intro hfebruary
    rw [hday'', if_pos (by omega)]
    omega
  · have := hfits hclear
    exact ⟨hpos, hle, hpositive, by omega⟩
  · rw [number, number, dayNumber, dayNumber, hbefore]
    split
    · rw [hday'', if_neg (by omega)]
      omega
    · rw [hfits ‹_›]
      omega

/-- The year of the February to which one comes from a month by going back. -/
def februaryYear (y m : Int) : Int := if m = 1 then y - 1 else y

/-- The day that the walk by months back keeps from that February on. -/
def dayBehind (y m d : Int) : Int := min d (28 + leapDay (februaryYear y m))

def monthsToFebruary (m : Int) : Int := (m + 10) % 12

/-- The days that the walk takes to that February. From a day 31 every step takes 31 days. -/
def daysToFebruary (y m d : Int) : Int :=
  if d = 31 then 31 * monthsToFebruary m
  else dayNumber y m d - dayNumber (februaryYear y m) 2 (dayBehind y m d)

/-- The walk by months back with `days` days does not step from a 31st into a month of 30 days: not
at once, nor from January or August by way of the month before. -/
def ClearBack (date : Date) (days : Int) : Prop :=
  date.day = 31 →
    (date.month = 5 ∨ date.month = 7 ∨ date.month = 10 ∨ date.month = 12 → days < 31) ∧
    (date.month = 1 ∨ date.month = 8 → days < 62)

instance (date : Date) (days : Int) : Decidable (date.ClearBack days) :=
  inferInstanceAs (Decidable (_ → _))

/-- A date on the walk by months back from `start` with `days` days: before it comes to February,
from a day 31 or from an earlier day, and from then on. -/
inductive MonthsBack (start : Date) (days : Int) (d : Date) (left : Int) : Prop
  | long (k : Int) (pos : 0 ≤ k) (lt : k < monthsToFebruary start.month)
      (index : 12 * d.year + d.month + k = 12 * start.year + start.month)
      (long : start.day = 31) (day : d.day = 31) (sum : left = days - 31 * k)
      (exact : d.number - left = start.number - days ↔
        k = 0 ∨ k = 1 ∧ (start.month = 1 ∨ start.month = 8))
  | short (k : Int) (pos : 0 ≤ k) (lt : k < monthsToFebruary start.month)
      (index : 12 * d.year + d.month + k = 12 * start.year + start.month)
      (short : start.day ≤ 30) (day : d.day = start.day) (valid : d.Valid)
      (sum : d.number - left = start.number - days)
  | behind (valid : d.Valid)
      (index : 12 * d.year + d.month ≤ 12 * februaryYear start.year start.month + 2)
      (day : d.day = dayBehind start.year start.month start.day)
      (pos : 0 ≤ daysToFebruary start.year start.month start.day)
      (le : daysToFebruary start.year start.month start.day ≤ days - left)
      (sum : d.number - left = dayNumber (februaryYear start.year start.month) 2 d.day +
        daysToFebruary start.year start.month start.day - days)
      (exact : d.number - left = start.number - days ↔ (start.day = 31 → start.month = 3))

variable {d : Date} {days left : Int}

theorem Valid.month_of_day (h : date.Valid) (hday : date.day = 31) :
    date.month = 1 ∨ date.month = 3 ∨ date.month = 5 ∨ date.month = 7 ∨ date.month = 8 ∨
      date.month = 10 ∨ date.month = 12 := by
  have hlength := monthLength_cases date.year date.month
  have hhigh := leapDay_le date.year
  have := h.day_le
  have := h.month_le
  have := h.month_pos
  omega

theorem february_index (y : Int) {m : Int} (hm : 1 ≤ m) (hm' : m ≤ 12) :
    12 * februaryYear y m + 2 + monthsToFebruary m = 12 * y + m := by
  unfold februaryYear monthsToFebruary
  split <;> omega

/-- Where the walk is before it comes to February. -/
theorem month_of_index {y m y' m' k : Int} (hm : 1 ≤ m) (hm' : m ≤ 12) (hd : 1 ≤ m') (hd' : m' ≤ 12)
    (hpos : 0 ≤ k) (hlt : k < monthsToFebruary m) (hindex : 12 * y' + m' + k = 12 * y + m) :
    (m' = 3 ↔ k + 1 = monthsToFebruary m) ∧ (m' = 3 → y' = februaryYear y m) ∧
      (3 ≤ m ∧ m' = m - k ∨ m = 1 ∧ k = 0 ∧ m' = 1 ∨ m = 1 ∧ 0 < k ∧ m' = 13 - k) := by
  unfold monthsToFebruary at *
  unfold februaryYear
  split <;> omega

theorem prevLength_eq_thirty_iff (hm : 1 ≤ date.month) (hm' : date.month ≤ 12) :
    date.prevLength = 30 ↔
      date.month = 5 ∨ date.month = 7 ∨ date.month = 10 ∨ date.month = 12 := by
  obtain ⟨y, m, hpos, hle, hindex, hlength, -⟩ := exists_prevMonth hm hm'
  have hcases := monthLength_cases y m
  have hleap := leapDay_le y
  omega

/-- From a day 31, only the first step and a second one from December or July are exact. -/
theorem Valid.exact_iff (h : date.Valid) (h31 : date.day = 31) {k m : Int}
    (hmonth : 3 ≤ date.month ∧ m = date.month - k ∨ date.month = 1 ∧ k = 0 ∧ m = 1 ∨
      date.month = 1 ∧ 0 < k ∧ m = 13 - k) :
    (k = 0 ∨ k = 1 ∧ (date.month = 1 ∨ date.month = 8)) ∧
        ¬ (m = 5 ∨ m = 7 ∨ m = 10 ∨ m = 12) ↔
      k = 0 ∧ (date.month = 1 ∨ date.month = 3 ∨ date.month = 8) := by
  have hcases := h.month_of_day h31
  omega

theorem february_of_march {d' : Date} (hmarch : d.month = 3) (hnear : d'.NearDate)
    (hindex : 12 * d'.year + d'.month = 12 * d.year + d.month - 1)
    (hday : d'.day = (if d.month = 3 then min d.day d.prevLength else d.day)) :
    d'.year = d.year ∧ d'.month = 2 ∧ d'.day = min d.day (28 + leapDay d.year) ∧
      d.prevLength ≤ 29 := by
  have hm := hnear.month_pos
  have hm' := hnear.month_le
  have hleap := leapDay_le d.year
  have hprev : d.prevLength = 28 + leapDay d.year := by
    rw [prevLength, hmarch]
    rfl
  rw [if_pos hmarch, hprev] at hday
  exact ⟨by omega, by omega, hday, by omega⟩

/-- The first date in February. -/
theorem behind_of_february {d' : Date} (hvalid : d'.Valid)
    (hyear : d'.year = februaryYear date.year date.month) (hmonth : d'.month = 2)
    (hday : d'.day = dayBehind date.year date.month date.day)
    (hsum : days - left = daysToFebruary date.year date.month date.day) (hle : left ≤ days)
    (hexact : d'.number - left = date.number - days ↔ (date.day = 31 → date.month = 3)) :
    date.MonthsBack days d' left := by
  refine .behind hvalid (by omega) hday (by omega) hsum.ge ?_ hexact
  rw [number, hyear, hmonth]
  omega

section

variable (hstart : date.Valid) (hnear : d.NearDate) (hyear : -32768 < d.year ∨ 1 < d.month)
  {k : Int} (hpos : 0 ≤ k) (hlt : k < monthsToFebruary date.month)
  (hindex : 12 * d.year + d.month + k = 12 * date.year + date.month)
include hstart hnear hyear hpos hlt hindex

theorem MonthsBack.step_long (hlong : date.day = 31) (hday : d.day = 31)
    (hsum : left = days - 31 * k) (hexact : d.number - left = date.number - days ↔
      k = 0 ∨ k = 1 ∧ (date.month = 1 ∨ date.month = 8))
    (hfar : date.number - days ≤ d.number - left) :
    ∃ d', d.addMonths (-1) = .ok d' ∧ d'.NearDate ∧ date.MonthsBack days d' (left - 31) ∧
      d.number ≤ d'.number + 31 ∧ d'.day ≤ 31 := by
  have hm := hnear.month_pos
  have hm' := hnear.month_le
  obtain ⟨hlast, hfeb, hmonth⟩ :=
    month_of_index hstart.month_pos hstart.month_le hm hm' hpos hlt hindex
  obtain ⟨d', hadd, hnear', hvalid, hnumber, hindex', hday'⟩ :=
    addMonths_neg_one hm hm' (by omega) (by omega) hyear
  have hlength := prevLength_bounds d
  rw [max_eq_left (by omega)] at hnumber
  have hle : d.number ≤ d'.number + 31 := by split at hnumber <;> omega
  refine ⟨d', hadd, hnear', ?_, hle, by split at hday' <;> omega⟩
  have hstep := hstart.exact_iff hlong hmonth
  rw [← prevLength_eq_thirty_iff hm hm', ← hexact] at hstep
  have hexact' : d'.number - (left - 31) = date.number - days ↔
      k = 0 ∧ (date.month = 1 ∨ date.month = 3 ∨ date.month = 8) := by
    rw [← hstep]
    split at hnumber <;> omega
  clear hstep hexact hmonth
  by_cases hmarch : d.month = 3
  · obtain ⟨hyear', hmonth', hday', hprev⟩ := february_of_march hmarch hnear' hindex' hday'
    rw [hfeb hmarch] at hyear' hday'
    refine behind_of_february (hvalid (by omega)) hyear' hmonth' ?_ ?_ (by omega) ?_
    · rw [hday', dayBehind, hday, hlong]
    · rw [daysToFebruary, if_pos hlong]
      omega
    · rw [hexact']
      unfold monthsToFebruary at *
      omega
  · rw [if_neg hmarch] at hday'
    refine .long (k + 1) (by omega) (by omega) (by omega) hlong (by omega) (by omega) ?_
    rw [hexact']
    unfold monthsToFebruary at *
    omega

theorem MonthsBack.step_short (hshort : date.day ≤ 30) (hday : d.day = date.day)
    (hsum : d.number - left = date.number - days) (hle : left ≤ days) :
    ∃ d', d.addMonths (-1) = .ok d' ∧ d'.NearDate ∧
      date.MonthsBack days d' (left - max d.day d.prevLength) ∧
      d.number ≤ d'.number + max d.day d.prevLength ∧ d'.day ≤ d.day := by
  have hm := hnear.month_pos
  have hm' := hnear.month_le
  obtain ⟨hlast, hfeb, -⟩ :=
    month_of_index hstart.month_pos hstart.month_le hm hm' hpos hlt hindex
  obtain ⟨d', hadd, hnear', hvalid, hnumber, hindex', hday'⟩ :=
    addMonths_neg_one hm hm' hnear.day_pos hnear.day_le hyear
  have hlength := prevLength_bounds d
  rw [if_neg (by omega)] at hnumber
  refine ⟨d', hadd, hnear', ?_, by omega, by split at hday' <;> omega⟩
  by_cases hmarch : d.month = 3
  · obtain ⟨hyear', hmonth', hday', hprev⟩ := february_of_march hmarch hnear' hindex' hday'
    rw [hfeb hmarch] at hyear' hday'
    have hbehind : d'.day = dayBehind date.year date.month date.day := by
      rw [hday', dayBehind, hday]
    refine behind_of_february (hvalid (by omega)) hyear' hmonth' hbehind ?_ (by omega)
      (by omega)
    rw [daysToFebruary, if_neg (by omega), ← hbehind, ← hyear']
    have hnumber' : d'.number = dayNumber d'.year 2 d'.day := by
      rw [number, hmonth']
    have hnumber₀ : date.number = dayNumber date.year date.month date.day := rfl
    omega
  · rw [if_neg hmarch] at hday'
    exact .short (k + 1) (by omega) (by omega) (by omega) hshort (by omega) (hvalid (by omega))
      (by omega)

end

theorem MonthsBack.step_behind {f way : Int} (hdays : days ≤ 365) (hnear : d.NearDate)
    (hyear : -32768 < d.year ∨ 1 < d.month) (hpos : 0 ≤ way)
    (hindex : 12 * d.year + d.month ≤ 12 * f + 2) (hday : d.day ≤ 28 + leapDay f)
    (hsum : d.number - left = dayNumber f 2 d.day + way - days)
    (hle : max d.day d.prevLength ≤ left) :
    ∃ d', d.addMonths (-1) = .ok d' ∧ d'.Valid ∧
      d'.number = d.number - max d.day d.prevLength ∧ d'.day = d.day ∧
      12 * d'.year + d'.month = 12 * d.year + d.month - 1 := by
  obtain ⟨d', hadd, -, hvalid, hnumber, hindex', hday'⟩ :=
    addMonths_neg_one hnear.month_pos hnear.month_le hnear.day_pos hnear.day_le hyear
  have hleap := leapDay_le f
  rw [if_neg (by omega)] at hnumber
  refine ⟨d', hadd, hvalid (by omega), by omega, ?_, hindex'⟩
  rw [hday']
  split
  · -- a year before that February there are not enough days left to step to the one before
    rename_i hmarch
    have hfebruary : daysBefore d.year 3 = daysBefore d.year 2 + (28 + leapDay d.year) :=
      @daysBefore_next_month d.year 2 (by omega) (by omega)
    have hanniversary := daysBefore_add_year d.year 2
    have hmono := @yearStart_mono (d.year + 1) f (by omega)
    have hfirst : daysBefore (d.year + 1) 2 ≤ daysBefore f 2 := by
      unfold daysBefore monthStart
      simp only [le_refl, if_true]
      omega
    have hrange := prevLength_bounds d
    rw [number, hmarch] at hsum
    unfold dayNumber at hsum
    rw [if_pos (le_refl 2)] at hanniversary
    omega
  · rfl

/-- The walk by months back stops at a date of this kind. -/
theorem subMonthsLoop_spec (h : date.Valid) {n : Int} (hn : 0 ≤ n) (hn' : n ≤ 365)
    (hfirst : firstNumber ≤ date.number - n ∨ date.day ≤ 28 ∧ firstNumber - 1 ≤ date.number - n) :
    ∃ d left, date.subMonthsLoop n = .ok (d, left) ∧ d.NearDate ∧ 0 ≤ left ∧
      left < max d.day d.prevLength ∧ date.number - n ≤ d.number - left ∧
      date.MonthsBack n d left := by
  have hstep : Spends daysToPreviousMonth (addMonths · (-1)) fun d left =>
      d.NearDate ∧ 0 ≤ left ∧ left ≤ n ∧ d.day ≤ date.day ∧ date.number - n ≤ d.number - left ∧
        date.MonthsBack n d left := by
    intro d left ⟨hnear, hleft, hleft', hday, hfar, hback⟩
    have hpos := hnear.day_pos
    have hday31 := hnear.day_le
    refine ⟨_, hnear.daysToPreviousMonth_eq, by omega, fun hle => ?_⟩
    have hrange := prevLength_bounds d
    have hyear : -32768 < d.year ∨ 1 < d.month := by
      by_contra hnot
      have hbounds := d.year_bounds
      have hmonth := hnear.month_pos
      have hy : d.year = -32768 := by omega
      have hm : d.month = 1 := by omega
      have hprev : d.prevLength = 31 := by rw [prevLength, if_neg (by omega)]
      have hnumber : d.number = firstNumber - 1 + d.day := by
        rw [number, dayNumber, hy, hm, firstNumber, dayNumber]
        omega
      omega
    cases hback with
    | long k hk hlt hindex hlong hday₀ hsum hexact =>
      obtain ⟨d', hadd, hnear', hback, hnumber, hday'⟩ :=
        MonthsBack.step_long h hnear hyear hk hlt hindex hlong hday₀ hsum hexact hfar
      rw [max_eq_left (by omega)] at hle ⊢
      exact ⟨d', hadd, hnear', by omega, by omega, by omega, by omega, by rwa [hday₀]⟩
    | short k hk hlt hindex hshort hday₀ hvalid hsum =>
      obtain ⟨d', hadd, hnear', hback, hnumber, hday'⟩ :=
        MonthsBack.step_short h hnear hyear hk hlt hindex hshort hday₀ hsum hleft'
      exact ⟨d', hadd, hnear', by omega, by omega, by omega, by omega, hback⟩
    | behind hvalid hindex hday₀ hway hspent hsum hexact =>
      obtain ⟨d', hadd, hvalid', hnumber, hday', hindex'⟩ := MonthsBack.step_behind hn' hnear hyear
        hway hindex (by rw [hday₀, dayBehind]; omega) hsum hle
      refine ⟨d', hadd, hvalid'.nearDate, by omega, by omega, by omega, by omega, ?_⟩
      refine .behind hvalid' (by omega) (hday'.trans hday₀) hway (by omega) ?_ ?_
      · rw [hday']
        omega
      · rw [← hexact]
        omega
  have hstart : date.MonthsBack n date n := by
    have hm := h.month_pos
    have hm' := h.month_le
    by_cases hmonth : date.month = 2
    · have hfebruary := h.nearDate.february hmonth
      have hleap := leapDay_le date.year
      have hyear : februaryYear date.year date.month = date.year := if_neg (by omega)
      have hday : dayBehind date.year date.month date.day = date.day := by
        rw [dayBehind, hyear, min_eq_left hfebruary]
      have hway : daysToFebruary date.year date.month date.day = 0 := by
        rw [daysToFebruary, if_neg (by omega), hday, hyear, hmonth]
        omega
      refine .behind h (by omega) hday.symm hway.ge (by omega) ?_ ?_
      · rw [hway, hyear, number, hmonth]
        omega
      · exact iff_of_true rfl (by omega)
    · have hlt : 0 < monthsToFebruary date.month := by
        unfold monthsToFebruary
        omega
      by_cases h31 : date.day = 31
      · exact .long 0 (le_refl _) hlt (by omega) h31 h31 (by omega) (iff_of_true rfl (.inl rfl))
      · have := h.nearDate.day_le
        exact .short 0 (le_refl _) hlt (by omega) (by omega) rfl h rfl
  obtain ⟨d, left, price, hloop, ⟨hnear, hleft, -, -, hfar, hback⟩, hprice, hlt⟩ :=
    spend_spec .unended hstep (rounds n) ⟨h.nearDate, hn, le_refl _, le_refl _, le_refl _, hstart⟩
      (by unfold rounds; omega)
  rw [hnear.daysToPreviousMonth_eq] at hprice
  cases hprice
  exact ⟨d, left, hloop, hnear, hleft, hlt, hfar, hback⟩

theorem MonthsBack.exact_iff (hdate : date.Valid) (h : date.MonthsBack days d left)
    (hleft : 0 ≤ left) (hlt : left < max d.day d.prevLength) :
    d.number - left = date.number - days ↔ date.ClearBack days := by
  unfold ClearBack
  have hrange := prevLength_bounds d
  cases h with
  | long k hk hbound hindex hlong hday hsum hexact =>
    have hmonth := hdate.month_of_day hlong
    rw [hexact]
    unfold monthsToFebruary at hbound
    omega
  | short k hk hbound hindex hshort hday hvalid hsum =>
    exact iff_of_true hsum fun h31 => by omega
  | behind hvalid hindex hday hway hspent hsum hexact =>
    rw [hexact]
    by_cases h31 : date.day = 31
    · have hmonth := hdate.month_of_day h31
      rw [daysToFebruary, if_pos h31, monthsToFebruary] at hspent
      omega
    · exact iff_of_true (fun h => absurd h h31) fun h => absurd h h31

/-! ## The rest of the days, back -/

/-- A step back with the length of the month before as the day leads to its last day. -/
theorem addMonths_neg_one_of_last (hmonth : 1 ≤ date.month)
    (hmonth' : date.month ≤ 12) (hday : date.day = date.prevLength)
    (hyear : -32768 < date.year ∨ 1 < date.month) :
    ∃ date', date.addMonths (-1) = .ok date' ∧ date'.Valid ∧
      date'.number = date.number - date.day := by
  have hlength := date.prevLength_bounds
  obtain ⟨date', hadd, -, hvalid, hnumber, -⟩ :=
    addMonths_neg_one hmonth hmonth' (by omega) (by omega) hyear
  refine ⟨date', hadd, hvalid (by omega), ?_⟩
  omega

/-- What is left of the days is taken from the day of the month. If it is all of the day, the last
day of the month before is right; if it is more, the day wraps. -/
theorem subRest_spec (h : date.NearDate) (hdays : 0 ≤ days)
    (hlt : days < max date.day date.prevLength) :
    ∃ date', date.subRest days = .ok date' ∧
      (days < date.day ∧ date'.year = date.year ∧ date'.month = date.month ∧
          date'.day = date.day - days ∨
        days = date.day ∧ date'.Valid ∧ (date'.number = date.number - days ∨
          date.number - days < firstNumber ∧ date'.year = 32767) ∨
        date.day < days ∧ 31 < date'.day) := by
  obtain ⟨hmonth, hmonth', hday, hday', -⟩ := h
  have hlength := date.prevLength_bounds
  obtain ⟨diff, hdiff, hy, hm, hd⟩ := date.withDay_spec (date.day - days)
  simp only [subRest, hdiff]
  by_cases hzero : days = date.day
  · rw [if_pos (by omega), hy, hm, daysInPreviousMonth_eq _ hmonth hmonth', ok_bind, ← prevLength]
    obtain ⟨last, hlast, hy', hm', hd'⟩ := date.withDay_spec (diff.day + date.prevLength)
    rw [hlast]
    have hprev : last.prevLength = date.prevLength := by rw [prevLength, hy', hm', prevLength]
    by_cases hin : -32768 < date.year ∨ 1 < date.month
    · obtain ⟨date', hadd, hvalid, hnumber⟩ := @addMonths_neg_one_of_last last (by omega) (by omega)
        (by omega) (by omega)
      refine ⟨date', hadd, .inr (.inl ⟨hzero, hvalid, .inl ?_⟩)⟩
      rw [hnumber, number, number, dayNumber, dayNumber, hy', hm']
      omega
    · have hbounds := date.year_bounds
      obtain ⟨date', hadd, hyear, hdecember, hday''⟩ :=
        @addMonths_neg_one_wraps last (by omega) (by omega)
      have hvalid : date'.Valid := by
        have : monthLength date'.year 12 = 31 := rfl
        exact ⟨by omega, by omega, by omega, by rw [hdecember]; omega⟩
      refine ⟨date', hadd, .inr (.inl ⟨hzero, hvalid, .inr ⟨?_, hyear⟩⟩)⟩
      rw [number, dayNumber, firstNumber, dayNumber, show date.year = -32768 by omega,
        show date.month = 1 by omega]
      omega
  · rw [if_neg (by omega)]
    refine ⟨diff, rfl, ?_⟩
    omega

/-! ## The date behind the walk back -/

/-- The day with this number is not behind day `d` of its month, or it is the last one of it. -/
def InReach (d number : Int) : Prop :=
  ∀ y m t, IsDate y m t → dayNumber y m t = number → t ≤ d ∨ t = monthLength y m

/-- The walk by months back from day `d` of a month with `left` days comes to a date from whose day
the rest of the days can be taken. -/
def MonthsKeep (y m d left : Int) : Prop :=
  if daysToFebruary y m d ≤ left then
    InReach (dayBehind y m d)
      (dayNumber (februaryYear y m) 2 (dayBehind y m d) + daysToFebruary y m d - left)
  else if d = 31 then left % 31 = 0 → monthLength y ((m - 1 - left / 31) % 12 + 1) = 31
  else InReach d (dayNumber y m d - left)

theorem inReach_iff (h : d.Valid) (hleft : 0 ≤ left) (hlt : left < max d.day d.prevLength) :
    InReach d.day (d.number - left) ↔ left ≤ d.day := by
  obtain ⟨y, m, hpos, hle, -, hlength, hbefore⟩ := exists_prevMonth h.month_pos h.month_le
  have hday := h.day_le
  have hday' := h.day_pos
  by_cases hin : left < d.day
  · refine iff_of_true (fun Y M t hdate hnumber => .inl ?_) hin.le
    have hdate' : IsDate d.year d.month (d.day - left) :=
      ⟨h.month_pos, h.month_le, by omega, by omega⟩
    have := (hdate.ext hdate' (hnumber.trans (by unfold number dayNumber; omega))).2.2
    omega
  · have hdate' : IsDate y m (d.prevLength + d.day - left) := ⟨hpos, hle, by omega, by omega⟩
    have hnumber' : dayNumber y m (d.prevLength + d.day - left) = d.number - left := by
      rw [number, dayNumber, dayNumber, hbefore]
      omega
    constructor
    · intro hreach
      have := hreach _ _ _ hdate' hnumber'
      omega
    · intro hzero Y M t hdate hnumber
      obtain ⟨rfl, rfl, rfl⟩ := hdate.ext hdate' (hnumber.trans hnumber'.symm)
      omega

/-- Before the walk comes to February, it does not go beyond it. -/
theorem february_lt {k : Int} (h : date.Valid) (hvalid : d.Valid)
    (hlt : k < monthsToFebruary date.month)
    (hindex : 12 * d.year + d.month + k = 12 * date.year + date.month) (hday : d.day = date.day)
    (hleft : left < max d.day d.prevLength) :
    dayNumber (februaryYear date.year date.month) 2 (dayBehind date.year date.month date.day) <
      d.number - left := by
  obtain ⟨y, m, hm, hm', hindex', hlength, hbefore⟩ :=
    exists_prevMonth hvalid.month_pos hvalid.month_le
  have hfebruary := february_index date.year h.month_pos h.month_le
  have hpos := h.day_pos
  have hrange := prevLength_bounds d
  unfold dayBehind
  generalize februaryYear date.year date.month = f at *
  have hleap := leapDay_nonneg f
  have hlast : IsDate f 2 (min date.day (28 + leapDay f)) :=
    ⟨by omega, by omega, by omega, min_le_right _ _⟩
  have hprev : IsDate y m (min d.day d.prevLength) := ⟨hm, hm', by omega, by omega⟩
  have hle : ¬ dayNumber y m (min d.day d.prevLength) <
      dayNumber f 2 (min date.day (28 + leapDay f)) := by
    rw [dayNumber_lt_iff hprev hlast]
    rintro (hyear | ⟨rfl, hmonth | ⟨rfl, hless⟩⟩)
    · omega
    · omega
    · have : monthLength y 2 = 28 + leapDay y := rfl
      omega
  rw [number]
  unfold dayNumber at *
  omega

theorem MonthsBack.keeps_iff (hdate : date.Valid) (h : date.MonthsBack days d left)
    (hnear : d.NearDate) (hleft : 0 ≤ left) (hlt : left < max d.day d.prevLength) :
    MonthsKeep date.year date.month date.day days ↔
      left ≤ d.day ∧ d.day - left ≤ monthLength d.year d.month := by
  unfold MonthsKeep
  have hrange := prevLength_bounds d
  cases h with
  | long k hk hbound hindex hlong hday hsum hexact =>
    have hway : ¬ daysToFebruary date.year date.month date.day ≤ days := by
      rw [daysToFebruary, if_pos hlong]
      omega
    have hdiv : days / 31 = k := by omega
    have hmod : days % 31 = left := by omega
    have hm := hdate.month_pos
    have hm' := hdate.month_le
    have hd := hnear.month_pos
    have hd' := hnear.month_le
    obtain ⟨-, -, hmonth⟩ := month_of_index hm hm' hd hd' hk hbound hindex
    have hsame : (date.month - 1 - k) % 12 + 1 = d.month := by omega
    unfold monthsToFebruary at hbound
    have hlength := monthLength_cases d.year d.month
    have hlength' := monthLength_cases date.year d.month
    rw [if_neg hway, if_pos hlong, hdiv, hmod, hsame]
    omega
  | short k hk hbound hindex hshort hday hvalid hsum =>
    have hway : ¬ daysToFebruary date.year date.month date.day ≤ days := by
      have := february_lt hdate hvalid hbound hindex hday hlt
      rw [daysToFebruary, if_neg (by omega), ← number]
      omega
    rw [if_neg hway, if_neg (by omega), ← number, ← hsum, ← hday, inReach_iff hvalid hleft hlt]
    have := hvalid.day_le
    omega
  | behind hvalid hindex hday hway hspent hsum hexact =>
    rw [if_pos (by omega), ← hday, ← hsum, inReach_iff hvalid hleft hlt]
    have := hvalid.day_le
    omega

/-! ## AddDays back -/

/-- The lengths of the wrong years in the walk by years back even out. -/
def YearsExact (date : Date) (y : Int) : Prop :=
  date.month = 2 → (date.day = 28 → leapDay y = leapDay date.year) ∧
    (date.day = 29 → y = date.year ∨ leapDay y = 0)

/-- The error of the walk by years back. Only a walk on the 28th of February has one. -/
theorem Valid.exists_error (h : date.Valid) (hmonth : d.month = date.month)
    (hday : d.day = date.dayBack d.year) :
    ∃ error, d.number = date.turn d.year - (date.turn date.year - date.number) + error ∧
      -1 ≤ error ∧ error ≤ 1 ∧ (error = 0 ↔ date.YearsExact d.year) ∧
      (error = 0 ∨ d.day ≤ 28) := by
  have hfebruary := h.nearDate.february
  have hlow := leapDay_nonneg d.year
  have hhigh := leapDay_le d.year
  have hhigh' := leapDay_le date.year
  have hlow' := leapDay_nonneg date.year
  unfold dayBack at hday
  unfold turn YearsExact
  rw [number, number, hmonth]
  by_cases hcase : date.month = 2 ∧ 28 ≤ date.day
  · have hwinter (y : Int) : daysBefore y 12 = daysBefore y 2 + 303 + leapDay y := by
      have : monthStart y 12 = 336 - (2 - leapDay y) := rfl
      have : monthStart y 2 = 31 := rfl
      unfold daysBefore
      omega
    have hsame : d.year = date.year → leapDay d.year = leapDay date.year := congrArg leapDay
    rw [if_pos hcase, if_pos hcase, hcase.1]
    unfold dayNumber
    rw [hwinter, hwinter]
    refine ⟨leapDay date.year - leapDay d.year + (d.day - date.day), by omega, ?_⟩
    split at hday
    · exact ⟨by omega, by omega, by omega, by omega⟩
    · exact ⟨by omega, by omega, by omega, by omega⟩
  · rw [if_neg hcase, if_neg hcase, hday, if_neg (by omega)]
    exact ⟨0, by omega, by omega, by omega, iff_of_true rfl (by omega), .inl rfl⟩

theorem number_of_day {date' : Date} {k : Int} (hyear : date'.year = date.year)
    (hmonth : date'.month = date.month) (hday : date'.day = date.day - k) :
    date'.number = date.number - k := by
  rw [number, number, dayNumber, dayNumber, hyear, hmonth, hday]
  omega

/-- **AddDays back.** Where the walk by years stops tells whether the result is valid and, if it is,
whether it is the wanted date. -/
theorem addDays_back_spec (h : date.Valid) {n : Int} (hn : n < 0)
    (hfirst : firstNumber ≤ date.number + n) :
    ∃ y left result, date.StopsBack (-n) y left ∧ date.addDays n = .ok result ∧
      (result.Valid ↔ MonthsKeep y date.month (date.dayBack y) left) ∧
      (result.Valid →
        (result.number = date.number + n ↔ date.YearsExact y ∧ date.ClearBack left)) := by
  obtain ⟨d, left, hyears, hvalid, hmonth, hday, hstops, hleft'⟩ :=
    subYearsLoop_spec h (n := -n) (by omega) (by omega)
  obtain ⟨error, herror, hlow, hhigh, hzero, hsmall⟩ := h.exists_error hmonth hday
  have hleft := hstops.nonneg
  have hsum := hstops.sum
  obtain ⟨d₂, rest, hmonths, hnear, hrest, hlt, hfar, hback⟩ :=
    subMonthsLoop_spec hvalid hleft hleft' (by omega)
  obtain ⟨result, hresult, hcases⟩ := subRest_spec hnear hrest hlt
  have hclear : d.ClearBack left ↔ date.ClearBack left := by
    unfold dayBack at hday
    unfold ClearBack
    rw [hmonth, hday]
    split <;> omega
  have hkeeps := hback.keeps_iff hvalid hnear hrest hlt
  have hexact := hback.exact_iff hvalid hrest hlt
  rw [hclear] at hexact
  rw [hmonth, hday] at hkeeps
  refine ⟨d.year, left, result, hstops, ?_, ?_, fun hvalid' => ?_⟩
  · rw [addDays, if_neg (by omega), if_neg (by omega), hyears]
    simp only [hmonths, ok_bind, hresult]
  · rw [hkeeps]
    have hlength := le_monthLength d₂.year d₂.month
    rcases hcases with ⟨hlt, hy, hm, hd⟩ | ⟨heq, hvalid, -⟩ | ⟨hgt, hlarge⟩
    · rw [Valid, hy, hm, hd]
      exact ⟨fun hdate => ⟨hlt.le, hdate.day_le⟩,
        fun hend => ⟨hnear.month_pos, hnear.month_le, by omega, hend.2⟩⟩
    · exact iff_of_true hvalid ⟨heq.le, by omega⟩
    · refine iff_of_false (fun hvalid => ?_) (by omega)
      have := hvalid.nearDate.day_le
      omega
  · have hiff : d₂.number - rest = date.number + n ↔
        date.YearsExact d.year ∧ date.ClearBack left := by
      rw [← hzero]
      by_cases hno : error = 0
      · rw [and_iff_right hno, ← hexact]
        omega
      · have hclear' : date.ClearBack left := hclear.mp fun h31 => by omega
        have := hexact.mpr hclear'
        omega
    rw [← hiff]
    rcases hcases with ⟨-, hy, hm, hd⟩ | ⟨-, -, hnumber | ⟨hunder, hyear⟩⟩ | ⟨-, hlarge⟩
    · rw [number_of_day hy hm hd]
    · rw [hnumber]
    · -- the result is the last date, and the first one is wanted
      refine iff_of_false (fun hnumber => ?_) (by omega)
      have hzero : result.number = firstNumber := by omega
      have hstart : IsDate (-32768) 1 1 := by decide
      have := (IsDate.ext hvalid' hstart hzero).1
      omega
    · have := hvalid'.nearDate.day_le
      omega

end Toft.Date
