import Mathlib.Tactic.IntervalCases

/-!
# The proleptic Gregorian calendar

Years, months and days are integers. The day number of a date counts the days from the first day of
year 1 on, which is day 1. It is defined for every day of a month, also beyond the end of the month:
day 31 of April has the number of day 1 of May. On the dates of the calendar the day number is
strictly monotone for the order by year, month and day (`dayNumber_lt_iff`), so a date is known by
its day number (`IsDate.ext`).
-/

namespace Toft.Lib.Calendar

/-- The leap years of the Gregorian calendar. -/
def IsLeap (y : Int) : Prop := y % 4 = 0 ∧ (y % 100 ≠ 0 ∨ y % 400 = 0)

instance (y : Int) : Decidable (IsLeap y) := inferInstanceAs (Decidable (_ ∧ _))

/-- The days that a year has more than 365. -/
def leapDay (y : Int) : Int := if IsLeap y then 1 else 0

/-- The days before the year. -/
def yearStart (y : Int) : Int := 365 * (y - 1) + (y - 1) / 4 - (y - 1) / 100 + (y - 1) / 400

/-- The days of the month. -/
def monthLength (y m : Int) : Int :=
  if m = 2 then 28 + leapDay y else if m = 4 ∨ m = 6 ∨ m = 9 ∨ m = 11 then 30 else 31

/-- The days of the year before the month. -/
def monthStart (y m : Int) : Int :=
  (367 * m - 362) / 12 - if m ≤ 2 then 0 else 2 - leapDay y

/-- The days before the month. -/
def daysBefore (y m : Int) : Int := yearStart y + monthStart y m

/-- The number of the day, counted from the year 1 on. -/
def dayNumber (y m d : Int) : Int := daysBefore y m + d

/-- The month and the day exist. -/
structure IsDate (y m d : Int) : Prop where
  month_pos : 1 ≤ m
  month_le : m ≤ 12
  day_pos : 1 ≤ d
  day_le : d ≤ monthLength y m

instance (y m d : Int) : Decidable (IsDate y m d) :=
  decidable_of_iff (1 ≤ m ∧ m ≤ 12 ∧ 1 ≤ d ∧ d ≤ monthLength y m)
    ⟨fun ⟨h₁, h₂, h₃, h₄⟩ => ⟨h₁, h₂, h₃, h₄⟩, fun ⟨h₁, h₂, h₃, h₄⟩ => ⟨h₁, h₂, h₃, h₄⟩⟩

variable {y y' m m' d d' : Int}

theorem leapDay_cases (y : Int) : IsLeap y ∧ leapDay y = 1 ∨ ¬ IsLeap y ∧ leapDay y = 0 := by
  by_cases h : IsLeap y
  · exact .inl ⟨h, if_pos h⟩
  · exact .inr ⟨h, if_neg h⟩

theorem leapDay_nonneg (y : Int) : 0 ≤ leapDay y := by
  have := leapDay_cases y
  omega

theorem leapDay_le (y : Int) : leapDay y ≤ 1 := by
  have := leapDay_cases y
  omega

theorem leapDay_add_le (y : Int) : leapDay y + leapDay (y + 1) ≤ 1 := by
  have h := leapDay_cases y
  have h' := leapDay_cases (y + 1)
  unfold IsLeap at h h'
  omega

theorem yearStart_succ (y : Int) : yearStart (y + 1) = yearStart y + 365 + leapDay y := by
  have h := leapDay_cases y
  unfold IsLeap at h
  unfold yearStart
  omega

theorem yearStart_mono (h : y ≤ y') : yearStart y ≤ yearStart y' := by
  unfold yearStart
  omega

theorem monthStart_succ (hm : 1 ≤ m) (hm' : m ≤ 12) :
    monthStart y (m + 1) = monthStart y m + monthLength y m := by
  unfold monthStart monthLength
  interval_cases m <;> simp <;> omega

theorem monthStart_one (y : Int) : monthStart y 1 = 0 := rfl

theorem monthStart_thirteen (y : Int) : monthStart y 13 = 365 + leapDay y := by
  have h : monthStart y 13 = 367 - (2 - leapDay y) := rfl
  omega

theorem monthStart_mono (hm : 1 ≤ m) (h : m ≤ m') (hm' : m' ≤ 13) :
    monthStart y m ≤ monthStart y m' := by
  have := leapDay_nonneg y
  unfold monthStart
  split <;> split <;> omega

theorem monthLength_cases (y m : Int) : m = 2 ∧ monthLength y m = 28 + leapDay y ∨
    (m = 4 ∨ m = 6 ∨ m = 9 ∨ m = 11) ∧ monthLength y m = 30 ∨
    (m ≠ 2 ∧ m ≠ 4 ∧ m ≠ 6 ∧ m ≠ 9 ∧ m ≠ 11) ∧ monthLength y m = 31 := by
  unfold monthLength
  split
  · omega
  · split <;> omega

theorem monthLength_le (y m : Int) : monthLength y m ≤ 31 := by
  have := monthLength_cases y m
  have := leapDay_le y
  omega

theorem le_monthLength (y m : Int) : 28 ≤ monthLength y m := by
  have := monthLength_cases y m
  have := leapDay_nonneg y
  omega

/-! ## Day numbers -/

theorem daysBefore_next_month (hm : 1 ≤ m) (hm' : m ≤ 11) :
    daysBefore y (m + 1) = daysBefore y m + monthLength y m := by
  have := monthStart_succ (y := y) hm (by omega)
  unfold daysBefore
  omega

theorem daysBefore_next_year (y : Int) : daysBefore (y + 1) 1 = daysBefore y 12 + 31 := by
  have hyear := yearStart_succ y
  have hmonth : monthStart y 13 = monthStart y 12 + 31 :=
    monthStart_succ (y := y) (m := 12) (by omega) (by omega)
  rw [monthStart_thirteen] at hmonth
  simp only [daysBefore, monthStart_one]
  omega

theorem daysBefore_add_year (y m : Int) : daysBefore (y + 1) m =
    daysBefore y m + 365 + if m ≤ 2 then leapDay y else leapDay (y + 1) := by
  have hyear := yearStart_succ y
  simp only [daysBefore, monthStart]
  split <;> omega

theorem dayNumber_lt_of_day_lt (h : d < d') : dayNumber y m d < dayNumber y m d' := by
  unfold dayNumber
  omega

theorem dayNumber_lt_of_month_lt (hm : 1 ≤ m) (hd : d ≤ monthLength y m) (h : m < m')
    (hm' : m' ≤ 12) (hd' : 1 ≤ d') : dayNumber y m d < dayNumber y m' d' := by
  have hnext := monthStart_succ (y := y) hm (by omega)
  have hmono := @monthStart_mono y (m + 1) m' (by omega) (by omega) (by omega)
  unfold dayNumber daysBefore
  omega

theorem dayNumber_lt_of_year_lt (h : IsDate y m d) (hlt : y < y') (hm' : 1 ≤ m') (hm'' : m' ≤ 12)
    (hd' : 1 ≤ d') : dayNumber y m d < dayNumber y' m' d' := by
  have hnext := yearStart_succ y
  have hmono := @yearStart_mono (y + 1) y' hlt
  have hlast := monthStart_succ (y := y) h.month_pos h.month_le
  have hend := @monthStart_mono y (m + 1) 13 (by have := h.month_pos; omega)
    (by have := h.month_le; omega) (by omega)
  have hstart := @monthStart_mono y' 1 m' (by omega) hm' (by omega)
  have hday := h.day_le
  rw [monthStart_thirteen] at hend
  rw [monthStart_one] at hstart
  unfold dayNumber daysBefore
  omega

section

variable (h : IsDate y m d) (h' : IsDate y' m' d')
include h h'

theorem dayNumber_lt_of_lex (hlt : y < y' ∨ y = y' ∧ (m < m' ∨ m = m' ∧ d < d')) :
    dayNumber y m d < dayNumber y' m' d' := by
  rcases hlt with hlt | ⟨rfl, hlt | ⟨rfl, hlt⟩⟩
  · exact dayNumber_lt_of_year_lt h hlt h'.month_pos h'.month_le h'.day_pos
  · exact dayNumber_lt_of_month_lt h.month_pos h.day_le hlt h'.month_le h'.day_pos
  · exact dayNumber_lt_of_day_lt hlt

/-- Days are numbered in the order of the dates. -/
theorem dayNumber_lt_iff :
    dayNumber y m d < dayNumber y' m' d' ↔ y < y' ∨ y = y' ∧ (m < m' ∨ m = m' ∧ d < d') := by
  refine ⟨fun hlt => ?_, dayNumber_lt_of_lex h h'⟩
  by_contra hnot
  by_cases heq : y = y' ∧ m = m' ∧ d = d'
  · obtain ⟨rfl, rfl, rfl⟩ := heq
    exact Int.lt_irrefl _ hlt
  · have := dayNumber_lt_of_lex h' h (by omega)
    omega

theorem IsDate.ext (heq : dayNumber y m d = dayNumber y' m' d') : y = y' ∧ m = m' ∧ d = d' := by
  have hle := mt (dayNumber_lt_iff h h').mpr (by omega)
  have hge := mt (dayNumber_lt_iff h' h).mpr (by omega)
  omega

end

end Toft.Lib.Calendar
