import Toft.System.Time.AddDays

/-!
# The distance of two dates

`DaysTo` walks to the later date by whole years, by whole months and by days, and adds up the
distances. A step by a month from a day 31 into a month of 30 days is counted a day too short; a
step by a day from such a day 31 makes up for it. The walk does not end if it comes to a date from
which the next year or the next month is out of the range: the year wraps, and the next date is
never beyond the later one. `daysTo_measures_iff` says when the result is the number of days.
-/

namespace Toft.Date

open Lib Lib.Calendar Int

/-! ## The function -/

def yearsTo (dest : Date) (fuel : Nat) (date : Date) (days : Int) : Except Fault (Date × Int) :=
  approach (fun date => .ok date.daysToNextYear) nextYear (fun next => 0 < compare next dest)
    .unended
    fuel date days

def monthsTo (dest : Date) (fuel : Nat) (date : Date) (days : Int) : Except Fault (Date × Int) :=
  approach daysToNextMonth nextMonth (fun next => 0 < compare next dest) .unended fuel date days

def stepTo (dest : Date) : Nat → Date → Int → Except Fault Int
  | 0, _, _ => .error .unended
  | fuel + 1, date, days =>
    if compare date dest < 0 then do
      let date ← date.next
      stepTo dest fuel date (days + 1)
    else .ok days

/-- What `DaysTo` does if the other date is not before this one. -/
def daysToLater (fuel : Nat) (date dest : Date) : Except Fault Int := do
  let (date, days) ← yearsTo dest fuel date 0
  let (date, days) ← monthsTo dest fuel date days
  stepTo dest fuel date days

def daysTo (fuel : Nat) (date dest : Date) : Except Fault Int :=
  if compare dest date < 0 then daysToLater fuel dest date else daysToLater fuel date dest

/-- Every large enough number of rounds gives the number of steps of one day. -/
def Measures (date dest : Date) : Prop :=
  ∃ count : Nat, steps next count date = .ok dest ∧ count = dest.number - date.number ∧
    ∃ bound, ∀ fuel, bound ≤ fuel → daysTo fuel date dest = .ok count

/-! ## Order and day numbers -/

theorem NearDate.valid_or {date : Date} (h : date.NearDate) :
    date.Valid ∨ date.day = 31 ∧ monthLength date.year date.month = 30 := by
  obtain ⟨hmonth, hmonth', hday, hday', hfebruary⟩ := h
  by_cases hle : date.day ≤ monthLength date.year date.month
  · exact .inl ⟨hmonth, hmonth', hday, hle⟩
  · have hlength := monthLength_cases date.year date.month
    exact .inr (by omega)

variable {date dest : Date}

theorem compare_neg_iff_number (h : date.Valid) (hto : dest.Valid) :
    compare date dest < 0 ↔ date.number < dest.number := by
  rw [compare_neg_iff, number, number, dayNumber_lt_iff h hto]

theorem NearDate.compare_pos_iff (h : date.NearDate) (hto : dest.Valid) :
    0 < compare date dest ↔ dest.number < date.number := by
  rw [Date.compare_pos_iff]
  rcases h.valid_or with hvalid | ⟨hday, hlength⟩
  · rw [number, number, dayNumber_lt_iff hto hvalid]
  · -- day 30 is the last one of the calendar before day 31
    have hlast : IsDate date.year date.month 30 := ⟨h.month_pos, h.month_le, by omega, by omega⟩
    have hlt := dayNumber_lt_iff hlast hto
    have hnumber : date.number = dayNumber date.year date.month 30 + 1 := by
      rw [number, dayNumber, dayNumber, hday]
      omega
    rw [hnumber, number] at *
    omega

/-- Day 31 of a month of 30 days is before the first day of the next month. -/
theorem compare_neg_of_over (h : date.NearDate) (hday : date.day = 31)
    (hlength : monthLength date.year date.month = 30) (hto : dest.Valid)
    (hle : date.number ≤ dest.number) : compare date dest < 0 := by
  have hpos := mt (h.compare_pos_iff hto).mp (by omega)
  rw [Date.compare_pos_iff] at hpos
  rw [compare_neg_iff]
  have hday' := hto.day_le
  have hlength' : date.year = dest.year → date.month = dest.month →
      monthLength dest.year dest.month = 30 := by
    intro hyear hmonth
    rwa [← hyear, ← hmonth]
  omega

theorem next_of_over {date : Date} (h : date.NearDate) (hday : date.day = 31)
    (hlength : monthLength date.year date.month = 30) :
    ∃ date', date.next = .ok date' ∧ date'.Valid ∧ date'.number = date.number := by
  have hcases := monthLength_cases date.year date.month
  have hlower := le_monthLength date.year (date.month + 1)
  have hbefore := @daysBefore_next_month date.year date.month h.month_pos (by omega)
  have hdays := daysInMonth_eq date.year h.month_pos h.month_le
  obtain ⟨y, m, d⟩ := date
  simp only [number, year, month, day, Valid] at *
  have hd := toNat_add_one8 (x := d) (by omega)
  have hm := toNat_add_one8 (x := m) (by omega)
  have hone : ((1 : UInt8).toNat : Int) = 1 := rfl
  simp only [next, year, month, day, hdays, ok_bind, pure_eq_ok, hd, hm]
  rw [if_pos (by omega), if_neg (by omega)]
  refine ⟨_, rfl, ?_, ?_⟩
  · simp only [hone, hm]
    exact ⟨by omega, by omega, by omega, by omega⟩
  · simp only [hone, hm, dayNumber]
    omega

/-! ## Steps of one day -/

theorem stepTo_spec (h : date.Valid) (hto : dest.Valid)
    (hle : date.number ≤ dest.number) (days : Int) {fuel : Nat}
    (hfuel : dest.number - date.number < fuel) :
    stepTo dest fuel date days = .ok (days + (dest.number - date.number)) := by
  induction fuel generalizing date days with
  | zero => omega
  | succ fuel ih =>
    rw [stepTo]
    by_cases hlt : date.number < dest.number
    · obtain ⟨date', hnext, hvalid, hnumber⟩ := next_spec h (hlt.trans_le hto.number_le)
      rw [if_pos ((compare_neg_iff_number h hto).mpr hlt), hnext, ok_bind,
        ih hvalid (by omega) _ (by omega)]
      congr 1
      omega
    · rw [if_neg (mt (compare_neg_iff_number h hto).mp hlt)]
      congr 1
      omega

/-- From day 31 of a month of 30 days, one step more is counted. -/
theorem stepTo_of_over (h : date.NearDate) (hday : date.day = 31)
    (hlength : monthLength date.year date.month = 30) (hto : dest.Valid)
    (hle : date.number ≤ dest.number) (days : Int) {fuel : Nat}
    (hfuel : dest.number - date.number + 1 < fuel) :
    stepTo dest fuel date days = .ok (days + 1 + (dest.number - date.number)) := by
  obtain ⟨fuel, rfl⟩ : ∃ k, fuel = k + 1 := ⟨fuel - 1, by omega⟩
  obtain ⟨date', hnext, hvalid, hnumber⟩ := next_of_over h hday hlength
  rw [stepTo, if_pos (compare_neg_of_over h hday hlength hto hle), hnext, ok_bind,
    stepTo_spec hvalid hto (by omega) _ (by omega), hnumber]

/-! ## Whole years -/

/-- The walk by years comes to a date of the last year, from which the next year wraps. -/
def YearsWrap (date dest : Date) : Prop :=
  dest.year = 32767 ∧ (date.month < dest.month ∨
    date.month = dest.month ∧ limitDay 32767 date.month date.day ≤ dest.day)

/-- The walk by months comes to a December of the last year, from which the next month wraps: the
day was limited to 28 in the February before. -/
def MonthsWrap (date dest : Date) : Prop :=
  dest.year = 32767 ∧ date.month = 12 ∧ dest.month = 12 ∧ 28 ≤ dest.day

/-- The walk never ends. -/
def NeverEnds (date dest : Date) : Prop := date.YearsWrap dest ∨ date.MonthsWrap dest

/-- A date on the walk by years from `date` to `dest`. -/
structure YearsOn (date dest d : Date) : Prop where
  valid : d.Valid
  le : d.number ≤ dest.number
  month : d.month = date.month
  day_le : d.day ≤ date.day
  le_day : min date.day 28 ≤ d.day
  day : date.month ≠ 2 → d.day = date.day

theorem leapDay_last : leapDay 32767 = 0 := by decide

variable {date dest d : Date}

theorem YearsOn.year_lt (h : date.YearsOn dest d) (hto : dest.Valid)
    (hends : ¬ date.YearsWrap dest) : d.year < 32767 := by
  by_contra hnot
  have hbounds' := dest.year_bounds
  have hle := mt (dayNumber_lt_iff hto h.valid).mpr (by have := h.le; unfold number at this; omega)
  have hmonth := h.month
  have hday := h.day
  have hday' := h.le_day
  have hleap := leapDay_last
  refine hends ⟨by omega, ?_⟩
  unfold limitDay
  split <;> omega

theorem yearsTo_spec (h : date.Valid) (hto : dest.Valid)
    (hle : date.number ≤ dest.number) (hends : ¬ date.YearsWrap dest) (fuel : Nat)
    (hfuel : (32767 - date.year).toNat < fuel) :
    ∃ d days, yearsTo dest fuel date 0 = .ok (d, days) ∧ date.YearsOn dest d ∧
      d.number - days = date.number ∧
      dest.number < dayNumber (d.year + 1) d.month (limitDay (d.year + 1) d.month d.day) := by
  have hstep : Approaches (fun d => .ok d.daysToNextYear) nextYear
      (fun next => 0 < compare next dest) (fun d => (32767 - d.year).toNat)
      fun d days => date.YearsOn dest d ∧ d.number - days = date.number := by
    intro d days ⟨hon, hsum⟩
    have hyear := hon.year_lt hto hends
    obtain ⟨next, hadd, hvalid, hnumber, hyear', hmonth, hday⟩ := hon.valid.addYears_one hyear
    refine ⟨next, hadd, fun hclose => ⟨_, rfl, ⟨?_, by omega⟩, by dsimp only; omega⟩⟩
    have hle := mt (hvalid.nearDate.compare_pos_iff hto).mpr (of_decide_eq_false hclose)
    have hmonth' := hon.month
    have hday' := hon.day
    have hday_le := hon.day_le
    have hle_day := hon.le_day
    have hlow := leapDay_nonneg (d.year + 1)
    refine ⟨hvalid, by omega, by omega, ?_, ?_, fun hne => ?_⟩
    · rw [hday, limitDay]
      split <;> omega
    · rw [hday, limitDay]
      split <;> omega
    · rw [hday, limitDay, if_neg (by omega)]
      exact hday' hne
  obtain ⟨d, days, next, hloop, ⟨hon, hsum⟩, hmove, hbeyond⟩ :=
    approach_spec .unended hstep fuel date 0
      ⟨⟨h, hle, rfl, le_refl _, by omega, fun _ => rfl⟩, by omega⟩ hfuel
  refine ⟨d, days, hloop, hon, hsum, ?_⟩
  obtain ⟨next', hadd, hvalid, hnumber, -⟩ := hon.valid.addYears_one (hon.year_lt hto hends)
  cases hmove.symm.trans hadd
  rw [hon.valid.anniversary, ← hnumber]
  exact (hvalid.nearDate.compare_pos_iff hto).mp (of_decide_eq_true hbeyond)

/-! ## Whole months -/

/-- A date on the walk by months. -/
structure MonthsOn (date dest d : Date) : Prop where
  near : d.NearDate
  le : d.number ≤ dest.number
  le_day : min date.day 28 ≤ d.day

/-- The months until the end of the last year. -/
def monthsLeft (d : Date) : Nat := (12 * (32767 - d.year) + (12 - d.month)).toNat

section

variable {date dest d : Date} (h : date.MonthsOn dest d) (hdate : date.Valid) (hto : dest.Valid)
  (hends : ¬ date.NeverEnds dest)
include h hdate hto hends

theorem MonthsOn.year_lt : d.year < 32767 ∨ d.month < 12 := by
  by_contra hnot
  have hbounds' := dest.year_bounds
  have hnext := mt (h.near.compare_pos_iff hto).mp (by have := h.le; omega)
  rw [Date.compare_pos_iff] at hnext
  have hday := h.le_day
  have := hto.month_le
  have := hdate.month_le
  by_cases hlarge : date.month = 12 ∧ 28 ≤ dest.day
  · exact hends (.inr ⟨by omega, hlarge.1, by omega, hlarge.2⟩)
  · refine hends (.inl ⟨by omega, ?_⟩)
    unfold limitDay
    split <;> omega

theorem MonthsOn.step :
    ∃ next price, d.nextMonth = .ok next ∧ d.daysToNextMonth = .ok price ∧ next.NearDate ∧
      (d.slip = 0 → next.Valid) ∧ next.number = d.number + price + d.slip ∧
      next.month = (if d.month < 12 then d.month + 1 else 1) ∧
      next.day = limitDay next.year next.month d.day ∧ next.monthsLeft < d.monthsLeft ∧
      (0 < compare next dest ↔ dest.number < next.number) ∧
      (next.number ≤ dest.number → date.MonthsOn dest next) := by
  have hyear := h.year_lt hdate hto hends
  obtain ⟨next, price, hprice, hadd, hnear, hvalid, hnumber, hmonth, hday, hyear'⟩ :=
    h.near.addMonths_one hyear
  refine ⟨next, price, hadd, hprice, hnear, hvalid, hnumber, hmonth, hday, ?_,
    hnear.compare_pos_iff hto, fun hle => ⟨hnear, hle, ?_⟩⟩
  · have hbounds := d.year_bounds
    have hmonth' := h.near.month_le
    unfold monthsLeft
    split at hmonth <;> split at hyear' <;> omega
  · have hle_day := h.le_day
    have hlow := leapDay_nonneg next.year
    rw [hday, limitDay]
    split <;> omega

end

/-- The walk by months with `left` days to go does not step on from day 31 of a month of 30 days:
it comes at most once to such a day, and then stops there. -/
def ClearFor (d : Date) (left : Int) : Prop :=
  d.day = 31 → (d.month = 3 ∨ d.month = 5 ∨ d.month = 8 ∨ d.month = 10 → left < 61) ∧
    (d.month = 7 → left < 92)

variable {d : Date}

/-- Day 31 of a month of 30 days. -/
def Over (d : Date) : Prop := d.day = 31 ∧ monthLength d.year d.month = 30

theorem NearDate.next_of_over (h : d.NearDate) (hover : d.Over) {price : Int}
    (hprice : d.daysToNextMonth = .ok price) : d.slip = 0 ∧ price = 30 := by
  obtain ⟨hday, hlength⟩ := hover
  have hcost := h.price_cases hprice
  have hslip := slip_cases h.month_pos h.month_le
  have hcases := monthLength_cases d.year d.month
  have hcases' := monthLength_cases d.year (d.month + 1)
  have hnext := nextLength_cases h.month_le
  omega

/-- A step that goes too far leads to day 31 of a month of 30 days, 31 days away. -/
theorem NearDate.over_of_slip {d next : Date} (h : d.NearDate) {price : Int}
    (hprice : d.daysToNextMonth = .ok price) (hslip : d.slip = 1)
    (hmonth : next.month = (if d.month < 12 then d.month + 1 else 1))
    (hday : next.day = limitDay next.year next.month d.day) : next.Over ∧ price = 30 := by
  rcases slip_cases h.month_pos h.month_le with ⟨⟨h31, hcase⟩, -⟩ | ⟨-, hzero⟩
  · rw [if_pos (by omega)] at hmonth
    have hcases := monthLength_cases next.year next.month
    rw [limitDay, if_neg (by omega)] at hday
    exact ⟨⟨by omega, by omega⟩, h.price_of_slip hprice h31 hcase⟩
  · omega

/-- The state of a walk by months that is exact if `clear`. A step on from day 31 of a month of 30
days spoils it. -/
def WalkState (clear : Prop) (dest d : Date) (days start : Int) : Prop :=
  d.Valid ∧ d.number - days = start ∧ (d.ClearFor (dest.number - d.number) ↔ clear) ∨
    d.Over ∧ d.number - days = start + 1 ∧ (dest.number - d.number < 30 ↔ clear) ∨
    ¬ clear ∧ (d.Valid ∧ start < d.number - days ∨ d.Over ∧ start + 1 < d.number - days)

/-- The walk by months is exact if it is clear, up to the day that is made up for at the end. -/
theorem monthsTo_spec (hdate : date.Valid) (hto : dest.Valid)
    (hends : ¬ date.NeverEnds dest) (hon : date.MonthsOn dest d) (hvalid : d.Valid) (days : Int)
    (fuel : Nat) (hfuel : d.monthsLeft < fuel) :
    ∃ d' days' slip, monthsTo dest fuel d days = .ok (d', days') ∧ d'.NearDate ∧
      d'.number ≤ dest.number ∧ (d'.Valid ∧ slip = 0 ∨ d'.Over ∧ slip = 1) ∧
      (d'.number - days' = d.number - days + slip ↔ d.ClearFor (dest.number - d.number)) := by
  have hstep : Approaches daysToNextMonth nextMonth (fun next => 0 < compare next dest) monthsLeft
      fun s total => date.MonthsOn dest s ∧
        WalkState (d.ClearFor (dest.number - d.number)) dest s total (d.number - days) := by
    intro s total ⟨hon, hstate⟩
    obtain ⟨next, price, hadd, hprice, hnear, hvalid, hnumber, hmonth, hday, hleft, hcompare,
      hnext⟩ := hon.step hdate hto hends
    refine ⟨next, hadd, fun hclose => ⟨price, hprice, ?_, hleft⟩⟩
    have hle := mt hcompare.mpr (of_decide_eq_false hclose)
    refine ⟨hnext (by omega), ?_⟩
    have hslip := slip_cases hon.near.month_pos hon.near.month_le
    rcases hstate with ⟨hvalid', hsum, hclear⟩ | ⟨hover, hsum, hclear⟩ |
      ⟨hnot, ⟨-, hfar⟩ | ⟨hover, hfar⟩⟩
    · rcases hslip with ⟨⟨h31, hcase⟩, hslip⟩ | ⟨hno, hslip⟩
      · obtain ⟨hover, hcost⟩ := hon.near.over_of_slip hprice hslip hmonth hday
        refine .inr (.inl ⟨hover, by omega, .trans ?_ hclear⟩)
        unfold ClearFor
        omega
      · refine .inl ⟨hvalid hslip, by omega, .trans ?_ hclear⟩
        have hday_le := hon.near.day_le
        unfold limitDay at hday
        by_cases h31 : s.day = 31
        · have := hvalid'.price_of_day hprice h31
          unfold ClearFor
          split at hmonth <;> split at hday <;> omega
        · have h31' : next.day ≠ 31 := by split at hday <;> omega
          exact iff_of_true (fun h => absurd h h31') fun h => absurd h h31
    · obtain ⟨hslip, hcost⟩ := hon.near.next_of_over hover hprice
      have hlong : ¬ dest.number - s.number < 30 := by omega
      exact .inr (.inr ⟨mt hclear.mpr hlong, .inl ⟨hvalid hslip, by omega⟩⟩)
    · rcases hslip with ⟨-, hslip⟩ | ⟨-, hslip⟩
      · obtain ⟨hover, -⟩ := hon.near.over_of_slip hprice hslip hmonth hday
        exact .inr (.inr ⟨hnot, .inr ⟨hover, by omega⟩⟩)
      · exact .inr (.inr ⟨hnot, .inl ⟨hvalid hslip, by omega⟩⟩)
    · obtain ⟨hslip, hcost⟩ := hon.near.next_of_over hover hprice
      exact .inr (.inr ⟨hnot, .inl ⟨hvalid hslip, by omega⟩⟩)
  obtain ⟨d', days', next, hloop, ⟨hon', hstate⟩, hmove, hbeyond⟩ :=
    approach_spec .unended hstep fuel d days ⟨hon, .inl ⟨hvalid, rfl, Iff.rfl⟩⟩ hfuel
  obtain ⟨next', price, hadd, hprice, hnear, -, hnumber, hmonth, hday, -, hcompare, -⟩ :=
    hon'.step hdate hto hends
  cases hmove.symm.trans hadd
  have hlt := hcompare.mp (of_decide_eq_true hbeyond)
  rcases hstate with ⟨hvalid', hsum, hclear⟩ | ⟨hover, hsum, hclear⟩ |
    ⟨hnot, ⟨hvalid', hfar⟩ | ⟨hover, hfar⟩⟩
  · refine ⟨d', days', 0, hloop, hon'.near, hon'.le, .inl ⟨hvalid', rfl⟩, ?_⟩
    refine iff_of_true (by omega) (hclear.mp fun h31 => ?_)
    have hcost := hvalid'.price_of_day hprice h31
    have hslip := slip_cases hon'.near.month_pos hon'.near.month_le
    omega
  · obtain ⟨hslip, hcost⟩ := hon'.near.next_of_over hover hprice
    exact ⟨d', days', 1, hloop, hon'.near, hon'.le, .inr ⟨hover, rfl⟩,
      iff_of_true hsum (hclear.mp (by omega))⟩
  · exact ⟨d', days', 0, hloop, hon'.near, hon'.le, .inl ⟨hvalid', rfl⟩,
      iff_of_false (by omega) hnot⟩
  · exact ⟨d', days', 1, hloop, hon'.near, hon'.le, .inr ⟨hover, rfl⟩, iff_of_false (by omega) hnot⟩

/-! ## Walks that do not end -/

/-- A step by a year, which may wrap. -/
theorem addYears_one_cases (date : Date) : ∃ date', date.addYears 1 = .ok date' ∧
    date'.month = date.month ∧ date'.day = limitDay date'.year date.month date.day := by
  have hbounds := date.year_bounds
  by_cases hyear : date.year < 32767
  · obtain ⟨date', hadd, hyear', hmonth, hday⟩ := @addYears_spec date 1 (by omega) (by omega)
    exact ⟨date', hadd, hmonth, by rw [hday, hyear']⟩
  · obtain ⟨date', hadjust, hyear', hmonth, hday⟩ :=
      adjustMonthLimit_spec { date with mYear := .ofInt (date.year + 1) }
    refine ⟨date', by rw [addYears, setYear, hadjust]; rfl, hmonth, ?_⟩
    rw [hday, hyear']
    rfl

theorem yearsTo_unended (h : date.YearsWrap dest) (fuel : Nat) (days : Int) :
    yearsTo dest fuel date days = .error .unended := by
  obtain ⟨hyear, hcase⟩ := h
  have hstep : ∀ s : Date, s.month = date.month ∧ s.day ≤ date.day →
      ∃ next price, s.nextYear = .ok next ∧ decide (0 < compare next dest) = false ∧
        Except.ok (ε := Fault) s.daysToNextYear = .ok price ∧
        next.month = date.month ∧ next.day ≤ date.day := by
    intro s ⟨hmonth, hday⟩
    obtain ⟨next, hadd, hmonth', hday'⟩ := s.addYears_one_cases
    have hbounds := next.year_bounds
    refine ⟨next, _, hadd, ?_, rfl, by omega, ?_⟩
    · rw [decide_eq_false_iff_not, Date.compare_pos_iff]
      have hlimit : next.year = 32767 → next.day ≤ limitDay 32767 date.month date.day := by
        intro heq
        rw [hday', heq, limitDay, limitDay, hmonth]
        split <;> omega
      omega
    · rw [hday', limitDay]
      split <;> omega
  exact approach_unended .unended hstep ⟨rfl, le_refl _⟩ fuel days

theorem monthsTo_unended {dest d : Date} (hnear : d.NearDate) (hyear : dest.year = 32767)
    (hmonth : dest.month = 12) (hday : 28 ≤ dest.day) (hyear' : d.year = 32766)
    (hmonth' : d.month = 12) (fuel : Nat) (days : Int) :
    monthsTo dest fuel d days = .error .unended := by
  have hstep : ∀ s : Date, s.NearDate ∧ (s.day ≤ 28 ∨ s.year = 32766 ∧ s.month = 12 ∨
        s.year = 32767 ∧ s.month = 1) →
      ∃ next price, s.nextMonth = .ok next ∧ decide (0 < compare next dest) = false ∧
        s.daysToNextMonth = .ok price ∧ next.NearDate ∧ (next.day ≤ 28 ∨
          next.year = 32766 ∧ next.month = 12 ∨ next.year = 32767 ∧ next.month = 1) := by
    intro s ⟨hnear, hcase⟩
    have hbounds := s.year_bounds
    have hmonth_le := hnear.month_le
    simp only [decide_eq_false_iff_not, Date.compare_pos_iff]
    by_cases hin : s.year < 32767 ∨ s.month < 12
    · obtain ⟨next, price, hprice, hadd, hnear', -, -, hm, hd, hy⟩ := hnear.addMonths_one hin
      have hleap := leapDay_last
      have hday' : next.day ≤ s.day ∧ (next.year = 32767 → next.month = 2 → next.day ≤ 28) := by
        rw [hd, limitDay]
        split
        · refine ⟨by omega, fun heq _ => ?_⟩
          rw [heq]
          omega
        · exact ⟨le_refl _, fun _ hfeb => by omega⟩
      refine ⟨next, price, hadd, ?_, hprice, hnear', ?_⟩
      · split at hy <;> split at hm <;> omega
      · split at hy <;> split at hm <;> omega
    · obtain ⟨next, hadd, hy, hm, hd⟩ := @addMonths_one_wraps s (by omega) (by omega)
      have hday_pos := hnear.day_pos
      refine ⟨next, _, hadd, by omega, hnear.daysToNextMonth_eq, ⟨?_, ?_, ?_, ?_, ?_⟩, ?_⟩ <;> omega
  exact approach_unended .unended hstep ⟨hnear, .inr (.inl ⟨hyear', hmonth'⟩)⟩ fuel days

/-! ## Measuring -/

/-- From a day 31, the days beyond the last anniversary that is not after the later date do not lead
on from day 31 of a month of 30 days. -/
def ClearTo (date dest : Date) : Prop :=
  date.day = 31 → ∀ y, dayNumber y date.month 31 ≤ dest.number →
    dest.number < dayNumber (y + 1) date.month 31 →
    (date.month = 3 ∨ date.month = 5 ∨ date.month = 8 ∨ date.month = 10 →
      dest.number - dayNumber y date.month 31 < 61) ∧
    (date.month = 7 → dest.number - dayNumber y date.month 31 < 92)

/-- The walk by years from a day 31 stops at the last anniversary. -/
theorem YearsOn.clearTo_iff (h : date.Valid) (hon : date.YearsOn dest d)
    (hlt : dest.number < dayNumber (d.year + 1) d.month (limitDay (d.year + 1) d.month d.day)) :
    date.ClearTo dest ↔ d.ClearFor (dest.number - d.number) := by
  have hmonth := hon.month
  have hle := hon.le
  by_cases h31 : date.day = 31
  · have hne : date.month ≠ 2 := by
      have := h.nearDate.february
      have := leapDay_le date.year
      omega
    have hday := (hon.day hne).trans h31
    rw [limitDay, if_neg (by omega), hday, hmonth] at hlt
    rw [number, hday, hmonth] at hle
    have hnumber : d.number = dayNumber d.year date.month 31 := by rw [number, hday, hmonth]
    rw [ClearFor, hnumber, hmonth]
    constructor
    · intro hclear _
      exact hclear h31 d.year hle hlt
    · intro hclear _ y hy hy'
      rw [h.anniversary_unique h31 hy hy' hle hlt]
      exact hclear hday
  · have hday := hon.day_le
    have hday'' := h.nearDate.day_le
    exact ⟨fun _ h31' => by omega, fun _ h31' => absurd h31' h31⟩

/-- Rounds that are enough for every walk that ends: there are fewer days in the range. -/
def enough : Nat := 30000000

theorem number_range : lastNumber - firstNumber < 24000000 := by decide

theorem NearDate.le_number (h : d.NearDate) : firstNumber ≤ d.number := by
  have hfirst : IsDate (-32768) 1 1 := by decide
  have hbounds := d.year_bounds
  have hmonth := h.month_pos
  have hday := h.day_pos
  have hdate : IsDate d.year d.month 1 := by
    have := le_monthLength d.year d.month
    exact ⟨hmonth, h.month_le, by omega, by omega⟩
  have hle := mt (dayNumber_lt_iff hdate hfirst).mp (by omega)
  unfold number firstNumber
  unfold dayNumber at *
  omega

theorem monthsLeft_lt (h : 1 ≤ d.month) : d.monthsLeft < 2000000 := by
  have := d.year_bounds
  unfold monthsLeft
  omega

section Measuring

variable {date dest : Date} (h : date.Valid) (hto : dest.Valid)
  (hle : date.number ≤ dest.number)

include h hto hle

theorem daysTo_eq (fuel : Nat) : daysTo fuel date dest = daysToLater fuel date dest :=
  if_neg (mt (compare_neg_iff_number hto h).mp (by omega))

theorem daysToLater_spec (hends : ¬ date.NeverEnds dest) {fuel : Nat} (hfuel : enough ≤ fuel) :
    ∃ total, daysToLater fuel date dest = .ok total ∧
      (total = dest.number - date.number ↔ date.ClearTo dest) := by
  have hbounds := date.year_bounds
  unfold enough at hfuel
  obtain ⟨d, days, hyears, hon, hsum, hlt⟩ := yearsTo_spec h hto hle
    (fun hwrap => hends (.inl hwrap)) fuel (by omega)
  have hmonthsOn : date.MonthsOn dest d := ⟨hon.valid.nearDate, hon.le, hon.le_day⟩
  have hleft := monthsLeft_lt hon.valid.month_pos
  have hrange := number_range
  have hlast := hto.number_le
  obtain ⟨d', days', slip, hmonths, hnear, hle', hover, hiff⟩ := monthsTo_spec h hto hends hmonthsOn
    hon.valid days fuel (by omega)
  have hsteps : stepTo dest fuel d' days' = .ok (days' + slip + (dest.number - d'.number)) := by
    have := hnear.le_number
    rcases hover with ⟨hvalid, rfl⟩ | ⟨hover, rfl⟩
    · rw [add_zero, stepTo_spec hvalid hto hle' days' (by omega)]
    · exact stepTo_of_over hnear hover.1 hover.2 hto hle' days' (by omega)
  refine ⟨days' + slip + (dest.number - d'.number), ?_, ?_⟩
  · rw [daysToLater, hyears, ok_bind]
    simp only [hmonths, ok_bind, hsteps]
  · rw [hon.clearTo_iff h hlt, ← hiff]
    omega

/-- A walk that never ends has no result, however many rounds it may take. -/
theorem daysToLater_unended (hends : date.NeverEnds dest) {fuel : Nat}
    (hfuel : enough ≤ fuel) : daysToLater fuel date dest = .error .unended := by
  have hbounds := date.year_bounds
  unfold enough at hfuel
  by_cases hwrap : date.YearsWrap dest
  · rw [daysToLater, yearsTo_unended hwrap, error_bind]
  · obtain ⟨hyear, hmonth, hmonth', hday⟩ := hends.resolve_left hwrap
    obtain ⟨d, days, hyears, hon, hsum, hlt⟩ := yearsTo_spec h hto hle hwrap fuel (by omega)
    have hd := hon.month
    have hyear' := hon.year_lt hto hwrap
    have hnext := (dayNumber_lt_iff hto (isDate_limitDay (d.year + 1) hon.valid)).mp hlt
    rw [daysToLater, hyears, ok_bind]
    simp only [monthsTo_unended hon.valid.nearDate hyear hmonth' hday (by omega) (by omega),
      error_bind]

/-- **DaysTo.** The result is the number of days exactly if the walk ends and does not step on from
day 31 of a month of 30 days. -/
theorem daysTo_measures_iff : date.Measures dest ↔ ¬ date.NeverEnds dest ∧ date.ClearTo dest := by
  constructor
  · rintro ⟨count, -, hcount, bound, hbound⟩
    have hresult := hbound (max bound enough) (Nat.le_max_left _ _)
    rw [daysTo_eq h hto hle] at hresult
    have hends : ¬ date.NeverEnds dest := by
      intro hends
      rw [daysToLater_unended h hto hle hends (Nat.le_max_right _ _)] at hresult
      cases hresult
    obtain ⟨total, htotal, hiff⟩ := daysToLater_spec h hto hle hends (Nat.le_max_right bound enough)
    cases hresult.symm.trans htotal
    exact ⟨hends, hiff.mp hcount⟩
  · rintro ⟨hends, hclear⟩
    obtain ⟨dest', hsteps, hvalid, hnumber⟩ := steps_next_spec h (dest.number - date.number).toNat
      (by have := hto.number_le; omega)
    obtain rfl := hvalid.ext hto (by omega)
    refine ⟨_, hsteps, by omega, enough, fun fuel hfuel => ?_⟩
    obtain ⟨total, htotal, hiff⟩ := daysToLater_spec h hto hle hends hfuel
    rw [daysTo_eq h hto hle, htotal, hiff.mpr hclear, toNat_of_nonneg (by omega)]

end Measuring

theorem daysTo_measures_2014 : Measures ⟨2013, 1, 31⟩ ⟨2014, 4, 30⟩ := by
  refine (daysTo_measures_iff (by decide) (by decide) (by decide)).mpr ⟨?_, fun _ y _ _ => ?_⟩
  · rintro (⟨hyear, -⟩ | ⟨hyear, -⟩)
    · exact absurd hyear (by decide)
    · exact absurd hyear (by decide)
  · exact ⟨fun hmonth => absurd hmonth (by decide), fun hmonth => absurd hmonth (by decide)⟩

/-- From the last of March to the last of May there are 61 days, and not 60. Between two dates in
the last year, the walk does not end. -/
theorem daysTo_not_measures :
    (number ⟨2013, 5, 31⟩ - number ⟨2013, 3, 31⟩ = 61 ∧
      (∀ fuel, 5 ≤ fuel → daysTo fuel ⟨2013, 3, 31⟩ ⟨2013, 5, 31⟩ = .ok 60) ∧
      ¬ Measures ⟨2013, 3, 31⟩ ⟨2013, 5, 31⟩) ∧
    ∀ fuel, daysTo fuel ⟨32767, 1, 1⟩ ⟨32767, 1, 2⟩ = .error .unended := by
  have hsixty : ∀ fuel, 5 ≤ fuel → daysTo fuel ⟨2013, 3, 31⟩ ⟨2013, 5, 31⟩ = .ok 60 := by
    intro fuel hfuel
    obtain ⟨k, rfl⟩ : ∃ k, fuel = k + 5 := ⟨fuel - 5, by omega⟩
    rfl
  refine ⟨⟨by decide, hsixty, ?_⟩, fun fuel => ?_⟩
  · rintro ⟨count, -, hcount, bound, hbound⟩
    have heq :=
      (hbound _ (Nat.le_max_left bound 5)).symm.trans (hsixty _ (Nat.le_max_right bound 5))
    rw [Except.ok.inj heq] at hcount
    exact absurd hcount (by decide)
  · have hwrap : YearsWrap ⟨32767, 1, 1⟩ ⟨32767, 1, 2⟩ := ⟨by decide, .inr (by decide)⟩
    rw [daysTo, if_neg (by decide), daysToLater, yearsTo_unended hwrap, error_bind]

end Toft.Date
