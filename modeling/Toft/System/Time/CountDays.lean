import Toft.System.Time.SubDays

/-!
# AddDays counts days

`AddDays` gives the date that is the given number of days away exactly if none of the steps that go
wrong spoils the result (`addDays_counts_iff`).
-/

namespace Toft.Date

open Lib Lib.Calendar

/-! ## Counting days -/

/-- `AddDays` gives what single steps give: the date that is `n` days away. -/
def CountsDays (date : Date) (n : Int) : Prop :=
  ∃ date', date.addDays n = .ok date' ∧ date'.Valid ∧ date.stepDays n = .ok date' ∧
    date'.number = date.number + n

/-- No step of `AddDays` spoils the result: forward, none leads from a day 31 into a month of 30
days; back, neither the wrong lengths of years nor such a step nor the rest of the days does. -/
def DaysClear (date : Date) (n : Int) : Prop :=
  (0 < n → date.ClearUntil (date.number + n)) ∧
    (n < 0 → ∀ y left, date.StopsBack (-n) y left → date.YearsExact y ∧ date.ClearBack left ∧
      MonthsKeep y date.month (date.dayBack y) left)

section CountingDays

variable {date : Date} (h : date.Valid) {n : Int} (hfirst : firstNumber ≤ date.number + n)
  (hlast : date.number + n ≤ lastNumber)

include h hfirst hlast

theorem countsDays_iff : date.CountsDays n ↔
    ∃ date', date.addDays n = .ok date' ∧ date'.Valid ∧ date'.number = date.number + n := by
  constructor
  · rintro ⟨date', hadd, hvalid, -, hnumber⟩
    exact ⟨date', hadd, hvalid, hnumber⟩
  · rintro ⟨date', hadd, hvalid, hnumber⟩
    obtain ⟨date'', hsteps, hvalid', hnumber'⟩ := stepDays_spec h hfirst hlast
    obtain rfl := hvalid.ext hvalid' (hnumber.trans hnumber'.symm)
    exact ⟨date', hadd, hvalid, hsteps, hnumber⟩

omit hfirst in
theorem countsDays_forward_iff (hn : 0 < n) :
    (∃ date', date.addDays n = .ok date' ∧ date'.Valid ∧ date'.number = date.number + n) ↔
      date.ClearUntil (date.number + n) := by
  obtain ⟨result, hrun, hvalid, hiff⟩ := addDays_forward_spec h hn hlast
  constructor
  · rintro ⟨date', hadd, -, hnumber⟩
    cases hadd.symm.trans hrun
    exact hiff.mp hnumber
  · intro hclear
    exact ⟨result, hrun, hvalid, hiff.mpr hclear⟩

omit hlast in
theorem countsDays_back_iff (hn : n < 0) :
    (∃ date', date.addDays n = .ok date' ∧ date'.Valid ∧ date'.number = date.number + n) ↔
      ∀ y left, date.StopsBack (-n) y left → date.YearsExact y ∧ date.ClearBack left ∧
        MonthsKeep y date.month (date.dayBack y) left := by
  obtain ⟨y, left, result, hstops, hrun, hvalid_iff, hnumber_iff⟩ := addDays_back_spec h hn hfirst
  constructor
  · rintro ⟨date', hadd, hvalid, hnumber⟩ y' left' hstops'
    cases hadd.symm.trans hrun
    obtain ⟨rfl, rfl⟩ := h.stopsBack_unique hstops hstops'
    exact and_assoc.mp ⟨(hnumber_iff hvalid).mp hnumber, hvalid_iff.mp hvalid⟩
  · intro hall
    obtain ⟨hyears, hclear, hkeeps⟩ := hall y left hstops
    have hvalid := hvalid_iff.mpr hkeeps
    exact ⟨result, hrun, hvalid, (hnumber_iff hvalid).mpr ⟨hyears, hclear⟩⟩

/-- **AddDays.** The result is `n` days away exactly if no step spoils it. -/
theorem addDays_counts_iff : date.CountsDays n ↔ date.DaysClear n := by
  rw [countsDays_iff h hfirst hlast]
  rcases Int.lt_trichotomy n 0 with hn | hn | hn
  · rw [countsDays_back_iff h hfirst hn]
    exact ⟨fun hback => ⟨fun hpos => by omega, fun _ => hback⟩, fun hclear => hclear.2 hn⟩
  · subst hn
    refine ⟨fun _ => ⟨fun hpos => by omega, fun hneg => by omega⟩, fun _ => ⟨date, rfl, h, ?_⟩⟩
    rw [Int.add_zero]
  · rw [countsDays_forward_iff h hlast hn]
    exact ⟨fun hforward => ⟨fun _ => hforward, fun hneg => by omega⟩, fun hclear => hclear.1 hn⟩

end CountingDays

/-- Over the end of February: 59 days from the last of January on, and 31 days back from the last of
March. -/
theorem addDays_counts_2013 : CountsDays ⟨2013, 1, 31⟩ 59 ∧ CountsDays ⟨2013, 3, 31⟩ (-31) := by
  constructor
  · refine (addDays_counts_iff (by decide) (by decide) (by decide)).mpr
      ⟨fun _ _ y _ _ => ?_, fun hneg => absurd hneg (by decide)⟩
    exact ⟨fun hmonth => absurd hmonth (by decide), fun hmonth => absurd hmonth (by decide)⟩
  · refine (addDays_counts_iff (by decide) (by decide) (by decide)).mpr
      ⟨fun hpos => absurd hpos (by decide), fun _ y left hstops => ?_⟩
    have hstops' : StopsBack ⟨2013, 3, 31⟩ 31 2013 31 := ⟨by decide, by decide, by decide⟩
    obtain ⟨rfl, rfl⟩ := Valid.stopsBack_unique (by decide) hstops hstops'
    refine ⟨fun hmonth => absurd hmonth (by decide), by decide, ?_⟩
    rw [MonthsKeep, if_pos (by decide)]
    intro y m t hdate hnumber
    have hlast : IsDate 2013 2 28 := by decide
    exact .inl (hdate.ext hlast (hnumber.trans (by decide))).2.2.le

/-- 30 days behind the last of March is the last of April, and 10 days before the fifth of March is
in February. -/
theorem addDays_not_counts :
    (Valid ⟨2013, 3, 31⟩ ∧ addDays ⟨2013, 3, 31⟩ 30 = .ok ⟨2013, 5, 1⟩ ∧
      stepDays ⟨2013, 3, 31⟩ 30 = .ok ⟨2013, 4, 30⟩ ∧ ¬ CountsDays ⟨2013, 3, 31⟩ 30) ∧
    (Valid ⟨2013, 3, 5⟩ ∧ addDays ⟨2013, 3, 5⟩ (-10) = .ok ⟨2013, 3, 251⟩ ∧
      stepDays ⟨2013, 3, 5⟩ (-10) = .ok ⟨2013, 2, 23⟩ ∧ ¬ CountsDays ⟨2013, 3, 5⟩ (-10)) := by
  have hadd : addDays ⟨2013, 3, 31⟩ 30 = .ok ⟨2013, 5, 1⟩ := by rfl
  have hadd' : addDays ⟨2013, 3, 5⟩ (-10) = .ok ⟨2013, 3, 251⟩ := by rfl
  refine ⟨⟨by decide, hadd, by rfl, ?_⟩, by decide, hadd', by rfl, ?_⟩
  · rintro ⟨date', hresult, -, -, hnumber⟩
    cases hadd.symm.trans hresult
    exact absurd hnumber (by decide)
  · rintro ⟨date', hresult, hvalid, -⟩
    cases hadd'.symm.trans hresult
    exact absurd hvalid (by decide)

end Toft.Date
