import Mathlib.Algebra.BigOperators.Intervals
import Mathlib.Tactic.IntervalCases

/-! The proleptic Gregorian calendar from the year 0 on, by counting: the days of
a date are those of the years and the months before it. -/

namespace CdrProcessor.Calendar

def isLeap (year : Nat) : Prop := year % 4 = 0 ∧ (year % 100 ≠ 0 ∨ year % 400 = 0)

instance (year : Nat) : Decidable (isLeap year) := inferInstanceAs (Decidable (_ ∧ _))

def yearDays (year : Nat) : Nat := if isLeap year then 366 else 365

def monthDays (year month : Nat) : Nat :=
  if month = 2 then if isLeap year then 29 else 28
  else if month = 4 ∨ month = 6 ∨ month = 9 ∨ month = 11 then 30
  else 31

/-- The calendar has a day of this name. -/
structure IsDate (year month day : Nat) : Prop where
  month_pos : 1 ≤ month
  month_le : month ≤ 12
  day_pos : 1 ≤ day
  day_le : day ≤ monthDays year month

instance (year month day : Nat) : Decidable (IsDate year month day) :=
  decidable_of_iff (1 ≤ month ∧ month ≤ 12 ∧ 1 ≤ day ∧ day ≤ monthDays year month)
    ⟨fun ⟨a, b, c, d⟩ => ⟨a, b, c, d⟩, fun ⟨a, b, c, d⟩ => ⟨a, b, c, d⟩⟩

/-- The days from the first of January of the year 0 to a date. -/
def dayCount (year month day : Nat) : Nat :=
  ∑ y ∈ Finset.range year, yearDays y
    + ∑ m ∈ Finset.range (month - 1), monthDays year (m + 1) + (day - 1)

/-- The seconds from 1970-01-01 00:00:00 to a date and a time of the day, in UTC. -/
def unixSecond (year month day hour minute second : Nat) : Int :=
  ((dayCount year month day : Int) - dayCount 1970 1 1) * 86400
    + (hour * 3600 + minute * 60 + second : Nat)

/-- Every fourth year is a leap year, but for three centuries out of four. -/
theorem sum_yearDays (year : Nat) :
    ∑ y ∈ Finset.range year, yearDays y
      = 365 * year + (year + 3) / 4 + (year + 399) / 400 - (year + 99) / 100 := by
  induction year with
  | zero => rfl
  | succ year ih =>
    rw [Finset.sum_range_succ, ih]
    by_cases hl : isLeap year
    · rw [yearDays, if_pos hl]
      unfold isLeap at hl
      omega
    · rw [yearDays, if_neg hl]
      unfold isLeap at hl
      omega

/-- The days before a month of a year that is not a leap year, or is one. -/
theorem sum_monthDays (year month : Nat) (hm : 1 ≤ month ∧ month ≤ 12) :
    ∑ m ∈ Finset.range (month - 1), monthDays year (m + 1)
      = (if 2 < month then (153 * (month - 3) + 2) / 5 + 59 else 31 * (month - 1))
        + (if 2 < month ∧ isLeap year then 1 else 0) := by
  obtain ⟨h1, h12⟩ := hm
  by_cases hl : isLeap year
  all_goals
    interval_cases month <;> simp [Finset.sum_range_succ, monthDays, hl]

theorem monthDays_le (year month : Nat) : monthDays year month ≤ 31 := by
  unfold monthDays
  split
  · split <;> omega
  · split <;> omega

end CdrProcessor.Calendar
