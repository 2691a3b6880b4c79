import Mathlib.Order.Monotone.Basic

/-!
# The Gregorian calendar

The proleptic Gregorian calendar, from the first day of the year 0 on. Every date has a number, the
number of days before it, and two dates with the same number are the same.
-/

namespace Xinu.Calendar

/-- Leap years: those that 4 divides, but not 100, unless 400 does. -/
def IsLeap (y : ℕ) : Prop := y % 4 = 0 ∧ (y % 100 ≠ 0 ∨ y % 400 = 0)

instance decidableIsLeap (y : ℕ) : Decidable (IsLeap y) :=
  inferInstanceAs (Decidable (y % 4 = 0 ∧ (y % 100 ≠ 0 ∨ y % 400 = 0)))

/-- The days of a year. -/
def yearLength (y : ℕ) : ℕ := if IsLeap y then 366 else 365

/-- The days of a month. The months are 1 to 12. -/
def monthLength (y : ℕ) : ℕ → ℕ
  | 2 => if IsLeap y then 29 else 28
  | 4 | 6 | 9 | 11 => 30
  | 1 | 3 | 5 | 7 | 8 | 10 | 12 => 31
  | _ => 0

/-- The days of the years before. -/
def daysBeforeYear : ℕ → ℕ
  | 0 => 0
  | y + 1 => daysBeforeYear y + yearLength y

/-- The days of the months of the year before the month. -/
def daysBeforeMonth (y : ℕ) : ℕ → ℕ
  | 0 => 0
  | m + 1 => daysBeforeMonth y m + monthLength y m

/-- A date. -/
structure Date where
  /-- The year. -/
  year : ℕ
  /-- The month, from 1 to 12. -/
  month : ℕ
  /-- The day of the month, from 1 on. -/
  day : ℕ
  deriving DecidableEq, Repr

namespace Date

/-- The date exists. -/
structure Valid (d : Date) : Prop where
  /-- There is such a month. -/
  month : 1 ≤ d.month ∧ d.month ≤ 12
  /-- The month has such a day. -/
  day : 1 ≤ d.day ∧ d.day ≤ monthLength d.year d.month

/-- The number of days before the date. -/
def number (d : Date) : ℕ := daysBeforeYear d.year + daysBeforeMonth d.year d.month + (d.day - 1)

end Date

/-- The day of the week of the day with a number, from Sunday as 0 on: the first day of the year 0
is a Saturday. -/
def weekday (n : ℕ) : ℕ := (n + 6) % 7

variable {a b : Date} {y m k : ℕ}

/-- The days before a later month include those of this one. -/
theorem daysBeforeMonth_add_le (h : m < k) : daysBeforeMonth y m + monthLength y m ≤ daysBeforeMonth y k :=
  monotone_nat_of_le_succ (f := daysBeforeMonth y) (fun _ => Nat.le_add_right _ _) h

/-- The months of a year, all together, have the days of the year. -/
theorem daysBeforeMonth_end (y : ℕ) : daysBeforeMonth y 13 = yearLength y := by
  unfold yearLength
  simp only [daysBeforeMonth, monthLength]
  split_ifs <;> rfl

/-- The days before a later year include those of this one. -/
theorem daysBeforeYear_add_le (h : y < k) : daysBeforeYear y + yearLength y ≤ daysBeforeYear k :=
  monotone_nat_of_le_succ (f := daysBeforeYear) (fun _ => Nat.le_add_right _ _) h

/-- A day lies in one year only. -/
theorem year_unique {n : ℕ} (hy : daysBeforeYear y ≤ n ∧ n < daysBeforeYear y + yearLength y)
    (hk : daysBeforeYear k ≤ n ∧ n < daysBeforeYear k + yearLength k) : y = k := by
  rcases Nat.lt_trichotomy y k with hlt | heq | hgt
  · have := daysBeforeYear_add_le hlt
    omega
  · exact heq
  · have := daysBeforeYear_add_le hgt
    omega

/-- The number of a date lies among the days of its year. -/
theorem Date.Valid.in_year (h : a.Valid) :
    daysBeforeYear a.year ≤ a.number ∧ a.number < daysBeforeYear a.year + yearLength a.year := by
  have hend := daysBeforeMonth_add_le (y := a.year) (Nat.lt_succ_of_le h.month.2)
  rw [daysBeforeMonth_end] at hend
  have hday := h.day
  unfold Date.number
  omega

/-- A date in an earlier month of the same year is earlier. -/
theorem Date.Valid.lt_of_month (ha : a.Valid) (hyear : a.year = b.year) (hmonth : a.month < b.month) :
    a.number < b.number := by
  have hle := daysBeforeMonth_add_le (y := a.year) hmonth
  have hday := ha.day
  unfold Date.number
  rw [← hyear]
  omega

/-- The numbers of two dates of one month differ as their days do. -/
theorem Date.number_add_day {d d' : ℕ} (h : 1 ≤ d) (h' : 1 ≤ d') :
    Date.number ⟨y, m, d⟩ + d' = Date.number ⟨y, m, d'⟩ + d := by
  unfold Date.number
  dsimp only
  omega

end Xinu.Calendar
