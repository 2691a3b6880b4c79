import Mathlib

/-!
# Dates in text

`ascdate` of `system/ascdate.c`: the date and time of a number of seconds, by repeated subtraction,
with the hour of daylight savings time. The result is what the call of `sprintf` prints: months are
0 to 11 and days of the week 0 to 6, the indices of the names.
-/

namespace Xinu

/-- `SECPERDY`. -/
abbrev SECPERDY : ℕ := 60 * 60 * 24

/-- `SECPERHR`. -/
abbrev SECPERHR : ℕ := 60 * 60

/-- `SECPERMN`. -/
abbrev SECPERMN : ℕ := 60

/-- `DATE_DST_OFF`, `DATE_DST_ON` and `DATE_DST_AUTO`, the values of `Date.dt_daylight`. -/
inductive DateDst where
  | off
  | on
  | auto
  deriving DecidableEq, Repr

/-- `isleap(x)`. -/
def isleap (x : ℕ) : Prop := x % 4 = 0

instance decidableIsleap (x : ℕ) : Decidable (isleap x) := inferInstanceAs (Decidable (x % 4 = 0))

/-- `Date.dt_msize`. -/
def dt_msize : List ℕ := [31, 28, 31, 30, 31, 30, 31, 31, 30, 31, 30, 31]

/-- What `sprintf` is called with. -/
structure AscDate where
  /-- The day of the week, as an index of `Date.dt_dnam`: 0 for Sunday. -/
  dayofweek : ℕ
  /-- The month, as an index of `Date.dt_mnam`: 0 for January. -/
  month : ℕ
  /-- The day of the month, from 1 on. -/
  day : ℕ
  /-- The hour, from 0 to 23. -/
  hour : ℕ
  /-- The minute. -/
  minute : ℕ
  /-- The second. -/
  second : ℕ
  /-- Whether the zone is that of daylight savings time. -/
  dst : Bool
  /-- The year. -/
  year : ℕ
  deriving DecidableEq, Repr

namespace Ascdate

/-- The loop that finds the year, with the seconds that are left. There is no result if it has not
ended after `n` years. -/
def yearLoop : ℕ → ℕ → ℕ → Option (ℕ × ℕ)
  | 0, _, _ => none
  | n + 1, year, now =>
    let days := if isleap year then 366 else 365
    let tmp := days * SECPERDY
    if tmp > now then some (year, now) else yearLoop n (year + 1) (now - tmp)

/-- The loop that finds the month. -/
def monthLoop (year : ℕ) : ℕ → ℕ → ℕ → ℕ × ℕ
  | 0, month, now => (month, now)
  | n + 1, month, now =>
    let tmp := dt_msize.getD month 0 * SECPERDY
    let tmp := if month = 1 ∧ isleap year then tmp + SECPERDY else tmp
    if tmp > now then (month, now) else monthLoop year n (month + 1) (now - tmp)

/-- The day of the second Sunday in March, from the day of the week of January 1. -/
def marss (year jan1 : ℕ) : ℕ :=
  let mar1 := (jan1 + dt_msize.getD 0 0 + dt_msize.getD 1 0 + if isleap year then 1 else 0) % 7
  if mar1 = 0 then 8 else 15 - mar1

/-- The day of the first Sunday in November. -/
def novfs (year jan1 : ℕ) : ℕ :=
  let nov1 := jan1 + (dt_msize.take 10).sum
  let nov1 := if isleap year then nov1 + 1 else nov1
  let nov1 := nov1 % 7
  if nov1 = 0 then 1 else 8 - nov1

/-- The automatic setting. -/
def auto (year jan1 month day hour : ℕ) : Bool :=
  if month = 11 ∨ month = 0 ∨ month = 1 then false
  else if month > 2 ∧ month < 10 then true
  else if month = 2 then
    if day > marss year jan1 then true
    else if day = marss year jan1 ∧ hour ≥ 2 then true
    else false
  else if month = 10 then
    if day > novfs year jan1 then false
    else if day = novfs year jan1 ∧ hour ≥ 1 then false
    else true
  else false

/-- The hour is moved ahead. The day of the week stays. -/
def ahead (r : AscDate) : AscDate :=
  let hour := r.hour + 1
  if hour > 23 then
    let day := r.day + 1
    if day > dt_msize.getD r.month 0 then { r with hour := 0, day := 1, month := r.month + 1 }
    else { r with hour := 0, day := day }
  else { r with hour := hour }

end Ascdate

open Ascdate in
/-- `ascdate(now, str)`. -/
def ascdate (dt_daylight : DateDst) (now : ℕ) : Option AscDate :=
  (yearLoop (now + 1) 1970 now).map fun r =>
    let year := r.1
    let now := r.2
    let days := now / SECPERDY
    let m := monthLoop year 12 0 now
    let month := m.1
    let now := m.2
    let day := now / SECPERDY + 1
    let now := now % SECPERDY
    let hour := now / SECPERHR
    let now := now % SECPERHR
    let minute := now / SECPERMN
    let second := now % SECPERMN
    let leapyrs := (year - 1969) / 4
    let shift := 4 + (year - 1970) + leapyrs
    let jan1 := shift % 7
    let dayofweek := (shift + days) % 7
    let dst := match dt_daylight with
      | .on => true
      | .auto => auto year jan1 month day hour
      | .off => false
    let date : AscDate := ⟨dayofweek, month, day, hour, minute, second, dst, year⟩
    if dst then ahead date else date

end Xinu
