import Mathlib.Tactic.IntervalCases
import Xinu.Clock.Ascdate
import Xinu.Lib.Calendar

/-!
# Which dates are right

`ascdate` against the Gregorian calendar. The loops find the year and the month of the day
(`yearLoop_eq`, `monthLoop_eq`), the day of the week is that of the day, and the automatic setting
is daylight savings time (`auto_iff`). Moving the hour ahead past midnight leaves the day of the
week behind.
-/

namespace Xinu

open Calendar

/-- The days before January 1, 1970. -/
abbrev EPOCH : ℕ := 719528

/-- January 1, 1970 is the day the seconds count from. -/
theorem epoch_eq : Date.number ⟨1970, 1, 1⟩ = EPOCH := by decide +kernel

/-- The seconds that have passed since the start of the year 0, at a time in seconds since 1970. -/
def instant (now : ℕ) : ℕ := EPOCH * SECPERDY + now

/-- The day, from the first day of a week on, that is a Sunday. -/
structure SundayFrom (k : ℕ) (d : Date) : Prop where
  /-- It is one of the seven days from day `k` of the month on. -/
  week : k ≤ d.day ∧ d.day < k + 7
  /-- It is a Sunday. -/
  sunday : weekday d.number = 0

/-- An hour of a date. -/
def Calendar.Date.at (d : Date) (hour : ℕ) : ℕ := d.number * SECPERDY + hour * SECPERHR

/-- From 2:00 on the second Sunday of March to 1:00 standard time on the first Sunday of November. -/
def InDst (t : ℕ) : Prop :=
  ∃ y d₁ d₂, SundayFrom 8 ⟨y, 3, d₁⟩ ∧ SundayFrom 1 ⟨y, 11, d₂⟩ ∧
    Date.at ⟨y, 3, d₁⟩ 2 ≤ t ∧ t < Date.at ⟨y, 11, d₂⟩ 1

/-- Daylight savings time applies at a time. -/
def DstApplies (dt_daylight : DateDst) (now : ℕ) : Prop :=
  match dt_daylight with
  | .off => False
  | .on => True
  | .auto => InDst (instant now)

/-- What is printed is an instant: date, time and day of the week. -/
structure AscDate.Shows (r : AscDate) (t : ℕ) : Prop where
  /-- There is such a day in the calendar. -/
  valid : Date.Valid ⟨r.year, r.month + 1, r.day⟩
  /-- It is the day of the instant. -/
  date : Date.number ⟨r.year, r.month + 1, r.day⟩ = t / SECPERDY
  /-- The hour of that day. -/
  hour : r.hour = t % SECPERDY / SECPERHR
  /-- The minute of that hour. -/
  minute : r.minute = t % SECPERHR / SECPERMN
  /-- The second of that minute. -/
  second : r.second = t % SECPERMN
  /-- The day of the week of that day. -/
  dayofweek : r.dayofweek = weekday (t / SECPERDY)

/-- The date is printed right: it is the date in daylight savings time if this applies, and says so. -/
def AscdateRight (dt_daylight : DateDst) (now : ℕ) : Prop :=
  ∃ r, ascdate dt_daylight now = some r ∧
    ((DstApplies dt_daylight now ∧ r.dst = true ∧ r.Shows (instant now + SECPERHR)) ∨
      (¬ DstApplies dt_daylight now ∧ r.dst = false ∧ r.Shows (instant now)))

/-- The first seven days are dates of the month. -/
theorem SundayFrom.valid {y m d k : ℕ} (h : SundayFrom k ⟨y, m, d⟩) (hk : 1 ≤ k) (hm : 1 ≤ m ∧ m ≤ 12)
    (hlen : k + 6 ≤ monthLength y m) : Date.Valid ⟨y, m, d⟩ :=
  ⟨hm, Nat.le_trans hk h.week.1, Nat.le_trans (Nat.lt_succ_iff.mp h.week.2) hlen⟩

namespace Ascdate

variable {year now m n jan1 d : ℕ}

/-- From 1970 through 2099 the rule of the code is the one of the calendar. -/
theorem isleap_iff (h₁ : 1970 ≤ year) (h₂ : year < 2100) : isleap year ↔ IsLeap year := by
  unfold isleap IsLeap
  omega

/-- From 1970 to 2099 the loop that counts years takes each with its length in the calendar. -/
theorem yearLength_eq (h₁ : 1970 ≤ year) (h₂ : year < 2100) :
    yearLength year = if isleap year then 366 else 365 :=
  if_congr (isleap_iff h₁ h₂).symm rfl rfl

/-- The days before a year: one more for each leap year. -/
theorem daysBeforeYear_eq (h₁ : 1970 ≤ year) (h₂ : year ≤ 2100) :
    daysBeforeYear year = EPOCH + 365 * (year - 1970) + (year - 1969) / 4 := by
  induction year, h₁ using Nat.le_induction with
  | base => decide +kernel
  | succ year h₁ ih =>
    have hstep : daysBeforeYear (year + 1) = daysBeforeYear year + yearLength year := rfl
    have hlen := yearLength_eq h₁ (show year < 2100 by omega)
    rw [hstep, ih (by omega)]
    by_cases hleap : isleap year
    · rw [if_pos hleap] at hlen
      unfold isleap at hleap
      omega
    · rw [if_neg hleap] at hlen
      unfold isleap at hleap
      omega

/-- The loop finds the year, and the time in it. -/
theorem yearLoop_eq (year : ℕ) (h₁ : 1970 ≤ year) (hn : now < n)
    (hend : daysBeforeYear year * SECPERDY + now < daysBeforeYear 2100 * SECPERDY) :
    ∃ y r, yearLoop n year now = some (y, r) ∧ 1970 ≤ y ∧ y < 2100 ∧
      daysBeforeYear y * SECPERDY + r = daysBeforeYear year * SECPERDY + now ∧
      r < yearLength y * SECPERDY := by
  induction n generalizing year now with
  | zero => omega
  | succ n ih =>
    -- The instants of the model end before 2100, so this year does too.
    have h₂ : year < 2100 := by
      by_contra hge
      have hmono := monotone_nat_of_le_succ (f := daysBeforeYear)
        (fun _ => Nat.le_add_right _ _) (Nat.le_of_not_lt hge)
      have := Nat.mul_le_mul_right SECPERDY hmono
      omega
    have hlen := yearLength_eq h₁ h₂
    rw [yearLoop, ← hlen]
    by_cases hbreak : yearLength year * SECPERDY > now
    · rw [if_pos hbreak]
      exact ⟨year, now, rfl, h₁, h₂, rfl, hbreak⟩
    · rw [if_neg hbreak]
      -- Another year is counted, and its seconds are taken off.
      have hstep : daysBeforeYear (year + 1) = daysBeforeYear year + yearLength year := rfl
      have hpos : 0 < yearLength year * SECPERDY := by
        rw [hlen]
        split_ifs <;> decide
      have hsum : daysBeforeYear (year + 1) * SECPERDY + (now - yearLength year * SECPERDY) =
          daysBeforeYear year * SECPERDY + now := by
        rw [hstep, Nat.add_mul]
        omega
      have hless : now - yearLength year * SECPERDY < n := by omega
      obtain ⟨y, r, hloop, hy⟩ := ih (year + 1) (Nat.le_succ_of_le h₁) hless (hsum.trans_lt hend)
      rw [hsum] at hy
      exact ⟨y, r, hloop, hy⟩

/-- The length of a month, in the table and with the leap day. -/
theorem msize_eq (h₁ : 1970 ≤ year) (h₂ : year < 2100) (hm : m < 12) :
    (if m = 1 ∧ isleap year then dt_msize.getD m 0 * SECPERDY + SECPERDY else dt_msize.getD m 0 * SECPERDY) =
      monthLength year (m + 1) * SECPERDY := by
  have hleap := isleap_iff h₁ h₂
  interval_cases m <;> simp [dt_msize, monthLength, hleap]
  split_ifs <;> rfl

/-- The loop finds the month, and the time in it. -/
theorem monthLoop_eq (h₁ : 1970 ≤ year) (h₂ : year < 2100) (hn : n + m = 12)
    (hend : daysBeforeMonth year (m + 1) * SECPERDY + now < yearLength year * SECPERDY) :
    ∃ k r, monthLoop year n m now = (k, r) ∧ k < 12 ∧
      daysBeforeMonth year (k + 1) * SECPERDY + r = daysBeforeMonth year (m + 1) * SECPERDY + now ∧
      r < monthLength year (k + 1) * SECPERDY := by
  induction n generalizing m now with
  | zero =>
    obtain rfl : m = 12 := by omega
    rw [daysBeforeMonth_end] at hend
    omega
  | succ n ih =>
    have hm : m < 12 := by omega
    have hlen := msize_eq h₁ h₂ hm
    rw [monthLoop, hlen]
    by_cases hbreak : monthLength year (m + 1) * SECPERDY > now
    · rw [if_pos hbreak]
      exact ⟨m, now, rfl, hm, rfl, hbreak⟩
    · rw [if_neg hbreak]
      have hstep : daysBeforeMonth year (m + 1 + 1) = daysBeforeMonth year
        (m + 1) + monthLength year (m + 1) := rfl
      have hsum : daysBeforeMonth year (m + 1 + 1) * SECPERDY + (now - monthLength year (m + 1) * SECPERDY) =
          daysBeforeMonth year (m + 1) * SECPERDY + now := by
        rw [hstep, Nat.add_mul]
        omega
      obtain ⟨k, r, hloop, hk⟩ := ih (by omega) (hsum.trans_lt hend)
      rw [hsum] at hk
      exact ⟨k, r, hloop, hk⟩

/-- The day of the week of a day of the year, as the code computes it. -/
theorem weekday_eq (h₁ : 1970 ≤ year) (h₂ : year ≤ 2100) (x : ℕ) :
    (4 + (year - 1970) + (year - 1969) / 4 + x) % 7 = weekday (daysBeforeYear year + x) := by
  rw [daysBeforeYear_eq h₁ h₂]
  unfold weekday EPOCH
  omega

/-- The days before March and November. -/
theorem daysBeforeMonth_eq (h₁ : 1970 ≤ year) (h₂ : year < 2100) :
    daysBeforeMonth year 3 = 59 + (if isleap year then 1 else 0) ∧
    daysBeforeMonth year 11 = 304 + (if isleap year then 1 else 0) := by
  have hleap := isleap_iff h₁ h₂
  simp only [daysBeforeMonth, monthLength, hleap]
  split_ifs <;> exact ⟨rfl, rfl⟩

/-- `marss` is the second Sunday of March of the year. -/
theorem marss_iff (h₁ : 1970 ≤ year) (h₂ : year < 2100) :
    SundayFrom 8 ⟨year, 3, d⟩ ↔ d = marss year (weekday (daysBeforeYear year)) := by
  have hbefore := (daysBeforeMonth_eq h₁ h₂).1
  have hsunday : SundayFrom 8 ⟨year, 3, d⟩ ↔ (8 ≤ d ∧ d < 15) ∧
      weekday (daysBeforeYear year + daysBeforeMonth year 3 + (d - 1)) = 0 :=
    ⟨fun h => ⟨h.1, h.2⟩, fun h => ⟨h.1, h.2⟩⟩
  rw [hsunday, hbefore]
  unfold marss weekday
  simp only [dt_msize, List.getD_cons_zero, List.getD_cons_succ]
  generalize daysBeforeYear year = j
  split_ifs <;> omega

/-- `novfs` is the first Sunday of November of the year. -/
theorem novfs_iff (h₁ : 1970 ≤ year) (h₂ : year < 2100) :
    SundayFrom 1 ⟨year, 11, d⟩ ↔ d = novfs year (weekday (daysBeforeYear year)) := by
  have hbefore := (daysBeforeMonth_eq h₁ h₂).2
  have hsunday : SundayFrom 1 ⟨year, 11, d⟩ ↔ (1 ≤ d ∧ d < 8) ∧
      weekday (daysBeforeYear year + daysBeforeMonth year 11 + (d - 1)) = 0 :=
    ⟨fun h => ⟨h.1, h.2⟩, fun h => ⟨h.1, h.2⟩⟩
  have hsum : (dt_msize.take 10).sum = 304 := rfl
  rw [hsunday, hbefore]
  unfold novfs weekday
  simp only [hsum]
  generalize daysBeforeYear year = j
  split_ifs <;> omega

/-- An hour of one day, and a time of another one. -/
theorem at_le {a b : Date} {hour s : ℕ} (hs : s < SECPERDY) (hh : hour < 24) :
    b.at hour ≤ a.number * SECPERDY + s ↔ b.number < a.number ∨
    b.number = a.number ∧ hour ≤ s / SECPERHR := by
  unfold Calendar.Date.at
  generalize a.number = x
  generalize b.number = z
  dsimp only [SECPERDY, SECPERHR] at hs ⊢
  omega

/-- A day belongs to the daylight savings time of its own year. -/
theorem inDst_iff {a : Date} {s : ℕ} (h₁ : 1970 ≤ a.year)
    (h₂ : a.year < 2100) (ha : a.Valid) (hs : s < SECPERDY) :
    InDst (a.number * SECPERDY + s) ↔
      Date.at ⟨a.year, 3, marss a.year (weekday (daysBeforeYear a.year))⟩ 2 ≤ a.number * SECPERDY + s ∧
        a.number * SECPERDY + s < Date.at ⟨a.year, 11, novfs a.year (weekday (daysBeforeYear a.year))⟩ 1 := by
  constructor
  · rintro ⟨y, d₁, d₂, hd₁, hd₂, hfrom, hto⟩
    have hmar := hd₁.valid (by decide) (by decide) (by decide : 14 ≤ 31)
    have hnov := hd₂.valid (by decide) (by decide) (by decide : 7 ≤ 30)
    -- the day is between two days of that year
    have hge : Date.number ⟨y, 3, d₁⟩ ≤ a.number := by
      rcases (at_le hs (by decide)).mp hfrom with hlt | heq
      · exact Nat.le_of_lt hlt
      · exact Nat.le_of_eq heq.1
    have hle : a.number ≤ Date.number ⟨y, 11, d₂⟩ := by
      by_contra hgt
      exact absurd ((at_le hs (by decide)).mpr (.inl (Nat.lt_of_not_le hgt))) (Nat.not_le.mpr hto)
    have hyear : a.year = y :=
      year_unique ha.in_year ⟨Nat.le_trans hmar.in_year.1 hge, Nat.lt_of_le_of_lt hle hnov.in_year.2⟩
    subst hyear
    rw [← (marss_iff h₁ h₂).mp hd₁, ← (novfs_iff h₁ h₂).mp hd₂]
    exact ⟨hfrom, hto⟩
  · rintro ⟨hfrom, hto⟩
    exact ⟨a.year, _, _, (marss_iff h₁ h₂).mpr rfl, (novfs_iff h₁ h₂).mpr rfl, hfrom, hto⟩

/-- The automatic setting is daylight savings time. -/
theorem auto_iff {day s : ℕ} (h₁ : 1970 ≤ year) (h₂ : year < 2100)
    (hd : Date.Valid ⟨year, m + 1, day⟩) (hs : s < SECPERDY) :
    auto year (weekday (daysBeforeYear year)) m day (s / SECPERHR) = true ↔
      InDst (Date.number ⟨year, m + 1, day⟩ * SECPERDY + s) := by
  have hsun := (marss_iff h₁ h₂).mpr rfl
  have hsun' := (novfs_iff h₁ h₂).mpr rfl
  rw [inDst_iff h₁ h₂ hd hs, ← Nat.not_le, at_le hs (by decide), at_le hs (by decide)]
  unfold auto
  generalize hj : weekday (daysBeforeYear year) = j at *
  dsimp only
  generalize marss year j = d₁ at *
  generalize novfs year j = d₂ at *
  have hmar := hsun.valid (by decide) (by decide) (by decide : 14 ≤ 31)
  have hnov := hsun'.valid (by decide) (by decide) (by decide : 7 ≤ 30)
  have hmn : Date.number ⟨year, 3, d₁⟩ < Date.number ⟨year, 11, d₂⟩ :=
    hmar.lt_of_month rfl (show 3 < 11 by decide)
  have hday : 1 ≤ day := hd.day.1
  have hday₁ : 8 ≤ d₁ := hsun.week.1
  have hday₂ : 1 ≤ d₂ := hsun'.week.1
  have hm : m + 1 ≤ 12 := hd.month.2
  rcases Nat.lt_trichotomy (m + 1) 3 with hlt | hmarch | hgt
  · -- January and February
    have hbefore : Date.number ⟨year, m + 1, day⟩ < Date.number ⟨year, 3, d₁⟩ := hd.lt_of_month rfl hlt
    have hoff : m = 11 ∨ m = 0 ∨ m = 1 := by omega
    rw [if_pos hoff]
    exact iff_of_false (by decide) fun h => by omega
  -- March: from the second Sunday on
  · obtain rfl : m = 2 := by omega
    have hnum : Date.number ⟨year, 2 + 1, day⟩ + d₁ = Date.number ⟨year, 3, d₁⟩ + day :=
      Date.number_add_day hday (Nat.le_trans (by decide) hday₁)
    have hbefore : Date.number ⟨year, 2 + 1, day⟩ < Date.number ⟨year, 11, d₂⟩ :=
      hd.lt_of_month rfl (show 2 + 1 < 11 by decide)
    rw [if_neg (by decide), if_neg (by decide), if_pos rfl]
    split_ifs <;> simp only [false_iff, true_iff] <;> omega
  rcases Nat.lt_trichotomy (m + 1) 11 with hlt | hnovember | hgt
  · -- from April through October
    have hafter : Date.number ⟨year, 3, d₁⟩ < Date.number ⟨year, m + 1, day⟩ := hmar.lt_of_month rfl hgt
    have hbefore : Date.number ⟨year, m + 1, day⟩ < Date.number ⟨year, 11, d₂⟩ := hd.lt_of_month rfl hlt
    have hoff : ¬ (m = 11 ∨ m = 0 ∨ m = 1) := by omega
    have hon : m > 2 ∧ m < 10 := by omega
    rw [if_neg hoff, if_pos hon]
    exact iff_of_true rfl (by omega)
  -- November: up to the first Sunday
  · obtain rfl : m = 10 := by omega
    have hnum : Date.number ⟨year, 10 + 1, day⟩ + d₂ = Date.number ⟨year, 11, d₂⟩ + day :=
      Date.number_add_day hday hday₂
    have hafter : Date.number ⟨year, 3, d₁⟩ < Date.number ⟨year, 10 + 1, day⟩ :=
      hmar.lt_of_month rfl (show 3 < 10 + 1 by decide)
    rw [if_neg (by decide), if_neg (by decide), if_neg (by decide), if_pos rfl]
    split_ifs <;> simp only [false_iff, true_iff] <;> omega
  · -- December
    have hafter : Date.number ⟨year, 11, d₂⟩ < Date.number ⟨year, m + 1, day⟩ := hnov.lt_of_month rfl hgt
    have hoff : m = 11 ∨ m = 0 ∨ m = 1 := by omega
    rw [if_pos hoff]
    exact iff_of_false (by decide) fun h => by omega

/-- Without daylight savings time, the date is that of the time. -/
theorem ascdate_eq (dt_daylight : DateDst) (h : instant now < daysBeforeYear 2100 * SECPERDY) :
    ∃ r : AscDate, ascdate dt_daylight now = some (if r.dst then ahead r else r) ∧ r.Shows (instant now) ∧
      (r.dst = true ↔ DstApplies dt_daylight now) := by
  have hepoch : daysBeforeYear 1970 = EPOCH := daysBeforeYear_eq (Nat.le_refl _) (by decide)
  obtain ⟨y, x, hyear, h₁, h₂, hsum, hx⟩ :=
    yearLoop_eq 1970 (Nat.le_refl _) (Nat.lt_succ_self now) (by rw [hepoch]; exact h)
  obtain ⟨k, z, hmonth, hk, hsum', hz⟩ :=
    monthLoop_eq (m := 0) h₁ h₂ rfl (by simpa [daysBeforeMonth, monthLength] using hx)
  have hzero : daysBeforeMonth y (0 + 1) = 0 := rfl
  rw [hepoch] at hsum
  rw [hzero] at hsum'
  -- the day, and the time of the day
  have hday : x / SECPERDY = daysBeforeMonth y (k + 1) + z / SECPERDY := by
    dsimp only [SECPERDY] at hsum' ⊢
    omega
  have hvalid : Date.Valid ⟨y, k + 1, z / SECPERDY + 1⟩ := by
    refine ⟨⟨Nat.le_add_left 1 k, hk⟩, Nat.le_add_left 1 _, ?_⟩
    exact (Nat.div_lt_iff_lt_mul (by decide)).mpr hz
  have htime : instant now = Date.number ⟨y, k + 1, z / SECPERDY + 1⟩ * SECPERDY + z % SECPERDY := by
    unfold instant Date.number
    dsimp only
    rw [← hsum, Nat.add_sub_cancel, Nat.add_mul, Nat.add_mul,
      Nat.add_assoc, Nat.add_assoc, Nat.div_add_mod' z SECPERDY, hsum', Nat.zero_mul,
      Nat.zero_add]
  have hless : z % SECPERDY < SECPERDY := Nat.mod_lt _ (by decide)
  -- the time of the day, in hours, minutes and seconds
  have hmod : instant now % SECPERDY = z % SECPERDY ∧ instant now % SECPERHR = z % SECPERDY % SECPERHR ∧
      instant now % SECPERMN = z % SECPERDY % SECPERHR % SECPERMN ∧
      instant now / SECPERDY = Date.number ⟨y, k + 1, z / SECPERDY + 1⟩ := by
    rw [htime]
    generalize Date.number ⟨y, k + 1, z / SECPERDY + 1⟩ = j
    clear h hepoch hsum hyear hmonth htime
    dsimp only [SECPERDY, SECPERHR, SECPERMN] at hless ⊢
    omega
  have hjan : (4 + (y - 1970) + (y - 1969) / 4) % 7 = weekday (daysBeforeYear y) := by
    have hfirst := weekday_eq h₁ (Nat.le_of_lt h₂) 0
    rwa [Nat.add_zero, Nat.add_zero] at hfirst
  have hnumber : Date.number ⟨y, k + 1, z / SECPERDY + 1⟩ = daysBeforeYear y + x / SECPERDY := by
    unfold Date.number
    rw [hday, Nat.add_assoc]
    rfl
  have hweek : (4 + (y - 1970) + (y - 1969) / 4 + x / SECPERDY) % 7 = weekday (instant now / SECPERDY) := by
    rw [hmod.2.2.2, hnumber]
    exact weekday_eq h₁ (Nat.le_of_lt h₂) _
  refine ⟨⟨(4 + (y - 1970) + (y - 1969) / 4 + x / SECPERDY) % 7, k, z / SECPERDY + 1, z % SECPERDY / SECPERHR,
    z % SECPERDY % SECPERHR / SECPERMN, z % SECPERDY % SECPERHR % SECPERMN, ?_, y⟩,
      ?_, ⟨hvalid, ?_, ?_, ?_, ?_, hweek⟩, ?_⟩
  · cases dt_daylight with
    | on => exact true
    | auto => exact auto y (weekday (daysBeforeYear y)) k (z / SECPERDY + 1) (z % SECPERDY / SECPERHR)
    | off => exact false
  · unfold ascdate
    rw [hyear, Option.map_some]
    dsimp only
    cases dt_daylight <;> rw [hmonth, hjan]
  · exact hmod.2.2.2.symm
  · rw [hmod.1]
  · rw [hmod.2.1]
  · rw [hmod.2.2.1]
  · cases dt_daylight with
    | off => exact iff_of_false Bool.false_ne_true id
    | on => exact iff_of_true rfl trivial
    | auto =>
      dsimp only [DstApplies]
      rw [htime]
      exact auto_iff h₁ h₂ hvalid hless

/-- The hour is moved ahead rightly, unless it is the last one of the day: then the day of the week
should be another one. -/
theorem ahead_shows {r : AscDate} {t : ℕ} (h : r.Shows t) : (ahead r).Shows (t + SECPERHR) ↔ r.hour ≠ 23 := by
  have hhour := h.hour
  have hlt : t % SECPERDY < SECPERDY := Nat.mod_lt _ (by decide)
  unfold ahead
  dsimp only
  by_cases hlast : r.hour + 1 > 23
  · have h23 : r.hour = 23 := by
      dsimp only [SECPERDY, SECPERHR] at hhour hlt
      omega
    -- At the last hour the date moves on, and the day of the week would have to.
    refine iff_of_false (fun hshows => ?_) (not_not.mpr h23)
    have hnext : (t + SECPERHR) / SECPERDY = t / SECPERDY + 1 := by
      dsimp only [SECPERDY, SECPERHR] at hhour hlt ⊢
      omega
    have hweek : r.dayofweek = weekday ((t + SECPERHR) / SECPERDY) := by
      have hday := hshows.dayofweek
      rw [if_pos hlast] at hday
      split at hday <;> exact hday
    rw [hnext, h.dayofweek] at hweek
    unfold weekday at hweek
    omega
  -- At the other hours only the hour changes.
  · rw [if_neg hlast]
    have hsame : (t + SECPERHR) / SECPERDY = t / SECPERDY ∧
        (t + SECPERHR) % SECPERDY / SECPERHR = t % SECPERDY / SECPERHR + 1 ∧
        (t + SECPERHR) % SECPERHR = t % SECPERHR ∧ (t + SECPERHR) % SECPERMN = t % SECPERMN := by
      dsimp only [SECPERDY, SECPERHR, SECPERMN] at hhour hlt ⊢
      omega
    refine iff_of_true ⟨h.valid, ?_, ?_, ?_, ?_, ?_⟩ (by omega)
    · rw [hsame.1]
      exact h.date
    · rw [hsame.2.1, ← hhour]
    · rw [hsame.2.2.1]
      exact h.minute
    · rw [hsame.2.2.2]
      exact h.second
    · rw [hsame.1]
      exact h.dayofweek

end Ascdate

/-- For each setting and every time in the years 1970 through 2099, the right date is printed
exactly if it is not the last hour of a day, by standard time, in daylight savings time. -/
theorem ascdate_right {dt_daylight : DateDst} {now : ℕ} (h : instant now < daysBeforeYear 2100 * SECPERDY) :
    AscdateRight dt_daylight now ↔ ¬ (DstApplies dt_daylight now ∧ now % SECPERDY / SECPERHR = 23) := by
  obtain ⟨r, hr, hshows, hdst⟩ := Ascdate.ascdate_eq dt_daylight h
  have hhour : r.hour = now % SECPERDY / SECPERHR := by
    rw [hshows.hour]
    unfold instant
    rw [Nat.mul_add_mod_self_right]
  rw [← hhour]
  by_cases happlies : DstApplies dt_daylight now
  · have htrue := hdst.mpr happlies
    rw [htrue, if_pos rfl] at hr
    have hdstahead : (Ascdate.ahead r).dst = true := by
      unfold Ascdate.ahead
      dsimp only
      split_ifs <;> exact htrue
    constructor
    · rintro ⟨r', hr', ⟨-, -, hright⟩ | ⟨hno, -⟩⟩ ⟨-, hlast⟩
      · cases Option.some.inj (hr.symm.trans hr')
        exact (Ascdate.ahead_shows hshows).mp hright hlast
      · exact hno happlies
    · intro hno
      exact ⟨_, hr, .inl ⟨happlies, hdstahead, (Ascdate.ahead_shows hshows).mpr fun hlast =>
        hno ⟨happlies, hlast⟩⟩⟩
  · have hfalse : r.dst = false := by
      rw [← Bool.not_eq_true]
      exact fun htrue => happlies (hdst.mp htrue)
    rw [hfalse] at hr
    exact iff_of_true ⟨r, hr, .inr ⟨happlies, hfalse, hshows⟩⟩ fun hlast => happlies hlast.1

/-- Noon of July 4, 2026 in UTC is shown right, as one o'clock with daylight saving time. -/
theorem ascdate_right_noon :
    AscdateRight .auto 1783166400 ∧ ascdate .auto 1783166400 = some ⟨6, 6, 4, 13, 0, 0, true, 2026⟩ := by
  refine ⟨(ascdate_right (by decide +kernel)).mpr fun hlast => absurd hlast.2 (by decide), by decide +kernel⟩

/-- An hour before midnight of the same day, which is a Saturday in standard time: what is printed
is Saturday, July 5. -/
theorem ascdate_wrong :
    ascdate .on 1783206000 = some ⟨6, 6, 5, 0, 0, 0, true, 2026⟩ ∧ weekday (Date.number ⟨2026, 7, 5⟩) = 0 ∧
    ¬ AscdateRight .on 1783206000 := by
  have hrun : ascdate .on 1783206000 = some ⟨6, 6, 5, 0, 0, 0, true, 2026⟩ := by decide +kernel
  refine ⟨hrun, by decide +kernel, ?_⟩
  rintro ⟨r, hr, ⟨-, -, hright⟩ | ⟨hno, -⟩⟩
  · cases Option.some.inj (hrun.symm.trans hr)
    exact absurd hright.dayofweek (by decide +kernel)
  · exact hno trivial

end Xinu
