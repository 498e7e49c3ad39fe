import Boss.Calendar
import Boss.Grid
import Mathlib.Tactic.Ring

/-!
# Local time

Months are numbered from January of the year 0, days from its first day, for all years before and
after.  A day lies in exactly one month, and an instant, counted in seconds from 1970 in universal
time, is a day, a time of day and the distance of the zone.  `localtime` and `mktime` go from one to
the other; a broken-down time may name a month or a day that its year or month does not have, and it
is counted on then.

Main results: `mktime_localtime`, `localtime_monthNumber` and `localtime_year`.
-/

namespace Calendar

/-! ## Months by number -/

/-- Month number `m` as `YYYYMM`. -/
def monthOf (m : Int) : Int := m / 12 * 100 + m % 12 + 1

def firstDay (m : Int) : Int := daysBefore (monthOf m)

def lengthOf (m : Int) : Int := monthLength (monthOf m)

/-- A number of months is so many years and the month in the year. -/
theorem monthOf_parts (m : Int) : monthOf m / 100 = m / 12 ∧ monthOf m % 100 = m % 12 + 1 := by
  unfold monthOf
  omega

theorem lengthOf_pos (m : Int) : 28 ≤ lengthOf m ∧ lengthOf m ≤ 31 := monthLength_pos _

/-- A month begins when the one before it is over. -/
theorem firstDay_succ (m : Int) : firstDay (m + 1) = firstDay m + lengthOf m := by
  obtain ⟨hyear, hmonth⟩ := monthOf_parts m
  obtain ⟨hyear', hmonth'⟩ := monthOf_parts (m + 1)
  by_cases hlast : m % 12 = 11
  · have hy : (m + 1) / 12 = m / 12 + 1 := by omega
    have hm : (m + 1) % 12 = 0 := by omega
    simp only [firstDay, lengthOf, daysBefore, monthLength, hyear, hmonth, hyear', hmonth', hlast,
      hy, hm, daysBeforeYear_succ]
    cases isLeap (m / 12) <;> simp <;> omega
  · have hy : (m + 1) / 12 = m / 12 := by omega
    have hm : (m + 1) % 12 = m % 12 + 1 := by omega
    have hlow : 0 ≤ m % 12 := by omega
    have hhigh : m % 12 < 11 := by omega
    simp only [firstDay, lengthOf, daysBefore, monthLength, hyear, hmonth, hyear', hmonth', hy, hm]
    generalize m % 12 = k at *
    cases isLeap (m / 12) <;> interval_cases k <;> simp <;> omega

/-- A month has 146097 / 4800 days, give or take three days in all. -/
theorem firstDay_bounds (m : Int) :
    146097 * m - 14400 ≤ 4800 * firstDay m ∧ 4800 * firstDay m ≤ 146097 * m + 14400 := by
  obtain ⟨hyear, hmonth⟩ := monthOf_parts m
  have hsplit : m = 12 * (m / 12) + m % 12 := by omega
  have hlow : 0 ≤ m % 12 := by omega
  have hhigh : m % 12 ≤ 11 := by omega
  have hyears : 400 * daysBeforeYear (m / 12) ≤ 146097 * (m / 12) + 701 ∧
      146097 * (m / 12) - 399 ≤ 400 * daysBeforeYear (m / 12) := by
    unfold daysBeforeYear
    omega
  simp only [firstDay, daysBefore, hyear, hmonth]
  generalize m / 12 = y at *
  generalize m % 12 = k at *
  subst hsplit
  cases isLeap y <;> interval_cases k <;> simp <;> omega

/-- A later month does not begin earlier. -/
theorem firstDay_mono {m n : Int} (hle : m ≤ n) : firstDay m ≤ firstDay n := by
  obtain ⟨k, rfl⟩ := Int.le.dest hle
  induction k with
  | zero => simp
  | succ k ih =>
      have hsucc := firstDay_succ (m + k)
      have hpos := lengthOf_pos (m + k)
      have hle' := ih (by omega)
      rw [show m + ((k + 1 : Nat) : Int) = m + k + 1 by omega]
      omega

/-- The month of a day, which is next to where it would be if all months were equally long. -/
def monthAt (d : Int) : Int :=
  let m := 4800 * d / 146097
  if firstDay (m + 1) ≤ d then m + 1 else if firstDay m ≤ d then m else m - 1

/-- A day lies in its month. -/
theorem monthAt_spec (d : Int) : firstDay (monthAt d) ≤ d ∧ d < firstDay (monthAt d + 1) := by
  unfold monthAt
  dsimp only
  have hlow := firstDay_bounds (4800 * d / 146097 - 1)
  have hhigh := firstDay_bounds (4800 * d / 146097 + 1 + 1)
  split_ifs with hnext hsame
  · omega
  · omega
  · rw [show 4800 * d / 146097 - 1 + 1 = 4800 * d / 146097 by omega]
    omega

/-- A day lies in one month. -/
theorem monthAt_eq {d m : Int} (hlow : firstDay m ≤ d) (hhigh : d < firstDay (m + 1)) :
    monthAt d = m := by
  obtain ⟨hlow', hhigh'⟩ := monthAt_spec d
  by_contra hne
  rcases lt_or_gt_of_ne hne with hlt | hgt
  · have hmono := firstDay_mono (Int.add_one_le_of_lt hlt)
    omega
  · have hmono := firstDay_mono (Int.add_one_le_of_lt hgt)
    omega

/-! ## Broken-down time -/

/-- `struct tm`: years from 1900, months and days of the year from 0, the week from Sunday. -/
structure Tm where
  tm_year : Int
  tm_mon : Int
  tm_mday : Int
  tm_hour : Int
  tm_min : Int
  tm_sec : Int
  tm_wday : Int
  tm_yday : Int
  deriving DecidableEq, Repr

/-- January 1900. -/
def january1900 : Int := 1900 * 12

/-- 1970-01-01, a Thursday. -/
def epoch : Int := firstDay (1970 * 12)

/-- The month that a broken-down time names. -/
def Tm.month (tm : Tm) : Int := january1900 + tm.tm_year * 12 + tm.tm_mon

/-- The seconds since midnight. -/
def Tm.clock (tm : Tm) : Int := tm.tm_hour * 3600 + tm.tm_min * 60 + tm.tm_sec

/-- `localtime_r`; the zone is ahead of universal time by `zone` seconds. -/
def localtime (zone t : Int) : Tm :=
  let d := epoch + (t + zone) / 86400
  let clock := (t + zone) % 86400
  let m := monthAt d
  { tm_year := m / 12 - 1900
    tm_mon := m % 12
    tm_mday := d - firstDay m + 1
    tm_hour := clock / 3600
    tm_min := clock / 60 % 60
    tm_sec := clock % 60
    tm_wday := (d - epoch + 4) % 7
    tm_yday := d - firstDay (m / 12 * 12) }

/-- `mktime`, which reads all but the last two fields. -/
def mktime (zone : Int) (tm : Tm) : Int :=
  (firstDay tm.month + tm.tm_mday - 1 - epoch) * 86400 + tm.clock - zone

/-- The first instant of a month. -/
def monthStart (zone m : Int) : Int := (firstDay m - epoch) * 86400 - zone

/-- The month of an instant. -/
def monthOfTime (zone t : Int) : Int := monthAt (epoch + (t + zone) / 86400)

/-- The local month is the one whose span has the time. -/
theorem localtime_month (zone t : Int) : (localtime zone t).month = monthOfTime zone t := by
  simp only [Tm.month, localtime, january1900, monthOfTime]
  omega

/-- The local clock is what is left of the day. -/
theorem localtime_clock (zone t : Int) : (localtime zone t).clock = (t + zone) % 86400 := by
  simp only [Tm.clock, localtime]
  omega

/-- A broken-down time says when it was. -/
theorem mktime_localtime (zone t : Int) : mktime zone (localtime zone t) = t := by
  rw [mktime, localtime_month, localtime_clock]
  simp only [localtime, monthOfTime]
  omega

/-- An instant lies in one month. -/
theorem monthOfTime_eq_iff {zone t m : Int} :
    monthOfTime zone t = m ↔ monthStart zone m ≤ t ∧ t < monthStart zone (m + 1) := by
  obtain ⟨hlow, hhigh⟩ := monthAt_spec (epoch + (t + zone) / 86400)
  unfold monthStart
  constructor
  · rintro rfl
    unfold monthOfTime
    omega
  · rintro ⟨hstart, hend⟩
    exact monthAt_eq (by omega) (by omega)

/-- A month begins behind the days of the one before it. -/
theorem monthStart_succ (zone m : Int) :
    monthStart zone (m + 1) = monthStart zone m + lengthOf m * 86400 := by
  unfold monthStart
  rw [firstDay_succ]
  ring

/-- The months, from January 1900 on. -/
def monthGrid (zone : Int) : Grid where
  point n := monthStart zone (january1900 + n)
  index t := monthOfTime zone t - january1900
  point_lt n := by
    have hsucc := monthStart_succ zone (january1900 + n)
    have hpos := lengthOf_pos (january1900 + n)
    rw [← add_assoc, hsucc]
    omega
  index_eq_iff {t n} := by
    rw [← add_assoc, ← monthOfTime_eq_iff]
    omega

/-- The years, from 1900 on. -/
def yearGrid (zone : Int) : Grid := (monthGrid zone).coarsen 0 12 (by decide)

/-- The local month is the number of its span. -/
theorem localtime_monthNumber (zone t : Int) :
    (localtime zone t).tm_year * 12 + (localtime zone t).tm_mon = (monthGrid zone).index t := by
  have hmonth := localtime_month zone t
  simp only [Tm.month, monthGrid] at hmonth ⊢
  omega

/-- The local year is the number of its span. -/
theorem localtime_year (zone t : Int) : (localtime zone t).tm_year = (yearGrid zone).index t := by
  simp only [localtime, yearGrid, Grid.coarsen, monthGrid, monthOfTime, january1900]
  omega

/-- The day of a broken-down time is one of its month, and the time of day is below a day. -/
structure Tm.Valid (tm : Tm) : Prop where
  day : 1 ≤ tm.tm_mday ∧ tm.tm_mday ≤ lengthOf tm.month
  clock : 0 ≤ tm.clock ∧ tm.clock < 86400

/-- A local time is a valid one. -/
theorem localtime_valid (zone t : Int) : (localtime zone t).Valid := by
  obtain ⟨hlow, hhigh⟩ := monthAt_spec (epoch + (t + zone) / 86400)
  have hsucc := firstDay_succ (monthAt (epoch + (t + zone) / 86400))
  refine ⟨?_, ?_⟩
  · rw [localtime_month]
    simp only [localtime, monthOfTime]
    omega
  · rw [localtime_clock]
    omega

/-- An instant counted from the beginning of its month. -/
theorem mktime_eq (zone : Int) (tm : Tm) :
    mktime zone tm = monthStart zone tm.month + (tm.tm_mday - 1) * 86400 + tm.clock := by
  unfold mktime monthStart
  ring

/-- A valid local time lies in its month. -/
theorem Tm.Valid.mktime_mem {tm : Tm} (h : tm.Valid) (zone : Int) :
    monthStart zone tm.month ≤ mktime zone tm ∧ mktime zone tm < monthStart zone (tm.month + 1) := by
  obtain ⟨⟨hlow, hhigh⟩, hclock, hclock'⟩ := h
  rw [mktime_eq, monthStart_succ]
  omega

/-- The first instant of a month. -/
def Tm.StartsMonth (tm : Tm) : Prop := tm.tm_mday = 1 ∧ tm.clock = 0

/-- The first instant of a year. -/
def Tm.StartsYear (tm : Tm) : Prop := tm.tm_mon = 0 ∧ tm.StartsMonth

instance (tm : Tm) : Decidable tm.StartsMonth := inferInstanceAs (Decidable (_ ∧ _))

instance (tm : Tm) : Decidable tm.StartsYear := inferInstanceAs (Decidable (_ ∧ _))

/-- A valid local time is the first of its month when the month begins there. -/
theorem Tm.Valid.startsMonth_iff {tm : Tm} (h : tm.Valid) (zone : Int) :
    tm.StartsMonth ↔ mktime zone tm = monthStart zone tm.month := by
  obtain ⟨⟨hlow, -⟩, hclock, -⟩ := h
  rw [mktime_eq]
  unfold StartsMonth
  omega

end Calendar
