import Boss.LocalTime

/-!
# Points in time of a call

A `DateTime` has a date `YYYYMMDD` and a time of day `HHMISS`, which may be `240000`; they are kept
as the numbers that their digits write.  Two of them are compared, and subtracted, by what `mktime`
makes of them, so that midnight is one point however it is written.

`mktime` and `localtime` are parameters.  `TimeLib.Exact` is calendar arithmetic in a zone that does
not change its clocks; then a `DateTime` is a day and a second of it (`time_eq`), and `nextday`,
`overnight` and `operator+` do what they say.
-/

namespace Rate

open Calendar

structure DateTime where
  m_Date : Int
  m_Time : Int
deriving DecidableEq, Repr

/-- `mktime`, with the fields that it leaves in its argument, and nothing when it returns
`(time_t)-1`; `localtime`. -/
structure TimeLib where
  mktime : Tm → Option (Int × Tm)
  localtime : Int → Tm

/-- The number that `mktime` returns. -/
def TimeLib.time (lib : TimeLib) (tm : Tm) : Int :=
  match lib.mktime tm with
  | some (t, _) => t
  | none => -1

namespace DateTime

/-- The fields that every operation reads from the digits. -/
def tm (t : DateTime) : Tm :=
  ⟨t.m_Date / 10000 - 1900, t.m_Date / 100 % 100 - 1, t.m_Date % 100,
    t.m_Time / 10000, t.m_Time / 100 % 100, t.m_Time % 100, 0, 0⟩

def dateDigits (w : Tm) : Int := (w.tm_year + 1900) * 10000 + (w.tm_mon + 1) * 100 + w.tm_mday

def timeDigits (w : Tm) : Int := w.tm_hour * 10000 + w.tm_min * 100 + w.tm_sec

/-- The midnight after; `now` is the time at which it is asked for. -/
def nextday (lib : TimeLib) (now : Int) (t : DateTime) : DateTime :=
  let when := { lib.localtime now with
    tm_year := t.tm.tm_year, tm_mon := t.tm.tm_mon, tm_mday := t.tm.tm_mday + 1 }
  match lib.mktime when with
  | some (_, when) => ⟨dateDigits when, 0⟩
  | none => t

/-- The end of the day before, as `240000` of that day. -/
def overnight (lib : TimeLib) (now : Int) (t : DateTime) : DateTime :=
  let when := { lib.localtime now with
    tm_year := t.tm.tm_year, tm_mon := t.tm.tm_mon, tm_mday := t.tm.tm_mday - 1 }
  match lib.mktime when with
  | some (_, when) => ⟨dateDigits when, 240000⟩
  | none => t

/-- `operator+`. -/
def plus (lib : TimeLib) (t1 : DateTime) (duration : Int) : DateTime :=
  match lib.mktime { t1.tm with tm_sec := t1.tm.tm_sec + duration } with
  | some (_, when) => ⟨dateDigits when, timeDigits when⟩
  | none => t1

/-- 1 for Monday to 7 for Sunday, 0 if the date is none. -/
def getWeekDay (lib : TimeLib) (t : DateTime) : Int :=
  match lib.mktime { t.tm with tm_hour := 0, tm_min := 0, tm_sec := 0 } with
  | some (_, w) => if w.tm_wday = 0 then 7 else w.tm_wday
  | none => 0

/-- The instant that a point in time is. -/
def time (lib : TimeLib) (t : DateTime) : Int := lib.time t.tm

section Compare

variable (lib : TimeLib) (t s : DateTime)

/-- `operator-`. -/
def minus : Int := t.time lib - s.time lib

def eq : Prop := t.time lib = s.time lib

def lt : Prop := t.time lib < s.time lib

def le : Prop := t.lt lib s ∨ t.eq lib s

def gt : Prop := ¬ t.le lib s

def ge : Prop := ¬ t.lt lib s

instance : Decidable (t.eq lib s) := inferInstanceAs (Decidable (_ = _))

instance : Decidable (t.lt lib s) := inferInstanceAs (Decidable (_ < _))

instance : Decidable (t.le lib s) := inferInstanceAs (Decidable (_ ∨ _))

instance : Decidable (t.gt lib s) := inferInstanceAs (Decidable (¬ _))

instance : Decidable (t.ge lib s) := inferInstanceAs (Decidable (¬ _))

variable {lib t s}

theorem eq_iff : t.eq lib s ↔ t.time lib = s.time lib := Iff.rfl

theorem lt_iff : t.lt lib s ↔ t.time lib < s.time lib := Iff.rfl

theorem le_iff : t.le lib s ↔ t.time lib ≤ s.time lib := le_iff_lt_or_eq.symm

/-- A point is after another as its time is. -/
theorem gt_iff : t.gt lib s ↔ s.time lib < t.time lib := by rw [gt, le_iff, not_le]

/-- A point is not before another as its time is. -/
theorem ge_iff : t.ge lib s ↔ s.time lib ≤ t.time lib := by rw [ge, lt_iff, not_lt]

end Compare

/-! ## Days -/

/-- The number of a day. -/
def dayOf (date : Int) : Int := firstDay (date / 10000 * 12 + date / 100 % 100 - 1) + date % 100 - 1

/-- The date of a day. -/
def dateOf (d : Int) : Int := monthOf (monthAt d) * 100 + (d - firstDay (monthAt d)) + 1

/-- The second of the day. -/
def clockOf (time : Int) : Int := time / 10000 * 3600 + time / 100 % 100 * 60 + time % 100

/-- A time of day, up to its end. -/
def IsClock (time : Int) : Prop :=
  0 ≤ time ∧ time < 240000 ∧ time / 100 % 100 < 60 ∧ time % 100 < 60 ∨ time = 240000

instance (time : Int) : Decidable (IsClock time) := inferInstanceAs (Decidable (_ ∨ _))

/-- Midnight is a clock. -/
theorem isClock_zero : IsClock 0 := by decide

/-- A point in time that the calendar has. -/
structure Valid (t : DateTime) : Prop where
  date : IsDate t.m_Date
  clock : IsClock t.m_Time

/-- A clock is within its day, the end of the day included. -/
theorem clockOf_bounds {time : Int} (h : IsClock time) :
    0 ≤ clockOf time ∧ clockOf time ≤ 86400 := by
  unfold IsClock at h
  unfold clockOf
  omega

/-- A time of day by its hour, minute and second. -/
theorem clock_parts {time : Int} (h : IsClock time) : ∃ hour minute second : Int,
    time = 10000 * hour + 100 * minute + second ∧
      clockOf time = 3600 * hour + 60 * minute + second ∧
      0 ≤ minute ∧ minute < 60 ∧ 0 ≤ second ∧ second < 60 := by
  refine ⟨time / 10000, time / 100 % 100, time % 100, by omega, ?_, by omega, ?_, by omega, ?_⟩
  · rw [clockOf]
    ring
  · rcases h with ⟨-, -, hminute, -⟩ | rfl
    · exact hminute
    · decide
  · rcases h with ⟨-, -, -, hsecond⟩ | rfl
    · exact hsecond
    · decide

/-- Times of day are ordered as their digits are. -/
theorem clockOf_lt_iff {a b : Int} (ha : IsClock a) (hb : IsClock b) :
    clockOf a < clockOf b ↔ a < b := by
  obtain ⟨hour, minute, second, rfl, hclock, hbounds⟩ := clock_parts ha
  obtain ⟨hour', minute', second', rfl, hclock', hbounds'⟩ := clock_parts hb
  rw [hclock, hclock']
  clear ha hb hclock hclock'
  rcases lt_trichotomy hour hour' with hlt | rfl | hgt
  · omega
  · rcases lt_trichotomy minute minute' with hlt | rfl | hgt <;> omega
  · omega

/-- The digits of a date, for all years. -/
theorem dateOf_parts (d : Int) :
    dateOf d / 10000 * 12 + dateOf d / 100 % 100 - 1 = monthAt d ∧
      dateOf d % 100 = d - firstDay (monthAt d) + 1 := by
  obtain ⟨hlow, hhigh⟩ := monthAt_spec d
  have hlength := lengthOf_pos (monthAt d)
  rw [firstDay_succ] at hhigh
  unfold dateOf monthOf
  generalize monthAt d = m at *
  omega

/-- A day is the day of its date. -/
theorem dayOf_dateOf (d : Int) : dayOf (dateOf d) = d := by
  obtain ⟨hmonth, hday⟩ := dateOf_parts d
  rw [dayOf, hmonth, hday]
  omega

/-- The first of a month is in that month. -/
theorem firstDay_month {ym : Int} (h : IsMonth ym) :
    monthOf (ym / 100 * 12 + ym % 100 - 1) = ym := by
  obtain ⟨-, hlow, hhigh⟩ := h
  unfold monthOf
  omega

/-- Days are numbered in the order of their dates. -/
theorem dayOf_eq {date : Int} (h : IsDate date) : dayOf date = dayIndex date - 1 := by
  have hyear : date / 10000 = date / 100 / 100 := by omega
  rw [dayOf, dayIndex, firstDay, hyear, firstDay_month h.1]

/-- Dates are ordered as their days are. -/
theorem dayOf_lt_iff {a b : Int} (ha : IsDate a) (hb : IsDate b) : dayOf a < dayOf b ↔ a < b := by
  rw [dayOf_eq ha, dayOf_eq hb, ← dayIndex_lt_iff ha hb]
  omega

/-- A date is the date of its day. -/
theorem dateOf_dayOf {date : Int} (h : IsDate date) : dateOf (dayOf date) = date := by
  have hyear : date / 10000 = date / 100 / 100 := by omega
  obtain ⟨hmonth, hlow, hhigh⟩ := h
  have hname := firstDay_month hmonth
  have hat : monthAt (dayOf date) = date / 100 / 100 * 12 + date / 100 % 100 - 1 := by
    refine monthAt_eq ?_ ?_
    · rw [dayOf, hyear]
      omega
    · rw [firstDay_succ, lengthOf, hname, dayOf, hyear]
      omega
  rw [dateOf, hat, hname, dayOf, hyear]
  omega

end DateTime

/-! ## Exact calendar arithmetic -/

/-- `mktime` never fails and counts days and seconds, in a zone that is ahead of universal time by
`zone` seconds all year round. -/
structure TimeLib.Exact (lib : TimeLib) (zone : Int) : Prop where
  mktime : ∀ tm, lib.mktime tm =
    some (Calendar.mktime zone tm, Calendar.localtime zone (Calendar.mktime zone tm))
  localtime : ∀ t, lib.localtime t = Calendar.localtime zone t

/-- The library of a zone. -/
def exactLib (zone : Int) : TimeLib where
  mktime tm := some (Calendar.mktime zone tm, Calendar.localtime zone (Calendar.mktime zone tm))
  localtime := Calendar.localtime zone

theorem exactLib_exact (zone : Int) : (exactLib zone).Exact zone := ⟨fun _ => rfl, fun _ => rfl⟩

namespace DateTime

section Exact

variable {lib : TimeLib} {zone now : Int} {t s : DateTime}

/-- The month of a point is that of its date. -/
theorem month_tm (t : DateTime) :
    t.tm.month = t.m_Date / 10000 * 12 + t.m_Date / 100 % 100 - 1 := by
  simp only [Tm.month, tm, january1900]
  omega

/-- **A point in time is a day and a second of it.** -/
theorem time_eq (hlib : lib.Exact zone) (t : DateTime) :
    t.time lib = (dayOf t.m_Date - epoch) * 86400 + clockOf t.m_Time - zone := by
  simp only [time, TimeLib.time, hlib.mktime, Calendar.mktime, month_tm]
  rfl

/-- The date of an instant. -/
theorem dateDigits_localtime (zone x : Int) :
    dateDigits (localtime zone x) = dateOf (epoch + (x + zone) / 86400) := by
  simp only [dateDigits, localtime, dateOf, monthOf]
  omega

/-- The digits of an instant are its day and its second. -/
theorem clockOf_localtime (zone x : Int) :
    clockOf (timeDigits (localtime zone x)) = (x + zone) % 86400 := by
  simp only [clockOf, timeDigits, localtime]
  omega

/-- `operator+` is exact. -/
theorem time_plus (hlib : lib.Exact zone) (t : DateTime) (duration : Int) :
    (t.plus lib duration).time lib = t.time lib + duration := by
  have hsum : Calendar.mktime zone { t.tm with tm_sec := t.tm.tm_sec + duration } =
      t.time lib + duration := by
    simp only [time, TimeLib.time, hlib.mktime, Calendar.mktime, Tm.month, Tm.clock]
    ring
  simp only [plus, hlib.mktime, hsum]
  rw [time_eq hlib]
  simp only [dateDigits_localtime, clockOf_localtime, dayOf_dateOf]
  omega

/-- Some days on, at the time of day of `w`. -/
theorem mktime_when (zone : Int) (w : Tm) (t : DateTime) (n : Int) :
    Calendar.mktime zone { w with
      tm_year := t.tm.tm_year, tm_mon := t.tm.tm_mon, tm_mday := t.tm.tm_mday + n } =
    (dayOf t.m_Date + n - epoch) * 86400 + w.clock - zone := by
  have hmonth := month_tm t
  simp only [Tm.month] at hmonth
  simp only [Calendar.mktime, Tm.month, Tm.clock, hmonth]
  simp only [dayOf, tm]
  ring

/-- Within a day the local date is that of the day. -/
theorem date_localtime (zone d now : Int) :
    dateDigits (localtime zone ((d - epoch) * 86400 + (now + zone) % 86400 - zone)) = dateOf d := by
  rw [dateDigits_localtime]
  congr 1
  omega

/-- The next day begins at midnight of the day after. -/
theorem nextday_eq (hlib : lib.Exact zone) (now : Int) (t : DateTime) :
    t.nextday lib now = ⟨dateOf (dayOf t.m_Date + 1), 0⟩ := by
  simp only [nextday, hlib.mktime, hlib.localtime, mktime_when, localtime_clock, date_localtime]

/-- Over night is the end of the day before. -/
theorem overnight_eq (hlib : lib.Exact zone) (now : Int) (t : DateTime) :
    t.overnight lib now = ⟨dateOf (dayOf t.m_Date - 1), 240000⟩ := by
  have hwhen := mktime_when zone (localtime zone now) t (-1)
  simp only [← sub_eq_add_neg] at hwhen
  simp only [overnight, hlib.mktime, hlib.localtime, hwhen, localtime_clock, date_localtime]

/-- The date of the next day is the next date of the calendar. -/
theorem nextday_nextDay (hlib : lib.Exact zone) (now : Int) (ht : IsDate t.m_Date) :
    t.nextday lib now = ⟨nextDay t.m_Date, 0⟩ := by
  obtain ⟨hdate, hindex⟩ := nextDay_spec ht
  have hday : dayOf t.m_Date + 1 = dayOf (nextDay t.m_Date) := by
    rw [dayOf_eq ht, dayOf_eq hdate, hindex]
    omega
  rw [nextday_eq hlib, hday, dateOf_dayOf hdate]

/-- From the next midnight back to the day that it ends. -/
theorem overnight_nextDay (hlib : lib.Exact zone) (now : Int) {date : Int} (hdate : IsDate date) :
    (mk (nextDay date) 0).overnight lib now = ⟨date, 240000⟩ := by
  obtain ⟨hnext, hindex⟩ := nextDay_spec hdate
  have hday : dayOf (nextDay date) - 1 = dayOf date := by
    rw [dayOf_eq hdate, dayOf_eq hnext, hindex]
    omega
  rw [overnight_eq hlib, hday, dateOf_dayOf hdate]

/-- The next midnight is the end of the day. -/
theorem time_midnight (hlib : lib.Exact zone) {date : Int} (hdate : IsDate date) :
    (mk (nextDay date) 0).time lib = (mk date 240000).time lib := by
  obtain ⟨hnext, hindex⟩ := nextDay_spec hdate
  simp only [time_eq hlib, dayOf_eq hdate, dayOf_eq hnext, hindex]
  simp only [clockOf]
  omega

/-- A point in time is in its day. -/
theorem time_bounds (hlib : lib.Exact zone) (ht : IsClock t.m_Time) :
    (mk t.m_Date 0).time lib ≤ t.time lib ∧ t.time lib ≤ (mk t.m_Date 240000).time lib := by
  obtain ⟨hlow, hhigh⟩ := clockOf_bounds ht
  have hzero : clockOf 0 = 0 := by decide
  have hfull : clockOf 240000 = 86400 := by decide
  simp only [time_eq hlib]
  omega

end Exact

end DateTime

end Rate
