import Mathlib.Algebra.Order.Ring.Int
import Mathlib.Logic.Function.Iterate
import Mathlib.Tactic.IntervalCases

/-!
# Dates as numbers

A date is written `YYYYMMDD`, a month `YYYYMM`, and the numbers are compared as they stand.
Here they are counted: `monthIndex` and `dayIndex` number the months and the days one after the
other.  Counting keeps the order, since the months of a year and the days of a month never reach
the place of the next digit group.

`Units` is what is left of a calendar then: a time is cut into a unit, whose count keeps the
order, and a rest.  `elapsed` counts the whole units since an anchor, with a borrow when the rest
of the time comes before the rest of the anchor, and `Apart.le_iff` says that it is the right
count: a point `k` units after the anchor has been passed exactly when `k` units have elapsed.
-/

namespace Calendar

/-! ## Months and days -/

def isLeap (y : Int) : Bool := y % 4 = 0 && (y % 100 ≠ 0 || y % 400 = 0)

/-- The length of a month `YYYYMM`. -/
def monthLength (ym : Int) : Int :=
  if ym % 100 = 2 then if isLeap (ym / 100) then 29 else 28
  else if ym % 100 = 4 ∨ ym % 100 = 6 ∨ ym % 100 = 9 ∨ ym % 100 = 11 then 30 else 31

/-- A month `YYYYMM`. -/
def IsMonth (ym : Int) : Prop := 0 ≤ ym ∧ 1 ≤ ym % 100 ∧ ym % 100 ≤ 12

/-- A date `YYYYMMDD`. -/
def IsDate (ymd : Int) : Prop :=
  IsMonth (ymd / 100) ∧ 1 ≤ ymd % 100 ∧ ymd % 100 ≤ monthLength (ymd / 100)

instance (ym : Int) : Decidable (IsMonth ym) := inferInstanceAs (Decidable (_ ∧ _))

instance (ymd : Int) : Decidable (IsDate ymd) := inferInstanceAs (Decidable (_ ∧ _))

def monthIndex (ym : Int) : Int := ym / 100 * 12 + ym % 100

/-- The month `n` months on. -/
def addMonths (n ym : Int) : Int :=
  (monthIndex ym - 1 + n) / 12 * 100 + (monthIndex ym - 1 + n) % 12 + 1

/-- The days before a year. -/
def daysBeforeYear (y : Int) : Int := 365 * y + (y + 3) / 4 - (y + 99) / 100 + (y + 399) / 400

/-- The days before a month: 31 for each of its year, less the short ones that are over. -/
def daysBefore (ym : Int) : Int :=
  daysBeforeYear (ym / 100) + 31 * (ym % 100 - 1) -
    (if 2 < ym % 100 then if isLeap (ym / 100) then 2 else 3 else 0) -
    (if 4 < ym % 100 then 1 else 0) - (if 6 < ym % 100 then 1 else 0) -
    (if 9 < ym % 100 then 1 else 0) - (if 11 < ym % 100 then 1 else 0)

def dayIndex (ymd : Int) : Int := daysBefore (ymd / 100) + ymd % 100

/-- The day after. -/
def nextDay (ymd : Int) : Int :=
  if ymd % 100 < monthLength (ymd / 100) then ymd + 1 else addMonths 1 (ymd / 100) * 100 + 1

/-- The date `n` days on. -/
def addDays (n ymd : Int) : Int := nextDay^[n.toNat] ymd

/-- Adding months counts the months on. -/
theorem addMonths_spec {n ym : Int} (hn : 0 ≤ n) (hym : IsMonth ym) :
    IsMonth (addMonths n ym) ∧ monthIndex (addMonths n ym) = monthIndex ym + n := by
  obtain ⟨hpos, hlow, hhigh⟩ := hym
  simp only [IsMonth, addMonths, monthIndex]
  omega

/-- Months are ordered as their numbers are. -/
theorem monthIndex_lt_iff {a b : Int} (ha : IsMonth a) (hb : IsMonth b) :
    monthIndex a < monthIndex b ↔ a < b := by
  obtain ⟨-, ha₁, ha₂⟩ := ha
  obtain ⟨-, hb₁, hb₂⟩ := hb
  simp only [monthIndex]
  omega

/-- A month is known by its number. -/
theorem monthIndex_inj {a b : Int} (ha : IsMonth a) (hb : IsMonth b)
    (h : monthIndex a = monthIndex b) : a = b := by
  have hab := monthIndex_lt_iff ha hb
  have hba := monthIndex_lt_iff hb ha
  omega

/-- A month has 28 to 31 days. -/
theorem monthLength_pos (ym : Int) : 28 ≤ monthLength ym ∧ monthLength ym ≤ 31 := by
  unfold monthLength
  split_ifs <;> omega

/-- The days of a year are those of its months. -/
theorem daysBeforeYear_succ (y : Int) :
    daysBeforeYear (y + 1) = daysBeforeYear y + if isLeap y then 366 else 365 := by
  simp only [daysBeforeYear, isLeap, Bool.and_eq_true, Bool.or_eq_true, decide_eq_true_eq]
  split_ifs with h <;> omega

/-- A month begins when the one before it is over. -/
theorem daysBefore_next {ym : Int} (hym : IsMonth ym) :
    daysBefore (addMonths 1 ym) = daysBefore ym + monthLength ym := by
  obtain ⟨-, hlow, hhigh⟩ := hym
  by_cases hlast : ym % 100 = 12
  · have hyear : addMonths 1 ym / 100 = ym / 100 + 1 := by
      simp only [addMonths, monthIndex]
      omega
    have hmonth : addMonths 1 ym % 100 = 1 := by
      simp only [addMonths, monthIndex]
      omega
    simp only [daysBefore, monthLength, hyear, hmonth, hlast, daysBeforeYear_succ]
    cases isLeap (ym / 100) <;> simp <;> omega
  · have hyear : addMonths 1 ym / 100 = ym / 100 := by
      simp only [addMonths, monthIndex]
      omega
    have hmonth : addMonths 1 ym % 100 = ym % 100 + 1 := by
      simp only [addMonths, monthIndex]
      omega
    simp only [daysBefore, monthLength, hyear, hmonth]
    generalize ym % 100 = m at *
    cases isLeap (ym / 100) <;> interval_cases m <;> simp <;> omega

/-- A later month begins behind the end of an earlier one. -/
theorem daysBefore_addMonths {ym : Int} (hym : IsMonth ym) (n : Nat) :
    daysBefore ym + monthLength ym ≤ daysBefore (addMonths (n + 1) ym) := by
  induction n with
  | zero => exact (daysBefore_next hym).ge
  | succ n ih =>
      obtain ⟨hmonth, hindex⟩ := addMonths_spec (by omega : (0 : Int) ≤ n + 1) hym
      have hnext : addMonths ((n + 1 : Nat) + 1) ym = addMonths 1 (addMonths (n + 1) ym) := by
        refine monthIndex_inj (addMonths_spec (by omega) hym).1
          (addMonths_spec (by omega) hmonth).1 ?_
        rw [(addMonths_spec (by omega) hym).2, (addMonths_spec (by omega) hmonth).2, hindex]
        omega
      rw [hnext, daysBefore_next hmonth]
      have hlength := monthLength_pos (addMonths (n + 1) ym)
      omega

/-- The days of a month are over when a later month begins. -/
theorem daysBefore_mono {a b : Int} (ha : IsMonth a) (hb : IsMonth b) (hlt : a < b) :
    daysBefore a + monthLength a ≤ daysBefore b := by
  have hindex := (monthIndex_lt_iff ha hb).mpr hlt
  obtain ⟨n, hn⟩ := Int.le.dest (Int.add_one_le_of_lt hindex)
  have hb' : addMonths (n + 1) a = b := by
    refine monthIndex_inj (addMonths_spec (by omega) ha).1 hb ?_
    rw [(addMonths_spec (by omega) ha).2]
    omega
  rw [← hb']
  exact daysBefore_addMonths ha n

/-- **Counting the days keeps the order of dates.** -/
theorem dayIndex_lt_iff {a b : Int} (ha : IsDate a) (hb : IsDate b) :
    dayIndex a < dayIndex b ↔ a < b := by
  have hmono : ∀ {a b : Int}, IsDate a → IsDate b → a < b → dayIndex a < dayIndex b := by
    rintro a b ⟨ha, ha₁, ha₂⟩ ⟨hb, hb₁, hb₂⟩ hlt
    simp only [dayIndex]
    rcases (Int.ediv_le_ediv (by omega) hlt.le : a / 100 ≤ b / 100).lt_or_eq with hmonth | hmonth
    · have hover := daysBefore_mono ha hb hmonth
      omega
    · rw [hmonth]
      omega
  constructor
  · intro hlt
    by_contra hle
    rcases (not_lt.mp hle).lt_or_eq with hba | rfl
    · have hgt := hmono hb ha hba
      omega
    · omega
  · exact hmono ha hb

/-- The next day is a date with the next number. -/
theorem nextDay_spec {ymd : Int} (hymd : IsDate ymd) :
    IsDate (nextDay ymd) ∧ dayIndex (nextDay ymd) = dayIndex ymd + 1 := by
  obtain ⟨hmonth, hlow, hhigh⟩ := hymd
  unfold nextDay
  split_ifs with hin
  · have hlength := monthLength_pos (ymd / 100)
    have hsame : (ymd + 1) / 100 = ymd / 100 := by omega
    have hday : (ymd + 1) % 100 = ymd % 100 + 1 := by omega
    simp only [IsDate, dayIndex, hsame, hday]
    exact ⟨⟨hmonth, by omega, by omega⟩, by omega⟩
  · have hsame : (addMonths 1 (ymd / 100) * 100 + 1) / 100 = addMonths 1 (ymd / 100) := by omega
    have hday : (addMonths 1 (ymd / 100) * 100 + 1) % 100 = 1 := by omega
    have hlength := monthLength_pos (addMonths 1 (ymd / 100))
    simp only [IsDate, dayIndex, hsame, hday, daysBefore_next hmonth]
    exact ⟨⟨(addMonths_spec (by omega) hmonth).1, by omega, by omega⟩, by omega⟩

/-- Adding days counts the days on. -/
theorem addDays_spec {n ymd : Int} (hn : 0 ≤ n) (hymd : IsDate ymd) :
    IsDate (addDays n ymd) ∧ dayIndex (addDays n ymd) = dayIndex ymd + n := by
  obtain ⟨n, rfl⟩ := Int.eq_ofNat_of_zero_le hn
  simp only [addDays, Int.toNat_natCast]
  induction n with
  | zero => exact ⟨hymd, by simp⟩
  | succ n ih =>
      obtain ⟨hdate, hindex⟩ := ih (by omega)
      obtain ⟨hdate', hindex'⟩ := nextDay_spec hdate
      rw [Function.iterate_succ_apply']
      exact ⟨hdate', by omega⟩

/-! ## Units of time -/

/-- A way to cut a time into a unit and a rest below `place`: the units in use, and their count,
which keeps the order. -/
structure Units where
  place : Int
  place_pos : 0 < place
  Valid : Int → Prop
  index : Int → Int
  index_lt_iff : ∀ {a b}, Valid a → Valid b → (index a < index b ↔ a < b)

/-- `YYYYMM` before eight digits. -/
def months : Units := ⟨100000000, by decide, IsMonth, monthIndex, monthIndex_lt_iff⟩

/-- `YYYY` before ten digits. -/
def years : Units := ⟨10000000000, by decide, fun y => 0 ≤ y, id, fun _ _ => Iff.rfl⟩

/-- `YYYYMMDD` before six digits. -/
def days : Units := ⟨1000000, by decide, IsDate, dayIndex, dayIndex_lt_iff⟩

namespace Units

variable (U : Units)

/-- A time whose unit is in use. -/
def Time (t : Int) : Prop := U.Valid (t / U.place)

/-- The whole units from `F` to `t`. -/
def elapsed (F t : Int) : Int :=
  U.index (t / U.place) - U.index (F / U.place) - if t % U.place < F % U.place then 1 else 0

/-- `b` lies `k` units after `F`. -/
structure Apart (F k b : Int) : Prop where
  time : U.Time b
  rest : b % U.place = F % U.place
  index : U.index (b / U.place) = U.index (F / U.place) + k

variable {U} {F s t b b' k k' : Int}

theorem rest_bounds (t : Int) : 0 ≤ t % U.place ∧ t % U.place < U.place :=
  ⟨Int.emod_nonneg t U.place_pos.ne', Int.emod_lt_of_pos t U.place_pos⟩

/-- Times are compared by their units, and by their rests within a unit. -/
theorem le_iff (hs : U.Time s) (ht : U.Time t) :
    s ≤ t ↔ U.index (s / U.place) < U.index (t / U.place) ∨
      U.index (s / U.place) = U.index (t / U.place) ∧ s % U.place ≤ t % U.place := by
  have hst := U.index_lt_iff hs ht
  have hts := U.index_lt_iff ht hs
  have hs' := Int.emod_add_mul_ediv s U.place
  have ht' := Int.emod_add_mul_ediv t U.place
  have hsr := rest_bounds (U := U) s
  have htr := rest_bounds (U := U) t
  rcases lt_trichotomy (s / U.place) (t / U.place) with hlt | heq | hgt
  · have hmul : U.place * (s / U.place + 1) ≤ U.place * (t / U.place) :=
      Int.mul_le_mul_of_nonneg_left hlt U.place_pos.le
    rw [Int.mul_add, Int.mul_one] at hmul
    have hindex := hst.mpr hlt
    exact ⟨fun _ => .inl hindex, fun _ => by omega⟩
  · rw [heq] at hs' ⊢
    simp only [lt_irrefl, true_and, false_or]
    omega
  · have hmul : U.place * (t / U.place + 1) ≤ U.place * (s / U.place) :=
      Int.mul_le_mul_of_nonneg_left hgt U.place_pos.le
    rw [Int.mul_add, Int.mul_one] at hmul
    have hindex := hts.mpr hgt
    exact ⟨fun _ => by omega, fun _ => by omega⟩

/-- **The count of elapsed units is right.** -/
theorem Apart.le_iff (hb : U.Apart F k b) (ht : U.Time t) : b ≤ t ↔ k ≤ U.elapsed F t := by
  rw [Units.le_iff hb.time ht, hb.rest, hb.index, elapsed]
  split_ifs with hborrow <;> omega

theorem apart_self (hF : U.Time F) : U.Apart F 0 F := ⟨hF, rfl, by omega⟩

theorem elapsed_nonneg (hF : U.Time F) (ht : U.Time t) (hle : F ≤ t) : 0 ≤ U.elapsed F t :=
  ((apart_self hF).le_iff ht).mp hle

/-- Points after the same anchor are ordered as their distances are. -/
theorem Apart.le_iff_le (hb : U.Apart F k b) (hb' : U.Apart F k' b') : b ≤ b' ↔ k ≤ k' := by
  rw [Units.le_iff hb.time hb'.time, hb.rest, hb'.rest, hb.index, hb'.index]
  omega

/-! ## Cycles -/

/-- The multiple of `span` that a number has reached. -/
def align (span n : Int) : Int := n - n % span

/-- Aligning goes back by less than the span, to a multiple of it. -/
theorem align_le {span : Int} (hspan : 0 < span) (n : Int) :
    align span n ≤ n ∧ n < align span n + span ∧ span ∣ align span n := by
  have hlow := Int.emod_nonneg n hspan.ne'
  have hhigh := Int.emod_lt_of_pos n hspan
  exact ⟨by unfold align; omega, by unfold align; omega, Int.dvd_self_sub_emod⟩

/-- Aligning does not go below zero. -/
theorem align_nonneg {span n : Int} (hspan : 0 < span) (hn : 0 ≤ n) : 0 ≤ align span n := by
  have hhigh := Int.emod_lt_of_pos n hspan
  unfold align
  by_cases hlt : n < span
  · rw [Int.emod_eq_of_lt hn hlt]
    omega
  · omega

/-- A number that is counted `d` too high still goes back to a multiple below it as long as `d`
fits on top of its own remainder. -/
theorem align_add_le_iff {span n d : Int} (hspan : 0 < span) (hd : 0 ≤ d) :
    align span (n + d) ≤ n ↔ n % span + d < span := by
  obtain ⟨-, hhigh, k, hk⟩ := align_le hspan (n + d)
  have hlow := Int.emod_nonneg n hspan.ne'
  constructor
  · intro hle
    have hrest : n % span = n - align span (n + d) := by
      rw [hk] at hle hhigh ⊢
      rw [← Int.sub_mul_emod_self_left n span k]
      exact Int.emod_eq_of_lt (by omega) (by omega)
    omega
  · intro hlt
    have hrest : (n + d) % span = n % span + d := by
      rw [← Int.emod_add_emod]
      exact Int.emod_eq_of_lt (by omega) hlt
    unfold align
    omega

/-- **Cycles of one length from one anchor are equal or disjoint.** -/
theorem Apart.eq_or_disjoint {span e e' : Int} (hspan : 0 < span) (hk : span ∣ k) (hk' : span ∣ k')
    (hb : U.Apart F k b) (he : U.Apart F (k + span) e) (hb' : U.Apart F k' b')
    (he' : U.Apart F (k' + span) e') : (b = b' ∧ e = e') ∨ e ≤ b' ∨ e' ≤ b := by
  obtain ⟨i, rfl⟩ := hk
  obtain ⟨j, rfl⟩ := hk'
  have hstep : ∀ {i j : Int}, i < j → span * i + span ≤ span * j := by
    intro i j hij
    have hmul := Int.mul_le_mul_of_nonneg_left hij hspan.le
    rwa [Int.mul_add, Int.mul_one] at hmul
  rcases lt_trichotomy i j with hlt | rfl | hgt
  · exact .inr (.inl ((he.le_iff_le hb').mpr (hstep hlt)))
  · exact .inl ⟨le_antisymm ((hb.le_iff_le hb').mpr le_rfl) ((hb'.le_iff_le hb).mpr le_rfl),
      le_antisymm ((he.le_iff_le he').mpr le_rfl) ((he'.le_iff_le he).mpr le_rfl)⟩
  · exact .inr (.inr ((he'.le_iff_le hb).mpr (hstep hgt)))

end Units

end Calendar
