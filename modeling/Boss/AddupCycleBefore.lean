import Boss.AddupCycleRule
import Boss.DateTime

/-!
# Calls before the first cycle

An offset can put the start `F` of the first cycle behind a call.  Then the units since `F` are a
negative number, and `getSumTimeInfo` goes back from it to a multiple of the cycle length with
`absMode`.  That is the multiple below, except that from a multiple it goes on to the one before: the
remainder of a negative multiple is taken as a whole cycle (`sub_absMode_neg`).

Months, years and days are counted here before the year 0 as well, since a cycle of a call in the
first years may begin there.
-/

namespace AddupCycleRule

open Calendar Units

/-! ## Units of all years -/

/-- A month of any year. -/
def MonthOfAnyYear (ym : Int) : Prop := 1 ≤ ym % 100 ∧ ym % 100 ≤ 12

/-- A date of any year. -/
def DateOfAnyYear (ymd : Int) : Prop :=
  MonthOfAnyYear (ymd / 100) ∧ 1 ≤ ymd % 100 ∧ ymd % 100 ≤ monthLength (ymd / 100)

theorem monthIndex_lt_iff_any {a b : Int} (ha : MonthOfAnyYear a) (hb : MonthOfAnyYear b) :
    monthIndex a < monthIndex b ↔ a < b := by
  unfold MonthOfAnyYear at ha hb
  unfold monthIndex
  omega

/-- The number of the month of a date. -/
theorem monthOf_index {ym : Int} (h : MonthOfAnyYear ym) : monthOf (monthIndex ym - 1) = ym := by
  unfold MonthOfAnyYear at h
  unfold monthOf monthIndex
  omega

theorem dayIndex_eq {ymd : Int} (h : MonthOfAnyYear (ymd / 100)) :
    dayIndex ymd = firstDay (monthIndex (ymd / 100) - 1) + ymd % 100 := by
  rw [dayIndex, firstDay, monthOf_index h]

theorem dayIndex_lt_iff_any {a b : Int} (ha : DateOfAnyYear a) (hb : DateOfAnyYear b) :
    dayIndex a < dayIndex b ↔ a < b := by
  have hmono : ∀ {a b : Int}, DateOfAnyYear a → DateOfAnyYear b → a < b →
      dayIndex a < dayIndex b := by
    rintro a b ⟨ha, hlow, hhigh⟩ ⟨hb, hlow', hhigh'⟩ hlt
    rw [dayIndex_eq ha, dayIndex_eq hb]
    rcases (Int.ediv_le_ediv (by omega) hlt.le : a / 100 ≤ b / 100).lt_or_eq with hmonth | hmonth
    · have hindex := (monthIndex_lt_iff_any ha hb).mpr hmonth
      have hover := firstDay_mono (Int.add_one_le_of_lt (by omega :
        monthIndex (a / 100) - 1 < monthIndex (b / 100) - 1))
      rw [firstDay_succ, lengthOf, monthOf_index ha] at hover
      omega
    · rw [hmonth]
      omega
  constructor
  · intro hlt
    by_contra hle
    rcases (not_lt.mp hle).lt_or_eq with hba | rfl
    · have hgt := hmono hb ha hba
      omega
    · omega
  · exact hmono ha hb

def allMonths : Units :=
  ⟨100000000, months.place_pos, MonthOfAnyYear, monthIndex, monthIndex_lt_iff_any⟩

def allYears : Units := ⟨10000000000, years.place_pos, fun _ => True, id, fun _ _ => Iff.rfl⟩

def allDays : Units := ⟨1000000, days.place_pos, DateOfAnyYear, dayIndex, dayIndex_lt_iff_any⟩

/-- The units of the types that count them right. -/
def allUnitsOf : CycleType → Option Units
  | .month => some allMonths
  | .year => some allYears
  | .day => some allDays
  | _ => none

/-- `r_pGlobalInfo` follows the calendar forwards and backwards. -/
structure GlobalInfo.ExactBothWays (G : GlobalInfo) : Prop where
  addMonth : ∀ n ym, MonthOfAnyYear ym →
    MonthOfAnyYear (G.addMonth n ym) ∧ monthIndex (G.addMonth n ym) = monthIndex ym + n
  addDay : ∀ n ymd, DateOfAnyYear ymd →
    DateOfAnyYear (G.addDay n ymd) ∧ dayIndex (G.addDay n ymd) = dayIndex ymd + n
  diffDays : ∀ day1 day2, IsDate day1 → IsDate day2 →
    G.diffDays day1 day2 = dayIndex day1 - dayIndex day2

/-! ## Negative counts -/

/-- From a negative multiple `absMode` goes on to the multiple before. -/
theorem sub_absMode_neg {span n : Int} (hspan : 1 ≤ span) (hn : n < 0) :
    n - absMode n span = if span ≠ 1 ∧ span ∣ n then n - span else align span n := by
  by_cases hone : span = 1
  · rw [if_neg fun h => h.1 hone, absMode, if_pos hone, align, hone]
    omega
  · rw [absMode, if_neg hone, if_neg (by omega)]
    by_cases hdvd : span ∣ n
    · rw [if_pos ⟨hone, hdvd⟩, Int.tmod_eq_emod, if_pos (.inr hdvd),
        Int.emod_eq_zero_of_dvd hdvd]
      omega
    · rw [if_neg fun h => hdvd h.2, align, Int.tmod_eq_emod, if_neg fun h => by omega]
      omega

section Types

variable {G : GlobalInfo} {rule : Rule} {U : Units} {F : Int} {t : DateTime}

/-- A date of the calendar is one of all years. -/
theorem allUnits_time {T : Int} (hU : allUnitsOf rule.m_cycleType = some U) (hT : days.Time T) :
    U.Time T := by
  obtain ⟨⟨-, hmonth⟩, -⟩ := time_of_date hT
  unfold allUnitsOf at hU
  split at hU <;> cases hU
  · exact hmonth
  · trivial
  · exact ⟨hT.1.2, hT.2⟩

theorem elapsed_neg (hU : allUnitsOf rule.m_cycleType = some U) (hF : days.Time F) {T : Int}
    (hT : days.Time T) (hlt : T < F) : U.elapsed F T < 0 := by
  have hself := (apart_self (allUnits_time hU hF)).le_iff (allUnits_time hU hT)
  omega

/-- Where the cycle of a call before `F` begins, in units after `F`. -/
def beginBefore (span n : Int) : Int := if span ≠ 1 ∧ span ∣ n then n - span else align span n

/-- **The cycle of a call before `F`.** -/
theorem getSumTimeInfo_before (hG : G.ExactBothWays) (hnum : 1 ≤ rule.m_cycleNum)
    (hU : allUnitsOf rule.m_cycleType = some U) (hF : days.Time F) (ht : days.Time t.value)
    (hlt : t.value < F) :
    ∃ c, getSumTimeInfo G rule t F = some c ∧
      U.Apart F (beginBefore rule.m_cycleNum (U.elapsed F t.value)) c.1 ∧
      U.Apart F (beginBefore rule.m_cycleNum (U.elapsed F t.value) + rule.m_cycleNum) c.2 := by
  have hpos := nonneg_of_date hF
  have hpos' := nonneg_of_date ht
  have hback := sub_absMode_neg hnum (elapsed_neg hU hF ht hlt)
  have htime := allUnits_time hU hF
  unfold allUnitsOf at hU
  split at hU <;> cases hU
  case h_1 htype =>
    have hcounted : counted allMonths diffMonths F t.value = allMonths.elapsed F t.value := by
      have hF₀ : 0 ≤ F / allMonths.place := Int.ediv_nonneg hpos allMonths.place_pos.le
      have ht₀ : 0 ≤ t.value / allMonths.place := Int.ediv_nonneg hpos' allMonths.place_pos.le
      simp only [counted, elapsed, diffMonths, allMonths, monthIndex] at hF₀ ht₀ ⊢
      rw [Int.tdiv_eq_ediv_of_nonneg hF₀, Int.tdiv_eq_ediv_of_nonneg ht₀,
        Int.tmod_eq_emod_of_nonneg hF₀, Int.tmod_eq_emod_of_nonneg ht₀]
    refine ⟨_, by simp only [getSumTimeInfo, htype]; rfl, ?_⟩
    rw [← hcounted] at hback ⊢
    have hbegin := hG.addMonth (beginBefore rule.m_cycleNum (counted allMonths diffMonths F t.value))
      _ htime
    exact cycle_points (by decide) (by decide) hpos hback hbegin (hG.addMonth _ _ hbegin.1)
  case h_2 htype =>
    refine ⟨_, by simp only [getSumTimeInfo, htype]; rfl, ?_⟩
    exact cycle_points (show allYears.place = 10 ^ (14 - 4) by decide) (by decide) hpos hback
      ⟨trivial, rfl⟩ ⟨trivial, rfl⟩
  case h_3 htype =>
    have hcounted : counted allDays G.diffDays F t.value = allDays.elapsed F t.value := by
      rw [counted, elapsed]
      exact congrArg (· - _) (hG.diffDays _ _ ht hF)
    refine ⟨_, by simp only [getSumTimeInfo, htype]; rfl, ?_⟩
    rw [← hcounted] at hback ⊢
    have hbegin := hG.addDay (beginBefore rule.m_cycleNum (counted allDays G.diffDays F t.value))
      _ htime
    exact cycle_points (by decide) (by decide) hpos hback hbegin (hG.addDay _ _ hbegin.1)

/-- **A call before the first cycle gets its cycle** unless the cycles are longer than a unit and a
whole number of them has elapsed backwards. -/
theorem before_iff (hG : G.ExactBothWays) (hnum : 1 ≤ rule.m_cycleNum)
    (hU : allUnitsOf rule.m_cycleType = some U) (hF : days.Time F) (ht : days.Time t.value)
    (hlt : t.value < F) :
    (∃ c, getSumTimeInfo G rule t F = some c ∧ Contains U rule.m_cycleNum F t.value c) ↔
      rule.m_cycleNum = 1 ∨ ¬ rule.m_cycleNum ∣ U.elapsed F t.value := by
  obtain ⟨c, hc, hbegin, hend⟩ := getSumTimeInfo_before hG hnum hU hF ht hlt
  have htime := allUnits_time hU ht
  obtain ⟨hlow, hhigh, hdvd⟩ := align_le hnum (U.elapsed F t.value)
  by_cases hmultiple : rule.m_cycleNum ≠ 1 ∧ rule.m_cycleNum ∣ U.elapsed F t.value
  · rw [beginBefore, if_pos hmultiple] at hend
    have hover : c.2 ≤ t.value := (hend.le_iff htime).mpr (by omega)
    refine iff_of_false ?_ fun h => ?_
    · rintro ⟨c', hc', hcontains⟩
      obtain rfl := Option.some_injective _ (hc.symm.trans hc')
      exact absurd hcontains.lt_end (not_lt.mpr hover)
    · exact h.elim hmultiple.1 fun hnot => hnot hmultiple.2
  · rw [beginBefore, if_neg hmultiple] at hbegin hend
    refine iff_of_true ⟨c, hc, (hbegin.le_iff htime).mpr hlow, ?_, ⟨_, hdvd, hbegin⟩,
      ⟨_, Int.dvd_add hdvd (Int.dvd_refl _), hend⟩⟩ ?_
    · rw [← not_le, hend.le_iff htime]
      omega
    · by_cases hone : rule.m_cycleNum = 1
      · exact .inl hone
      · exact .inr fun h => hmultiple ⟨hone, h⟩

end Types

/-! ## An exact calendar -/

theorem dateOf_any (d : Int) :
    DateOfAnyYear (Rate.DateTime.dateOf d) ∧ dayIndex (Rate.DateTime.dateOf d) = d + 1 := by
  obtain ⟨hlow, hhigh⟩ := monthAt_spec d
  have hlength := lengthOf_pos (monthAt d)
  rw [firstDay_succ, lengthOf] at hhigh
  rw [lengthOf] at hlength
  have hmonth : Rate.DateTime.dateOf d / 100 = monthOf (monthAt d) := by
    unfold Rate.DateTime.dateOf
    omega
  have hday : Rate.DateTime.dateOf d % 100 = d - firstDay (monthAt d) + 1 := by
    unfold Rate.DateTime.dateOf
    omega
  have hvalid : MonthOfAnyYear (monthOf (monthAt d)) := by
    have hparts := monthOf_parts (monthAt d)
    unfold MonthOfAnyYear
    omega
  refine ⟨⟨by rwa [hmonth], by omega, by rw [hmonth]; omega⟩, ?_⟩
  rw [dayIndex, hmonth, hday, ← firstDay]
  omega

/-- The calendar, forwards and backwards. -/
def bothWays : GlobalInfo :=
  ⟨addMonths, fun n ymd => Rate.DateTime.dateOf (dayIndex ymd - 1 + n),
    fun day1 day2 => dayIndex day1 - dayIndex day2⟩

theorem bothWays_exact : bothWays.ExactBothWays where
  addMonth n ym h := by
    simp only [bothWays, MonthOfAnyYear, addMonths, monthIndex]
    omega
  addDay n ymd _ := by
    obtain ⟨hdate, hindex⟩ := dateOf_any (dayIndex ymd - 1 + n)
    exact ⟨hdate, hindex.trans (by omega)⟩
  diffDays _ _ _ _ := rfl

/-- In cycles of three months from March 2012 a call in January is in the one that begins in
December. -/
theorem before_iff_january :
    ∃ c, getSumTimeInfo bothWays ⟨.month, 3⟩ january 20120301000000 = some c ∧
      Contains allMonths 3 20120301000000 january.value c :=
  (@before_iff bothWays ⟨.month, 3⟩ allMonths 20120301000000 january bothWays_exact (by decide) rfl
    (show IsDate _ by decide) (show IsDate _ by decide) (by decide)).mpr (.inr (by decide))

/-- In cycles of two months it is said to be in the one that has ended with December. -/
theorem january_not_before :
    days.Time 20120301000000 ∧ days.Time january.value ∧ january.value < 20120301000000 ∧
      getSumTimeInfo bothWays ⟨.month, 2⟩ january 20120301000000 =
        some (20111101000000, 20120101000000) ∧
      ¬ ∃ c, getSumTimeInfo bothWays ⟨.month, 2⟩ january 20120301000000 = some c ∧
        Contains allMonths 2 20120301000000 january.value c := by
  have hcycle : getSumTimeInfo bothWays ⟨.month, 2⟩ january 20120301000000 =
      some (20111101000000, 20120101000000) := by decide
  refine ⟨show IsDate _ by decide, show IsDate _ by decide, by decide, hcycle, ?_⟩
  rintro ⟨c, hc, hcontains⟩
  rw [hcycle, Option.some.injEq] at hc
  subst hc
  exact absurd hcontains.lt_end (by decide)

end AddupCycleRule
