import Boss.Calendar
import Boss.Decimal

/-!
# Accumulation cycles

A rule cuts time into cycles of `m_cycleNum` units from the start `F` of the first cycle.
`getSumTimeInfo` cuts the digits of a call's time behind its unit, counts the units since `F`,
goes back to a multiple of the cycle length and puts the rest of `F` behind the unit it arrives
at.  The types differ in where the digits are cut and in how units are counted and added.

Months, years and days are counted right, so the cycles are those of `Units`, and a call lies in
exactly one.  The types of several months subtract the numbers `YYYYMM` as they stand, which is
88 too many for every turn of the year, and `multi_month_iff` says how far that carries.
-/

namespace AddupCycleRule

open Calendar Decimal Units

/-- `m_cycleType`, the values of `ADDUP_CYCLE_TYPE_*`. -/
inductive CycleType
  | second | minute | hour | day | week | dayTen | monthHalf
  | month | monthDouble | quarter | yearHalf | year
deriving DecidableEq, Repr

structure Rule where
  m_cycleType : CycleType
  m_cycleNum : Int
deriving DecidableEq, Repr

/-- A time `YYYYMMDDHHMISS` as text. -/
structure DateTime where
  text : List Byte
  length_eq : text.length = 14
  digits : ∀ c ∈ text, isDigit c = true

/-- The number that a time is. -/
def DateTime.value (t : DateTime) : Int := atol t.text

/-- What `r_pGlobalInfo` has for dates. -/
structure GlobalInfo where
  addMonth : Int → Int → Int
  addDay : Int → Int → Int
  diffDays : Int → Int → Int

/-- `r_pGlobalInfo` follows the calendar: `diffDays` when the first day is not the earlier one. -/
structure GlobalInfo.Exact (G : GlobalInfo) : Prop where
  addMonth : ∀ {n ym}, 0 ≤ n → IsMonth ym →
    IsMonth (G.addMonth n ym) ∧ monthIndex (G.addMonth n ym) = monthIndex ym + n
  addDay : ∀ {n ymd}, 0 ≤ n → IsDate ymd →
    IsDate (G.addDay n ymd) ∧ dayIndex (G.addDay n ymd) = dayIndex ymd + n
  diffDays : ∀ {day1 day2}, IsDate day1 → IsDate day2 → day2 ≤ day1 →
    G.diffDays day1 day2 = dayIndex day1 - dayIndex day2

/-- `absMode`, for the positive modes that it asserts. -/
def absMode (r_number r_mode : Int) : Int :=
  if r_mode = 1 then 0
  else if r_number ≥ 0 then r_number.tmod r_mode
  else r_mode + r_number.tmod r_mode

/-- What every type does with its count `diff` and its addition `add` of units: the call's digits
are cut behind the first `cut`, those of `F` by dividing through `place`. -/
def cycle (diff add : Int → Int → Int) (cut : Nat) (place span : Int) (r_cdrTime : DateTime)
    (r_fStartTime : Int) : Int × Int :=
  let t_lValue := atol (r_cdrTime.text.take cut)
  let t_dValue := atol (r_cdrTime.text.drop cut)
  let t_lValue0 := r_fStartTime.tdiv place
  let t_dValue0 := r_fStartTime.tmod place
  let t_diffValue := diff t_lValue t_lValue0 - if t_dValue < t_dValue0 then 1 else 0
  let t_diffValue := t_diffValue - absMode t_diffValue span
  let t_begin := add t_diffValue t_lValue0
  let t_end := add span t_begin
  (t_begin * place + r_fStartTime.tmod place, t_end * place + r_fStartTime.tmod place)

/-- The months between two numbers `YYYYMM`. -/
def diffMonths (t_lValue t_lValue0 : Int) : Int :=
  t_lValue.tdiv 100 * 12 + t_lValue.tmod 100 - (t_lValue0.tdiv 100 * 12 + t_lValue0.tmod 100)

/-- `t_monthUnit`. -/
def monthUnit : CycleType → Int
  | .yearHalf => 6
  | .quarter => 3
  | .monthDouble => 2
  | _ => 1

/-- `getSumTimeInfo`: begin and end of the cycle that a call lies in.  The types that are not
there leave both as they were. -/
def getSumTimeInfo (G : GlobalInfo) (rule : Rule) (r_cdrTime : DateTime) (r_fStartTime : Int) :
    Option (Int × Int) :=
  match rule.m_cycleType with
  | .month =>
      some (cycle diffMonths G.addMonth 6 100000000 rule.m_cycleNum r_cdrTime r_fStartTime)
  | .year =>
      some (cycle (· - ·) (fun n year => year + n) 4 10000000000 rule.m_cycleNum r_cdrTime
        r_fStartTime)
  | .yearHalf | .quarter | .monthDouble =>
      some (cycle (· - ·) G.addMonth 6 100000000 (monthUnit rule.m_cycleType * rule.m_cycleNum)
        r_cdrTime r_fStartTime)
  | .day => some (cycle G.diffDays G.addDay 8 1000000 rule.m_cycleNum r_cdrTime r_fStartTime)
  | _ => none

/-! ## Cutting the digits -/

theorem atol_eq_readDigits {text : List Byte} (hne : text ≠ [])
    (htext : ∀ c ∈ text, isDigit c = true) : atol text = readDigits text := by
  obtain ⟨c, rest, rfl⟩ := List.exists_cons_of_ne_nil hne
  exact atol_digits (htext c List.mem_cons_self)

/-- Cutting the text of a time is dividing its number. -/
theorem DateTime.cut (t : DateTime) {cut : Nat} (hpos : 0 < cut) (hlt : cut < 14) :
    atol (t.text.take cut) = t.value / 10 ^ (14 - cut) ∧
      atol (t.text.drop cut) = t.value % 10 ^ (14 - cut) := by
  have hlength := t.length_eq
  have htake : ∀ c ∈ t.text.take cut, isDigit c = true := fun c hc =>
    t.digits c (List.mem_of_mem_take hc)
  have hdrop : ∀ c ∈ t.text.drop cut, isDigit c = true := fun c hc =>
    t.digits c (List.mem_of_mem_drop hc)
  have hnonempty : ∀ {text : List Byte}, 0 < text.length → text ≠ [] := List.ne_nil_of_length_pos
  have hrest : (t.text.drop cut).length = 14 - cut := by rw [List.length_drop, hlength]
  have hvalue := readDigits_append htake hdrop
  rw [List.take_append_drop, hrest] at hvalue
  have hbound := readDigits_lt hdrop
  rw [hrest] at hbound
  unfold DateTime.value
  rw [atol_eq_readDigits (hnonempty (by rw [List.length_take]; omega)) htake,
    atol_eq_readDigits (hnonempty (by omega)) hdrop,
    atol_eq_readDigits (hnonempty (by omega)) t.digits, hvalue]
  have hplace : 0 < 10 ^ (14 - cut) := Nat.pow_pos (by omega)
  have hcast : (10 : Int) ^ (14 - cut) = (10 ^ (14 - cut) : Nat) := by push_cast; rfl
  rw [hcast, ← Int.natCast_ediv, ← Int.natCast_emod, Nat.add_comm]
  constructor
  · rw [Nat.add_mul_div_right _ _ hplace, Nat.div_eq_of_lt hbound, Nat.zero_add]
  · rw [Nat.add_mul_mod_self_right, Nat.mod_eq_of_lt hbound]

/-- A date is a month and a year when it is cut earlier. -/
theorem time_of_date {t : Int} (ht : days.Time t) : months.Time t ∧ years.Time t := by
  obtain ⟨⟨hpos, hlow, hhigh⟩, -⟩ := ht
  have hmonth : t / 1000000 / 100 = t / 100000000 := by omega
  simp only [days, hmonth] at hpos hlow hhigh
  exact ⟨⟨hpos, hlow, hhigh⟩, show 0 ≤ t / 10000000000 by omega⟩

theorem nonneg_of_date {t : Int} (ht : days.Time t) : 0 ≤ t := by
  have hpos : 0 ≤ t / 100000000 := (time_of_date ht).1.1
  omega

/-! ## Cycles -/

/-- `absMode` is the distance to the multiple below. -/
theorem sub_absMode {span n : Int} (hn : 0 ≤ n) :
    n - absMode n span = align span n := by
  unfold absMode align
  split_ifs with hone
  · rw [hone, Int.emod_one]
  · rw [Int.tmod_eq_emod_of_nonneg hn]

section Cycle

variable {U : Units} {diff add : Int → Int → Int} {cut : Nat} {span F : Int} {t : DateTime}

/-- The units that `cycle` counts, less the borrow. -/
def counted (U : Units) (diff : Int → Int → Int) (F t : Int) : Int :=
  diff (t / U.place) (F / U.place) - if t % U.place < F % U.place then 1 else 0

/-- A cycle begins as many units after `F` as are left of the count and is `span` long, when adding
them goes well. -/
theorem cycle_points {k : Int} (hplace : U.place = 10 ^ (14 - cut)) (hcut : 0 < cut ∧ cut < 14)
    (hpos : 0 ≤ F)
    (hk : counted U diff F t.value - absMode (counted U diff F t.value) span = k)
    (hbegin : U.Valid (add k (F / U.place)) ∧
      U.index (add k (F / U.place)) = U.index (F / U.place) + k)
    (hend : U.Valid (add span (add k (F / U.place))) ∧
      U.index (add span (add k (F / U.place))) = U.index (add k (F / U.place)) + span) :
    U.Apart F k (cycle diff add cut U.place span t F).1 ∧
      U.Apart F (k + span) (cycle diff add cut U.place span t F).2 := by
  obtain ⟨hunit, hrest⟩ := t.cut hcut.1 hcut.2
  rw [← hplace] at hunit hrest
  have hpoint : ∀ {u k : Int}, U.Valid u → U.index u = U.index (F / U.place) + k →
      U.Apart F k (u * U.place + F % U.place) := by
    intro u k hu hindex
    have hdiv : (u * U.place + F % U.place) / U.place = u := by
      rw [Int.add_comm, Int.add_mul_ediv_right _ _ U.place_pos.ne',
        Int.ediv_eq_zero_of_lt (rest_bounds F).1 (rest_bounds F).2, Int.zero_add]
    exact ⟨by rwa [Time, hdiv], by rw [Int.mul_add_emod_self_right, Int.emod_emod],
      by rw [hdiv, hindex]⟩
  have hcycle : cycle diff add cut U.place span t F =
      (add k (F / U.place) * U.place + F % U.place,
        add span (add k (F / U.place)) * U.place + F % U.place) := by
    rw [← hk]
    simp only [cycle, counted, hunit, hrest, Int.tdiv_eq_ediv_of_nonneg hpos,
      Int.tmod_eq_emod_of_nonneg hpos]
  rw [hcycle]
  exact ⟨hpoint hbegin.1 hbegin.2, hpoint hend.1 (by rw [hend.2, hbegin.2]; omega)⟩

/-- A cycle begins at the multiple below the count and is `span` long, right or wrong as the
count may be. -/
theorem cycle_apart (hplace : U.place = 10 ^ (14 - cut)) (hcut : 0 < cut ∧ cut < 14)
    (hadd : ∀ {n u}, 0 ≤ n → U.Valid u → U.Valid (add n u) ∧ U.index (add n u) = U.index u + n)
    (hspan : 0 < span) (hF : U.Time F) (hpos : 0 ≤ F) (hcount : 0 ≤ counted U diff F t.value) :
    U.Apart F (align span (counted U diff F t.value)) (cycle diff add cut U.place span t F).1 ∧
      U.Apart F (align span (counted U diff F t.value) + span)
        (cycle diff add cut U.place span t F).2 := by
  have hbegin := hadd (align_nonneg hspan hcount) hF
  exact cycle_points hplace hcut hpos (sub_absMode hcount) hbegin (hadd hspan.le hbegin.1)

end Cycle

/-- What a cycle should be: it contains the time and lies whole cycles after `F`. -/
structure Contains (U : Units) (span F t : Int) (c : Int × Int) : Prop where
  begin_le : c.1 ≤ t
  lt_end : t < c.2
  begin_apart : ∃ k, span ∣ k ∧ U.Apart F k c.1
  end_apart : ∃ k, span ∣ k ∧ U.Apart F k c.2

/-- The units of the types that count them right. -/
def unitsOf : CycleType → Option Units
  | .month => some months
  | .year => some years
  | .day => some days
  | _ => none

section Types

variable {G : GlobalInfo} {rule : Rule} {U : Units} {F : Int} {t : DateTime}

theorem time_unitsOf (hU : unitsOf rule.m_cycleType = some U) {t : Int} (ht : days.Time t) :
    U.Time t := by
  obtain ⟨hmonth, hyear⟩ := time_of_date ht
  unfold unitsOf at hU
  split at hU <;> cases hU <;> assumption

/-- Months, years and days are counted as they elapse, so the cycle begins at the multiple below
the units that have. -/
theorem getSumTimeInfo_apart (hG : G.Exact) (hnum : 1 ≤ rule.m_cycleNum)
    (hU : unitsOf rule.m_cycleType = some U) (hF : days.Time F) (ht : days.Time t.value)
    (hle : F ≤ t.value) :
    ∃ c, getSumTimeInfo G rule t F = some c ∧
      U.Apart F (align rule.m_cycleNum (U.elapsed F t.value)) c.1 ∧
      U.Apart F (align rule.m_cycleNum (U.elapsed F t.value) + rule.m_cycleNum) c.2 := by
  have hpos := nonneg_of_date hF
  have helapsed : 0 ≤ U.elapsed F t.value :=
    elapsed_nonneg (time_unitsOf hU hF) (time_unitsOf hU ht) hle
  have hunit : F / U.place ≤ t.value / U.place := Int.ediv_le_ediv U.place_pos hle
  unfold unitsOf at hU
  split at hU <;> cases hU
  case h_1 htype =>
    have hcounted : counted months diffMonths F t.value = months.elapsed F t.value := by
      have hF₀ : 0 ≤ F / months.place := Int.ediv_nonneg hpos months.place_pos.le
      have ht₀ := hF₀.trans hunit
      simp only [counted, elapsed, diffMonths, months, monthIndex] at hF₀ ht₀ ⊢
      rw [Int.tdiv_eq_ediv_of_nonneg hF₀, Int.tdiv_eq_ediv_of_nonneg ht₀,
        Int.tmod_eq_emod_of_nonneg hF₀, Int.tmod_eq_emod_of_nonneg ht₀]
    refine ⟨_, by simp only [getSumTimeInfo, htype]; rfl, ?_⟩
    rw [← hcounted] at helapsed ⊢
    exact cycle_apart (by decide) (by decide) hG.addMonth hnum (time_of_date hF).1 hpos helapsed
  case h_2 htype =>
    refine ⟨_, by simp only [getSumTimeInfo, htype]; rfl, ?_⟩
    exact cycle_apart (show years.place = 10 ^ (14 - 4) by decide) (by decide)
      (fun hn hu => ⟨Int.add_nonneg hu hn, rfl⟩) hnum (time_of_date hF).2 hpos helapsed
  case h_3 htype =>
    have hcounted : counted days G.diffDays F t.value = days.elapsed F t.value := by
      rw [counted, elapsed, hG.diffDays ht hF hunit]
      rfl
    refine ⟨_, by simp only [getSumTimeInfo, htype]; rfl, ?_⟩
    rw [← hcounted] at helapsed ⊢
    exact cycle_apart (by decide) (by decide) hG.addDay hnum hF hpos helapsed

/-- **Every time lies in one cycle.**  The cycles of months, years and days contain the times they
are asked for, lie whole cycles after `F`, and two of them are equal or disjoint. -/
theorem cycles_partition_time (hG : G.Exact) (hnum : 1 ≤ rule.m_cycleNum)
    (hU : unitsOf rule.m_cycleType = some U) (hF : days.Time F) {t₁ t₂ : DateTime}
    (ht₁ : days.Time t₁.value) (ht₂ : days.Time t₂.value) (hle₁ : F ≤ t₁.value)
    (hle₂ : F ≤ t₂.value) :
    ∃ c₁ c₂, getSumTimeInfo G rule t₁ F = some c₁ ∧ getSumTimeInfo G rule t₂ F = some c₂ ∧
      Contains U rule.m_cycleNum F t₁.value c₁ ∧ Contains U rule.m_cycleNum F t₂.value c₂ ∧
      (c₁ = c₂ ∨ c₁.2 ≤ c₂.1 ∨ c₂.2 ≤ c₁.1) := by
  have hcontains : ∀ {t : DateTime} {c : Int × Int}, days.Time t.value →
      U.Apart F (align rule.m_cycleNum (U.elapsed F t.value)) c.1 →
      U.Apart F (align rule.m_cycleNum (U.elapsed F t.value) + rule.m_cycleNum) c.2 →
      Contains U rule.m_cycleNum F t.value c := by
    intro t c ht hbegin hend
    have htime := time_unitsOf hU ht
    obtain ⟨hlow, hhigh, hdvd⟩ := align_le hnum (U.elapsed F t.value)
    refine ⟨(hbegin.le_iff htime).mpr hlow, ?_, ⟨_, hdvd, hbegin⟩,
      ⟨_, Int.dvd_add hdvd (Int.dvd_refl _), hend⟩⟩
    rw [← not_le, hend.le_iff htime]
    omega
  obtain ⟨c₁, hc₁, hbegin₁, hend₁⟩ := getSumTimeInfo_apart hG hnum hU hF ht₁ hle₁
  obtain ⟨c₂, hc₂, hbegin₂, hend₂⟩ := getSumTimeInfo_apart hG hnum hU hF ht₂ hle₂
  refine ⟨c₁, c₂, hc₁, hc₂, hcontains ht₁ hbegin₁ hend₁, hcontains ht₂ hbegin₂ hend₂, ?_⟩
  rcases hbegin₁.eq_or_disjoint hnum (align_le hnum _).2.2 (align_le hnum _).2.2 hend₁ hbegin₂
    hend₂ with heq | hbefore | hafter
  · exact .inl (Prod.ext heq.1 heq.2)
  · exact .inr (.inl hbefore)
  · exact .inr (.inr hafter)

end Types

/-- `r_pGlobalInfo` as it would be with the dates of the calendar. -/
def gregorian : GlobalInfo := ⟨addMonths, addDays, fun day1 day2 => dayIndex day1 - dayIndex day2⟩

theorem gregorian_exact : gregorian.Exact := ⟨addMonths_spec, addDays_spec, fun _ _ _ => rfl⟩

/-- The time that a text of 14 digits is. -/
def dateTime (text : List Byte) (h : text.length = 14 ∧ text.all isDigit = true) : DateTime :=
  ⟨text, h.1, List.all_eq_true.mp h.2⟩

/-- 2012-02-29 01:00:00. -/
def leapDay : DateTime :=
  dateTime [50, 48, 49, 50, 48, 50, 50, 57, 48, 49, 48, 48, 48, 48] (by decide)

/-- 2012-01-15 00:00:00. -/
def january : DateTime :=
  dateTime [50, 48, 49, 50, 48, 49, 49, 53, 48, 48, 48, 48, 48, 48] (by decide)

/-- Cycles of three months from the last day of November, at two in the morning. -/
theorem cycles_partition_time_leapDay :
    ∃ c₁ c₂, getSumTimeInfo gregorian ⟨.month, 3⟩ leapDay 20111130020000 = some c₁ ∧
      getSumTimeInfo gregorian ⟨.month, 3⟩ january 20111130020000 = some c₂ ∧
      Contains months 3 20111130020000 leapDay.value c₁ ∧
      Contains months 3 20111130020000 january.value c₂ ∧
      (c₁ = c₂ ∨ c₁.2 ≤ c₂.1 ∨ c₂.2 ≤ c₁.1) :=
  cycles_partition_time gregorian_exact (by decide) rfl (show IsDate _ by decide)
    (show IsDate _ by decide) (show IsDate _ by decide) (by decide) (by decide)

/-! ## Cycles of several months -/

section MultiMonth

variable {G : GlobalInfo} {rule : Rule} {F : Int} {t : DateTime}

/-- A cycle of half years, quarters or double months as it should be. -/
def MultiMonthCycle (G : GlobalInfo) (rule : Rule) (t : DateTime) (F : Int) : Prop :=
  ∃ c, getSumTimeInfo G rule t F = some c ∧ c.1 ≤ t.value ∧ t.value < c.2 ∧
    ∃ k, 0 ≤ k ∧ monthUnit rule.m_cycleType * rule.m_cycleNum ∣ k ∧ months.Apart F k c.1

/-- Subtracting numbers `YYYYMM` counts 88 months too many for every turn of the year. -/
theorem counted_sub (F t : Int) :
    counted months (· - ·) F t =
      months.elapsed F t + 88 * (t / 10000000000 - F / 10000000000) := by
  simp only [counted, elapsed, months, monthIndex]
  split_ifs <;> omega

/-- **How far the subtraction carries.**  The cycle is right exactly when the 88 months for every
turn of the year still fit into what is left of the cycle that the time lies in; within the year
of `F` they always do. -/
theorem multi_month_iff (hG : G.Exact) (hnum : 1 ≤ rule.m_cycleNum)
    (htype : rule.m_cycleType ∈ [CycleType.yearHalf, .quarter, .monthDouble]) (hF : days.Time F)
    (ht : days.Time t.value) (hle : F ≤ t.value) :
    MultiMonthCycle G rule t F ↔
      months.elapsed F t.value % (monthUnit rule.m_cycleType * rule.m_cycleNum) +
        88 * (t.value / 10000000000 - F / 10000000000) <
      monthUnit rule.m_cycleType * rule.m_cycleNum := by
  have hspan : 0 < monthUnit rule.m_cycleType * rule.m_cycleNum := by
    refine Int.mul_pos ?_ hnum
    unfold monthUnit
    split <;> decide
  have hyears : F / 10000000000 ≤ t.value / 10000000000 := Int.ediv_le_ediv (by decide) hle
  have htime := (time_of_date ht).1
  have helapsed := elapsed_nonneg (time_of_date hF).1 htime hle
  have hcounted := counted_sub F t.value
  have hnonneg : 0 ≤ counted months (· - ·) F t.value := by omega
  obtain ⟨hbegin, hend⟩ := cycle_apart (show months.place = 10 ^ (14 - 6) by decide)
    (by decide) hG.addMonth hspan (time_of_date hF).1 (nonneg_of_date hF) hnonneg
  have hcycle : getSumTimeInfo G rule t F = some (cycle (· - ·) G.addMonth 6 months.place
      (monthUnit rule.m_cycleType * rule.m_cycleNum) t F) := by
    simp only [List.mem_cons, List.not_mem_nil, or_false] at htype
    rcases htype with htype | htype | htype <;> simp only [getSumTimeInfo, htype] <;> rfl
  rw [← align_add_le_iff hspan (by omega), ← hcounted, ← hbegin.le_iff htime]
  constructor
  · rintro ⟨c, hc, hlow, -⟩
    rw [hcycle, Option.some.injEq] at hc
    rwa [hc]
  · intro hlow
    obtain ⟨-, hhigh, hdvd⟩ := align_le hspan (counted months (· - ·) F t.value)
    refine ⟨_, hcycle, hlow, ?_, _, align_nonneg hspan hnonneg, hdvd, hbegin⟩
    rw [← not_le, hend.le_iff htime]
    omega

end MultiMonth

/-- In the year of `F` the condition holds. -/
theorem multi_month_iff_january :
    MultiMonthCycle gregorian ⟨.quarter, 1⟩ january 20120101000000 ↔
      months.elapsed 20120101000000 january.value % (monthUnit .quarter * 1) +
        88 * (january.value / 10000000000 - 20120101000000 / 10000000000) <
      monthUnit .quarter * 1 :=
  multi_month_iff gregorian_exact (by decide) (by decide) (show IsDate _ by decide)
    (show IsDate _ by decide) (by decide)

/-- A year later the quarter of a call in January 2012 is said to begin in April 2019. -/
theorem january_not_in_quarter :
    days.Time 20110101000000 ∧ days.Time january.value ∧ 20110101000000 ≤ january.value ∧
      getSumTimeInfo gregorian ⟨.quarter, 1⟩ january 20110101000000 =
        some (20190401000000, 20190701000000) ∧
      ¬ MultiMonthCycle gregorian ⟨.quarter, 1⟩ january 20110101000000 := by
  have hcycle : getSumTimeInfo gregorian ⟨.quarter, 1⟩ january 20110101000000 =
      some (20190401000000, 20190701000000) := by decide
  refine ⟨show IsDate _ by decide, show IsDate _ by decide, by decide, hcycle, ?_⟩
  rintro ⟨c, hc, hlow, -⟩
  rw [hcycle, Option.some.injEq] at hc
  subst hc
  exact absurd hlow (by decide)

end AddupCycleRule
