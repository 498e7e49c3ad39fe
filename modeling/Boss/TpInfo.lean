import Boss.Decimal
import Boss.MachineInt
import Mathlib.Data.Int.Bitwise
import Mathlib.Order.Bounds.Basic

/-!
# Values that go by days

A tariff that does not hold for the whole of a month is charged by the days that it holds.
`getRentValue` works out the rent of a month so and cuts it to a multiple of ten; `getValueSum2` is
the `getValue` for a year's quota, which grows by a twelfth each month and whose first month may go
by days too.

The cut writes `t_rentValue & 10` for the remainder, and the rent leaves out `r_param`, whose length
`getValue` takes all the same (`rent_in_tens_iff`).  The days of the first month are counted in the
month that the quota is worked out for, not in the first one, so that part changes from cycle to
cycle (`quota_grows_iff`).
-/

namespace TpInfo

open Decimal MachineInt

abbrev Text := List Byte

/-- `'0'`, `'1'` and `','`. -/
def ZERO : Byte := 48
def ONE : Byte := 49
def COMMA : Byte := 44

/-- `RENT_COMPMETHOD_...`; `other` stands for every other character. -/
inductive CompMethod
  | NORMAL | HALF | OPENDATE | TPDATE | SUM2 | EARLIESTOPENDATE | SPEACIALDATE | other
deriving DecidableEq, Repr

/-- The flags are texts of one character. -/
structure UserTp where
  m_beginTime : Text
  m_endTime : Text
  m_halfInNetFlag : Byte
  m_firstMonthFlag : Byte
deriving DecidableEq, Repr

structure RateTpInfo where
  m_pUserTp : UserTp
  m_monthRent : Int
  m_rentCompMethod : CompMethod
deriving DecidableEq, Repr

/-- What the source leaves open: the text that is read through a null pointer, if reading it does not
end the program, and what stands in `t_chDay` before it is written. -/
structure Platform where
  nullText : Option Text
  t_chDay : Text

/-- `==` of a `T_FLAG` and a character.  `String` has none for characters, and the one for `int`
compares the number that the text reads as with the code of the character. -/
def flagIs (flag c : Byte) : Bool := atol [flag] = (c.toNat : Int)

/-- `snprintf(t_chDay, 8+1, "%s", text)`. -/
def writeDay (t_chDay text : Text) : Text :=
  text.take 8 ++ 0 :: t_chDay.drop ((text.take 8).length + 1)

/-- `atoi(t_chDay+6)`. -/
def dayOf (t_chDay : Text) : Int := atol (t_chDay.drop 6)

section Rent

variable (P : Platform) (tp : RateTpInfo)

/-- `t_tpValidDay`, and what is left in `t_chDay`. -/
def tpValidDay (r_monthDay r_billCycle : Int) (r_param : Text) : Int × Text :=
  if 2 ≤ r_param.length ∧ r_param[1]? = some ONE then
    let t_chDay := writeDay P.t_chDay tp.m_pUserTp.m_endTime
    (if r_billCycle = (atol t_chDay).tdiv 100 then dayOf t_chDay else r_monthDay, t_chDay)
  else (r_monthDay, P.t_chDay)

/-- The days from a day to the last, which are not more than the month has. -/
def clampDay (t_validDay r_monthDay : Int) : Int :=
  if t_validDay > r_monthDay then r_monthDay else if t_validDay < 0 then 0 else t_validDay

/-- `(r_value*t_validDay)/r_monthDay`; there is none when the product is not a `long`. -/
def byDays (r_value t_validDay r_monthDay : Int) : Option Int :=
  if r_monthDay = 0 ∨ ¬ InLong (r_value * clampDay t_validDay r_monthDay) then none
  else some ((r_value * clampDay t_validDay r_monthDay).tdiv r_monthDay)

def fromDate (r_value r_monthDay : Int) (t_tpValidDay : Int × Text) (date : Text) : Option Int :=
  byDays r_value (t_tpValidDay.1 - dayOf (writeDay t_tpValidDay.2 date) + 1) r_monthDay

/-- `getValue` of a month; there is none where the program ends or the language leaves it open. -/
def getValue (r_value : Int) (r_compMethod : CompMethod) (r_openFlag : Byte) (r_openDate : Text)
    (r_monthDay : Int) (r_earliestOpenDate : Text) (r_billCycle : Int) (r_param : Option Text) :
    Option Int := do
  let t_param ← r_param.or P.nullText
  let t_tpValidDay := tpValidDay P tp r_monthDay r_billCycle t_param
  match r_compMethod with
  | .NORMAL => some r_value
  | .HALF => if tp.m_pUserTp.m_halfInNetFlag = ONE then some (r_value.tdiv 2) else some r_value
  | .OPENDATE =>
      if r_openFlag = ONE then fromDate r_value r_monthDay t_tpValidDay r_openDate else some r_value
  | .TPDATE =>
      if flagIs tp.m_pUserTp.m_firstMonthFlag ONE then
        fromDate r_value r_monthDay t_tpValidDay tp.m_pUserTp.m_beginTime
      else some r_value
  | .EARLIESTOPENDATE =>
      if tp.m_pUserTp.m_firstMonthFlag = ONE then
        if r_param = none ∨ t_param.head? = some ZERO then some r_value
        else if t_param.head? = some ONE then
          fromDate r_value r_monthDay t_tpValidDay tp.m_pUserTp.m_beginTime
        else some r_value
      else if r_earliestOpenDate = [ZERO] then some 0
      else fromDate r_value r_monthDay t_tpValidDay r_earliestOpenDate
  | .SPEACIALDATE => fromDate r_value r_monthDay t_tpValidDay r_earliestOpenDate
  | .SUM2 | .other => some 0

/-- The cut at the end of `getRentValue`. -/
def cutRent (t_rentValue : Int) : Int := t_rentValue - Int.land t_rentValue 10

def getRentValue (r_openFlag : Byte) (r_openDate : Text) (r_monthDay : Int)
    (r_earliestOpenDate : Text) : Option Int :=
  (getValue P tp tp.m_monthRent tp.m_rentCompMethod r_openFlag r_openDate r_monthDay
    r_earliestOpenDate 0 none).map cutRent

end Rent

/-! ## Quotas of a year -/

/-- `StringUtil::split` with a comma. -/
def split (str : Text) : List Text := if str = [] then [] else str.splitOn COMMA

/-- The cut at the end of the quota; there is none when it divides by a unit of 0. -/
def carry (t_param5 : Byte) (t_param6 t_value : Int) : Option Int :=
  if t_param6 = 0 then none
  else if t_param5 = 50 then some ((t_value + t_param6 - 1).tdiv t_param6 * t_param6)
  else if t_param5 = 51 ∧ t_value.tmod t_param6 * 2 ≥ t_param6 then
    some ((t_value.tdiv t_param6 + 1) * t_param6)
  else some (t_value.tdiv t_param6 * t_param6)

/-- The fields of `r_param` that the quota reads. -/
structure QuotaParam where
  t_param1 : Byte
  t_param2 : Byte
  t_param5 : Byte
  t_param6 : Int
deriving DecidableEq, Repr

/-- A field is its default unless it is what the source looks for. -/
def quotaParam (r_param : Text) : Option QuotaParam :=
  match split r_param with
  | [p1, p2, _, _, p5, p6] => some
      { t_param1 := if p1.head? = some ZERO then ZERO else ONE
        t_param2 := if p2.head? = some ONE then ONE else ZERO
        t_param5 := p5.headD ZERO
        t_param6 := if p6 = [] then 1 else atol p6 }
  | _ => none

section Quota

variable (P : Platform) (tp : RateTpInfo)

/-- The date that the quota counts from. -/
def startDate (p : QuotaParam) (r_openDate : Text) : Text :=
  if p.t_param1 = ZERO then r_openDate else tp.m_pUserTp.m_beginTime

/-- `t_value` of the quota: none stands for the zeros that are returned at once. -/
def quota (t_monthValue : Int) (t_param2 : Byte) (t_chDay : Text) (r_monthDay r_billCycle : Int) :
    Option (Option Int) :=
  let t_tpYear := (atol t_chDay).tdiv 10000
  let t_tpMonth := (atol (t_chDay.drop 4)).tdiv 100
  let t_cycleYear := r_billCycle.tdiv 100
  let t_cycleMonth := r_billCycle.tmod 100
  if t_cycleYear = t_tpYear then do
    let t_firstMonthValue ←
      if t_param2 = ONE then byDays t_monthValue (r_monthDay - dayOf t_chDay + 1) r_monthDay
      else some t_monthValue
    if t_cycleMonth = t_tpMonth then some (some t_firstMonthValue)
    else if t_cycleMonth > t_tpMonth then
      some (some ((t_cycleMonth - t_tpMonth) * t_monthValue + t_firstMonthValue))
    else some none
  else if t_cycleYear > t_tpYear then some (some (t_monthValue * t_cycleMonth))
  else some none

/-- `getValue` of a year. -/
def getValueSum2 (r_value : Int) (r_compMethod : CompMethod) (r_openDate : Text)
    (r_monthDay r_billCycle : Int) (r_param : Text) : Option Int :=
  if r_value = 0 then some 0
  else match quotaParam r_param with
    | none => some 0
    | some p =>
        if r_compMethod = .SUM2 then do
          match ← quota (r_value.tdiv 12) p.t_param2
              (writeDay P.t_chDay (startDate tp p r_openDate)) r_monthDay r_billCycle with
          | none => some 0
          | some t_value => carry p.t_param5 p.t_param6 t_value
        else some 0

end Quota

/-! ## Dates -/

/-- The text begins with the eight digits of a date. -/
def IsDate (date : Text) : Prop := 8 ≤ date.length ∧ (date.take 8).all isDigit = true

instance (date : Text) : Decidable (IsDate date) := inferInstanceAs (Decidable (_ ∧ _))

def yearOf (date : Text) : Nat := readDigits (date.take 4)
def monthOf (date : Text) : Nat := readDigits ((date.take 6).drop 4)
def dayOfMonth (date : Text) : Nat := readDigits ((date.take 8).drop 6)

/-- What follows the digits is not read. -/
theorem atol_stop {text rest : Text} {c : Byte} (hne : text ≠ [])
    (htext : ∀ d ∈ text, isDigit d = true) (hc : isDigit c = false) :
    atol (text ++ c :: rest) = readDigits text := by
  obtain ⟨d, digits, rfl⟩ := List.exists_cons_of_ne_nil hne
  have hread : readDigits (d :: digits ++ c :: rest) = readDigits (d :: digits) := by
    unfold readDigits
    rw [List.takeWhile_append_of_pos htext, List.takeWhile_cons_of_neg (by simp [hc]),
      List.append_nil, List.takeWhile_eq_self_iff.mpr htext]
  rw [List.cons_append, atol_digits (htext d List.mem_cons_self), ← List.cons_append, hread]

section Dates

variable {date : Text} (hdate : IsDate date) (t_chDay : Text)
include hdate

theorem IsDate.digits {n : Nat} : ∀ c ∈ (date.take 8).drop n, isDigit c = true := fun c hc =>
  List.all_eq_true.mp hdate.2 c (List.mem_of_mem_drop hc)

/-- Behind some of them the rest of the eight are read. -/
theorem IsDate.atol_drop {n : Nat} (hn : n < 8) :
    atol ((writeDay t_chDay date).drop n) = readDigits ((date.take 8).drop n) := by
  have hlength : (date.take 8).length = 8 := by
    rw [List.length_take]
    exact Nat.min_eq_left hdate.1
  have hne : (date.take 8).drop n ≠ [] := by
    apply List.ne_nil_of_length_pos
    rw [List.length_drop]
    omega
  unfold writeDay
  rw [List.drop_append_of_le_length (by omega)]
  exact atol_stop hne hdate.digits (by decide)

/-- Digits in front of the last ones of a part are what is left when these are divided off. -/
theorem IsDate.part {n m : Nat} (hm : m ≤ 8) (hn : n < m) :
    readDigits ((date.take 8).drop n) / 10 ^ (8 - m) = readDigits ((date.take m).drop n) := by
  have hlength : (date.take 8).length = 8 := by
    rw [List.length_take]
    exact Nat.min_eq_left hdate.1
  have hsplit : (date.take 8).drop n = (date.take m).drop n ++ (date.take 8).drop m := by
    have htake : date.take m = (date.take 8).take m := by
      rw [List.take_take, Nat.min_eq_left hm]
    rw [htake, ← List.drop_append_of_le_length (by rw [List.length_take, hlength]; omega),
      List.take_append_drop]
  have hfront : ∀ c ∈ (date.take m).drop n, isDigit c = true := fun c hc =>
    hdate.digits c (hsplit ▸ List.mem_append_left _ hc)
  have hrest : ((date.take 8).drop m).length = 8 - m := by rw [List.length_drop, hlength]
  have hbound := readDigits_lt (hdate.digits (n := m))
  rw [hrest] at hbound
  rw [hsplit, readDigits_append hfront hdate.digits, hrest, Nat.add_comm,
    Nat.add_mul_div_right _ _ (Nat.pow_pos (by omega)), Nat.div_eq_of_lt hbound, Nat.zero_add]

/-- The year of the day that is written is that of the date. -/
theorem IsDate.year : (atol (writeDay t_chDay date)).tdiv 10000 = yearOf date := by
  have hread := hdate.atol_drop t_chDay (n := 0) (by omega)
  have hpart := hdate.part (n := 0) (m := 4) (by omega) (by omega)
  simp only [List.drop_zero] at hread hpart
  rw [hread, Int.tdiv_eq_ediv_of_nonneg (by omega), yearOf, ← hpart]
  simp

/-- The month of the day that is written is that of the date. -/
theorem IsDate.month : (atol ((writeDay t_chDay date).drop 4)).tdiv 100 = monthOf date := by
  have hpart := hdate.part (n := 4) (m := 6) (by omega) (by omega)
  rw [hdate.atol_drop t_chDay (by omega), Int.tdiv_eq_ediv_of_nonneg (by omega), monthOf, ← hpart]
  simp

theorem IsDate.day : dayOf (writeDay t_chDay date) = dayOfMonth date :=
  hdate.atol_drop t_chDay (by omega)

end Dates

/-! ## The rent -/

/-- What a value is cut short by. -/
inductive Share
  | whole | half | nothing
  | days (last first : Int)
deriving DecidableEq, Repr

/-- The days between two that are in a month. -/
def daysOf (last first monthDay : Int) : Int := max 0 (min monthDay (last - first + 1))

/-- The part of a value that is charged. -/
def Share.of (value monthDay : Int) : Share → Int
  | .whole => value
  | .half => value / 2
  | .nothing => 0
  | .days last first => value * daysOf last first monthDay / monthDay

/-- The product of a value and its days is a `long`. -/
def Share.Fits (value monthDay : Int) : Share → Prop
  | .days last first => value * daysOf last first monthDay < 2 ^ 63
  | .whole | .half | .nothing => True

instance (value monthDay : Int) (share : Share) : Decidable (share.Fits value monthDay) := by
  cases share <;> unfold Share.Fits <;> infer_instance

/-- The part as it is computed: there is none when the product is too large. -/
def Share.computed (value monthDay : Int) (share : Share) : Option Int :=
  if share.Fits value monthDay then some (share.of value monthDay) else none

/-- A part is computed when its product fits. -/
theorem Share.computed_eq_some_iff {value monthDay charged : Int} {share : Share} :
    share.computed value monthDay = some charged ↔
      share.Fits value monthDay ∧ share.of value monthDay = charged := by
  unfold Share.computed
  grind

section Share

variable {value monthDay : Int} (hvalue : 0 ≤ value) (hmonth : 0 < monthDay)

theorem daysOf_nonneg (last first monthDay : Int) : 0 ≤ daysOf last first monthDay := le_max_left _ _

include hmonth in
/-- The days that are counted are those within the month. -/
theorem clampDay_eq (last first : Int) :
    clampDay (last - first + 1) monthDay = daysOf last first monthDay := by
  unfold clampDay daysOf
  grind

include hvalue hmonth in
/-- What is computed by days is the share of these days. -/
theorem byDays_eq (last first : Int) :
    byDays value (last - first + 1) monthDay = (Share.days last first).computed value monthDay := by
  have hproduct := Int.mul_nonneg hvalue (daysOf_nonneg last first monthDay)
  have hfits : (Share.days last first).Fits value monthDay ↔
      InLong (value * daysOf last first monthDay) := by
    unfold Share.Fits InLong
    omega
  unfold byDays Share.computed
  rw [clampDay_eq hmonth, Int.tdiv_eq_ediv_of_nonneg hproduct]
  by_cases h : (Share.days last first).Fits value monthDay
  · rw [if_pos h, if_neg (by simp [hmonth.ne', hfits.mp h]), Share.of]
  · rw [if_neg h, if_pos (Or.inr (mt hfits.mpr h))]

include hvalue hmonth in
/-- A part is not more than the whole. -/
theorem Share.of_bounds (share : Share) : 0 ≤ share.of value monthDay ∧
    share.of value monthDay ≤ value := by
  cases share with
  | whole => exact ⟨hvalue, Int.le_refl _⟩
  | half =>
      simp only [Share.of]
      omega
  | nothing => exact ⟨Int.le_refl _, hvalue⟩
  | days last first =>
      have hdays : daysOf last first monthDay ≤ monthDay := by
        unfold daysOf
        omega
      constructor
      · exact Int.ediv_nonneg (Int.mul_nonneg hvalue (daysOf_nonneg last first monthDay)) hmonth.le
      · have hproduct := Int.mul_le_mul_of_nonneg_left hdays hvalue
        exact Int.ediv_le_of_le_mul hmonth hproduct

include hvalue hmonth in
/-- A later start leaves fewer days. -/
theorem Share.of_days_le {last first first' : Int} (h : first ≤ first') :
    (Share.days last first').of value monthDay ≤ (Share.days last first).of value monthDay := by
  have hdays : daysOf last first' monthDay ≤ daysOf last first monthDay := by
    unfold daysOf
    omega
  exact Int.ediv_le_ediv hmonth (Int.mul_le_mul_of_nonneg_left hdays hvalue)

end Share

section Rent

variable (P : Platform) (tp : RateTpInfo) (r_openFlag : Byte) (r_openDate : Text) (r_monthDay : Int)
  (r_earliestOpenDate : Text)

/-- The value that `getRentValue` has `getValue` work out. -/
def prorated : Option Int :=
  getValue P tp tp.m_monthRent tp.m_rentCompMethod r_openFlag r_openDate r_monthDay
    r_earliestOpenDate 0 none

/-- The part of the rent that is charged, by the text that is read through the null pointer. -/
def rentShare (t_param : Text) : Share :=
  let last := tpValidDay P tp r_monthDay 0 t_param
  let since := fun date => Share.days last.1 (dayOf (writeDay last.2 date))
  match tp.m_rentCompMethod with
  | .NORMAL => .whole
  | .HALF => if tp.m_pUserTp.m_halfInNetFlag = ONE then .half else .whole
  | .OPENDATE => if r_openFlag = ONE then since r_openDate else .whole
  | .TPDATE =>
      if flagIs tp.m_pUserTp.m_firstMonthFlag ONE then since tp.m_pUserTp.m_beginTime else .whole
  | .EARLIESTOPENDATE =>
      if tp.m_pUserTp.m_firstMonthFlag = ONE then .whole
      else if r_earliestOpenDate = [ZERO] then .nothing else since r_earliestOpenDate
  | .SPEACIALDATE => since r_earliestOpenDate
  | .SUM2 | .other => .nothing

/-- A start that is the same, or a date that is no earlier in its month. -/
def NoEarlier (date date' : Text) : Prop :=
  date' = date ∨ IsDate date ∧ IsDate date' ∧ dayOfMonth date ≤ dayOfMonth date'

/-- The same tariff from another time on. -/
def RateTpInfo.since (tp : RateTpInfo) (m_beginTime : Text) : RateTpInfo :=
  { tp with m_pUserTp := { tp.m_pUserTp with m_beginTime := m_beginTime } }

@[simp] theorem since_rentCompMethod (m_beginTime : Text) :
    (tp.since m_beginTime).m_rentCompMethod = tp.m_rentCompMethod := rfl

@[simp] theorem since_monthRent (m_beginTime : Text) :
    (tp.since m_beginTime).m_monthRent = tp.m_monthRent := rfl

@[simp] theorem since_beginTime (m_beginTime : Text) :
    (tp.since m_beginTime).m_pUserTp.m_beginTime = m_beginTime := rfl

@[simp] theorem since_halfInNetFlag (m_beginTime : Text) :
    (tp.since m_beginTime).m_pUserTp.m_halfInNetFlag = tp.m_pUserTp.m_halfInNetFlag := rfl

@[simp] theorem since_firstMonthFlag (m_beginTime : Text) :
    (tp.since m_beginTime).m_pUserTp.m_firstMonthFlag = tp.m_pUserTp.m_firstMonthFlag := rfl

/-- The last day goes by the end of the tariff, not by its begin. -/
@[simp] theorem tpValidDay_since (m_beginTime : Text) (r_billCycle : Int) (t_param : Text) :
    tpValidDay P (tp.since m_beginTime) r_monthDay r_billCycle t_param =
      tpValidDay P tp r_monthDay r_billCycle t_param := rfl

/-- What `getRentValue` is to give: the rent in tens, below a part of the month's rent that no later
start makes greater. -/
structure RentInTens : Prop where
  cut : ∃ value rent, prorated P tp r_openFlag r_openDate r_monthDay r_earliestOpenDate = some value ∧
    getRentValue P tp r_openFlag r_openDate r_monthDay r_earliestOpenDate = some rent ∧
    IsGreatest {tens : Int | 10 ∣ tens ∧ tens ≤ value} rent ∧ 0 ≤ value ∧ value ≤ tp.m_monthRent
  later : ∀ {begin' open' earliest' : Text} {value value' : Int},
    NoEarlier tp.m_pUserTp.m_beginTime begin' → NoEarlier r_openDate open' →
    NoEarlier r_earliestOpenDate earliest' →
    prorated P tp r_openFlag r_openDate r_monthDay r_earliestOpenDate = some value →
    prorated P (tp.since begin') r_openFlag open' r_monthDay earliest' = some value' →
    value' ≤ value

variable {P tp r_openFlag r_openDate r_monthDay r_earliestOpenDate}

/-- A rent from a date on is a share of days. -/
theorem fromDate_eq {value : Int} (hvalue : 0 ≤ value) (hmonth : 0 < r_monthDay)
    (last : Int × Text) (date : Text) : fromDate value r_monthDay last date =
      (Share.days last.1 (dayOf (writeDay last.2 date))).computed value r_monthDay :=
  byDays_eq hvalue hmonth _ _

/-- The value is a part of the rent, if the program gets past the null pointer and the product is a
`long`. -/
theorem prorated_eq (hrent : 0 ≤ tp.m_monthRent) (hmonth : 0 < r_monthDay) :
    prorated P tp r_openFlag r_openDate r_monthDay r_earliestOpenDate =
      P.nullText.bind fun t_param =>
        (rentShare P tp r_openFlag r_openDate r_monthDay r_earliestOpenDate t_param).computed
          tp.m_monthRent r_monthDay := by
  have hhalf : tp.m_monthRent.tdiv 2 = tp.m_monthRent / 2 := Int.tdiv_eq_ediv_of_nonneg hrent
  unfold prorated getValue rentShare
  cases P.nullText with
  | none => rfl
  | some t_param =>
      simp only [fromDate_eq hrent hmonth, Option.none_or, hhalf, Option.bind_eq_bind,
        Option.bind_some, true_or, if_true]
      cases tp.m_rentCompMethod <;> grind [Share.of, Share.Fits, Share.computed]

/-- A start that is no earlier leaves no more days. -/
theorem NoEarlier.since_le {date date' : Text} (h : NoEarlier date date') {value : Int}
    (hvalue : 0 ≤ value) (hmonth : 0 < r_monthDay) (last : Int × Text) :
    (Share.days last.1 (dayOf (writeDay last.2 date'))).of value r_monthDay ≤
      (Share.days last.1 (dayOf (writeDay last.2 date))).of value r_monthDay := by
  obtain rfl | ⟨hdate, hdate', hday⟩ := h
  · exact Int.le_refl _
  · apply Share.of_days_le hvalue hmonth
    rw [hdate.day, hdate'.day]
    omega

/-- No later start makes the value greater. -/
theorem prorated_later (hrent : 0 ≤ tp.m_monthRent) (hmonth : 0 < r_monthDay)
    {begin' open' earliest' : Text} {value value' : Int}
    (hbegin : NoEarlier tp.m_pUserTp.m_beginTime begin') (hopen : NoEarlier r_openDate open')
    (hearliest : NoEarlier r_earliestOpenDate earliest')
    (h : prorated P tp r_openFlag r_openDate r_monthDay r_earliestOpenDate = some value)
    (h' : prorated P (tp.since begin') r_openFlag open' r_monthDay earliest' = some value') :
    value' ≤ value := by
  have hrent' : 0 ≤ (tp.since begin').m_monthRent := hrent
  rw [prorated_eq hrent hmonth] at h
  rw [prorated_eq hrent' hmonth] at h'
  obtain ⟨t_param, hnull, hvalue⟩ := Option.bind_eq_some_iff.mp h
  obtain ⟨-, rfl⟩ := Share.computed_eq_some_iff.mp hvalue
  rw [hnull, Option.bind_some] at h'
  obtain ⟨-, rfl⟩ := Share.computed_eq_some_iff.mp h'
  simp only [rentShare, since_rentCompMethod, since_monthRent, since_beginTime,
    since_halfInNetFlag, since_firstMonthFlag, tpValidDay_since]
  generalize tpValidDay P tp r_monthDay 0 t_param = last
  cases tp.m_rentCompMethod with
  | NORMAL | HALF | SUM2 | other => exact Int.le_refl _
  | OPENDATE =>
      by_cases hflag : r_openFlag = ONE
      · rw [if_pos hflag, if_pos hflag]
        exact hopen.since_le hrent hmonth _
      · rw [if_neg hflag, if_neg hflag]
  | TPDATE =>
      by_cases hflag : flagIs tp.m_pUserTp.m_firstMonthFlag ONE
      · simpa only [hflag, if_true] using hbegin.since_le hrent hmonth last
      · simp only [hflag, Bool.false_eq_true, if_false, Int.le_refl]
  | EARLIESTOPENDATE =>
      by_cases hflag : tp.m_pUserTp.m_firstMonthFlag = ONE
      · simp only [hflag, if_true, Int.le_refl]
      · simp only [hflag, if_false]
        by_cases hzero' : earliest' = [ZERO]
        · rw [if_pos hzero']
          exact (Share.of_bounds hrent hmonth _).1
        · by_cases hzero : r_earliestOpenDate = [ZERO]
          · -- a text that is no date has no later one but itself
            obtain rfl | ⟨hdate, -, -⟩ := hearliest
            · exact absurd hzero hzero'
            · subst hzero
              exact absurd hdate.1 (by decide)
          · rw [if_neg hzero, if_neg hzero']
            exact hearliest.since_le hrent hmonth _
  | SPEACIALDATE => exact hearliest.since_le hrent hmonth _

/-- The remainders by 80 for which a bit mask is the remainder by ten. -/
def TENS : List Nat := [0, 2, 8, 20, 22, 28]

/-- The bits are the last digit only for some numbers. -/
theorem land_ten_iff {n : Nat} : Int.land n 10 = (n : Int) % 10 ↔ n % 80 ∈ TENS := by
  have hsmall : ∀ k < 80, (k % 16) &&& 10 = k % 10 ↔ k ∈ TENS := by decide
  have hmask : n &&& 10 = (n % 80 % 16) &&& 10 := by
    have hlow : n % 80 % 16 = n % 16 := Nat.mod_mod_of_dvd n (by decide)
    have hbits : n % 16 = n &&& 15 := (Nat.and_two_pow_sub_one_eq_mod n 4).symm
    have hten : 15 &&& 10 = 10 := by decide
    rw [hlow, hbits, Nat.and_assoc, hten]
  have hdigit : n % 10 = n % 80 % 10 := (Nat.mod_mod_of_dvd n (by decide)).symm
  have hland : Int.land n 10 = ((n &&& 10 : Nat) : Int) := rfl
  rw [hland, ← hsmall (n % 80) (Nat.mod_lt _ (by decide)), ← hmask, ← hdigit]
  omega

/-- The number without its last digit is the greatest full ten up to it. -/
theorem isGreatest_tens (value : Int) :
    IsGreatest {tens : Int | 10 ∣ tens ∧ tens ≤ value} (value - value % 10) := by
  constructor
  · exact ⟨Int.dvd_self_sub_emod, by omega⟩
  · intro tens h
    have := h.2
    have := h.1
    omega

/-- **The rent is the tens of a part of the month's rent** if and only if the length of the missing
`r_param` can be read, the product with the days is a `long`, and the mask is the remainder for that
part. -/
theorem rent_in_tens_iff (hrent : 0 ≤ tp.m_monthRent) (hmonth : 0 < r_monthDay) :
    RentInTens P tp r_openFlag r_openDate r_monthDay r_earliestOpenDate ↔
      ∃ t_param, P.nullText = some t_param ∧
        (rentShare P tp r_openFlag r_openDate r_monthDay r_earliestOpenDate t_param).Fits
          tp.m_monthRent r_monthDay ∧
        ((rentShare P tp r_openFlag r_openDate r_monthDay r_earliestOpenDate t_param).of
          tp.m_monthRent r_monthDay).toNat % 80 ∈ TENS := by
  have hvalue := @prorated_eq P tp r_openFlag r_openDate r_monthDay r_earliestOpenDate hrent hmonth
  have hcut : getRentValue P tp r_openFlag r_openDate r_monthDay r_earliestOpenDate =
      (prorated P tp r_openFlag r_openDate r_monthDay r_earliestOpenDate).map cutRent := rfl
  constructor
  · intro h
    obtain ⟨value, rent, hprorated, hrentValue, hgreatest, hpos, -⟩ := h.cut
    rw [hcut, hprorated, Option.map_some, Option.some_inj] at hrentValue
    rw [hvalue] at hprorated
    obtain ⟨t_param, hnull, hshare⟩ := Option.bind_eq_some_iff.mp hprorated
    obtain ⟨hfits, rfl⟩ := Share.computed_eq_some_iff.mp hshare
    refine ⟨t_param, hnull, hfits, ?_⟩
    rw [← land_ten_iff, Int.toNat_of_nonneg hpos]
    have hunique := hgreatest.unique (isGreatest_tens _)
    unfold cutRent at hrentValue
    omega
  · rintro ⟨t_param, hnull, hfits, htens⟩
    have hbounds := Share.of_bounds hrent hmonth
      (rentShare P tp r_openFlag r_openDate r_monthDay r_earliestOpenDate t_param)
    rw [← land_ten_iff, Int.toNat_of_nonneg hbounds.1] at htens
    rw [hnull, Option.bind_some, Share.computed_eq_some_iff.mpr ⟨hfits, rfl⟩] at hvalue
    rw [hvalue, Option.map_some, cutRent, htens] at hcut
    exact ⟨⟨_, _, hvalue, hcut, isGreatest_tens _, hbounds⟩,
      fun hbegin hopen hearliest => prorated_later hrent hmonth hbegin hopen hearliest⟩

end Rent

/-- The text at address 0 is empty. -/
def zeroPage : Platform := ⟨some [], []⟩

/-- `20090115` and `20991231`. -/
def january15 : Text := [50, 48, 48, 57, 48, 49, 49, 53]
def farEnd : Text := [50, 48, 57, 57, 49, 50, 51, 49]

/-- A tariff from the middle of January on. -/
def midMonth (m_monthRent : Int) (m_rentCompMethod : CompMethod) : RateTpInfo :=
  ⟨⟨january15, farEnd, ONE, ONE⟩, m_monthRent, m_rentCompMethod⟩

/-- For 17 of 31 days 28 of 52 are charged, and 28 is cut to 20. -/
theorem rent_in_tens_iff_midMonth :
    RentInTens zeroPage (midMonth 52 .OPENDATE) ONE january15 31 [ZERO] :=
  (rent_in_tens_iff (by decide) (by decide)).mpr ⟨[], rfl, by decide, by decide⟩

/-- From the begin of the tariff the rent never goes by days: no text of one character reads as the
code of `1`. -/
theorem flagIs_one (flag : Byte) : flagIs flag ONE = false := by
  have hread (c : Byte) : readDigits [c] < 10 := by
    by_cases hdigit : isDigit c = true
    · have hdigits : ∀ d ∈ [c], isDigit d = true := by simpa using hdigit
      exact readDigits_lt hdigits
    · simp [readDigits, hdigit]
  have hsmall : atol [flag] < 10 := by
    have hflag := hread flag
    unfold atol
    by_cases hspace : isSpace flag = true
    · simp [hspace]
    · have hempty : readDigits [] = 0 := rfl
      simp only [List.dropWhile_cons, hspace, Bool.false_eq_true, if_false, hempty]
      grind
  have hcode : (ONE.toNat : Int) = 49 := rfl
  unfold flagIs
  apply decide_eq_false
  omega

/-- A whole rent of 18 is cut to 16. -/
theorem rent_not_in_tens : ¬ ∀ (P : Platform) (tp : RateTpInfo) (r_openFlag : Byte)
    (r_openDate : Text) (r_monthDay : Int) (r_earliestOpenDate : Text), 0 ≤ tp.m_monthRent →
    0 < r_monthDay → RentInTens P tp r_openFlag r_openDate r_monthDay r_earliestOpenDate := by
  intro h
  obtain ⟨value, rent, -, hrent, hgreatest, -⟩ :=
    (h zeroPage (midMonth 18 .NORMAL) ZERO [] 31 [ZERO] (by decide) (by decide)).cut
  have hsixteen : getRentValue zeroPage (midMonth 18 .NORMAL) ZERO [] 31 [ZERO] = some 16 := by
    decide
  rw [hsixteen, Option.some_inj] at hrent
  have hten := hgreatest.1.1
  omega

/-! ## The quota -/

/-- The part of the first month's value from a day on, in a month of a length. -/
def firstPart (t_monthValue : Int) (first : Nat) (r_monthDay : Int) : Int :=
  (Share.days r_monthDay first).of t_monthValue r_monthDay

/-- With a unit of 1 nothing is cut. -/
theorem carry_one (t_param5 : Byte) (t_value : Int) : carry t_param5 1 t_value = some t_value := by
  unfold carry
  simp

section Quota

variable {P : Platform} {tp : RateTpInfo} {t_chDay r_param r_openDate : Text} {t_param2 : Byte}
  {t_monthValue r_value r_monthDay year month : Int} {date : Text}

/-- A cycle is its year and its month. -/
theorem cycle_year (hyear : 0 ≤ year) (hmonth : 0 ≤ month ∧ month < 100) :
    (100 * year + month).tdiv 100 = year ∧ (100 * year + month).tmod 100 = month := by
  have hcycle : 0 ≤ 100 * year + month := by omega
  rw [Int.tdiv_eq_ediv_of_nonneg hcycle, Int.tmod_eq_emod_of_nonneg hcycle]
  omega

/-- The quota of a month after the first. -/
theorem quota_eq (hdate : IsDate date) (hvalue : 0 ≤ t_monthValue) (hdays : 0 < r_monthDay)
    (hmonth : 0 ≤ month ∧ month < 100)
    (hafter : yearOf date < year ∨ yearOf date = year ∧ monthOf date < month) :
    quota t_monthValue t_param2 (writeDay t_chDay date) r_monthDay (100 * year + month) =
      if yearOf date < year then some (some (t_monthValue * month))
      else if t_param2 = ONE then
        ((Share.days r_monthDay (dayOfMonth date)).computed t_monthValue r_monthDay).map fun part =>
          some ((month - monthOf date) * t_monthValue + part)
      else some (some ((month - monthOf date) * t_monthValue + t_monthValue)) := by
  obtain ⟨hyear, hmonthOf⟩ := @cycle_year year month (by omega) hmonth
  have hpart := byDays_eq hvalue hdays r_monthDay (dayOfMonth date)
  unfold quota
  simp only [hdate.year, hdate.month, hdate.day, hyear, hmonthOf, hpart]
  by_cases hlater : yearOf date < year
  · rw [if_neg (by omega), if_pos (by omega), if_pos hlater]
  · have hsame : (year : Int) = yearOf date := by omega
    rw [if_pos hsame, if_neg hlater]
    by_cases hdays : t_param2 = ONE
    · have hfirst : ¬ month = monthOf date := by omega
      have hlast : month > monthOf date := by omega
      simp only [hdays, if_true, Option.bind_eq_bind, if_neg hfirst, if_pos hlast]
      cases (Share.days r_monthDay (dayOfMonth date)).computed t_monthValue r_monthDay <;> rfl
    · simp only [hdays, if_false, Option.bind_eq_bind, Option.bind_some]
      rw [if_neg (by omega), if_pos (by omega)]

variable {param : QuotaParam} (hparam : quotaParam r_param = some param)
  (hunit : param.t_param6 = 1) (hvalue : 0 < r_value)
  (hdate : IsDate (startDate tp param r_openDate))

include hparam hunit hvalue hdate in
/-- The quota that is granted in a month after the first. -/
theorem getValueSum2_eq (hdays : 0 < r_monthDay) (hmonth : 0 ≤ month ∧ month < 100)
    (hafter : yearOf (startDate tp param r_openDate) < year ∨
      yearOf (startDate tp param r_openDate) = year ∧
        monthOf (startDate tp param r_openDate) < month) :
    getValueSum2 P tp r_value .SUM2 r_openDate r_monthDay (100 * year + month) r_param =
      if yearOf (startDate tp param r_openDate) < year then some (r_value / 12 * month)
      else if param.t_param2 = ONE then
        ((Share.days r_monthDay (dayOfMonth (startDate tp param r_openDate))).computed
          (r_value / 12) r_monthDay).map fun part =>
            (month - monthOf (startDate tp param r_openDate)) * (r_value / 12) + part
      else some ((month - monthOf (startDate tp param r_openDate)) * (r_value / 12) +
        r_value / 12) := by
  have htwelfth : r_value.tdiv 12 = r_value / 12 := Int.tdiv_eq_ediv_of_nonneg hvalue.le
  have hmonthValue : 0 ≤ r_value / 12 := Int.ediv_nonneg hvalue.le (by decide)
  unfold getValueSum2
  rw [if_neg (by omega), hparam]
  simp only [if_true, htwelfth, quota_eq hdate hmonthValue hdays hmonth hafter,
    Option.bind_eq_bind]
  by_cases hlater : yearOf (startDate tp param r_openDate) < year
  · simp only [if_pos hlater, Option.bind_some, hunit, carry_one]
  · simp only [if_neg hlater]
    by_cases hdaily : param.t_param2 = ONE
    · simp only [if_pos hdaily]
      cases (Share.days r_monthDay (dayOfMonth (startDate tp param r_openDate))).computed
          (r_value / 12) r_monthDay with
      | none => rfl
      | some part => simp only [Option.map_some, Option.bind_some, hunit, carry_one]
    · simp only [if_neg hdaily, Option.bind_some, hunit, carry_one]

include hparam hunit hvalue hdate in
/-- **The quota grows by a twelfth of the year's value** from a month after the first to the next
if and only if it is another year's, or the first month does not go by days, or its part can be
computed in months of both lengths and comes out the same. -/
theorem quota_grows_iff {days days' : Int} (hdays : 0 < days) (hdays' : 0 < days')
    (hmonth : 1 ≤ month ∧ month < 12)
    (hafter : yearOf (startDate tp param r_openDate) < year ∨
      yearOf (startDate tp param r_openDate) = year ∧
        monthOf (startDate tp param r_openDate) < month) :
    (∃ quota quota',
      getValueSum2 P tp r_value .SUM2 r_openDate days (100 * year + month) r_param = some quota ∧
      getValueSum2 P tp r_value .SUM2 r_openDate days' (100 * year + month + 1) r_param =
        some quota' ∧
      quota' - quota = r_value / 12) ↔
    yearOf (startDate tp param r_openDate) < year ∨ param.t_param2 ≠ ONE ∨
      (Share.days days (dayOfMonth (startDate tp param r_openDate))).Fits (r_value / 12) days ∧
      (Share.days days' (dayOfMonth (startDate tp param r_openDate))).Fits (r_value / 12) days' ∧
      firstPart (r_value / 12) (dayOfMonth (startDate tp param r_openDate)) days =
        firstPart (r_value / 12) (dayOfMonth (startDate tp param r_openDate)) days' := by
  have hnext : 100 * year + month + 1 = 100 * year + (month + 1) := by omega
  have hafter' : yearOf (startDate tp param r_openDate) < year ∨
      yearOf (startDate tp param r_openDate) = year ∧
        monthOf (startDate tp param r_openDate) < month + 1 := by omega
  have hgrows : (month + 1 - monthOf (startDate tp param r_openDate)) * (r_value / 12) =
      (month - monthOf (startDate tp param r_openDate)) * (r_value / 12) + r_value / 12 := by
    rw [add_sub_right_comm, Int.add_mul, Int.one_mul]
  rw [hnext, getValueSum2_eq hparam hunit hvalue hdate hdays (by omega) hafter,
    getValueSum2_eq hparam hunit hvalue hdate hdays' (by omega) hafter', hgrows]
  by_cases hlater : yearOf (startDate tp param r_openDate) < year
  · simp only [hlater, if_true, true_or, iff_true]
    refine ⟨_, _, rfl, rfl, ?_⟩
    rw [Int.mul_add, Int.mul_one]
    omega
  · by_cases hdaily : param.t_param2 = ONE
    · simp only [hlater, hdaily, if_false, if_true, false_or, ne_eq, not_true, firstPart]
      constructor
      · intro h
        obtain ⟨quota, quota', hquota, hquota', hdiff⟩ := h
        obtain ⟨part, hpart, rfl⟩ := Option.map_eq_some_iff.mp hquota
        obtain ⟨part', hpart', rfl⟩ := Option.map_eq_some_iff.mp hquota'
        obtain ⟨hfits, rfl⟩ := Share.computed_eq_some_iff.mp hpart
        obtain ⟨hfits', rfl⟩ := Share.computed_eq_some_iff.mp hpart'
        exact ⟨hfits, hfits', by omega⟩
      · intro h
        obtain ⟨hfits, hfits', hsame⟩ := h
        rw [Share.computed_eq_some_iff.mpr ⟨hfits, rfl⟩,
          Share.computed_eq_some_iff.mpr ⟨hfits', rfl⟩]
        refine ⟨_, _, rfl, rfl, ?_⟩
        dsimp only
        omega
    · simp only [hlater, hdaily, if_false, false_or, ne_eq, not_false_eq_true, true_or, iff_true]
      exact ⟨_, _, rfl, rfl, by omega⟩

end Quota

/-- `1,1,C,1,2,1`: from the begin of the tariff, the first month by days, in units of 1. -/
def dailyFirst : Text := [49, 44, 49, 44, 67, 44, 49, 44, 50, 44, 49]

/-- Of a twelfth of 10, both 17 of 31 days and 16 of 30 are 5. -/
theorem quota_grows_iff_march : ∃ quota quota',
    getValueSum2 zeroPage (midMonth 0 .NORMAL) 120 .SUM2 [] 31 (100 * 2009 + 3) dailyFirst =
      some quota ∧
    getValueSum2 zeroPage (midMonth 0 .NORMAL) 120 .SUM2 [] 30 (100 * 2009 + 3 + 1) dailyFirst =
      some quota' ∧
    quota' - quota = 120 / 12 := by
  have hparam : quotaParam dailyFirst = some ⟨ONE, ONE, 50, 1⟩ := by decide
  have hstart : startDate (midMonth 0 .NORMAL) ⟨ONE, ONE, 50, 1⟩ [] = january15 := by decide
  apply (quota_grows_iff hparam rfl (by decide) (by decide) (by decide) (by decide) (by decide)
    (by rw [hstart]; decide)).mpr
  rw [hstart]
  exact Or.inr (Or.inr ⟨by decide, by decide, by decide⟩)

/-- In February the first month counts as half of 28 days, in March as 17 of 31. -/
theorem quota_leaps : ¬ ∀ (P : Platform) (tp : RateTpInfo) (r_param r_openDate : Text)
    (param : QuotaParam) (r_value year month days days' : Int), quotaParam r_param = some param →
    param.t_param6 = 1 → 0 < r_value → IsDate (startDate tp param r_openDate) → 0 < days →
    0 < days' → 1 ≤ month ∧ month < 12 →
    (yearOf (startDate tp param r_openDate) < year ∨
      yearOf (startDate tp param r_openDate) = year ∧
        monthOf (startDate tp param r_openDate) < month) →
    ∃ quota quota',
      getValueSum2 P tp r_value .SUM2 r_openDate days (100 * year + month) r_param = some quota ∧
      getValueSum2 P tp r_value .SUM2 r_openDate days' (100 * year + month + 1) r_param =
        some quota' ∧
      quota' - quota = r_value / 12 := by
  intro h
  obtain ⟨quota, quota', hquota, hquota', hgrows⟩ :=
    h zeroPage (midMonth 0 .NORMAL) dailyFirst [] ⟨ONE, ONE, 50, 1⟩ 1200 2009 2 28 31 (by decide)
      rfl (by decide) (by decide) (by decide) (by decide) (by decide) (by decide)
  have hfebruary : getValueSum2 zeroPage (midMonth 0 .NORMAL) 1200 .SUM2 [] 28 200902 dailyFirst =
      some 150 := by decide
  have hmarch : getValueSum2 zeroPage (midMonth 0 .NORMAL) 1200 .SUM2 [] 31 200903 dailyFirst =
      some 254 := by decide
  obtain rfl : (150 : Int) = quota := Option.some_inj.mp (hfebruary.symm.trans hquota)
  obtain rfl : (254 : Int) = quota' := Option.some_inj.mp (hmarch.symm.trans hquota')
  exact absurd hgrows (by decide)

end TpInfo
