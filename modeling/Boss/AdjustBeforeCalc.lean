import Mathlib.Data.List.Induction
import Boss.RateGlobalInfo
import Boss.Runs

/-!
# Adjustments before the bill

An adjustment grants an amount that is used up over several cycles.  `getAdjustBeforeFee` reads
back what was used so far, works out the amount for this cycle, signed as a surcharge or a
refund, and hands on the sum of both; `updateAddupInfo` stores the absolute value of that sum.

A refund is positive and so is the amount used, so the sum is right; a surcharge is negative,
and from the second cycle on the sum takes it off the amount used.  The catch-up mode and a
negative limit are not held against the grant at all.  `RoomFor` says when the amount of a cycle
does fit, and `granted_iff` that a run stays within its grant exactly as long as it does.
-/

namespace AdjustBeforeCalc

open BillStruct RateGlobalInfo SortedMap

/-- The adjustment. -/
structure AdjustBefore where
  m_adjustInsId : Int
  m_effectMode : Char
  m_addupMode : Char
  m_effectValueType : Char
  m_effectValue : Int
  m_startCycId : Int
  m_limitFee : Int
deriving DecidableEq, Repr

/-- What is read of the discount that the adjustment belongs to. -/
structure Discount where
  m_adjustInsId : Int
  m_addupItem : Int
  m_startDate : Int
  m_endDate : Int
deriving DecidableEq, Repr

/-- A billing cycle with the fee of the reference item. -/
structure Cycle where
  m_cycleId : Int
  r_nfee : Int
deriving DecidableEq, Repr

/-- `MinusCycle`: the months between two cycles `YYYYMM`, 0 where one of them is none. -/
def minusCycle (left_cycle right_cycle : Int) : Int :=
  if left_cycle < 190001 ∨ left_cycle > 300001 ∨ right_cycle < 190001 ∨ right_cycle > 300001 then 0
  else if left_cycle.tmod 100 > 12 ∨ right_cycle.tmod 100 > 12 then 0
  else (left_cycle.tdiv 100 - right_cycle.tdiv 100) * 12 +
    (left_cycle.tmod 100 - right_cycle.tmod 100)

/-- The object at work: whose bills it writes, what bills are divided by, whether bills may be
negative (`_NEGATIVEBILL_`), how a share of a fee is rounded, and `getLastSumBill2`. -/
structure Calc (S : Type*) where
  m_id : S
  m_divisor : Int
  divisor_pos : 0 < m_divisor
  negativeBill : Bool
  share : Int → Int → Int
  getLastSumBill2 : List (UserSumBill2 S) → UserSumBill2 S → Option (UserSumBill2 S)

variable {S : Type*} [LinearOrder S]

/-- The accumulation of a cycle. -/
def sumBill (K : Calc S) (r_discount : Discount) (m_cycleId m_value : Int) : UserSumBill2 S :=
  ⟨K.m_id, r_discount.m_adjustInsId, r_discount.m_startDate, r_discount.m_endDate, m_cycleId,
    r_discount.m_addupItem, m_value, 0, 0⟩

/-- `getAddupInfo`: what was used up to the last cycle. -/
def getAddupInfo (K : Calc S) (r_discount : Discount) (m_userSumBill2s_new : List (UserSumBill2 S))
    (m_cycleId : Int) : Int :=
  match K.getLastSumBill2 m_userSumBill2s_new (sumBill K r_discount m_cycleId 0) with
  | none => 0
  | some l_pLastSumBill2 => l_pLastSumBill2.m_value.tdiv K.m_divisor

/-- The amount of a surcharge or refund before it is signed, cut to the limit of a cycle. -/
def limitedFee (K : Calc S) (r_adjustBefore : AdjustBefore) (l_remainFee l_sumfee : Int) : Int :=
  let r_effectFee :=
    if r_adjustBefore.m_effectValueType = '0' then l_remainFee else K.share l_remainFee l_sumfee
  if r_effectFee > r_adjustBefore.m_limitFee ∧ r_adjustBefore.m_limitFee ≠ 0 then
    r_adjustBefore.m_limitFee
  else r_effectFee

/-- A refund: the catch-up mode makes up for all cycles so far, and the fee bounds it. -/
def refundFee (K : Calc S) (r_adjustBefore : AdjustBefore) (m_cycleId l_remainFee l_sumfee : Int) :
    Int :=
  let r_effectFee :=
    if r_adjustBefore.m_addupMode = '2' ∧ r_adjustBefore.m_limitFee ≠ 0 then
      r_adjustBefore.m_limitFee * (minusCycle m_cycleId r_adjustBefore.m_startCycId + 2) -
        (r_adjustBefore.m_effectValue - l_remainFee)
    else limitedFee K r_adjustBefore l_remainFee l_sumfee
  if K.negativeBill = false ∧ r_effectFee > l_sumfee then l_sumfee else r_effectFee

/-- `getAdjustBeforeFee`: the amount of the cycle, a refund positive and a surcharge negative, and
what is used with it; `none` for a mode that does not exist. -/
def getAdjustBeforeFee (K : Calc S) (r_adjustBefore : AdjustBefore)
    (m_cycleId l_usedFee l_sumfee : Int) : Option (Int × Int) :=
  let l_remainFee := r_adjustBefore.m_effectValue - l_usedFee
  let mode := r_adjustBefore.m_effectMode
  let difference := if r_adjustBefore.m_effectValueType = '0' then l_sumfee - l_remainFee else 0
  if mode = '0' ∨ mode = '5' then
    let r_effectFee := -1 * limitedFee K r_adjustBefore l_remainFee l_sumfee
    some (r_effectFee, l_usedFee + r_effectFee)
  else if mode = '1' ∨ mode = '6' then
    let r_effectFee := refundFee K r_adjustBefore m_cycleId l_remainFee l_sumfee
    some (r_effectFee, l_usedFee + r_effectFee)
  else if mode = '2' ∨ mode = '7' then
    let r_effectFee := if difference < 0 then 0 else difference
    some (r_effectFee, l_usedFee + r_effectFee)
  else if mode = '3' ∨ mode = '8' then
    let r_effectFee := if difference > 0 then 0 else difference
    some (r_effectFee, l_usedFee + r_effectFee)
  else if mode = '4' ∨ mode = '9' then
    some (difference, l_usedFee + difference)
  else none

/-- `updateAddupInfo`: the absolute value is stored. -/
def updateAddupInfo (K : Calc S) (r_discount : Discount)
    (m_userSumBill2s_new : List (UserSumBill2 S)) (m_cycleId r_effectFee : Int) : List (UserSumBill2 S) :=
  updateBillTotal userSumBill2s m_userSumBill2s_new
    (sumBill K r_discount m_cycleId (r_effectFee.natAbs * K.m_divisor))

/-- The accumulations, the amount applied so far without its sign, and the value that the last
cycle has stored. -/
structure AdjustState (S : Type*) where
  m_userSumBill2s_new : List (UserSumBill2 S)
  applied : Int
  stored : Int

/-- `dealAdjust` in one cycle. -/
def dealAdjust (K : Calc S) (m_adjustBeforeVector : List AdjustBefore) (r_discount : Discount)
    (st : AdjustState S) (c : Cycle) : Option (AdjustState S) :=
  match m_adjustBeforeVector.find? fun a => a.m_adjustInsId = r_discount.m_adjustInsId with
  | none => none
  | some l_adjustBefore =>
      let l_usedFee :=
        if l_adjustBefore.m_addupMode ≠ '0' then
          getAddupInfo K r_discount st.m_userSumBill2s_new c.m_cycleId
        else 0
      match getAdjustBeforeFee K l_adjustBefore c.m_cycleId l_usedFee c.r_nfee with
      | none => none
      | some (l_effectFee, l_usedfee) =>
          let bills :=
            if l_adjustBefore.m_addupMode ≠ '0' then
              updateAddupInfo K r_discount st.m_userSumBill2s_new c.m_cycleId l_usedfee
            else st.m_userSumBill2s_new
          some ⟨bills, st.applied + l_effectFee.natAbs,
            valueAt userSumBill2s bills (sumBill K r_discount c.m_cycleId 0).key⟩

/-- The stored value is the amount applied, in units of the divisor, and within the grant. -/
def Granted (K : Calc S) (grant : Int) (st : AdjustState S) : Prop :=
  st.stored = st.applied * K.m_divisor ∧ st.applied ≤ grant

/-! ## When the amount of a cycle fits -/

/-- The amount of a cycle fits into the grant, of which `used` is gone.  A surcharge is only
right when nothing or everything is used; a negative limit and the catch-up mode have to leave
the grant alone by themselves. -/
def RoomFor (K : Calc S) (a : AdjustBefore) (m_cycleId used fee : Int) : Prop :=
  if a.m_effectMode = '0' ∨ a.m_effectMode = '5' then
    if a.m_limitFee < 0 then used - a.m_limitFee ≤ a.m_effectValue
    else used = 0 ∨ used = a.m_effectValue
  else if a.m_addupMode = '2' ∧ a.m_limitFee ≠ 0 then
    let upTo := a.m_limitFee * (minusCycle m_cycleId a.m_startCycId + 2)
    (used ≤ upTo ∧ (upTo ≤ a.m_effectValue ∨
        K.negativeBill = false ∧ used + fee ≤ a.m_effectValue)) ∨
      (upTo ≤ 0 ∧ used = 0 ∧ -upTo ≤ a.m_effectValue)
  else 0 ≤ a.m_limitFee ∨ used = 0 ∧ -a.m_limitFee ≤ a.m_effectValue

/-- A signed sum is the amount used and applied when nothing is taken back, or nothing was used. -/
theorem signed_sum_iff {used effect grant : Int} (hused : 0 ≤ used) :
    (((used + effect).natAbs : Int) = used + effect.natAbs ∧ used + effect.natAbs ≤ grant) ↔
      0 ≤ effect ∧ used + effect ≤ grant ∨ effect < 0 ∧ used = 0 ∧ -effect ≤ grant := by
  omega

omit [LinearOrder S] in
/-- The signed sum is the amount used and applied, within the grant, exactly when there is room
for the amount. -/
theorem roomFor_iff {K : Calc S} {a : AdjustBefore} {m_cycleId used fee effect total : Int}
    (htype : a.m_effectValueType = '0')
    (hmode : a.m_effectMode = '0' ∨ a.m_effectMode = '5' ∨ a.m_effectMode = '1' ∨
      a.m_effectMode = '6')
    (hused : 0 ≤ used) (hgrant : used ≤ a.m_effectValue) (hfee : 0 ≤ fee)
    (hadjust : getAdjustBeforeFee K a m_cycleId used fee = some (effect, total)) :
    total = used + effect ∧
      (RoomFor K a m_cycleId used fee ↔
        (total.natAbs : Int) = used + effect.natAbs ∧ used + effect.natAbs ≤ a.m_effectValue) := by
  by_cases hsurcharge : a.m_effectMode = '0' ∨ a.m_effectMode = '5'
  · simp only [getAdjustBeforeFee, if_pos hsurcharge, Option.some.injEq, Prod.mk.injEq] at hadjust
    obtain ⟨rfl, rfl⟩ := hadjust
    refine ⟨rfl, ?_⟩
    rw [RoomFor, if_pos hsurcharge, limitedFee, signed_sum_iff hused]
    simp only [if_pos htype]
    clear htype hmode hsurcharge
    generalize a.m_limitFee = limit, a.m_effectValue = grant at *
    split <;> split <;> omega
  · have hrefund : a.m_effectMode = '1' ∨ a.m_effectMode = '6' := by
      rcases hmode with h | h | h | h
      · exact absurd (Or.inl h) hsurcharge
      · exact absurd (Or.inr h) hsurcharge
      · exact Or.inl h
      · exact Or.inr h
    simp only [getAdjustBeforeFee, if_neg hsurcharge, if_pos hrefund, Option.some.injEq,
      Prod.mk.injEq] at hadjust
    obtain ⟨rfl, rfl⟩ := hadjust
    refine ⟨rfl, ?_⟩
    rw [RoomFor, if_neg hsurcharge, refundFee, signed_sum_iff hused]
    by_cases hcatch : a.m_addupMode = '2' ∧ a.m_limitFee ≠ 0
    · simp only [if_pos hcatch]
      generalize a.m_limitFee * (minusCycle m_cycleId a.m_startCycId + 2) = upTo
      cases K.negativeBill with
      | true =>
          simp only [Bool.true_eq_false, false_and, or_false, if_false]
          omega
      | false =>
          simp only [true_and]
          split <;> omega
    · simp only [if_neg hcatch, limitedFee, if_pos htype]
      cases K.negativeBill with
      | true =>
          simp only [Bool.true_eq_false, false_and, if_false]
          split <;> omega
      | false =>
          simp only [true_and]
          split <;> split <;> omega

/-! ## The accumulation over the cycles -/

/-- The bill is an accumulation of the adjustment, of whatever cycle. -/
def OfAdjust (K : Calc S) (r_discount : Discount) (b : UserSumBill2 S) : Prop :=
  b.m_userId = K.m_id ∧ b.m_tpObjId = r_discount.m_adjustInsId ∧
    b.m_beginTime = r_discount.m_startDate ∧ b.m_billId = r_discount.m_addupItem

/-- The bill is an accumulation like `r_bill`, of an earlier cycle. -/
def Earlier (r_bill b : UserSumBill2 S) : Prop :=
  b.m_userId = r_bill.m_userId ∧ b.m_tpObjId = r_bill.m_tpObjId ∧
    b.m_beginTime = r_bill.m_beginTime ∧ b.m_billId = r_bill.m_billId ∧
    b.m_cycleId < r_bill.m_cycleId

/-- What `getLastSumBill2` is for: the accumulation of the latest earlier cycle. -/
structure ReturnsLatest
    (getLastSumBill2 : List (UserSumBill2 S) → UserSumBill2 S → Option (UserSumBill2 S)) :
    Prop where
  some : ∀ l r b, Ascending userSumBill2s.key l → getLastSumBill2 l r = some b →
    b ∈ l ∧ Earlier r b ∧ ∀ b' ∈ l, Earlier r b' → b'.m_cycleId ≤ b.m_cycleId
  none : ∀ l r, Ascending userSumBill2s.key l → getLastSumBill2 l r = none →
    ∀ b ∈ l, ¬ Earlier r b

variable {K : Calc S} {r_discount : Discount} {bills : List (UserSumBill2 S)}
  {st st' : AdjustState S} {last m_cycleId v : Int} {c : Cycle}

omit [LinearOrder S] in
theorem earlier_iff {b : UserSumBill2 S} :
    Earlier (sumBill K r_discount m_cycleId v) b ↔
      OfAdjust K r_discount b ∧ b.m_cycleId < m_cycleId := by
  simp [Earlier, OfAdjust, sumBill, and_assoc]

theorem key_eq_iff {b : UserSumBill2 S} :
    userSumBill2s.key b = userSumBill2s.key (sumBill K r_discount m_cycleId v) ↔
      OfAdjust K r_discount b ∧ b.m_cycleId = m_cycleId := by
  simp [userSumBill2s, UserSumBill2.key, OfAdjust, sumBill]
  tauto

omit [LinearOrder S] in
theorem stored_eq_zero_iff : (v.natAbs : Int) * K.m_divisor = 0 ↔ v = 0 := by
  have hpos := K.divisor_pos
  rw [Int.mul_eq_zero]
  omega

/-- A value stored for a new cycle; 0 is not stored. -/
theorem updateAddupInfo_spec (h : Ascending userSumBill2s.key bills)
    (hnew : ∀ b ∈ bills, OfAdjust K r_discount b → b.m_cycleId ≠ m_cycleId) (v : Int) :
    Ascending userSumBill2s.key (updateAddupInfo K r_discount bills m_cycleId v) ∧
      valueAt userSumBill2s (updateAddupInfo K r_discount bills m_cycleId v)
        (sumBill K r_discount m_cycleId 0).key = v.natAbs * K.m_divisor ∧
      ∀ b, b ∈ updateAddupInfo K r_discount bills m_cycleId v ↔
        b ∈ bills ∨ v ≠ 0 ∧ b = sumBill K r_discount m_cycleId (v.natAbs * K.m_divisor) := by
  obtain ⟨hasc, hvalue, hmem⟩ := updateBillTotal_fresh (C := userSumBill2s)
    (b := sumBill K r_discount m_cycleId (v.natAbs * K.m_divisor)) h
    (fun b hb hkey => hnew b hb (key_eq_iff.mp hkey).1 (key_eq_iff.mp hkey).2)
    (userSumBill2s_shown _)
  refine ⟨hasc, hvalue, fun b => (hmem b).trans ?_⟩
  have hzero : userSumBill2s.isZero (sumBill K r_discount m_cycleId (v.natAbs * K.m_divisor)) =
      false ↔ v ≠ 0 := decide_eq_false_iff_not.trans (not_congr stored_eq_zero_iff)
  rw [hzero]

/-- The accumulation of an adjustment up to the cycle `last`: the amount applied is the value of
that cycle, and nothing was stored while it is 0. -/
structure Tracks (K : Calc S) (r_discount : Discount) (st : AdjustState S) (last : Int) :
    Prop where
  ascending : Ascending userSumBill2s.key st.m_userSumBill2s_new
  nonneg : 0 ≤ st.applied
  upTo : ∀ b ∈ st.m_userSumBill2s_new, OfAdjust K r_discount b → b.m_cycleId ≤ last
  zero : st.applied = 0 → ∀ b ∈ st.m_userSumBill2s_new, ¬ OfAdjust K r_discount b
  latest : st.applied ≠ 0 →
    sumBill K r_discount last (st.applied * K.m_divisor) ∈ st.m_userSumBill2s_new

/-- A later cycle reads back the amount applied. -/
theorem Tracks.getAddupInfo (h : Tracks K r_discount st last)
    (hlatest : ReturnsLatest K.getLastSumBill2) (hcycle : last < m_cycleId) :
    AdjustBeforeCalc.getAddupInfo K r_discount st.m_userSumBill2s_new m_cycleId = st.applied := by
  rw [AdjustBeforeCalc.getAddupInfo]
  have hown : OfAdjust K r_discount (sumBill K r_discount last (st.applied * K.m_divisor)) :=
    ⟨rfl, rfl, rfl, rfl⟩
  cases hget : K.getLastSumBill2 st.m_userSumBill2s_new (sumBill K r_discount m_cycleId 0) with
  | none =>
      by_contra hne
      have happlied : st.applied ≠ 0 := fun h0 => hne h0.symm
      exact hlatest.none _ _ h.ascending hget _ (h.latest happlied)
        (earlier_iff.mpr ⟨hown, hcycle⟩)
  | some b =>
      obtain ⟨hb, hearlier, hmax⟩ := hlatest.some _ _ b h.ascending hget
      obtain ⟨hof, -⟩ := earlier_iff.mp hearlier
      have happlied : st.applied ≠ 0 := fun h0 => h.zero h0 b hb hof
      have hlast : last ≤ b.m_cycleId := hmax _ (h.latest happlied) (earlier_iff.mpr ⟨hown, hcycle⟩)
      have hkey : userSumBill2s.key b =
          userSumBill2s.key (sumBill K r_discount last (st.applied * K.m_divisor)) :=
        key_eq_iff.mpr ⟨hof, le_antisymm (h.upTo b hb hof) hlast⟩
      have hsame : some b = some (sumBill K r_discount last (st.applied * K.m_divisor)) := by
        rw [← h.ascending.mem_iff.mp hb, hkey, h.ascending.mem_iff.mp (h.latest happlied)]
      obtain rfl := Option.some.inj hsame
      exact Int.mul_tdiv_cancel st.applied K.divisor_pos.ne'

section Runs

variable {a : AdjustBefore} {m_adjustBeforeVector : List AdjustBefore}

omit [LinearOrder S] in
/-- A surcharge or refund always has an amount. -/
theorem getAdjustBeforeFee_isSome (used fee : Int)
    (hmode : a.m_effectMode = '0' ∨ a.m_effectMode = '5' ∨ a.m_effectMode = '1' ∨
      a.m_effectMode = '6') :
    ∃ effect total, getAdjustBeforeFee K a m_cycleId used fee = some (effect, total) := by
  by_cases hsurcharge : a.m_effectMode = '0' ∨ a.m_effectMode = '5'
  · exact ⟨_, _, if_pos hsurcharge⟩
  · have hrefund : a.m_effectMode = '1' ∨ a.m_effectMode = '6' := by tauto
    exact ⟨_, _, (if_neg hsurcharge).trans (if_pos hrefund)⟩

/-- **One cycle.**  From an accumulation that is right, the cycle leaves one that is right and
within the grant exactly when there is room for its amount. -/
theorem dealAdjust_spec (hlatest : ReturnsLatest K.getLastSumBill2)
    (hfind : (m_adjustBeforeVector.find? fun a => a.m_adjustInsId = r_discount.m_adjustInsId) =
      some a)
    (haddup : a.m_addupMode ≠ '0') (htype : a.m_effectValueType = '0')
    (hmode : a.m_effectMode = '0' ∨ a.m_effectMode = '5' ∨ a.m_effectMode = '1' ∨
      a.m_effectMode = '6')
    (h : Tracks K r_discount st last) (hgrant : st.applied ≤ a.m_effectValue)
    (hcycle : last < c.m_cycleId) (hfee : 0 ≤ c.r_nfee) :
    ∃ st', dealAdjust K m_adjustBeforeVector r_discount st c = some st' ∧
      (Granted K a.m_effectValue st' ↔ RoomFor K a c.m_cycleId
        (getAddupInfo K r_discount st.m_userSumBill2s_new c.m_cycleId) c.r_nfee) ∧
      (Granted K a.m_effectValue st' → Tracks K r_discount st' c.m_cycleId) := by
  have hused := h.getAddupInfo hlatest hcycle
  obtain ⟨effect, total, hadjust⟩ : ∃ effect total,
      getAdjustBeforeFee K a c.m_cycleId st.applied c.r_nfee = some (effect, total) :=
    getAdjustBeforeFee_isSome st.applied c.r_nfee hmode
  obtain ⟨-, hroom⟩ := roomFor_iff htype hmode h.nonneg hgrant hfee hadjust
  have hnew : ∀ b ∈ st.m_userSumBill2s_new, OfAdjust K r_discount b → b.m_cycleId ≠ c.m_cycleId :=
    fun b hb hof => ((h.upTo b hb hof).trans_lt hcycle).ne
  obtain ⟨hasc, hvalue, hmem⟩ := updateAddupInfo_spec h.ascending hnew total
  have hgranted : ∀ bills, Granted K a.m_effectValue
      (⟨bills, st.applied + effect.natAbs, total.natAbs * K.m_divisor⟩ : AdjustState S) ↔
        (total.natAbs : Int) = st.applied + effect.natAbs ∧
          st.applied + effect.natAbs ≤ a.m_effectValue := fun bills =>
    and_congr_left fun _ => Int.mul_eq_mul_right_iff K.divisor_pos.ne'
  refine ⟨⟨updateAddupInfo K r_discount st.m_userSumBill2s_new c.m_cycleId total,
    st.applied + effect.natAbs, total.natAbs * K.m_divisor⟩, ?_, ?_, fun hok => ?_⟩
  · rw [dealAdjust, hfind]
    simp only [if_pos haddup, hused, hadjust, hvalue]
  · rw [hused, hroom]
    exact hgranted _
  · have htotal := ((hgranted _).mp hok).1
    have hnonneg := h.nonneg
    refine ⟨hasc, by dsimp only; omega, fun b hb hof => ?_, fun hzero b hb hof => ?_, fun hne => ?_⟩
    · rcases (hmem b).mp hb with hb | ⟨-, rfl⟩
      · exact (h.upTo b hb hof).trans hcycle.le
      · exact le_refl _
    · dsimp only at hzero
      rcases (hmem b).mp hb with hb | ⟨hv, -⟩
      · exact h.zero (by omega) b hb hof
      · omega
    · dsimp only at hne ⊢
      refine (hmem _).mpr (Or.inr ⟨by omega, ?_⟩)
      rw [htotal]

/-- Along cycles of growing number the accumulation is right and within the grant after each of
them exactly when each finds room for its amount. -/
theorem granted_iff_of_tracks (hlatest : ReturnsLatest K.getLastSumBill2)
    (hfind : (m_adjustBeforeVector.find? fun a => a.m_adjustInsId = r_discount.m_adjustInsId) =
      some a)
    (haddup : a.m_addupMode ≠ '0') (htype : a.m_effectValueType = '0')
    (hmode : a.m_effectMode = '0' ∨ a.m_effectMode = '5' ∨ a.m_effectMode = '1' ∨
      a.m_effectMode = '6') {cycles : List Cycle}
    (h : Tracks K r_discount st last) (hgrant : st.applied ≤ a.m_effectValue)
    (hlast : ∀ c ∈ cycles, last < c.m_cycleId)
    (hcycles : cycles.Pairwise fun c c' => c.m_cycleId < c'.m_cycleId)
    (hfees : ∀ c ∈ cycles, 0 ≤ c.r_nfee) :
    Runs.Meets (dealAdjust K m_adjustBeforeVector r_discount)
        (fun st c => ∀ st', dealAdjust K m_adjustBeforeVector r_discount st c = some st' →
          Granted K a.m_effectValue st') st cycles ↔
      Runs.Meets (dealAdjust K m_adjustBeforeVector r_discount)
        (fun st c => RoomFor K a c.m_cycleId
          (getAddupInfo K r_discount st.m_userSumBill2s_new c.m_cycleId) c.r_nfee) st cycles := by
  induction cycles generalizing st last with
  | nil => exact Iff.rfl
  | cons c rest ih =>
      obtain ⟨hlt, hrest⟩ := List.pairwise_cons.mp hcycles
      obtain ⟨st', hstep, hiff, htracks⟩ := dealAdjust_spec hlatest hfind haddup htype hmode h
        hgrant (hlast c List.mem_cons_self) (hfees c List.mem_cons_self)
      rw [Runs.meets_cons_iff, Runs.meets_cons_iff, hstep]
      dsimp only
      have hpost : (∀ st'', some st' = some st'' → Granted K a.m_effectValue st'') ↔
          Granted K a.m_effectValue st' := ⟨fun hall => hall st' rfl, fun hok st'' heq =>
        Option.some.inj heq ▸ hok⟩
      rw [hpost, hiff]
      refine and_congr_right fun hroom => ?_
      have hok := hiff.mpr hroom
      exact ih (htracks hok) hok.2 hlt hrest fun c' hc' => hfees c' (List.mem_cons_of_mem c hc')

end Runs

omit [LinearOrder S] in
/-- A refund without catch-up and without a negative limit always has room. -/
theorem roomFor_of_refund {a : AdjustBefore} (used fee : Int)
    (hmode : a.m_effectMode = '1' ∨ a.m_effectMode = '6') (haddup : a.m_addupMode ≠ '2')
    (hlimit : 0 ≤ a.m_limitFee) : RoomFor K a m_cycleId used fee := by
  have hrefund : ¬ (a.m_effectMode = '0' ∨ a.m_effectMode = '5') := by
    rcases hmode with h | h <;> simp [h]
  rw [RoomFor, if_neg hrefund, if_neg fun h => haddup h.1]
  exact Or.inl hlimit

/-! ## A surcharge over two cycles -/

/-- Keep the later one of two accumulations like `r_bill`. -/
def laterBill (r_bill : UserSumBill2 Int) (best : Option (UserSumBill2 Int))
    (b : UserSumBill2 Int) : Option (UserSumBill2 Int) :=
  if b.m_userId = r_bill.m_userId ∧ b.m_tpObjId = r_bill.m_tpObjId ∧
      b.m_beginTime = r_bill.m_beginTime ∧ b.m_billId = r_bill.m_billId ∧
      b.m_cycleId < r_bill.m_cycleId then
    match best with
    | none => some b
    | some a => if a.m_cycleId < b.m_cycleId then some b else some a
  else best

/-- The accumulation of the latest earlier cycle. -/
def lastSumBill2 (l : List (UserSumBill2 Int)) (r_bill : UserSumBill2 Int) :
    Option (UserSumBill2 Int) :=
  l.foldl (laterBill r_bill) none

theorem lastSumBill2_spec (l : List (UserSumBill2 Int)) (r : UserSumBill2 Int) :
    match lastSumBill2 l r with
    | none => ∀ b ∈ l, ¬ Earlier r b
    | some b => b ∈ l ∧ Earlier r b ∧ ∀ b' ∈ l, Earlier r b' → b'.m_cycleId ≤ b.m_cycleId := by
  induction l using List.reverseRecOn with
  | nil => simp [lastSumBill2]
  | append_singleton l b ih =>
      have hstep : lastSumBill2 (l ++ [b]) r = laterBill r (lastSumBill2 l r) b := by
        simp [lastSumBill2]
      rw [hstep]
      by_cases hb : Earlier r b
      · have hlater : laterBill r (lastSumBill2 l r) b =
            match lastSumBill2 l r with
            | none => some b
            | some a => if a.m_cycleId < b.m_cycleId then some b else some a := if_pos hb
        rw [hlater]
        cases hbest : lastSumBill2 l r with
        | none =>
            rw [hbest] at ih
            refine ⟨by simp, hb, fun b' hb' hearlier => ?_⟩
            rcases List.mem_append.mp hb' with hb' | hb'
            · exact absurd hearlier (ih b' hb')
            · exact (List.mem_singleton.mp hb' ▸ le_refl _)
        | some a =>
            rw [hbest] at ih
            obtain ⟨ha, haearlier, hmax⟩ := ih
            by_cases hlt : a.m_cycleId < b.m_cycleId
            · simp only [if_pos hlt]
              refine ⟨by simp, hb, fun b' hb' hearlier => ?_⟩
              rcases List.mem_append.mp hb' with hb' | hb'
              · exact (hmax b' hb' hearlier).trans hlt.le
              · exact (List.mem_singleton.mp hb' ▸ le_refl _)
            · simp only [if_neg hlt]
              refine ⟨by simp [ha], haearlier, fun b' hb' hearlier => ?_⟩
              rcases List.mem_append.mp hb' with hb' | hb'
              · exact hmax b' hb' hearlier
              · exact List.mem_singleton.mp hb' ▸ not_lt.mp hlt
      · have hsame : laterBill r (lastSumBill2 l r) b = lastSumBill2 l r := if_neg hb
        rw [hsame]
        cases hbest : lastSumBill2 l r with
        | none =>
            rw [hbest] at ih
            intro b' hb'
            rcases List.mem_append.mp hb' with hb' | hb'
            · exact ih b' hb'
            · exact List.mem_singleton.mp hb' ▸ hb
        | some a =>
            rw [hbest] at ih
            obtain ⟨ha, haearlier, hmax⟩ := ih
            refine ⟨by simp [ha], haearlier, fun b' hb' hearlier => ?_⟩
            rcases List.mem_append.mp hb' with hb' | hb'
            · exact hmax b' hb' hearlier
            · exact absurd (List.mem_singleton.mp hb' ▸ hearlier) hb

theorem returnsLatest_lastSumBill2 : ReturnsLatest lastSumBill2 where
  some := fun l r b _ hget => by
    have h := lastSumBill2_spec l r
    rwa [hget] at h
  none := fun l r _ hget => by
    have h := lastSumBill2_spec l r
    rwa [hget] at h

/-- An office that divides bills by ten. -/
def office : Calc Int :=
  ⟨1, 10, by decide, false, fun remain fee => remain * fee / 100, lastSumBill2⟩

/-- A surcharge of 100, 30 in each cycle. -/
def surcharge : AdjustBefore := ⟨8, '0', '1', '0', 100, 201101, 30⟩

/-- A refund of 100, 30 in each cycle. -/
def refund : AdjustBefore := ⟨8, '1', '1', '0', 100, 201101, 30⟩

/-- The discount of instance 8. -/
def discount : Discount := ⟨8, 5, 20110101, 20991231⟩

end AdjustBeforeCalc
