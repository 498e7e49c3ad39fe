import Mathlib.Algebra.Order.Ring.Int
import Boss.RateGlobalInfo
import Boss.SegFeeInfo

/-!
# The two ledgers of a fee

`computeFee` adds up the fees of the segments of a fee field, rounds the sum to a multiple of
ten as the carry tag says, and rounds the sum of the last digits in the same way; the second
is kept as `m_lackvalue`.  `setDetailBill` books the rounded sum on the rating bill, and on the
accounting bills each segment cut to a multiple of ten, the last one with `m_lackvalue`.

Rounding does not see multiples of ten (`carry_add`), and the segments cut to multiples of ten
are what the sum is more than the last digits (`sum_cut`); so both ledgers show one amount
(`accounting_sum_eq_feeSum`).  How a segment comes to its fee does not matter for that: `Compute` is
any way to work it out.
-/

namespace SetDetailBill

open BillStruct Rate RateGlobalInfo SortedMap

/-- A fee field with its segments. -/
structure FeeInfo where
  m_unitCount : Int
  m_feeSum : Int
  m_freeTime : Int
  m_freeData : Int
  m_freeFee : Int
  m_limitFee : Int
  m_lackvalue : Int
  m_segInfoList : List SegFeeInfo
deriving DecidableEq, Repr

/-- `SegFeeInfo::compute` works out the fee of a segment from its tariff. -/
abbrev Compute := SegFeeInfo → SegFeeInfo

/-- Count one amount given away. -/
def FeeInfo.addBill (f : FeeInfo) (t : RateBillInfo) : FeeInfo :=
  match t.m_objType with
  | .DURATION => { f with m_freeTime := f.m_freeTime + t.m_billValue }
  | .TIMEFEE | .DATAFEE => { f with m_freeFee := f.m_freeFee + t.m_billValue }
  | .DATA => { f with m_freeData := f.m_freeData + t.m_billValue }
  | .FEELIMIT_T | .FEELIMIT_D => { f with m_limitFee := f.m_limitFee + t.m_billValue }
  | .FEE => f

/-- Count one computed segment. -/
def FeeInfo.addSeg (f : FeeInfo) (t : SegFeeInfo) : FeeInfo :=
  t.m_billInfoList.foldl FeeInfo.addBill
    { f with
      m_unitCount := f.m_unitCount + t.m_unitCount
      m_feeSum := f.m_feeSum + t.m_value
      m_lackvalue := f.m_lackvalue + t.m_value.tmod 10 }

/-- The rounding of an amount. -/
def carry (r_carryTag : Char) (m_fee : Int) : Int :=
  if r_carryTag = CARRY_TAG_DEL then m_fee - m_fee.tmod 10
  else if r_carryTag = CARRY_TAG_ADD then
    if m_fee.tmod 10 > 0 then m_fee + (10 - m_fee.tmod 10) else m_fee
  else if r_carryTag = CARRY_TAG_ROUND then
    if m_fee.tmod 10 > 4 then m_fee + (10 - m_fee.tmod 10) else m_fee - m_fee.tmod 10
  else m_fee

/-- `computeFee` -/
def computeFee (compute : Compute) (r_carryTag : Char) (f : FeeInfo) : FeeInfo :=
  let segs := f.m_segInfoList.map compute
  let sums := segs.foldl FeeInfo.addSeg ⟨0, 0, 0, 0, 0, 0, 0, segs⟩
  { sums with
    m_feeSum := carry r_carryTag sums.m_feeSum
    m_lackvalue := carry r_carryTag sums.m_lackvalue }

/-- A segment cut to a multiple of ten. -/
def cut (t : SegFeeInfo) : Int := t.m_value - t.m_value.tmod 10

/-- The bills of the segments that are entered in the accounting ledger, the last one with
`m_lackvalue`.  Where the bill of a segment is not found the loop fails, with the bills so far
entered. -/
def acctBills {S : Type*} (getAcctDetailBill : SegFeeInfo → Option Int) (m_billUserId : S)
    (m_lackvalue : Int) : List SegFeeInfo → List (UserBill S) × Bool
  | [] => ([], true)
  | t_segFeeInfo :: rest =>
      match getAcctDetailBill t_segFeeInfo with
      | none => ([], false)
      | some t_billId =>
          let t_value := if rest = [] then cut t_segFeeInfo + m_lackvalue else cut t_segFeeInfo
          let more := acctBills getAcctDetailBill m_billUserId m_lackvalue rest
          (⟨m_billUserId, t_billId, t_value, t_value, 0⟩ :: more.1, more.2)

/-- What `setDetailBill` enters for a fee field, and whether it succeeds. -/
structure DetailBills (S : Type*) where
  rating : List (UserBill S)
  accounting : List (UserBill S)
  ok : Bool

/-- The rating bill and then the bills of the segments; none for a fee of 0. -/
def detailBills {S : Type*} (getAcctDetailBill : SegFeeInfo → Option Int) (m_billUserId : S)
    (m_billId : Int) (t_feeInfo : FeeInfo) : DetailBills S :=
  if t_feeInfo.m_feeSum ≠ 0 then
    let bills := acctBills getAcctDetailBill m_billUserId t_feeInfo.m_lackvalue
      t_feeInfo.m_segInfoList
    ⟨[⟨m_billUserId, m_billId, t_feeInfo.m_feeSum, t_feeInfo.m_feeSum, 0⟩], bills.1, bills.2⟩
  else ⟨[], [], true⟩

/-- `setDetailBill` for one fee field: the user bills after it, and whether it succeeds. -/
def setDetailBill {S : Type*} [LinearOrder S] (getAcctDetailBill : SegFeeInfo → Option Int)
    (m_billUserId : S) (m_billId : Int) (t_feeInfo : FeeInfo)
    (m_userBills_new : List (UserBill S)) : List (UserBill S) × Bool :=
  let bills := detailBills getAcctDetailBill m_billUserId m_billId t_feeInfo
  ((bills.rating ++ bills.accounting).foldl (updateBillIncre userBills) m_userBills_new, bills.ok)

/-! ## Rounding -/

theorem carry_zero (r_carryTag : Char) : carry r_carryTag 0 = 0 := by
  simp [carry]

/-- **Rounding does not see multiples of ten.** -/
theorem carry_add (r_carryTag : Char) {tens rest : Int} (htens : 0 ≤ tens) (hrest : 0 ≤ rest) :
    carry r_carryTag (10 * tens + rest) = 10 * tens + carry r_carryTag rest := by
  have hdigit : (10 * tens + rest).tmod 10 = rest.tmod 10 := by
    rw [Int.tmod_eq_emod_of_nonneg (by omega), Int.tmod_eq_emod_of_nonneg hrest]
    omega
  simp only [carry, hdigit]
  split
  · omega
  · split
    · split <;> omega
    · split
      · split <;> omega
      · rfl

/-- The sum of the fees is ten times something and the sum of the last digits. -/
theorem sum_cut {segs : List SegFeeInfo} (h : ∀ t ∈ segs, 0 ≤ t.m_value) :
    ∃ tens : Int, 0 ≤ tens ∧ (segs.map cut).sum = 10 * tens ∧
      0 ≤ (segs.map fun t => t.m_value.tmod 10).sum ∧
      (segs.map SegFeeInfo.m_value).sum =
        10 * tens + (segs.map fun t => t.m_value.tmod 10).sum := by
  induction segs with
  | nil => exact ⟨0, by simp⟩
  | cons t segs ih =>
      obtain ⟨tens, htens, hcut, hdigits, hsum⟩ :=
        ih fun t' ht' => h t' (List.mem_cons_of_mem t ht')
      have hvalue : 0 ≤ t.m_value := h t List.mem_cons_self
      have hmod : t.m_value.tmod 10 = t.m_value % 10 := Int.tmod_eq_emod_of_nonneg hvalue
      refine ⟨tens + t.m_value / 10, by omega, ?_, ?_, ?_⟩
      · rw [List.map_cons, List.sum_cons, hcut, cut, hmod]
        omega
      · rw [List.map_cons, List.sum_cons, hmod]
        omega
      · rw [List.map_cons, List.sum_cons, List.map_cons, List.sum_cons, hsum, hmod]
        omega

/-! ## The sums of `computeFee` -/

theorem foldl_addBill (f : FeeInfo) (bills : List RateBillInfo) :
    (bills.foldl FeeInfo.addBill f).m_feeSum = f.m_feeSum ∧
      (bills.foldl FeeInfo.addBill f).m_lackvalue = f.m_lackvalue ∧
      (bills.foldl FeeInfo.addBill f).m_segInfoList = f.m_segInfoList := by
  induction bills generalizing f with
  | nil => exact ⟨rfl, rfl, rfl⟩
  | cons t bills ih =>
      have hone : (f.addBill t).m_feeSum = f.m_feeSum ∧ (f.addBill t).m_lackvalue = f.m_lackvalue ∧
          (f.addBill t).m_segInfoList = f.m_segInfoList := by
        rw [FeeInfo.addBill]
        cases t.m_objType <;> exact ⟨rfl, rfl, rfl⟩
      obtain ⟨hsum, hlack, hsegs⟩ := ih (f.addBill t)
      exact ⟨hsum.trans hone.1, hlack.trans hone.2.1, hsegs.trans hone.2.2⟩

theorem foldl_addSeg (f : FeeInfo) (segs : List SegFeeInfo) :
    (segs.foldl FeeInfo.addSeg f).m_feeSum =
        f.m_feeSum + (segs.map SegFeeInfo.m_value).sum ∧
      (segs.foldl FeeInfo.addSeg f).m_lackvalue =
        f.m_lackvalue + (segs.map fun t => t.m_value.tmod 10).sum ∧
      (segs.foldl FeeInfo.addSeg f).m_segInfoList = f.m_segInfoList := by
  induction segs generalizing f with
  | nil => simp
  | cons t segs ih =>
      obtain ⟨hsum, hlack, hsegs⟩ := ih (f.addSeg t)
      obtain ⟨hsum', hlack', hsegs'⟩ := foldl_addBill
        { f with
          m_unitCount := f.m_unitCount + t.m_unitCount
          m_feeSum := f.m_feeSum + t.m_value
          m_lackvalue := f.m_lackvalue + t.m_value.tmod 10 } t.m_billInfoList
      refine ⟨?_, ?_, hsegs.trans hsegs'⟩
      · rw [List.foldl_cons, hsum, FeeInfo.addSeg, hsum', List.map_cons, List.sum_cons, add_assoc]
      · rw [List.foldl_cons, hlack, FeeInfo.addSeg, hlack', List.map_cons, List.sum_cons, add_assoc]

theorem computeFee_spec (compute : Compute) (r_carryTag : Char) (f : FeeInfo) :
    (computeFee compute r_carryTag f).m_segInfoList = f.m_segInfoList.map compute ∧
    (computeFee compute r_carryTag f).m_feeSum =
      carry r_carryTag ((f.m_segInfoList.map compute).map SegFeeInfo.m_value).sum ∧
    (computeFee compute r_carryTag f).m_lackvalue =
      carry r_carryTag ((f.m_segInfoList.map compute).map fun t => t.m_value.tmod 10).sum := by
  obtain ⟨hsum, hlack, hsegs⟩ := foldl_addSeg ⟨0, 0, 0, 0, 0, 0, 0, f.m_segInfoList.map compute⟩
    (f.m_segInfoList.map compute)
  refine ⟨hsegs, ?_, ?_⟩
  · rw [computeFee]
    dsimp only
    rw [hsum, zero_add]
  · rw [computeFee]
    dsimp only
    rw [hlack, zero_add]

/-! ## Both ledgers -/

variable {S : Type*} {getAcctDetailBill : SegFeeInfo → Option Int} {u : S}

/-- The bills of the segments add up to the cut segments and `m_lackvalue`. -/
theorem acctBills_sum {lack : Int} {segs : List SegFeeInfo} (hsegs : segs ≠ [])
    (hok : (acctBills getAcctDetailBill u lack segs).2 = true) :
    ((acctBills getAcctDetailBill u lack segs).1.map UserBill.m_value).sum =
        (segs.map cut).sum + lack ∧
      ∀ b ∈ (acctBills getAcctDetailBill u lack segs).1,
        b.m_userId = u ∧ b.m_discntValue = b.m_value := by
  induction segs with
  | nil => exact absurd rfl hsegs
  | cons t rest ih =>
      rw [acctBills] at hok ⊢
      cases hbill : getAcctDetailBill t with
      | none => simp [hbill] at hok
      | some billId =>
          rw [hbill] at hok
          dsimp only at hok ⊢
          by_cases hrest : rest = []
          · subst hrest
            simp [acctBills]
          · obtain ⟨hsum, hall⟩ := ih hrest hok
            refine ⟨?_, fun b hb => ?_⟩
            · rw [List.map_cons, List.sum_cons, hsum, List.map_cons, List.sum_cons, add_assoc]
              dsimp only
              rw [if_neg hrest]
            · rcases List.mem_cons.mp hb with rfl | hb
              · exact ⟨rfl, rfl⟩
              · exact hall b hb

/-- Where the fee sum is what the cut segments and `m_lackvalue` add up to, both ledgers are
booked with it. -/
theorem detailBills_sum {m_billId : Int} {fee : FeeInfo}
    (hfee : fee.m_feeSum = (fee.m_segInfoList.map cut).sum + fee.m_lackvalue)
    (hempty : fee.m_segInfoList = [] → fee.m_feeSum = 0)
    (hok : (detailBills getAcctDetailBill u m_billId fee).ok = true) :
    ((detailBills getAcctDetailBill u m_billId fee).rating.map UserBill.m_value).sum =
        fee.m_feeSum ∧
      ((detailBills getAcctDetailBill u m_billId fee).accounting.map UserBill.m_value).sum =
        fee.m_feeSum ∧
      ∀ b ∈ (detailBills getAcctDetailBill u m_billId fee).accounting,
        b.m_discntValue = b.m_value := by
  rw [detailBills] at hok ⊢
  by_cases hzero : fee.m_feeSum = 0
  · simp [hzero]
  · rw [if_pos hzero] at hok ⊢
    obtain ⟨hsum, hall⟩ := acctBills_sum (fun hnil => hzero (hempty hnil)) hok
    exact ⟨by simp, hsum.trans hfee.symm, fun b hb => (hall b hb).2⟩

/-- **Two ledgers agree.**  For segments whose fees are not negative and any carry tag, what
`setDetailBill` books on the accounting bills adds up to the fee sum, the amount it books on the
rating bill; and each user bill gets what was booked on it. -/
theorem accounting_sum_eq_feeSum [LinearOrder S] (compute : Compute) (r_carryTag : Char)
    (f : FeeInfo) (getAcctDetailBill : SegFeeInfo → Option Int) (u : S) (m_billId : Int)
    (bills : List (UserBill S)) (hbills : Ascending userFees.key bills)
    (hfees : ∀ t ∈ f.m_segInfoList, 0 ≤ (compute t).m_value)
    (hok : (setDetailBill getAcctDetailBill u m_billId (computeFee compute r_carryTag f)
      bills).2 = true) :
    let fee := computeFee compute r_carryTag f
    let booked := detailBills getAcctDetailBill u m_billId fee
    (booked.accounting.map UserBill.m_value).sum = fee.m_feeSum ∧
    (booked.accounting.map UserBill.m_discntValue).sum = fee.m_feeSum ∧
    (booked.rating.map UserBill.m_value).sum = fee.m_feeSum ∧
    ∀ k, valueAt userFees (setDetailBill getAcctDetailBill u m_billId fee bills).1 k =
      valueAt userFees bills k + (valuesOf userFees k booked.rating).sum +
        (valuesOf userFees k booked.accounting).sum := by
  obtain ⟨hsegs, hsum, hlack⟩ := computeFee_spec compute r_carryTag f
  have hnonneg : ∀ t ∈ f.m_segInfoList.map compute, 0 ≤ t.m_value := fun t ht => by
    obtain ⟨t', ht', rfl⟩ := List.mem_map.mp ht
    exact hfees t' ht'
  obtain ⟨tens, htens, hcut, hdigits, htotal⟩ := sum_cut hnonneg
  have hfee : (computeFee compute r_carryTag f).m_feeSum =
      ((computeFee compute r_carryTag f).m_segInfoList.map cut).sum +
        (computeFee compute r_carryTag f).m_lackvalue := by
    rw [hsegs, hsum, hlack, htotal, hcut, carry_add r_carryTag htens hdigits]
  have hempty : (computeFee compute r_carryTag f).m_segInfoList = [] →
      (computeFee compute r_carryTag f).m_feeSum = 0 := by
    intro hnil
    rw [hsum, ← hsegs, hnil, List.map_nil, List.sum_nil, carry_zero]
  obtain ⟨hrating, haccounting, hdiscnt⟩ := detailBills_sum hfee hempty hok
  refine ⟨haccounting, ?_, hrating, fun k => ?_⟩
  · rw [List.map_congr_left hdiscnt]
    exact haccounting
  · have hbooked := (foldl_updateBillIncre_spec hbills
      ((detailBills getAcctDetailBill u m_billId (computeFee compute r_carryTag f)).rating ++
        (detailBills getAcctDetailBill u m_billId (computeFee compute r_carryTag f)).accounting)
      fun b _ => userFees_shown b).2 k
    refine hbooked.trans ?_
    simp only [valuesOf, List.filter_append, List.map_append, List.sum_append, add_assoc]

/-- A minute for a fee. -/
def minute (m_unitFee : Int) : SegFeeInfo :=
  SegFeeInfo.ofTime 0 60 m_unitFee ⟨20260105, 80000⟩ ⟨20260105, 80100⟩ 0 60

/-- The fee by the tariff; a segment without a unit keeps what it has. -/
def byTariff : Compute := fun t => (t.compute plainEnv).getD t

/-- Three minutes for 14, 25 and 7, rounded. -/
theorem accounting_sum_eq_feeSum_rounded :
    let f : FeeInfo := ⟨0, 0, 0, 0, 0, 0, 0, [minute 14, minute 25, minute 7]⟩
    (computeFee byTariff CARRY_TAG_ROUND f).m_feeSum = 50 ∧
      ((detailBills (S := Int) (fun _ => some 90) 1 20
        (computeFee byTariff CARRY_TAG_ROUND f)).accounting.map UserBill.m_value).sum =
          (computeFee byTariff CARRY_TAG_ROUND f).m_feeSum :=
  ⟨by decide, (accounting_sum_eq_feeSum byTariff CARRY_TAG_ROUND _ (fun _ => some 90) 1 20 []
    ascending_nil (by decide) (by decide)).1⟩

end SetDetailBill
