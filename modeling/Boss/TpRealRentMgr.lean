import Mathlib.Tactic.Abel
import Boss.RateGlobalInfo

/-!
# Deduction of real rents

A tariff whose rent is deducted as it is used gives up, call by call, the amount it saved:
`getTpRentInfos` sorts the saved amounts of all fee fields and segments of a call by tariff
instance, merges the neighbours of one instance and hands each sum to `computeTpRent`, which
cuts it to what is still missing from the rent.  The accumulated value it cuts against is
updated only when the whole call is booked.

The merge leaves one amount for an instance, because the list is sorted (`tpRentLoop_spec`);
so a call deducts once for it, against a value that is up to date.
-/

namespace TpRealRentMgr

open BillStruct RateGlobalInfo SortedMap

/-- `TP_TYPE_VPN` -/
def TP_TYPE_VPN : String := "2"

/-- `ROLECODE_SELF` -/
def ROLECODE_SELF : String := "0"

/-- What the deduction reads of a tariff, `getRentValue` for the dates of the call. -/
structure RateTpInfo where
  m_subTpType : String
  m_rateRoleCode : String
  m_realRentFlag : Bool
  m_sumBillId : Int
  m_rentBillId : Int
  getRentValue : Int

/-- An amount that a tariff instance saved. -/
structure TpFreeValue where
  m_tpObjId : Int
  m_value : Int
  m_pTpInfo : RateTpInfo

variable {S : Type*} [LinearOrder S]

/-- What is deducted for an amount saved: the accumulation and the rent bill, both as
increments. -/
def computeTpRent (m_billUserId : S) (m_userSumBill1s_new : List (UserSumBill1 S))
    (r_rentInfo : TpFreeValue) : Option (UserSumBill1 S × UserBill S) :=
  let t_tpInfo := r_rentInfo.m_pTpInfo
  let t_userSumBill1 : UserSumBill1 S :=
    ⟨m_billUserId, r_rentInfo.m_tpObjId, t_tpInfo.m_sumBillId, 0, 0, 0⟩
  let t_rentValueOld : Int :=
    match getBillItem userSumBill1s m_userSumBill1s_new t_userSumBill1 with
    | some t_pSumBill1 => t_pSumBill1.m_value
    | none => 0
  let t_value : Int :=
    if r_rentInfo.m_value + t_rentValueOld > t_tpInfo.getRentValue then
      t_tpInfo.getRentValue - t_rentValueOld
    else r_rentInfo.m_value
  if r_rentInfo.m_value ≤ 0 then none
  else if t_tpInfo.m_subTpType = TP_TYPE_VPN ∧ t_tpInfo.m_rateRoleCode = ROLECODE_SELF then none
  else if t_tpInfo.m_realRentFlag = false then none
  else if t_tpInfo.getRentValue ≤ 0 then none
  else if t_rentValueOld ≥ t_tpInfo.getRentValue then none
  else some ({ t_userSumBill1 with m_value := t_value },
    ⟨m_billUserId, t_tpInfo.m_rentBillId, t_value, t_value, 0⟩)

/-- The loop over the sorted amounts: equal neighbours are added up, and a finished sum is
handed on. -/
def tpRentLoop {ρ : Type*} (compute : TpFreeValue → Option ρ) (t_tpFreeValue : TpFreeValue) :
    List TpFreeValue → List ρ
  | [] => (compute t_tpFreeValue).toList
  | v :: rest =>
      if t_tpFreeValue.m_tpObjId = v.m_tpObjId then
        tpRentLoop compute
          { t_tpFreeValue with m_value := t_tpFreeValue.m_value + v.m_value } rest
      else (compute t_tpFreeValue).toList ++ tpRentLoop compute v rest

/-- A rated call.  `m_freeValues` are the amounts its rating track gives and `sorted` is what
`::sort` makes of them; amounts of one instance may come in any order.  `booked` says whether
`setDetailBill` gets as far as the rents, and the other bills are what it books besides. -/
structure RatedCall (S : Type*) where
  m_cdrCycleOrg : Int
  m_cycleDate : Int
  m_freeValues : List TpFreeValue
  sorted : List TpFreeValue
  sorted_perm : sorted.Perm m_freeValues
  sorted_le : sorted.Pairwise fun a b => a.m_tpObjId ≤ b.m_tpObjId
  booked : Bool
  feeBills : List (UserBill S)
  sendBills : List (UserSumBill1 S)

/-- What a call deducts; a call of an earlier cycle deducts nothing. -/
def getTpRentInfos (m_billUserId : S) (m_userSumBill1s_new : List (UserSumBill1 S))
    (c : RatedCall S) : List (UserSumBill1 S × UserBill S) :=
  if c.m_cdrCycleOrg < c.m_cycleDate then []
  else
    match c.sorted with
    | [] => []
    | v :: rest => tpRentLoop (computeTpRent m_billUserId m_userSumBill1s_new) v rest

/-- The bill lists that a call works on. -/
structure Bills (S : Type*) where
  m_userSumBill1s_new : List (UserSumBill1 S)
  m_userBills_new : List (UserBill S)

/-- The rents that a call books. -/
def bookedRents (m_billUserId : S) (st : Bills S) (c : RatedCall S) :
    List (UserSumBill1 S × UserBill S) :=
  if c.booked then getTpRentInfos m_billUserId st.m_userSumBill1s_new c else []

/-- `setDetailBill`: the fees and accumulations of the call, and then its rents.  The
accumulations have their own bills. -/
def setDetailBill (m_billUserId : S) (st : Bills S) (c : RatedCall S) : Bills S where
  m_userSumBill1s_new :=
    ((bookedRents m_billUserId st c).map Prod.fst).foldl (updateBillIncre userSumBill1s)
      (c.sendBills.foldl (updateBillIncre userSumBill1s) st.m_userSumBill1s_new)
  m_userBills_new :=
    ((bookedRents m_billUserId st c).map Prod.snd).foldl (updateBillIncre userBills)
      (c.feeBills.foldl (updateBillIncre userBills) st.m_userBills_new)

/-- The bill lists after a sequence of calls. -/
def rateCalls (m_billUserId : S) (st : Bills S) (calls : List (RatedCall S)) : Bills S :=
  calls.foldl (setDetailBill m_billUserId) st

/-- All rents that a sequence of calls books, in order. -/
def deductions (m_billUserId : S) : Bills S → List (RatedCall S) →
    List (UserSumBill1 S × UserBill S)
  | _, [] => []
  | st, c :: rest =>
      bookedRents m_billUserId st c ++
        deductions m_billUserId (setDetailBill m_billUserId st c) rest

/-- The accumulation of a tariff instance. -/
def sumKey (m_billUserId : S) (m_tpObjId m_sumBillId : Int) : S ×ₗ Int ×ₗ Int :=
  toLex (m_billUserId, toLex (m_tpObjId, m_sumBillId))

variable {u : S} {st : Bills S} {c : RatedCall S} {calls : List (RatedCall S)}
  {sums : List (UserSumBill1 S)} {r : TpFreeValue} {d : UserSumBill1 S × UserBill S}

/-! ## One deduction -/

/-- What a deduction is: a positive amount, on the accumulation and on the rent bill alike, that
the accumulated value and the rent leave room for. -/
structure Deducts (u : S) (sums : List (UserSumBill1 S)) (r : TpFreeValue)
    (d : UserSumBill1 S × UserBill S) : Prop where
  key : d.1.key = sumKey u r.m_tpObjId r.m_pTpInfo.m_sumBillId
  bill : d.2 = ⟨u, r.m_pTpInfo.m_rentBillId, d.1.m_value, d.1.m_value, 0⟩
  pos : 0 < d.1.m_value
  le : valueAt userSumBill1s sums d.1.key + d.1.m_value ≤ r.m_pTpInfo.getRentValue

theorem computeTpRent_spec (h : Ascending userSumBill1s.key sums)
    (hd : computeTpRent u sums r = some d) : Deducts u sums r d := by
  have hold : (match getBillItem userSumBill1s sums
        (⟨u, r.m_tpObjId, r.m_pTpInfo.m_sumBillId, 0, 0, 0⟩ : UserSumBill1 S) with
      | some b => b.m_value
      | none => 0) = valueAt userSumBill1s sums (sumKey u r.m_tpObjId r.m_pTpInfo.m_sumBillId) := by
    rw [getBillItem_eq h, valueAt]
    show _ = ((lookup userSumBill1s.key sums (userSumBill1s.key
      (⟨u, r.m_tpObjId, r.m_pTpInfo.m_sumBillId, 0, 0, 0⟩ : UserSumBill1 S))).map _).getD 0
    cases lookup userSumBill1s.key sums (userSumBill1s.key
      (⟨u, r.m_tpObjId, r.m_pTpInfo.m_sumBillId, 0, 0, 0⟩ : UserSumBill1 S)) <;> rfl
  dsimp only [computeTpRent] at hd
  rw [hold] at hd
  by_cases hvalue : r.m_value ≤ 0
  · simp [hvalue] at hd
  by_cases hvpn : r.m_pTpInfo.m_subTpType = TP_TYPE_VPN ∧
      r.m_pTpInfo.m_rateRoleCode = ROLECODE_SELF
  · simp [hvalue, hvpn] at hd
  by_cases hflag : r.m_pTpInfo.m_realRentFlag = false
  · simp [hvalue, hvpn, hflag] at hd
  by_cases hrent : r.m_pTpInfo.getRentValue ≤ 0
  · simp [hvalue, hvpn, hflag, hrent] at hd
  by_cases hfull : valueAt userSumBill1s sums
      (sumKey u r.m_tpObjId r.m_pTpInfo.m_sumBillId) ≥ r.m_pTpInfo.getRentValue
  · simp [hvalue, hvpn, hflag, hrent, hfull] at hd
  rw [if_neg hvalue, if_neg hvpn, if_neg hflag, if_neg hrent, if_neg hfull,
    Option.some.injEq] at hd
  subst hd
  have hle : valueAt userSumBill1s sums (sumKey u r.m_tpObjId r.m_pTpInfo.m_sumBillId) <
      r.m_pTpInfo.getRentValue := by omega
  refine ⟨rfl, rfl, ?_, ?_⟩
  · show 0 < ite _ _ _
    split <;> omega
  · show valueAt userSumBill1s sums (sumKey u r.m_tpObjId r.m_pTpInfo.m_sumBillId) + ite _ _ _ ≤ _
    split <;> omega

/-! ## One call -/

/-- **The merge.**  Over a sorted list the loop hands on sums of different instances, each with
the tariff of an amount of that instance. -/
theorem tpRentLoop_spec {ρ : Type*} (compute : TpFreeValue → Option ρ) (t : TpFreeValue)
    (l : List TpFreeValue) (h : (t :: l).Pairwise fun a b => a.m_tpObjId ≤ b.m_tpObjId) :
    ∃ sums : List TpFreeValue, tpRentLoop compute t l = sums.filterMap compute ∧
      sums.Pairwise (fun a b => a.m_tpObjId < b.m_tpObjId) ∧
      ∀ a ∈ sums, ∃ v ∈ t :: l, a.m_tpObjId = v.m_tpObjId ∧ a.m_pTpInfo = v.m_pTpInfo := by
  induction l generalizing t with
  | nil =>
      refine ⟨[t], ?_, List.pairwise_singleton _ _, fun a ha => ⟨a, ha, rfl, rfl⟩⟩
      cases hcompute : compute t <;> simp [tpRentLoop, hcompute]
  | cons v rest ih =>
      obtain ⟨ht, hrest⟩ := List.pairwise_cons.mp h
      obtain ⟨hv, htail⟩ := List.pairwise_cons.mp hrest
      rw [tpRentLoop]
      by_cases hsame : t.m_tpObjId = v.m_tpObjId
      · rw [if_pos hsame]
        obtain ⟨sums, hloop, hlt, hfrom⟩ := ih { t with m_value := t.m_value + v.m_value }
          (List.pairwise_cons.mpr ⟨fun a ha => ht a (List.mem_cons_of_mem v ha), htail⟩)
        refine ⟨sums, hloop, hlt, fun a ha => ?_⟩
        obtain ⟨w, hw, hid, hinfo⟩ := hfrom a ha
        rcases List.mem_cons.mp hw with rfl | hw
        · exact ⟨t, List.mem_cons_self, hid, hinfo⟩
        · exact ⟨w, by simp [hw], hid, hinfo⟩
      · rw [if_neg hsame]
        obtain ⟨sums, hloop, hlt, hfrom⟩ := ih v hrest
        have hfirst : ∀ a ∈ sums, t.m_tpObjId < a.m_tpObjId := by
          intro a ha
          obtain ⟨w, hw, hid, -⟩ := hfrom a ha
          have htv : t.m_tpObjId < v.m_tpObjId :=
            lt_of_le_of_ne (ht v List.mem_cons_self) hsame
          rcases List.mem_cons.mp hw with rfl | hw
          · omega
          · have := hv w hw
            omega
        refine ⟨t :: sums, ?_, List.pairwise_cons.mpr ⟨hfirst, hlt⟩, fun a ha => ?_⟩
        · cases hcompute : compute t <;> simp [hcompute, hloop]
        · rcases List.mem_cons.mp ha with rfl | ha
          · exact ⟨a, List.mem_cons_self, rfl, rfl⟩
          · obtain ⟨w, hw, hid, hinfo⟩ := hfrom a ha
            exact ⟨w, List.mem_cons_of_mem t hw, hid, hinfo⟩

/-- The rents of a call: each is a deduction for an amount of the call, and no two of them are
for the same instance. -/
theorem bookedRents_spec (h : Ascending userSumBill1s.key st.m_userSumBill1s_new) :
    (∀ d ∈ bookedRents u st c, ∃ r, (∃ v ∈ c.m_freeValues, r.m_tpObjId = v.m_tpObjId ∧
        r.m_pTpInfo = v.m_pTpInfo) ∧ Deducts u st.m_userSumBill1s_new r d) ∧
      ((bookedRents u st c).map Prod.fst).Pairwise
        fun a b => userSumBill1s.key a ≠ userSumBill1s.key b := by
  rw [bookedRents]
  by_cases hbooked : c.booked = true
  swap
  · simp [hbooked]
  rw [if_pos hbooked, getTpRentInfos]
  by_cases hcycle : c.m_cdrCycleOrg < c.m_cycleDate
  · simp [hcycle]
  rw [if_neg hcycle]
  cases hsorted : c.sorted with
  | nil => simp
  | cons v rest =>
      obtain ⟨amounts, hloop, hlt, hfrom⟩ :=
        tpRentLoop_spec (computeTpRent u st.m_userSumBill1s_new) v rest (hsorted ▸ c.sorted_le)
      dsimp only
      rw [hloop]
      refine ⟨fun d hd => ?_, ?_⟩
      · obtain ⟨r, hr, hcompute⟩ := List.mem_filterMap.mp hd
        obtain ⟨w, hw, hid, hinfo⟩ := hfrom r hr
        exact ⟨r, ⟨w, c.sorted_perm.subset (hsorted ▸ hw), hid, hinfo⟩,
          computeTpRent_spec h hcompute⟩
      · rw [List.pairwise_map, List.pairwise_filterMap]
        refine hlt.imp fun {a b} hab d hd d' hd' heq => ?_
        have hkeys := ((computeTpRent_spec h hd).key.symm.trans heq).trans
          (computeTpRent_spec h hd').key
        simp [sumKey] at hkeys
        omega

/-- The amounts deducted on one accumulation. -/
def deducted (k : S ×ₗ Int ×ₗ Int) (log : List (UserSumBill1 S × UserBill S)) : Int :=
  (valuesOf userSumBill1s k (log.map Prod.fst)).sum

/-- The amounts booked on rent bills along with one accumulation. -/
def rentBooked (k : S ×ₗ Int ×ₗ Int) (log : List (UserSumBill1 S × UserBill S)) : Int :=
  ((log.filter fun d => decide (d.1.key = k)).map fun d => d.2.m_value).sum

/-- What a call does to an accumulation that only rents are booked on. -/
theorem setDetailBill_sums (h : Ascending userSumBill1s.key st.m_userSumBill1s_new)
    {k : S ×ₗ Int ×ₗ Int} (hown : ∀ b ∈ c.sendBills, b.key ≠ k) :
    Ascending userSumBill1s.key (setDetailBill u st c).m_userSumBill1s_new ∧
      valueAt userSumBill1s (setDetailBill u st c).m_userSumBill1s_new k =
        valueAt userSumBill1s st.m_userSumBill1s_new k + deducted k (bookedRents u st c) := by
  obtain ⟨hsend, hsendValue⟩ :=
    foldl_updateBillIncre_spec h c.sendBills fun b _ => userSumBill1s_shown b
  obtain ⟨hall, hvalue⟩ := foldl_updateBillIncre_spec hsend ((bookedRents u st c).map Prod.fst)
    fun b _ => userSumBill1s_shown b
  have hnone : valuesOf userSumBill1s k c.sendBills = [] := valuesOf_eq_nil hown
  refine ⟨hall, ?_⟩
  rw [setDetailBill]
  dsimp only
  rw [hvalue, hsendValue, hnone, List.sum_nil, add_zero]
  rfl

/-- The user bills of a call: its fees and its rents. -/
theorem setDetailBill_bills (h : Ascending userFees.key st.m_userBills_new) :
    Ascending userFees.key (setDetailBill u st c).m_userBills_new ∧ ∀ k,
      valueAt userFees (setDetailBill u st c).m_userBills_new k =
        valueAt userFees st.m_userBills_new k + (valuesOf userFees k c.feeBills).sum +
          (valuesOf userFees k ((bookedRents u st c).map Prod.snd)).sum := by
  obtain ⟨hfee, hfeeValue⟩ :=
    foldl_updateBillIncre_spec h c.feeBills fun b _ => userFees_shown b
  obtain ⟨hall, hvalue⟩ := foldl_updateBillIncre_spec hfee ((bookedRents u st c).map Prod.snd)
    fun b _ => userFees_shown b
  exact ⟨hall, fun k => (hvalue k).trans (by rw [hfeeValue])⟩

/-- A call deducts for an instance at most what is missing from its rent. -/
theorem deducted_le (h : Ascending userSumBill1s.key st.m_userSumBill1s_new)
    {p s R : Int}
    (hrent : ∀ v ∈ c.m_freeValues, v.m_tpObjId = p → v.m_pTpInfo.getRentValue = R) :
    deducted (sumKey u p s) (bookedRents u st c) = 0 ∨
      valueAt userSumBill1s st.m_userSumBill1s_new (sumKey u p s) +
        deducted (sumKey u p s) (bookedRents u st c) ≤ R := by
  obtain ⟨hall, hpairwise⟩ := bookedRents_spec (u := u) (c := c) h
  rcases valuesOf_of_pairwise hpairwise (sumKey u p s) with
    hnone | ⟨b, hb, hkey, hone⟩
  · exact Or.inl (by rw [deducted, hnone, List.sum_nil])
  · obtain ⟨d, hd, rfl⟩ := List.mem_map.mp hb
    obtain ⟨r, ⟨v, hv, hid, hinfo⟩, hdeducts⟩ := hall d hd
    have hinstance : v.m_tpObjId = p := by
      have hkeys := hdeducts.key.symm.trans hkey
      simp [sumKey] at hkeys
      omega
    have hle := hdeducts.le
    rw [hinfo, hrent v hv hinstance] at hle
    refine Or.inr ?_
    rw [deducted, hone, List.sum_singleton]
    exact hkey ▸ hle

/-! ## All calls of a cycle -/

theorem deducted_append (k : S ×ₗ Int ×ₗ Int) (log log' : List (UserSumBill1 S × UserBill S)) :
    deducted k (log ++ log') = deducted k log + deducted k log' := by
  simp [deducted, valuesOf]

/-- Every booked rent is a positive amount, the same on the accumulation and the rent bill. -/
theorem deductions_mem (h : Ascending userSumBill1s.key st.m_userSumBill1s_new)
    (hd : d ∈ deductions u st calls) :
    0 < d.1.m_value ∧ d.2.m_value = d.1.m_value ∧ d.2.m_discntValue = d.1.m_value ∧
      d.2.m_userId = u := by
  induction calls generalizing st with
  | nil => cases hd
  | cons c rest ih =>
      rcases List.mem_append.mp hd with hd | hd
      · obtain ⟨r, -, hdeducts⟩ := (bookedRents_spec h).1 d hd
        rw [hdeducts.bill]
        exact ⟨hdeducts.pos, rfl, rfl, rfl⟩
      · have hnext : Ascending userSumBill1s.key (setDetailBill u st c).m_userSumBill1s_new :=
          (foldl_updateBillIncre_spec
            (foldl_updateBillIncre_spec h c.sendBills fun b _ => userSumBill1s_shown b).1 _
            fun b _ => userSumBill1s_shown b).1
        exact ih hnext hd

/-- The accumulated value grows by what is deducted and stays within the rent. -/
theorem rateCalls_sums (h : Ascending userSumBill1s.key st.m_userSumBill1s_new)
    {p s R : Int}
    (hle : valueAt userSumBill1s st.m_userSumBill1s_new (sumKey u p s) ≤ max R 0)
    (hrent : ∀ c ∈ calls, ∀ v ∈ c.m_freeValues,
      v.m_tpObjId = p → v.m_pTpInfo.getRentValue = R)
    (hown : ∀ c ∈ calls, ∀ b ∈ c.sendBills, b.key ≠ sumKey u p s) :
    valueAt userSumBill1s (rateCalls u st calls).m_userSumBill1s_new
        (sumKey u p s) =
      valueAt userSumBill1s st.m_userSumBill1s_new (sumKey u p s) +
        deducted (sumKey u p s) (deductions u st calls) ∧
    valueAt userSumBill1s (rateCalls u st calls).m_userSumBill1s_new
        (sumKey u p s) ≤ max R 0 := by
  induction calls generalizing st with
  | nil => exact ⟨by simp [rateCalls, deductions, deducted, valuesOf], hle⟩
  | cons c rest ih =>
      obtain ⟨hnext, hvalue⟩ :=
        setDetailBill_sums (u := u) h (hown c List.mem_cons_self)
      have hstep : valueAt userSumBill1s (setDetailBill u st c).m_userSumBill1s_new
          (sumKey u p s) ≤ max R 0 := by
        rcases deducted_le (u := u) (s := s) h
          (hrent c List.mem_cons_self) with hzero | hroom
        · rw [hvalue, hzero, add_zero]
          exact hle
        · rw [hvalue]
          exact hroom.trans (le_max_left R 0)
      obtain ⟨hsum, hbound⟩ := ih hnext hstep
        (fun c' hc' => hrent c' (List.mem_cons_of_mem c hc'))
        (fun c' hc' => hown c' (List.mem_cons_of_mem c hc'))
      refine ⟨?_, hbound⟩
      rw [deductions, deducted_append]
      show valueAt userSumBill1s (rateCalls u (setDetailBill u st c) rest).m_userSumBill1s_new _ = _
      rw [hsum, hvalue, add_assoc]

/-- The user bills grow by the fees and by the rents booked. -/
theorem rateCalls_bills (h : Ascending userFees.key st.m_userBills_new) (k : S ×ₗ Int) :
    valueAt userFees (rateCalls u st calls).m_userBills_new k =
      valueAt userFees st.m_userBills_new k +
        (valuesOf userFees k (calls.flatMap RatedCall.feeBills)).sum +
          (valuesOf userFees k ((deductions u st calls).map Prod.snd)).sum := by
  induction calls generalizing st with
  | nil => simp [rateCalls, deductions, valuesOf]
  | cons c rest ih =>
      obtain ⟨hnext, hvalue⟩ := setDetailBill_bills (u := u) (c := c) h
      show valueAt userFees (rateCalls u (setDetailBill u st c) rest).m_userBills_new k = _
      rw [ih hnext, hvalue]
      simp only [deductions, valuesOf, List.flatMap_cons, List.map_append, List.filter_append,
        List.sum_append]
      abel

/-- **Real rent is never deducted beyond the rent.**  For a tariff instance whose rent is `R` in
all calls, and an accumulation that starts at 0: every deduction is positive, their total stays
within the rent (and is 0 when there is none), the accumulated value is the total booked along
with it on rent bills, and the user bills hold their fees and those rents; so a rent bill that
only this instance uses shows the accumulated value. -/
theorem rent_never_overdeducted (u : S) (st : Bills S) (calls : List (RatedCall S)) (p s R : Int)
    (hsums : Ascending userSumBill1s.key st.m_userSumBill1s_new)
    (hbills : Ascending userFees.key st.m_userBills_new)
    (hstart : valueAt userSumBill1s st.m_userSumBill1s_new (sumKey u p s) = 0)
    (hrent : ∀ c ∈ calls, ∀ v ∈ c.m_freeValues, v.m_tpObjId = p → v.m_pTpInfo.getRentValue = R)
    (hown : ∀ c ∈ calls, ∀ b ∈ c.sendBills, b.key ≠ sumKey u p s) :
    (∀ d ∈ deductions u st calls, 0 < d.1.m_value) ∧
    deducted (sumKey u p s) (deductions u st calls) ≤ max R 0 ∧
    rentBooked (sumKey u p s) (deductions u st calls) =
      valueAt userSumBill1s (rateCalls u st calls).m_userSumBill1s_new (sumKey u p s) ∧
    (∀ k, valueAt userFees (rateCalls u st calls).m_userBills_new k =
      valueAt userFees st.m_userBills_new k +
        (valuesOf userFees k (calls.flatMap RatedCall.feeBills)).sum +
          (valuesOf userFees k ((deductions u st calls).map Prod.snd)).sum) ∧
    ∀ b : Int, valueAt userFees st.m_userBills_new (toLex (u, b)) = 0 →
      (∀ c ∈ calls, ∀ fee ∈ c.feeBills, fee.key ≠ toLex (u, b)) →
      (∀ d ∈ deductions u st calls, d.2.m_billId = b ↔ d.1.key = sumKey u p s) →
      (valueAt userFees (rateCalls u st calls).m_userBills_new (toLex (u, b))).1 =
        valueAt userSumBill1s (rateCalls u st calls).m_userSumBill1s_new (sumKey u p s) := by
  have hzero : valueAt userSumBill1s st.m_userSumBill1s_new (sumKey u p s) ≤ max R 0 :=
    hstart ▸ le_max_right R 0
  obtain ⟨hsum, hbound⟩ := rateCalls_sums hsums hzero hrent hown
  rw [hstart, zero_add] at hsum
  have hmem : ∀ d ∈ deductions u st calls, 0 < d.1.m_value ∧ d.2.m_value = d.1.m_value ∧
      d.2.m_discntValue = d.1.m_value ∧ d.2.m_userId = u := fun d hd => deductions_mem hsums hd
  have hbooked : rentBooked (sumKey u p s) (deductions u st calls) =
      deducted (sumKey u p s) (deductions u st calls) := by
    have hfilter : ((deductions u st calls).map Prod.fst).filter
        (fun b => decide (userSumBill1s.key b = sumKey u p s)) =
          ((deductions u st calls).filter fun d =>
            decide (d.1.key = sumKey u p s)).map Prod.fst := by
      rw [List.filter_map]
      rfl
    rw [rentBooked, deducted, valuesOf, hfilter, List.map_map]
    refine congrArg List.sum (List.map_congr_left fun d hd => ?_)
    exact (hmem d (List.mem_filter.mp hd).1).2.1
  refine ⟨fun d hd => (hmem d hd).1, hsum ▸ hbound, hbooked.trans hsum.symm,
    fun k => rateCalls_bills hbills k, fun b hempty hfees honly => ?_⟩
  have hnofees : valuesOf userFees (toLex (u, b)) (calls.flatMap RatedCall.feeBills) = [] :=
    valuesOf_eq_nil fun fee hfee => by
      obtain ⟨c, hc, hfee⟩ := List.mem_flatMap.mp hfee
      exact hfees c hc fee hfee
  have hrents : (valuesOf userFees (toLex (u, b)) ((deductions u st calls).map Prod.snd)).map
      Prod.fst = ((deductions u st calls).filter fun d =>
        decide (d.1.key = sumKey u p s)).map fun d => d.2.m_value := by
    have hfilter : (deductions u st calls).filter
        ((fun x => decide (userFees.key x = toLex (u, b))) ∘ Prod.snd) =
          (deductions u st calls).filter fun d => decide (d.1.key = sumKey u p s) := by
      refine List.filter_congr fun d hd => ?_
      have huser : d.2.m_userId = u := (hmem d hd).2.2.2
      simp [userFees, BillClass.view, userBills, UserBill.key, huser, honly d hd]
    rw [valuesOf, List.filter_map, hfilter, List.map_map, List.map_map]
    rfl
  have hfst : ∀ l : List (Int × Int), l.sum.1 = (l.map Prod.fst).sum := fun l => by
    induction l with
    | nil => rfl
    | cons a l ih => simp [ih]
  rw [rateCalls_bills hbills, hempty, hnofees, List.sum_nil, add_zero, zero_add, hfst, hrents]
  exact hbooked.trans hsum.symm

/-- A call in which instance 7, with a rent of 100, saves 40 and then 30. -/
def savingCall : RatedCall Int where
  m_cdrCycleOrg := 201103
  m_cycleDate := 201103
  m_freeValues :=
    [⟨7, 40, ⟨"0", "0", true, 30, 9001, 100⟩⟩, ⟨7, 30, ⟨"0", "0", true, 30, 9001, 100⟩⟩]
  sorted := [⟨7, 40, ⟨"0", "0", true, 30, 9001, 100⟩⟩, ⟨7, 30, ⟨"0", "0", true, 30, 9001, 100⟩⟩]
  sorted_perm := List.Perm.refl _
  sorted_le := by decide
  booked := true
  feeBills := []
  sendBills := []

/-- The second of two such calls is cut to the 30 that are missing. -/
theorem rent_never_overdeducted_savingCall :
    deducted (sumKey 1 7 30) (deductions 1 ⟨[], []⟩ [savingCall, savingCall]) = 100 ∧
      deducted (sumKey 1 7 30) (deductions 1 ⟨[], []⟩ [savingCall, savingCall]) ≤ max 100 0 :=
  ⟨by decide, (rent_never_overdeducted 1 ⟨[], []⟩ [savingCall, savingCall] 7 30 100 ascending_nil
    ascending_nil rfl (by decide) (by decide)).2.1⟩

end TpRealRentMgr
