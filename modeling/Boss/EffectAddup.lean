import Boss.SendMinList

/-!
# Accumulations of a call

`rateExecute` of an accumulation effect makes segments of a call, looks up the total that each one
belongs to, and commits them to `m_addupInfos`.  The same call comes once for every fee field, so
`commitAddupBillInfo` leaves out what belongs to a total that is there already.

It does not tell a segment of an earlier fee field from one of the same call: of the segments that
belong to one total and have a value only the first is committed (`commitAll_eq`), and nothing is
lost just when there is no second one (`addup_lossless_iff`).
-/

namespace EffectAddup

open Rate SendMinList

def TP_TYPE_VPN : String := "2"
def ROLECODE_SELF : String := "0"
def CYCLERULEID_COMMONMONTH : Int := 0
def ADDUP_ELEM_TYPE_EVENT : Char := '1'

/-- The tariff of a user. -/
structure UserTp where
  m_userId : Int
  m_tpObjId : Int
  m_subTpType : String

structure RateTpInfo where
  m_pUserTp : UserTp
  m_rateRoleCode : String

/-- What is known of the call. -/
structure GlobalInfo where
  m_billUserId : Int
  m_cycleId : Int

/-- `m_cycleRule` gives the begin of the cycle of a point in time for the begin that the total has,
unless it fails. -/
structure AddupItem where
  m_id : Int
  m_elemId : RateMethod
  m_elemType : Char
  m_cycleRuleId : Int
  m_cycleRule : Option (DateTime → Int → Option Int)

/-- A segment that is accumulated. -/
structure SegAddupInfo where
  m_billId : RateBillId
  m_startDateTime : DateTime
  m_unitValue : Int
  m_unitCount : Int
  m_value : Int
  m_objType : RateMethod

/-- The methods have the numbers of `BILLOBJ_DURATION` and `BILLOBJ_DATA`. -/
def objType : RateMethod → BillObj
  | .TIME => .DURATION
  | .DATA => .DATA

/-- `RateBillInfo::operator=`. -/
def SegAddupInfo.toBill (r_right : SegAddupInfo) : RateBillInfo where
  m_billId := r_right.m_billId
  m_objType := objType r_right.m_objType
  m_unitValue := r_right.m_unitValue
  m_unitFee := r_right.m_unitCount
  m_billValue := r_right.m_value

/-- The number that `YYYYMM01000000` is. -/
def cycleBegin (t_cdrCycle : Int) : Int := t_cdrCycle * 100000000 + 1000000

/-- `getRateBillIdInfo`: the total of a point in time. -/
def AddupItem.getRateBillIdInfo (item : AddupItem) (r_pGlobalInfo : GlobalInfo)
    (r_rateTpInfo : RateTpInfo) (r_cdrStartTime : DateTime) (r_rateBillId : RateBillId) :
    Option RateBillId :=
  let t_rateBillId := { r_rateBillId with
    m_tpObjId := r_rateTpInfo.m_pUserTp.m_tpObjId
    m_billId := item.m_id }
  let cycled (t_rateBillId : RateBillId) : Option RateBillId :=
    item.m_cycleRule.bind fun getSumTimeInfo =>
      (getSumTimeInfo r_cdrStartTime t_rateBillId.m_sumBeginTime).map fun sumBeginTime =>
        { t_rateBillId with m_sumBeginTime := sumBeginTime }
  if r_rateTpInfo.m_pUserTp.m_subTpType = TP_TYPE_VPN ∧
      r_rateTpInfo.m_rateRoleCode = ROLECODE_SELF then
    cycled { t_rateBillId with m_userId := r_rateTpInfo.m_pUserTp.m_userId }
  else if item.m_cycleRuleId = CYCLERULEID_COMMONMONTH then
    some { t_rateBillId with
      m_userId := r_pGlobalInfo.m_billUserId
      m_sumBeginTime := cycleBegin r_pGlobalInfo.m_cycleId }
  else cycled { t_rateBillId with m_userId := r_pGlobalInfo.m_billUserId }

def commitAddupBillInfo (t_addupInfos : List RateBillInfo) (r_billInfo : RateBillInfo) :
    List RateBillInfo :=
  if r_billInfo.m_billValue = 0 then t_addupInfos
  else if t_addupInfos.any fun t_curItr => r_billInfo.m_billId = t_curItr.m_billId then t_addupInfos
  else t_addupInfos ++ [r_billInfo]

/-- The messages of `BusinessException`. -/
inductive Fault
  | nullItem | noBillId
deriving DecidableEq, Repr

/-- What the text leaves to `AddupInfo`: a segment of a call as one to be accumulated, and the
segments that `addSegAddupInfo`, `ajustAddupInfoList` and `compute` make of them. -/
structure AddupInfo where
  ofCdrSeg : CdrSeg → SegAddupInfo
  computed : List SegAddupInfo → List SegAddupInfo

/-- The segments with the unit of the element. -/
def AddupItem.segments (item : AddupItem) (lib : AddupInfo) (r_pCdrSegList : List CdrSeg) :
    List SegAddupInfo :=
  lib.computed (r_pCdrSegList.map fun seg =>
    match item.m_elemId with
    | .TIME => { lib.ofCdrSeg seg with m_objType := .TIME, m_unitValue := 60 }
    | .DATA => { lib.ofCdrSeg seg with m_objType := .DATA, m_unitValue := 1024 })

/-- A segment with the total it belongs to. -/
def AddupItem.billed (item : AddupItem) (t_pGlobalInfo : GlobalInfo) (t_rateTpInfo : RateTpInfo)
    (t_segInfo : SegAddupInfo) : Option RateBillInfo :=
  (item.getRateBillIdInfo t_pGlobalInfo t_rateTpInfo t_segInfo.m_startDateTime
    t_segInfo.m_billId).map fun m_billId => { t_segInfo with m_billId := m_billId }.toBill

/-- The segments are committed one after another. -/
def AddupItem.commitSegs (item : AddupItem) (t_pGlobalInfo : GlobalInfo)
    (t_rateTpInfo : RateTpInfo) :
    List SegAddupInfo → List RateBillInfo → Except Fault (List RateBillInfo)
  | [], m_addupInfos => .ok m_addupInfos
  | t_segInfo :: rest, m_addupInfos =>
      match item.billed t_pGlobalInfo t_rateTpInfo t_segInfo with
      | none => .error .noBillId
      | some t_addupInfo =>
          item.commitSegs t_pGlobalInfo t_rateTpInfo rest
            (commitAddupBillInfo m_addupInfos t_addupInfo)

/-- `rateExecute` as far as the next effect. -/
def addup (m_addupItem : Option AddupItem) (lib : AddupInfo) (t_pGlobalInfo : GlobalInfo)
    (t_rateTpInfo : RateTpInfo) (r_pCdrSegList : List CdrSeg) (m_addupInfos : List RateBillInfo) :
    Except Fault (List RateBillInfo) :=
  match m_addupItem with
  | none => .error .nullItem
  | some item =>
      if item.m_elemType = ADDUP_ELEM_TYPE_EVENT then
        item.commitSegs t_pGlobalInfo t_rateTpInfo (item.segments lib r_pCdrSegList) m_addupInfos
      else .ok m_addupInfos

/-- The next effect goes on with what has been committed. -/
def rateExecute (m_addupItem : Option AddupItem) (lib : AddupInfo) (t_pGlobalInfo : GlobalInfo)
    (t_rateTpInfo : RateTpInfo) (m_next : List RateBillInfo → Except Fault (List RateBillInfo))
    (r_pCdrSegList : List CdrSeg) (m_addupInfos : List RateBillInfo) :
    Except Fault (List RateBillInfo) :=
  (addup m_addupItem lib t_pGlobalInfo t_rateTpInfo r_pCdrSegList m_addupInfos).bind m_next

/-! ## What is committed -/

/-- The sum of a total. -/
def total (id : RateBillId) (entries : List RateBillInfo) : Int :=
  ((entries.filter (·.m_billId = id)).map (·.m_billValue)).sum

/-- What is appended to the list has the sums of the segments. -/
def Lossless (m_addupInfos after segs : List RateBillInfo) : Prop :=
  ∃ committed, after = m_addupInfos ++ committed ∧ ∀ id, total id committed = total id segs

/-- The first segment with a value of each total that is not known. -/
def firsts (known : List RateBillId) : List RateBillInfo → List RateBillInfo
  | [] => []
  | t :: rest =>
      if t.m_billValue = 0 ∨ t.m_billId ∈ known then firsts known rest
      else t :: firsts (known ++ [t.m_billId]) rest

/-- The totals of the segments that have a value. -/
def valued (segs : List RateBillInfo) : List RateBillId := ids (segs.filter (·.m_billValue ≠ 0))

section Commit

variable {id : RateBillId} {t : RateBillInfo} {segs entries : List RateBillInfo}
  {known : List RateBillId}

theorem total_cons :
    total id (t :: segs) = (if t.m_billId = id then t.m_billValue else 0) + total id segs := by
  by_cases h : t.m_billId = id <;> simp [total, h]

theorem commitAddupBillInfo_eq (m_addupInfos : List RateBillInfo) (t : RateBillInfo) :
    commitAddupBillInfo m_addupInfos t =
      if t.m_billValue = 0 ∨ t.m_billId ∈ ids m_addupInfos then m_addupInfos
      else m_addupInfos ++ [t] := by
  have hany : (m_addupInfos.any fun u => t.m_billId = u.m_billId) = true ↔
      t.m_billId ∈ ids m_addupInfos := by
    simp only [List.any_eq_true, decide_eq_true_eq, mem_ids, @eq_comm _ t.m_billId]
  unfold commitAddupBillInfo
  by_cases hzero : t.m_billValue = 0
  · rw [if_pos hzero, if_pos (.inl hzero)]
  · by_cases hid : t.m_billId ∈ ids m_addupInfos
    · rw [if_neg hzero, if_pos (hany.mpr hid), if_pos (.inr hid)]
    · rw [if_neg hzero, if_neg (mt hany.mp hid), if_neg (not_or.mpr ⟨hzero, hid⟩)]

/-- Committing appends the first ones. -/
theorem commitAll_eq (m_addupInfos segs : List RateBillInfo) :
    segs.foldl commitAddupBillInfo m_addupInfos =
      m_addupInfos ++ firsts (ids m_addupInfos) segs := by
  induction segs generalizing m_addupInfos with
  | nil => simp [firsts]
  | cons t rest ih =>
      rw [List.foldl_cons, ih, commitAddupBillInfo_eq, firsts]
      split_ifs with h
      · rfl
      · rw [ids_append, List.append_assoc]
        rfl

/-- What is committed of a total is at most what there is of it. -/
theorem total_firsts_le (h : ∀ t ∈ segs, 0 ≤ t.m_billValue) :
    total id (firsts known segs) ≤ total id segs := by
  induction segs generalizing known with
  | nil => exact le_rfl
  | cons t rest ih =>
      have ht := h t List.mem_cons_self
      have hrest : ∀ u ∈ rest, 0 ≤ u.m_billValue := fun u hu => h u (List.mem_cons_of_mem _ hu)
      by_cases hskip : t.m_billValue = 0 ∨ t.m_billId ∈ known
      · have hle : total id (firsts known rest) ≤ total id rest := ih hrest
        rw [firsts, if_pos hskip, total_cons]
        split_ifs <;> omega
      · rw [firsts, if_neg hskip, total_cons, total_cons]
        exact Int.add_le_add_left (ih hrest) _

theorem valued_cons_of_zero (h : t.m_billValue = 0) : valued (t :: segs) = valued segs := by
  simp [valued, h]

theorem valued_cons_of_ne (h : t.m_billValue ≠ 0) :
    valued (t :: segs) = t.m_billId :: valued segs := by
  simp [valued, ids, h]

/-- The first ones are all there is just when each total has a value once and is not known. -/
theorem total_firsts_iff (h : ∀ t ∈ segs, 0 ≤ t.m_billValue) :
    (∀ id, total id (firsts known segs) = total id segs) ↔
      (valued segs).Nodup ∧ ∀ id ∈ valued segs, id ∉ known := by
  induction segs generalizing known with
  | nil => simp [firsts, valued, ids]
  | cons t rest ih =>
      have ht := h t List.mem_cons_self
      have hrest : ∀ u ∈ rest, 0 ≤ u.m_billValue := fun u hu => h u (List.mem_cons_of_mem _ hu)
      by_cases hzero : t.m_billValue = 0
      · rw [firsts, if_pos (.inl hzero), valued_cons_of_zero hzero, ← ih hrest]
        refine forall_congr' fun id => ?_
        rw [total_cons, hzero, ite_self, zero_add]
      · by_cases hid : t.m_billId ∈ known
        · -- Its value is missing.
          refine iff_of_false (fun hall => ?_) fun hcond => ?_
          · have hle : total t.m_billId (firsts known rest) ≤ total t.m_billId rest :=
              total_firsts_le hrest
            have heq := hall t.m_billId
            rw [firsts, if_pos (.inr hid), total_cons, if_pos rfl] at heq
            omega
          · rw [valued_cons_of_ne hzero] at hcond
            exact hcond.2 _ List.mem_cons_self hid
        · have hstep : (∀ id, total id (firsts known (t :: rest)) = total id (t :: rest)) ↔
              ∀ id, total id (firsts (known ++ [t.m_billId]) rest) = total id rest := by
            refine forall_congr' fun id => ?_
            rw [firsts, if_neg (not_or.mpr ⟨hzero, hid⟩), total_cons, total_cons,
              add_right_inj]
          rw [hstep, ih hrest, valued_cons_of_ne hzero, List.nodup_cons, List.forall_mem_cons]
          simp only [List.mem_append, List.mem_singleton, not_or]
          constructor
          · rintro ⟨hnodup, hnew⟩
            exact ⟨⟨fun hin => (hnew _ hin).2 rfl, hnodup⟩, hid, fun id hin => (hnew id hin).1⟩
          · rintro ⟨⟨hother, hnodup⟩, -, hnew⟩
            refine ⟨hnodup, fun id hin => ⟨hnew id hin, ?_⟩⟩
            rintro rfl
            exact hother hin

end Commit

/-! ## The effect -/

section Effect

variable {item : AddupItem} {lib : AddupInfo} {t_pGlobalInfo : GlobalInfo}
  {t_rateTpInfo : RateTpInfo} {t_segs : List SegAddupInfo}
  {m_addupInfos after segs : List RateBillInfo}

/-- The loop commits the segments with their totals. -/
theorem commitSegs_eq (h : t_segs.mapM (item.billed t_pGlobalInfo t_rateTpInfo) = some segs) :
    item.commitSegs t_pGlobalInfo t_rateTpInfo t_segs m_addupInfos =
      .ok (segs.foldl commitAddupBillInfo m_addupInfos) := by
  induction t_segs generalizing m_addupInfos segs with
  | nil =>
      obtain rfl : segs = [] := by simpa [eq_comm] using h
      rfl
  | cons t_segInfo rest ih =>
      rw [List.mapM_cons] at h
      obtain ⟨bill, hbill, hrest⟩ := Option.bind_eq_some_iff.mp h
      obtain ⟨bills, hbills, hsegs⟩ := Option.bind_eq_some_iff.mp hrest
      obtain rfl := Option.some.inj hsegs
      rw [AddupItem.commitSegs, hbill]
      exact ih hbills

/-- A segment that has no total ends the effect. -/
theorem commitSegs_error (h : t_segs.mapM (item.billed t_pGlobalInfo t_rateTpInfo) = none) :
    item.commitSegs t_pGlobalInfo t_rateTpInfo t_segs m_addupInfos = .error .noBillId := by
  induction t_segs generalizing m_addupInfos with
  | nil => simp at h
  | cons t_segInfo rest ih =>
      rw [AddupItem.commitSegs]
      cases hbill : item.billed t_pGlobalInfo t_rateTpInfo t_segInfo with
      | none => rfl
      | some bill =>
          refine ih ?_
          by_contra hsome
          obtain ⟨bills, hbills⟩ := Option.ne_none_iff_exists'.mp hsome
          simp [List.mapM_cons, hbill, hbills] at h

/-- For segments without negative values: nothing is lost if and only if no two of those that have a
value belong to one total, and none of them to a total that is there already. -/
theorem addup_lossless_iff (hevent : item.m_elemType = ADDUP_ELEM_TYPE_EVENT)
    {r_pCdrSegList : List CdrSeg}
    (hbilled : (item.segments lib r_pCdrSegList).mapM (item.billed t_pGlobalInfo t_rateTpInfo) =
      some segs)
    (hvalues : ∀ t ∈ segs, 0 ≤ t.m_billValue)
    (hafter : addup (some item) lib t_pGlobalInfo t_rateTpInfo r_pCdrSegList m_addupInfos =
      .ok after) :
    Lossless m_addupInfos after segs ↔
      (valued segs).Nodup ∧ ∀ id ∈ valued segs, id ∉ ids m_addupInfos := by
  have hcommit : after = m_addupInfos ++ firsts (ids m_addupInfos) segs := by
    rw [addup, if_pos hevent, commitSegs_eq hbilled, commitAll_eq] at hafter
    exact (Except.ok.inj hafter).symm
  rw [← total_firsts_iff hvalues, Lossless, hcommit]
  constructor
  · rintro ⟨committed, heq, hall⟩
    rw [List.append_cancel_left heq]
    exact hall
  · exact fun hall => ⟨_, rfl, hall⟩

end Effect

/-- Segments that are counted in units. -/
def inUnits : AddupInfo where
  ofCdrSeg seg :=
    { m_billId := ⟨0, 0, 0, 0⟩, m_startDateTime := seg.m_startDateTime, m_unitValue := 0
      m_unitCount := 0, m_value := seg.m_duration, m_objType := .TIME }
  computed segs := segs.map fun s =>
    let m_unitCount := SegFeeInfo.ceilTimes s.m_value s.m_unitValue
    { s with m_unitCount := m_unitCount, m_value := m_unitCount * s.m_unitValue }

/-- A total of minutes for each month. -/
def monthly : AddupItem := ⟨7, .TIME, ADDUP_ELEM_TYPE_EVENT, CYCLERULEID_COMMONMONTH, none⟩

def ownTariff : RateTpInfo := ⟨⟨1, 11, "1"⟩, ROLECODE_SELF⟩

def january : GlobalInfo := ⟨1, 202601⟩

/-- The seconds of a call before midnight, and those after it. -/
def beforeMidnight (m_duration : Int) : CdrSeg :=
  ⟨⟨20260105, 235900⟩, ⟨20260106, 0⟩, m_duration, 0, m_duration, 0, 0, 0⟩

def afterMidnight (m_duration : Int) : CdrSeg :=
  ⟨⟨20260106, 0⟩, ⟨20260106, 100⟩, m_duration, 60, 60 + m_duration, 0, 0, 0⟩

/-- So much of the total of the month. -/
def ofMonth (m_unitCount : Int) : RateBillInfo :=
  ⟨⟨1, 11, 7, 20260101000000⟩, .DURATION, 60, m_unitCount, m_unitCount * 60⟩

/-- A total of minutes for each day. -/
def daily : AddupItem := ⟨8, .TIME, ADDUP_ELEM_TYPE_EVENT, 1, some fun t _ => some (t.m_Date * 1000000)⟩

/-- A minute of the total of a day. -/
def ofDay (m_Date : Int) : RateBillInfo :=
  ⟨⟨1, 11, 8, m_Date * 1000000⟩, .DURATION, 60, 1, 60⟩

/-- A call of two minutes over midnight is accumulated with one on each day, behind what there is. -/
theorem addup_lossless_iff_midnight :
    Lossless [ofMonth 2] [ofMonth 2, ofDay 20260105, ofDay 20260106]
      [ofDay 20260105, ofDay 20260106] :=
  (@addup_lossless_iff daily inUnits january ownTariff [ofMonth 2]
    [ofMonth 2, ofDay 20260105, ofDay 20260106] [ofDay 20260105, ofDay 20260106] rfl
    [beforeMidnight 60, afterMidnight 60] (by decide) (by decide) (by decide)).mpr (by decide)

/-- The same call is accumulated with one minute in the month. -/
theorem midnight_loses :
    addup (some monthly) inUnits january ownTariff [beforeMidnight 60, afterMidnight 60] [] =
        .ok [ofMonth 1] ∧
      (monthly.segments inUnits [beforeMidnight 60, afterMidnight 60]).mapM
          (monthly.billed january ownTariff) = some [ofMonth 1, ofMonth 1] ∧
      ¬ Lossless [] [ofMonth 1] [ofMonth 1, ofMonth 1] := by
  refine ⟨by decide, by decide, ?_⟩
  rintro ⟨committed, heq, hall⟩
  have hsum := hall (ofMonth 1).m_billId
  rw [List.nil_append] at heq
  rw [← heq] at hsum
  exact absurd hsum (by decide)

end EffectAddup
