import Boss.CdrSeg

/-!
# Fees of segments

A segment of a call has a tariff: what a unit of time or of data costs, and what a unit adds to the
totals that are kept for the user.  `compute` works out the fee and the totals, `cheaper` and
`needUpdate` say whether one segment is to replace another.

Units are divided by.  Where the source guards a unit, nothing is wrong with 0; where it does not,
there is no result.
-/

namespace Rate

def CARRY_TAG_NODEAL : Char := '0'
def CARRY_TAG_DEL : Char := '1'
def CARRY_TAG_ADD : Char := '2'
def CARRY_TAG_ROUND : Char := '3'
def CARRY_TAG_SPECIAL : Char := '4'
def CARRY_TAG_DOUBLE : Char := '5'

inductive SegType
  | FEE_SEG | SEND_MIN_SEG | SEND_FEE_SEG | SEND_DATA_SEG | PATCH_SEG | TMP_SEG | COM_ADD_SEG
deriving DecidableEq, Repr

inductive BillObj
  | DURATION | DATA | FEE | TIMEFEE | DATAFEE | FEELIMIT_T | FEELIMIT_D
deriving DecidableEq, Repr

inductive RateMethod
  | TIME | DATA
deriving DecidableEq, Repr

/-- The fields by which a total is told from another. -/
structure RateBillId where
  m_userId : Int
  m_tpObjId : Int
  m_billId : Int
  m_sumBeginTime : Int
deriving DecidableEq, Repr

structure RateBillInfo where
  m_billId : RateBillId
  m_objType : BillObj
  m_unitValue : Int
  m_unitFee : Int
  m_billValue : Int
deriving DecidableEq, Repr

structure SegFeeInfo where
  m_tpObjId : Int
  m_feePolicyId : Int
  m_tpId : Int
  m_startDateTime : DateTime
  m_endDateTime : DateTime
  m_duration : Int
  m_startSecond : Int
  m_endSecond : Int
  m_unitTime : Int
  m_unitFee : Int
  m_intTag : Char
  m_unitCount : Int
  m_value : Int
  m_segType : SegType
  m_totalFlag : Bool
  m_totalUnitFee : Int
  m_pricision : Int
  m_billInfoList : List RateBillInfo
  m_data : Int
  m_startData : Int
  m_endData : Int
  m_unitData : Int
  m_rateMethod : RateMethod
deriving DecidableEq, Repr

/-- What is not in the source or not determined by it: `value / pow(10, m_pricision)` cut to an
integer, a variable that is read before it is set, and whether `__PROV090__` is defined. -/
structure FeeEnv where
  scale : Int → Int → Int
  unset : SegFeeInfo → Int
  prov090 : Bool

/-- Fees are cut to whole numbers. -/
def plainEnv : FeeEnv where
  scale value pricision := value.tdiv (10 ^ pricision.toNat)
  unset _ := 0
  prov090 := false

/-- The value of an `int`. -/
def toInt (x : Int) : Int := x.bmod 4294967296

namespace SegFeeInfo

/-- The units that are begun. -/
def ceilTimes (r_length r_unit : Int) : Int := (r_length + r_unit - 1).tdiv r_unit

def getTimes (r_duration r_unitTime : Int) (r_timeIntTag : Char) : Int :=
  if r_unitTime ≤ 0 then 0
  else if r_timeIntTag = CARRY_TAG_ADD ∨ r_timeIntTag = CARRY_TAG_NODEAL then
    ceilTimes r_duration r_unitTime
  else if r_timeIntTag = CARRY_TAG_DEL then r_duration.tdiv r_unitTime
  else if r_timeIntTag = CARRY_TAG_ROUND then
    if r_duration.tmod r_unitTime * 2 ≥ r_unitTime then r_duration.tdiv r_unitTime + 1
    else r_duration.tdiv r_unitTime
  else if r_timeIntTag = CARRY_TAG_SPECIAL then 2
  else if r_timeIntTag = CARRY_TAG_DOUBLE then ceilTimes r_duration r_unitTime * 2
  else 0

/-- The same without the last two tags. -/
def getDataTimes (r_data r_unitData : Int) (r_intTag : Char) : Int :=
  if r_unitData ≤ 0 then 0
  else if r_intTag = CARRY_TAG_ADD ∨ r_intTag = CARRY_TAG_NODEAL then ceilTimes r_data r_unitData
  else if r_intTag = CARRY_TAG_DEL then r_data.tdiv r_unitData
  else if r_intTag = CARRY_TAG_ROUND then
    if r_data.tmod r_unitData * 2 ≥ r_unitData then r_data.tdiv r_unitData + 1
    else r_data.tdiv r_unitData
  else 0

/-- What a segment adds to a total; the number of units is kept in an `int`. -/
def billValue (s : SegFeeInfo) (t_itr : RateBillInfo) : Int :=
  if t_itr.m_unitValue > 0 then
    let t_times := toInt (getTimes s.m_duration t_itr.m_unitValue s.m_intTag)
    let t_dataTimes := toInt (getDataTimes s.m_data t_itr.m_unitValue s.m_intTag)
    match t_itr.m_objType with
    | .DURATION =>
        if s.m_intTag = CARRY_TAG_NODEAL ∧ t_times * t_itr.m_unitValue > s.m_duration then
          s.m_duration
        else t_times * t_itr.m_unitValue
    | .DATA => t_dataTimes * t_itr.m_unitValue
    | .TIMEFEE | .FEELIMIT_T => t_times * t_itr.m_unitFee
    | .DATAFEE | .FEELIMIT_D => t_dataTimes * t_itr.m_unitFee
    | .FEE => t_itr.m_billValue
  else 0

def computeBills (s : SegFeeInfo) : List RateBillInfo :=
  s.m_billInfoList.map fun t_itr => { t_itr with m_billValue := billValue s t_itr }

def computeCount (s : SegFeeInfo) : Int :=
  match s.m_rateMethod with
  | .TIME => getTimes s.m_duration s.m_unitTime s.m_intTag
  | .DATA => getDataTimes s.m_data s.m_unitData s.m_intTag

section Env

variable (env : FeeEnv)

/-- The duration in the units of a price for the whole. -/
def t_duration (s : SegFeeInfo) : Int :=
  if s.m_intTag = '1' then s.m_duration
  else if s.m_intTag = '2' then (s.m_duration + 59).tdiv 60
  else if s.m_intTag = '3' then (s.m_duration + 3599).tdiv 3600
  else env.unset s

/-- `compute`; there is none when it divides by a unit of 0. -/
def compute (s : SegFeeInfo) : Option SegFeeInfo :=
  if s.m_totalFlag then
    if s.m_unitTime = 0 then none
    else some { s with
      m_value := (t_duration env s * s.m_totalUnitFee).tdiv s.m_unitTime
      m_billInfoList := computeBills s
      m_unitCount := computeCount s }
  else if s.m_segType = .COM_ADD_SEG then some s
  else some { s with
    m_unitCount := computeCount s
    m_value := env.scale (s.m_unitFee * computeCount s) s.m_pricision
    m_billInfoList := computeBills s }

/-- The fees of two segments in the units of one method; `__PROV090__` guards the units. -/
def lessFee (s r_right : SegFeeInfo) (length unit : SegFeeInfo → Int) : Option Bool :=
  if unit s = 0 ∨ unit r_right = 0 then
    if env.prov090 then some (unit r_right ≠ 0) else none
  else
    some (env.scale (s.m_unitFee * ceilTimes (length s) (unit s)) s.m_pricision <
      env.scale (r_right.m_unitFee * ceilTimes (length r_right) (unit r_right)) s.m_pricision)

def cheaper (s r_right : SegFeeInfo) : Option Bool :=
  if r_right.m_unitFee ≤ 0 then some false
  else
    match s.m_rateMethod, r_right.m_rateMethod with
    | .TIME, .TIME => lessFee env s r_right m_duration m_unitTime
    | .DATA, .DATA => lessFee env s r_right m_data m_unitData
    | _, _ => some true

/-- What a segment is priced by. -/
def policy (s : SegFeeInfo) : Int × Int × Int := (s.m_tpObjId, s.m_feePolicyId, s.m_tpId)

def needUpdate (s r_right : SegFeeInfo) (r_exeFlag : Int) : Option Bool :=
  if s.policy = r_right.policy then cheaper env s r_right
  else if r_exeFlag = 1 then some true
  else if r_exeFlag = 2 then some (r_right.m_unitFee > 0)
  else if r_exeFlag = 3 then
    some (¬ (r_right.m_unitFee = 0 ∧ r_right.m_segType ≠ .FEE_SEG))
  else cheaper env s r_right

end Env

/-- The instants at which a segment begins and ends. -/
def startTime (lib : TimeLib) (s : SegFeeInfo) : Int := s.m_startDateTime.time lib

def endTime (lib : TimeLib) (s : SegFeeInfo) : Int := s.m_endDateTime.time lib

/-! ## Units that are begun -/

section CeilTimes

variable {x y k u : Int}

/-- Some units are enough when they are not shorter. -/
theorem ceilTimes_le_iff (hx : 0 ≤ x) (hu : 0 < u) : ceilTimes x u ≤ k ↔ x ≤ k * u := by
  have hsum : 0 ≤ x + u - 1 := by omega
  have hnext : (k + 1) * u = k * u + u := by ring
  rw [ceilTimes, Int.tdiv_eq_ediv_of_nonneg hsum, ← Int.lt_add_one_iff, Int.ediv_lt_iff_lt_mul hu,
    hnext]
  omega

theorem ceilTimes_nonneg (hx : 0 ≤ x) (hu : 0 < u) : 0 ≤ ceilTimes x u := by
  by_contra hneg
  have hle := (ceilTimes_le_iff hx hu).mp (by omega : ceilTimes x u ≤ -1)
  omega

theorem ceilTimes_zero (hu : 0 < u) : ceilTimes 0 u = 0 :=
  le_antisymm ((ceilTimes_le_iff le_rfl hu).mpr (zero_mul u).ge) (ceilTimes_nonneg le_rfl hu)

theorem ceilTimes_mono (hx : 0 ≤ x) (hxy : x ≤ y) (hu : 0 < u) : ceilTimes x u ≤ ceilTimes y u :=
  (ceilTimes_le_iff hx hu).mpr (hxy.trans ((ceilTimes_le_iff (hx.trans hxy) hu).mp le_rfl))

/-- So many units are begun at the end of the last of them, or where all ends. -/
theorem ceilTimes_min (hx : 0 ≤ x) (hk : 0 < k) (hkx : k ≤ ceilTimes x u) (hu : 0 < u) :
    ceilTimes (min (k * u) x) u = k := by
  have hmin : 0 ≤ min (k * u) x := le_min (mul_nonneg hk.le hu.le) hx
  refine le_antisymm ((ceilTimes_le_iff hmin hu).mpr (min_le_left _ _)) ?_
  by_contra hlt
  have hle := (ceilTimes_le_iff hmin hu).mp (by omega : _ ≤ k - 1)
  have hunit : (k - 1) * u = k * u - u := by ring
  rcases min_choice (k * u) x with hleft | hright
  · omega
  · rw [hright] at hle
    have hfew := (ceilTimes_le_iff hx hu).mpr hle
    omega

end CeilTimes

section Times

variable {x u : Int} {tag : Char}

theorem getTimes_nonneg (tag : Char) (hx : 0 ≤ x) : 0 ≤ getTimes x u tag := by
  unfold getTimes
  split_ifs with hu
  · rfl
  · exact ceilTimes_nonneg hx (not_le.mp hu)
  · exact Int.tdiv_nonneg hx (not_le.mp hu).le
  · exact add_nonneg (Int.tdiv_nonneg hx (not_le.mp hu).le) one_pos.le
  · exact Int.tdiv_nonneg hx (not_le.mp hu).le
  · exact two_pos.le
  · exact mul_nonneg (ceilTimes_nonneg hx (not_le.mp hu)) two_pos.le
  · rfl

theorem getDataTimes_nonneg (tag : Char) (hx : 0 ≤ x) : 0 ≤ getDataTimes x u tag := by
  unfold getDataTimes
  split_ifs with hu
  · rfl
  · exact ceilTimes_nonneg hx (not_le.mp hu)
  · exact Int.tdiv_nonneg hx (not_le.mp hu).le
  · exact add_nonneg (Int.tdiv_nonneg hx (not_le.mp hu).le) one_pos.le
  · exact Int.tdiv_nonneg hx (not_le.mp hu).le
  · rfl

/-- The ways to carry a part of a unit: not at all, to drop it, to add it, to round. -/
def CarryTag (tag : Char) : Prop :=
  tag = CARRY_TAG_NODEAL ∨ tag = CARRY_TAG_DEL ∨ tag = CARRY_TAG_ADD ∨ tag = CARRY_TAG_ROUND

instance (tag : Char) : Decidable (CarryTag tag) := inferInstanceAs (Decidable (_ ∨ _))

/-- Nothing has no units. -/
theorem getTimes_zero (u : Int) (htag : CarryTag tag) : getTimes 0 u tag = 0 := by
  by_cases hu : u ≤ 0
  · exact if_pos hu
  · have hceil := ceilTimes_zero (not_le.mp hu)
    rcases htag with rfl | rfl | rfl | rfl <;>
      simp [getTimes, hu, hceil, CARRY_TAG_NODEAL, CARRY_TAG_DEL, CARRY_TAG_ADD, CARRY_TAG_ROUND]

theorem getDataTimes_zero (u : Int) (htag : CarryTag tag) : getDataTimes 0 u tag = 0 := by
  by_cases hu : u ≤ 0
  · exact if_pos hu
  · have hceil := ceilTimes_zero (not_le.mp hu)
    rcases htag with rfl | rfl | rfl | rfl <;>
      simp [getDataTimes, hu, hceil, CARRY_TAG_NODEAL, CARRY_TAG_DEL, CARRY_TAG_ADD, CARRY_TAG_ROUND]

end Times

/-- What is left of `compute`, when it works the segment out. -/
theorem compute_spec {env : FeeEnv} {s seg : SegFeeInfo} (h : s.compute env = some seg) :
    seg.m_segType = .COM_ADD_SEG ∨
      seg.m_unitCount = computeCount seg ∧
        ∀ t ∈ seg.m_billInfoList, t.m_billValue = billValue seg t := by
  have hbills (u : SegFeeInfo) (hduration : u.m_duration = s.m_duration)
      (hdata : u.m_data = s.m_data) (htag : u.m_intTag = s.m_intTag) :
      ∀ t ∈ computeBills s, t.m_billValue = billValue u t := by
    intro t ht
    obtain ⟨t', -, rfl⟩ := List.mem_map.mp ht
    rcases t' with ⟨id, kind, unitValue, unitFee, value⟩
    cases kind <;> simp [billValue, hduration, hdata, htag]
    omega
  unfold compute at h
  split_ifs at h with htotal hunit hadd
  · obtain rfl := Option.some.inj h
    exact .inr ⟨rfl, hbills _ rfl rfl rfl⟩
  · obtain rfl := Option.some.inj h
    exact .inl hadd
  · obtain rfl := Option.some.inj h
    exact .inr ⟨rfl, hbills _ rfl rfl rfl⟩

/-- A segment without data. -/
def ofTime (m_feePolicyId m_unitTime m_unitFee : Int) (m_startDateTime m_endDateTime : DateTime)
    (m_startSecond m_endSecond : Int) : SegFeeInfo where
  m_tpObjId := 1
  m_feePolicyId := m_feePolicyId
  m_tpId := 1
  m_startDateTime := m_startDateTime
  m_endDateTime := m_endDateTime
  m_duration := m_endSecond - m_startSecond
  m_startSecond := m_startSecond
  m_endSecond := m_endSecond
  m_unitTime := m_unitTime
  m_unitFee := m_unitFee
  m_intTag := CARRY_TAG_ADD
  m_unitCount := 0
  m_value := 0
  m_segType := .FEE_SEG
  m_totalFlag := false
  m_totalUnitFee := 0
  m_pricision := 0
  m_billInfoList := []
  m_data := 0
  m_startData := 0
  m_endData := 0
  m_unitData := 0
  m_rateMethod := .TIME

end SegFeeInfo

end Rate
