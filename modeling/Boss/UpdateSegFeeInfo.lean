import Boss.SegFeeInfo
import Boss.Fuel

/-!
# A segment laid over others

`updateSegFeeInfo` enters a new segment in the list of those that are stored.  The loop goes through
the stored ones; where one of them and the new one cross, it cuts off what they have in common from
the longer one, and goes on with what is left of it.  `Loop` holds what is left of both.

The text ends within the branch for stored data that begin after the new ones at the same instant;
that branch is the fault `cutOff`.

Main results: `loop_outcome` for the loop, `updateSegFeeInfo_overlays_iff` for the call.
-/

namespace Rate

open Spans Fuel

namespace SegFeeInfo

/-- A segment that ends at another point. -/
def endAt (lib : TimeLib) (s : SegFeeInfo) (endDateTime : DateTime) (endSecond endData : Int) :
    SegFeeInfo :=
  { s with
    m_endDateTime := endDateTime
    m_endSecond := endSecond
    m_duration := endDateTime.minus lib s.m_startDateTime
    m_endData := endData
    m_data := endData - s.m_startData }

/-- A segment that starts at another point. -/
def startAt (lib : TimeLib) (s : SegFeeInfo) (startDateTime : DateTime)
    (startSecond startData : Int) : SegFeeInfo :=
  { s with
    m_startDateTime := startDateTime
    m_startSecond := startSecond
    m_duration := s.m_endDateTime.minus lib startDateTime
    m_startData := startData
    m_data := s.m_endData - startData }

/-- Nothing of it is left to be entered. -/
def Entered (s : SegFeeInfo) : Prop := s.m_duration ≤ 0 ∧ s.m_data ≤ 0

instance (s : SegFeeInfo) : Decidable s.Entered := inferInstanceAs (Decidable (_ ∧ _))

/-- The mark of a segment that has been entered. -/
def entered (s : SegFeeInfo) : SegFeeInfo := { s with m_duration := 0, m_data := 0 }

end SegFeeInfo

namespace UpdateSegFeeInfo

inductive Fault
  | zeroUnit | cutOff
deriving DecidableEq, Repr

/-- The list that is made, what is left of the new segment and what is left of the stored ones, the
first of which may have been cut. -/
structure Loop where
  t_midSegFeeInfo : List SegFeeInfo
  t_segFeeInfo : SegFeeInfo
  m_segInfoList : List SegFeeInfo
deriving DecidableEq, Repr

/-- A division that is not guarded. -/
def divided {α : Type} (x : Option α) : Except Fault α := x.elim (.error .zeroUnit) .ok

section Definitions

variable (env : FeeEnv) (lib : TimeLib) (r_exeFlag : Int) (t_midSegFeeInfo : List SegFeeInfo)
  (t_segFeeInfo seg : SegFeeInfo) (rest : List SegFeeInfo)

/-- The stored segment and the new one are the same span. -/
def whole : Except Fault Loop :=
  (divided (t_segFeeInfo.needUpdate env seg r_exeFlag)).map fun update =>
    ⟨t_midSegFeeInfo ++ [if update then t_segFeeInfo else seg], t_segFeeInfo.entered, rest⟩

/-- The new segment ends within the stored one. -/
def endsWithin : Except Fault Loop :=
  (divided ((seg.endAt lib t_segFeeInfo.m_endDateTime t_segFeeInfo.m_endSecond
      t_segFeeInfo.m_endData).compute env)).bind fun t_spSegFeeInfo =>
    (divided (t_segFeeInfo.needUpdate env seg r_exeFlag)).bind fun update =>
      (divided ((seg.startAt lib t_spSegFeeInfo.m_endDateTime t_spSegFeeInfo.m_endSecond
          t_spSegFeeInfo.m_endData).compute env)).map fun left =>
        ⟨t_midSegFeeInfo ++ [if update then t_segFeeInfo else t_spSegFeeInfo],
          t_segFeeInfo.entered, left :: rest⟩

/-- The new segment goes on after the stored one. -/
def goesOn : Except Fault Loop :=
  (divided ((t_segFeeInfo.endAt lib seg.m_endDateTime seg.m_endSecond seg.m_endData).compute
      env)).bind fun t_spSegFeeInfo =>
    (divided (t_segFeeInfo.needUpdate env seg r_exeFlag)).bind fun update =>
      (divided ((t_segFeeInfo.startAt lib t_spSegFeeInfo.m_endDateTime t_spSegFeeInfo.m_endSecond
          t_spSegFeeInfo.m_endData).compute env)).map fun left =>
        ⟨t_midSegFeeInfo ++ [if update then t_spSegFeeInfo else seg], left, rest⟩

/-- The new segment starts within the stored one. -/
def startsWithin : Except Fault Loop :=
  (divided ((seg.endAt lib t_segFeeInfo.m_startDateTime t_segFeeInfo.m_startSecond
      t_segFeeInfo.m_startData).compute env)).bind fun t_spSegFeeInfo =>
    (divided ((seg.startAt lib t_segFeeInfo.m_startDateTime t_segFeeInfo.m_startSecond
        t_segFeeInfo.m_startData).compute env)).map fun left =>
      ⟨t_midSegFeeInfo ++ [t_spSegFeeInfo], t_segFeeInfo, left :: rest⟩

/-- One pass of the loop. -/
def step : Except Fault Loop :=
  if t_segFeeInfo.Entered then .ok ⟨t_midSegFeeInfo ++ [seg], t_segFeeInfo, rest⟩
  else if seg.m_endDateTime.lt lib t_segFeeInfo.m_startDateTime ∨
      seg.m_endDateTime.eq lib t_segFeeInfo.m_startDateTime ∧
        seg.m_endData ≤ t_segFeeInfo.m_startData then
    .ok ⟨t_midSegFeeInfo ++ [seg], t_segFeeInfo, rest⟩
  else if seg.m_startDateTime.gt lib t_segFeeInfo.m_endDateTime ∨
      seg.m_startDateTime.eq lib t_segFeeInfo.m_endDateTime ∧
        seg.m_startData ≥ t_segFeeInfo.m_endData then
    .ok ⟨t_midSegFeeInfo ++ [t_segFeeInfo], t_segFeeInfo.entered, seg :: rest⟩
  else if seg.m_startDateTime.eq lib t_segFeeInfo.m_startDateTime ∧
      seg.m_startData = t_segFeeInfo.m_startData then
    if seg.m_endDateTime.eq lib t_segFeeInfo.m_endDateTime ∧
        seg.m_endData = t_segFeeInfo.m_endData then
      whole env r_exeFlag t_midSegFeeInfo t_segFeeInfo seg rest
    else if seg.m_endDateTime.gt lib t_segFeeInfo.m_endDateTime ∨
        seg.m_endDateTime.eq lib t_segFeeInfo.m_endDateTime ∧
          seg.m_endData > t_segFeeInfo.m_endData then
      endsWithin env lib r_exeFlag t_midSegFeeInfo t_segFeeInfo seg rest
    else goesOn env lib r_exeFlag t_midSegFeeInfo t_segFeeInfo seg rest
  else if seg.m_startDateTime.lt lib t_segFeeInfo.m_startDateTime ∨
      seg.m_startDateTime.eq lib t_segFeeInfo.m_startDateTime ∧
        seg.m_startData < t_segFeeInfo.m_startData then
    startsWithin env lib t_midSegFeeInfo t_segFeeInfo seg rest
  else .error .cutOff

/-- The loop, which does not go on to the next stored segment in every pass. -/
def loop : Nat → Loop → Option (Except Fault Loop)
  | 0, _ => none
  | n + 1, q =>
      match q.m_segInfoList with
      | [] => some (.ok q)
      | seg :: rest =>
          match step env lib r_exeFlag q.t_midSegFeeInfo q.t_segFeeInfo seg rest with
          | .error fault => some (.error fault)
          | .ok q => loop n q

end Definitions

end UpdateSegFeeInfo

open UpdateSegFeeInfo in
/-- `updateSegFeeInfo` as far as its text goes: a segment after all others is added to them. -/
def updateSegFeeInfo (env : FeeEnv) (lib : TimeLib) (m_segInfoList : List SegFeeInfo)
    (r_segFeeInfo : SegFeeInfo) (r_exeFlag : Int) (n : Nat) : Option (Except Fault Loop) :=
  match m_segInfoList.getLast? with
  | none => some (.ok ⟨[r_segFeeInfo], r_segFeeInfo.entered, []⟩)
  | some last =>
      if last.m_endDateTime.lt lib r_segFeeInfo.m_startDateTime ∨
          last.m_endDateTime.eq lib r_segFeeInfo.m_startDateTime ∧
            last.m_endData ≤ r_segFeeInfo.m_startData then
        some (.ok ⟨m_segInfoList ++ [r_segFeeInfo], r_segFeeInfo.entered, []⟩)
      else loop env lib r_exeFlag n ⟨[], r_segFeeInfo, m_segInfoList⟩

/-! ## Divisions by a unit of 0 -/

namespace SegFeeInfo

/-- The price for the whole is for a unit of 0. -/
def ZeroTotal (s : SegFeeInfo) : Prop := s.m_totalFlag = true ∧ s.m_unitTime = 0

instance (s : SegFeeInfo) : Decidable s.ZeroTotal := inferInstanceAs (Decidable (_ ∧ _))

/-- The fees of two segments are compared in units one of which is 0. -/
def ZeroCompared (env : FeeEnv) (r_exeFlag : Int) (s r_right : SegFeeInfo) : Prop :=
  env.prov090 = false ∧
    (s.policy = r_right.policy ∨ r_exeFlag ≠ 1 ∧ r_exeFlag ≠ 2 ∧ r_exeFlag ≠ 3) ∧
    0 < r_right.m_unitFee ∧
    (s.m_rateMethod = .TIME ∧ r_right.m_rateMethod = .TIME ∧
        (s.m_unitTime = 0 ∨ r_right.m_unitTime = 0) ∨
      s.m_rateMethod = .DATA ∧ r_right.m_rateMethod = .DATA ∧
        (s.m_unitData = 0 ∨ r_right.m_unitData = 0))

instance (env : FeeEnv) (r_exeFlag : Int) (s r_right : SegFeeInfo) :
    Decidable (ZeroCompared env r_exeFlag s r_right) := inferInstanceAs (Decidable (_ ∧ _))

/-- The fee of a segment is not computed exactly when its price for the whole is for a unit of 0. -/
theorem compute_eq_none_iff {env : FeeEnv} {s : SegFeeInfo} :
    s.compute env = none ↔ s.ZeroTotal := by
  unfold compute ZeroTotal
  split_ifs with htotal hunit hadd <;> simp_all

/-- Only the fee, the number of units and the totals are computed. -/
theorem compute_some (env : FeeEnv) {s : SegFeeInfo} (h : ¬ s.ZeroTotal) :
    ∃ unitCount value billInfoList, s.compute env = some { s with
      m_unitCount := unitCount, m_value := value, m_billInfoList := billInfoList } := by
  unfold ZeroTotal at h
  unfold compute
  split_ifs with htotal hunit hadd
  · exact absurd ⟨htotal, hunit⟩ h
  · exact ⟨_, _, _, rfl⟩
  · exact ⟨s.m_unitCount, s.m_value, s.m_billInfoList, rfl⟩
  · exact ⟨_, _, _, rfl⟩

/-- The comparison of two unit fees divides by zero exactly when one of the units is zero and the
division is made. -/
theorem lessFee_eq_none_iff {env : FeeEnv} {s r_right : SegFeeInfo}
    {length unit : SegFeeInfo → Int} :
    lessFee env s r_right length unit = none ↔
      env.prov090 = false ∧ (unit s = 0 ∨ unit r_right = 0) := by
  unfold lessFee
  split_ifs with hunit hprov <;> simp_all

/-- Comparing two segments divides by zero exactly when both are rated by the same unit and one of
the units is zero. -/
theorem cheaper_eq_none_iff {env : FeeEnv} {s r_right : SegFeeInfo} :
    cheaper env s r_right = none ↔ env.prov090 = false ∧ 0 < r_right.m_unitFee ∧
      (s.m_rateMethod = .TIME ∧ r_right.m_rateMethod = .TIME ∧
          (s.m_unitTime = 0 ∨ r_right.m_unitTime = 0) ∨
        s.m_rateMethod = .DATA ∧ r_right.m_rateMethod = .DATA ∧
          (s.m_unitData = 0 ∨ r_right.m_unitData = 0)) := by
  unfold cheaper
  by_cases hfee : r_right.m_unitFee ≤ 0
  · simp [hfee, not_lt.mpr hfee]
  · rw [if_neg hfee]
    cases hs : s.m_rateMethod <;> cases hr : r_right.m_rateMethod <;>
      simp [lessFee_eq_none_iff, not_le.mp hfee]

/-- Whether to replace a segment is undecided exactly when the fees are compared in a unit of 0. -/
theorem needUpdate_eq_none_iff {env : FeeEnv} {r_exeFlag : Int} {s r_right : SegFeeInfo} :
    needUpdate env s r_right r_exeFlag = none ↔ ZeroCompared env r_exeFlag s r_right := by
  unfold needUpdate ZeroCompared
  split_ifs with hpolicy h1 h2 h3
  · simp [cheaper_eq_none_iff, hpolicy]
  · simp [hpolicy, h1]
  · simp [hpolicy, h2]
  · simp [hpolicy, h3]
  · simp [cheaper_eq_none_iff, h1, h2, h3]

/-- Without a comparison in a unit of 0 the question whether to replace has an answer. -/
theorem needUpdate_some {env : FeeEnv} {r_exeFlag : Int} {s r_right : SegFeeInfo}
    (h : ¬ ZeroCompared env r_exeFlag s r_right) :
    ∃ update, needUpdate env s r_right r_exeFlag = some update :=
  Option.ne_none_iff_exists'.mp (mt needUpdate_eq_none_iff.mp h)

/-- By force a segment of another policy is replaced. -/
theorem needUpdate_forced (env : FeeEnv) {s r_right : SegFeeInfo}
    (hpolicy : s.policy ≠ r_right.policy) : needUpdate env s r_right 1 = some true := by
  rw [needUpdate, if_neg hpolicy, if_pos rfl]

/-! ## Segments without data -/

/-- It lasts for some time, which is what its clock says, and has no data. -/
structure Timed (lib : TimeLib) (data : Int) (s : SegFeeInfo) : Prop where
  duration : s.m_duration = s.endTime lib - s.startTime lib
  positive : 0 < s.m_duration
  noData : s.m_data = 0
  startData : s.m_startData = data
  endData : s.m_endData = data

/-- A part of a segment has its tariff. -/
structure Part (s p : SegFeeInfo) : Prop where
  policy : p.policy = s.policy
  totalFlag : p.m_totalFlag = s.m_totalFlag
  unitTime : p.m_unitTime = s.m_unitTime
  unitData : p.m_unitData = s.m_unitData
  unitFee : p.m_unitFee = s.m_unitFee
  rateMethod : p.m_rateMethod = s.m_rateMethod

section Parts

variable {env : FeeEnv} {lib : TimeLib} {data r_exeFlag : Int} {s p r_right : SegFeeInfo}

/-- A timed segment ends after its begin. -/
theorem Timed.lt (h : s.Timed lib data) : s.startTime lib < s.endTime lib := by
  have hduration := h.duration
  have hpositive := h.positive
  omega

theorem Timed.not_entered (h : s.Timed lib data) : ¬ s.Entered := fun hentered =>
  absurd hentered.1 (not_le.mpr h.positive)

theorem Part.refl (s : SegFeeInfo) : Part s s := ⟨rfl, rfl, rfl, rfl, rfl, rfl⟩

/-- A part has a price for a unit of 0 exactly when the whole has. -/
theorem Part.zeroTotal_iff (h : Part s p) : p.ZeroTotal ↔ s.ZeroTotal := by
  rw [ZeroTotal, ZeroTotal, h.totalFlag, h.unitTime]

/-- A part is compared in a unit of 0 exactly when the whole is. -/
theorem Part.zeroCompared_iff (h : Part s p) :
    ZeroCompared env r_exeFlag p r_right ↔ ZeroCompared env r_exeFlag s r_right := by
  simp only [ZeroCompared, h.policy, h.unitTime, h.unitData, h.rateMethod]

/-- A segment is compared with a part in a unit of 0 exactly when it is with the whole. -/
theorem Part.zeroCompared_right_iff (h : Part s p) :
    ZeroCompared env r_exeFlag r_right p ↔ ZeroCompared env r_exeFlag r_right s := by
  simp only [ZeroCompared, h.policy, h.unitTime, h.unitData, h.unitFee, h.rateMethod]

/-- The part up to a point. -/
theorem endAt_compute (env : FeeEnv) (hs : s.Timed lib data) (hzero : ¬ s.ZeroTotal) {e : DateTime}
    (he : s.startTime lib < e.time lib) (endSecond : Int) :
    ∃ p, (s.endAt lib e endSecond data).compute env = some p ∧ p.Timed lib data ∧ Part s p ∧
      p.startTime lib = s.startTime lib ∧ p.m_endDateTime = e := by
  obtain ⟨unitCount, value, billInfoList, hcompute⟩ :=
    compute_some env (s := s.endAt lib e endSecond data) hzero
  refine ⟨_, hcompute, ⟨rfl, sub_pos.mpr he, ?_, hs.startData, rfl⟩, ⟨rfl, rfl, rfl, rfl, rfl, rfl⟩,
    rfl, rfl⟩
  exact sub_eq_zero.mpr hs.startData.symm

theorem endAt_compute_none (hzero : s.ZeroTotal) {e : DateTime} {endSecond endData : Int} :
    (s.endAt lib e endSecond endData).compute env = none := compute_eq_none_iff.mpr hzero

/-- The part from a point on. -/
theorem startAt_compute (env : FeeEnv) (hs : s.Timed lib data) (hzero : ¬ s.ZeroTotal) {e : DateTime}
    (he : e.time lib < s.endTime lib) (startSecond : Int) :
    ∃ p, (s.startAt lib e startSecond data).compute env = some p ∧ p.Timed lib data ∧ Part s p ∧
      p.startTime lib = e.time lib ∧ p.endTime lib = s.endTime lib := by
  obtain ⟨unitCount, value, billInfoList, hcompute⟩ :=
    compute_some env (s := s.startAt lib e startSecond data) hzero
  refine ⟨_, hcompute, ⟨rfl, sub_pos.mpr he, ?_, rfl, hs.endData⟩, ⟨rfl, rfl, rfl, rfl, rfl, rfl⟩,
    rfl, rfl⟩
  exact sub_eq_zero.mpr hs.endData

end Parts

/-- The segments follow one another from `a` to `b`, without data. -/
structure Covers (lib : TimeLib) (data a : Int) (segs : List SegFeeInfo) (b : Int) : Prop where
  leads : Leads (startTime lib) (endTime lib) a segs b
  timed : ∀ s ∈ segs, s.Timed lib data

/-- The policy at an instant. -/
def policyAt (lib : TimeLib) (segs : List SegFeeInfo) (t : Int) : Option (Int × Int × Int) :=
  valueAt (startTime lib) (endTime lib) policy segs t

/-- `out` is the list with the segment `new` in it. -/
structure Overlaid (lib : TimeLib) (data a : Int) (segs : List SegFeeInfo) (new : SegFeeInfo)
    (r_exeFlag : Int) (out : List SegFeeInfo) (b : Int) : Prop where
  covers : Covers lib data a out b
  outside : ∀ t, a ≤ t → t < b → ¬ Within (startTime lib) (endTime lib) t new →
    policyAt lib out t = policyAt lib segs t
  inside : ∀ t, a ≤ t → t < b → Within (startTime lib) (endTime lib) t new →
    policyAt lib out t = policyAt lib segs t ∨ policyAt lib out t = some new.policy
  forced : r_exeFlag = 1 → ∀ t, a ≤ t → t < b → Within (startTime lib) (endTime lib) t new →
    policyAt lib segs t ≠ some new.policy → policyAt lib out t = some new.policy

section Covers

variable {lib : TimeLib} {data a b m r_exeFlag : Int} {s new new' pick : SegFeeInfo}
  {segs segs' rest out : List SegFeeInfo}

/-- A cover is a timed segment from its begin on and a cover of the rest. -/
theorem covers_cons :
    Covers lib data a (s :: rest) b ↔
      (s.Timed lib data ∧ s.startTime lib = a) ∧ Covers lib data (s.endTime lib) rest b := by
  constructor
  · rintro ⟨⟨hstart, hleads⟩, htimed⟩
    rw [List.forall_mem_cons] at htimed
    exact ⟨⟨htimed.1, hstart⟩, hleads, htimed.2⟩
  · rintro ⟨⟨htimed, hstart⟩, hleads, hrest⟩
    exact ⟨⟨hstart, hleads⟩, List.forall_mem_cons.mpr ⟨htimed, hrest⟩⟩

theorem Covers.start_le (h : Covers lib data a segs b) (hs : s ∈ segs) : a ≤ s.startTime lib :=
  (h.leads.bounds (fun x hx => (h.timed x hx).lt.le) hs).1

theorem Covers.le (h : Covers lib data a segs b) : a ≤ b :=
  h.leads.le fun x hx => (h.timed x hx).lt.le

/-- Only what the stored list has at each instant matters. -/
theorem Overlaid.congr (h : Overlaid lib data a segs new r_exeFlag out b)
    (hsame : ∀ t, policyAt lib segs t = policyAt lib segs' t) :
    Overlaid lib data a segs' new r_exeFlag out b := by
  refine ⟨h.covers, ?_, ?_, ?_⟩
  · simpa only [hsame] using h.outside
  · simpa only [hsame] using h.inside
  · simpa only [hsame] using h.forced

/-- What is stored after the new segment is as it was. -/
theorem overlaid_after (h : Covers lib data m rest b) (hnew : new.endTime lib ≤ m) :
    Overlaid lib data m rest new r_exeFlag rest b := by
  refine ⟨h, fun t _ _ _ => rfl, fun t ht _ hin => ?_, fun _ t ht _ hin => ?_⟩
  · exact absurd hin.2 (not_lt.mpr (hnew.trans ht))
  · exact absurd hin.2 (not_lt.mpr (hnew.trans ht))

/-- A stored segment before the new one is as it was. -/
theorem Overlaid.keep (hs : s.Timed lib data) (hbefore : s.endTime lib ≤ new.startTime lib)
    (h : Overlaid lib data (s.endTime lib) rest new r_exeFlag out b) :
    Overlaid lib data (s.startTime lib) (s :: rest) new r_exeFlag (s :: out) b := by
  have hsplit : ∀ t, s.startTime lib ≤ t →
      ¬ Within (startTime lib) (endTime lib) t new ∧
          policyAt lib (s :: out) t = policyAt lib (s :: rest) t ∨
        s.endTime lib ≤ t ∧ policyAt lib (s :: out) t = policyAt lib out t ∧
          policyAt lib (s :: rest) t = policyAt lib rest t := by
    intro t ht
    by_cases hin : t < s.endTime lib
    · have hwithin : Within (startTime lib) (endTime lib) t s := ⟨ht, hin⟩
      refine .inl ⟨fun hnew => absurd (hbefore.trans hnew.1) (not_le.mpr hin), ?_⟩
      rw [policyAt, policyAt, valueAt_of_within hwithin, valueAt_of_within hwithin]
    · have hwithin : ¬ Within (startTime lib) (endTime lib) t s := fun hw => hin hw.2
      exact .inr ⟨not_lt.mp hin, valueAt_of_not_within hwithin, valueAt_of_not_within hwithin⟩
  refine ⟨covers_cons.mpr ⟨⟨hs, rfl⟩, h.covers⟩, fun t hlow hhigh hin => ?_,
    fun t hlow hhigh hin => ?_, fun hflag t hlow hhigh hin hold => ?_⟩
  all_goals rcases hsplit t hlow with ⟨hout, hsame⟩ | ⟨hlater, hnew, hold'⟩
  · exact hsame
  · rw [hnew, hold']
    exact h.outside t hlater hhigh hin
  · exact .inl hsame
  · rw [hnew, hold']
    exact h.inside t hlater hhigh hin
  · exact absurd hin hout
  · rw [hnew]
    rw [hold'] at hold
    exact h.forced hflag t hlater hhigh hin hold

/-- What is listed for a stored segment that lies within the new one. -/
structure Picked (lib : TimeLib) (data r_exeFlag : Int) (new s pick : SegFeeInfo) : Prop where
  timed : pick.Timed lib data
  startTime : pick.startTime lib = s.startTime lib
  endTime : pick.endTime lib = s.endTime lib
  policy : pick.policy = s.policy ∨ pick.policy = new.policy
  forced : r_exeFlag = 1 → s.policy ≠ new.policy → pick.policy = new.policy

/-- A stored segment within the new one may be replaced. -/
theorem Overlaid.replace (hpick : Picked lib data r_exeFlag new s pick)
    (hlow : new.startTime lib ≤ s.startTime lib) (hhigh : s.endTime lib ≤ new.endTime lib)
    (h : Overlaid lib data (s.endTime lib) rest new' r_exeFlag out b)
    (hpolicy : new'.policy = new.policy)
    (hnew : ∀ t, s.endTime lib ≤ t →
      (Within (SegFeeInfo.startTime lib) (SegFeeInfo.endTime lib) t new' ↔
        Within (SegFeeInfo.startTime lib) (SegFeeInfo.endTime lib) t new)) :
    Overlaid lib data (s.startTime lib) (s :: rest) new r_exeFlag (pick :: out) b := by
  have hsplit : ∀ t, s.startTime lib ≤ t →
      Within (SegFeeInfo.startTime lib) (SegFeeInfo.endTime lib) t new ∧
          policyAt lib (pick :: out) t = some pick.policy ∧
          policyAt lib (s :: rest) t = some s.policy ∨
        s.endTime lib ≤ t ∧ policyAt lib (pick :: out) t = policyAt lib out t ∧
          policyAt lib (s :: rest) t = policyAt lib rest t := by
    intro t ht
    by_cases hin : t < s.endTime lib
    · exact .inl ⟨⟨hlow.trans ht, hin.trans_le hhigh⟩,
        valueAt_of_within ⟨hpick.startTime.trans_le ht, hin.trans_eq hpick.endTime.symm⟩,
        valueAt_of_within ⟨ht, hin⟩⟩
    · exact .inr ⟨not_lt.mp hin,
        valueAt_of_not_within fun hw => hin (hw.2.trans_eq hpick.endTime),
        valueAt_of_not_within fun hw => hin hw.2⟩
  have hcovers := h.covers
  rw [← hpick.endTime] at hcovers
  refine ⟨covers_cons.mpr ⟨⟨hpick.timed, hpick.startTime⟩, hcovers⟩, fun t hstart hend hin => ?_,
    fun t hstart hend hin => ?_, fun hflag t hstart hend hin hold => ?_⟩
  all_goals rcases hsplit t hstart with ⟨hwithin, hout, hstored⟩ | ⟨hlater, hout, hstored⟩
  · exact absurd hwithin hin
  · rw [hout, hstored]
    exact h.outside t hlater hend (mt (hnew t hlater).mp hin)
  · rw [hout, hstored]
    exact hpick.policy.imp (congrArg some) (congrArg some)
  · rw [hout, hstored, ← hpolicy]
    exact h.inside t hlater hend ((hnew t hlater).mpr hin)
  · rw [hout]
    rw [hstored] at hold
    exact congrArg some (hpick.forced hflag fun hsame => hold (congrArg some hsame))
  · rw [hout, ← hpolicy]
    rw [hstored, ← hpolicy] at hold
    exact h.forced hflag t hlater hend ((hnew t hlater).mpr hin) hold

end Covers

/-- Entering `new` where the stored segment `s` is divides by a unit of 0: to compare the two, to
compute a part of the stored one, or to compute a part of the new one. -/
def ZeroUnit (env : FeeEnv) (lib : TimeLib) (r_exeFlag : Int) (new s : SegFeeInfo) : Prop :=
  ZeroCompared env r_exeFlag new s ∨
    s.ZeroTotal ∧ (s.startTime lib < new.startTime lib ∨ new.endTime lib < s.endTime lib) ∨
    new.ZeroTotal ∧ s.endTime lib < new.endTime lib

instance (env : FeeEnv) (lib : TimeLib) (r_exeFlag : Int) (new s : SegFeeInfo) :
    Decidable (ZeroUnit env lib r_exeFlag new s) := inferInstanceAs (Decidable (_ ∨ _))

/-- No stored segment that the new one crosses leads to such a division. -/
def Clear (env : FeeEnv) (lib : TimeLib) (r_exeFlag : Int) (new : SegFeeInfo)
    (segs : List SegFeeInfo) : Prop :=
  ∀ s ∈ segs, s.startTime lib < new.endTime lib → new.startTime lib < s.endTime lib →
    ¬ ZeroUnit env lib r_exeFlag new s

instance (env : FeeEnv) (lib : TimeLib) (r_exeFlag : Int) (new : SegFeeInfo)
    (segs : List SegFeeInfo) : Decidable (Clear env lib r_exeFlag new segs) :=
  inferInstanceAs (Decidable (∀ s ∈ segs, _))

section Clear

variable {env : FeeEnv} {lib : TimeLib} {data b m r_exeFlag : Int} {s new left : SegFeeInfo}
  {rest : List SegFeeInfo}

/-- A stored segment that ends before the new one begins leads to no division. -/
theorem clear_before (hs : s.endTime lib ≤ new.startTime lib) :
    Clear env lib r_exeFlag new (s :: rest) ↔ Clear env lib r_exeFlag new rest := by
  rw [Clear, List.forall_mem_cons]
  exact and_iff_right fun _ hcross => absurd hcross (not_lt.mpr hs)

/-- A stored segment that the new one crosses must not lead to a division by 0, nor those behind it.
-/
theorem clear_cross (hlow : s.startTime lib < new.endTime lib)
    (hhigh : new.startTime lib < s.endTime lib) :
    Clear env lib r_exeFlag new (s :: rest) ↔
      ¬ ZeroUnit env lib r_exeFlag new s ∧ Clear env lib r_exeFlag new rest := by
  rw [Clear, List.forall_mem_cons]
  exact and_congr_left fun _ => ⟨fun h => h hlow hhigh, fun h _ _ => h⟩

/-- Stored segments that begin behind the new one lead to no division. -/
theorem clear_after (h : Covers lib data m rest b) (hnew : new.endTime lib ≤ m) :
    Clear env lib r_exeFlag new rest := fun _ hs hcross _ =>
  absurd hcross (not_lt.mpr (hnew.trans (h.start_le hs)))

/-- What is left of the new segment meets the segments that are left as the whole does. -/
theorem clear_left (h : Covers lib data m rest b) (hpart : Part new left)
    (hlow : new.startTime lib ≤ m) (hstart : left.startTime lib = m)
    (hend : left.endTime lib = new.endTime lib) :
    Clear env lib r_exeFlag left rest ↔ Clear env lib r_exeFlag new rest := by
  refine forall₂_congr fun s hs => ?_
  have hm := h.start_le hs
  have hlt := (h.timed s hs).lt
  have hunit : ZeroUnit env lib r_exeFlag left s ↔ ZeroUnit env lib r_exeFlag new s := by
    have hleft : ¬ s.startTime lib < left.startTime lib := by omega
    have hnew : ¬ s.startTime lib < new.startTime lib := by omega
    simp only [ZeroUnit, hpart.zeroCompared_iff, hpart.zeroTotal_iff, hend, hleft, hnew]
  have hleft : left.startTime lib < s.endTime lib := by omega
  have hnew : new.startTime lib < s.endTime lib := by omega
  simp only [hend, hunit, hleft, hnew]

end Clear

end SegFeeInfo

/-! ## The loop -/

namespace UpdateSegFeeInfo

open SegFeeInfo

section Steps

variable {env : FeeEnv} {lib : TimeLib} {data m b r_exeFlag : Int} {mid rest : List SegFeeInfo}
  {t seg : SegFeeInfo} {q : Loop} {fault : Fault} {result : Except Fault Loop}

/-- Without data the clock decides. -/
theorem step_eq (env : FeeEnv) (r_exeFlag : Int) (mid rest : List SegFeeInfo)
    (ht : t.Timed lib data) (hseg : seg.Timed lib data) :
    step env lib r_exeFlag mid t seg rest =
      if seg.endTime lib ≤ t.startTime lib then .ok ⟨mid ++ [seg], t, rest⟩
      else if t.endTime lib ≤ seg.startTime lib then .ok ⟨mid ++ [t], t.entered, seg :: rest⟩
      else if seg.startTime lib = t.startTime lib then
        if seg.endTime lib = t.endTime lib then whole env r_exeFlag mid t seg rest
        else if t.endTime lib < seg.endTime lib then endsWithin env lib r_exeFlag mid t seg rest
        else goesOn env lib r_exeFlag mid t seg rest
      else if seg.startTime lib < t.startTime lib then startsWithin env lib mid t seg rest
      else .error .cutOff := by
  have hbefore (x y : Int) : (x < y ∨ x = y) = (x ≤ y) := propext le_iff_lt_or_eq.symm
  have hafter (x y : Int) : (x < y ∨ y = x) = (x ≤ y) := by rw [← hbefore, @eq_comm _ x]
  rw [step, if_neg ht.not_entered]
  simp only [DateTime.lt_iff, DateTime.eq_iff, DateTime.gt_iff, ht.startData, ht.endData,
    hseg.startData, hseg.endData, ge_iff_le, le_refl, lt_irrefl, and_true, and_false, or_false,
    hbefore, hafter]
  rfl

/-- One step that succeeds, and then the rest of the loop. -/
theorem loop_ok (hstep : step env lib r_exeFlag mid t seg rest = .ok q)
    (h : Settles (fun n => loop env lib r_exeFlag n q) result) :
    Settles (fun n => loop env lib r_exeFlag n ⟨mid, t, seg :: rest⟩) result :=
  h.succ fun n => by simp only [loop, hstep]

/-- One step that divides by zero ends the loop. -/
theorem loop_error (hstep : step env lib r_exeFlag mid t seg rest = .error fault) :
    Settles (fun n => loop env lib r_exeFlag n ⟨mid, t, seg :: rest⟩) (.error fault) :=
  (settles_some _).succ fun n => by simp only [loop, hstep]

theorem loop_nil : Settles (fun n => loop env lib r_exeFlag n ⟨mid, t, []⟩) (.ok ⟨mid, t, []⟩) :=
  (settles_some _).succ fun n => by simp only [loop]

/-- When the new segment has been entered the stored ones are listed as they are. -/
theorem loop_entered (ht : t.Entered) :
    Settles (fun n => loop env lib r_exeFlag n ⟨mid, t, rest⟩) (.ok ⟨mid ++ rest, t, []⟩) := by
  induction rest generalizing mid with
  | nil => simpa using loop_nil
  | cons seg rest ih =>
      have hstep : step env lib r_exeFlag mid t seg rest = .ok ⟨mid ++ [seg], t, rest⟩ := by
        rw [step, if_pos ht]
      have hloop : Settles (fun n => loop env lib r_exeFlag n ⟨mid ++ [seg], t, rest⟩)
          (.ok ⟨mid ++ [seg] ++ rest, t, []⟩) := ih
      simpa using loop_ok hstep hloop

theorem entered_entered (t : SegFeeInfo) : t.entered.Entered := ⟨le_rfl, le_rfl⟩

variable (env lib data r_exeFlag mid t) in
/-- What comes of the loop: the overlaid list, or a division by 0. -/
def Outcome (a : Int) (todo : List SegFeeInfo) (b : Int) : Prop :=
  Clear env lib r_exeFlag t todo ∧
      (∃ out left, Settles (fun n => loop env lib r_exeFlag n ⟨mid, t, todo⟩)
          (.ok ⟨mid ++ out, left, []⟩) ∧
        left.Entered ∧ Overlaid lib data a todo t r_exeFlag out b) ∨
    ¬ Clear env lib r_exeFlag t todo ∧
      Settles (fun n => loop env lib r_exeFlag n ⟨mid, t, todo⟩) (.error .zeroUnit)

/-- A step that divides by 0 is the second outcome. -/
theorem outcome_error {a : Int} (hclear : ¬ Clear env lib r_exeFlag t (seg :: rest))
    (hstep : step env lib r_exeFlag mid t seg rest = .error .zeroUnit) :
    Outcome env lib data r_exeFlag mid t a (seg :: rest) b := .inr ⟨hclear, loop_error hstep⟩

/-- One segment is listed, and after it what comes of the rest. -/
theorem outcome_listed {a : Int} {pick left t' : SegFeeInfo} {todo out : List SegFeeInfo}
    (hclear : Clear env lib r_exeFlag t (seg :: rest))
    (hstep : step env lib r_exeFlag mid t seg rest = .ok ⟨mid ++ [pick], t', todo⟩)
    (hloop : Settles (fun n => loop env lib r_exeFlag n ⟨mid ++ [pick], t', todo⟩)
      (.ok ⟨mid ++ [pick] ++ out, left, []⟩))
    (hleft : left.Entered)
    (hout : Overlaid lib data a (seg :: rest) t r_exeFlag (pick :: out) b) :
    Outcome env lib data r_exeFlag mid t a (seg :: rest) b := by
  refine .inl ⟨hclear, pick :: out, left, ?_, hleft, hout⟩
  simpa only [List.append_assoc, List.singleton_append] using loop_ok hstep hloop

/-- What `needUpdate` chooses. -/
theorem picked {update : Bool} {s new : SegFeeInfo}
    (hupdate : t.needUpdate env seg r_exeFlag = some update) (hs : s.Timed lib data)
    (hspolicy : s.policy = seg.policy) (hnew : new.Timed lib data)
    (hnewpolicy : new.policy = t.policy)
    (hstart : new.startTime lib = s.startTime lib) (hend : new.endTime lib = s.endTime lib) :
    Picked lib data r_exeFlag t s (if update then new else s) := by
  cases update with
  | true => exact ⟨hnew, hstart, hend, .inr hnewpolicy, fun _ _ => hnewpolicy⟩
  | false =>
      refine ⟨hs, rfl, rfl, .inl rfl, fun hflag hpolicy => ?_⟩
      rw [hspolicy] at hpolicy
      rw [hflag, needUpdate_forced env hpolicy.symm] at hupdate
      exact absurd hupdate (by decide)

/-- A quotient that does not exist is the error. -/
theorem divided_none {α : Type} {x : Option α} (h : x = none) : divided x = .error .zeroUnit := by
  rw [h]
  rfl

/-- A quotient that exists is no error. -/
theorem divided_some {α : Type} {x : Option α} {a : α} (h : x = some a) : divided x = .ok a := by
  rw [h]
  rfl

section Crossing

variable (ht : t.Timed lib data) (hseg : seg.Timed lib data)
  (hrest : Covers lib data (seg.endTime lib) rest b) (hstart : seg.startTime lib = t.startTime lib)

include ht hseg hrest hstart

/-- The two are one span. -/
theorem outcome_whole (hend : seg.endTime lib = t.endTime lib) :
    Outcome env lib data r_exeFlag mid t (seg.startTime lib) (seg :: rest) b := by
  have htlt := ht.lt
  have hstep : step env lib r_exeFlag mid t seg rest = whole env r_exeFlag mid t seg rest := by
    rw [step_eq env r_exeFlag mid rest ht hseg, if_neg (by omega), if_neg (by omega), if_pos hstart,
      if_pos hend]
  have hclear : Clear env lib r_exeFlag t (seg :: rest) ↔ ¬ ZeroCompared env r_exeFlag t seg := by
    rw [clear_cross (by omega) (by omega), and_iff_left (clear_after hrest hend.symm.le)]
    simp [ZeroUnit, hstart, hend]
  by_cases hzero : ZeroCompared env r_exeFlag t seg
  · refine outcome_error (fun h => hclear.mp h hzero) ?_
    rw [hstep, whole, divided_none (needUpdate_eq_none_iff.mpr hzero)]
    rfl
  · obtain ⟨update, hupdate⟩ := needUpdate_some hzero
    have hpick : Picked lib data r_exeFlag t seg (if update then t else seg) :=
      picked hupdate hseg rfl ht rfl hstart.symm hend.symm
    refine outcome_listed (hclear.mpr hzero) ?_
      (loop_entered (entered_entered t)) (entered_entered t)
      (Overlaid.replace hpick hstart.symm.le hend.le (overlaid_after hrest hend.symm.le) rfl
        fun _ _ => Iff.rfl)
    rw [hstep, whole, divided_some hupdate]
    rfl

/-- The new segment ends first. -/
theorem outcome_endsWithin (hend : t.endTime lib < seg.endTime lib) :
    Outcome env lib data r_exeFlag mid t (seg.startTime lib) (seg :: rest) b := by
  have htlt := ht.lt
  have hstep : step env lib r_exeFlag mid t seg rest =
      endsWithin env lib r_exeFlag mid t seg rest := by
    rw [step_eq env r_exeFlag mid rest ht hseg, if_neg (by omega), if_neg (by omega), if_pos hstart,
      if_neg (by omega), if_pos hend]
  have hclear : Clear env lib r_exeFlag t (seg :: rest) ↔
      ¬ seg.ZeroTotal ∧ ¬ ZeroCompared env r_exeFlag t seg := by
    rw [clear_cross (by omega) (by omega), and_iff_left (clear_after hrest hend.le)]
    simp [ZeroUnit, hstart, hend, not_lt.mpr hend.le, and_comm]
  by_cases htotal : seg.ZeroTotal
  · refine outcome_error (fun h => (hclear.mp h).1 htotal) ?_
    rw [hstep, endsWithin, divided_none (endAt_compute_none htotal)]
    rfl
  obtain ⟨p, hcompute, hp, hpart, hpstart, hpend⟩ :=
    endAt_compute env hseg htotal (e := t.m_endDateTime) (by rw [hstart]; exact htlt) t.m_endSecond
  rw [← ht.endData] at hcompute
  by_cases hzero : ZeroCompared env r_exeFlag t seg
  · refine outcome_error (fun h => (hclear.mp h).2 hzero) ?_
    rw [hstep, endsWithin, divided_some hcompute, divided_none (needUpdate_eq_none_iff.mpr hzero)]
    rfl
  obtain ⟨update, hupdate⟩ := needUpdate_some hzero
  have hpend' : p.endTime lib = t.endTime lib := congrArg (DateTime.time lib) hpend
  obtain ⟨left, hcompute', hleft, hlpart, hlstart, hlend⟩ :=
    startAt_compute env hseg htotal (e := p.m_endDateTime) (hpend'.trans_lt hend) p.m_endSecond
  rw [← hp.endData] at hcompute'
  -- for what is listed it is as if the stored segment had been two, the first of them replaced
  have hcovers : Covers lib data (p.endTime lib) (left :: rest) b :=
    covers_cons.mpr ⟨⟨hleft, hlstart⟩, hlend.symm ▸ hrest⟩
  have hpick := picked hupdate hp hpart.policy ht rfl (hstart.symm.trans hpstart.symm) hpend'.symm
  have hsplit (x : Int) : policyAt lib (p :: left :: rest) x = policyAt lib (seg :: rest) x :=
    valueAt_split hpstart hlstart.symm hlend (hpstart ▸ hp.lt.le) (hlend ▸ hleft.lt.le) hpart.policy
      hlpart.policy
  have hout := (Overlaid.replace hpick (hstart.symm.trans hpstart.symm).le hpend'.le
    (overlaid_after hcovers hpend'.symm.le) rfl fun _ _ => Iff.rfl).congr hsplit
  rw [hpstart] at hout
  refine outcome_listed (hclear.mpr ⟨htotal, hzero⟩) ?_
    (loop_entered (entered_entered t)) (entered_entered t) hout
  rw [hstep, endsWithin, divided_some hcompute, divided_some hupdate]
  exact congrArg (Except.map _) (divided_some hcompute')

variable (hb : t.endTime lib ≤ b)
  (ih : ∀ mid t, t.Timed lib data → seg.endTime lib ≤ t.startTime lib → t.endTime lib ≤ b →
    Outcome env lib data r_exeFlag mid t (seg.endTime lib) rest b)

include hb ih

/-- The stored segment ends first; what is left of the new one meets those after it. -/
theorem outcome_goesOn (hend : seg.endTime lib < t.endTime lib) :
    Outcome env lib data r_exeFlag mid t (seg.startTime lib) (seg :: rest) b := by
  have hseglt := hseg.lt
  have hstep : step env lib r_exeFlag mid t seg rest = goesOn env lib r_exeFlag mid t seg rest := by
    rw [step_eq env r_exeFlag mid rest ht hseg, if_neg (by omega), if_neg (by omega), if_pos hstart,
      if_neg (by omega), if_neg (by omega)]
  have hclear : Clear env lib r_exeFlag t (seg :: rest) ↔
      (¬ t.ZeroTotal ∧ ¬ ZeroCompared env r_exeFlag t seg) ∧ Clear env lib r_exeFlag t rest := by
    rw [clear_cross (by omega) (by omega)]
    simp [ZeroUnit, hstart, hend, not_lt.mpr hend.le, and_comm]
  by_cases htotal : t.ZeroTotal
  · refine outcome_error (fun h => (hclear.mp h).1.1 htotal) ?_
    rw [hstep, goesOn, divided_none (endAt_compute_none htotal)]
    rfl
  obtain ⟨p, hcompute, hp, hpart, hpstart, hpend⟩ :=
    endAt_compute env ht htotal (e := seg.m_endDateTime) (by rw [← hstart]; exact hseglt)
      seg.m_endSecond
  rw [← hseg.endData] at hcompute
  by_cases hzero : ZeroCompared env r_exeFlag t seg
  · refine outcome_error (fun h => (hclear.mp h).1.2 hzero) ?_
    rw [hstep, goesOn, divided_some hcompute, divided_none (needUpdate_eq_none_iff.mpr hzero)]
    rfl
  obtain ⟨update, hupdate⟩ := needUpdate_some hzero
  have hpend' : p.endTime lib = seg.endTime lib := congrArg (DateTime.time lib) hpend
  obtain ⟨left, hcompute', hleft, hlpart, hlstart, hlend⟩ :=
    startAt_compute env ht htotal (e := p.m_endDateTime) (hpend'.trans_lt hend) p.m_endSecond
  rw [← hp.endData] at hcompute'
  have hlstart' : left.startTime lib = seg.endTime lib := hlstart.trans hpend'
  have hpick := picked hupdate hseg rfl hp hpart.policy (hpstart.trans hstart.symm) hpend'
  have hstep' : step env lib r_exeFlag mid t seg rest =
      .ok ⟨mid ++ [if update then p else seg], left, rest⟩ := by
    rw [hstep, goesOn, divided_some hcompute, divided_some hupdate]
    exact congrArg (Except.map _) (divided_some hcompute')
  have hsame : Clear env lib r_exeFlag left rest ↔ Clear env lib r_exeFlag t rest :=
    clear_left hrest hlpart (by omega) hlstart' hlend
  rcases ih (mid ++ [if update then p else seg]) left hleft hlstart'.ge (hlend.trans_le hb) with
    ⟨hrestClear, out, left', hloop, hentered, hout⟩ | ⟨hrestClear, hloop⟩
  · refine outcome_listed (hclear.mpr ⟨⟨htotal, hzero⟩, hsame.mp hrestClear⟩) hstep' hloop hentered
      (Overlaid.replace hpick hstart.symm.le hend.le hout hlpart.policy fun x hx => ?_)
    unfold Within
    omega
  · exact .inr ⟨fun h => hrestClear (hsame.mpr (hclear.mp h).2), loop_ok hstep' hloop⟩

/-- The two start together. -/
theorem outcome_starts :
    Outcome env lib data r_exeFlag mid t (seg.startTime lib) (seg :: rest) b := by
  rcases lt_trichotomy (seg.endTime lib) (t.endTime lib) with hend | hend | hend
  · exact outcome_goesOn ht hseg hrest hstart hb ih hend
  · exact outcome_whole ht hseg hrest hstart hend
  · exact outcome_endsWithin ht hseg hrest hstart hend

end Crossing

/-- The new segment starts within the stored one, which is cut there. -/
theorem outcome_startsWithin (ht : t.Timed lib data) (hseg : seg.Timed lib data)
    (hrest : Covers lib data (seg.endTime lib) rest b)
    (hlow : seg.startTime lib < t.startTime lib) (hhigh : t.startTime lib < seg.endTime lib)
    (hb : t.endTime lib ≤ b)
    (ih : ∀ mid t, t.Timed lib data → seg.endTime lib ≤ t.startTime lib → t.endTime lib ≤ b →
      Outcome env lib data r_exeFlag mid t (seg.endTime lib) rest b) :
    Outcome env lib data r_exeFlag mid t (seg.startTime lib) (seg :: rest) b := by
  have htlt := ht.lt
  have hstep : step env lib r_exeFlag mid t seg rest = startsWithin env lib mid t seg rest := by
    rw [step_eq env r_exeFlag mid rest ht hseg, if_neg (by omega), if_neg (by omega),
      if_neg (by omega), if_pos hlow]
  by_cases htotal : seg.ZeroTotal
  · refine outcome_error (fun h => ?_) ?_
    · exact ((clear_cross (by omega) hhigh).mp h).1 (.inr (.inl ⟨htotal, .inl hlow⟩))
    · rw [hstep, startsWithin, divided_none (endAt_compute_none htotal)]
      rfl
  obtain ⟨p, hcompute, hp, hpart, hpstart, hpend⟩ :=
    endAt_compute env hseg htotal (e := t.m_startDateTime) hlow t.m_startSecond
  obtain ⟨left, hcompute', hleft, hlpart, hlstart, hlend⟩ :=
    startAt_compute env hseg htotal (e := t.m_startDateTime) hhigh t.m_startSecond
  rw [← ht.startData] at hcompute hcompute'
  have hpend' : p.endTime lib = t.startTime lib := congrArg (DateTime.time lib) hpend
  have hstep' : step env lib r_exeFlag mid t seg rest = .ok ⟨mid ++ [p], t, left :: rest⟩ := by
    rw [hstep, startsWithin, divided_some hcompute]
    exact congrArg (Except.map _) (divided_some hcompute')
  have hlstart' : left.startTime lib = t.startTime lib := hlstart
  have hclear : Clear env lib r_exeFlag t (seg :: rest) ↔
      Clear env lib r_exeFlag t (left :: rest) := by
    rw [clear_cross (by omega) hhigh, clear_cross (by omega) (by omega)]
    simp only [ZeroUnit, hlpart.zeroCompared_right_iff, hlpart.zeroTotal_iff, htotal, hlend,
      false_and]
  have hsplit (x : Int) : policyAt lib (p :: left :: rest) x = policyAt lib (seg :: rest) x :=
    valueAt_split hpstart (hpend'.trans hlstart'.symm) hlend (hpstart ▸ hp.lt.le)
      (hlend ▸ hleft.lt.le) hpart.policy hlpart.policy
  -- from the cut on the two start together
  rw [← hlend] at hrest ih
  have hstarts : Outcome env lib data r_exeFlag (mid ++ [p]) t (left.startTime lib)
      (left :: rest) b := outcome_starts ht hleft hrest hlstart' hb ih
  rcases hstarts with
    ⟨hleftClear, out, left', hloop, hentered, hout⟩ | ⟨hleftClear, hloop⟩
  · rw [hlstart', ← hpend'] at hout
    have hkeep := (Overlaid.keep hp hpend'.le hout).congr hsplit
    rw [hpstart] at hkeep
    exact outcome_listed (hclear.mpr hleftClear) hstep' hloop hentered hkeep
  · exact .inr ⟨fun h => hleftClear (hclear.mp h), loop_ok hstep' hloop⟩

/-- **What comes of the loop**, for a new segment that the stored ones cover. -/
theorem loop_outcome {a : Int} {segs : List SegFeeInfo} (hsegs : Covers lib data a segs b)
    (ht : t.Timed lib data) (ha : a ≤ t.startTime lib) (hb : t.endTime lib ≤ b) :
    Outcome env lib data r_exeFlag mid t a segs b := by
  induction segs generalizing a mid t with
  | nil =>
      have hlt := ht.lt
      have hnone : a = b := hsegs.leads
      omega
  | cons seg rest ih =>
      obtain ⟨⟨hseg, rfl⟩, hrest⟩ := covers_cons.mp hsegs
      have ih' : ∀ mid t, t.Timed lib data → seg.endTime lib ≤ t.startTime lib →
          t.endTime lib ≤ b → Outcome env lib data r_exeFlag mid t (seg.endTime lib) rest b :=
        fun mid t ht hlow hhigh => ih hrest ht hlow hhigh
      rcases lt_or_ge (t.startTime lib) (seg.endTime lib) with hcross | hbefore
      · rcases ha.lt_or_eq with hlow | hstart
        · exact outcome_startsWithin ht hseg hrest hlow hcross hb ih'
        · exact outcome_starts ht hseg hrest hstart hb ih'
      · have hstep : step env lib r_exeFlag mid t seg rest = .ok ⟨mid ++ [seg], t, rest⟩ := by
          rw [step_eq env r_exeFlag mid rest ht hseg, if_pos hbefore]
        have hclear : Clear env lib r_exeFlag t (seg :: rest) ↔ Clear env lib r_exeFlag t rest :=
          clear_before hbefore
        rcases ih' (mid ++ [seg]) t ht hbefore hb with
          ⟨hrestClear, out, left, hloop, hentered, hout⟩ | ⟨hrestClear, hloop⟩
        · exact outcome_listed (hclear.mpr hrestClear) hstep hloop hentered
            (hout.keep hseg hbefore)
        · exact .inr ⟨mt hclear.mp hrestClear, loop_ok hstep hloop⟩

/-- A new segment that the stored ones cover does not come after them. -/
theorem updateSegFeeInfo_eq {a : Int} {segs : List SegFeeInfo} (hsegs : Covers lib data a segs b)
    (ht : t.Timed lib data) (ha : a ≤ t.startTime lib) (hb : t.endTime lib ≤ b) :
    updateSegFeeInfo env lib segs t r_exeFlag = fun n => loop env lib r_exeFlag n ⟨[], t, segs⟩ := by
  have htlt := ht.lt
  funext n
  rcases List.eq_nil_or_concat segs with rfl | ⟨pre, last, rfl⟩
  · have hnone : a = b := hsegs.leads
    omega
  · rw [List.concat_eq_append] at hsegs ⊢
    obtain ⟨m, -, -, hlast⟩ := leads_append.mp hsegs.leads
    have hlast : last.endTime lib = b := hlast
    have hin : ¬ (last.m_endDateTime.lt lib t.m_startDateTime ∨
        last.m_endDateTime.eq lib t.m_startDateTime ∧ last.m_endData ≤ t.m_startData) := by
      have hend : t.startTime lib < last.endTime lib := by omega
      rintro (hlt | ⟨heq, -⟩)
      · exact absurd (hend.trans hlt) (lt_irrefl _)
      · exact absurd heq hend.ne'
    simp only [updateSegFeeInfo, List.getLast?_concat, if_neg hin]

end Steps

/-- The loop ends, the whole of the new segment has been entered, and the list is overlaid by it. -/
def Overlays (env : FeeEnv) (lib : TimeLib) (data a : Int) (segs : List SegFeeInfo)
    (new : SegFeeInfo) (r_exeFlag b : Int) : Prop :=
  ∃ out left, Settles (updateSegFeeInfo env lib segs new r_exeFlag) (.ok ⟨out, left, []⟩) ∧
    left.Entered ∧ Overlaid lib data a segs new r_exeFlag out b

/-- **A new segment is laid over the stored ones without a gap**, unless a fee is worked out in units
of 0. -/
theorem updateSegFeeInfo_overlays_iff (env : FeeEnv) {lib : TimeLib} {data a b : Int}
    {segs : List SegFeeInfo} {new : SegFeeInfo} (r_exeFlag : Int)
    (hsegs : Covers lib data a segs b) (hnew : new.Timed lib data) (ha : a ≤ new.startTime lib)
    (hb : new.endTime lib ≤ b) :
    Overlays env lib data a segs new r_exeFlag b ↔ Clear env lib r_exeFlag new segs := by
  rw [Overlays, updateSegFeeInfo_eq hsegs hnew ha hb]
  have houtcome : Outcome env lib data r_exeFlag [] new a segs b := loop_outcome hsegs hnew ha hb
  rcases houtcome with ⟨hclear, hout⟩ | ⟨hclear, hfault⟩
  · exact iff_of_true hout hclear
  · refine iff_of_false ?_ hclear
    rintro ⟨out, left, hok, -, -⟩
    exact absurd (hok.unique hfault) (by simp)

/-- A call of two minutes, at 10 a minute. -/
def twoMinutes : SegFeeInfo := ofTime 1 60 10 ⟨20260105, 80000⟩ ⟨20260105, 80200⟩ 0 120

/-- The minute in the middle of it, at another price. -/
def middle (m_unitTime m_unitFee : Int) : SegFeeInfo :=
  ofTime 2 m_unitTime m_unitFee ⟨20260105, 80030⟩ ⟨20260105, 80130⟩ 30 90

/-- The call starts at eight o'clock. -/
theorem twoMinutes_covers : Covers (exactLib 0) 0 1767600000 [twoMinutes] 1767600120 := by
  have hend : twoMinutes.endTime (exactLib 0) = 1767600120 := by decide
  exact ⟨⟨by decide, hend⟩, List.forall_mem_singleton.mpr ⟨by decide, by decide, rfl, rfl, rfl⟩⟩

/-- The minute in the middle of the two is timed. -/
theorem middle_timed (m_unitTime m_unitFee : Int) :
    (middle m_unitTime m_unitFee).Timed (exactLib 0) 0 :=
  ⟨rfl, (by decide : (0 : Int) < 90 - 30), rfl, rfl, rfl⟩

/-- A minute at another price is laid over the call. -/
theorem twoMinutes_overlays :
    Overlays plainEnv (exactLib 0) 0 1767600000 [twoMinutes] (middle 60 5) 0 1767600120 :=
  (updateSegFeeInfo_overlays_iff plainEnv 0 twoMinutes_covers (middle_timed 60 5) (by decide)
    (by decide)).mpr (by decide)

example :
    (updateSegFeeInfo plainEnv (exactLib 0) [twoMinutes] (middle 60 5) 0 4).map
        (fun r => r.toOption.map fun q =>
          q.t_midSegFeeInfo.map fun s => (s.m_feePolicyId, s.m_duration, s.m_value)) =
      some (some [(1, 30, 10), (2, 60, 0), (1, 30, 10)]) := by
  decide

/-- A minute that is free, without a unit, is compared with the call by a division by 0. -/
theorem twoMinutes_zeroUnit :
    Covers (exactLib 0) 0 1767600000 [twoMinutes] 1767600120 ∧ (middle 0 0).Timed (exactLib 0) 0 ∧
      1767600000 ≤ (middle 0 0).startTime (exactLib 0) ∧
      (middle 0 0).endTime (exactLib 0) ≤ 1767600120 ∧
      ¬ Overlays plainEnv (exactLib 0) 0 1767600000 [twoMinutes] (middle 0 0) 0 1767600120 := by
  refine ⟨twoMinutes_covers, middle_timed 0 0, by decide, by decide, ?_⟩
  rintro ⟨out, left, ⟨N, hok⟩, -, -⟩
  have hfault : updateSegFeeInfo plainEnv (exactLib 0) [twoMinutes] (middle 0 0) 0 (N + 2) =
      some (.error .zeroUnit) := rfl
  rw [hok (N + 2) (by omega)] at hfault
  exact absurd hfault (by simp)

end UpdateSegFeeInfo

end Rate
