import Boss.GetCdrSegments
import Boss.PriceComp

/-!
# The validity of a tariff

`Price::rateExecute` cuts the segments of a call to the time in which the user has the tariff, and
hands the rest to the price tree.  When nothing is left it hands over the whole call, for the sake of
a call of no length, which no cut leaves anything of; a call outside that time is priced in the same
way.

Main result: `handed_iff`.
-/

namespace Rate

open CdrSeg

/-- What tells the special configuration from all others; the operators are not in the repository,
only whether it is `OPERATOR_TYPE_UNICOM`. -/
structure RateConfig (B : Type) where
  operatorUnicom : Bool
  m_provinceCode : String
  m_bizType : B

namespace Price

section Definitions

variable {B : Type} [DecidableEq B] (lib : TimeLib) (biz : BizTypes B) (config : RateConfig B)
  (m_beginTime m_endTime : DateTime) (m_cdrSegList : List CdrSeg)

def Special : Prop :=
  config.operatorUnicom ∧ config.m_provinceCode = "022" ∧ config.m_bizType = biz.BIZ_TYPE_NET

instance : Decidable (Special biz config) := inferInstanceAs (Decidable (_ ∧ _))

/-- What the segments leave in the time from `m_beginTime` to `m_endTime`. -/
def t_cdrSegs : List CdrSeg :=
  m_cdrSegList.filterMap fun seg => seg.splitDateTime lib m_beginTime m_endTime

/-- The segments that are handed to the price tree. -/
def handed : List CdrSeg :=
  if Special biz config then m_cdrSegList
  else if (t_cdrSegs lib m_beginTime m_endTime m_cdrSegList).length > 0 then
    t_cdrSegs lib m_beginTime m_endTime m_cdrSegList
  else m_cdrSegList

/-- `rateExecute` up to the end of the price tree. -/
def rateExecute {R : Type} (conds : Conditions R) (m_id : Int) (m_priceComp : PriceComp) :
    Except PriceError (List (Ran R)) :=
  if m_priceComp = .null then .error (.undefinedPrice m_id)
  else m_priceComp.rateExecute conds
    (handed lib biz config m_beginTime m_endTime m_cdrSegList) [] []

end Definitions

section Results

variable {B : Type} [DecidableEq B] {lib : TimeLib} {biz : BizTypes B} {config : RateConfig B}
  {m_beginTime m_endTime : DateTime} {m_cdrSegList : List CdrSeg} {seg : CdrSeg}

/-- The time of a segment. -/
def span (lib : TimeLib) (seg : CdrSeg) : Int × Int := (seg.startTime lib, seg.endTime lib)

/-- The time that a segment and the validity have in common. -/
def common (lib : TimeLib) (m_beginTime m_endTime : DateTime) (seg : CdrSeg) : Int × Int :=
  (max (m_beginTime.time lib) (seg.startTime lib), min (m_endTime.time lib) (seg.endTime lib))

/-- A segment meets the validity. -/
def Meets (lib : TimeLib) (m_beginTime m_endTime : DateTime) (seg : CdrSeg) : Prop :=
  (common lib m_beginTime m_endTime seg).1 < (common lib m_beginTime m_endTime seg).2

instance (lib : TimeLib) (m_beginTime m_endTime : DateTime) (seg : CdrSeg) :
    Decidable (Meets lib m_beginTime m_endTime seg) := inferInstanceAs (Decidable (_ < _))

/-- The intersections that are not empty. -/
def intersections (lib : TimeLib) (m_beginTime m_endTime : DateTime) (segs : List CdrSeg) :
    List (Int × Int) :=
  (segs.filter fun seg => Meets lib m_beginTime m_endTime seg).map (common lib m_beginTime m_endTime)

/-- The cuts are the intersections. -/
theorem t_cdrSegs_spans (m_beginTime m_endTime : DateTime)
    (hsegs : ∀ seg ∈ m_cdrSegList, seg.startTime lib < seg.endTime lib) :
    (t_cdrSegs lib m_beginTime m_endTime m_cdrSegList).map (span lib) =
      intersections lib m_beginTime m_endTime m_cdrSegList := by
  induction m_cdrSegList with
  | nil => rfl
  | cons seg segs ih =>
      rw [List.forall_mem_cons] at hsegs
      have hrest := ih hsegs.2
      unfold t_cdrSegs intersections at hrest ⊢
      rcases seg.splitDateTime_ends lib m_beginTime m_endTime with
        ⟨piece, hpiece, hstart, hend, hlength⟩ | ⟨hnone, hle⟩
      · have hmeets : Meets lib m_beginTime m_endTime seg := by
          have hpos := hlength hsegs.1
          rwa [hstart, hend] at hpos
        rw [List.filterMap_cons, hpiece, List.filter_cons, if_pos (decide_eq_true hmeets)]
        simp only [List.map_cons, hrest]
        rw [span, hstart, hend, common]
      · have hmeets : ¬ Meets lib m_beginTime m_endTime seg := not_lt.mpr hle
        rw [List.filterMap_cons, hnone, List.filter_cons, if_neg (by simpa using hmeets)]
        exact hrest

/-- **What is priced is what the call and the validity have in common** when they have something in
common, or when there is no call. -/
theorem handed_iff (m_beginTime m_endTime : DateTime) (hspecial : ¬ Special biz config)
    (hsegs : ∀ seg ∈ m_cdrSegList, seg.startTime lib < seg.endTime lib) :
    (handed lib biz config m_beginTime m_endTime m_cdrSegList).map (span lib) =
        intersections lib m_beginTime m_endTime m_cdrSegList ↔
      m_cdrSegList = [] ∨ ∃ seg ∈ m_cdrSegList, Meets lib m_beginTime m_endTime seg := by
  have hspans := t_cdrSegs_spans m_beginTime m_endTime hsegs
  have hmeets : intersections lib m_beginTime m_endTime m_cdrSegList ≠ [] ↔
      ∃ seg ∈ m_cdrSegList, Meets lib m_beginTime m_endTime seg := by
    simp [intersections]
  rw [handed, if_neg hspecial, ← hmeets, ← hspans]
  by_cases hcut : t_cdrSegs lib m_beginTime m_endTime m_cdrSegList = []
  · -- the whole call is handed over instead
    rw [hcut, if_neg (by simp)]
    simp
  · rw [if_pos (List.length_pos_iff.mpr hcut)]
    simp [hcut]

end Results

/-- Two hours of a call. -/
def twoHours : List CdrSeg :=
  [⟨⟨20260105, 80000⟩, ⟨20260105, 100000⟩, 7200, 0, 7200, 0, 0, 0⟩]

def bizTypes : BizTypes Nat := ⟨1, 2, 3⟩

/-- Not the special configuration. -/
def common090 : RateConfig Nat := ⟨false, "090", 0⟩

/-- Of a tariff that begins after the first of them only the second is priced. -/
theorem twoHours_handed :
    (handed (exactLib 0) bizTypes common090 ⟨20260105, 90000⟩ ⟨20261231, 235959⟩ twoHours).map
        (span (exactLib 0)) =
      intersections (exactLib 0) ⟨20260105, 90000⟩ ⟨20261231, 235959⟩ twoHours := by
  have hspecial : ¬ Special bizTypes common090 := by decide
  exact (handed_iff ⟨20260105, 90000⟩ ⟨20261231, 235959⟩ hspecial (by decide)).mpr (by decide)

/-- A tariff that has ended on the day before is applied to the whole call. -/
theorem twoHours_priced :
    ¬ Special bizTypes common090 ∧
      (∀ seg ∈ twoHours, seg.startTime (exactLib 0) < seg.endTime (exactLib 0)) ∧
      intersections (exactLib 0) ⟨20250101, 0⟩ ⟨20260104, 235959⟩ twoHours = [] ∧
      handed (exactLib 0) bizTypes common090 ⟨20250101, 0⟩ ⟨20260104, 235959⟩ twoHours =
        twoHours := by
  decide

end Price

end Rate
