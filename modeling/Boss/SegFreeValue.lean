import Boss.UpdateSegFeeInfo
import Mathlib.Data.Prod.Lex

/-!
# The base of a discounted segment

`getSegFreeValue` collects, from the fees that were worked out before, the parts that lie in the
range of a discounted segment; what they cost is what the discount is compared with.  A segment of
the base that reaches over an end of the range is cut there.

Points are instants with the amount of data at them, in lexicographic order, so that segments of time
and segments of data that follow one another at one instant are in order alike.  The parts always
lead through the range; a part that is cut at its end is given the data of the whole range up to
there, though, and not those from its own start on (`parts_tile_iff`).
-/

namespace Rate

open Spans

namespace SegFeeInfo

/-- The points at which a segment begins and ends. -/
def startPoint (lib : TimeLib) (s : SegFeeInfo) : Int ×ₗ Int :=
  toLex (s.startTime lib, s.m_startData)

def endPoint (lib : TimeLib) (s : SegFeeInfo) : Int ×ₗ Int := toLex (s.endTime lib, s.m_endData)

section Points

variable (lib : TimeLib) (s : SegFeeInfo)

@[simp] theorem startPoint_time : (ofLex (s.startPoint lib)).1 = s.startTime lib := rfl

@[simp] theorem startPoint_data : (ofLex (s.startPoint lib)).2 = s.m_startData := rfl

@[simp] theorem endPoint_time : (ofLex (s.endPoint lib)).1 = s.endTime lib := rfl

@[simp] theorem endPoint_data : (ofLex (s.endPoint lib)).2 = s.m_endData := rfl

end Points

end SegFeeInfo

namespace TpRealRentMgr

section Definitions

variable (env : FeeEnv) (lib : TimeLib) (r_segFeeInfo t_segFeeInfo : SegFeeInfo)

/-- The range begins at the end of the segment or after it. -/
def StartsAfter : Prop :=
  r_segFeeInfo.m_startDateTime.gt lib t_segFeeInfo.m_endDateTime ∨
    r_segFeeInfo.m_startDateTime.eq lib t_segFeeInfo.m_endDateTime ∧
      r_segFeeInfo.m_startData ≥ t_segFeeInfo.m_endData

/-- The range ends at the begin of the segment or before it. -/
def EndsBefore : Prop :=
  r_segFeeInfo.m_endDateTime.lt lib t_segFeeInfo.m_startDateTime ∨
    r_segFeeInfo.m_endDateTime.eq lib t_segFeeInfo.m_startDateTime ∧
      r_segFeeInfo.m_endData ≤ t_segFeeInfo.m_startData

/-- The range begins at the begin of the segment or before it. -/
def StartsBefore : Prop :=
  r_segFeeInfo.m_startDateTime.lt lib t_segFeeInfo.m_startDateTime ∨
    r_segFeeInfo.m_startDateTime.eq lib t_segFeeInfo.m_startDateTime ∧
      r_segFeeInfo.m_startData ≤ t_segFeeInfo.m_startData

/-- The test for the whole of a segment. -/
def EndsAfterWhole : Prop :=
  r_segFeeInfo.m_endDateTime.gt lib t_segFeeInfo.m_endDateTime ∨
    r_segFeeInfo.m_endDateTime.eq lib t_segFeeInfo.m_endDateTime ∧
      r_segFeeInfo.m_endData = t_segFeeInfo.m_endData

/-- The test for the rest of a segment. -/
def EndsAfter : Prop :=
  r_segFeeInfo.m_endDateTime.gt lib t_segFeeInfo.m_endDateTime ∨
    r_segFeeInfo.m_endDateTime.eq lib t_segFeeInfo.m_endDateTime ∧
      r_segFeeInfo.m_endData ≥ t_segFeeInfo.m_endData

instance : Decidable (StartsAfter lib r_segFeeInfo t_segFeeInfo) :=
  inferInstanceAs (Decidable (_ ∨ _))

instance : Decidable (EndsBefore lib r_segFeeInfo t_segFeeInfo) :=
  inferInstanceAs (Decidable (_ ∨ _))

instance : Decidable (StartsBefore lib r_segFeeInfo t_segFeeInfo) :=
  inferInstanceAs (Decidable (_ ∨ _))

instance : Decidable (EndsAfterWhole lib r_segFeeInfo t_segFeeInfo) :=
  inferInstanceAs (Decidable (_ ∨ _))

instance : Decidable (EndsAfter lib r_segFeeInfo t_segFeeInfo) :=
  inferInstanceAs (Decidable (_ ∨ _))

/-- The front part of a segment, up to the end of the range. -/
def frontPart : SegFeeInfo :=
  { t_segFeeInfo with
    m_endDateTime := r_segFeeInfo.m_endDateTime
    m_endSecond := r_segFeeInfo.m_endSecond
    m_duration := r_segFeeInfo.m_endSecond - t_segFeeInfo.m_startSecond
    m_endData := r_segFeeInfo.m_endData
    m_data := r_segFeeInfo.m_endData - r_segFeeInfo.m_startData }

/-- The rear part of a segment, from the begin of the range on. -/
def rearPart : SegFeeInfo :=
  { t_segFeeInfo with
    m_startDateTime := r_segFeeInfo.m_startDateTime
    m_startSecond := r_segFeeInfo.m_startSecond
    m_startData := r_segFeeInfo.m_startData
    m_duration := t_segFeeInfo.m_endDateTime.minus lib r_segFeeInfo.m_startDateTime
    m_data := t_segFeeInfo.m_endData - r_segFeeInfo.m_startData }

/-- The middle part of a segment, which is the range. -/
def middlePart : SegFeeInfo :=
  { t_segFeeInfo with
    m_startDateTime := r_segFeeInfo.m_startDateTime
    m_startSecond := r_segFeeInfo.m_startSecond
    m_startData := r_segFeeInfo.m_startData
    m_endDateTime := r_segFeeInfo.m_endDateTime
    m_endSecond := r_segFeeInfo.m_endSecond
    m_duration := r_segFeeInfo.m_endDateTime.minus lib r_segFeeInfo.m_startDateTime
    m_endData := r_segFeeInfo.m_endData
    m_data := r_segFeeInfo.m_endData - r_segFeeInfo.m_startData }

/-- The loop; it has no result when `compute` divides by 0. -/
def collect : List SegFeeInfo → Option (List SegFeeInfo)
  | [] => some []
  | s :: rest =>
      if StartsAfter lib r_segFeeInfo s then collect rest
      else if EndsBefore lib r_segFeeInfo s then some []
      else if StartsBefore lib r_segFeeInfo s then
        if EndsAfterWhole lib r_segFeeInfo s then (collect rest).map (s :: ·)
        else ((frontPart r_segFeeInfo s).compute env).map fun part => [part]
      else if EndsAfter lib r_segFeeInfo s then
        ((rearPart lib r_segFeeInfo s).compute env).bind fun part =>
          (collect rest).map (part :: ·)
      else ((middlePart lib r_segFeeInfo s).compute env).map fun part => [part]

/-- What the parts cost more than the segment, and the parts. -/
def getSegFreeValue (m_segInfoList : List SegFeeInfo) : Option (Int × List SegFeeInfo) :=
  (collect env lib r_segFeeInfo m_segInfoList).map fun parts =>
    ((parts.map SegFeeInfo.m_value).sum - r_segFeeInfo.m_value, parts)

end Definitions

/-! ## The order of points -/

section Points

variable {lib : TimeLib} {r s : SegFeeInfo}

/-- The range begins after a segment when its start is not before the end of the segment. -/
theorem startsAfter_iff : StartsAfter lib r s ↔ s.endPoint lib ≤ r.startPoint lib := by
  unfold StartsAfter SegFeeInfo.endPoint SegFeeInfo.startPoint
  rw [DateTime.gt_iff, DateTime.eq_iff, Prod.Lex.toLex_le_toLex]
  exact or_congr Iff.rfl (and_congr_left' eq_comm)

/-- The range ends before a segment when its end is not behind the start of the segment. -/
theorem endsBefore_iff : EndsBefore lib r s ↔ r.endPoint lib ≤ s.startPoint lib := by
  unfold EndsBefore SegFeeInfo.endPoint SegFeeInfo.startPoint
  rw [DateTime.lt_iff, DateTime.eq_iff, Prod.Lex.toLex_le_toLex]
  rfl

/-- The range begins before a segment when its start is not behind that of the segment. -/
theorem startsBefore_iff : StartsBefore lib r s ↔ r.startPoint lib ≤ s.startPoint lib := by
  unfold StartsBefore SegFeeInfo.startPoint
  rw [DateTime.lt_iff, DateTime.eq_iff, Prod.Lex.toLex_le_toLex]
  rfl

/-- The range ends after a segment when its end is not before that of the segment. -/
theorem endsAfter_iff : EndsAfter lib r s ↔ s.endPoint lib ≤ r.endPoint lib := by
  unfold EndsAfter SegFeeInfo.endPoint
  rw [DateTime.gt_iff, DateTime.eq_iff, Prod.Lex.toLex_le_toLex]
  exact or_congr Iff.rfl (and_congr_left' eq_comm)

/-- More data at the instant at which the segment ends do not pass the test for the whole. -/
theorem EndsAfterWhole.endsAfter (h : EndsAfterWhole lib r s) : EndsAfter lib r s :=
  h.imp_right fun h => ⟨h.1, h.2.ge⟩

end Points

/-! ## What the parts lead through -/

/-- The duration and the data are what lies between the ends. -/
structure Sized (lib : TimeLib) (s : SegFeeInfo) : Prop where
  duration : s.m_duration = s.endTime lib - s.startTime lib
  data : s.m_data = s.m_endData - s.m_startData

/-- A segment as it is kept: its seconds count from the begin of the call. -/
structure Kept (lib : TimeLib) (callBegin : Int) (s : SegFeeInfo) : Prop extends Sized lib s where
  startSecond : s.m_startSecond = s.startTime lib - callBegin
  endSecond : s.m_endSecond = s.endTime lib - callBegin
  ordered : s.startPoint lib ≤ s.endPoint lib

/-- A segment that is where another is. -/
structure SamePlace (s p : SegFeeInfo) : Prop where
  startDateTime : p.m_startDateTime = s.m_startDateTime
  endDateTime : p.m_endDateTime = s.m_endDateTime
  startData : p.m_startData = s.m_startData
  endData : p.m_endData = s.m_endData
  duration : p.m_duration = s.m_duration
  data : p.m_data = s.m_data

/-- The parts follow one another through the range and come to what it has. -/
structure Tiles (lib : TimeLib) (r : SegFeeInfo) (parts : List SegFeeInfo) : Prop where
  leads : Leads (SegFeeInfo.startPoint lib) (SegFeeInfo.endPoint lib) (r.startPoint lib) parts
    (r.endPoint lib)
  duration : (parts.map SegFeeInfo.m_duration).sum = r.m_duration
  data : (parts.map SegFeeInfo.m_data).sum = r.m_data

/-- The parts lead on from a point to the end of the range, with some data too many. -/
structure LeadOn (lib : TimeLib) (r : SegFeeInfo) (m : Int ×ₗ Int) (parts : List SegFeeInfo)
    (excess : Int) : Prop where
  leads : Leads (SegFeeInfo.startPoint lib) (SegFeeInfo.endPoint lib) m parts (r.endPoint lib)
  duration : (parts.map SegFeeInfo.m_duration).sum = r.endTime lib - (ofLex m).1
  data : (parts.map SegFeeInfo.m_data).sum = r.m_endData - (ofLex m).2 + excess

/-- The segment of which the front part is taken. -/
def Front (lib : TimeLib) (r s : SegFeeInfo) : Prop :=
  ¬ StartsAfter lib r s ∧ ¬ EndsBefore lib r s ∧ StartsBefore lib r s ∧ ¬ EndsAfterWhole lib r s

instance (lib : TimeLib) (r s : SegFeeInfo) : Decidable (Front lib r s) :=
  inferInstanceAs (Decidable (_ ∧ _))

/-- The segment that the range begins within. -/
def CutAtStart (lib : TimeLib) (r s : SegFeeInfo) : Prop :=
  ¬ StartsAfter lib r s ∧ ¬ StartsBefore lib r s

instance (lib : TimeLib) (r s : SegFeeInfo) : Decidable (CutAtStart lib r s) :=
  inferInstanceAs (Decidable (_ ∧ _))

section Parts

variable {env : FeeEnv} {lib : TimeLib} {callBegin excess : Int} {r s part p : SegFeeInfo}
  {m a b : Int ×ₗ Int} {rest segs parts : List SegFeeInfo}

/-- `compute` leaves a part where it is. -/
theorem compute_part (env : FeeEnv) (hzero : ¬ part.ZeroTotal) :
    ∃ p, part.compute env = some p ∧ SamePlace part p := by
  obtain ⟨unitCount, value, billInfoList, hcompute⟩ := SegFeeInfo.compute_some env hzero
  exact ⟨_, hcompute, rfl, rfl, rfl, rfl, rfl, rfl⟩

/-- What is at the same place starts at the same point. -/
theorem SamePlace.startPoint_eq (h : SamePlace part p) :
    p.startPoint lib = part.startPoint lib := by
  unfold SegFeeInfo.startPoint SegFeeInfo.startTime
  rw [h.startDateTime, h.startData]

/-- What is at the same place ends at the same point. -/
theorem SamePlace.endPoint_eq (h : SamePlace part p) : p.endPoint lib = part.endPoint lib := by
  unfold SegFeeInfo.endPoint SegFeeInfo.endTime
  rw [h.endDateTime, h.endData]

/-- What is at the same place has the same size. -/
theorem SamePlace.sized (h : SamePlace part p) (hpart : Sized lib part) : Sized lib p := by
  have hduration := hpart.duration
  have hdata := hpart.data
  unfold SegFeeInfo.startTime SegFeeInfo.endTime at hduration
  constructor
  · unfold SegFeeInfo.startTime SegFeeInfo.endTime
    rw [h.duration, h.startDateTime, h.endDateTime, hduration]
  · rw [h.data, h.startData, h.endData, hdata]

/-- Nothing is left at the end of the range. -/
theorem leadOn_nil (r : SegFeeInfo) : LeadOn lib r (r.endPoint lib) [] 0 where
  leads := rfl
  duration := by simp
  data := by simp

/-- A part that is what its ends say, in front of others. -/
theorem LeadOn.cons (h : LeadOn lib r (part.endPoint lib) parts excess)
    (hpart : Sized lib part) :
    LeadOn lib r (part.startPoint lib) (part :: parts) excess where
  leads := ⟨rfl, h.leads⟩
  duration := by
    have hrest := h.duration
    have hduration := hpart.duration
    simp only [SegFeeInfo.endPoint_time] at hrest
    simp only [List.map_cons, List.sum_cons, SegFeeInfo.startPoint_time]
    omega
  data := by
    have hrest := h.data
    have hdata := hpart.data
    simp only [SegFeeInfo.endPoint_data] at hrest
    simp only [List.map_cons, List.sum_cons, SegFeeInfo.startPoint_data]
    omega

/-- The front part has too much by what the segment begins after the range. -/
theorem leadOn_front (hr : Kept lib callBegin r) (hs : Kept lib callBegin s)
    (hpart : SamePlace (frontPart r s) part) :
    LeadOn lib r (s.startPoint lib) [part] (s.m_startData - r.m_startData) where
  leads := ⟨hpart.startPoint_eq, hpart.endPoint_eq⟩
  duration := by
    have hbegin := hs.startSecond
    have hfinish := hr.endSecond
    have hduration : part.m_duration = r.m_endSecond - s.m_startSecond := hpart.duration
    simp only [List.map_cons, List.map_nil, List.sum_cons, List.sum_nil, SegFeeInfo.startPoint_time]
    omega
  data := by
    have hdata : part.m_data = r.m_endData - r.m_startData := hpart.data
    simp only [List.map_cons, List.map_nil, List.sum_cons, List.sum_nil, SegFeeInfo.startPoint_data]
    omega

/-- No segment that begins at the end of the range or after it has a front part in it. -/
theorem find_front_none (hleads : Leads (SegFeeInfo.startPoint lib) (SegFeeInfo.endPoint lib) m rest b)
    (hkept : ∀ s ∈ rest, Kept lib callBegin s) (hm : r.endPoint lib ≤ m) :
    rest.find? (Front lib r ·) = none := by
  apply List.find?_eq_none.mpr
  intro s hs hfront
  have hafter := (hleads.bounds (fun x hx => (hkept x hx).ordered) hs).1
  exact (of_decide_eq_true hfront).2.1 (endsBefore_iff.mpr (hm.trans hafter))

/-- What the loop comes to, by the segment of which it takes the front part. -/
def Outcome (lib : TimeLib) (r : SegFeeInfo) (m : Int ×ₗ Int)
    (parts : Option (List SegFeeInfo)) : Option SegFeeInfo → Prop
  | none => ∃ l, parts = some l ∧ LeadOn lib r m l 0
  | some s => (s.ZeroTotal ∧ parts = none) ∨
      (¬ s.ZeroTotal ∧ ∃ l, parts = some l ∧ LeadOn lib r m l (s.m_startData - r.m_startData))

/-- A part in front of what the loop comes to. -/
theorem Outcome.cons {q : Option (List SegFeeInfo)} {front : Option SegFeeInfo}
    (h : Outcome lib r (part.endPoint lib) q front) (hpart : Sized lib part) :
    Outcome lib r (part.startPoint lib) (q.map (part :: ·)) front := by
  cases front with
  | none =>
      obtain ⟨l, rfl, hl⟩ := h
      exact ⟨part :: l, rfl, hl.cons hpart⟩
  | some s =>
      obtain ⟨hzero, rfl⟩ | ⟨hzero, l, rfl, hl⟩ := h
      · exact .inl ⟨hzero, rfl⟩
      · exact .inr ⟨hzero, part :: l, rfl, hl.cons hpart⟩

/-- **The loop after the begin of the range.** -/
theorem collect_outcome (hr : Kept lib callBegin r) (hkept : ∀ s ∈ rest, Kept lib callBegin s)
    (hleads : Leads (SegFeeInfo.startPoint lib) (SegFeeInfo.endPoint lib) m rest b)
    (hstart : r.startPoint lib ≤ m) (hm : m ≤ r.endPoint lib) (hend : r.endPoint lib ≤ b) :
    Outcome lib r m (collect env lib r rest) (rest.find? (Front lib r ·)) := by
  induction rest generalizing m with
  | nil =>
      obtain rfl : m = b := hleads
      obtain rfl : r.endPoint lib = m := hend.antisymm hm
      exact ⟨[], rfl, leadOn_nil r⟩
  | cons s rest ih =>
      obtain ⟨rfl, hrest⟩ := hleads
      rw [List.forall_mem_cons] at hkept
      have hs := hkept.1
      have hbefore : StartsBefore lib r s := startsBefore_iff.mpr hstart
      unfold collect
      by_cases hskip : StartsAfter lib r s
      · -- nothing lies between the begin of the range and the end of this segment
        have hsame : s.endPoint lib = s.startPoint lib :=
          ((startsAfter_iff.mp hskip).trans hstart).antisymm hs.ordered
        have hfront : ¬ Front lib r s := fun h => h.1 hskip
        rw [if_pos hskip, List.find?_cons_of_neg (by simpa using hfront)]
        rw [hsame] at hrest
        exact ih hkept.2 hrest hstart hm
      · rw [if_neg hskip]
        by_cases hpast : EndsBefore lib r s
        · have hfront : ¬ Front lib r s := fun h => h.2.1 hpast
          have hhere : r.endPoint lib = s.startPoint lib := (endsBefore_iff.mp hpast).antisymm hm
          rw [if_pos hpast, List.find?_cons_of_neg (by simpa using hfront),
            find_front_none hrest hkept.2 (hhere.le.trans hs.ordered), ← hhere]
          exact ⟨[], rfl, leadOn_nil r⟩
        · rw [if_neg hpast, if_pos hbefore]
          by_cases hwhole : EndsAfterWhole lib r s
          · have hfront : ¬ Front lib r s := fun h => h.2.2.2 hwhole
            have hwithin : s.endPoint lib ≤ r.endPoint lib := endsAfter_iff.mp hwhole.endsAfter
            rw [if_pos hwhole, List.find?_cons_of_neg (by simpa using hfront)]
            exact (ih hkept.2 hrest (hstart.trans hs.ordered) hwithin).cons hs.toSized
          · have hfront : Front lib r s := ⟨hskip, hpast, hbefore, hwhole⟩
            rw [if_neg hwhole, List.find?_cons_of_pos (by simpa using hfront)]
            by_cases hzero : s.ZeroTotal
            · have hnone : (frontPart r s).compute env = none :=
                SegFeeInfo.compute_eq_none_iff.mpr hzero
              exact .inl ⟨hzero, by rw [hnone]; rfl⟩
            · obtain ⟨part, hcompute, hpart⟩ :=
                compute_part env (show ¬ (frontPart r s).ZeroTotal from hzero)
              exact .inr ⟨hzero, [part], by rw [hcompute]; rfl, leadOn_front hr hs hpart⟩

/-- No segment after the begin of the range is cut there. -/
theorem not_cutAtStart (hleads : Leads (SegFeeInfo.startPoint lib) (SegFeeInfo.endPoint lib) m rest b)
    (hkept : ∀ s ∈ rest, Kept lib callBegin s) (hm : r.startPoint lib ≤ m) (hs : s ∈ rest) :
    ¬ CutAtStart lib r s := fun hcut =>
  hcut.2 (startsBefore_iff.mpr
    (hm.trans (hleads.bounds (fun x hx => (hkept x hx).ordered) hs).1))

/-- **The loop up to the begin of the range**, which may lie within a segment. -/
theorem collect_cut (env : FeeEnv) (hr : Kept lib callBegin r)
    (hkept : ∀ s ∈ segs, Kept lib callBegin s)
    (hleads : Leads (SegFeeInfo.startPoint lib) (SegFeeInfo.endPoint lib) a segs b)
    (hstart : a ≤ r.startPoint lib) (hend : r.endPoint lib ≤ b) :
    (∃ s ∈ segs, CutAtStart lib r s ∧ s.ZeroTotal ∧ collect env lib r segs = none) ∨
      (∀ s ∈ segs, CutAtStart lib r s → ¬ s.ZeroTotal) ∧
        Outcome lib r (r.startPoint lib) (collect env lib r segs)
          (segs.find? (Front lib r ·)) := by
  induction segs generalizing a with
  | nil =>
      obtain rfl : a = b := hleads
      have hempty : r.endPoint lib = r.startPoint lib := (hend.trans hstart).antisymm hr.ordered
      refine .inr ⟨fun s hs => absurd hs List.not_mem_nil, [], rfl, ?_⟩
      rw [← hempty]
      exact leadOn_nil r
  | cons s rest ih =>
      obtain ⟨rfl, hrest⟩ := hleads
      have hkept' := List.forall_mem_cons.mp hkept
      by_cases hskip : StartsAfter lib r s
      · have hfront : ¬ Front lib r s := fun h => h.1 hskip
        have hcollect : collect env lib r (s :: rest) = collect env lib r rest := by
          rw [collect, if_pos hskip]
        rw [hcollect, List.find?_cons_of_neg (by simpa using hfront)]
        obtain ⟨x, hx, hcut⟩ | ⟨hzero, hrun⟩ := ih hkept'.2 hrest (startsAfter_iff.mp hskip)
        · exact .inl ⟨x, List.mem_cons_of_mem s hx, hcut⟩
        · exact .inr ⟨List.forall_mem_cons.mpr ⟨fun hcut => absurd hskip hcut.1, hzero⟩, hrun⟩
      · by_cases hbefore : StartsBefore lib r s
        · -- the range begins where this segment does
          have hsame : s.startPoint lib = r.startPoint lib :=
            hstart.antisymm (startsBefore_iff.mp hbefore)
          have hleads : Leads (SegFeeInfo.startPoint lib) (SegFeeInfo.endPoint lib)
            (r.startPoint lib) (s :: rest) b := ⟨hsame, hrest⟩
          exact .inr ⟨fun x hx hcut => absurd hcut (not_cutAtStart hleads hkept le_rfl hx),
            collect_outcome hr hkept hleads le_rfl hr.ordered hend⟩
        · have hcut : CutAtStart lib r s := ⟨hskip, hbefore⟩
          have hfront : ¬ Front lib r s := fun h => hbefore h.2.2.1
          have hwithin : r.startPoint lib ≤ s.endPoint lib :=
            (not_le.mp fun h => hskip (startsAfter_iff.mpr h)).le
          have hpast : ¬ EndsBefore lib r s := fun h =>
            hbefore (startsBefore_iff.mpr (hr.ordered.trans (endsBefore_iff.mp h)))
          rw [List.find?_cons_of_neg (by simpa using hfront)]
          unfold collect
          rw [if_neg hskip, if_neg hpast, if_neg hbefore]
          by_cases hzero : s.ZeroTotal
          · have hrear : (rearPart lib r s).compute env = none :=
              SegFeeInfo.compute_eq_none_iff.mpr hzero
            have hmiddle : (middlePart lib r s).compute env = none :=
              SegFeeInfo.compute_eq_none_iff.mpr hzero
            refine .inl ⟨s, List.mem_cons_self, hcut, hzero, ?_⟩
            rw [hrear, hmiddle, Option.bind_none, Option.map_none, ite_self]
          · have hothers : ∀ x ∈ s :: rest, CutAtStart lib r x → ¬ x.ZeroTotal :=
              List.forall_mem_cons.mpr ⟨fun _ => hzero, fun x hx h =>
                absurd h (not_cutAtStart hrest hkept'.2 hwithin hx)⟩
            refine .inr ⟨hothers, ?_⟩
            by_cases hafter : EndsAfter lib r s
            · have hrear : Sized lib (rearPart lib r s) := ⟨rfl, rfl⟩
              obtain ⟨part, hcompute, hpart⟩ :=
                compute_part env (show ¬ (rearPart lib r s).ZeroTotal from hzero)
              have hlast : part.endPoint lib = s.endPoint lib := hpart.endPoint_eq
              have hfirst : part.startPoint lib = r.startPoint lib := hpart.startPoint_eq
              have hrun : Outcome lib r (part.endPoint lib) (collect env lib r rest) _ :=
                hlast ▸ collect_outcome hr hkept'.2 hrest hwithin (endsAfter_iff.mp hafter) hend
              rw [if_pos hafter, hcompute, Option.bind_some, ← hfirst]
              exact hrun.cons (hpart.sized hrear)
            · have hmiddle : Sized lib (middlePart lib r s) := ⟨rfl, rfl⟩
              obtain ⟨part, hcompute, hpart⟩ :=
                compute_part env (show ¬ (middlePart lib r s).ZeroTotal from hzero)
              have hlast : part.endPoint lib = r.endPoint lib := hpart.endPoint_eq
              have hfirst : part.startPoint lib = r.startPoint lib := hpart.startPoint_eq
              have hbeyond : r.endPoint lib ≤ s.endPoint lib :=
                (not_le.mp fun h => hafter (endsAfter_iff.mpr h)).le
              rw [if_neg hafter, hcompute, find_front_none hrest hkept'.2 hbeyond, ← hfirst]
              have hrun : LeadOn lib r (part.endPoint lib) [] 0 := hlast ▸ leadOn_nil r
              exact ⟨[part], rfl, hrun.cons (hpart.sized hmiddle)⟩

/-- What the loop comes to tiles the range unless it takes a front part with too much. -/
theorem Outcome.tiles_iff {q : Option (List SegFeeInfo)} {front : Option SegFeeInfo}
    (h : Outcome lib r (r.startPoint lib) q front) (hr : Kept lib callBegin r) :
    (∃ parts, q = some parts ∧ Tiles lib r parts) ↔
      ∀ s, front = some s → ¬ s.ZeroTotal ∧ s.m_startData = r.m_startData := by
  have hduration := hr.duration
  have hdata := hr.data
  have htiles : ∀ {l : List SegFeeInfo} {excess : Int},
      LeadOn lib r (r.startPoint lib) l excess → (Tiles lib r l ↔ excess = 0) := by
    intro l excess hl
    have hsum := hl.data
    have htime := hl.duration
    simp only [SegFeeInfo.startPoint_data] at hsum
    simp only [SegFeeInfo.startPoint_time] at htime
    constructor
    · intro ht
      have hwhole := ht.data
      omega
    · intro hzero
      exact ⟨hl.leads, by omega, by omega⟩
  cases front with
  | none =>
      obtain ⟨l, rfl, hl⟩ := h
      exact ⟨fun _ s hs => absurd hs (by simp), fun _ => ⟨l, rfl, (htiles hl).mpr rfl⟩⟩
  | some s =>
      obtain ⟨hzero, rfl⟩ | ⟨hzero, l, rfl, hl⟩ := h
      · constructor
        · rintro ⟨parts, hparts, -⟩
          exact absurd hparts (by simp)
        · intro hcond
          exact absurd hzero (hcond s rfl).1
      · constructor
        · rintro ⟨parts, hparts, ht⟩ x hx
          obtain rfl := Option.some_inj.mp hparts
          obtain rfl := Option.some_inj.mp hx
          have hexcess := (htiles hl).mp ht
          exact ⟨hzero, by omega⟩
        · intro hcond
          have hexcess := (hcond s rfl).2
          exact ⟨l, rfl, (htiles hl).mpr (by omega)⟩

/-- **The parts tile the range** if and only if no price that is divided by 0 has to be worked out
anew for a part and the segment of which the front part is taken begins with the data of the
range. -/
theorem parts_tile_iff (hr : Kept lib callBegin r) (hkept : ∀ s ∈ segs, Kept lib callBegin s)
    (hleads : Leads (SegFeeInfo.startPoint lib) (SegFeeInfo.endPoint lib) a segs b)
    (hstart : a ≤ r.startPoint lib) (hend : r.endPoint lib ≤ b) :
    (∃ value parts, getSegFreeValue env lib r segs = some (value, parts) ∧ Tiles lib r parts) ↔
      (∀ s ∈ segs, CutAtStart lib r s → ¬ s.ZeroTotal) ∧
        ∀ s, segs.find? (Front lib r ·) = some s →
          ¬ s.ZeroTotal ∧ s.m_startData = r.m_startData := by
  have hvalue : (∃ value parts, getSegFreeValue env lib r segs = some (value, parts) ∧
      Tiles lib r parts) ↔ ∃ parts, collect env lib r segs = some parts ∧ Tiles lib r parts := by
    unfold getSegFreeValue
    constructor
    · rintro ⟨value, parts, hparts, htiles⟩
      obtain ⟨l, hl, hpair⟩ := Option.map_eq_some_iff.mp hparts
      obtain ⟨-, rfl⟩ := Prod.mk.inj hpair
      exact ⟨l, hl, htiles⟩
    · rintro ⟨parts, hparts, htiles⟩
      exact ⟨_, parts, by rw [hparts]; rfl, htiles⟩
  rw [hvalue]
  obtain ⟨s, hs, hcut, hzero, hnone⟩ | ⟨hzero, hrun⟩ :=
    collect_cut env hr hkept hleads hstart hend
  · constructor
    · rintro ⟨parts, hparts, -⟩
      rw [hnone] at hparts
      exact absurd hparts (by simp)
    · intro hcond
      exact absurd hzero (hcond.1 s hs hcut)
  · rw [hrun.tiles_iff hr]
    exact ⟨fun h => ⟨hzero, h⟩, fun h => h.2⟩

end Parts

/-- A segment of a call that begins at eight o'clock, with data. -/
def ofData (m_startTime m_endTime m_startSecond m_endSecond m_startData m_endData : Int) :
    SegFeeInfo :=
  { SegFeeInfo.ofTime 1 60 10 ⟨20260105, m_startTime⟩ ⟨20260105, m_endTime⟩ m_startSecond
      m_endSecond with
    m_startData := m_startData
    m_endData := m_endData
    m_data := m_endData - m_startData }

/-- Two minutes with 100 units of data each. -/
def minutes : List SegFeeInfo := [ofData 80000 80100 0 60 0 100, ofData 80100 80200 60 120 100 200]

/-- The two minutes lead from eight o'clock to two minutes past it. -/
theorem minutes_lead : Leads (SegFeeInfo.startPoint (exactLib 0)) (SegFeeInfo.endPoint (exactLib 0))
    (toLex (1767600000, 0)) minutes (toLex (1767600120, 200)) := by
  have hend : (ofData 80100 80200 60 120 100 200).endPoint (exactLib 0) =
      toLex (1767600120, 200) := by decide
  exact ⟨by decide, by decide, hend⟩

/-- The two minutes are kept as they are. -/
theorem minutes_kept : ∀ s ∈ minutes, Kept (exactLib 0) 1767600000 s :=
  List.forall_mem_cons.mpr ⟨⟨⟨by decide, by decide⟩, by decide, by decide, by decide⟩,
    List.forall_mem_singleton.mpr ⟨⟨by decide, by decide⟩, by decide, by decide, by decide⟩⟩

/-- From the middle of the first minute to the end of the second. -/
theorem parts_tile_iff_rear : ∃ value parts,
    getSegFreeValue plainEnv (exactLib 0) (ofData 80030 80200 30 120 50 200) minutes =
      some (value, parts) ∧
    Tiles (exactLib 0) (ofData 80030 80200 30 120 50 200) parts :=
  (parts_tile_iff ⟨⟨by decide, by decide⟩, by decide, by decide, by decide⟩ minutes_kept
    minutes_lead (by decide) (by decide)).mpr ⟨by decide, by
      intro s hs
      have hnone : minutes.find?
          (Front (exactLib 0) (ofData 80030 80200 30 120 50 200) ·) = none := by decide
      rw [hnone] at hs
      exact absurd hs (by simp)⟩

/-- From the middle of the first minute to the middle of the second there are 100 units of data; the
parts have 50 and 100. -/
theorem parts_have_more : ¬ ∀ (env : FeeEnv) (lib : TimeLib) (callBegin : Int) (r : SegFeeInfo)
    (a b : Int ×ₗ Int) (segs : List SegFeeInfo), Kept lib callBegin r →
    (∀ s ∈ segs, Kept lib callBegin s) →
    Leads (SegFeeInfo.startPoint lib) (SegFeeInfo.endPoint lib) a segs b →
    a ≤ r.startPoint lib → r.endPoint lib ≤ b →
    ∃ value parts, getSegFreeValue env lib r segs = some (value, parts) ∧ Tiles lib r parts := by
  intro h
  obtain ⟨value, parts, hparts, htiles⟩ := h plainEnv (exactLib 0) 1767600000
    (ofData 80030 80130 30 90 50 150) _ _ minutes
    ⟨⟨by decide, by decide⟩, by decide, by decide, by decide⟩ minutes_kept minutes_lead
    (by decide) (by decide)
  have hdata : (getSegFreeValue plainEnv (exactLib 0) (ofData 80030 80130 30 90 50 150) minutes).map
      (fun q => (q.2.map SegFeeInfo.m_data).sum) = some 150 := by decide
  rw [hparts, Option.map_some, Option.some_inj, htiles.data] at hdata
  exact absurd hdata (by decide)

end TpRealRentMgr

end Rate
