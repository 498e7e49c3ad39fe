import Boss.CdrSeg

/-!
# Conditions that select parts of a call

`CondRule::judge` selects from the segments of a call what a condition holds for, and cuts segments
where it has to: by seconds, by data, by a window of every day, by points in time.  Days and days of
the week are selected as a whole, from a range or from a set of values.

A window over midnight is selected as two windows of the day that a segment begins in, so that the
windows from `s` to `e` and from `e` to `s` leave nothing out (`busy_partition`).  From a set of
values only the first segment is taken: the loop breaks off there (`firstMatch`), and so it takes all
of them just when there is no second one.
-/

namespace Rate

open Spans CdrSeg

/-! ## Sets of values -/

/-- A value of an enumeration: given as such, or by what it is replaced by. -/
inductive EnumValue
  | value (v : Int)
  | param (r_paramId : String)
  | object (r_paramId : String)
  | expr (text : String)
  | item (r_paramId : String)
deriving DecidableEq, Repr

/-- What the values that are replaced are looked up in. -/
structure EnumEnv where
  getParamValue : String → Option Int
  getObjectValue : String → Option Int
  explanExpr : String → Option Int
  getItemValue : String → Option Int

/-- The exceptions that end a judgement. -/
inductive CondError
  | enumValue
  | diviedTag
deriving DecidableEq, Repr

structure CondRuleIn where
  m_enumVector : List EnumValue
  m_enumMap : List (Int × Int)

namespace CondRuleIn

def lookup (env : EnumEnv) : EnumValue → Option Int
  | .value v => some v
  | .param r_paramId => env.getParamValue r_paramId
  | .object r_paramId => env.getObjectValue r_paramId
  | .expr text => env.explanExpr text
  | .item r_paramId => env.getItemValue r_paramId

/-- The values, none of which may be missing. -/
def getEnumValue (env : EnumEnv) (cond : CondRuleIn) : Except CondError (List Int) :=
  match cond.m_enumVector.mapM (lookup env) with
  | some values => .ok values
  | none => .error .enumValue

def judgeCond (env : EnumEnv) (cond : CondRuleIn) (value : Int) : Except CondError Bool := do
  let enumValue ← cond.getEnumValue env
  return enumValue.any (· == value) || cond.m_enumMap.any fun r => value ≥ r.1 && value ≤ r.2

end CondRuleIn

/-! ## Conditions -/

def TAG_DIVIED_DURATION : Char := '2'
def TAG_DIVIED_BUSY : Char := '3'
def TAG_DIVIED_DAY : Char := '4'
def TAG_DIVIED_WEEK : Char := '5'
def TAG_DIVIED_SUBDTIME : Char := '6'
def TAG_DIVIED_DATA : Char := '7'

def TAG_JUDGE_MODE_IN : Char := '4'

/-- A condition, with what `getMinValue` and `getMaxValue` read. -/
structure CondRule where
  m_diviedTag : Char
  m_judgeMode : Char
  minValue : Int
  maxValue : Int

/-- What a judgement leaves: its result and the segments that are selected. -/
structure Judged where
  result : Bool
  r_splitFlag : Bool
  r_pSepCdrSegList : List CdrSeg
deriving DecidableEq, Repr

/-- There is something selected or not. -/
def Judged.of (l : List CdrSeg) : Judged := ⟨!l.isEmpty, !l.isEmpty, l⟩

namespace CondRule

/-- The first segment whose value is in the set; the loop breaks off there. -/
def firstMatch (judgeCond : Int → Except CondError Bool) (value : CdrSeg → Int) :
    List CdrSeg → Except CondError (List CdrSeg)
  | [] => .ok []
  | seg :: segs => do
      if ← judgeCond (value seg) then return [seg]
      firstMatch judgeCond value segs

/-- The segments whose value is in the range. -/
def inRange (minValue maxValue : Int) (value : CdrSeg → Int) (segs : List CdrSeg) : List CdrSeg :=
  segs.filter fun seg => value seg ≥ minValue ∧ value seg ≤ maxValue

/-- What a window of the day selects from a segment; over midnight it is the end and the begin of
the day. -/
def busy (lib : TimeLib) (now startTime endTime : Int) (seg : CdrSeg) : List CdrSeg :=
  let curDate := seg.m_startDateTime.m_Date
  let endDateTime : DateTime := ⟨curDate, endTime⟩
  if endTime < startTime then
    (seg.splitDateTime lib ⟨curDate, 0⟩ endDateTime).toList ++
      (seg.splitDateTime lib ⟨curDate, startTime⟩ (endDateTime.nextday lib now)).toList
  else (seg.splitDateTime lib ⟨curDate, startTime⟩ endDateTime).toList

/-- What a segment is selected by: the date and the day of the week of its start. -/
def startDate (seg : CdrSeg) : Int := seg.m_startDateTime.m_Date

def startWeekDay (lib : TimeLib) (seg : CdrSeg) : Int := seg.m_startDateTime.getWeekDay lib

/-- A point in time from its digits. -/
def dateTimeOf (digits : Int) : DateTime := ⟨digits.tdiv 1000000, digits.tmod 1000000⟩

section Judge

variable (lib : TimeLib) (now : Nat → Int) (judgeCond : Int → Except CondError Bool)
  (cond : CondRule)

/-- What is selected by a value of each segment. -/
def byValue (value : CdrSeg → Int) (segs : List CdrSeg) : Except CondError (List CdrSeg) :=
  if cond.m_judgeMode = TAG_JUDGE_MODE_IN then firstMatch judgeCond value segs
  else .ok (inRange cond.minValue cond.maxValue value segs)

/-- The part of `judge` that goes by the segments alone; the clock is read for every segment. -/
def judge (r_pCdrSegList : List CdrSeg) : Except CondError Judged :=
  if cond.m_diviedTag = TAG_DIVIED_DURATION then
    .ok (.of (r_pCdrSegList.filterMap fun seg => seg.split lib cond.minValue cond.maxValue))
  else if cond.m_diviedTag = TAG_DIVIED_DATA then
    .ok (.of (r_pCdrSegList.filterMap fun seg => seg.split_data lib cond.minValue cond.maxValue))
  else if cond.m_diviedTag = TAG_DIVIED_BUSY then
    .ok (.of (r_pCdrSegList.zipIdx.flatMap fun p =>
      busy lib (now p.2) cond.minValue cond.maxValue p.1))
  else if cond.m_diviedTag = TAG_DIVIED_DAY then
    (byValue judgeCond cond startDate r_pCdrSegList).map .of
  else if cond.m_diviedTag = TAG_DIVIED_WEEK then
    (byValue judgeCond cond (startWeekDay lib) r_pCdrSegList).map .of
  else if cond.m_diviedTag = TAG_DIVIED_SUBDTIME then
    .ok (.of (r_pCdrSegList.filterMap fun seg =>
      seg.splitDateTime lib (dateTimeOf cond.minValue) (dateTimeOf cond.maxValue)))
  else .error .diviedTag

end Judge

/-! ## Windows of the day -/

section Busy

variable {lib : TimeLib} {zone s e t now now' : Int} {seg : CdrSeg}

/-- A segment of the day that it begins in, which ends at `240000`. -/
structure OfDay (lib : TimeLib) (seg : CdrSeg) : Prop where
  clock : DateTime.IsClock seg.m_startDateTime.m_Time
  early : seg.m_startDateTime.m_Time < 240000
  late : seg.endTime lib ≤ (DateTime.mk seg.m_startDateTime.m_Date 240000).time lib

instance (lib : TimeLib) (seg : CdrSeg) : Decidable (OfDay lib seg) :=
  decidable_of_iff (_ ∧ _ ∧ _) ⟨fun h => ⟨h.1, h.2.1, h.2.2⟩, fun h => ⟨h.1, h.2, h.3⟩⟩

variable (now now') in
/-- A window and the rest of the day. -/
theorem busy_countP (hlib : lib.Exact zone) (hs : DateTime.IsClock s) (he : DateTime.IsClock e)
    (hlt : s < e) (hseg : OfDay lib seg) :
    (busy lib now s e seg).countP (Within (startTime lib) (endTime lib) t ·) +
        (busy lib now' e s seg).countP (Within (startTime lib) (endTime lib) t ·) =
      if Within (startTime lib) (endTime lib) t seg then 1 else 0 := by
  have hclocks := (DateTime.clockOf_lt_iff hs he).mpr hlt
  have hslow := (DateTime.clockOf_bounds hs).1
  have hehigh := (DateTime.clockOf_bounds he).2
  have hday := DateTime.time_bounds hlib hseg.clock
  have hlate := hseg.late
  have hzero : DateTime.clockOf 0 = 0 := by decide
  have hfull : DateTime.clockOf 240000 = 86400 := by decide
  rw [busy, busy, if_neg (by omega), if_pos hlt, List.countP_append, splitDateTime_countP,
    splitDateTime_countP, splitDateTime_countP]
  simp only [DateTime.nextday_eq hlib]
  simp only [DateTime.time_eq hlib, DateTime.dayOf_dateOf, hzero, hfull] at hday hlate ⊢
  by_cases hin : Within (startTime lib) (endTime lib) t seg
  · have hinside := hin
    unfold Within startTime at hinside
    rw [DateTime.time_eq hlib] at hinside
    simp only [hin, true_and]
    split_ifs <;> omega
  · simp only [hin, false_and, if_false]

/-- The windows of the segments of a list. -/
def busyList (lib : TimeLib) (now : Nat → Int) (startTime endTime : Int)
    (segs : List (CdrSeg × Nat)) : List CdrSeg :=
  segs.flatMap fun p => busy lib (now p.2) startTime endTime p.1

theorem busyList_countP {now now' : Nat → Int} {segs : List CdrSeg} (hlib : lib.Exact zone)
    (hs : DateTime.IsClock s) (he : DateTime.IsClock e) (hlt : s < e)
    (hsegs : ∀ seg ∈ segs, OfDay lib seg) (k : Nat) :
    (busyList lib now s e (segs.zipIdx k)).countP (Within (startTime lib) (endTime lib) t ·) +
        (busyList lib now' e s (segs.zipIdx k)).countP
          (Within (startTime lib) (endTime lib) t ·) =
      segs.countP (Within (startTime lib) (endTime lib) t ·) := by
  induction segs generalizing k with
  | nil => rfl
  | cons seg segs ih =>
      rw [List.forall_mem_cons] at hsegs
      have hhere := busy_countP (now k) (now' k) (t := t) hlib hs he hlt hsegs.1
      have hrest := ih hsegs.2 (k + 1)
      unfold busyList at hrest ⊢
      rw [List.zipIdx_cons, List.flatMap_cons, List.flatMap_cons, List.countP_append,
        List.countP_append, List.countP_cons]
      simp only [decide_eq_true_eq]
      omega

/-- What a condition on a window of the day selects. -/
theorem judge_busy (now : Nat → Int) (judgeCond : Int → Except CondError Bool) (cond : CondRule)
    (segs : List CdrSeg) :
    judge lib now judgeCond
        { cond with m_diviedTag := TAG_DIVIED_BUSY, minValue := s, maxValue := e } segs =
      .ok (.of (busyList lib now s e segs.zipIdx)) := rfl

/-- **The windows from `s` to `e` and from `e` to `s` share a call out**: each point of time is in as
many pieces as it is in segments, and pieces of segments that are apart are apart. -/
theorem busy_partition (hlib : lib.Exact zone) (hs : DateTime.IsClock s) (he : DateTime.IsClock e)
    (hne : s ≠ e) (now now' : Nat → Int) (judgeCond judgeCond' : Int → Except CondError Bool)
    (cond cond' : CondRule) (segs : List CdrSeg) (hsegs : ∀ seg ∈ segs, OfDay lib seg) :
    ∃ l l',
      judge lib now judgeCond
        { cond with m_diviedTag := TAG_DIVIED_BUSY, minValue := s, maxValue := e } segs =
        .ok (.of l) ∧
      judge lib now' judgeCond'
        { cond' with m_diviedTag := TAG_DIVIED_BUSY, minValue := e, maxValue := s } segs =
        .ok (.of l') ∧
      (∀ t, (l ++ l').countP (Within (startTime lib) (endTime lib) t ·) =
        segs.countP (Within (startTime lib) (endTime lib) t ·)) ∧
      (segs.Pairwise (Apart (startTime lib) (endTime lib)) →
        (l ++ l').Pairwise (Apart (startTime lib) (endTime lib))) := by
  have hcount : ∀ t,
      (busyList lib now s e segs.zipIdx ++ busyList lib now' e s segs.zipIdx).countP
        (Within (startTime lib) (endTime lib) t ·) =
      segs.countP (Within (startTime lib) (endTime lib) t ·) := by
    intro t
    rw [List.countP_append]
    rcases lt_or_gt_of_ne hne with hlt | hgt
    · exact busyList_countP hlib hs he hlt hsegs 0
    · rw [Nat.add_comm]
      exact busyList_countP hlib he hs hgt hsegs 0
  refine ⟨_, _, judge_busy .., judge_busy .., hcount, fun hapart => ?_⟩
  rw [pairwise_apart_iff] at hapart ⊢
  intro t
  rw [hcount]
  exact hapart t

/-- From Saturday evening to midnight, and on into Sunday. -/
def weekend : List CdrSeg :=
  [⟨⟨20260103, 200000⟩, ⟨20260103, 240000⟩, 14400, 0, 14400, 0, 0, 0⟩,
    ⟨⟨20260104, 0⟩, ⟨20260104, 80000⟩, 28800, 14400, 43200, 0, 0, 0⟩]

/-- At eleven in the evening of the Saturday. -/
theorem busy_partition_weekend :
    ∃ l l',
      judge (exactLib 0) (fun _ => 0) (fun _ => .ok false) ⟨TAG_DIVIED_BUSY, '2', 210000, 70000⟩
        weekend = .ok (.of l) ∧
      judge (exactLib 0) (fun _ => 0) (fun _ => .ok false) ⟨TAG_DIVIED_BUSY, '2', 70000, 210000⟩
        weekend = .ok (.of l') ∧
      (l ++ l').countP (Within (startTime (exactLib 0)) (endTime (exactLib 0)) 1767481200 ·) =
        1 := by
  obtain ⟨l, l', hl, hl', hcount, -⟩ := busy_partition (s := 210000) (e := 70000)
    (exactLib_exact 0) (by decide) (by decide) (by decide) (fun _ => 0) (fun _ => 0)
    (fun _ => .ok false) (fun _ => .ok false) ⟨TAG_DIVIED_BUSY, '2', 0, 0⟩
    ⟨TAG_DIVIED_BUSY, '2', 0, 0⟩ weekend (by decide)
  exact ⟨l, l', hl, hl', (hcount _).trans (by decide)⟩

end Busy

/-! ## Days -/

section Days

variable {lib : TimeLib} {now : Nat → Int} {env : EnumEnv} {set : CondRuleIn} {values : List Int}
  {judgeCond : Int → Except CondError Bool} {value : CdrSeg → Int} {p : CdrSeg → Bool}
  {cond : CondRule} {segs : List CdrSeg}

/-- A number is one of the values or in one of the ranges. -/
def InSet (values : List Int) (ranges : List (Int × Int)) (v : Int) : Prop :=
  v ∈ values ∨ ∃ r ∈ ranges, r.1 ≤ v ∧ v ≤ r.2

instance (values : List Int) (ranges : List (Int × Int)) (v : Int) :
    Decidable (InSet values ranges v) := inferInstanceAs (Decidable (_ ∨ _))

theorem judgeCond_eq (hset : set.getEnumValue env = .ok values) (v : Int) :
    set.judgeCond env v = .ok (decide (InSet values set.m_enumMap v)) := by
  rw [CondRuleIn.judgeCond, hset]
  refine congrArg Except.ok ?_
  rw [Bool.eq_iff_iff, decide_eq_true_eq]
  simp [InSet]

/-- The loop takes the first of what there is. -/
theorem firstMatch_eq (h : ∀ seg ∈ segs, judgeCond (value seg) = .ok (p seg)) :
    firstMatch judgeCond value segs = .ok ((segs.filter p).take 1) := by
  induction segs with
  | nil => rfl
  | cons seg segs ih =>
      rw [List.forall_mem_cons] at h
      rw [firstMatch, h.1, List.filter_cons]
      cases hp : p seg with
      | true => rfl
      | false => exact ih h.2

theorem of_injective : Function.Injective Judged.of := fun _ _ h =>
  congrArg Judged.r_pSepCdrSegList h

/-- It has taken all when there is no second one. -/
theorem firstMatch_all_iff (h : ∀ seg ∈ segs, judgeCond (value seg) = .ok (p seg)) :
    (firstMatch judgeCond value segs).map Judged.of = .ok (.of (segs.filter p)) ↔
      (segs.filter p).length ≤ 1 := by
  rw [firstMatch_eq h, ← List.take_eq_self_iff]
  constructor
  · intro heq
    exact of_injective (Except.ok.inj heq)
  · intro heq
    rw [heq]
    rfl

/-- From a range all are selected. -/
theorem byValue_range (hmode : cond.m_judgeMode ≠ TAG_JUDGE_MODE_IN) :
    (byValue judgeCond cond value segs).map Judged.of =
      .ok (.of (segs.filter fun seg => cond.minValue ≤ value seg ∧ value seg ≤ cond.maxValue)) := by
  rw [byValue, if_neg hmode]
  rfl

/-- Nothing is looked up. -/
def literals : EnumEnv := ⟨fun _ => none, fun _ => none, fun _ => none, fun _ => none⟩

end Days

end CondRule

end Rate
