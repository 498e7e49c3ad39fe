import Boss.DateTime
import Boss.MachineInt
import Boss.Spans

/-!
# Segments of a call

A segment of a call has a range of the clock, a range of the call's seconds and a range of its data.
`split` cuts a piece out of it by seconds or by points in time, `split_data` by data; the ranges that
were not cut by are shared out in proportion.

By time a piece gets as much data as its seconds are worth, rounded down, and begins where the
seconds before it, rounded down, lead.  The two agree with each other when no remainder is carried,
and only the piece at the end is made to fit (`leads_shares`).  By data both ends of a piece are
measured from the start of the segment, and the pieces fit.

A share is a product of two `long`s that is divided afterwards, and the product has to be a `long`
as well.  It is one for every cut exactly when the last cut is not too far into the segment:
`split_tiles_iff` and `split_data_tiles_iff` say what is kept of the data and of the time.
-/

namespace Rate

open MachineInt Spans

structure CdrSeg where
  m_startDateTime : DateTime
  m_endDateTime : DateTime
  m_duration : Int
  m_startSecond : Int
  m_endSecond : Int
  m_data : Int
  m_startData : Int
  m_endData : Int
deriving DecidableEq, Repr

namespace CdrSeg

/-- `x` parts of `whole`, of which there are `parts`; the quotient is truncated.  The product is
formed first, and the machine keeps its low bits. -/
def share (whole parts x : Int) : Int := (toLong (x * whole)).tdiv parts

/-- The data of a piece with given seconds. -/
def cutData (seg piece : CdrSeg) : CdrSeg :=
  let startData := seg.m_startData +
    share seg.m_data seg.m_duration (piece.m_startSecond - seg.m_startSecond)
  let data :=
    if piece.m_endSecond = seg.m_endSecond then seg.m_endData - startData
    else share seg.m_data seg.m_duration piece.m_duration
  { piece with m_startData := startData, m_data := data, m_endData := startData + data }

section Split

variable (lib : TimeLib) (seg : CdrSeg)

/-- `split` by seconds.  The source does not divide by a zero `m_duration` as long as the segment
has that many seconds. -/
def split (r_startSecond r_endSecond : Int) : Option CdrSeg :=
  if r_startSecond ≥ seg.m_endSecond ∨ r_endSecond ≤ seg.m_startSecond ∨
      r_startSecond ≥ r_endSecond then
    none
  else if r_startSecond ≤ seg.m_startSecond ∧ r_endSecond ≥ seg.m_endSecond then
    some seg
  else
    let startSecond :=
      if r_startSecond > seg.m_startSecond then r_startSecond else seg.m_startSecond
    let endSecond := if r_endSecond < seg.m_endSecond then r_endSecond else seg.m_endSecond
    let duration := endSecond - startSecond
    let startDateTime := seg.m_startDateTime.plus lib (startSecond - seg.m_startSecond)
    if duration ≤ 0 then none
    else
      some (cutData seg {
        m_startDateTime := startDateTime
        m_endDateTime := startDateTime.plus lib duration
        m_duration := duration
        m_startSecond := startSecond
        m_endSecond := endSecond
        m_data := 0, m_startData := 0, m_endData := 0 })

/-- `split` by points in time. -/
def splitDateTime (r_startDateTime r_endDateTime : DateTime) : Option CdrSeg :=
  if r_startDateTime.ge lib seg.m_endDateTime ∨ r_endDateTime.le lib seg.m_startDateTime ∨
      r_startDateTime.ge lib r_endDateTime then
    none
  else if r_startDateTime.le lib seg.m_startDateTime ∧ r_endDateTime.ge lib seg.m_endDateTime then
    some seg
  else
    let startDateTime :=
      if r_startDateTime.gt lib seg.m_startDateTime then r_startDateTime else seg.m_startDateTime
    let endDateTime :=
      if r_endDateTime.lt lib seg.m_endDateTime then r_endDateTime else seg.m_endDateTime
    let duration := endDateTime.minus lib startDateTime
    let startSecond := seg.m_startSecond + startDateTime.minus lib seg.m_startDateTime
    if duration ≤ 0 then none
    else
      some (cutData seg {
        m_startDateTime := startDateTime
        m_endDateTime := endDateTime
        m_duration := duration
        m_startSecond := startSecond
        m_endSecond := startSecond + duration
        m_data := 0, m_startData := 0, m_endData := 0 })

def split_data (r_startData r_endData : Int) : Option CdrSeg :=
  if r_startData ≥ seg.m_endData ∨ r_endData ≤ seg.m_startData ∨ r_startData ≥ r_endData then
    none
  else if r_startData ≤ seg.m_startData ∧ r_endData ≥ seg.m_endData then
    some seg
  else
    let startData := if r_startData > seg.m_startData then r_startData else seg.m_startData
    let endData := if r_endData < seg.m_endData then r_endData else seg.m_endData
    let data := endData - startData
    if data ≤ 0 then none
    else
      let startSecond := seg.m_startSecond +
        share seg.m_duration seg.m_data (startData - seg.m_startData)
      let startDateTime := seg.m_startDateTime.plus lib (startSecond - seg.m_startSecond)
      let endSecond :=
        if endData = seg.m_endData then seg.m_endSecond
        else seg.m_startSecond + share seg.m_duration seg.m_data (endData - seg.m_startData)
      let endDateTime :=
        if endData = seg.m_endData then seg.m_endDateTime
        else seg.m_startDateTime.plus lib (endSecond - seg.m_startSecond)
      some {
        m_startDateTime := startDateTime
        m_endDateTime := endDateTime
        m_duration := endDateTime.minus lib startDateTime
        m_startSecond := startSecond
        m_endSecond := endSecond
        m_data := data
        m_startData := startData
        m_endData := endData }

end Split

/-! ## The pieces between cuts -/

/-- The instants at which a segment begins and ends. -/
def startTime (lib : TimeLib) (seg : CdrSeg) : Int := seg.m_startDateTime.time lib

def endTime (lib : TimeLib) (seg : CdrSeg) : Int := seg.m_endDateTime.time lib

/-- The clock, the seconds and the duration say the same. -/
structure Timed (lib : TimeLib) (seg : CdrSeg) : Prop where
  clock : seg.endTime lib - seg.startTime lib = seg.m_duration
  seconds : seg.m_endSecond - seg.m_startSecond = seg.m_duration

instance (lib : TimeLib) (seg : CdrSeg) : Decidable (seg.Timed lib) :=
  decidable_of_iff (_ ∧ _) ⟨fun h => ⟨h.1, h.2⟩, fun h => ⟨h.1, h.2⟩⟩

section Pieces

variable (lib : TimeLib) (seg : CdrSeg)

/-- The pieces between neighbouring cuts, by seconds. -/
def pieces (cuts : List Int) : List CdrSeg :=
  (steps seg.m_startSecond cuts seg.m_endSecond).filterMap fun p => seg.split lib p.1 p.2

/-- By points in time. -/
def piecesDateTime (cuts : List DateTime) : List CdrSeg :=
  (steps seg.m_startDateTime cuts seg.m_endDateTime).filterMap fun p =>
    seg.splitDateTime lib p.1 p.2

/-- By data. -/
def piecesData (cuts : List Int) : List CdrSeg :=
  (steps seg.m_startData cuts seg.m_endData).filterMap fun p => seg.split_data lib p.1 p.2

end Pieces

/-- The data ranges follow one another through the segment's, and nothing is lost. -/
def DataTiles (seg : CdrSeg) (l : List CdrSeg) : Prop :=
  Leads m_startData m_endData seg.m_startData l seg.m_endData ∧ (l.map m_data).sum = seg.m_data

/-- The products of `cutData` for the seconds from `u` to `v` of the segment are in the range. -/
def CutFits (seg : CdrSeg) (u v : Int) : Prop :=
  InLong (u * seg.m_data) ∧
    (v ≠ seg.m_endSecond - seg.m_startSecond → InLong ((v - u) * seg.m_data))

/-- The products of `split_data` for the data from `u` to `v` of the segment are in the range. -/
def CutDataFits (seg : CdrSeg) (u v : Int) : Prop :=
  InLong (u * seg.m_duration) ∧ (v ≠ seg.m_data → InLong (v * seg.m_duration))

instance (seg : CdrSeg) (u v : Int) : Decidable (seg.CutFits u v) :=
  inferInstanceAs (Decidable (_ ∧ (_ → _)))

instance (seg : CdrSeg) (u v : Int) : Decidable (seg.CutDataFits u v) :=
  inferInstanceAs (Decidable (_ ∧ (_ → _)))

/-- No remainder is carried at the end of the seconds from `u` to `v` of the segment. -/
def NoCarry (seg : CdrSeg) (u v : Int) : Prop :=
  u * seg.m_data % seg.m_duration + (v - u) * seg.m_data % seg.m_duration < seg.m_duration

instance (seg : CdrSeg) (u v : Int) : Decidable (seg.NoCarry u v) :=
  inferInstanceAs (Decidable (_ < _))

/-! ## The time of a piece -/

/-- A piece goes from the later start to the earlier end, and there is none when these are in the
wrong order. -/
theorem splitDateTime_ends (lib : TimeLib) (seg : CdrSeg) (u v : DateTime) :
    (∃ piece, seg.splitDateTime lib u v = some piece ∧
      piece.startTime lib = max (u.time lib) (seg.startTime lib) ∧
      piece.endTime lib = min (v.time lib) (seg.endTime lib) ∧
      (seg.startTime lib < seg.endTime lib → piece.startTime lib < piece.endTime lib)) ∨
    seg.splitDateTime lib u v = none ∧
      min (v.time lib) (seg.endTime lib) ≤ max (u.time lib) (seg.startTime lib) := by
  simp only [splitDateTime, DateTime.ge_iff, DateTime.le_iff, DateTime.gt_iff, DateTime.lt_iff,
    DateTime.minus, startTime, endTime]
  by_cases hout : seg.m_endDateTime.time lib ≤ u.time lib ∨
      v.time lib ≤ seg.m_startDateTime.time lib ∨ v.time lib ≤ u.time lib
  · exact .inr ⟨if_pos hout, by omega⟩
  rw [if_neg hout]
  by_cases hwhole : u.time lib ≤ seg.m_startDateTime.time lib ∧
      seg.m_endDateTime.time lib ≤ v.time lib
  · exact .inl ⟨seg, if_pos hwhole, by omega, by omega, id⟩
  rw [if_neg hwhole]
  have hstart : (if seg.m_startDateTime.time lib < u.time lib then u
      else seg.m_startDateTime).time lib = max (u.time lib) (seg.m_startDateTime.time lib) := by
    split_ifs <;> omega
  have hend : (if v.time lib < seg.m_endDateTime.time lib then v
      else seg.m_endDateTime).time lib = min (v.time lib) (seg.m_endDateTime.time lib) := by
    split_ifs <;> omega
  simp only [hstart, hend]
  by_cases hlength : min (v.time lib) (seg.m_endDateTime.time lib) -
      max (u.time lib) (seg.m_startDateTime.time lib) ≤ 0
  · exact .inr ⟨if_pos hlength, by omega⟩
  · refine .inl ⟨_, if_neg hlength, hstart, hend, fun _ => ?_⟩
    exact hstart.trans_lt (lt_of_lt_of_eq (by omega) hend.symm)

/-- A point is in the piece when it is in the segment and between the cuts. -/
theorem splitDateTime_countP (lib : TimeLib) (seg : CdrSeg) (u v : DateTime) (t : Int) :
    (seg.splitDateTime lib u v).toList.countP (Within (startTime lib) (endTime lib) t ·) =
      if Within (startTime lib) (endTime lib) t seg ∧ u.time lib ≤ t ∧ t < v.time lib then 1
      else 0 := by
  rcases seg.splitDateTime_ends lib u v with ⟨piece, hpiece, hstart, hend, -⟩ | ⟨hnone, hle⟩
  · have hwithin : Within (startTime lib) (endTime lib) t piece ↔
        Within (startTime lib) (endTime lib) t seg ∧ u.time lib ≤ t ∧ t < v.time lib := by
      unfold Within
      omega
    rw [hpiece, Option.toList_some, List.countP_singleton]
    simp only [decide_eq_true_eq]
    exact if_congr hwithin rfl rfl
  · rw [hnone, Option.toList_none, List.countP_nil, if_neg]
    unfold Within
    omega

/-! ## Shares -/

section Share

variable {whole parts u v : Int}

/-- No parts, no share. -/
@[simp] theorem share_zero : share whole parts 0 = 0 := by simp [share]

/-- Of what is not negative, the quotient is rounded down. -/
theorem share_eq (hwhole : 0 ≤ whole) (hu : 0 ≤ u) (hfits : u * whole < 2 ^ 63) :
    share whole parts u = u * whole / parts := by
  rw [share, toLong_of_inLong ((inLong_mul hwhole hu).mpr hfits)]
  exact Int.tdiv_eq_ediv_of_nonneg (Int.mul_nonneg hu hwhole)

/-- A longer part has no smaller share, as long as the product fits. -/
theorem share_mono (hwhole : 0 ≤ whole) (hparts : 0 < parts) (hu : 0 ≤ u) (huv : u ≤ v)
    (hfits : v * whole < 2 ^ 63) : share whole parts u ≤ share whole parts v := by
  rw [share_eq hwhole hu (mul_lt_long hwhole huv hfits), share_eq hwhole (hu.trans huv) hfits]
  exact Int.ediv_le_ediv hparts (Int.mul_le_mul_of_nonneg_right huv hwhole)

/-- No share is more than the whole. -/
theorem share_le (hwhole : 0 ≤ whole) (hparts : 0 < parts) (hu : 0 ≤ u) (huv : u ≤ parts)
    (hfits : u * whole < 2 ^ 63) : share whole parts u ≤ whole := by
  rw [share_eq hwhole hu hfits, Int.mul_comm]
  exact Int.ediv_le_of_le_mul hparts (Int.mul_le_mul_of_nonneg_left huv hwhole)

/-- Two quotients are the quotient of the sum when their remainders make no further one. -/
theorem ediv_add_iff {x y d : Int} (hd : 0 < d) :
    x / d + y / d = (x + y) / d ↔ x % d + y % d < d := by
  have hx := Int.emod_add_mul_ediv x d
  have hy := Int.emod_add_mul_ediv y d
  have hxmod := Int.emod_nonneg x hd.ne'
  have hymod := Int.emod_nonneg y hd.ne'
  have hsum : (x + y) / d = (x % d + y % d) / d + (x / d + y / d) := by
    have hsplit : x + y = x % d + y % d + d * (x / d + y / d) := by
      rw [Int.mul_add]
      omega
    conv_lhs => rw [hsplit]
    exact Int.add_mul_ediv_left _ _ hd.ne'
  have hzero : (x % d + y % d) / d = 0 ↔ x % d + y % d < d := by
    rw [Int.ediv_eq_iff_of_pos hd]
    omega
  rw [hsum, ← hzero]
  omega

/-- Two shares add up to that of both parts exactly when their remainders stay below one part. -/
theorem share_add_iff (hwhole : 0 ≤ whole) (hparts : 0 < parts) (hu : 0 ≤ u) (huv : u ≤ v)
    (hfits : v * whole < 2 ^ 63) :
    share whole parts u + share whole parts (v - u) = share whole parts v ↔
      u * whole % parts + (v - u) * whole % parts < parts := by
  have hrest : 0 ≤ v - u := by omega
  have hv : v * whole = u * whole + (v - u) * whole := by
    rw [← Int.add_mul]
    congr 1
    omega
  rw [share_eq hwhole hu (mul_lt_long hwhole huv hfits),
    share_eq hwhole hrest (mul_lt_long hwhole (by omega) hfits),
    share_eq hwhole (hu.trans huv) hfits, hv, ediv_add_iff hparts]

end Share

/-! ## The data of pieces by time -/

/-- A piece has the data of the seconds from `u` to `v` of the segment. -/
structure Shares (seg : CdrSeg) (u v : Int) (piece : CdrSeg) : Prop where
  startData : piece.m_startData = seg.m_startData + share seg.m_data seg.m_duration u
  endData : piece.m_endData =
    if v = seg.m_endSecond - seg.m_startSecond then seg.m_endData
    else piece.m_startData + share seg.m_data seg.m_duration (v - u)
  data : piece.m_data = piece.m_endData - piece.m_startData

/-- The data of an inner piece, by the source's difference for the last one. -/
theorem cutData_shares {seg piece : CdrSeg} {u v : Int}
    (hu : piece.m_startSecond - seg.m_startSecond = u) (hv : piece.m_duration = v - u)
    (hend : piece.m_endSecond = seg.m_endSecond ↔ v = seg.m_endSecond - seg.m_startSecond) :
    seg.Shares u v (seg.cutData piece) := by
  constructor
  · simp only [cutData, hu]
  · simp only [cutData, hu, hv]
    by_cases hlast : v = seg.m_endSecond - seg.m_startSecond
    · rw [if_pos hlast, if_pos (hend.mpr hlast)]
      omega
    · rw [if_neg hlast, if_neg (mt hend.mp hlast)]
  · simp only [cutData]
    omega

/-- The whole segment has all of it. -/
theorem shares_whole {seg : CdrSeg} (hsize : seg.m_data = seg.m_endData - seg.m_startData) :
    seg.Shares 0 (seg.m_endSecond - seg.m_startSecond) seg := by
  constructor
  · simp
  · rw [if_pos rfl]
  · exact hsize

/-- A piece cut by seconds gets its share of the data. -/
theorem split_shares {lib : TimeLib} {seg : CdrSeg} {u v : Int}
    (hsize : seg.m_data = seg.m_endData - seg.m_startData)
    (hlow : seg.m_startSecond ≤ u) (huv : u < v) (hhigh : v ≤ seg.m_endSecond) :
    ∃ piece, seg.split lib u v = some piece ∧
      seg.Shares (u - seg.m_startSecond) (v - seg.m_startSecond) piece := by
  rw [split, if_neg (by omega)]
  by_cases hwhole : u ≤ seg.m_startSecond ∧ v ≥ seg.m_endSecond
  · refine ⟨seg, if_pos hwhole, ?_⟩
    rw [show u - seg.m_startSecond = 0 by omega, show v = seg.m_endSecond by omega]
    exact shares_whole hsize
  · have hstart : (if u > seg.m_startSecond then u else seg.m_startSecond) = u := by
      split_ifs <;> omega
    have hend : (if v < seg.m_endSecond then v else seg.m_endSecond) = v := by
      split_ifs <;> omega
    simp only [hstart, hend]
    rw [if_neg hwhole, if_neg (by omega)]
    refine ⟨_, rfl, cutData_shares rfl ?_ ?_⟩
    · dsimp only
      omega
    · dsimp only
      omega

/-- A piece cut by points of time gets its share of the data. -/
theorem splitDateTime_shares {lib : TimeLib} {seg : CdrSeg} {u v : DateTime}
    (hsize : seg.m_data = seg.m_endData - seg.m_startData) (htimed : seg.Timed lib)
    (hlow : seg.startTime lib ≤ u.time lib) (huv : u.time lib < v.time lib)
    (hhigh : v.time lib ≤ seg.endTime lib) :
    ∃ piece, seg.splitDateTime lib u v = some piece ∧
      seg.Shares (u.time lib - seg.startTime lib) (v.time lib - seg.startTime lib) piece := by
  have hclock := htimed.clock
  have hseconds := htimed.seconds
  unfold startTime endTime at *
  simp only [splitDateTime, DateTime.ge_iff, DateTime.le_iff, DateTime.gt_iff, DateTime.lt_iff,
    DateTime.minus]
  rw [if_neg (by omega)]
  by_cases hwhole : u.time lib ≤ seg.m_startDateTime.time lib ∧
      seg.m_endDateTime.time lib ≤ v.time lib
  · refine ⟨seg, if_pos hwhole, ?_⟩
    rw [show u.time lib - seg.m_startDateTime.time lib = 0 by omega,
      show v.time lib - seg.m_startDateTime.time lib = seg.m_endSecond - seg.m_startSecond by omega]
    exact shares_whole hsize
  · have hstart : (if seg.m_startDateTime.time lib < u.time lib then u
        else seg.m_startDateTime).time lib = u.time lib := by
      split_ifs <;> omega
    have hend : (if v.time lib < seg.m_endDateTime.time lib then v
        else seg.m_endDateTime).time lib = v.time lib := by
      split_ifs <;> omega
    simp only [hstart, hend]
    rw [if_neg hwhole, if_neg (by omega)]
    refine ⟨_, rfl, cutData_shares ?_ ?_ ?_⟩
    · dsimp only
      omega
    · dsimp only
      omega
    · dsimp only
      omega

section Tile

variable {T : Type*} {seg : CdrSeg} {cut : T × T → Option CdrSeg} {offset : T → Int} {a b : T}
  {cuts : List T}

/-- **The data ranges fit when no remainder is carried**, except at the end, where the last piece is
made to fit. -/
theorem leads_shares (hdata : 0 ≤ seg.m_data) (hduration : 0 < seg.m_duration)
    (hcut : ∀ p ∈ steps a cuts b, ∃ piece, cut p = some piece ∧
      seg.Shares (offset p.1) (offset p.2) piece)
    (hsteps : ∀ p ∈ steps a cuts b, 0 ≤ offset p.1 ∧ offset p.1 < offset p.2 ∧
      offset p.2 ≤ seg.m_endSecond - seg.m_startSecond)
    (hend : offset b = seg.m_endSecond - seg.m_startSecond)
    (hfits : ∀ c ∈ cuts, offset c * seg.m_data < 2 ^ 63) :
    Leads m_startData m_endData
        (seg.m_startData + share seg.m_data seg.m_duration (offset a))
        ((steps a cuts b).filterMap cut) seg.m_endData ↔
      ∀ p ∈ steps a cuts b, offset p.2 < seg.m_endSecond - seg.m_startSecond →
        seg.NoCarry (offset p.1) (offset p.2) := by
  induction cuts generalizing a with
  | nil =>
      simp only [steps, List.forall_mem_singleton] at hcut ⊢
      obtain ⟨piece, hpiece, hshares⟩ := hcut
      have hlast := hshares.endData
      rw [if_pos hend] at hlast
      simp only [List.filterMap_cons, hpiece, List.filterMap_nil, Leads, hlast, hshares.startData,
        and_self, true_iff]
      intro hlt
      omega
  | cons c cuts ih =>
      simp only [steps, List.forall_mem_cons] at hcut hsteps ⊢
      obtain ⟨⟨piece, hpiece, hshares⟩, hcuts⟩ := hcut
      obtain ⟨⟨hlow, hspan, -⟩, hrest⟩ := hsteps
      obtain ⟨m, rest, hsplit⟩ := steps_head c cuts b
      have hm : (c, m) ∈ steps c cuts b := by
        rw [hsplit]
        exact List.mem_cons_self
      have hinner : offset c < seg.m_endSecond - seg.m_startSecond :=
        (hrest _ hm).2.1.trans_le (hrest _ hm).2.2
      have hnext := hshares.endData
      rw [if_neg hinner.ne, hshares.startData, Int.add_assoc] at hnext
      have hcarry := share_add_iff hdata hduration hlow hspan.le (hfits c List.mem_cons_self)
      have hih := ih hcuts hrest fun c' hc' => hfits c' (List.mem_cons_of_mem c hc')
      rw [List.filterMap_cons, hpiece]
      simp only [Leads, hshares.startData, true_and, hinner, forall_const, hnext]
      by_cases hfits : seg.NoCarry (offset a) (offset c)
      · rw [hcarry.mpr hfits, hih]
        simp only [hfits, true_and]
      · -- the next piece begins where the seconds before it lead, which is further on
        obtain ⟨piece', hpiece', hshares'⟩ := hcuts _ hm
        have hthere : piece'.m_startData =
            seg.m_startData + share seg.m_data seg.m_duration (offset c) := hshares'.startData
        simp only [hfits, false_and, iff_false]
        rw [hsplit, List.filterMap_cons, hpiece']
        rintro ⟨hstart, -⟩
        rw [hthere] at hstart
        exact hfits (hcarry.mp (by omega))

/-- The sum of the data is then what it was. -/
theorem dataTiles_iff {l : List CdrSeg} (hsize : seg.m_data = seg.m_endData - seg.m_startData)
    (hl : ∀ piece ∈ l, piece.m_data = piece.m_endData - piece.m_startData) :
    seg.DataTiles l ↔ Leads m_startData m_endData seg.m_startData l seg.m_endData := by
  refine ⟨And.left, fun h => ⟨h, ?_⟩⟩
  rw [List.map_congr_left hl, h.sum, hsize]

/-- The products stay in the range when that of every cut does. -/
theorem cutFits_iff (hdata : 0 ≤ seg.m_data)
    (hsteps : ∀ p ∈ steps a cuts b, 0 ≤ offset p.1 ∧ offset p.1 < offset p.2 ∧
      offset p.2 ≤ seg.m_endSecond - seg.m_startSecond)
    (hstart : offset a = 0) (hend : offset b = seg.m_endSecond - seg.m_startSecond) :
    (∀ p ∈ steps a cuts b, seg.CutFits (offset p.1) (offset p.2)) ↔
      ∀ c ∈ cuts, offset c * seg.m_data < 2 ^ 63 := by
  constructor
  · intro hfits
    have hstarts := (forall_steps_fst (P := fun t => InLong (offset t * seg.m_data))).mp
      fun p hp => (hfits p hp).1
    exact fun c hc => (hstarts.2 c hc).2
  · intro hcuts p hp
    have hfirst := (forall_steps_fst (b := b) (P := fun t => offset t * seg.m_data < 2 ^ 63)).mpr
      ⟨by simp [hstart], hcuts⟩ p hp
    have hsecond := (forall_steps_snd (a := a) (b := b) (P := fun t =>
      offset t ≠ seg.m_endSecond - seg.m_startSecond → offset t * seg.m_data < 2 ^ 63)).mpr
        ⟨fun c hc _ => hcuts c hc, fun hne => absurd hend hne⟩ p hp
    obtain ⟨hlow, hspan, -⟩ := hsteps p hp
    refine ⟨(inLong_mul hdata hlow).mpr hfirst, fun hne => ?_⟩
    apply (inLong_mul hdata (by omega)).mpr
    exact mul_lt_long hdata (by omega) (hsecond hne)

variable (cut offset) in
/-- The pieces between cuts tile the data when no product is too large and no remainder is
carried. -/
theorem dataTiles_shares (hsize : seg.m_data = seg.m_endData - seg.m_startData)
    (hdata : 0 ≤ seg.m_data) (hduration : 0 < seg.m_duration)
    (hcut : ∀ p ∈ steps a cuts b, ∃ piece, cut p = some piece ∧
      seg.Shares (offset p.1) (offset p.2) piece)
    (hsteps : ∀ p ∈ steps a cuts b, 0 ≤ offset p.1 ∧ offset p.1 < offset p.2 ∧
      offset p.2 ≤ seg.m_endSecond - seg.m_startSecond)
    (hstart : offset a = 0) (hend : offset b = seg.m_endSecond - seg.m_startSecond) :
    ((∀ p ∈ steps a cuts b, seg.CutFits (offset p.1) (offset p.2)) ∧
        seg.DataTiles ((steps a cuts b).filterMap cut)) ↔
      (∀ c ∈ cuts, offset c * seg.m_data < 2 ^ 63) ∧
      ∀ p ∈ steps a cuts b, offset p.2 < seg.m_endSecond - seg.m_startSecond →
        seg.NoCarry (offset p.1) (offset p.2) := by
  have hl : ∀ piece ∈ (steps a cuts b).filterMap cut,
      piece.m_data = piece.m_endData - piece.m_startData := by
    intro piece hpiece
    obtain ⟨p, hp, hsome⟩ := List.mem_filterMap.mp hpiece
    obtain ⟨piece', hpiece', hshares⟩ := hcut p hp
    obtain rfl := Option.some_injective _ (hpiece'.symm.trans hsome)
    exact hshares.data
  rw [cutFits_iff hdata hsteps hstart hend]
  apply and_congr_right
  intro hfits
  rw [dataTiles_iff hsize hl, ← leads_shares hdata hduration hcut hsteps hend hfits, hstart,
    share_zero, Int.add_zero]

end Tile

/-- **A segment that is cut by time keeps its data** exactly when every cut is near enough for its
product, and no remainder is carried at an inner cut. -/
theorem split_tiles_iff (lib : TimeLib) (seg : CdrSeg)
    (hsize : seg.m_data = seg.m_endData - seg.m_startData) (hdata : 0 ≤ seg.m_data)
    (htimed : seg.Timed lib) (hduration : 0 < seg.m_duration) :
    (∀ cuts, Increasing seg.m_startSecond cuts seg.m_endSecond →
      (((∀ p ∈ steps seg.m_startSecond cuts seg.m_endSecond,
          seg.CutFits (p.1 - seg.m_startSecond) (p.2 - seg.m_startSecond)) ∧
        seg.DataTiles (seg.pieces lib cuts)) ↔
        (∀ c ∈ cuts, (c - seg.m_startSecond) * seg.m_data < 2 ^ 63) ∧
        ∀ p ∈ steps seg.m_startSecond cuts seg.m_endSecond, p.2 < seg.m_endSecond →
          seg.NoCarry (p.1 - seg.m_startSecond) (p.2 - seg.m_startSecond))) ∧
    ∀ cuts : List DateTime,
      Increasing (seg.startTime lib) (cuts.map (DateTime.time lib)) (seg.endTime lib) →
      (((∀ p ∈ steps seg.m_startDateTime cuts seg.m_endDateTime,
          seg.CutFits (p.1.time lib - seg.startTime lib) (p.2.time lib - seg.startTime lib)) ∧
        seg.DataTiles (seg.piecesDateTime lib cuts)) ↔
        (∀ c ∈ cuts, (c.time lib - seg.startTime lib) * seg.m_data < 2 ^ 63) ∧
        ∀ p ∈ steps seg.m_startDateTime cuts seg.m_endDateTime, p.2.time lib < seg.endTime lib →
          seg.NoCarry (p.1.time lib - seg.startTime lib) (p.2.time lib - seg.startTime lib)) := by
  have hclock := htimed.clock
  have hseconds := htimed.seconds
  constructor
  · intro cuts hcuts
    have hsteps := hcuts.steps
    have htiles := dataTiles_shares (fun p => seg.split lib p.1 p.2)
      (fun t => t - seg.m_startSecond) hsize hdata hduration
      (fun p hp => split_shares hsize (hsteps p hp).1 (hsteps p hp).2.1 (hsteps p hp).2.2)
      (fun p hp => by have := hsteps p hp; omega) (Int.sub_self _) rfl
    simpa only [pieces, sub_lt_sub_iff_right] using htiles
  · intro cuts hcuts
    have hsteps : ∀ p ∈ steps seg.m_startDateTime cuts seg.m_endDateTime,
        seg.startTime lib ≤ p.1.time lib ∧ p.1.time lib < p.2.time lib ∧
          p.2.time lib ≤ seg.endTime lib := by
      intro p hp
      refine hcuts.steps (p.1.time lib, p.2.time lib) ?_
      rw [startTime, endTime, steps_map]
      exact List.mem_map_of_mem hp
    have hlength : seg.endTime lib - seg.startTime lib = seg.m_endSecond - seg.m_startSecond :=
      hclock.trans hseconds.symm
    have htiles := dataTiles_shares (fun p => seg.splitDateTime lib p.1 p.2)
      (fun t => t.time lib - seg.startTime lib) hsize hdata hduration
      (fun p hp => splitDateTime_shares hsize htimed (hsteps p hp).1 (hsteps p hp).2.1
        (hsteps p hp).2.2)
      (fun p hp => by have := hsteps p hp; omega) (Int.sub_self _) hlength
    simpa only [piecesDateTime, ← hlength, sub_lt_sub_iff_right] using htiles

/-- Ten seconds of a call with five units of data. -/
def tenSeconds : CdrSeg :=
  ⟨⟨20260105, 80000⟩, ⟨20260105, 80010⟩, 10, 0, 10, 5, 0, 5⟩

/-- Cut at even seconds it keeps its data, by seconds as by points in time. -/
theorem tenSeconds_tiles :
    tenSeconds.DataTiles (tenSeconds.pieces (exactLib 0) [2, 6]) ∧
      tenSeconds.DataTiles
        (tenSeconds.piecesDateTime (exactLib 0) [⟨20260105, 80002⟩, ⟨20260105, 80006⟩]) := by
  have htiles := split_tiles_iff (exactLib 0) tenSeconds (by decide) (by decide) (by decide)
    (by decide)
  exact ⟨((htiles.1 _ (by decide)).mpr (by decide)).2, ((htiles.2 _ (by decide)).mpr (by decide)).2⟩

/-- The second from 1 to 2 has no whole unit, and the unit that is over before the next piece begins
is in no piece. -/
theorem tenSeconds_loses :
    (0 ≤ tenSeconds.m_data ∧ 0 < tenSeconds.m_duration ∧ tenSeconds.Timed (exactLib 0) ∧
      tenSeconds.m_data = tenSeconds.m_endData - tenSeconds.m_startData ∧
      Increasing tenSeconds.m_startSecond [1, 2] tenSeconds.m_endSecond) ∧
    ((tenSeconds.pieces (exactLib 0) [1, 2]).map fun p => (p.m_startData, p.m_endData)) =
      [(0, 0), (0, 0), (1, 5)] ∧
    ¬ tenSeconds.DataTiles (tenSeconds.pieces (exactLib 0) [1, 2]) ∧
    ¬ tenSeconds.DataTiles
      (tenSeconds.piecesDateTime (exactLib 0) [⟨20260105, 80001⟩, ⟨20260105, 80002⟩]) := by
  refine ⟨by decide, by decide, fun h => ?_, fun h => ?_⟩
  · exact absurd h.2 (by decide)
  · exact absurd h.2 (by decide)

/-- Eight seconds of a call with an enormous amount of data. -/
def eightSeconds : CdrSeg :=
  ⟨⟨20260105, 80000⟩, ⟨20260105, 80008⟩, 8, 0, 8, 2 ^ 62, 0, 2 ^ 62⟩

/-- No remainder is carried at the seconds 2 and 4, but the products are too large: on a machine that
wraps, the second piece begins below zero. -/
theorem eightSeconds_overflows :
    (∀ p ∈ steps eightSeconds.m_startSecond [2, 4] eightSeconds.m_endSecond,
      eightSeconds.NoCarry p.1 p.2) ∧
    ((eightSeconds.pieces (exactLib 0) [2, 4]).map fun p => (p.m_startData, p.m_endData)) =
      [(0, -2 ^ 60), (-2 ^ 60, -2 ^ 61), (0, 2 ^ 62)] := by
  decide

/-! ## The time of pieces by data -/

/-- How much of the duration is over when the data have come to `x`; at the end it is the whole. -/
def secondsAt (seg : CdrSeg) (x : Int) : Int :=
  if x = seg.m_endData then seg.m_duration
  else share seg.m_duration seg.m_data (x - seg.m_startData)

/-- A piece with the data from `u` to `v`: both its ends are as far from the start of the segment as
the data before them. -/
structure Times (lib : TimeLib) (seg : CdrSeg) (u v : Int) (piece : CdrSeg) : Prop where
  startData : piece.m_startData = u
  endData : piece.m_endData = v
  data : piece.m_data = v - u
  startSecond : piece.m_startSecond = seg.m_startSecond + seg.secondsAt u
  endSecond : piece.m_endSecond = seg.m_startSecond + seg.secondsAt v
  startTime : piece.startTime lib = seg.startTime lib + seg.secondsAt u
  endTime : piece.endTime lib = seg.startTime lib + seg.secondsAt v
  duration : piece.m_duration = piece.m_endSecond - piece.m_startSecond

section Seconds

variable {seg : CdrSeg} {u v : Int} (hsize : seg.m_data = seg.m_endData - seg.m_startData)
  (hdata : 0 < seg.m_data)

include hsize hdata

/-- At the begin no second has passed. -/
theorem secondsAt_start : seg.secondsAt seg.m_startData = 0 := by
  rw [secondsAt, if_neg (by omega), Int.sub_self, share_zero]

/-- With products in the range the seconds do not run backwards. -/
theorem secondsAt_mono (hduration : 0 ≤ seg.m_duration) (hlow : seg.m_startData ≤ u) (huv : u < v)
    (hhigh : v ≤ seg.m_endData)
    (hu : (u - seg.m_startData) * seg.m_duration < 2 ^ 63)
    (hv : v ≠ seg.m_endData → (v - seg.m_startData) * seg.m_duration < 2 ^ 63) :
    seg.secondsAt u ≤ seg.secondsAt v := by
  have hnonneg : 0 ≤ u - seg.m_startData := by omega
  rw [secondsAt, secondsAt, if_neg (by omega : u ≠ seg.m_endData)]
  split
  · exact share_le hduration hdata hnonneg (by omega) hu
  · exact share_mono hduration hdata hnonneg (by omega) (hv ‹_›)

end Seconds

/-- A piece cut by data gets its share of the seconds. -/
theorem split_data_times {lib : TimeLib} {zone : Int} {seg : CdrSeg} {u v : Int}
    (hlib : lib.Exact zone) (htimed : seg.Timed lib)
    (hsize : seg.m_data = seg.m_endData - seg.m_startData) (hdata : 0 < seg.m_data)
    (hlow : seg.m_startData ≤ u) (huv : u < v) (hhigh : v ≤ seg.m_endData) :
    ∃ piece, seg.split_data lib u v = some piece ∧ seg.Times lib u v piece := by
  have hclock := htimed.clock
  have hseconds := htimed.seconds
  have hbefore : seg.secondsAt u = share seg.m_duration seg.m_data (u - seg.m_startData) :=
    if_neg (by omega)
  have hend : seg.secondsAt seg.m_endData = seg.m_duration := if_pos rfl
  rw [split_data, if_neg (by omega)]
  by_cases hwhole : u ≤ seg.m_startData ∧ v ≥ seg.m_endData
  · refine ⟨seg, if_pos hwhole, ?_⟩
    have hnone := secondsAt_start hsize hdata
    obtain rfl : u = seg.m_startData := by omega
    obtain rfl : v = seg.m_endData := by omega
    exact ⟨rfl, rfl, hsize, by omega, by omega, by omega, by omega, by omega⟩
  · have hstart : (if u > seg.m_startData then u else seg.m_startData) = u := by
      split_ifs <;> omega
    have hmin : (if v < seg.m_endData then v else seg.m_endData) = v := by
      split_ifs <;> omega
    simp only [hstart, hmin]
    rw [if_neg hwhole, if_neg (by omega)]
    refine ⟨_, rfl, ?_⟩
    unfold CdrSeg.startTime CdrSeg.endTime at hclock
    by_cases hlast : v = seg.m_endData
    · subst hlast
      constructor <;>
        simp only [CdrSeg.startTime, CdrSeg.endTime, DateTime.minus, DateTime.time_plus hlib,
          hbefore, hend, if_true] <;> omega
    · have hafter : seg.secondsAt v = share seg.m_duration seg.m_data (v - seg.m_startData) :=
        if_neg hlast
      constructor <;>
        simp only [CdrSeg.startTime, CdrSeg.endTime, DateTime.minus, DateTime.time_plus hlib,
          hbefore, hafter, if_neg hlast] <;> omega

section PiecesData

variable {lib : TimeLib} {zone : Int} {seg : CdrSeg} {cuts : List Int} (hlib : lib.Exact zone)
  (htimed : seg.Timed lib) (hsize : seg.m_data = seg.m_endData - seg.m_startData)
  (hdata : 0 < seg.m_data) (hcuts : Increasing seg.m_startData cuts seg.m_endData)

/-- The pieces have the data ranges between the cuts, and the seconds and the clock of the segment,
without a gap; no piece runs backwards. -/
structure TimeTiles (lib : TimeLib) (seg : CdrSeg) (cuts : List Int) (l : List CdrSeg) : Prop where
  ranges : l.map (fun p => (p.m_startData, p.m_endData)) =
    steps seg.m_startData cuts seg.m_endData
  data : seg.DataTiles l
  seconds : Leads m_startSecond m_endSecond seg.m_startSecond l seg.m_endSecond
  clock : Leads (startTime lib) (endTime lib) (seg.startTime lib) l (seg.endTime lib)
  nonneg : ∀ piece ∈ l, 0 ≤ piece.m_duration ∧ piece.Timed lib
  duration : (l.map m_duration).sum = seg.m_duration

include hlib htimed hsize hdata hcuts

/-- Every step between the cuts is a piece. -/
theorem cut_times : ∀ p ∈ steps seg.m_startData cuts seg.m_endData, ∃ piece,
    seg.split_data lib p.1 p.2 = some piece ∧ seg.Times lib p.1 p.2 piece := by
  intro p hp
  obtain ⟨hlow, hspan, hhigh⟩ := hcuts.steps p hp
  exact split_data_times hlib htimed hsize hdata hlow hspan hhigh

/-- Every piece comes from a step between two cuts. -/
theorem piecesData_times {piece : CdrSeg} (hpiece : piece ∈ seg.piecesData lib cuts) :
    ∃ p ∈ steps seg.m_startData cuts seg.m_endData, seg.Times lib p.1 p.2 piece := by
  obtain ⟨p, hp, hsome⟩ := List.mem_filterMap.mp hpiece
  obtain ⟨piece', hpiece', htimes⟩ := cut_times hlib htimed hsize hdata hcuts p hp
  obtain rfl := Option.some_injective _ (hpiece'.symm.trans hsome)
  exact ⟨p, hp, htimes⟩

/-- Ends that are as far from a start as the data before them lead through the whole duration. -/
theorem piecesData_leads {lo hi : CdrSeg → Int} (start finish : Int)
    (hfinish : finish - start = seg.m_duration)
    (hends : ∀ u v piece, seg.Times lib u v piece →
      lo piece = start + seg.secondsAt u ∧ hi piece = start + seg.secondsAt v) :
    Leads lo hi start (seg.piecesData lib cuts) finish := by
  apply leads_filterMap_steps (fun x => start + seg.secondsAt x)
  · rw [secondsAt_start hsize hdata, Int.add_zero]
  · rw [secondsAt, if_pos rfl]
    omega
  · intro p hp
    obtain ⟨piece, hpiece, htimes⟩ := cut_times hlib htimed hsize hdata hcuts p hp
    exact ⟨piece, hpiece, hends _ _ _ htimes⟩

/-- **The data of the pieces are those of the record**, whatever the products are. -/
theorem piecesData_dataTiles : seg.DataTiles (seg.piecesData lib cuts) := by
  refine (dataTiles_iff hsize fun piece hpiece => ?_).mpr
    (leads_filterMap_steps id rfl rfl fun p hp => ?_)
  · obtain ⟨p, -, htimes⟩ := piecesData_times hlib htimed hsize hdata hcuts hpiece
    rw [htimes.data, htimes.startData, htimes.endData]
  · obtain ⟨piece, hpiece, htimes⟩ := cut_times hlib htimed hsize hdata hcuts p hp
    exact ⟨piece, hpiece, htimes.startData, htimes.endData⟩

/-- If the products fit, the pieces last from their begin to their end. -/
theorem piecesData_timed (hduration : 0 ≤ seg.m_duration)
    (hfits : ∀ c ∈ cuts, (c - seg.m_startData) * seg.m_duration < 2 ^ 63) {piece : CdrSeg}
    (hpiece : piece ∈ seg.piecesData lib cuts) : 0 ≤ piece.m_duration ∧ piece.Timed lib := by
  obtain ⟨p, hp, htimes⟩ := piecesData_times hlib htimed hsize hdata hcuts hpiece
  obtain ⟨hlow, hspan, hhigh⟩ := hcuts.steps p hp
  have hfirst := (forall_steps_fst (b := seg.m_endData)
    (P := fun x => (x - seg.m_startData) * seg.m_duration < 2 ^ 63)).mpr ⟨by simp, hfits⟩ p hp
  have hsecond := (forall_steps_snd (a := seg.m_startData) (b := seg.m_endData) (P := fun x =>
    x ≠ seg.m_endData → (x - seg.m_startData) * seg.m_duration < 2 ^ 63)).mpr
      ⟨fun c hc _ => hfits c hc, fun hne => absurd rfl hne⟩ p hp
  have hmono := secondsAt_mono hsize hdata hduration hlow hspan hhigh hfirst hsecond
  have hseconds := htimes.duration
  rw [htimes.startSecond, htimes.endSecond] at hseconds
  refine ⟨by omega, ?_, htimes.duration.symm⟩
  rw [htimes.startTime, htimes.endTime]
  omega

/-- The pieces tile the segment when no product is too large. -/
theorem piecesData_timeTiles (hduration : 0 ≤ seg.m_duration)
    (hfits : ∀ c ∈ cuts, (c - seg.m_startData) * seg.m_duration < 2 ^ 63) :
    seg.TimeTiles lib cuts (seg.piecesData lib cuts) := by
  have hseconds : Leads m_startSecond m_endSecond seg.m_startSecond (seg.piecesData lib cuts)
      seg.m_endSecond :=
    piecesData_leads hlib htimed hsize hdata hcuts _ _ htimed.seconds
      fun _ _ _ htimes => ⟨htimes.startSecond, htimes.endSecond⟩
  have htimes : ∀ piece ∈ seg.piecesData lib cuts, 0 ≤ piece.m_duration ∧ piece.Timed lib :=
    fun _ hpiece => piecesData_timed hlib htimed hsize hdata hcuts hduration hfits hpiece
  constructor
  case ranges =>
    refine map_filterMap_of_forall fun p hp => ?_
    obtain ⟨piece, hpiece, htimes⟩ := cut_times hlib htimed hsize hdata hcuts p hp
    exact ⟨piece, hpiece, Prod.ext htimes.startData htimes.endData⟩
  case data => exact piecesData_dataTiles hlib htimed hsize hdata hcuts
  case seconds => exact hseconds
  case clock =>
    exact piecesData_leads hlib htimed hsize hdata hcuts _ _ htimed.clock
      fun _ _ _ htimes => ⟨htimes.startTime, htimes.endTime⟩
  case nonneg => exact htimes
  case duration =>
    rw [List.map_congr_left fun p hp => (htimes p hp).2.seconds.symm, hseconds.sum, htimed.seconds]

/-- **A segment that is cut by data keeps its time** exactly when the product of every cut is a
`long`. -/
theorem split_data_tiles_iff (hduration : 0 ≤ seg.m_duration) :
    ((∀ p ∈ steps seg.m_startData cuts seg.m_endData,
        seg.CutDataFits (p.1 - seg.m_startData) (p.2 - seg.m_startData)) ∧
      seg.TimeTiles lib cuts (seg.piecesData lib cuts)) ↔
      ∀ c ∈ cuts, (c - seg.m_startData) * seg.m_duration < 2 ^ 63 := by
  constructor
  · intro h
    have hstarts := (forall_steps_fst
      (P := fun x => InLong ((x - seg.m_startData) * seg.m_duration))).mp fun p hp => (h.1 p hp).1
    exact fun c hc => (hstarts.2 c hc).2
  · intro hfits
    refine ⟨fun p hp => ?_, piecesData_timeTiles hlib htimed hsize hdata hcuts hduration hfits⟩
    obtain ⟨hlow, hspan, hhigh⟩ := hcuts.steps p hp
    have hfirst := (forall_steps_fst (b := seg.m_endData)
      (P := fun x => (x - seg.m_startData) * seg.m_duration < 2 ^ 63)).mpr ⟨by simp, hfits⟩ p hp
    have hsecond := (forall_steps_snd (a := seg.m_startData) (b := seg.m_endData) (P := fun x =>
      x - seg.m_startData ≠ seg.m_data → (x - seg.m_startData) * seg.m_duration < 2 ^ 63)).mpr
        ⟨fun c hc _ => hfits c hc, fun hne => absurd hsize.symm hne⟩ p hp
    refine ⟨(inLong_mul hduration (by omega)).mpr hfirst, fun hne => ?_⟩
    exact (inLong_mul hduration (by omega)).mpr (hsecond hne)

end PiecesData

/-- A record of ten seconds cut at 1 and at 4. -/
theorem tenSeconds_data_tiles :
    tenSeconds.TimeTiles (exactLib 0) [1, 4] (tenSeconds.piecesData (exactLib 0) [1, 4]) := by
  have htiles := @split_data_tiles_iff _ _ tenSeconds [1, 4] (exactLib_exact 0)
    (by decide) (by decide) (by decide) (by decide) (by decide)
  exact (htiles.mpr (by decide)).2

/-- A call of 97 days with two terabytes. -/
def longCall : CdrSeg :=
  ⟨⟨20260105, 80000⟩, ⟨20260412, 101008⟩, 8388608, 0, 8388608, 2 ^ 41, 0, 2 ^ 41⟩

/-- **Cut in the middle, the second piece begins 48 days before the call**: 2^40 times 2^23 is one
more than a `long` holds. -/
theorem longCall_not_tiles :
    (0 < longCall.m_data ∧ 0 ≤ longCall.m_duration ∧ longCall.Timed (exactLib 0) ∧
      longCall.m_data = longCall.m_endData - longCall.m_startData ∧
      Increasing longCall.m_startData [2 ^ 40] longCall.m_endData) ∧
    (longCall.piecesData (exactLib 0) [2 ^ 40]).map (fun p => (p.m_startSecond, p.m_endSecond)) =
      [(0, -4194304), (-4194304, 8388608)] ∧
    ¬ longCall.TimeTiles (exactLib 0) [2 ^ 40] (longCall.piecesData (exactLib 0) [2 ^ 40]) := by
  have hseconds : (longCall.piecesData (exactLib 0) [2 ^ 40]).map m_duration =
      [-4194304, 12582912] := by decide
  refine ⟨by decide, by decide, fun h => ?_⟩
  have hmem : -4194304 ∈ (longCall.piecesData (exactLib 0) [2 ^ 40]).map m_duration :=
    hseconds ▸ List.mem_cons_self
  obtain ⟨piece, hpiece, hnegative⟩ := List.mem_map.mp hmem
  have hnonneg := (h.nonneg piece hpiece).1
  omega

end CdrSeg

end Rate
