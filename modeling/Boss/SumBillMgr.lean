import Boss.SegFeeInfo
import Mathlib.Algebra.Order.BigOperators.Group.List

/-!
# Totals of a part of a call

`getCurTpBillInfo` says what a call has cost, and what it has added to a total, up to a point of it.
A segment that is over gives what is stored for it; of the one that is cut, the units that have been
begun are counted, in the unit of its fee.  Whether the two agree is a matter of the segment alone
(`Rises`).

A point of a call is an instant and an amount of data.  The main results are

* `prefixValue_eq` — the total up to a point is what the segments give (`share`), added up;
* `share_mono` — a segment that rises gives no less at a later point;
* `prefixMeets_iff` — the total grows up to what is stored exactly when it does in every segment and
  nothing is stored beside the first entries.
-/

namespace Rate

namespace SumBillMgr

open SegFeeInfo MachineInt

/-- The segments that `computeFee` leaves; its sums, and the tag by which they are rounded, are left
out. -/
def computeFee (env : FeeEnv) (m_segInfoList : List SegFeeInfo) : Option (List SegFeeInfo) :=
  m_segInfoList.mapM (compute env)

section Definitions

variable (lib : TimeLib) (r_dateTime : DateTime) (r_data : Int) (r_sumBillInfo : RateBillId)
  (seg : SegFeeInfo)

/-- The segment starts at the point or after it. -/
def After : Prop :=
  seg.m_startDateTime.gt lib r_dateTime ∨
    seg.m_startDateTime.eq lib r_dateTime ∧ seg.m_startData ≥ r_data

/-- The segment is over. -/
def Complete : Prop :=
  seg.m_endDateTime.lt lib r_dateTime ∨
    seg.m_endDateTime.eq lib r_dateTime ∧ seg.m_endData ≤ r_data

instance : Decidable (After lib r_dateTime r_data seg) := inferInstanceAs (Decidable (_ ∨ _))

instance : Decidable (Complete lib r_dateTime r_data seg) := inferInstanceAs (Decidable (_ ∨ _))

/-- The entries of the total in the segment. -/
def entries : List RateBillInfo := seg.m_billInfoList.filter (r_sumBillInfo = ·.m_billId)

/-- What is stored in the first entry of the total; the others are not looked at. -/
def stored : Int :=
  ((seg.m_billInfoList.find? (r_sumBillInfo = ·.m_billId)).map (·.m_billValue)).getD 0

/-- What an entry is for some units of the fee; nothing for the kinds that are not listed.  The
products are `long`s; of two in a row the upper bits can be dropped at the end. -/
def entryValue (t_unitCount : Int) (t_itr : RateBillInfo) : Int :=
  if t_itr.m_objType = .DURATION then toLong (seg.m_unitTime * t_unitCount)
  else if t_itr.m_objType = .TIMEFEE ∧ t_itr.m_unitValue > 0 then
    (toLong (t_itr.m_unitFee * t_unitCount * seg.m_unitTime)).tdiv t_itr.m_unitValue
  else if t_itr.m_objType = .DATAFEE ∧ t_itr.m_unitValue > 0 then
    (toLong (t_itr.m_unitFee * t_unitCount * seg.m_unitData)).tdiv t_itr.m_unitValue
  else if t_itr.m_objType = .DATA then toLong (seg.m_unitData * t_unitCount)
  else 0

/-- What is counted for some units, in all entries of the total. -/
def counted (t_unitCount : Int) : Int :=
  ((entries r_sumBillInfo seg).map (entryValue seg t_unitCount)).sum

/-- The length of the segment in what it is rated by, and the unit. -/
def unit : Int := if seg.m_rateMethod = .DATA then seg.m_unitData else seg.m_unitTime

/-- How far into the segment the point is. -/
def offset : Int :=
  if seg.m_rateMethod = .DATA then r_data - seg.m_startData
  else r_dateTime.minus lib seg.m_startDateTime

/-- The units that have been begun, but no more than there are; none when it divides by 0. -/
def t_unitCount : Option Int :=
  if unit seg = 0 then none
  else some (min (ceilTimes (offset lib r_dateTime r_data seg) (unit seg)) seg.m_unitCount)

/-- The loop, with the fee and the total so far. -/
def loop : List SegFeeInfo → Int × Int → Option (Int × Int)
  | [], sums => some sums
  | seg :: rest, sums =>
      if After lib r_dateTime r_data seg then some sums
      else if Complete lib r_dateTime r_data seg then
        loop rest (sums.1 + seg.m_value, sums.2 + stored r_sumBillInfo seg)
      else
        (t_unitCount lib r_dateTime r_data seg).bind fun t_unitCount =>
          loop rest
            (sums.1 + seg.m_unitFee * t_unitCount, sums.2 + counted r_sumBillInfo seg t_unitCount)

/-- `getCurTpBillInfo`, which gives the fee and the total. -/
def getCurTpBillInfo (m_segInfoList : List SegFeeInfo) : Option (Int × Int) :=
  loop lib r_dateTime r_data r_sumBillInfo m_segInfoList (0, 0)

end Definitions

/-! ## What each segment gives -/

section Shares

variable (lib : TimeLib) (r_dateTime : DateTime) (r_data : Int) (r_sumBillInfo : RateBillId)

/-- What a segment adds to the total up to the point. -/
def share (seg : SegFeeInfo) : Int :=
  if After lib r_dateTime r_data seg then 0
  else if Complete lib r_dateTime r_data seg then stored r_sumBillInfo seg
  else
    counted r_sumBillInfo seg
      (min (ceilTimes (offset lib r_dateTime r_data seg) (unit seg)) seg.m_unitCount)

/-- The total up to the point. -/
def prefixValue (m_segInfoList : List SegFeeInfo) : Option Int :=
  (getCurTpBillInfo lib r_dateTime r_data r_sumBillInfo m_segInfoList).map Prod.snd

variable {lib r_dateTime r_data r_sumBillInfo}

/-- Nothing is added after a segment that lies after the point, when those that follow it do too. -/
theorem share_after {seg : SegFeeInfo} {rest : List SegFeeInfo}
    (hafter : After lib r_dateTime r_data seg)
    (hrest : ∀ x ∈ rest, After lib r_dateTime r_data seg → After lib r_dateTime r_data x) :
    ((seg :: rest).map (share lib r_dateTime r_data r_sumBillInfo)).sum = 0 := by
  refine List.sum_eq_zero fun v hv => ?_
  obtain ⟨x, hx, rfl⟩ := List.mem_map.mp hv
  rcases List.mem_cons.mp hx with rfl | hx
  · exact if_pos hafter
  · exact if_pos (hrest x hx hafter)

/-- The loop adds up what the segments give. -/
theorem loop_snd {segs : List SegFeeInfo} (sums : Int × Int) (hunit : ∀ seg ∈ segs, 0 < unit seg)
    (horder : segs.Pairwise fun x y =>
      After lib r_dateTime r_data x → After lib r_dateTime r_data y) :
    (loop lib r_dateTime r_data r_sumBillInfo segs sums).map Prod.snd =
      some (sums.2 + (segs.map (share lib r_dateTime r_data r_sumBillInfo)).sum) := by
  induction segs generalizing sums with
  | nil => simp [loop]
  | cons seg rest ih =>
      rw [List.forall_mem_cons] at hunit
      rw [List.pairwise_cons] at horder
      by_cases hafter : After lib r_dateTime r_data seg
      · rw [loop, if_pos hafter, share_after hafter horder.1, add_zero]
        rfl
      · rw [loop, if_neg hafter, List.map_cons, List.sum_cons, ← add_assoc]
        by_cases hcomplete : Complete lib r_dateTime r_data seg
        · rw [if_pos hcomplete, ih _ hunit.2 horder.2, share, if_neg hafter, if_pos hcomplete]
        · rw [if_neg hcomplete, t_unitCount, if_neg hunit.1.ne', Option.bind_some,
            ih _ hunit.2 horder.2, share, if_neg hafter, if_neg hcomplete]

variable (r_sumBillInfo) in
/-- When with a segment after the point all segments behind it are after the point, the value is the
sum of the shares. -/
theorem prefixValue_eq {segs : List SegFeeInfo} (hunit : ∀ seg ∈ segs, 0 < unit seg)
    (horder : segs.Pairwise fun x y =>
      After lib r_dateTime r_data x → After lib r_dateTime r_data y) :
    prefixValue lib r_dateTime r_data r_sumBillInfo segs =
      some (segs.map (share lib r_dateTime r_data r_sumBillInfo)).sum := by
  rw [prefixValue, getCurTpBillInfo, loop_snd _ hunit horder, zero_add]

end Shares

/-! ## Points of a call -/

/-- What a segment is once its fee has been computed: its times and its data are lengths, what it is
rated by has a unit, and it is not without length when `compute` does not work it out. -/
structure Billed (lib : TimeLib) (seg : SegFeeInfo) : Prop where
  duration : seg.m_duration = seg.endTime lib - seg.startTime lib
  data : seg.m_data = seg.m_endData - seg.m_startData
  duration_nonneg : 0 ≤ seg.m_duration
  data_nonneg : 0 ≤ seg.m_data
  unit : 0 < unit seg
  intTag : CarryTag seg.m_intTag
  added : seg.m_segType = .COM_ADD_SEG → 0 ≤ seg.m_unitCount
  worked : (seg.m_segType = .COM_ADD_SEG ∨ ∃ t ∈ seg.m_billInfoList, t.m_objType = .FEE) →
    0 < seg.m_duration ∨ 0 < seg.m_data

/-- One segment follows another, in time and in data. -/
def Follows (lib : TimeLib) (x y : SegFeeInfo) : Prop :=
  x.endTime lib ≤ y.startTime lib ∧ x.m_endData ≤ y.m_startData

/-- The point lies in the call: its data are those of its instant. -/
def Coherent (lib : TimeLib) (segs : List SegFeeInfo) (t d : Int) : Prop :=
  ∀ seg ∈ segs, (seg.startTime lib < t → seg.m_startData ≤ d) ∧
    (t < seg.endTime lib → d ≤ seg.m_endData)

/-- The point lies in the segment. -/
def Inside (lib : TimeLib) (seg : SegFeeInfo) (t d : Int) : Prop :=
  (seg.startTime lib ≤ t ∧ t ≤ seg.endTime lib) ∧ seg.m_startData ≤ d ∧ d ≤ seg.m_endData

/-- How far into a segment a point comes at which the segment is not over: with the other length a
point may be at its end, without it only before it. -/
def reach (seg : SegFeeInfo) : Int :=
  if seg.m_rateMethod = .DATA then
    if 0 < seg.m_duration then seg.m_data else max 0 (seg.m_data - 1)
  else if 0 < seg.m_data then seg.m_duration else max 0 (seg.m_duration - 1)

/-- The most units that are counted before the segment is over. -/
def most (seg : SegFeeInfo) : Nat := (min (ceilTimes (reach seg) (unit seg)) seg.m_unitCount).toNat

/-- **What is counted grows with the units, up to what is stored.** -/
def Rises (r_sumBillInfo : RateBillId) (seg : SegFeeInfo) : Prop :=
  (∀ k < most seg, counted r_sumBillInfo seg k ≤ counted r_sumBillInfo seg (k + 1 : Nat)) ∧
    counted r_sumBillInfo seg (most seg) ≤ stored r_sumBillInfo seg

instance (r_sumBillInfo : RateBillId) (seg : SegFeeInfo) : Decidable (Rises r_sumBillInfo seg) :=
  inferInstanceAs (Decidable (_ ∧ _))

/-- All that the segment has under the total, and what of it is not in the first entry. -/
def total (r_sumBillInfo : RateBillId) (seg : SegFeeInfo) : Int :=
  ((entries r_sumBillInfo seg).map (·.m_billValue)).sum

def further (r_sumBillInfo : RateBillId) (seg : SegFeeInfo) : Int :=
  ((entries r_sumBillInfo seg).tail.map (·.m_billValue)).sum

section Points

variable {env : FeeEnv} {lib : TimeLib} {r_sumBillInfo : RateBillId} {seg raw x y : SegFeeInfo}
  {t t' : DateTime} {d d' : Int} {segs pre post : List SegFeeInfo}

/-- Duration and data of a billed segment are the differences of its ends. -/
theorem Billed.lengths (h : Billed lib seg) :
    (seg.m_duration = seg.endTime lib - seg.startTime lib ∧ 0 ≤ seg.m_duration) ∧
      seg.m_data = seg.m_endData - seg.m_startData ∧ 0 ≤ seg.m_data :=
  ⟨⟨h.duration, h.duration_nonneg⟩, h.data, h.data_nonneg⟩

/-- A segment is after the point when it starts later, or at the same time with no less data. -/
theorem after_iff :
    After lib t d seg ↔
      t.time lib < seg.startTime lib ∨ seg.startTime lib = t.time lib ∧ d ≤ seg.m_startData := by
  rw [After, DateTime.gt_iff]
  rfl

/-- A segment is over when it ends before the point, or at the same time with no more data. -/
theorem complete_iff :
    Complete lib t d seg ↔
      seg.endTime lib < t.time lib ∨ seg.endTime lib = t.time lib ∧ seg.m_endData ≤ d := Iff.rfl

/-- All that a segment has under the total is in the first entry or in the further ones. -/
theorem total_eq (r_sumBillInfo : RateBillId) (seg : SegFeeInfo) :
    total r_sumBillInfo seg = stored r_sumBillInfo seg + further r_sumBillInfo seg := by
  rw [total, further, stored, ← List.head?_filter]
  change ((entries r_sumBillInfo seg).map (·.m_billValue)).sum =
    ((entries r_sumBillInfo seg).head?.map (·.m_billValue)).getD 0 + _
  cases entries r_sumBillInfo seg with
  | nil => rfl
  | cons t l => simp

/-- No units, no fee. -/
theorem counted_zero (r_sumBillInfo : RateBillId) (seg : SegFeeInfo) :
    counted r_sumBillInfo seg 0 = 0 := by
  refine List.sum_eq_zero fun v hv => ?_
  obtain ⟨t, -, rfl⟩ := List.mem_map.mp hv
  unfold entryValue
  split_ifs <;> simp

/-- The number of units is not negative. -/
theorem unitCount_nonneg (hraw : raw.compute env = some seg) (hseg : Billed lib seg) :
    0 ≤ seg.m_unitCount := by
  rcases compute_spec hraw with hadd | ⟨hcount, -⟩
  · exact hseg.added hadd
  · rw [hcount, computeCount]
    cases seg.m_rateMethod with
    | TIME => exact getTimes_nonneg _ hseg.duration_nonneg
    | DATA => exact getDataTimes_nonneg _ hseg.data_nonneg

/-- Nothing is stored for a segment without length. -/
theorem stored_empty (hraw : raw.compute env = some seg) (hseg : Billed lib seg)
    (hduration : seg.m_duration = 0) (hdata : seg.m_data = 0) : stored r_sumBillInfo seg = 0 := by
  have hworked : ¬ (seg.m_segType = .COM_ADD_SEG ∨ ∃ t ∈ seg.m_billInfoList, t.m_objType = .FEE) :=
    fun h => by
      have hlength := hseg.worked h
      omega
  obtain ⟨hadd, hfee⟩ := not_or.mp hworked
  obtain ⟨-, hbills⟩ := (compute_spec hraw).resolve_left hadd
  unfold stored
  cases hfind : seg.m_billInfoList.find? (r_sumBillInfo = ·.m_billId) with
  | none => rfl
  | some t =>
      have hmem := List.mem_of_find?_eq_some hfind
      have hkind : t.m_objType ≠ .FEE := fun h => hfee ⟨t, hmem, h⟩
      have hvalue : billValue seg t = 0 := by
        unfold billValue
        rw [hduration, hdata, getTimes_zero _ hseg.intTag, getDataTimes_zero _ hseg.intTag]
        have hzero : toInt 0 = 0 := by decide
        cases hk : t.m_objType <;> simp_all
      exact (hbills t hmem).trans hvalue

/-- How far a point comes into a segment that it cuts. -/
theorem offset_bounds (hseg : Billed lib seg)
    (hcoherent : (seg.startTime lib < t.time lib → seg.m_startData ≤ d) ∧
      (t.time lib < seg.endTime lib → d ≤ seg.m_endData))
    (hafter : ¬ After lib t d seg) (hcomplete : ¬ Complete lib t d seg) :
    0 ≤ offset lib t d seg ∧ offset lib t d seg ≤ reach seg := by
  obtain ⟨⟨hduration, hduration'⟩, hdata, hdata'⟩ := hseg.lengths
  rw [after_iff] at hafter
  rw [complete_iff] at hcomplete
  have htime : t.minus lib seg.m_startDateTime = t.time lib - seg.startTime lib := rfl
  unfold offset reach
  rw [htime]
  split_ifs <;> omega

/-- The units that are counted. -/
theorem count_bounds (hraw : raw.compute env = some seg) (hseg : Billed lib seg)
    (hcoherent : (seg.startTime lib < t.time lib → seg.m_startData ≤ d) ∧
      (t.time lib < seg.endTime lib → d ≤ seg.m_endData))
    (hafter : ¬ After lib t d seg) (hcomplete : ¬ Complete lib t d seg) :
    ∃ k ≤ most seg,
      min (ceilTimes (offset lib t d seg) (unit seg)) seg.m_unitCount = (k : Int) := by
  obtain ⟨hlow, hhigh⟩ := offset_bounds hseg hcoherent hafter hcomplete
  have hcount := unitCount_nonneg hraw hseg
  have hceil := ceilTimes_nonneg hlow hseg.unit
  have hmono := ceilTimes_mono hlow hhigh hseg.unit
  obtain ⟨k, hk⟩ := Int.eq_ofNat_of_zero_le (le_min hceil hcount)
  refine ⟨k, ?_, hk⟩
  unfold most
  omega

/-- What is counted grows from any number of units to any other. -/
theorem Rises.mono (h : Rises r_sumBillInfo seg) {i j : Nat} (hij : i ≤ j) (hj : j ≤ most seg) :
    counted r_sumBillInfo seg i ≤ counted r_sumBillInfo seg j := by
  induction hij with
  | refl => rfl
  | step hle ih => exact (ih (by omega)).trans (h.1 _ (by omega))

theorem Rises.stored_nonneg (h : Rises r_sumBillInfo seg) : 0 ≤ stored r_sumBillInfo seg :=
  (counted_zero r_sumBillInfo seg).symm.le.trans ((h.mono (Nat.zero_le _) le_rfl).trans h.2)

/-- Up to a later point a segment adds no less. -/
theorem share_mono (hraw : raw.compute env = some seg) (hseg : Billed lib seg)
    (hrises : Rises r_sumBillInfo seg)
    (hcoherent : (seg.startTime lib < t.time lib → seg.m_startData ≤ d) ∧
      (t.time lib < seg.endTime lib → d ≤ seg.m_endData))
    (hcoherent' : (seg.startTime lib < t'.time lib → seg.m_startData ≤ d') ∧
      (t'.time lib < seg.endTime lib → d' ≤ seg.m_endData))
    (ht : t.time lib ≤ t'.time lib) (hd : d ≤ d') :
    share lib t d r_sumBillInfo seg ≤ share lib t' d' r_sumBillInfo seg := by
  -- the later point is before the segment, behind it or in it, and then where the earlier one is
  by_cases hafter' : After lib t' d' seg
  · have hafter : After lib t d seg := by
      rw [after_iff] at hafter' ⊢
      omega
    rw [share, if_pos hafter, share, if_pos hafter']
  by_cases hcomplete' : Complete lib t' d' seg
  · rw [share, share, if_neg hafter', if_pos hcomplete']
    by_cases hafter : After lib t d seg
    · rw [if_pos hafter]
      exact hrises.stored_nonneg
    · rw [if_neg hafter]
      by_cases hcomplete : Complete lib t d seg
      · rw [if_pos hcomplete]
      · obtain ⟨k, hk, hcount⟩ := count_bounds hraw hseg hcoherent hafter hcomplete
        rw [if_neg hcomplete, hcount]
        exact (hrises.mono hk le_rfl).trans hrises.2
  obtain ⟨k', hk', hcount'⟩ := count_bounds hraw hseg hcoherent' hafter' hcomplete'
  rw [share, share, if_neg hafter', if_neg hcomplete', hcount']
  by_cases hafter : After lib t d seg
  · rw [if_pos hafter, ← counted_zero r_sumBillInfo seg]
    exact hrises.mono (Nat.zero_le k') hk'
  · have hcomplete : ¬ Complete lib t d seg := by
      rw [complete_iff] at hcomplete' ⊢
      omega
    obtain ⟨k, hk, hcount⟩ := count_bounds hraw hseg hcoherent hafter hcomplete
    have hoffset : offset lib t d seg ≤ offset lib t' d' seg := by
      unfold offset DateTime.minus
      split_ifs <;> omega
    have hlow := (offset_bounds hseg hcoherent hafter hcomplete).1
    have hle := min_le_min_right seg.m_unitCount (ceilTimes_mono hlow hoffset hseg.unit)
    rw [hcount, hcount'] at hle
    rw [if_neg hafter, if_neg hcomplete, hcount]
    exact hrises.mono (Int.ofNat_le.mp hle) hk'

/-! ## A point in a segment -/

/-- What follows a segment after the point is after the point as well. -/
theorem after_follows (hxy : Follows lib x y) (hx : Billed lib x) (h : After lib t d x) :
    After lib t d y := by
  obtain ⟨⟨hduration, hduration'⟩, hdata, hdata'⟩ := hx.lengths
  obtain ⟨htime, hamount⟩ := hxy
  rw [after_iff] at h ⊢
  omega

/-- A segment before the point gives what is stored for it. -/
theorem share_before (hraw : raw.compute env = some x) (hx : Billed lib x)
    (ht : x.endTime lib ≤ t.time lib) (hd : x.m_endData ≤ d) :
    share lib t d r_sumBillInfo x = stored r_sumBillInfo x := by
  obtain ⟨⟨hduration, hduration'⟩, hdata, hdata'⟩ := hx.lengths
  have hcomplete : Complete lib t d x := by
    rw [complete_iff]
    omega
  by_cases hafter : After lib t d x
  · rw [share, if_pos hafter, stored_empty hraw hx]
    · rw [after_iff] at hafter
      omega
    · rw [after_iff] at hafter
      omega
  · rw [share, if_neg hafter, if_pos hcomplete]

/-- A point in a segment lies in the call. -/
theorem inside_coherent (hpre : ∀ x ∈ pre, Follows lib x seg) (hpost : ∀ x ∈ post, Follows lib seg x)
    (hbilled : ∀ x ∈ pre ++ seg :: post, Billed lib x) {t : Int} (h : Inside lib seg t d) :
    Coherent lib (pre ++ seg :: post) t d := by
  obtain ⟨⟨hlow, hhigh⟩, hlow', hhigh'⟩ := h
  intro x hx
  have hdata := (hbilled x hx).data
  have hdata' := (hbilled x hx).data_nonneg
  rcases List.mem_append.mp hx with hx | hx
  · obtain ⟨htime, hamount⟩ := hpre x hx
    constructor <;> intro <;> omega
  · rcases List.mem_cons.mp hx with rfl | hx
    · exact ⟨fun _ => hlow', fun _ => hhigh'⟩
    · obtain ⟨htime, hamount⟩ := hpost x hx
      constructor <;> intro <;> omega

/-- Up to a point in a segment the total is what is stored for those before it, and what it gives. -/
theorem prefixValue_inside (hraw : ∀ x ∈ pre ++ seg :: post, ∃ raw, compute env raw = some x)
    (hbilled : ∀ x ∈ pre ++ seg :: post, Billed lib x)
    (horder : (pre ++ seg :: post).Pairwise (Follows lib))
    (h : Inside lib seg (t.time lib) d) :
    prefixValue lib t d r_sumBillInfo (pre ++ seg :: post) =
      some ((pre.map (stored r_sumBillInfo)).sum + share lib t d r_sumBillInfo seg) := by
  have hafter : (pre ++ seg :: post).Pairwise fun x y => After lib t d x → After lib t d y :=
    horder.imp_of_mem fun hx _ hxy => after_follows hxy (hbilled _ hx)
  rw [prefixValue_eq r_sumBillInfo (fun x hx => (hbilled x hx).unit) hafter]
  obtain ⟨-, hseg, hcross⟩ := List.pairwise_append.mp horder
  obtain ⟨⟨hlow, hhigh⟩, hlow', hhigh'⟩ := h
  have hpre : pre.map (share lib t d r_sumBillInfo) = pre.map (stored r_sumBillInfo) := by
    refine List.map_congr_left fun x hx => ?_
    have hx' := List.mem_append_left (seg :: post) hx
    obtain ⟨raw, hcompute⟩ := hraw x hx'
    obtain ⟨htime, hamount⟩ := hcross x hx seg List.mem_cons_self
    exact share_before hcompute (hbilled x hx') (htime.trans hlow) (hamount.trans hlow')
  have hpost : (post.map (share lib t d r_sumBillInfo)).sum = 0 := by
    refine List.sum_eq_zero fun v hv => ?_
    obtain ⟨x, hx, rfl⟩ := List.mem_map.mp hv
    obtain ⟨htime, hamount⟩ := (List.pairwise_cons.mp hseg).1 x hx
    refine if_pos (after_iff.mpr ?_)
    omega
  rw [List.map_append, List.sum_append, hpre, List.map_cons, List.sum_cons, hpost, add_zero]

variable (lib seg) in
/-- The point at which so much of the segment has passed, and no more than needs to of the rest. -/
def cutAt (x : Int) : DateTime × Int :=
  if seg.m_rateMethod = .DATA then (seg.m_startDateTime.plus lib 0, seg.m_startData + x)
  else (seg.m_startDateTime.plus lib x, seg.m_startData)

/-- The cut is as far behind the begin as the length says, in time or in data. -/
theorem cutAt_time {zone : Int} (hlib : lib.Exact zone) (seg : SegFeeInfo) (x : Int) :
    ((cutAt lib seg x).1.time lib, (cutAt lib seg x).2) =
      if seg.m_rateMethod = .DATA then (seg.startTime lib, seg.m_startData + x)
      else (seg.startTime lib + x, seg.m_startData) := by
  unfold cutAt
  split_ifs
  · rw [DateTime.time_plus hlib, add_zero]
    rfl
  · rw [DateTime.time_plus hlib]
    rfl

/-- A longer part is cut later. -/
theorem cutAt_mono {zone : Int} (hlib : lib.Exact zone) (seg : SegFeeInfo) {x y : Int}
    (hxy : x ≤ y) :
    (cutAt lib seg x).1.time lib ≤ (cutAt lib seg y).1.time lib ∧
      (cutAt lib seg x).2 ≤ (cutAt lib seg y).2 := by
  have hx := cutAt_time hlib seg x
  have hy := cutAt_time hlib seg y
  split_ifs at hx hy
  all_goals
    obtain ⟨ht, hd⟩ := Prod.mk.injEq .. ▸ hx
    obtain ⟨ht', hd'⟩ := Prod.mk.injEq .. ▸ hy
    omega

variable (seg) in
/-- How much has passed when so many units have been begun. -/
def passed (k : Nat) : Int := min (k * unit seg) (reach seg)

section Cut

variable {zone : Int} (hlib : lib.Exact zone) (hseg : Billed lib seg)

include hseg

/-- A point at which a segment is not over is not in front of it. -/
theorem reach_nonneg : 0 ≤ reach seg := by
  have hduration' := hseg.duration_nonneg
  have hdata' := hseg.data_nonneg
  unfold reach
  split_ifs
  · exact hdata'
  · exact le_max_left _ _
  · exact hduration'
  · exact le_max_left _ _

theorem passed_bounds (k : Nat) : 0 ≤ passed seg k ∧ passed seg k ≤ reach seg :=
  ⟨le_min (mul_nonneg (Int.natCast_nonneg k) hseg.unit.le) (reach_nonneg hseg), min_le_right _ _⟩

/-- More units pass more of the segment. -/
theorem passed_mono (k : Nat) : passed seg k ≤ passed seg (k + 1) := by
  have hunit := hseg.unit
  have hnext : ((k + 1 : Nat) : Int) * unit seg = k * unit seg + unit seg := by
    rw [Nat.cast_succ, add_mul, one_mul]
  exact min_le_min_right _ (by omega)

/-- What `k` units pass is counted as `k` units. -/
theorem passed_count {k : Nat} (hcount : 0 ≤ seg.m_unitCount) (hk : k ≤ most seg) :
    min (ceilTimes (passed seg k) (unit seg)) seg.m_unitCount = (k : Int) := by
  have hreach := reach_nonneg hseg
  rcases Nat.eq_zero_or_pos k with rfl | hpos
  · have hzero : passed seg 0 = 0 := by
      rw [passed, Nat.cast_zero, zero_mul, min_eq_left hreach]
    rw [hzero, ceilTimes_zero hseg.unit, min_eq_left hcount]
    rfl
  · unfold most at hk
    rw [passed, ceilTimes_min hreach (by omega) (by omega) hseg.unit]
    omega

include hlib

/-- A cut within the length is in the segment. -/
theorem cutAt_inside {x : Int} (hx : 0 ≤ x) (hreach : x ≤ reach seg) :
    Inside lib seg ((cutAt lib seg x).1.time lib) (cutAt lib seg x).2 := by
  obtain ⟨⟨hduration, hduration'⟩, hdata, hdata'⟩ := hseg.lengths
  have hcut := cutAt_time hlib seg x
  unfold reach at hreach
  unfold Inside
  split_ifs at hcut hreach
  all_goals
    obtain ⟨ht, hd⟩ := Prod.mk.injEq .. ▸ hcut
    omega

/-- At such a point the units that have been begun are counted. -/
theorem share_cutAt {x : Int} (hx : 0 ≤ x) (hreach : x ≤ reach seg)
    (hcount : 0 ≤ seg.m_unitCount) :
    share lib (cutAt lib seg x).1 (cutAt lib seg x).2 r_sumBillInfo seg =
      counted r_sumBillInfo seg (min (ceilTimes x (unit seg)) seg.m_unitCount) := by
  obtain ⟨⟨hduration, hduration'⟩, hdata, hdata'⟩ := hseg.lengths
  have hcut := cutAt_time hlib seg x
  rcases hx.eq_or_lt with rfl | hpos
  · have hafter : After lib (cutAt lib seg 0).1 (cutAt lib seg 0).2 seg := by
      rw [after_iff]
      split_ifs at hcut
      all_goals
        obtain ⟨ht, hd⟩ := Prod.mk.injEq .. ▸ hcut
        omega
    rw [share, if_pos hafter, ceilTimes_zero hseg.unit, min_eq_left hcount, counted_zero]
  · have hcross : ¬ After lib (cutAt lib seg x).1 (cutAt lib seg x).2 seg ∧
        ¬ Complete lib (cutAt lib seg x).1 (cutAt lib seg x).2 seg ∧
        offset lib (cutAt lib seg x).1 (cutAt lib seg x).2 seg = x := by
      have htime : (cutAt lib seg x).1.minus lib seg.m_startDateTime =
          (cutAt lib seg x).1.time lib - seg.startTime lib := rfl
      rw [after_iff, complete_iff, offset, htime]
      unfold reach at hreach
      split_ifs at hcut hreach ⊢
      all_goals
        obtain ⟨ht, hd⟩ := Prod.mk.injEq .. ▸ hcut
        omega
    rw [share, if_neg hcross.1, if_neg hcross.2.1, hcross.2.2]

end Cut

/-- Every segment of the result is the computed form of one that was given. -/
theorem computeFee_mem {m_segInfoList : List SegFeeInfo}
    (h : computeFee env m_segInfoList = some segs) :
    ∀ x ∈ segs, ∃ raw, compute env raw = some x := by
  induction m_segInfoList generalizing segs with
  | nil =>
      obtain rfl := Option.some.inj h
      exact fun x hx => absurd hx List.not_mem_nil
  | cons raw rest ih =>
      rw [computeFee, List.mapM_cons] at h
      obtain ⟨seg, hseg, h⟩ := Option.bind_eq_some_iff.mp h
      obtain ⟨rest', hrest, h⟩ := Option.bind_eq_some_iff.mp h
      obtain rfl := Option.some.inj h
      exact List.forall_mem_cons.mpr ⟨⟨raw, hseg⟩, ih hrest⟩

/-- All segments have under the total what their first entries and the further ones have. -/
theorem sum_total (r_sumBillInfo : RateBillId) (segs : List SegFeeInfo) :
    (segs.map (total r_sumBillInfo)).sum =
      (segs.map (stored r_sumBillInfo)).sum + (segs.map (further r_sumBillInfo)).sum := by
  rw [← List.sum_map_add]
  exact congrArg List.sum (List.map_congr_left fun x _ => total_eq r_sumBillInfo x)

end Points

/-- The total up to a point does not fall as the point moves on, and at the end it is all that is
stored. -/
structure PrefixMeets (lib : TimeLib) (r_sumBillInfo : RateBillId) (segs : List SegFeeInfo) :
    Prop where
  monotone : ∀ (t t' : DateTime) (d d' : Int), Coherent lib segs (t.time lib) d →
    Coherent lib segs (t'.time lib) d' → t.le lib t' → d ≤ d' →
    ∃ v v', prefixValue lib t d r_sumBillInfo segs = some v ∧
      prefixValue lib t' d' r_sumBillInfo segs = some v' ∧ v ≤ v'
  full : ∀ last ∈ segs.getLast?,
    prefixValue lib last.m_endDateTime last.m_endData r_sumBillInfo segs =
      some (segs.map (total r_sumBillInfo)).sum

section Segments

variable {env : FeeEnv} {lib : TimeLib} {r_sumBillInfo : RateBillId} {seg : SegFeeInfo}
  {segs pre post : List SegFeeInfo} (hraw : ∀ x ∈ segs, ∃ raw, compute env raw = some x)
  (hbilled : ∀ x ∈ segs, Billed lib x) (horder : segs.Pairwise (Follows lib))

include hraw hbilled horder

variable (r_sumBillInfo) in
/-- At the end of a segment the total is what is stored up to there. -/
theorem prefixValue_end (hsegs : segs = pre ++ seg :: post) :
    Coherent lib segs (seg.endTime lib) seg.m_endData ∧
      prefixValue lib seg.m_endDateTime seg.m_endData r_sumBillInfo segs =
        some ((pre.map (stored r_sumBillInfo)).sum + stored r_sumBillInfo seg) := by
  subst hsegs
  have hmem : seg ∈ pre ++ seg :: post := List.mem_append_right _ List.mem_cons_self
  have hseg := hbilled seg hmem
  obtain ⟨⟨hduration, hduration'⟩, hdata, hdata'⟩ := hseg.lengths
  obtain ⟨-, hpost, hcross⟩ := List.pairwise_append.mp horder
  have hinside : Inside lib seg (seg.m_endDateTime.time lib) seg.m_endData :=
    ⟨⟨show seg.startTime lib ≤ seg.endTime lib by omega, le_rfl⟩, by omega, le_rfl⟩
  obtain ⟨raw, hcompute⟩ := hraw seg hmem
  refine ⟨inside_coherent (fun x hx => hcross x hx seg List.mem_cons_self)
    (List.pairwise_cons.mp hpost).1 hbilled hinside, ?_⟩
  rw [prefixValue_inside hraw hbilled horder hinside, share_before hcompute hseg le_rfl le_rfl]

variable (r_sumBillInfo) in
/-- Where so many units of a segment have been begun, they are counted. -/
theorem prefixValue_cutAt {zone : Int} (hlib : lib.Exact zone) (hsegs : segs = pre ++ seg :: post)
    {k : Nat} (hk : k ≤ most seg) :
    Coherent lib segs ((cutAt lib seg (passed seg k)).1.time lib) (cutAt lib seg (passed seg k)).2 ∧
      prefixValue lib (cutAt lib seg (passed seg k)).1 (cutAt lib seg (passed seg k)).2
          r_sumBillInfo segs =
        some ((pre.map (stored r_sumBillInfo)).sum + counted r_sumBillInfo seg k) := by
  subst hsegs
  have hmem : seg ∈ pre ++ seg :: post := List.mem_append_right _ List.mem_cons_self
  have hseg := hbilled seg hmem
  obtain ⟨raw, hcompute⟩ := hraw seg hmem
  have hcount := unitCount_nonneg hcompute hseg
  obtain ⟨hlow, hhigh⟩ := passed_bounds hseg k
  have hinside := cutAt_inside hlib hseg hlow hhigh
  obtain ⟨-, hpost, hcross⟩ := List.pairwise_append.mp horder
  refine ⟨inside_coherent (fun x hx => hcross x hx seg List.mem_cons_self)
    (List.pairwise_cons.mp hpost).1 hbilled hinside, ?_⟩
  rw [prefixValue_inside hraw hbilled horder hinside, share_cutAt hlib hseg hlow hhigh hcount,
    passed_count hseg hcount hk]

/-- Where what is counted rises in every segment and the further entries add up to nothing, the
prefixes meet the claim. -/
theorem prefixMeets_of_rises (hrises : ∀ x ∈ segs, Rises r_sumBillInfo x)
    (hfurther : (segs.map (further r_sumBillInfo)).sum = 0) :
    PrefixMeets lib r_sumBillInfo segs := by
  have hvalue (t : DateTime) (d : Int) := prefixValue_eq r_sumBillInfo
    (fun x hx => (hbilled x hx).unit) (horder.imp_of_mem fun hx _ hxy =>
      after_follows (t := t) (d := d) hxy (hbilled _ hx))
  refine ⟨fun t t' d d' hin hin' ht hd => ⟨_, _, hvalue t d, hvalue t' d', ?_⟩, fun last hlast => ?_⟩
  · refine List.sum_le_sum fun x hx => ?_
    obtain ⟨raw, hcompute⟩ := hraw x hx
    exact share_mono hcompute (hbilled x hx) (hrises x hx) (hin x hx) (hin' x hx)
      (DateTime.le_iff.mp ht) hd
  · obtain ⟨pre, hsegs⟩ := List.getLast?_eq_some_iff.mp hlast
    rw [(prefixValue_end r_sumBillInfo hraw hbilled horder hsegs).2, sum_total, hfurther, hsegs]
    simp

/-- Where the prefixes meet the claim, what is counted rises in every segment. -/
theorem rises_of_prefixMeets {zone : Int} (hlib : lib.Exact zone)
    (h : PrefixMeets lib r_sumBillInfo segs) (hseg : seg ∈ segs) : Rises r_sumBillInfo seg := by
  obtain ⟨pre, post, hsegs⟩ := List.append_of_mem hseg
  have hbilled' := hbilled seg hseg
  have hcut (k : Nat) (hk : k ≤ most seg) := prefixValue_cutAt r_sumBillInfo hraw
    hbilled horder hlib hsegs hk
  have hend := prefixValue_end r_sumBillInfo hraw hbilled horder hsegs
  constructor
  · intro k hk
    obtain ⟨hin, hvalue⟩ := hcut k hk.le
    obtain ⟨hin', hvalue'⟩ := hcut (k + 1) hk
    obtain ⟨ht, hd⟩ := cutAt_mono hlib seg (passed_mono hbilled' k)
    obtain ⟨v, v', hv, hv', hle⟩ := h.monotone _ _ _ _ hin hin' (DateTime.le_iff.mpr ht) hd
    obtain rfl := Option.some.inj (hv.symm.trans hvalue)
    obtain rfl := Option.some.inj (hv'.symm.trans hvalue')
    exact le_of_add_le_add_left hle
  · obtain ⟨hin, hvalue⟩ := hcut (most seg) le_rfl
    obtain ⟨hlow, hhigh⟩ := passed_bounds hbilled' (most seg)
    obtain ⟨⟨-, ht⟩, -, hd⟩ := cutAt_inside hlib hbilled' hlow hhigh
    obtain ⟨v, v', hv, hv', hle⟩ := h.monotone _ _ _ _ hin hend.1 (DateTime.le_iff.mpr ht) hd
    obtain rfl := Option.some.inj (hv.symm.trans hvalue)
    obtain rfl := Option.some.inj (hv'.symm.trans hend.2)
    exact le_of_add_le_add_left hle

end Segments

/-- **The total of a part grows up to what is stored** if and only if it does in every segment, and
nothing is stored beside the first entries. -/
theorem prefixMeets_iff {env : FeeEnv} {lib : TimeLib} {zone : Int}
    {m_segInfoList segs : List SegFeeInfo} (r_sumBillInfo : RateBillId) (hlib : lib.Exact zone)
    (hfee : computeFee env m_segInfoList = some segs) (hbilled : ∀ x ∈ segs, Billed lib x)
    (horder : segs.Pairwise (Follows lib)) :
    PrefixMeets lib r_sumBillInfo segs ↔
      (∀ x ∈ segs, Rises r_sumBillInfo x) ∧ (segs.map (further r_sumBillInfo)).sum = 0 := by
  have hraw := computeFee_mem hfee
  constructor
  · intro h
    refine ⟨fun x hx => rises_of_prefixMeets hraw hbilled horder hlib h hx, ?_⟩
    rcases List.eq_nil_or_concat segs with rfl | ⟨pre, last, hsegs⟩
    · rfl
    · rw [List.concat_eq_append] at hsegs
      have hend := prefixValue_end r_sumBillInfo hraw hbilled horder hsegs
      have hfull := h.full last (by rw [hsegs, List.getLast?_concat]; rfl)
      have hsame := Option.some.inj (hend.2.symm.trans hfull)
      have hstored : (segs.map (stored r_sumBillInfo)).sum =
          (pre.map (stored r_sumBillInfo)).sum + stored r_sumBillInfo last := by
        rw [hsegs]
        simp
      rw [sum_total] at hsame
      omega
  · rintro ⟨hrises, hfurther⟩
    exact prefixMeets_of_rises hraw hbilled horder hrises hfurther

/-- A total of minutes. -/
def minutes : RateBillId := ⟨1, 1, 1, 20260101⟩

/-- A call of ninety seconds, with a fee and a total by the minute. -/
def ninetySeconds (m_intTag : Char) (m_unitCount m_value m_billValue : Int) : SegFeeInfo :=
  { ofTime 1 60 10 ⟨20260105, 80000⟩ ⟨20260105, 80130⟩ 0 90 with
    m_intTag := m_intTag
    m_unitCount := m_unitCount
    m_value := m_value
    m_billInfoList := [⟨minutes, .DURATION, 60, 0, m_billValue⟩] }

/-- With the part of a minute added, the total grows up to two minutes. -/
theorem ninetySeconds_meets :
    PrefixMeets (exactLib 0) minutes [ninetySeconds CARRY_TAG_ADD 2 20 120] := by
  have hbilled : Billed (exactLib 0) (ninetySeconds CARRY_TAG_ADD 2 20 120) :=
    ⟨by decide, by decide, by decide, by decide, by decide, by decide, by decide,
      fun _ => .inl (by decide)⟩
  have hfee : computeFee plainEnv [ninetySeconds CARRY_TAG_ADD 0 0 0] =
      some [ninetySeconds CARRY_TAG_ADD 2 20 120] := by decide
  exact (prefixMeets_iff minutes (exactLib_exact 0) hfee
    (List.forall_mem_singleton.mpr hbilled) (List.pairwise_singleton _ _)).mpr (by decide)

/-- Without it, two minutes are counted in the second one, but ninety seconds are stored. -/
theorem ninetySeconds_falls :
    computeFee plainEnv [ninetySeconds CARRY_TAG_NODEAL 0 0 0] =
        some [ninetySeconds CARRY_TAG_NODEAL 2 20 90] ∧
      Billed (exactLib 0) (ninetySeconds CARRY_TAG_NODEAL 2 20 90) ∧
      prefixValue (exactLib 0) ⟨20260105, 80101⟩ 0 minutes [ninetySeconds CARRY_TAG_NODEAL 2 20 90] =
        some 120 ∧
      prefixValue (exactLib 0) ⟨20260105, 80130⟩ 0 minutes [ninetySeconds CARRY_TAG_NODEAL 2 20 90] =
        some 90 ∧
      ¬ PrefixMeets (exactLib 0) minutes [ninetySeconds CARRY_TAG_NODEAL 2 20 90] := by
  have hearly : prefixValue (exactLib 0) ⟨20260105, 80101⟩ 0 minutes
      [ninetySeconds CARRY_TAG_NODEAL 2 20 90] = some 120 := by decide
  have hlate : prefixValue (exactLib 0) ⟨20260105, 80130⟩ 0 minutes
      [ninetySeconds CARRY_TAG_NODEAL 2 20 90] = some 90 := by decide
  refine ⟨by decide, ⟨by decide, by decide, by decide, by decide, by decide, by decide, by decide,
    fun _ => .inl (by decide)⟩, hearly, hlate, fun h => ?_⟩
  obtain ⟨v, v', hv, hv', hle⟩ := h.monotone ⟨20260105, 80101⟩ ⟨20260105, 80130⟩ 0 0
    (List.forall_mem_singleton.mpr (by decide)) (List.forall_mem_singleton.mpr (by decide))
    (by decide) le_rfl
  obtain rfl := Option.some.inj (hearly.symm.trans hv)
  obtain rfl := Option.some.inj (hlate.symm.trans hv')
  exact absurd hle (by decide)

end SumBillMgr

end Rate
