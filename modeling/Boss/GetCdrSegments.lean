import Boss.CdrSeg
import Boss.Fuel

/-!
# The days of a call

`getCdrSegments` cuts a call at every midnight.  From a point in time it goes to the next midnight,
and back from there to `240000` of the day before, where the segment ends; the next one starts at
the midnight itself.  The two are one instant, so the segments follow one another (`step_reached`),
and the dates come nearer to the last one with every step.
-/

namespace Rate

open Calendar Spans Fuel

/-- The kinds of call that may be of any length; the constants are not in the repository. -/
structure BizTypes (B : Type) where
  BIZ_TYPE_FIXVOICE : B
  BIZ_TYPE_FIXTIMES : B
  BIZ_TYPE_NET : B

/-- What is read of a call record. -/
structure Cdr (B : Type) where
  ATTRI_BEGIN : DateTime
  ATTRI_END : DateTime
  ATTRI_DURATION : Int
  ATTRI_BIZ_TYPE : B

inductive RateError
  | E_DATETIME_LONG
deriving DecidableEq, Repr

def DAYSEGS_MAX : Nat := 10

namespace GetCdrSegments

/-- The variables of the loop. -/
structure Loop where
  tmp1_tp : DateTime
  tmp_fs : CdrSeg
  i : Nat
  firstSegFlag : Bool
  r_cdrSegList : List CdrSeg
deriving DecidableEq, Repr

section Definitions

variable {B : Type} [DecidableEq B] (lib : TimeLib) (now : Nat → Int) (biz : BizTypes B)
  (cdr : Cdr B)

/-- The call as a whole. -/
def r_cdrTotalSeg : CdrSeg where
  m_startDateTime := cdr.ATTRI_BEGIN
  m_endDateTime := cdr.ATTRI_END
  m_duration := cdr.ATTRI_DURATION
  m_startSecond := 0
  m_endSecond := cdr.ATTRI_DURATION
  m_data := 0
  m_startData := 0
  m_endData := 0

/-- Most kinds of call may not last for more than some days. -/
def Limited : Prop :=
  cdr.ATTRI_BIZ_TYPE ≠ biz.BIZ_TYPE_FIXVOICE ∧ cdr.ATTRI_BIZ_TYPE ≠ biz.BIZ_TYPE_FIXTIMES ∧
    cdr.ATTRI_BIZ_TYPE ≠ biz.BIZ_TYPE_NET

instance : Decidable (Limited biz cdr) := inferInstanceAs (Decidable (_ ∧ _))

/-- The segment up to midnight; the clock is read three times. -/
def step (s : Loop) : Loop :=
  let tmp2_tp := s.tmp1_tp.nextday lib (now (3 * s.i))
  let endDateTime := tmp2_tp.overnight lib (now (3 * s.i + 1))
  let duration := endDateTime.minus lib s.tmp_fs.m_startDateTime
  let tmp_fs := { s.tmp_fs with
    m_endDateTime := endDateTime
    m_duration := duration
    m_endSecond := s.tmp_fs.m_startSecond + duration }
  let tmp1_tp := s.tmp1_tp.nextday lib (now (3 * s.i + 2))
  { tmp1_tp := tmp1_tp
    tmp_fs := { tmp_fs with m_startDateTime := tmp1_tp, m_startSecond := tmp_fs.m_endSecond }
    i := s.i + 1
    firstSegFlag := false
    r_cdrSegList := s.r_cdrSegList ++ [tmp_fs] }

/-- The loop; a day that is one too many is an error. -/
def loop : Nat → Loop → Option (Except RateError Loop)
  | 0, _ => none
  | n + 1, s =>
      if s.tmp1_tp.m_Date < cdr.ATTRI_END.m_Date then
        if Limited biz cdr ∧ DAYSEGS_MAX ≤ s.i then some (.error .E_DATETIME_LONG)
        else loop n (step lib now s)
      else some (.ok s)

/-- What is left after the last midnight, or a call of no length. -/
def last (s : Loop) : List CdrSeg :=
  let duration := cdr.ATTRI_END.minus lib s.tmp_fs.m_startDateTime
  let tmp_fs := { s.tmp_fs with
    m_endDateTime := cdr.ATTRI_END
    m_duration := duration
    m_endSecond := s.tmp_fs.m_startSecond + duration }
  if duration > 0 then s.r_cdrSegList ++ [tmp_fs]
  else if s.firstSegFlag then s.r_cdrSegList ++ [{ tmp_fs with m_startSecond := 0 }]
  else s.r_cdrSegList

/-- What the loop starts with. -/
def start (r_cdrSegList : List CdrSeg) : Loop where
  tmp1_tp := cdr.ATTRI_BEGIN
  tmp_fs := ⟨cdr.ATTRI_BEGIN, cdr.ATTRI_END, 0, 0, 0, 0, 0, 0⟩
  i := 0
  firstSegFlag := true
  r_cdrSegList := r_cdrSegList

end Definitions

end GetCdrSegments

open GetCdrSegments in
/-- `getCdrSegments`, which adds the days of the call to the list. -/
def getCdrSegments {B : Type} [DecidableEq B] (lib : TimeLib) (now : Nat → Int) (biz : BizTypes B)
    (cdr : Cdr B) (r_cdrSegList : List CdrSeg) (n : Nat) : Option (Except RateError (List CdrSeg)) :=
  if cdr.ATTRI_DURATION ≠ cdr.ATTRI_END.minus lib cdr.ATTRI_BEGIN then
    some (.error .E_DATETIME_LONG)
  else
    (loop lib now biz cdr n (start cdr r_cdrSegList)).map fun r => r.map (last lib cdr)

/-- It lies in one day of the calendar, which ends at `240000`. -/
def CdrSeg.InDay (lib : TimeLib) (seg : CdrSeg) : Prop :=
  ∃ date, (DateTime.mk date 0).time lib ≤ seg.startTime lib ∧
    seg.endTime lib ≤ (DateTime.mk date 240000).time lib

namespace GetCdrSegments

section Steps

variable {B : Type} {lib : TimeLib} {zone : Int} {now : Nat → Int} {biz : BizTypes B} {cdr : Cdr B}
  {l done : List CdrSeg} {s : Loop}

/-- What a segment of a day is: its clock and its seconds agree, and it does not run backwards. -/
structure Day (lib : TimeLib) (seg : CdrSeg) : Prop where
  timed : seg.Timed lib
  duration : 0 ≤ seg.m_duration
  day : seg.InDay lib

/-- The loop has added the segments `done`, which lead from the begin of the call to where it is. -/
structure Reached (lib : TimeLib) (cdr : Cdr B) (l done : List CdrSeg) (s : Loop) : Prop where
  list : s.r_cdrSegList = l ++ done
  count : s.i = done.length
  flag : s.firstSegFlag = done.isEmpty
  valid : s.tmp1_tp.Valid
  day : DateTime.dayOf s.tmp1_tp.m_Date = DateTime.dayOf cdr.ATTRI_BEGIN.m_Date + done.length
  midnight : done ≠ [] → s.tmp1_tp.m_Time = 0 ∧ s.tmp1_tp.m_Date ≤ cdr.ATTRI_END.m_Date
  startDateTime : s.tmp_fs.m_startDateTime = s.tmp1_tp
  clock : Leads (CdrSeg.startTime lib) (CdrSeg.endTime lib) (cdr.ATTRI_BEGIN.time lib) done
    (s.tmp1_tp.time lib)
  seconds : Leads CdrSeg.m_startSecond CdrSeg.m_endSecond 0 done s.tmp_fs.m_startSecond
  days : ∀ seg ∈ done, Day lib seg

theorem start_reached (hbegin : cdr.ATTRI_BEGIN.Valid) : Reached lib cdr l [] (start cdr l) where
  list := (List.append_nil l).symm
  count := rfl
  flag := rfl
  valid := hbegin
  day := (Int.add_zero _).symm
  midnight := fun h => absurd rfl h
  startDateTime := rfl
  clock := rfl
  seconds := rfl
  days := fun _ h => absurd h List.not_mem_nil

variable (now) in
/-- One day more. -/
theorem step_reached (hlib : lib.Exact zone) (hend : cdr.ATTRI_END.Valid)
    (h : Reached lib cdr l done s) (hdate : s.tmp1_tp.m_Date < cdr.ATTRI_END.m_Date) :
    ∃ seg, Reached lib cdr l (done ++ [seg]) (step lib now s) := by
  obtain ⟨hnext, hindex⟩ := nextDay_spec h.valid.date
  have hbounds := DateTime.time_bounds hlib h.valid.clock
  have hmidnight := DateTime.time_midnight hlib h.valid.date
  let seg : CdrSeg := { s.tmp_fs with
    m_endDateTime := ⟨s.tmp1_tp.m_Date, 240000⟩
    m_duration := (DateTime.mk s.tmp1_tp.m_Date 240000).minus lib s.tmp1_tp
    m_endSecond := s.tmp_fs.m_startSecond +
      (DateTime.mk s.tmp1_tp.m_Date 240000).minus lib s.tmp1_tp }
  have hseg : step lib now s =
      ⟨⟨nextDay s.tmp1_tp.m_Date, 0⟩,
        { seg with
          m_startDateTime := ⟨nextDay s.tmp1_tp.m_Date, 0⟩, m_startSecond := seg.m_endSecond },
        s.i + 1, false, s.r_cdrSegList ++ [seg]⟩ := by
    simp only [step, DateTime.overnight_nextDay hlib _ h.valid.date,
      DateTime.nextday_nextDay hlib _ h.valid.date, h.startDateTime, seg]
  have hstart : seg.startTime lib = s.tmp1_tp.time lib := by
    simp only [CdrSeg.startTime, seg, h.startDateTime]
  rw [hseg]
  refine ⟨seg, ?_, ?_, ?_, ⟨hnext, DateTime.isClock_zero⟩, ?_, ?_, rfl, ?_, ?_, ?_⟩
  · rw [h.list, List.append_assoc]
  · rw [h.count, List.length_append, List.length_singleton]
  · simp
  · have hday := h.day
    rw [DateTime.dayOf_eq h.valid.date] at hday
    rw [List.length_append, DateTime.dayOf_eq hnext, hindex]
    simp only [List.length_singleton]
    omega
  · refine fun _ => ⟨rfl, ?_⟩
    by_contra hlt
    have hlate := (dayIndex_lt_iff hend.date hnext).mpr (not_le.mp hlt)
    have hearly := (dayIndex_lt_iff h.valid.date hend.date).mpr hdate
    omega
  · exact leads_append.mpr ⟨_, h.clock, hstart, hmidnight.symm⟩
  · exact leads_append.mpr ⟨_, h.seconds, rfl, rfl⟩
  · rw [List.forall_mem_append, List.forall_mem_singleton]
    refine ⟨h.days, ⟨?_, ?_⟩, ?_, s.tmp1_tp.m_Date, ?_, le_rfl⟩
    · rw [hstart]
      rfl
    · dsimp only [seg]
      omega
    · dsimp only [seg, DateTime.minus]
      omega
    · rw [hstart]
      exact hbounds.1

/-- The seconds count from the begin of the call. -/
theorem reached_second (h : Reached lib cdr l done s) :
    s.tmp_fs.m_startSecond = s.tmp1_tp.time lib - cdr.ATTRI_BEGIN.time lib := by
  have hsame : ∀ seg ∈ done,
      seg.m_endSecond - seg.m_startSecond = seg.endTime lib - seg.startTime lib := fun seg hseg =>
    (h.days seg hseg).timed.seconds.trans (h.days seg hseg).timed.clock.symm
  have hseconds := h.seconds.sum
  rw [List.map_congr_left hsame, h.clock.sum] at hseconds
  omega

theorem reached_le (h : Reached lib cdr l done s) :
    cdr.ATTRI_BEGIN.time lib ≤ s.tmp1_tp.time lib := by
  refine h.clock.le fun seg hseg => ?_
  have hclock := (h.days seg hseg).timed.clock
  have hduration := (h.days seg hseg).duration
  omega

/-- The segment up to the end of the call. -/
def lastSeg (lib : TimeLib) (cdr : Cdr B) (s : Loop) : CdrSeg :=
  { s.tmp_fs with
    m_endDateTime := cdr.ATTRI_END
    m_duration := cdr.ATTRI_END.minus lib s.tmp_fs.m_startDateTime
    m_endSecond := s.tmp_fs.m_startSecond + cdr.ATTRI_END.minus lib s.tmp_fs.m_startDateTime }

theorem last_eq (lib : TimeLib) (cdr : Cdr B) (s : Loop) :
    last lib cdr s =
      if (lastSeg lib cdr s).m_duration > 0 then s.r_cdrSegList ++ [lastSeg lib cdr s]
      else if s.firstSegFlag then s.r_cdrSegList ++ [{ lastSeg lib cdr s with m_startSecond := 0 }]
      else s.r_cdrSegList := rfl

section Last

variable (h : Reached lib cdr l done s)

include h

theorem lastSeg_startTime : (lastSeg lib cdr s).startTime lib = s.tmp1_tp.time lib :=
  congrArg _ h.startDateTime

theorem lastSeg_duration :
    (lastSeg lib cdr s).m_duration = cdr.ATTRI_END.time lib - s.tmp1_tp.time lib := by
  simp only [lastSeg, DateTime.minus, h.startDateTime]

theorem lastSeg_timed : (lastSeg lib cdr s).Timed lib := by
  refine ⟨?_, ?_⟩
  · rw [lastSeg_startTime h, lastSeg_duration h]
    rfl
  · simp only [lastSeg]
    omega

theorem lastSeg_endSecond
    (hduration : cdr.ATTRI_DURATION = cdr.ATTRI_END.minus lib cdr.ATTRI_BEGIN) :
    (lastSeg lib cdr s).m_endSecond = cdr.ATTRI_DURATION := by
  have hstart := reached_second h
  have hlength := lastSeg_duration h
  have hseconds := (lastSeg_timed h).seconds
  have hsame : (lastSeg lib cdr s).m_startSecond = s.tmp_fs.m_startSecond := rfl
  unfold DateTime.minus at hduration
  omega

theorem lastSeg_inDay (hlib : lib.Exact zone) (hend : cdr.ATTRI_END.Valid)
    (hdate : cdr.ATTRI_END.m_Date ≤ s.tmp1_tp.m_Date) : (lastSeg lib cdr s).InDay lib := by
  refine ⟨s.tmp1_tp.m_Date, ?_, (DateTime.time_bounds hlib hend.clock).2.trans ?_⟩
  · rw [lastSeg_startTime h]
    exact (DateTime.time_bounds hlib h.valid.clock).1
  · have hdays := mt (DateTime.dayOf_lt_iff h.valid.date hend.date).mp (not_lt.mpr hdate)
    simp only [DateTime.time_eq hlib]
    omega

end Last

/-- After a midnight there is no less than nothing left. -/
theorem midnight_le (hlib : lib.Exact zone) (hend : cdr.ATTRI_END.Valid)
    (h : Reached lib cdr l done s) (hdate : cdr.ATTRI_END.m_Date ≤ s.tmp1_tp.m_Date)
    (hdone : done ≠ []) : s.tmp1_tp.time lib ≤ cdr.ATTRI_END.time lib := by
  obtain ⟨hmidnight, hlow⟩ := h.midnight hdone
  have hclock := (DateTime.clockOf_bounds hend.clock).1
  have hzero : DateTime.clockOf 0 = 0 := by decide
  rw [DateTime.time_eq hlib, DateTime.time_eq hlib, hmidnight, le_antisymm hlow hdate]
  omega

/-- A call of no length passes one midnight at most. -/
theorem single_midnight (hlib : lib.Exact zone) (hbegin : cdr.ATTRI_BEGIN.Valid)
    (h : Reached lib cdr l done s) (hdone : done ≠ [])
    (hsame : s.tmp1_tp.time lib = cdr.ATTRI_BEGIN.time lib) :
    ∃ seg, done = [seg] ∧ seg.m_duration = 0 := by
  have hday := h.day
  have hclock := (DateTime.clockOf_bounds hbegin.clock).2
  have hzero : DateTime.clockOf 0 = 0 := by decide
  have htimes := hsame
  rw [DateTime.time_eq hlib, DateTime.time_eq hlib, (h.midnight hdone).1, hday, hzero] at htimes
  have hpos := List.length_pos_iff.mpr hdone
  obtain ⟨seg, rfl⟩ := List.length_eq_one_iff.mp (by omega : done.length = 1)
  obtain ⟨hstart, hfinish⟩ := h.clock
  have hseg := (h.days seg (List.mem_singleton_self seg)).timed.clock
  have hfinish : seg.endTime lib = s.tmp1_tp.time lib := hfinish
  exact ⟨seg, rfl, by omega⟩

/-- The segments follow one another from the begin of the call to its end, each in its day. -/
structure Tiles (lib : TimeLib) (cdr : Cdr B) (segs : List CdrSeg) : Prop where
  clock : Leads (CdrSeg.startTime lib) (CdrSeg.endTime lib) (cdr.ATTRI_BEGIN.time lib) segs
    (cdr.ATTRI_END.time lib)
  seconds : Leads CdrSeg.m_startSecond CdrSeg.m_endSecond 0 segs cdr.ATTRI_DURATION
  timed : ∀ seg ∈ segs, seg.Timed lib
  inDay : ∀ seg ∈ segs, seg.InDay lib
  forward : 0 ≤ cdr.ATTRI_DURATION → ∀ seg ∈ segs, 0 ≤ seg.m_duration
  single : cdr.ATTRI_DURATION = 0 → ∃ seg, segs = [seg] ∧ seg.m_duration = 0

/-- What is added after the loop ends the call. -/
theorem last_tiles (hlib : lib.Exact zone) (hbegin : cdr.ATTRI_BEGIN.Valid)
    (hend : cdr.ATTRI_END.Valid)
    (hduration : cdr.ATTRI_DURATION = cdr.ATTRI_END.minus lib cdr.ATTRI_BEGIN)
    (h : Reached lib cdr l done s) (hdate : cdr.ATTRI_END.m_Date ≤ s.tmp1_tp.m_Date) :
    ∃ segs, last lib cdr s = l ++ segs ∧ Tiles lib cdr segs := by
  have hlength := lastSeg_duration h
  have hle := reached_le h
  have hwhole := hduration
  unfold DateTime.minus at hwhole
  have htimed : ∀ seg ∈ done, seg.Timed lib := fun seg hseg => (h.days seg hseg).timed
  have hinDay : ∀ seg ∈ done, seg.InDay lib := fun seg hseg => (h.days seg hseg).day
  have hforward : ∀ seg ∈ done, 0 ≤ seg.m_duration := fun seg hseg => (h.days seg hseg).duration
  rw [last_eq]
  split_ifs with hmore hfirst
  · refine ⟨done ++ [lastSeg lib cdr s], by rw [h.list, List.append_assoc], ?_⟩
    constructor
    case clock => exact leads_append.mpr ⟨_, h.clock, lastSeg_startTime h, rfl⟩
    case seconds => exact leads_append.mpr ⟨_, h.seconds, rfl, lastSeg_endSecond h hduration⟩
    case single => exact fun hnone => by omega
    all_goals simp only [List.forall_mem_append, List.forall_mem_singleton]
    · exact ⟨htimed, lastSeg_timed h⟩
    · exact ⟨hinDay, lastSeg_inDay h hlib hend hdate⟩
    · exact fun _ => ⟨hforward, hmore.le⟩
  · -- nothing was added, and the seconds still are at 0
    have hnone : done = [] := by
      have hflag := h.flag
      rwa [hfirst, eq_comm, List.isEmpty_iff] at hflag
    subst hnone
    have hsecond : (0 : Int) = s.tmp_fs.m_startSecond := h.seconds
    have htime : cdr.ATTRI_BEGIN.time lib = s.tmp1_tp.time lib := h.clock
    have hsame : { lastSeg lib cdr s with m_startSecond := 0 } = lastSeg lib cdr s := by
      rw [hsecond]
      rfl
    refine ⟨[lastSeg lib cdr s], by rw [h.list, List.append_nil, hsame], ?_⟩
    constructor
    case clock => exact ⟨(lastSeg_startTime h).trans htime.symm, rfl⟩
    case seconds => exact ⟨hsecond.symm, lastSeg_endSecond h hduration⟩
    case single => exact fun hnone => ⟨_, rfl, by omega⟩
    all_goals simp only [List.forall_mem_singleton]
    · exact lastSeg_timed h
    · exact lastSeg_inDay h hlib hend hdate
    · exact fun hpos => by omega
  · -- the call ends at the last midnight
    have hdone : done ≠ [] := by
      intro hnone
      rw [h.flag, hnone] at hfirst
      exact hfirst rfl
    have hmidnight := midnight_le hlib hend h hdate hdone
    have htime : s.tmp1_tp.time lib = cdr.ATTRI_END.time lib := by omega
    refine ⟨done, h.list, htime ▸ h.clock, ?_, htimed, hinDay, fun _ => hforward, fun hnone => ?_⟩
    · have hseconds := h.seconds
      rwa [reached_second h, htime, ← hwhole] at hseconds
    · exact single_midnight hlib hbegin h hdone (by omega)

variable [DecidableEq B]

/-- As many days as are permitted. -/
def Permitted (biz : BizTypes B) (cdr : Cdr B) : Prop :=
  Limited biz cdr → DateTime.dayOf cdr.ATTRI_END.m_Date - DateTime.dayOf cdr.ATTRI_BEGIN.m_Date ≤
    DAYSEGS_MAX

instance (biz : BizTypes B) (cdr : Cdr B) : Decidable (Permitted biz cdr) :=
  inferInstanceAs (Decidable (_ → _))

variable (now) in
/-- **The loop comes to the last day.** -/
theorem loop_settles (hlib : lib.Exact zone) (hend : cdr.ATTRI_END.Valid)
    (hpermitted : Permitted biz cdr) (h : Reached lib cdr l done s) :
    ∃ done' s', Settles (fun n => loop lib now biz cdr n s) (.ok s') ∧
      Reached lib cdr l done' s' ∧ cdr.ATTRI_END.m_Date ≤ s'.tmp1_tp.m_Date := by
  -- by induction on the days that are left
  generalize hleft : (DateTime.dayOf cdr.ATTRI_END.m_Date -
    DateTime.dayOf s.tmp1_tp.m_Date).toNat = k
  induction k generalizing s done with
  | zero =>
      have hdate : ¬ s.tmp1_tp.m_Date < cdr.ATTRI_END.m_Date := by
        rw [← DateTime.dayOf_lt_iff h.valid.date hend.date]
        omega
      refine ⟨done, s, Settles.of_succ ?_, h, not_lt.mp hdate⟩
      simpa only [loop, if_neg hdate] using settles_some _
  | succ k ih =>
      have hdays : DateTime.dayOf s.tmp1_tp.m_Date < DateTime.dayOf cdr.ATTRI_END.m_Date := by omega
      have hdate := (DateTime.dayOf_lt_iff h.valid.date hend.date).mp hdays
      obtain ⟨seg, hstep⟩ := step_reached now hlib hend h hdate
      have hday := h.day
      have hday' := hstep.day
      rw [List.length_append, List.length_singleton] at hday'
      obtain ⟨done', s', hsettles, hreached⟩ := ih hstep (by omega)
      have hlimit : ¬ (Limited biz cdr ∧ DAYSEGS_MAX ≤ s.i) := by
        rintro ⟨hlimited, hmany⟩
        have hfew := hpermitted hlimited
        rw [h.count] at hmany
        omega
      refine ⟨done', s', hsettles.succ fun n => ?_, hreached⟩
      simp only [loop, if_pos hdate, if_neg hlimit]

end Steps

end GetCdrSegments

open GetCdrSegments

section Results

variable {B : Type} [DecidableEq B] {lib : TimeLib} {zone : Int} {cdr : Cdr B} {biz : BizTypes B}

/-- **The days of a call follow one another from its begin to its end.** -/
theorem getCdrSegments_tiles (hlib : lib.Exact zone) (now : Nat → Int)
    (hbegin : cdr.ATTRI_BEGIN.Valid) (hend : cdr.ATTRI_END.Valid)
    (hduration : cdr.ATTRI_DURATION = cdr.ATTRI_END.minus lib cdr.ATTRI_BEGIN)
    (hpermitted : Permitted biz cdr) (r_cdrSegList : List CdrSeg) :
    ∃ segs, Settles (getCdrSegments lib now biz cdr r_cdrSegList) (.ok (r_cdrSegList ++ segs)) ∧
      Tiles lib cdr segs ∧ (segs.map CdrSeg.m_duration).sum = cdr.ATTRI_DURATION := by
  obtain ⟨done, s, hsettles, hreached, hdate⟩ := loop_settles now hlib hend hpermitted
    (start_reached (l := r_cdrSegList) hbegin)
  obtain ⟨segs, hlast, htiles⟩ := last_tiles hlib hbegin hend hduration hreached hdate
  refine ⟨segs, ?_, htiles, ?_⟩
  · have hcall : getCdrSegments lib now biz cdr r_cdrSegList = fun n =>
        (loop lib now biz cdr n (start cdr r_cdrSegList)).map fun r => r.map (last lib cdr) :=
      funext fun _ => if_neg (not_not.mpr hduration)
    rw [hcall, ← hlast]
    exact hsettles.map (Except.map (last lib cdr))
  · rw [List.map_congr_left fun seg hseg => (htiles.timed seg hseg).seconds.symm,
      htiles.seconds.sum, Int.sub_zero]

/-- A call over the end of a February of 28 days. -/
def overFebruary : Cdr Nat := ⟨⟨20260228, 233000⟩, ⟨20260301, 3000⟩, 3600, 9⟩

theorem getCdrSegments_overFebruary :
    ∃ segs, Settles (getCdrSegments (exactLib 28800) (fun _ => 0) ⟨1, 2, 3⟩ overFebruary [])
        (.ok ([] ++ segs)) ∧
      Tiles (exactLib 28800) overFebruary segs ∧ (segs.map CdrSeg.m_duration).sum = 3600 :=
  getCdrSegments_tiles (exactLib_exact 28800) _ ⟨by decide, by decide⟩ ⟨by decide, by decide⟩
    (by decide) (by decide) []

example :
    (getCdrSegments (exactLib 28800) (fun _ => 0) ⟨1, 2, 3⟩ overFebruary [] 2).bind
      Except.toOption =
    some [⟨⟨20260228, 233000⟩, ⟨20260228, 240000⟩, 1800, 0, 1800, 0, 0, 0⟩,
      ⟨⟨20260301, 0⟩, ⟨20260301, 3000⟩, 1800, 1800, 3600, 0, 0, 0⟩] := by
  decide

end Results

end Rate
