import Boss.Grid
import Boss.LocalTime

/-!
# Batch cycles

A cycle repeats from a base time: so many seconds, minutes, hours, days or weeks, or so many months,
quarters or years.  `compute` says in which instance a time lies.  The length of a cycle of the first
kind is a number of seconds.  For the other units the months or years since the base are counted, and
the day and the time of day of the base are attached to the month that the count leads to.

Times are seconds, not bounded; `int` arithmetic that overflows has no value.
-/

namespace Flowline

open Calendar

inductive CycleUnit
  | U_SECOND
  | U_MINUTE
  | U_HOUR
  | U_DAY
  | U_WEEK
  | U_MONTH
  | U_QUARTER
  | U_YEAR
  deriving DecidableEq, Repr

structure Cycle where
  baseTime : Int
  cycle : Int
  cycleUnit : CycleUnit
  deriving DecidableEq, Repr

structure Instance where
  getBegin : Int
  getEnd : Int
  getId : String
  deriving DecidableEq, Repr

/-- What ends a computation: an overflow, a division by zero or the assertion. -/
inductive Fault
  | overflow
  | divisionByZero
  | assertion
  deriving DecidableEq, Repr

def Fits (x : Int) : Prop := -2147483648 ≤ x ∧ x ≤ 2147483647

instance (x : Int) : Decidable (Fits x) := inferInstanceAs (Decidable (_ ∧ _))

/-- The value of an `int`. -/
def toInt (x : Int) : Except Fault Int := if Fits x then .ok x else .error .overflow

/-- `%0nd`. -/
def pad (n : Nat) (x : Int) : String :=
  let digits := toString x.natAbs
  let sign := if x < 0 then "-" else ""
  sign ++ String.ofList (List.replicate (n - sign.length - digits.length) '0') ++ digits

/-- The quotient `d / w`, less one if there is a remainder and the time is before the base. -/
def truncOffset (d w : Int) (before : Bool) : Int :=
  d.tdiv w - if d.tmod w ≠ 0 ∧ before then 1 else 0

namespace Cycle

variable (zone : Int) (c : Cycle)

/-! ## Units of fixed length -/

/-- `compute_sec` to `compute_week`, for a unit of `seconds`. -/
def computeFixed (seconds : Int) (id : Tm → String) (atime : Int) : Except Fault Instance := do
  let w ← toInt (c.cycle * seconds)
  if w = 0 then throw .divisionByZero
  let offset := truncOffset (atime - c.baseTime) w (c.baseTime > atime)
  let begin := c.baseTime + offset * w
  return ⟨begin, c.baseTime + (offset + 1) * w, id (localtime zone begin)⟩

def computeSec : Int → Except Fault Instance :=
  c.computeFixed zone 1 fun atm => pad 4 (atm.tm_year + 1900) ++ pad 2 (atm.tm_mon + 1) ++
    pad 2 atm.tm_mday ++ pad 2 atm.tm_hour ++ pad 2 atm.tm_min ++ pad 2 atm.tm_sec

def computeMin : Int → Except Fault Instance :=
  c.computeFixed zone 60 fun atm => pad 4 (atm.tm_year + 1900) ++ pad 2 (atm.tm_mon + 1) ++
    pad 2 atm.tm_mday ++ pad 2 atm.tm_hour ++ pad 2 atm.tm_min

def computeHour : Int → Except Fault Instance :=
  c.computeFixed zone (60 * 60) fun atm => pad 4 (atm.tm_year + 1900) ++ pad 2 (atm.tm_mon + 1) ++
    pad 2 atm.tm_mday ++ pad 2 atm.tm_hour

def computeDay : Int → Except Fault Instance :=
  c.computeFixed zone (60 * 60 * 24) fun atm => pad 4 (atm.tm_year + 1900) ++
    pad 2 (atm.tm_mon + 1) ++ pad 2 atm.tm_mday

/-- The day of the year, from 0, of the first Sunday from the last day of the year before on. -/
def getFirstSundayOfYear (atm : Tm) : Int :=
  let t := mktime zone { atm with tm_mon := 0, tm_mday := 0 }
  let day := (List.range 7).find? fun (k : Nat) =>
    (localtime zone (t + k * (24 * 3600))).tm_wday = 0
  (localtime zone (t + day.getD 7 * (24 * 3600))).tm_yday

def computeWeek : Int → Except Fault Instance :=
  c.computeFixed zone (60 * 60 * 24 * 7) fun atm =>
    let b := getFirstSundayOfYear zone atm
    pad 4 (atm.tm_year + 1900 - if b ≠ 0 then 1 else 0) ++ pad 2 ((atm.tm_yday - b).tdiv 7 + 1)

/-! ## Months and years -/

def getMaxDayOfMonth (atm : Tm) : Int :=
  let t := mktime zone { atm with tm_mon := atm.tm_mon + 1, tm_mday := 1 }
  (localtime zone (t - 3600 * 24)).tm_mday

/-- A day that the month does not have becomes its last day. -/
def clampDay (btm : Tm) : Tm :=
  let maxd := getMaxDayOfMonth zone btm
  if btm.tm_mday > maxd then { btm with tm_mday := maxd } else btm

/-- From `b` to `a` in steps of `w`: the steps at which the cycle begins and ends.  The first is
counted from `b` again, or is one step back from the last. -/
def cycleBounds (b a w : Int) (before back : Bool) : Except Fault (Int × Int) := do
  let b ← toInt b
  let a ← toInt a
  let w ← toInt w
  let d ← toInt (a - b)
  if w = 0 then throw .divisionByZero
  let offset ← toInt (truncOffset d w before)
  let ahead ← toInt ((offset + 1) * w)
  let last ← toInt (b + ahead)
  if back then
    let first ← toInt (last - w)
    return (first, last)
  else
    let behind ← toInt (offset * w)
    let first ← toInt (b + behind)
    return (first, last)

/-- `btm` in month `idx`, as `tm_year` and `tm_mon`. -/
def inMonth (btm : Tm) (idx : Int) : Tm :=
  clampDay zone { btm with tm_year := idx.tdiv 12, tm_mon := idx.tmod 12 }

/-- `btm` in year `idx`. -/
def inYear (btm : Tm) (idx : Int) : Tm := clampDay zone { btm with tm_year := idx }

/-- The number of the month since 1900. -/
def monthNumber (tm : Tm) : Int := tm.tm_year * 12 + tm.tm_mon

def computeMonth (atime : Int) : Except Fault Instance := do
  let atm := localtime zone atime
  let btm := localtime zone c.baseTime
  let (first, last) ← cycleBounds (monthNumber btm) (monthNumber atm) c.cycle (c.baseTime > atime)
    false
  let btm := inMonth zone btm last
  let endTime := mktime zone btm
  let btm := inMonth zone { btm with tm_hour := 0, tm_min := 0, tm_sec := 0 } first
  let begin := mktime zone btm
  let btm := localtime zone begin
  return ⟨begin, endTime, pad 4 (btm.tm_year + 1900) ++ pad 2 (btm.tm_mon + 1)⟩

def computeYear (atime : Int) : Except Fault Instance := do
  let atm := localtime zone atime
  let btm := localtime zone c.baseTime
  let (first, last) ← cycleBounds btm.tm_year atm.tm_year c.cycle (c.baseTime > atime) true
  let btm := inYear zone btm last
  let endTime := mktime zone btm
  let btm := inYear zone btm first
  let begin := mktime zone btm
  let btm := localtime zone begin
  return ⟨begin, endTime, pad 4 (btm.tm_year + 1900)⟩

def computeQuarter (atime : Int) : Except Fault Instance := do
  let atm := localtime zone atime
  let btm := localtime zone c.baseTime
  let (first, last) ← cycleBounds (monthNumber btm) (monthNumber atm) (3 * c.cycle)
    (c.baseTime > atime) false
  let btm := inMonth zone btm last
  let endTime := mktime zone btm
  let btm := inMonth zone btm first
  let begin := mktime zone btm
  let btm := localtime zone begin
  return ⟨begin, endTime, pad 4 (btm.tm_year + 1900) ++ pad 2 (first.tmod 4)⟩

/-- The instance of the unit. -/
def computeUnit (atime : Int) : Except Fault Instance :=
  match c.cycleUnit with
  | .U_SECOND => c.computeSec zone atime
  | .U_MINUTE => c.computeMin zone atime
  | .U_HOUR => c.computeHour zone atime
  | .U_DAY => c.computeDay zone atime
  | .U_WEEK => c.computeWeek zone atime
  | .U_MONTH => c.computeMonth zone atime
  | .U_QUARTER => c.computeQuarter zone atime
  | .U_YEAR => c.computeYear zone atime

def compute (atime : Int) : Except Fault Instance := do
  let i ← c.computeUnit zone atime
  if i.getBegin ≤ atime ∧ atime < i.getEnd then return i else throw .assertion

end Cycle

/-! ## The engine -/

namespace Engine

variable (zone : Int) (cycle : Cycle)

/-- The loop over the cycles that are over: what the clock says in each round, and whether the next
cycle can be executed after this one.  The instances that are opened. -/
def loop : List (Int × Bool) → Instance → Except Fault (List Instance)
  | [], _ => .ok []
  | (time, proceeds) :: rounds, ci =>
    if time > ci.getEnd then do
      let ci ← cycle.compute zone ci.getEnd
      if proceeds then
        let opened ← loop rounds ci
        return ci :: opened
      else return [ci]
    else .ok []

/-- `Engine::run`: the unfinished instances are executed, then the loop goes on from the last of
them, or from the one before the current time.  A cycle of 0 is a single one without an end. -/
def run (unfinished : List (Instance × Bool)) (time : Int) (rounds : List (Int × Bool)) :
    Except Fault (List Instance) := do
  if cycle.cycle ≠ 0 ∧ unfinished.all (·.2) then
    let ci ← match unfinished.getLast? with
      | some (ci, _) => Except.ok ci
      | none => do
        let ci ← cycle.compute zone time
        cycle.compute zone (ci.getBegin - 1)
    loop zone cycle rounds ci
  else return []

end Engine

end Flowline
