import Boss.Runs

/-!
# The process-shared reader/writer lock

`MutexDoubleLock` builds a reader/writer lock out of one process-shared mutex,
one condition variable and three counters per resource (`MutexNode`).  Beside
the counters every process keeps a registry of what it holds or waits for
(`ProcessMSrcInfo`), which `MutexSrcMgr::rollbackSrc` reads when the process has
died.

The model is a step function over any population of processes.  A step is one
critical section under the inner mutex, or one registry update that the source
makes outside of it; these are exactly the points between which another process
can be scheduled or the process can die.  `getReadLock` registers before it
takes the mutex and `releaseReadLock` unregisters after it has given the mutex
back, so each of them is two steps; everything a writer does lies inside the
mutex.  `pthread_cond_wait` ends a critical section, and a waiter may re-test
its condition at any time, which covers broadcasts, batched and spurious
wake-ups.
-/

namespace MutexDoubleLock

/-- The shared counters of one lock resource. -/
structure MutexNode where
  m_rdCount : Int
  m_wtCount : Int
  m_wtWait : Int
  deriving DecidableEq, Repr

/-- The counters that the creator of the shared memory writes. -/
def MutexNode.zero : MutexNode := ⟨0, 0, 0⟩

/-- The three counts a registry entry keeps. -/
inductive SrcKind
  | rd
  | wd
  | wwait
  deriving DecidableEq, Repr

/-- One entry of a process's registry (`m_time` is only read by warnings). -/
structure MsrcInfo where
  m_sid : Int
  m_rcount : Int
  m_wcount : Int
  m_wwait : Int
  deriving DecidableEq, Repr

def MsrcInfo.count (e : MsrcInfo) : SrcKind → Int
  | .rd => e.m_rcount
  | .wd => e.m_wcount
  | .wwait => e.m_wwait

def MsrcInfo.add (e : MsrcInfo) (kind : SrcKind) (d : Int) : MsrcInfo :=
  match kind with
  | .rd => { e with m_rcount := e.m_rcount + d }
  | .wd => { e with m_wcount := e.m_wcount + d }
  | .wwait => { e with m_wwait := e.m_wwait + d }

def MsrcInfo.total (e : MsrcInfo) : Int := e.m_rcount + e.m_wcount + e.m_wwait

/-- The first `m_srcNum` entries of a process's registry. -/
abbrev ProcessMSrcInfo := List MsrcInfo

/-- `MAX_PSRC_NUM`: the entries a process's registry has room for. -/
def maxPsrcNum : Nat := 10

/-- `DoubleLock::MAX_MUTEX_NUM`: the lock resources of a database. -/
def maxMutexNum : Int := 100000

/-- Change the first entry of resource `sid` by `d`; `none` when there is none. -/
def bump (kind : SrcKind) (sid : Int) (d : Int) : ProcessMSrcInfo → Option ProcessMSrcInfo
  | [] => none
  | e :: rest =>
      if e.m_sid = sid then some (e.add kind d :: rest)
      else (bump kind sid d rest).map (e :: ·)

/-- The common body of `MutexShmMgr::lockRdSrc`, `lockWdSrc` and
`lockWWaitSrc`; a full registry is left as it is. -/
def lockSrc (kind : SrcKind) (info : ProcessMSrcInfo) (sid : Int) : Bool × ProcessMSrcInfo :=
  match bump kind sid 1 info with
  | some info' => (true, info')
  | none =>
      if info.length ≥ maxPsrcNum then (false, info)
      else (true, info ++ [MsrcInfo.add ⟨sid, 0, 0, 0⟩ kind 1])

/-- Take one off the first entry of resource `sid` and close the gap when the
entry has nothing left. -/
def takeOff (kind : SrcKind) (sid : Int) : ProcessMSrcInfo → Option ProcessMSrcInfo
  | [] => none
  | e :: rest =>
      if e.m_sid = sid then
        if (e.add kind (-1)).total > 0 then some (e.add kind (-1) :: rest) else some rest
      else (takeOff kind sid rest).map (e :: ·)

/-- The common body of `MutexShmMgr::unlockRdSrc`, `unlockWdSrc` and
`unlockWWaitSrc`. -/
def unlockSrc (kind : SrcKind) (info : ProcessMSrcInfo) (sid : Int) : Bool × ProcessMSrcInfo :=
  match takeOff kind sid info with
  | some info' => (true, info')
  | none => (false, info)

def lockRdSrc := lockSrc .rd
def lockWdSrc := lockSrc .wd
def lockWWaitSrc := lockSrc .wwait
def unlockRdSrc := unlockSrc .rd
def unlockWdSrc := unlockSrc .wd
def unlockWWaitSrc := unlockSrc .wwait

/-- Where a process stands with respect to one resource. -/
inductive Phase
  | idle
  /-- `getReadLock` has registered and not yet taken the mutex. -/
  | rdRegistered
  /-- Inside `pthread_cond_wait` of `getReadLock`. -/
  | rdWaiting
  | reading
  /-- `releaseReadLock` has given the mutex back and not yet unregistered. -/
  | rdReleased
  /-- Inside `pthread_cond_wait` of `getWriteLock`. -/
  | wtWaiting
  | writing
  deriving DecidableEq, Repr

/-- The shared memory, and for every process its registry, its phase on each
resource and whether it is alive. -/
structure State (Pid : Type) where
  node : Int → MutexNode
  info : Pid → ProcessMSrcInfo
  phase : Pid → Int → Phase
  alive : Pid → Bool

variable {Pid : Type} [DecidableEq Pid]

/-- Freshly created shared memory, every process alive and outside the lock. -/
def init : State Pid where
  node := fun _ => MutexNode.zero
  info := fun _ => []
  phase := fun _ _ => .idle
  alive := fun _ => true

namespace State

def setNode (s : State Pid) (sid : Int) (n : MutexNode) : State Pid :=
  { s with node := Function.update s.node sid n }

def setInfo (s : State Pid) (p : Pid) (info : ProcessMSrcInfo) : State Pid :=
  { s with info := Function.update s.info p info }

def setPhase (s : State Pid) (p : Pid) (sid : Int) (ph : Phase) : State Pid :=
  { s with phase := Function.update s.phase p (Function.update (s.phase p) sid ph) }

end State

/-- The loop test of `getReadLock` and of `getReadLockNoWait`. -/
def readBlocked (n : MutexNode) : Prop := n.m_wtCount + n.m_wtWait > 0

/-- The loop test of `getWriteLock` and of `getWriteLockNoWait`. -/
def writeBlocked (n : MutexNode) : Prop := n.m_rdCount + n.m_wtCount > 0

instance (n : MutexNode) : Decidable (readBlocked n) := by unfold readBlocked; infer_instance
instance (n : MutexNode) : Decidable (writeBlocked n) := by unfold writeBlocked; infer_instance

/-- `getReadLock` from its mutex on, first test or re-test after a wake-up. -/
def testRead (s : State Pid) (p : Pid) (sid : Int) : State Pid :=
  let n := s.node sid
  if readBlocked n then s.setPhase p sid .rdWaiting
  else (s.setNode sid { n with m_rdCount := n.m_rdCount + 1 }).setPhase p sid .reading

/-- The loop of `getWriteLock` and what follows it, once the process is counted
and registered as waiting. -/
def testWrite (s : State Pid) (p : Pid) (sid : Int) : State Pid :=
  let n := s.node sid
  if writeBlocked n then s.setPhase p sid .wtWaiting
  else
    let n' := { n with m_wtCount := n.m_wtCount + 1, m_wtWait := n.m_wtWait - 1 }
    let info := (unlockWWaitSrc (s.info p) sid).2
    ((s.setNode sid n').setInfo p (lockWdSrc info sid).2).setPhase p sid .writing

/-- `getWriteLock` up to its loop. -/
def enterWrite (s : State Pid) (p : Pid) (sid : Int) : State Pid :=
  let n := s.node sid
  testWrite ((s.setNode sid { n with m_wtWait := n.m_wtWait + 1 }).setInfo p
    (lockWWaitSrc (s.info p) sid).2) p sid

/-- `getReadLockNoWait`: a blocked call returns without a trace. -/
def tryRead (s : State Pid) (p : Pid) (sid : Int) : State Pid :=
  let n := s.node sid
  if readBlocked n then s
  else ((s.setNode sid { n with m_rdCount := n.m_rdCount + 1 }).setInfo p
    (lockRdSrc (s.info p) sid).2).setPhase p sid .reading

/-- `getWriteLockNoWait`. -/
def tryWrite (s : State Pid) (p : Pid) (sid : Int) : State Pid :=
  let n := s.node sid
  if writeBlocked n then s
  else ((s.setNode sid { n with m_wtCount := n.m_wtCount + 1 }).setInfo p
    (lockWdSrc (s.info p) sid).2).setPhase p sid .writing

/-- The critical section of `releaseReadLock`.  A negative count is reset and
raises, with the registry entry taken back inside the mutex. -/
def leaveRead (s : State Pid) (p : Pid) (sid : Int) : State Pid :=
  let n := { s.node sid with m_rdCount := (s.node sid).m_rdCount - 1 }
  if n.m_rdCount < 0 then
    ((s.setNode sid { n with m_rdCount := 0 }).setInfo p
      (unlockRdSrc (s.info p) sid).2).setPhase p sid .idle
  else (s.setNode sid n).setPhase p sid .rdReleased

/-- The critical section of `releaseWriteLock`; a negative count is reset. -/
def leaveWrite (s : State Pid) (p : Pid) (sid : Int) : State Pid :=
  let n := { s.node sid with m_wtCount := (s.node sid).m_wtCount - 1 }
  ((s.setNode sid (if n.m_wtCount < 0 then { n with m_wtCount := 0 } else n)).setInfo p
    (unlockWdSrc (s.info p) sid).2).setPhase p sid .idle

/-- One critical section of `rollbackSrc` on a counter: never below zero. -/
def decCount (c : Int) : Int := if c > 0 then c - 1 else c

/-- The counter that a registry count of this kind stands for. -/
def rollbackNode (n : MutexNode) : SrcKind → MutexNode
  | .rd => { n with m_rdCount := decCount n.m_rdCount }
  | .wd => { n with m_wtCount := decCount n.m_wtCount }
  | .wwait => { n with m_wtWait := decCount n.m_wtWait }

/-- The count that `rollbackSrc` works on next: entries in order, inside an
entry reads, writes and write waits; entries with a resource number out of
range are skipped. -/
def rollbackNext : ProcessMSrcInfo → Option (SrcKind × Int)
  | [] => none
  | e :: rest =>
      if e.m_sid < 0 ∨ e.m_sid > maxMutexNum then rollbackNext rest
      else if e.m_rcount > 0 then some (.rd, e.m_sid)
      else if e.m_wcount > 0 then some (.wd, e.m_sid)
      else if e.m_wwait > 0 then some (.wwait, e.m_sid)
      else rollbackNext rest

/-- One round of `rollbackSrc` for the dead process `p`: the next counter, or
the final `memset` of the registry.  The phase of the dead process only records
what it still has in the counters, so the round takes it back too. -/
def rollbackSrc (s : State Pid) (p : Pid) : State Pid :=
  match rollbackNext (s.info p) with
  | none => s.setInfo p []
  | some (kind, sid) =>
      ((s.setNode sid (rollbackNode (s.node sid) kind)).setInfo p
        ((bump kind sid (-1) (s.info p)).getD (s.info p))).setPhase p sid .idle

/-- Who does what. -/
inductive Act (Pid : Type)
  | registerRead (p : Pid) (sid : Int)
  | testRead (p : Pid) (sid : Int)
  | tryRead (p : Pid) (sid : Int)
  | leaveRead (p : Pid) (sid : Int)
  | unregisterRead (p : Pid) (sid : Int)
  | enterWrite (p : Pid) (sid : Int)
  | testWrite (p : Pid) (sid : Int)
  | tryWrite (p : Pid) (sid : Int)
  | leaveWrite (p : Pid) (sid : Int)
  | die (p : Pid)
  | rollback (p : Pid)
  deriving DecidableEq, Repr

/-- A live process performs `f` on a resource that `open` accepts, provided it
stands in one of the phases in which the source reaches that code. -/
def perform (s : State Pid) (p : Pid) (sid : Int) (phases : List Phase) (t : State Pid) :
    Option (State Pid) :=
  if s.alive p ∧ 0 ≤ sid ∧ sid < maxMutexNum ∧ s.phase p sid ∈ phases then some t else none

/-- One step of the system. -/
def step (s : State Pid) : Act Pid → Option (State Pid)
  | .registerRead p sid =>
      perform s p sid [.idle]
        ((s.setInfo p (lockRdSrc (s.info p) sid).2).setPhase p sid .rdRegistered)
  | .testRead p sid => perform s p sid [.rdRegistered, .rdWaiting] (testRead s p sid)
  | .tryRead p sid => perform s p sid [.idle] (tryRead s p sid)
  | .leaveRead p sid => perform s p sid [.reading] (leaveRead s p sid)
  | .unregisterRead p sid =>
      perform s p sid [.rdReleased]
        ((s.setInfo p (unlockRdSrc (s.info p) sid).2).setPhase p sid .idle)
  | .enterWrite p sid => perform s p sid [.idle] (enterWrite s p sid)
  | .testWrite p sid => perform s p sid [.wtWaiting] (testWrite s p sid)
  | .tryWrite p sid => perform s p sid [.idle] (tryWrite s p sid)
  | .leaveWrite p sid => perform s p sid [.writing] (leaveWrite s p sid)
  | .die p => if s.alive p then some { s with alive := Function.update s.alive p false } else none
  | .rollback p => if s.alive p then none else some (rollbackSrc s p)

/-- The process that acts and the resource it acts on; `none` for deaths and the
recovery after them. -/
def Act.target : Act Pid → Option (Pid × Int)
  | .registerRead p sid | .testRead p sid | .tryRead p sid | .leaveRead p sid
  | .unregisterRead p sid | .enterWrite p sid | .testWrite p sid | .tryWrite p sid
  | .leaveWrite p sid => some (p, sid)
  | .die _ | .rollback _ => none

/-- Runs from freshly created shared memory. -/
abbrev runFrom (acts : List (Act Pid)) : Option (State Pid) := Runs.run step init acts

end MutexDoubleLock
