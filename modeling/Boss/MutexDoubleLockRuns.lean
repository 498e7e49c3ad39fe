import Boss.Census
import Boss.MutexDoubleLock

/-!
# Exclusion of the reader/writer lock

Every step that is not a death or a recovery moves one process on one resource
from a phase to another and changes that resource's counters accordingly.
`NodeMove` lists these moves, `step_cases` says that there are no others, and
the counting invariant `Counted` is read off the list: the counters of a
resource are the numbers of processes in the phases they stand for.  Exclusion
is then a matter of three integers, because a reader enters only when no writer
holds or waits and a writer enters only when nobody holds.

The shared node has no counter of waiting readers, and none can be recovered
from the three it has (`no_waiting_reader_counter`).
-/

namespace MutexDoubleLock

open Census

variable {Pid : Type} [DecidableEq Pid]

/-- The phases of all processes on one resource. -/
def State.phaseAt (s : State Pid) (sid : Int) : Pid → Phase := fun p => s.phase p sid

/-- The phase that is set is the one that is read, for the same mutex. -/
@[simp] theorem setPhase_phaseAt_self (s : State Pid) (p : Pid) (sid : Int) (ph : Phase) :
    (s.setPhase p sid ph).phaseAt sid = Function.update (s.phaseAt sid) p ph := by
  funext q
  by_cases hq : q = p
  · subst hq; simp [State.phaseAt, State.setPhase]
  · simp [State.phaseAt, State.setPhase, hq]

/-- Setting a phase leaves the phases of the other mutexes. -/
theorem setPhase_phaseAt_ne (s : State Pid) (p : Pid) {sid other : Int} (ph : Phase)
    (hne : other ≠ sid) : (s.setPhase p sid ph).phaseAt other = s.phaseAt other := by
  funext q
  by_cases hq : q = p
  · subst hq; simp [State.phaseAt, State.setPhase, hne]
  · simp [State.phaseAt, State.setPhase, hq]

/-- Setting a phase leaves the nodes. -/
@[simp] theorem setPhase_node (s : State Pid) (p : Pid) (sid : Int) (ph : Phase) :
    (s.setPhase p sid ph).node = s.node := rfl

/-- Writing the resources of a process leaves the nodes. -/
@[simp] theorem setInfo_node (s : State Pid) (p : Pid) (info : ProcessMSrcInfo) :
    (s.setInfo p info).node = s.node := rfl

omit [DecidableEq Pid] in
/-- The node that is written is the one that is read. -/
@[simp] theorem setNode_node (s : State Pid) (sid : Int) (n : MutexNode) :
    (s.setNode sid n).node = Function.update s.node sid n := rfl

/-- Writing the resources of a process leaves the phases. -/
@[simp] theorem setInfo_phaseAt (s : State Pid) (p : Pid) (info : ProcessMSrcInfo) (sid : Int) :
    (s.setInfo p info).phaseAt sid = s.phaseAt sid := rfl

omit [DecidableEq Pid] in
/-- Writing a node leaves the phases. -/
@[simp] theorem setNode_phaseAt (s : State Pid) (sid other : Int) (n : MutexNode) :
    (s.setNode sid n).phaseAt other = s.phaseAt other := rfl

/-- What a process in this phase adds to the counters of the resource. -/
def share (ph : Phase) : MutexNode where
  m_rdCount := if ph = .reading then 1 else 0
  m_wtCount := if ph = .writing then 1 else 0
  m_wtWait := if ph = .wtWaiting then 1 else 0

/-- How one process can move on one resource, together with the counters of that
resource before and after. -/
inductive NodeMove : MutexNode → Phase → MutexNode → Phase → Prop
  | outside {n : MutexNode} {a b : Phase} (ha : share a = .zero) (hb : share b = .zero) :
      NodeMove n a n b
  | read {n : MutexNode} {a : Phase} (ha : share a = .zero) (hfree : ¬ readBlocked n) :
      NodeMove n a { n with m_rdCount := n.m_rdCount + 1 } .reading
  | unread {n : MutexNode} (hpos : 0 ≤ n.m_rdCount - 1) :
      NodeMove n .reading { n with m_rdCount := n.m_rdCount - 1 } .rdReleased
  | unreadReset {n : MutexNode} (hneg : n.m_rdCount - 1 < 0) :
      NodeMove n .reading { n with m_rdCount := 0 } .idle
  | await {n : MutexNode} :
      NodeMove n .idle { n with m_wtWait := n.m_wtWait + 1 } .wtWaiting
  | awaitMore {n : MutexNode} : NodeMove n .wtWaiting n .wtWaiting
  | write {n n' : MutexNode} {a : Phase} (ha : share a = .zero) (hfree : ¬ writeBlocked n)
      (hn : n' = { n with m_wtCount := n.m_wtCount + 1 }) : NodeMove n a n' .writing
  | writeAfterWait {n : MutexNode} (hfree : ¬ writeBlocked n) :
      NodeMove n .wtWaiting
        { n with m_wtCount := n.m_wtCount + 1, m_wtWait := n.m_wtWait - 1 } .writing
  | unwrite {n : MutexNode} (hpos : 0 ≤ n.m_wtCount - 1) :
      NodeMove n .writing { n with m_wtCount := n.m_wtCount - 1 } .idle
  | unwriteReset {n : MutexNode} (hneg : n.m_wtCount - 1 < 0) :
      NodeMove n .writing { n with m_wtCount := 0 } .idle

/-- The registry count that a process in this phase has on the resource. -/
def regKind : Phase → Option SrcKind
  | .idle => none
  | .rdRegistered | .rdWaiting | .reading | .rdReleased => some .rd
  | .wtWaiting => some .wwait
  | .writing => some .wd

/-- What happens to the registry of the moving process. -/
inductive RegMove (sid : Int) : ProcessMSrcInfo → Phase → ProcessMSrcInfo → Phase → Prop
  | keep {info : ProcessMSrcInfo} {a b : Phase} (h : regKind a = regKind b) :
      RegMove sid info a info b
  | lock {info : ProcessMSrcInfo} {b : Phase} {kind : SrcKind} (hb : regKind b = some kind) :
      RegMove sid info .idle (lockSrc kind info sid).2 b
  | unlock {info : ProcessMSrcInfo} {a : Phase} {kind : SrcKind} (ha : regKind a = some kind) :
      RegMove sid info a (unlockSrc kind info sid).2 .idle
  | write {info : ProcessMSrcInfo} :
      RegMove sid info .wtWaiting (lockWdSrc (unlockWWaitSrc info sid).2 sid).2 .writing
  | writeAtOnce {info : ProcessMSrcInfo} :
      RegMove sid info .idle
        (lockWdSrc (unlockWWaitSrc (lockWWaitSrc info sid).2 sid).2 sid).2 .writing

/-- A state after one process has moved on one resource. -/
def State.moved (s : State Pid) (p : Pid) (sid : Int) (n : MutexNode) (info : ProcessMSrcInfo)
    (ph : Phase) : State Pid :=
  ((s.setNode sid n).setInfo p info).setPhase p sid ph

/-- The state is `s` with one process moved on one resource in a permitted way. -/
def MovedFrom (s : State Pid) (p : Pid) (sid : Int) (t : State Pid) : Prop :=
  ∃ n info ph, t = s.moved p sid n info ph ∧
    NodeMove (s.node sid) (s.phase p sid) n ph ∧
    RegMove sid (s.info p) (s.phase p sid) info ph

/-- Moving a process to where it is changes nothing. -/
theorem moved_self (s : State Pid) (p : Pid) (sid : Int) :
    s.moved p sid (s.node sid) (s.info p) (s.phase p sid) = s := by
  simp [State.moved, State.setNode, State.setInfo, State.setPhase]

omit [DecidableEq Pid] in
/-- Writing a node as it is changes nothing. -/
theorem setNode_self (s : State Pid) (sid : Int) : s.setNode sid (s.node sid) = s := by
  simp [State.setNode]

/-- Writing the resources of a process as they are changes nothing. -/
theorem setInfo_self (s : State Pid) (p : Pid) : s.setInfo p (s.info p) = s := by
  simp [State.setInfo]

/-- A registered or waiting reader that tests the writer moves from its phase. -/
theorem testRead_movedFrom {s : State Pid} {p : Pid} {sid : Int}
    (hph : s.phase p sid ∈ [Phase.rdRegistered, .rdWaiting]) :
    MovedFrom s p sid (testRead s p sid) := by
  have hshare : share (s.phase p sid) = .zero := by
    rcases List.mem_pair.mp hph with h | h <;> rw [h] <;> rfl
  have hreg : regKind (s.phase p sid) = some .rd := by
    rcases List.mem_pair.mp hph with h | h <;> rw [h] <;> rfl
  unfold testRead
  by_cases hb : readBlocked (s.node sid)
  · refine ⟨s.node sid, s.info p, .rdWaiting, ?_, .outside hshare rfl, .keep hreg⟩
    simp [hb, State.moved, setNode_self, setInfo_self]
  · refine ⟨_, s.info p, .reading, ?_, .read hshare hb, .keep hreg⟩
    simp [hb, State.moved, State.setNode, State.setInfo]

/-- An idle process that tries to read moves from its phase. -/
theorem tryRead_movedFrom {s : State Pid} {p : Pid} {sid : Int} (hph : s.phase p sid = .idle) :
    MovedFrom s p sid (tryRead s p sid) := by
  unfold tryRead
  by_cases hb : readBlocked (s.node sid)
  · refine ⟨s.node sid, s.info p, s.phase p sid, ?_, ?_, .keep rfl⟩
    · simp [hb, moved_self]
    · rw [hph]; exact .outside rfl rfl
  · refine ⟨_, _, .reading, by simp [hb, State.moved]; rfl, ?_, ?_⟩
    · rw [hph]; exact .read rfl hb
    · rw [hph]; exact .lock rfl

/-- A reader that leaves moves from its phase. -/
theorem leaveRead_movedFrom {s : State Pid} {p : Pid} {sid : Int}
    (hph : s.phase p sid = .reading) : MovedFrom s p sid (leaveRead s p sid) := by
  unfold leaveRead
  by_cases hneg : (s.node sid).m_rdCount - 1 < 0
  · refine ⟨_, _, .idle, by simp [hneg, State.moved]; rfl, ?_, ?_⟩
    · rw [hph]; exact .unreadReset hneg
    · rw [hph]; exact .unlock rfl
  · refine ⟨{ s.node sid with m_rdCount := (s.node sid).m_rdCount - 1 }, s.info p, .rdReleased,
      by simp [hneg, State.moved, State.setNode, State.setInfo], ?_, ?_⟩
    · rw [hph]; exact .unread (by omega)
    · rw [hph]; exact .keep rfl

/-- A waiting writer that tests the others moves from its phase. -/
theorem testWrite_movedFrom {s : State Pid} {p : Pid} {sid : Int}
    (hph : s.phase p sid = .wtWaiting) : MovedFrom s p sid (testWrite s p sid) := by
  unfold testWrite
  by_cases hb : writeBlocked (s.node sid)
  · refine ⟨s.node sid, s.info p, .wtWaiting, ?_, ?_, ?_⟩
    · simp [hb, State.moved, setNode_self, setInfo_self]
    · rw [hph]; exact .awaitMore
    · rw [hph]; exact .keep rfl
  · refine ⟨_, _, .writing, by simp [hb, State.moved]; rfl, ?_, ?_⟩
    · rw [hph]; exact .writeAfterWait hb
    · rw [hph]; exact .write

/-- An idle process that asks to write moves from its phase. -/
theorem enterWrite_movedFrom {s : State Pid} {p : Pid} {sid : Int}
    (hph : s.phase p sid = .idle) : MovedFrom s p sid (enterWrite s p sid) := by
  unfold enterWrite testWrite
  by_cases hb : writeBlocked (s.node sid)
  · have hb' : writeBlocked { s.node sid with m_wtWait := (s.node sid).m_wtWait + 1 } := hb
    refine ⟨{ s.node sid with m_wtWait := (s.node sid).m_wtWait + 1 },
      (lockWWaitSrc (s.info p) sid).2, .wtWaiting, ?_, ?_, ?_⟩
    · simp [hb', State.moved]
    · rw [hph]; exact .await
    · rw [hph]; exact .lock rfl
  · have hb' : ¬ writeBlocked { s.node sid with m_wtWait := (s.node sid).m_wtWait + 1 } := hb
    refine ⟨{ s.node sid with m_wtCount := (s.node sid).m_wtCount + 1 },
      (lockWdSrc (unlockWWaitSrc (lockWWaitSrc (s.info p) sid).2 sid).2 sid).2, .writing, ?_, ?_, ?_⟩
    · simp [hb', State.moved, State.setNode, State.setInfo, State.setPhase]
    · rw [hph]; exact .write rfl hb rfl
    · rw [hph]; exact .writeAtOnce

/-- An idle process that tries to write moves from its phase. -/
theorem tryWrite_movedFrom {s : State Pid} {p : Pid} {sid : Int} (hph : s.phase p sid = .idle) :
    MovedFrom s p sid (tryWrite s p sid) := by
  unfold tryWrite
  by_cases hb : writeBlocked (s.node sid)
  · refine ⟨s.node sid, s.info p, s.phase p sid, ?_, ?_, .keep rfl⟩
    · simp [hb, moved_self]
    · rw [hph]; exact .outside rfl rfl
  · refine ⟨_, _, .writing, by simp [hb, State.moved]; rfl, ?_, ?_⟩
    · rw [hph]; exact .write rfl hb rfl
    · rw [hph]; exact .lock rfl

/-- A writer that leaves moves from its phase. -/
theorem leaveWrite_movedFrom {s : State Pid} {p : Pid} {sid : Int}
    (hph : s.phase p sid = .writing) : MovedFrom s p sid (leaveWrite s p sid) := by
  unfold leaveWrite
  by_cases hneg : (s.node sid).m_wtCount - 1 < 0
  · refine ⟨_, _, .idle, by simp [hneg, State.moved]; rfl, ?_, ?_⟩
    · rw [hph]; exact .unwriteReset hneg
    · rw [hph]; exact .unlock rfl
  · refine ⟨_, _, .idle, by simp [hneg, State.moved]; rfl, ?_, ?_⟩
    · rw [hph]; exact .unwrite (by omega)
    · rw [hph]; exact .unlock rfl

omit [DecidableEq Pid] in
/-- A step that is taken was taken by a live process on a mutex that exists, in one of the phases
that the step starts from. -/
theorem perform_some {s t u : State Pid} {p : Pid} {sid : Int} {phases : List Phase}
    (h : perform s p sid phases t = some u) :
    (s.alive p = true ∧ 0 ≤ sid ∧ sid < maxMutexNum) ∧ s.phase p sid ∈ phases ∧ t = u := by
  unfold perform at h
  split at h
  · rename_i hcond
    exact ⟨⟨hcond.1, hcond.2.1, hcond.2.2.1⟩, hcond.2.2.2, Option.some.inj h⟩
  · cases h

/-- **What a step can do.**  Every step other than a death or a recovery moves a
live process on a valid resource, in one of the ways of `NodeMove` and
`RegMove`. -/
theorem step_cases {s t : State Pid} {a : Act Pid} {p : Pid} {sid : Int}
    (htarget : a.target = some (p, sid)) (h : step s a = some t) :
    (s.alive p = true ∧ 0 ≤ sid ∧ sid < maxMutexNum) ∧ MovedFrom s p sid t := by
  cases a with
  | registerRead q r =>
      cases htarget
      obtain ⟨hlive, hph, rfl⟩ := perform_some h
      have hidle : s.phase p sid = .idle := by simpa using hph
      refine ⟨hlive, s.node sid, (lockRdSrc (s.info p) sid).2, .rdRegistered, ?_, ?_, ?_⟩
      · simp only [State.moved, setNode_self]
      · rw [hidle]; exact .outside rfl rfl
      · rw [hidle]; exact .lock rfl
  | testRead q r =>
      cases htarget
      obtain ⟨hlive, hph, rfl⟩ := perform_some h
      exact ⟨hlive, testRead_movedFrom hph⟩
  | tryRead q r =>
      cases htarget
      obtain ⟨hlive, hph, rfl⟩ := perform_some h
      exact ⟨hlive, tryRead_movedFrom (by simpa using hph)⟩
  | leaveRead q r =>
      cases htarget
      obtain ⟨hlive, hph, rfl⟩ := perform_some h
      exact ⟨hlive, leaveRead_movedFrom (by simpa using hph)⟩
  | unregisterRead q r =>
      cases htarget
      obtain ⟨hlive, hph, rfl⟩ := perform_some h
      have hrel : s.phase p sid = .rdReleased := by simpa using hph
      refine ⟨hlive, s.node sid, (unlockRdSrc (s.info p) sid).2, .idle, ?_, ?_, ?_⟩
      · simp only [State.moved, setNode_self]
      · rw [hrel]; exact .outside rfl rfl
      · rw [hrel]; exact .unlock rfl
  | enterWrite q r =>
      cases htarget
      obtain ⟨hlive, hph, rfl⟩ := perform_some h
      exact ⟨hlive, enterWrite_movedFrom (by simpa using hph)⟩
  | testWrite q r =>
      cases htarget
      obtain ⟨hlive, hph, rfl⟩ := perform_some h
      exact ⟨hlive, testWrite_movedFrom (by simpa using hph)⟩
  | tryWrite q r =>
      cases htarget
      obtain ⟨hlive, hph, rfl⟩ := perform_some h
      exact ⟨hlive, tryWrite_movedFrom (by simpa using hph)⟩
  | leaveWrite q r =>
      cases htarget
      obtain ⟨hlive, hph, rfl⟩ := perform_some h
      exact ⟨hlive, leaveWrite_movedFrom (by simpa using hph)⟩
  | die q => cases htarget
  | rollback q => cases htarget

/-- The counters change by the difference of the shares; the two resets are
unreachable because the moving process is itself counted. -/
theorem nodeMove_share {n n' : MutexNode} {a b : Phase} (h : NodeMove n a n' b)
    (hrd : (share a).m_rdCount ≤ n.m_rdCount) (hwt : (share a).m_wtCount ≤ n.m_wtCount) :
    n'.m_rdCount = n.m_rdCount - (share a).m_rdCount + (share b).m_rdCount ∧
    n'.m_wtCount = n.m_wtCount - (share a).m_wtCount + (share b).m_wtCount ∧
    n'.m_wtWait = n.m_wtWait - (share a).m_wtWait + (share b).m_wtWait := by
  cases h with
  | outside ha hb => simp [ha, hb, MutexNode.zero]
  | read ha _ => rw [ha]; simp [MutexNode.zero, share]
  | unread _ => simp [share]
  | unreadReset hneg => simp [share] at hrd; omega
  | await => simp [share]
  | awaitMore => simp [share]
  | write ha _ hn => rw [ha, hn]; simp [MutexNode.zero, share]
  | writeAfterWait _ => simp [share]
  | unwrite _ => simp [share]
  | unwriteReset hneg => simp [share] at hwt; omega

/-- A move keeps the holders of a resource compatible. -/
theorem nodeMove_exclusive {n n' : MutexNode} {a b : Phase} (h : NodeMove n a n' b)
    (hrd : (share a).m_rdCount ≤ n.m_rdCount) (hwt : 0 ≤ n.m_wtCount) (hww : 0 ≤ n.m_wtWait)
    (hrd0 : 0 ≤ n.m_rdCount) (hone : n.m_wtCount ≤ 1) (hno : 0 < n.m_wtCount → n.m_rdCount = 0) :
    n'.m_wtCount ≤ 1 ∧ (0 < n'.m_wtCount → n'.m_rdCount = 0) := by
  cases h with
  | outside _ _ => exact ⟨hone, hno⟩
  | read _ hfree => unfold readBlocked at hfree; dsimp only; omega
  | unread _ => simp [share] at hrd; dsimp only; omega
  | unreadReset _ => dsimp only; omega
  | await => exact ⟨hone, hno⟩
  | awaitMore => exact ⟨hone, hno⟩
  | write _ hfree hn => unfold writeBlocked at hfree; subst hn; dsimp only; omega
  | writeAfterWait hfree => unfold writeBlocked at hfree; dsimp only; omega
  | unwrite _ => dsimp only; omega
  | unwriteReset _ => dsimp only; omega

variable [Fintype Pid]

/-- The number of processes in a phase on a resource. -/
def State.count (s : State Pid) (sid : Int) (ph : Phase) : Int := census (s.phaseAt sid) ph

/-- **The counting invariant.**  The counters are the numbers of processes they
stand for, and the holders are compatible. -/
structure Counted (s : State Pid) : Prop where
  rd : ∀ sid, (s.node sid).m_rdCount = s.count sid .reading
  wt : ∀ sid, (s.node sid).m_wtCount = s.count sid .writing
  ww : ∀ sid, (s.node sid).m_wtWait = s.count sid .wtWaiting
  one_writer : ∀ sid, (s.node sid).m_wtCount ≤ 1
  no_reader : ∀ sid, 0 < (s.node sid).m_wtCount → (s.node sid).m_rdCount = 0

section

omit [DecidableEq Pid]

/-- A number of processes is not negative. -/
theorem count_nonneg (s : State Pid) (sid : Int) (ph : Phase) : 0 ≤ s.count sid ph :=
  Int.natCast_nonneg _

/-- A process in a phase is counted in it. -/
theorem count_pos {s : State Pid} {p : Pid} {sid : Int} {ph : Phase}
    (h : s.phase p sid = ph) : 1 ≤ s.count sid ph := by
  have hpos := census_pos (f := s.phaseAt sid) (i := p) (a := ph) h
  unfold State.count
  omega

/-- A process is part of the counters of its phase. -/
theorem share_le (s : State Pid) (p : Pid) (sid : Int) (hc : Counted s) :
    (share (s.phase p sid)).m_rdCount ≤ (s.node sid).m_rdCount ∧
    (share (s.phase p sid)).m_wtCount ≤ (s.node sid).m_wtCount := by
  rw [hc.rd, hc.wt]
  constructor
  · by_cases h : s.phase p sid = .reading
    · simpa [share, h] using count_pos h
    · simpa [share, h] using count_nonneg s sid .reading
  · by_cases h : s.phase p sid = .writing
    · simpa [share, h] using count_pos h
    · simpa [share, h] using count_nonneg s sid .writing

end

/-- A process that moves leaves the count of its old phase and enters that of the new one. -/
theorem count_moved_self (s : State Pid) (p : Pid) (sid : Int) (n : MutexNode)
    (info : ProcessMSrcInfo) (ph c : Phase) :
    (s.moved p sid n info ph).count sid c =
      s.count sid c - (if s.phase p sid = c then 1 else 0) + (if ph = c then 1 else 0) := by
  unfold State.count State.moved
  rw [setPhase_phaseAt_self, setInfo_phaseAt, setNode_phaseAt, census_update]
  rfl

/-- A move on one mutex leaves the counts of the others. -/
theorem count_moved_ne (s : State Pid) (p : Pid) {sid other : Int} (n : MutexNode)
    (info : ProcessMSrcInfo) (ph c : Phase) (hne : other ≠ sid) :
    (s.moved p sid n info ph).count other c = s.count other c := by
  simp [State.count, State.moved, setPhase_phaseAt_ne _ _ _ hne]

/-- Replacing the counters of one resource by consistent ones keeps the
invariant; this is where all counting steps end. -/
theorem Counted.moved {s : State Pid} (hc : Counted s) {p : Pid} {sid : Int} {n : MutexNode}
    {info : ProcessMSrcInfo} {ph : Phase}
    (hshare : n.m_rdCount = (s.node sid).m_rdCount - (share (s.phase p sid)).m_rdCount +
        (share ph).m_rdCount ∧
      n.m_wtCount = (s.node sid).m_wtCount - (share (s.phase p sid)).m_wtCount +
        (share ph).m_wtCount ∧
      n.m_wtWait = (s.node sid).m_wtWait - (share (s.phase p sid)).m_wtWait +
        (share ph).m_wtWait)
    (hexcl : n.m_wtCount ≤ 1 ∧ (0 < n.m_wtCount → n.m_rdCount = 0)) :
    Counted (s.moved p sid n info ph) := by
  obtain ⟨hrd, hwt, hww⟩ := hshare
  have hnode : (s.moved p sid n info ph).node = Function.update s.node sid n := rfl
  constructor
  · intro t
    by_cases ht : t = sid
    · subst ht
      rw [count_moved_self, ← hc.rd, hnode, Function.update_self, hrd]
      simp [share]
    · rw [count_moved_ne _ _ _ _ _ _ ht, ← hc.rd, hnode, Function.update_of_ne ht]
  · intro t
    by_cases ht : t = sid
    · subst ht
      rw [count_moved_self, ← hc.wt, hnode, Function.update_self, hwt]
      simp [share]
    · rw [count_moved_ne _ _ _ _ _ _ ht, ← hc.wt, hnode, Function.update_of_ne ht]
  · intro t
    by_cases ht : t = sid
    · subst ht
      rw [count_moved_self, ← hc.ww, hnode, Function.update_self, hww]
      simp [share]
    · rw [count_moved_ne _ _ _ _ _ _ ht, ← hc.ww, hnode, Function.update_of_ne ht]
  · intro t
    by_cases ht : t = sid
    · subst ht; rw [hnode, Function.update_self]; exact hexcl.1
    · rw [hnode, Function.update_of_ne ht]; exact hc.one_writer t
  · intro t
    by_cases ht : t = sid
    · subst ht; rw [hnode, Function.update_self]; exact hexcl.2
    · rw [hnode, Function.update_of_ne ht]; exact hc.no_reader t

/-- **A move keeps the counters**: each counter of the node is still the number of processes in its
phase. -/
theorem Counted.movedFrom {s t : State Pid} (hc : Counted s) {p : Pid} {sid : Int}
    (h : MovedFrom s p sid t) : Counted t := by
  obtain ⟨n, info, ph, rfl, hmove, _⟩ := h
  obtain ⟨hrd, hwt⟩ := share_le s p sid hc
  have hwt0 : 0 ≤ (s.node sid).m_wtCount := by rw [hc.wt]; exact count_nonneg ..
  have hww0 : 0 ≤ (s.node sid).m_wtWait := by rw [hc.ww]; exact count_nonneg ..
  have hrd0 : 0 ≤ (s.node sid).m_rdCount := by rw [hc.rd]; exact count_nonneg ..
  exact hc.moved (nodeMove_share hmove hrd hwt)
    (nodeMove_exclusive hmove hrd hwt0 hww0 hrd0 (hc.one_writer sid) (hc.no_reader sid))

omit [DecidableEq Pid] in
/-- Initially all counters and all numbers of processes are 0. -/
theorem counted_init : Counted (init : State Pid) := by
  have hzero : ∀ sid ph, ph ≠ Phase.idle → (init : State Pid).count sid ph = 0 := by
    intro sid ph hne
    have hconst : census (fun _ : Pid => Phase.idle) ph = 0 := census_const hne.symm
    unfold State.count
    exact_mod_cast hconst
  constructor
  · intro sid; rw [hzero sid _ (by decide)]; rfl
  · intro sid; rw [hzero sid _ (by decide)]; rfl
  · intro sid; rw [hzero sid _ (by decide)]; rfl
  · intro sid; simp [init, MutexNode.zero]
  · intro sid h; simp [init, MutexNode.zero] at h

/-- The invariant holds in every state of every run without crashes. -/
theorem counted_of_run {acts : List (Act Pid)} {s : State Pid}
    (hlive : ∀ a ∈ acts, a.target ≠ none) (hrun : runFrom acts = some s) : Counted s := by
  refine Runs.run_invariant_of_meets (C := fun _ a => a.target ≠ none) ?_ counted_init
    (Runs.meets_of_forall hlive init) hrun
  intro s a t hc hok hstep
  obtain ⟨⟨p, sid⟩, htarget⟩ := Option.ne_none_iff_exists'.mp hok
  exact hc.movedFrom (step_cases htarget hstep).2

/-- At most one process writes, and nobody reads while one does. -/
theorem Counted.exclusive {s : State Pid} (hc : Counted s) {sid : Int} {p : Pid}
    (hp : s.phase p sid = .writing) :
    (∀ q, s.phase q sid = .writing → q = p) ∧ ∀ q, s.phase q sid ≠ .reading := by
  have hpos := count_pos hp
  have hone := hc.one_writer sid
  have hno := hc.no_reader sid
  rw [hc.wt] at hone hno
  constructor
  · intro q hq
    by_contra hne
    have htwo := census_two (f := s.phaseAt sid) hq hp hne
    unfold State.count at hone
    omega
  · intro q hq
    have hread := count_pos hq
    rw [← hc.rd, hno (by omega)] at hread
    omega

/-- **Exclusion without crashes.**  In every state that any interleaving of any
number of processes reaches, at most one process writes, none reads while one
writes, and the reader, writer and waiting-writer counters of every resource are
non-negative and equal to the numbers of processes reading, writing and waiting
to write. -/
theorem rwlock_exclusion {acts : List (Act Pid)} {s : State Pid}
    (hlive : ∀ a ∈ acts, a.target ≠ none) (hrun : runFrom acts = some s) (sid : Int) :
    (∀ p q, s.phase p sid = .writing → s.phase q sid = .writing → q = p) ∧
    (∀ p q, s.phase p sid = .writing → s.phase q sid ≠ .reading) ∧
    (0 ≤ (s.node sid).m_rdCount ∧ (s.node sid).m_rdCount = s.count sid .reading) ∧
    (0 ≤ (s.node sid).m_wtCount ∧ (s.node sid).m_wtCount = s.count sid .writing) ∧
    (0 ≤ (s.node sid).m_wtWait ∧ (s.node sid).m_wtWait = s.count sid .wtWaiting) := by
  have hc := counted_of_run hlive hrun
  refine ⟨fun p q hp hq => (hc.exclusive hp).1 q hq, fun p q hp => (hc.exclusive hp).2 q,
    ⟨?_, hc.rd sid⟩, ⟨?_, hc.wt sid⟩, ⟨?_, hc.ww sid⟩⟩
  · rw [hc.rd]; exact count_nonneg ..
  · rw [hc.wt]; exact count_nonneg ..
  · rw [hc.ww]; exact count_nonneg ..

/-- A writer at work, a second writer waiting and a reader waiting. -/
def contention : List (Act (Fin 3)) :=
  [.enterWrite 0 5, .enterWrite 1 5, .registerRead 2 5, .testRead 2 5, .leaveWrite 0 5]

/-- A writer that waits behind a reader is counted in `m_wtWait`. -/
theorem rwlock_exclusion_contention :
    ∃ s, runFrom contention = some s ∧ s.phase 1 5 = .wtWaiting ∧
      (s.node 5).m_wtWait = s.count 5 .wtWaiting := by
  obtain ⟨s, hs⟩ : ∃ s, runFrom contention = some s :=
    Option.isSome_iff_exists.mp (by decide)
  have hphase : (runFrom contention).map (fun s => s.phase 1 5) = some .wtWaiting := by decide
  rw [hs] at hphase
  exact ⟨s, hs, Option.some.inj hphase,
    (rwlock_exclusion (by decide) hs 5).2.2.2.2.2⟩

/-- **No waiting-reader counter.**  Two reachable states with the same shared
counters differ in the number of waiting readers, so no function of the shared
counters is that number. -/
theorem no_waiting_reader_counter :
    ¬ ∃ waitingReaders : MutexNode → Int, ∀ (acts : List (Act (Fin 2))) (s : State (Fin 2)),
      (∀ a ∈ acts, a.target ≠ none) → runFrom acts = some s →
      waitingReaders (s.node 0) = s.count 0 .rdWaiting := by
  rintro ⟨f, hf⟩
  have hvals : ∀ acts : List (Act (Fin 2)), (∀ a ∈ acts, a.target ≠ none) →
      ∀ n c, (runFrom acts).map (fun s => (s.node 0, s.count 0 .rdWaiting)) = some (n, c) →
      f n = c := by
    intro acts hlive n c h
    obtain ⟨s, hs, hpair⟩ := Option.map_eq_some_iff.mp h
    have hsame := hf acts s hlive hs
    rw [Prod.mk.injEq] at hpair
    rw [← hpair.1, ← hpair.2]
    exact hsame
  have hzero := hvals [.enterWrite 0 0] (by decide) ⟨0, 1, 0⟩ 0 (by decide)
  have hone := hvals [.enterWrite 0 0, .registerRead 1 0, .testRead 1 0] (by decide)
    ⟨0, 1, 0⟩ 1 (by decide)
  rw [hzero] at hone
  cases hone

end MutexDoubleLock
