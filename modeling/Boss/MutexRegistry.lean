import Boss.MutexRollback
import Mathlib.Algebra.GroupWithZero.Nat
import Mathlib.Algebra.Order.Ring.Int
import Mathlib.Data.List.Count
import Mathlib.Data.List.Nodup

/-!
# The registry of one process

What `rollbackSrc` gives back for a process is what the process's registry says.  Here one
process takes and releases locks, of any kind and as many as it likes on one resource, while
the others change the shared counters as they please.  Beside the registry the state keeps
the locks that the process holds or waits for.

The registry has ten entries.  As long as a lock on a further resource is only asked for
while fewer than ten resources are in use, the registry counts exactly these locks
(`recorded_eq_count`).  The eleventh resource is not registered, and the answer `false` of
`lockRdSrc` is not looked at (`recorded_ne_count`).
-/

namespace MutexRegistry

open MutexDoubleLock (MutexNode SrcKind MsrcInfo ProcessMSrcInfo maxPsrcNum maxMutexNum bump
  takeOff bump_eq add_m_sid lockSrc unlockSrc lockRdSrc lockWdSrc lockWWaitSrc unlockRdSrc unlockWdSrc
  unlockWWaitSrc readBlocked writeBlocked)

/-- What the registry records of a kind of lock on a resource. -/
def recorded (info : ProcessMSrcInfo) (sid : Int) (kind : SrcKind) : Int :=
  ((info.filter fun e => decide (e.m_sid = sid)).map fun e => e.count kind).sum

/-- The shared counters, the registry of the process, the locks that it holds or waits for,
and the call that waits, if there is one. -/
structure State where
  node : Int → MutexNode
  m_pMSrcInfo : ProcessMSrcInfo
  locks : List (SrcKind × Int)
  waits : Option (SrcKind × Int)

def init : State where
  node := fun _ => MutexNode.zero
  m_pMSrcInfo := []
  locks := []
  waits := none

namespace State

variable (s : State)

def setNode (sid : Int) (n : MutexNode) : State := { s with node := Function.update s.node sid n }

/-- A lock is registered, and the process holds it or waits for it. -/
def take (kind : SrcKind) (sid : Int) : State :=
  { s with
    m_pMSrcInfo := (lockSrc kind s.m_pMSrcInfo sid).2
    locks := (kind, sid) :: s.locks }

/-- A lock is taken off the registry, and the process has it no more. -/
def give (kind : SrcKind) (sid : Int) : State :=
  { s with
    m_pMSrcInfo := (unlockSrc kind s.m_pMSrcInfo sid).2
    locks := s.locks.erase (kind, sid) }

/-- The loop of `getReadLock`, from the mutex on or after a wake-up. -/
def testRead (sid : Int) : State :=
  let n := s.node sid
  if readBlocked n then { s with waits := some (.rd, sid) }
  else { s.setNode sid { n with m_rdCount := n.m_rdCount + 1 } with waits := none }

def getReadLock (sid : Int) : State := (s.take .rd sid).testRead sid

/-- The loop of `getWriteLock` and what follows it. -/
def testWrite (sid : Int) : State :=
  let n := s.node sid
  if writeBlocked n then { s with waits := some (.wwait, sid) }
  else
    let t := s.setNode sid { n with m_wtCount := n.m_wtCount + 1, m_wtWait := n.m_wtWait - 1 }
    { (t.give .wwait sid).take .wd sid with waits := none }

def getWriteLock (sid : Int) : State :=
  let n := s.node sid
  ((s.setNode sid { n with m_wtWait := n.m_wtWait + 1 }).take .wwait sid).testWrite sid

/-- `getReadLockNoWait`; `busy` is the answer of `pthread_mutex_trylock`. -/
def getReadLockNoWait (busy : Bool) (sid : Int) : State :=
  let n := s.node sid
  if busy ∨ readBlocked n then s
  else (s.setNode sid { n with m_rdCount := n.m_rdCount + 1 }).take .rd sid

def getWriteLockNoWait (busy : Bool) (sid : Int) : State :=
  let n := s.node sid
  if busy ∨ writeBlocked n then s
  else (s.setNode sid { n with m_wtCount := n.m_wtCount + 1 }).take .wd sid

/-- `releaseReadLock`; a counter below zero is reset before the error. -/
def releaseReadLock (sid : Int) : State :=
  let n := { s.node sid with m_rdCount := (s.node sid).m_rdCount - 1 }
  (s.setNode sid (if n.m_rdCount < 0 then { n with m_rdCount := 0 } else n)).give .rd sid

def releaseWriteLock (sid : Int) : State :=
  let n := { s.node sid with m_wtCount := (s.node sid).m_wtCount - 1 }
  (s.setNode sid (if n.m_wtCount < 0 then { n with m_wtCount := 0 } else n)).give .wd sid

end State

/-- The calls of the process, a test of the call that waits, and what the other processes do
to the counters of a resource. -/
inductive Act
  | getReadLock (sid : Int)
  | getWriteLock (sid : Int)
  | wakeUp
  | getReadLockNoWait (busy : Bool) (sid : Int)
  | getWriteLockNoWait (busy : Bool) (sid : Int)
  | releaseReadLock (sid : Int)
  | releaseWriteLock (sid : Int)
  | others (sid : Int) (n : MutexNode)

/-- A call on a resource that `open` accepts, while no other call of the process waits. -/
def perform (s : State) (sid : Int) (matched : Bool) (t : State) : Option State :=
  if s.waits = none ∧ 0 ≤ sid ∧ sid < maxMutexNum ∧ matched = true then some t else none

/-- One step.  Calls are matched: only a lock that the process has is released. -/
def step (s : State) : Act → Option State
  | .getReadLock sid => perform s sid true (s.getReadLock sid)
  | .getWriteLock sid => perform s sid true (s.getWriteLock sid)
  | .wakeUp =>
      match s.waits with
      | none => none
      | some (.rd, sid) => some (s.testRead sid)
      | some (.wd, _) => none
      | some (.wwait, sid) => some (s.testWrite sid)
  | .getReadLockNoWait busy sid => perform s sid true (s.getReadLockNoWait busy sid)
  | .getWriteLockNoWait busy sid => perform s sid true (s.getWriteLockNoWait busy sid)
  | .releaseReadLock sid =>
      perform s sid (decide ((SrcKind.rd, sid) ∈ s.locks)) (s.releaseReadLock sid)
  | .releaseWriteLock sid =>
      perform s sid (decide ((SrcKind.wd, sid) ∈ s.locks)) (s.releaseWriteLock sid)
  | .others sid n => some (s.setNode sid n)

/-! ## The registry and the locks -/

/-- The resources in use. -/
def resources (locks : List (SrcKind × Int)) : List Int := (locks.map Prod.snd).dedup

/-- The registry has an entry for every resource in use, with the numbers of its locks. -/
structure Registered (info : ProcessMSrcInfo) (locks : List (SrcKind × Int)) : Prop where
  nodup : (info.map (·.m_sid)).Nodup
  counts : ∀ e ∈ info, ∀ kind, e.count kind = locks.count (kind, e.m_sid)
  used : ∀ e ∈ info, 0 < e.total
  held : ∀ l ∈ locks, ∃ e ∈ info, e.m_sid = l.2
  room : (resources locks).length ≤ maxPsrcNum

/-- Adding to one kind leaves the counts of the others. -/
theorem count_add (e : MsrcInfo) (kind k : SrcKind) (d : Int) :
    (e.add kind d).count k = e.count k + if k = kind then d else 0 := by
  cases kind <;> cases k <;> simp [MsrcInfo.add, MsrcInfo.count]

/-- Adding to one kind adds to the total. -/
theorem total_add (e : MsrcInfo) (kind : SrcKind) (d : Int) :
    (e.add kind d).total = e.total + d := by
  cases kind <;> simp only [MsrcInfo.add, MsrcInfo.total] <;> omega

theorem total_eq (e : MsrcInfo) : e.total = e.count .rd + e.count .wd + e.count .wwait := rfl

/-- An entry with a lock of some kind. -/
theorem Registered.count_pos {info : ProcessMSrcInfo} {locks : List (SrcKind × Int)}
    (h : Registered info locks) {e : MsrcInfo} (he : e ∈ info) :
    ∃ kind, (kind, e.m_sid) ∈ locks := by
  by_contra hnone
  have hzero : ∀ kind, e.count kind = 0 := by
    intro kind
    rw [h.counts e he, List.count_eq_zero.mpr fun hin => hnone ⟨kind, hin⟩]
    rfl
  have hpos := h.used e he
  rw [total_eq, hzero, hzero, hzero] at hpos
  omega

/-- Nothing is registered and nothing is held. -/
theorem registered_nil : Registered [] [] where
  nodup := List.nodup_nil
  counts := by simp
  used := by simp
  held := by simp
  room := by decide

/-- What is recorded is what the first entry has and what the others have. -/
theorem recorded_cons (e : MsrcInfo) (info : ProcessMSrcInfo) (sid : Int) (kind : SrcKind) :
    recorded (e :: info) sid kind =
      (if e.m_sid = sid then e.count kind else 0) + recorded info sid kind := by
  by_cases he : e.m_sid = sid
  · simp [recorded, he]
  · simp [recorded, he]

/-- Nothing is recorded for a mutex without an entry. -/
theorem recorded_of_notMem {info : ProcessMSrcInfo} {sid : Int}
    (h : sid ∉ info.map (·.m_sid)) (kind : SrcKind) : recorded info sid kind = 0 := by
  induction info with
  | nil => rfl
  | cons e info ih =>
      rw [List.map_cons, List.mem_cons, not_or] at h
      rw [recorded_cons, if_neg fun he => h.1 he.symm, ih h.2]
      rfl

/-- For a mutex with an entry what it counts is recorded. -/
theorem recorded_of_mem {info : ProcessMSrcInfo} (hnodup : (info.map (·.m_sid)).Nodup)
    {e : MsrcInfo} (he : e ∈ info) (kind : SrcKind) :
    recorded info e.m_sid kind = e.count kind := by
  induction info with
  | nil => exact absurd he List.not_mem_nil
  | cons f info ih =>
      rw [List.map_cons, List.nodup_cons] at hnodup
      rw [recorded_cons]
      rcases List.mem_cons.mp he with rfl | hrest
      · rw [if_pos rfl, recorded_of_notMem hnodup.1]
        omega
      · have hne : f.m_sid ≠ e.m_sid := fun h =>
          hnodup.1 (List.mem_map.mpr ⟨e, hrest, h.symm⟩)
        rw [if_neg hne, ih hnodup.2 hrest]
        omega

/-- The registry counts what the process has. -/
theorem Registered.recorded_eq {info : ProcessMSrcInfo} {locks : List (SrcKind × Int)}
    (h : Registered info locks) (sid : Int) (kind : SrcKind) :
    recorded info sid kind = locks.count (kind, sid) := by
  by_cases hsid : sid ∈ info.map (·.m_sid)
  · obtain ⟨e, he, rfl⟩ := List.mem_map.mp hsid
    rw [recorded_of_mem h.nodup he, h.counts e he]
  · have hnone : (kind, sid) ∉ locks := by
      intro hin
      obtain ⟨e, he, heq⟩ := h.held _ hin
      exact hsid (List.mem_map.mpr ⟨e, he, heq⟩)
    rw [recorded_of_notMem hsid, List.count_eq_zero.mpr hnone]
    rfl

/-- There are no more entries than resources in use. -/
theorem Registered.length_le {info : ProcessMSrcInfo} {locks : List (SrcKind × Int)}
    (h : Registered info locks) : info.length ≤ (resources locks).length := by
  have hsub : info.map (·.m_sid) ⊆ resources locks := by
    intro sid hsid
    obtain ⟨e, he, rfl⟩ := List.mem_map.mp hsid
    obtain ⟨kind, hin⟩ := h.count_pos he
    exact List.mem_dedup.mpr (List.mem_map.mpr ⟨_, hin, rfl⟩)
  have hle := (h.nodup.subperm hsub).length_le
  rwa [List.length_map] at hle

/-- A further lock is counted for its own kind and mutex. -/
theorem count_cons_lock (locks : List (SrcKind × Int)) (kind k : SrcKind) (sid t : Int) :
    (((kind, sid) :: locks).count (k, t) : Int) =
      locks.count (k, t) + if k = kind ∧ t = sid then 1 else 0 := by
  rw [List.count_cons]
  by_cases h : k = kind ∧ t = sid
  · obtain ⟨rfl, rfl⟩ := h
    simp
  · have hne : ¬ ((kind, sid) == (k, t)) = true := by
      intro heq
      obtain ⟨rfl, rfl⟩ := Prod.mk.inj (eq_of_beq heq)
      exact h ⟨rfl, rfl⟩
    rw [if_neg h, if_neg hne]
    simp

/-- A mutex is a resource when some lock on it is held. -/
theorem mem_resources {locks : List (SrcKind × Int)} {sid : Int} :
    sid ∈ resources locks ↔ ∃ kind, (kind, sid) ∈ locks := by
  rw [resources, List.mem_dedup, List.mem_map]
  constructor
  · intro h
    obtain ⟨l, hl, rfl⟩ := h
    exact ⟨l.1, hl⟩
  · intro h
    obtain ⟨kind, hin⟩ := h
    exact ⟨_, hin, rfl⟩

/-- Locks on the same resources or on fewer ones. -/
theorem resources_length_le {locks locks' : List (SrcKind × Int)}
    (h : ∀ l ∈ locks', ∃ kind, (kind, l.2) ∈ locks) :
    (resources locks').length ≤ (resources locks).length := by
  have hsub : resources locks' ⊆ resources locks := by
    intro sid hsid
    obtain ⟨kind, hin⟩ := mem_resources.mp hsid
    exact mem_resources.mpr (h _ hin)
  exact ((List.nodup_dedup _).subperm hsub).length_le

/-- One resource fewer. -/
theorem resources_length_lt {locks locks' : List (SrcKind × Int)} {sid : Int}
    (h : ∀ l ∈ locks', ∃ kind, (kind, l.2) ∈ locks) (hold : sid ∈ resources locks)
    (hnew : sid ∉ resources locks') : (resources locks').length < (resources locks).length := by
  have hsub : sid :: resources locks' ⊆ resources locks := by
    refine List.cons_subset.mpr ⟨hold, fun t ht => ?_⟩
    obtain ⟨kind, hin⟩ := mem_resources.mp ht
    exact mem_resources.mpr (h _ hin)
  have hnodup : (sid :: resources locks').Nodup := List.Nodup.cons hnew (List.nodup_dedup _)
  exact (hnodup.subperm hsub).length_le

/-- A further lock adds at most one resource. -/
theorem resources_cons_length_le (locks : List (SrcKind × Int)) (l : SrcKind × Int) :
    (resources (l :: locks)).length ≤ (resources locks).length + 1 := by
  unfold resources
  rw [List.map_cons]
  by_cases hin : l.2 ∈ locks.map Prod.snd
  · rw [List.dedup_cons_of_mem hin]
    omega
  · rw [List.dedup_cons_of_notMem hin, List.length_cons]

/-- One more lock of a resource that has an entry. -/
theorem Registered.bumped {info : ProcessMSrcInfo} {locks : List (SrcKind × Int)}
    (h : Registered info locks) {sid : Int} (hex : ∃ e ∈ info, e.m_sid = sid) (kind : SrcKind) :
    Registered (info.map fun e => if e.m_sid = sid then e.add kind 1 else e)
      ((kind, sid) :: locks) := by
  have hsid : ∀ e : MsrcInfo, (if e.m_sid = sid then e.add kind 1 else e).m_sid = e.m_sid := by
    intro e
    by_cases he : e.m_sid = sid <;> simp [he]
  constructor
  case nodup =>
    have hids : (info.map fun e => if e.m_sid = sid then e.add kind 1 else e).map (·.m_sid) =
        info.map (·.m_sid) := by
      rw [List.map_map]
      exact List.map_congr_left fun e _ => hsid e
    rw [hids]
    exact h.nodup
  case counts =>
    intro f hf k
    obtain ⟨e, he, rfl⟩ := List.mem_map.mp hf
    rw [hsid e, count_cons_lock, ← h.counts e he]
    by_cases heq : e.m_sid = sid
    · rw [if_pos heq, count_add]
      simp [heq]
    · rw [if_neg heq, if_neg fun hc => heq hc.2]
      omega
  case used =>
    intro f hf
    obtain ⟨e, he, rfl⟩ := List.mem_map.mp hf
    have hpos := h.used e he
    by_cases heq : e.m_sid = sid
    · rw [if_pos heq, total_add]
      omega
    · rwa [if_neg heq]
  case held =>
    intro l hl
    have hold : ∃ e ∈ info, e.m_sid = l.2 := by
      rcases List.mem_cons.mp hl with rfl | hl
      · exact hex
      · exact h.held l hl
    obtain ⟨e, he, heq⟩ := hold
    exact ⟨_, List.mem_map_of_mem he, (hsid e).trans heq⟩
  case room =>
    refine le_trans (resources_length_le fun l hl => ?_) h.room
    rcases List.mem_cons.mp hl with rfl | hl
    · obtain ⟨e, he, rfl⟩ := hex
      exact h.count_pos he
    · exact ⟨l.1, hl⟩

/-- The first lock of a resource, in a new entry. -/
theorem Registered.entered {info : ProcessMSrcInfo} {locks : List (SrcKind × Int)}
    (h : Registered info locks) {sid : Int} (hnew : ¬ ∃ e ∈ info, e.m_sid = sid)
    (hroom : (resources locks).length < maxPsrcNum) (kind : SrcKind) :
    Registered (info ++ [MsrcInfo.add ⟨sid, 0, 0, 0⟩ kind 1]) ((kind, sid) :: locks) := by
  have hnone : ∀ k, locks.count (k, sid) = 0 := by
    intro k
    exact List.count_eq_zero.mpr fun hin => hnew (h.held _ hin)
  constructor
  case nodup =>
    rw [List.map_append, List.nodup_append]
    refine ⟨h.nodup, by simp, fun a ha b hb hab => ?_⟩
    obtain ⟨e, he, rfl⟩ := List.mem_map.mp ha
    have hb' : b = sid := by simpa using hb
    exact hnew ⟨e, he, hab.trans hb'⟩
  case counts =>
    intro f hf k
    rw [count_cons_lock]
    rcases List.mem_append.mp hf with he | he
    · have hne : f.m_sid ≠ sid := fun heq => hnew ⟨f, he, heq⟩
      rw [if_neg fun hc => hne hc.2, h.counts f he]
      omega
    · rw [List.mem_singleton.mp he, add_m_sid, count_add, hnone]
      cases k <;> simp [MsrcInfo.count]
  case used =>
    intro f hf
    rcases List.mem_append.mp hf with he | he
    · exact h.used f he
    · rw [List.mem_singleton.mp he, total_add]
      simp [MsrcInfo.total]
  case held =>
    intro l hl
    rcases List.mem_cons.mp hl with rfl | hl
    · exact ⟨_, List.mem_append_right _ List.mem_cons_self, by simp⟩
    · obtain ⟨e, he, heq⟩ := h.held l hl
      exact ⟨e, List.mem_append_left _ he, heq⟩
  case room =>
    exact le_trans (resources_cons_length_le locks _) hroom

/-- **`lockSrc`**: where the resource is in use, or fewer than ten are, the lock is counted. -/
theorem Registered.lock {info : ProcessMSrcInfo} {locks : List (SrcKind × Int)}
    (h : Registered info locks) {sid : Int} (kind : SrcKind)
    (hroom : sid ∈ resources locks ∨ (resources locks).length < maxPsrcNum) :
    Registered (lockSrc kind info sid).2 ((kind, sid) :: locks) := by
  unfold lockSrc
  rw [bump_eq kind sid 1 h.nodup]
  by_cases hex : ∃ e ∈ info, e.m_sid = sid
  · rw [if_pos hex]
    exact h.bumped hex kind
  · have hfree : (resources locks).length < maxPsrcNum := by
      refine hroom.resolve_left fun hin => ?_
      obtain ⟨k, hk⟩ := mem_resources.mp hin
      exact hex (h.held _ hk)
    rw [if_neg hex]
    dsimp only
    rw [if_neg (Nat.not_le.mpr (lt_of_le_of_lt h.length_le hfree))]
    exact h.entered hex hfree kind

/-- What is left of an entry. -/
def leftOver (kind : SrcKind) (sid : Int) (e : MsrcInfo) : Option MsrcInfo :=
  if e.m_sid = sid then if (e.add kind (-1)).total > 0 then some (e.add kind (-1)) else none
  else some e

/-- What is left of an entry is the entry with one lock of the kind less. -/
theorem leftOver_some {kind : SrcKind} {sid : Int} {e f : MsrcInfo}
    (h : leftOver kind sid e = some f) :
    f.m_sid = e.m_sid ∧ (0 < e.total → 0 < f.total) ∧
      ∀ k, f.count k = e.count k - if k = kind ∧ e.m_sid = sid then 1 else 0 := by
  unfold leftOver at h
  by_cases he : e.m_sid = sid
  · rw [if_pos he] at h
    by_cases hleft : (e.add kind (-1)).total > 0
    · rw [if_pos hleft, Option.some.injEq] at h
      subst h
      refine ⟨add_m_sid e kind (-1), fun _ => hleft, fun k => ?_⟩
      rw [count_add]
      simp only [he, and_true]
      split_ifs <;> omega
    · rw [if_neg hleft] at h
      cases h
  · rw [if_neg he, Option.some.injEq] at h
    subst h
    refine ⟨rfl, fun hpos => hpos, fun k => ?_⟩
    rw [if_neg fun hc => he hc.2]
    omega

/-- `takeOff` on a registry without repeated resources. -/
theorem takeOff_filterMap {info : ProcessMSrcInfo} (kind : SrcKind) {sid : Int}
    (hnodup : (info.map (·.m_sid)).Nodup) (hex : ∃ e ∈ info, e.m_sid = sid) :
    takeOff kind sid info = some (info.filterMap (leftOver kind sid)) := by
  induction info with
  | nil =>
      obtain ⟨e, he, -⟩ := hex
      exact absurd he List.not_mem_nil
  | cons e info ih =>
      rw [List.map_cons, List.nodup_cons] at hnodup
      by_cases he : e.m_sid = sid
      · have hrest : info.filterMap (leftOver kind sid) = info := by
          have hsame : ∀ f ∈ info, leftOver kind sid f = some f := by
            intro f hf
            have hne : f.m_sid ≠ sid := fun h =>
              hnodup.1 (List.mem_map.mpr ⟨f, hf, h.trans he.symm⟩)
            rw [leftOver, if_neg hne]
          rw [List.filterMap_congr hsame, List.filterMap_some]
        rw [takeOff, if_pos he, List.filterMap_cons, hrest, leftOver, if_pos he]
        by_cases hleft : (e.add kind (-1)).total > 0
        · rw [if_pos hleft, if_pos hleft]
        · rw [if_neg hleft, if_neg hleft]
      · have hex' : ∃ f ∈ info, f.m_sid = sid := by
          obtain ⟨f, hf, hsid⟩ := hex
          rcases List.mem_cons.mp hf with rfl | hf
          · exact absurd hsid he
          · exact ⟨f, hf, hsid⟩
        rw [takeOff, if_neg he, ih hnodup.2 hex', List.filterMap_cons, leftOver, if_neg he]
        rfl

/-- A lock that is given back is counted no more. -/
theorem count_erase_lock {locks : List (SrcKind × Int)} {kind : SrcKind} {sid : Int}
    (hin : (kind, sid) ∈ locks) (k : SrcKind) (t : Int) :
    ((locks.erase (kind, sid)).count (k, t) : Int) =
      locks.count (k, t) - if k = kind ∧ t = sid then 1 else 0 := by
  have hcons := count_cons_lock (locks.erase (kind, sid)) kind k sid t
  rw [← (List.perm_cons_erase hin).count_eq (k, t)] at hcons
  omega

/-- **`unlockSrc`**: a lock that the process has is taken off. -/
theorem Registered.unlock {info : ProcessMSrcInfo} {locks : List (SrcKind × Int)}
    (h : Registered info locks) {sid : Int} {kind : SrcKind} (hin : (kind, sid) ∈ locks) :
    Registered (unlockSrc kind info sid).2 (locks.erase (kind, sid)) := by
  unfold unlockSrc
  rw [takeOff_filterMap kind h.nodup (h.held _ hin)]
  dsimp only
  constructor
  case nodup =>
    have hpairs : info.Pairwise fun e f => e.m_sid ≠ f.m_sid := List.pairwise_map.mp h.nodup
    refine List.pairwise_map.mpr (hpairs.filterMap _ ?_)
    intro e f hne e' he' f' hf'
    rw [(leftOver_some he').1, (leftOver_some hf').1]
    exact hne
  case counts =>
    intro f hf k
    obtain ⟨e, he, hleft⟩ := List.mem_filterMap.mp hf
    obtain ⟨hsid, -, hcount⟩ := leftOver_some hleft
    rw [hcount, hsid, count_erase_lock hin, h.counts e he]
  case used =>
    intro f hf
    obtain ⟨e, he, hleft⟩ := List.mem_filterMap.mp hf
    exact (leftOver_some hleft).2.1 (h.used e he)
  case held =>
    intro l hl
    obtain ⟨e, he, heq⟩ := h.held l (List.mem_of_mem_erase hl)
    suffices hstays : ∃ f, leftOver kind sid e = some f by
      obtain ⟨f, hf⟩ := hstays
      exact ⟨f, List.mem_filterMap.mpr ⟨e, he, hf⟩, (leftOver_some hf).1.trans heq⟩
    by_cases hsid : e.m_sid = sid
    · -- the resource still has the lock `l`, so that something is left of its entry
      have hcount : ∀ k, (e.add kind (-1)).count k = (locks.erase (kind, sid)).count (k, sid) := by
        intro k
        rw [count_add, count_erase_lock hin, h.counts e he, hsid]
        simp only [and_true]
        split_ifs <;> omega
      have hl' : (l.1, sid) ∈ locks.erase (kind, sid) := by
        have hlock : l = (l.1, sid) := Prod.ext rfl (heq.symm.trans hsid)
        rwa [← hlock]
      have hpos : 0 < (locks.erase (kind, sid)).count (l.1, sid) := List.count_pos_iff.mpr hl'
      have htotal : (e.add kind (-1)).total > 0 := by
        rw [total_eq, hcount, hcount, hcount]
        cases hk : l.1 <;> rw [hk] at hpos <;> omega
      exact ⟨_, by rw [leftOver, if_pos hsid, if_pos htotal]⟩
    · exact ⟨e, by rw [leftOver, if_neg hsid]⟩
  case room =>
    exact le_trans (resources_length_le fun l hl => ⟨l.1, List.mem_of_mem_erase hl⟩) h.room

/-- A waiting writer that gets the lock: its wait is taken off first, which leaves room for
the lock. -/
theorem Registered.write {info : ProcessMSrcInfo} {locks : List (SrcKind × Int)}
    (h : Registered info locks) {sid : Int} (hin : (SrcKind.wwait, sid) ∈ locks) :
    Registered (lockWdSrc (unlockWWaitSrc info sid).2 sid).2
      ((.wd, sid) :: locks.erase (.wwait, sid)) := by
  refine (h.unlock hin).lock .wd ?_
  by_cases hstays : sid ∈ resources (locks.erase (.wwait, sid))
  · exact Or.inl hstays
  · have hfewer : (resources (locks.erase (.wwait, sid))).length < (resources locks).length :=
      resources_length_lt (fun l hl => ⟨l.1, List.mem_of_mem_erase hl⟩)
        (mem_resources.mpr ⟨.wwait, hin⟩) hstays
    exact Or.inr (lt_of_lt_of_le hfewer h.room)

/-! ## Runs -/

/-- The registry is right, and the call that waits is among what the process has. -/
structure State.Exact (s : State) : Prop where
  registered : Registered s.m_pMSrcInfo s.locks
  waiting : ∀ l, s.waits = some l → l ∈ s.locks

/-- A further resource is only asked for while fewer than ten are in use. -/
def State.HasRoom (s : State) (sid : Int) : Prop :=
  sid ∈ resources s.locks ∨ (resources s.locks).length < maxPsrcNum

/-- What a step has to meet: room for a lock that it registers. -/
def Room (s : State) : Act → Prop
  | .getReadLock sid | .getWriteLock sid => s.HasRoom sid
  | .getReadLockNoWait busy sid => ¬ (busy ∨ readBlocked (s.node sid)) → s.HasRoom sid
  | .getWriteLockNoWait busy sid => ¬ (busy ∨ writeBlocked (s.node sid)) → s.HasRoom sid
  | .wakeUp | .releaseReadLock _ | .releaseWriteLock _ | .others _ _ => True

/-- At first nothing is held, nothing is registered and nobody waits. -/
theorem exact_init : init.Exact where
  registered := registered_nil
  waiting := by simp [init]

/-- A step that is taken was taken by a process that does not wait. -/
theorem perform_some {s t u : State} {sid : Int} {matched : Bool}
    (h : perform s sid matched t = some u) : s.waits = none ∧ matched = true ∧ t = u := by
  unfold perform at h
  split at h
  case isTrue hguard => exact ⟨hguard.1, hguard.2.2.2, Option.some.inj h⟩
  case isFalse => cases h

namespace State.Exact

variable {s : State}

/-- Taking a lock for which there is room keeps the record exact. -/
theorem take (h : s.Exact) {kind : SrcKind} {sid : Int} (hroom : s.HasRoom sid) :
    (s.take kind sid).Exact where
  registered := h.registered.lock kind hroom
  waiting := fun l hl => List.mem_cons_of_mem _ (h.waiting l hl)

/-- Giving back a lock that is held keeps the record exact. -/
theorem give (h : s.Exact) {kind : SrcKind} {sid : Int} (hin : (kind, sid) ∈ s.locks)
    (hwaits : s.waits = none) : (s.give kind sid).Exact where
  registered := h.registered.unlock hin
  waiting := fun l hl => by
    have hsome : s.waits = some l := hl
    rw [hwaits] at hsome
    cases hsome

/-- The counters of the resources do not matter to the registry. -/
theorem setNode (h : s.Exact) (sid : Int) (n : MutexNode) : (s.setNode sid n).Exact :=
  ⟨h.registered, h.waiting⟩

/-- A reader that tests the writer keeps the record exact. -/
theorem testRead (h : s.Exact) {sid : Int} (hin : (SrcKind.rd, sid) ∈ s.locks) :
    (s.testRead sid).Exact := by
  unfold State.testRead
  dsimp only
  split
  · refine ⟨h.registered, fun l hl => ?_⟩
    cases hl
    exact hin
  · exact ⟨h.registered, fun l hl => by cases hl⟩

/-- A writer that tests the others keeps the record exact. -/
theorem testWrite (h : s.Exact) {sid : Int} (hin : (SrcKind.wwait, sid) ∈ s.locks) :
    (s.testWrite sid).Exact := by
  unfold State.testWrite
  dsimp only
  split
  · refine ⟨h.registered, fun l hl => ?_⟩
    cases hl
    exact hin
  · exact ⟨h.registered.write hin, fun l hl => by cases hl⟩

/-- **What a step preserves**, where it has room. -/
theorem step {t : State} {a : Act} (h : s.Exact) (hroom : Room s a) (hstep : step s a = some t) :
    t.Exact := by
  cases a with
  | getReadLock sid =>
      obtain ⟨-, -, rfl⟩ := perform_some hstep
      exact (h.take hroom).testRead List.mem_cons_self
  | getWriteLock sid =>
      obtain ⟨-, -, rfl⟩ := perform_some hstep
      exact ((h.setNode sid _).take hroom).testWrite List.mem_cons_self
  | wakeUp =>
      simp only [MutexRegistry.step] at hstep
      split at hstep
      · cases hstep
      · next sid hwaits =>
          cases hstep
          exact h.testRead (h.waiting _ hwaits)
      · cases hstep
      · next sid hwaits =>
          cases hstep
          exact h.testWrite (h.waiting _ hwaits)
  | getReadLockNoWait busy sid =>
      obtain ⟨-, -, rfl⟩ := perform_some hstep
      unfold getReadLockNoWait
      dsimp only
      split
      · exact h
      · next hfree => exact (h.setNode sid _).take (hroom hfree)
  | getWriteLockNoWait busy sid =>
      obtain ⟨-, -, rfl⟩ := perform_some hstep
      unfold getWriteLockNoWait
      dsimp only
      split
      · exact h
      · next hfree => exact (h.setNode sid _).take (hroom hfree)
  | releaseReadLock sid =>
      obtain ⟨hwaits, hin, rfl⟩ := perform_some hstep
      exact (h.setNode sid _).give (of_decide_eq_true hin) hwaits
  | releaseWriteLock sid =>
      obtain ⟨hwaits, hin, rfl⟩ := perform_some hstep
      exact (h.setNode sid _).give (of_decide_eq_true hin) hwaits
  | others sid n =>
      cases hstep
      exact h.setNode sid n

end State.Exact

/-- **The registry is exact.**  In every state of every run in which further resources are
only asked for while fewer than ten are in use, the registry records of each kind of lock on
each resource how many the process holds or waits for. -/
theorem recorded_eq_count {acts : List Act} {s : State} (hroom : Runs.Meets step Room init acts)
    (hrun : Runs.run step init acts = some s) (sid : Int) (kind : SrcKind) :
    recorded s.m_pMSrcInfo sid kind = s.locks.count (kind, sid) := by
  have hexact : s.Exact :=
    Runs.run_invariant_of_meets (fun _ _ _ hs hok h => hs.step hok h) exact_init hroom hrun
  exact hexact.registered.recorded_eq sid kind

/-- Two reads of one resource, and a wait for another one that somebody else reads. -/
def readsAndWaits : List Act :=
  [.getReadLock 3, .getReadLock 3, .others 5 ⟨1, 0, 0⟩, .getWriteLock 5]

/-- Reads, then a write that waits: the wait is recorded once. -/
theorem recorded_eq_count_readsAndWaits :
    ∃ s, Runs.run step init readsAndWaits = some s ∧ s.waits = some (.wwait, 5) ∧
      recorded s.m_pMSrcInfo 5 .wwait = s.locks.count (.wwait, 5) := by
  have hroom : Runs.Meets step Room init readsAndWaits := by
    refine Runs.meets_cons rfl (Or.inr (by decide)) ?_
    refine Runs.meets_cons rfl (Or.inr (by decide)) ?_
    refine Runs.meets_cons rfl trivial ?_
    exact Runs.meets_cons rfl (Or.inr (by decide)) trivial
  exact ⟨_, rfl, rfl, recorded_eq_count hroom rfl 5 .wwait⟩

/-- One read lock on each of eleven resources. -/
def elevenReads : List Act :=
  (List.range 11).map fun i => .getReadLock (i : Int)

/-- The lock on the eleventh resource is held and not recorded. -/
theorem recorded_ne_count :
    ¬ ∀ (acts : List Act) (s : State), Runs.run step init acts = some s →
      ∀ sid kind, recorded s.m_pMSrcInfo sid kind = s.locks.count (kind, sid) := by
  intro hclaim
  obtain ⟨s, hs⟩ : ∃ s, Runs.run step init elevenReads = some s :=
    Option.isSome_iff_exists.mp (by decide)
  have hfacts : (Runs.run step init elevenReads).map
      (fun s => (recorded s.m_pMSrcInfo 10 .rd, s.locks.count (.rd, 10))) = some (0, 1) := by
    decide
  rw [hs, Option.map_some, Option.some.injEq, Prod.mk.injEq] at hfacts
  have heq := hclaim elevenReads s hs 10 .rd
  rw [hfacts.1, hfacts.2] at heq
  cases heq

end MutexRegistry
