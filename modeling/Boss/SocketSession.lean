import Boss.Runs
import Mathlib.Logic.Function.Basic

/-!
# The transaction of a server session

A `SocketSession` serves one client over one `MdbSession`.  Whether a transaction is open is
known to the `MdbSession`; the server keeps a flag of its own, `m_isInTransction`, and rolls
back by it when the connection is lost.  The model has every request of `m_fucMap`, the
transaction side of `MdbSession`, and the locks that a session has at the tables: the table's
write lock in a transaction of lock type 0, rows in the lock table in one of lock type 1.

What the database answers is a part of the label of a step: whether a table is found, whether
a call throws, which locks a query ends with, whether the socket still takes bytes.
A null pointer that is followed ends the process; then there is no next state.

The flag is right as long as no request resets it in the middle of a transaction.  Several do:
`begin` when it fails, `getTableDesc`, `getIndexDesc` and the two lists of names when they
succeed, and `getTableRowCount` when it fails.
-/

namespace SocketSession

open Runs

variable {Tbl : Type} [DecidableEq Tbl]

structure State (Tbl : Type) where
  m_isActive : Bool
  m_isInTransction : Bool
  /-- Of the `MdbSession`, as the two after it. -/
  m_isTransaction : Bool
  m_table : Option Tbl
  m_iLockType : Int
  /-- `m_lockType` of the session's `Table` objects. -/
  m_lockType : Tbl → Int
  /-- The session has the write lock of the table. -/
  tableLocked : Tbl → Bool
  /-- The session is in the lock table. -/
  rowLocked : Tbl → Bool

/-- A session that is given to a new client. -/
def init : State Tbl where
  m_isActive := true
  m_isInTransction := false
  m_isTransaction := false
  m_table := none
  m_iLockType := 1
  m_lockType := fun _ => 1
  tableLocked := fun _ => false
  rowLocked := fun _ => false

/-! ## MdbSession

The calls return whether they came back without an exception. -/

/-- How `Table::commit` ends. -/
inductive CommitResult
  | done
  /-- An exception before the rows of the session are released. -/
  | early
  | late
  deriving DecidableEq, Repr

/-- `MdbSession::begin` with `Table::beginTrans`. -/
def sessionBegin (s : State Tbl) (found : Option Tbl) (iLockType : Int) (lockOk : Bool) :
    State Tbl × Bool :=
  if s.m_isTransaction then (s, false)
  else match found with
    | none => (s, false)
    | some t =>
      let s := { s with m_table := some t, m_lockType := Function.update s.m_lockType t iLockType }
      if iLockType = 0 then
        if lockOk then
          ({ s with
              tableLocked := Function.update s.tableLocked t true
              m_iLockType := iLockType, m_isTransaction := true }, true)
        else (s, false)
      else ({ s with m_iLockType := iLockType, m_isTransaction := true }, true)

/-- `Table::commit`: without row locks the write lock is given back in any case. -/
def tableCommit (s : State Tbl) (t : Tbl) (result : CommitResult) : State Tbl × Bool :=
  if s.m_lockType t = 1 then
    match result with
    | .early => (s, false)
    | .late => ({ s with rowLocked := Function.update s.rowLocked t false }, false)
    | .done => ({ s with rowLocked := Function.update s.rowLocked t false }, true)
  else ({ s with tableLocked := Function.update s.tableLocked t false }, result = .done)

/-- `MdbSession::commit`. -/
def sessionCommit (s : State Tbl) (result : CommitResult) : Option (State Tbl × Bool) :=
  s.m_table.map fun t =>
    let (s, ok) := tableCommit s t result
    if ok then ({ s with m_table := none, m_isTransaction := false }, true)
    else if s.m_iLockType = 0 then ({ s with m_table := none }, false)
    else (s, false)

/-- `Table::rollback`. -/
def tableRollback (s : State Tbl) (t : Tbl) : State Tbl :=
  if s.m_lockType t = 1 then { s with rowLocked := Function.update s.rowLocked t false }
  else { s with tableLocked := Function.update s.tableLocked t false }

/-- `MdbSession::rollBack`. -/
def sessionRollBack (s : State Tbl) (rollbackOk : Bool) : State Tbl × Bool :=
  if s.m_isTransaction then
    match s.m_table with
    | none => ({ s with m_isTransaction := false }, true)
    | some t =>
      if rollbackOk then
        ({ tableRollback s t with m_table := none, m_isTransaction := false }, true)
      else (s, false)
  else (s, true)

/-- `MdbSession::select`: in a transaction of lock type 1 it may leave the session with rows
(or, after a minute of waiting, without any). -/
def sessionSelect (s : State Tbl) (found : Option Tbl) (rows ok : Bool) :
    Option (State Tbl × Bool) :=
  if s.m_isTransaction then
    s.m_table.map fun t =>
      (if s.m_lockType t = 1 then { s with rowLocked := Function.update s.rowLocked t rows } else s,
        ok)
  else match found with
    | none => some (s, false)
    | some t => some ({ s with m_table := some t }, ok)

/-- `MdbSession::deleteRec`. -/
def sessionDeleteRec (s : State Tbl) (found : Option Tbl) (rows ok : Bool) :=
  sessionSelect s found rows ok

/-- `MdbSession::update`, which asks `m_table` for its name first. -/
def sessionUpdate (s : State Tbl) (found : Option Tbl) (rows ok : Bool) :=
  s.m_table.bind fun _ => sessionSelect s found rows ok

/-- `MdbSession::insert`. -/
def sessionInsert (s : State Tbl) (ok : Bool) : Option (State Tbl × Bool) :=
  s.m_table.map fun _ => (s, ok)

/-- `MdbSession::getNextRec`, which finds the table again in a scan row by row. -/
def sessionGetNextRec (s : State Tbl) (found : Option Tbl) (ok : Bool) : State Tbl × Bool :=
  (if s.m_isTransaction then s else { s with m_table := found.or s.m_table }, ok)

/-! ## The requests -/

/-- What the surroundings do to a request: whether the bytes of `write2Client` are taken, and
whether `Table::rollback` comes back. -/
structure Env where
  writeOk : Bool
  rollbackOk : Bool
  deriving DecidableEq, Repr

/-- `rollBack()`. -/
def rollBack (s : State Tbl) (env : Env) : State Tbl :=
  let (s, ok) := sessionRollBack s env.rollbackOk
  if ok then { s with m_isInTransction := false } else s

/-- `write2Client`. -/
def write2Client (s : State Tbl) (env : Env) : State Tbl :=
  if env.writeOk then s else { rollBack s env with m_isActive := false }

/-- `SocketSession::begin`. -/
def begin (s : State Tbl) (env : Env) (fieldsOk : Bool) (found : Option Tbl) (iLockType : Int)
    (lockOk : Bool) : State Tbl :=
  if fieldsOk then
    let (s, ok) := sessionBegin { s with m_isInTransction := true } found iLockType lockOk
    if ok then write2Client s env else write2Client { s with m_isInTransction := false } env
  else write2Client { s with m_isInTransction := false } env

/-- `SocketSession::commit`. -/
def commit (s : State Tbl) (env : Env) (result : CommitResult) : Option (State Tbl) :=
  (sessionCommit s result).map fun (s, ok) =>
    if ok then { write2Client s env with m_isInTransction := false } else write2Client s env

/-- `SocketSession::rollBack(cRecvline, iStrLenth)`. -/
def rollBackCmd (s : State Tbl) (env : Env) : State Tbl :=
  let (s, ok) := sessionRollBack s env.rollbackOk
  if ok then { write2Client s env with m_isInTransction := false } else write2Client s env

/-- The requests that describe the database. -/
def describe (s : State Tbl) (env : Env) (ok : Bool) : State Tbl :=
  if ok then { write2Client s env with m_isInTransction := false } else write2Client s env

def getTableDesc (s : State Tbl) (env : Env) (fieldsOk found : Bool) :=
  describe s env (fieldsOk && found)

def getIndexDesc (s : State Tbl) (env : Env) (fieldsOk found : Bool) :=
  describe s env (fieldsOk && found)

def getAllTableName (s : State Tbl) (env : Env) (ok : Bool) := describe s env ok

def getAllIndexName (s : State Tbl) (env : Env) (ok : Bool) := describe s env ok

def getTableRowCount (s : State Tbl) (env : Env) (fieldsOk found : Bool) : State Tbl :=
  if fieldsOk && found then write2Client s env
  else write2Client { s with m_isInTransction := false } env

/-- `select` and `selectw`, which write the records to the socket themselves. -/
def select (s : State Tbl) (env : Env) (fieldsOk : Bool) (found : Option Tbl) (rows ok sendOk : Bool) :
    Option (State Tbl) :=
  if fieldsOk then
    (sessionSelect s found rows ok).map fun (s, ok) =>
      if ok && sendOk then s else write2Client s env
  else some (write2Client s env)

/-- `deleteRec`, `insert` and `update`, which answer in any case. -/
def change (s : State Tbl) (env : Env) (fieldsOk : Bool)
    (call : State Tbl → Option (State Tbl × Bool)) : Option (State Tbl) :=
  if fieldsOk then (call s).map fun (s, _) => write2Client s env else some (write2Client s env)

def deleteRec (s : State Tbl) (env : Env) (fieldsOk : Bool) (found : Option Tbl) (rows ok : Bool) :=
  change s env fieldsOk (sessionDeleteRec · found rows ok)

def insert (s : State Tbl) (env : Env) (fieldsOk ok : Bool) :=
  change s env fieldsOk (sessionInsert · ok)

def update (s : State Tbl) (env : Env) (fieldsOk : Bool) (found : Option Tbl) (rows ok : Bool) :=
  change s env fieldsOk (sessionUpdate · found rows ok)

def quit (s : State Tbl) (env : Env) : State Tbl :=
  write2Client { rollBack s env with m_isActive := false } env

/-- The handler of `run`: the exception of a lost connection. -/
def connectionLost (s : State Tbl) (env : Env) : State Tbl :=
  { (if s.m_isInTransction then rollBackCmd s env else s) with m_isActive := false }

/-- `getRowByRowNextRec` catches nothing itself. -/
def getRowByRowNextRec (s : State Tbl) (env : Env) (found : Option Tbl) (ok sendOk : Bool) :
    State Tbl :=
  let (s, ok) := sessionGetNextRec s found ok
  if ok && sendOk then s else connectionLost s env

inductive Request (Tbl : Type)
  | select (fieldsOk : Bool) (found : Option Tbl) (rows ok sendOk : Bool)
  | selectw (fieldsOk : Bool) (found : Option Tbl) (rows ok sendOk : Bool)
  | update (fieldsOk : Bool) (found : Option Tbl) (rows ok : Bool)
  | insert (fieldsOk ok : Bool)
  | deleteRec (fieldsOk : Bool) (found : Option Tbl) (rows ok : Bool)
  | quit
  | begin (fieldsOk : Bool) (found : Option Tbl) (iLockType : Int) (lockOk : Bool)
  | commit (result : CommitResult)
  | rollback
  | getTableDesc (fieldsOk found : Bool)
  | getIndexDesc (fieldsOk found : Bool)
  | getAllTableName (ok : Bool)
  | getAllIndexName (ok : Bool)
  | getTableRowCount (fieldsOk found : Bool)
  | getRowByRowNextRec (found : Option Tbl) (ok sendOk : Bool)
  /-- A command that is not in `m_fucMap`. -/
  | unknown
  /-- `read` throws. -/
  | lost

/-- `dealRequest` in the loop of `run`. -/
def dealRequest (s : State Tbl) (env : Env) : Request Tbl → Option (State Tbl)
  | .select fieldsOk found rows ok sendOk => select s env fieldsOk found rows ok sendOk
  | .selectw fieldsOk found rows ok sendOk => select s env fieldsOk found rows ok sendOk
  | .update fieldsOk found rows ok => update s env fieldsOk found rows ok
  | .insert fieldsOk ok => insert s env fieldsOk ok
  | .deleteRec fieldsOk found rows ok => deleteRec s env fieldsOk found rows ok
  | .quit => some (quit s env)
  | .begin fieldsOk found iLockType lockOk => some (begin s env fieldsOk found iLockType lockOk)
  | .commit result => commit s env result
  | .rollback => some (rollBackCmd s env)
  | .getTableDesc fieldsOk found => some (getTableDesc s env fieldsOk found)
  | .getIndexDesc fieldsOk found => some (getIndexDesc s env fieldsOk found)
  | .getAllTableName ok => some (getAllTableName s env ok)
  | .getAllIndexName ok => some (getAllIndexName s env ok)
  | .getTableRowCount fieldsOk found => some (getTableRowCount s env fieldsOk found)
  | .getRowByRowNextRec found ok sendOk => some (getRowByRowNextRec s env found ok sendOk)
  | .unknown => some (write2Client s env)
  | .lost => some (connectionLost s env)

/-- One round of the loop of `run`, which ends when the session is not active any more. -/
def step (s : State Tbl) (label : Request Tbl × Env) : Option (State Tbl) :=
  if s.m_isActive then dealRequest s label.2 label.1 else none

/-! ## Locks are held in transactions only -/

/-- The session's locks are at the table of its open transaction and of the transaction's
kind. -/
structure Guarded (s : State Tbl) : Prop where
  table : ∀ t, s.tableLocked t = true →
    s.m_isTransaction = true ∧ s.m_table = some t ∧ s.m_lockType t ≠ 1
  row : ∀ t, s.rowLocked t = true →
    s.m_isTransaction = true ∧ s.m_table = some t ∧ s.m_lockType t = 1
  lockType : s.m_isTransaction = true → ∀ t, s.m_table = some t → s.m_lockType t = s.m_iLockType

/-- The fields that only the requests write. -/
def SameServer (s t : State Tbl) : Prop :=
  t.m_isActive = s.m_isActive ∧ t.m_isInTransction = s.m_isInTransction

section Session

variable {s : State Tbl} {found : Option Tbl} {t : Tbl}

section

omit [DecidableEq Tbl]

/-- A session without locks. -/
theorem guarded_unlocked (hnone : ∀ u, s.tableLocked u = false ∧ s.rowLocked u = false)
    (htype : s.m_isTransaction = true → ∀ t, s.m_table = some t → s.m_lockType t = s.m_iLockType) :
    Guarded s :=
  ⟨fun u hu => absurd hu (by simp [hnone u]), fun u hu => absurd hu (by simp [hnone u]), htype⟩

/-- Outside of a transaction there are no locks. -/
theorem Guarded.unlocked (h : Guarded s) (hclosed : s.m_isTransaction = false) :
    ∀ u, s.tableLocked u = false ∧ s.rowLocked u = false := by
  intro u
  constructor
  · refine Bool.eq_false_iff.mpr fun hlocked => ?_
    exact absurd (h.table u hlocked).1 (by simp [hclosed])
  · refine Bool.eq_false_iff.mpr fun hlocked => ?_
    exact absurd (h.row u hlocked).1 (by simp [hclosed])

/-- Outside of a transaction the other fields do not matter. -/
theorem Guarded.of_closed {s' : State Tbl} (h : Guarded s) (hclosed : s.m_isTransaction = false)
    (htable : s'.tableLocked = s.tableLocked) (hrow : s'.rowLocked = s.rowLocked)
    (hclosed' : s'.m_isTransaction = false) : Guarded s' := by
  refine guarded_unlocked ?_ (fun hopen => absurd hopen (by simp [hclosed']))
  intro u
  rw [htable, hrow]
  exact h.unlocked hclosed u

end

/-- **`begin`** opens a transaction exactly when it comes back. -/
theorem sessionBegin_spec (h : Guarded s) (hclosed : s.m_isTransaction = false)
    (found : Option Tbl) (iLockType : Int) (lockOk : Bool) :
    Guarded (sessionBegin s found iLockType lockOk).1 ∧
    (sessionBegin s found iLockType lockOk).1.m_isTransaction =
      (sessionBegin s found iLockType lockOk).2 ∧
    SameServer s (sessionBegin s found iLockType lockOk).1 := by
  have hnone := h.unlocked hclosed
  unfold sessionBegin
  rw [if_neg (by simp [hclosed])]
  cases found with
  | none => exact ⟨h, hclosed, rfl, rfl⟩
  | some t =>
      by_cases htype : iLockType = 0
      · subst htype
        cases lockOk with
        | true =>
            refine ⟨⟨?_, ?_, ?_⟩, rfl, rfl, rfl⟩
            · intro u hu
              by_cases hut : u = t
              · subst hut
                exact ⟨rfl, rfl, by simp⟩
              · simp [hut, hnone u] at hu
            · intro u hu
              simp [hnone u] at hu
            · intro _ u hu
              obtain rfl := Option.some.inj hu
              simp
        | false => exact ⟨h.of_closed hclosed rfl rfl hclosed, hclosed, rfl, rfl⟩
      · simp only [htype, if_false]
        refine ⟨⟨?_, ?_, ?_⟩, trivial, rfl, rfl⟩
        · intro u hu
          simp [hnone u] at hu
        · intro u hu
          simp [hnone u] at hu
        · intro _ u hu
          obtain rfl := Option.some.inj hu
          simp

/-- The table of the transaction gives up its lock of one kind; there is none of the other. -/
theorem Guarded.released (h : Guarded s) (ht : s.m_table = some t) :
    (s.m_lockType t = 1 → ∀ u, s.tableLocked u = false ∧
      Function.update s.rowLocked t false u = false) ∧
    (s.m_lockType t ≠ 1 → ∀ u, Function.update s.tableLocked t false u = false ∧
      s.rowLocked u = false) := by
  constructor
  · intro htype u
    constructor
    · refine Bool.eq_false_iff.mpr fun hlocked => ?_
      obtain ⟨-, hu, hother⟩ := h.table u hlocked
      obtain rfl := Option.some.inj (ht.symm.trans hu)
      exact hother htype
    · by_cases hut : u = t
      · simp [hut]
      · rw [Function.update_of_ne hut]
        refine Bool.eq_false_iff.mpr fun hlocked => ?_
        exact hut (Option.some.inj ((h.row u hlocked).2.1.symm.trans ht))
  · intro htype u
    constructor
    · by_cases hut : u = t
      · simp [hut]
      · rw [Function.update_of_ne hut]
        refine Bool.eq_false_iff.mpr fun hlocked => ?_
        exact hut (Option.some.inj ((h.table u hlocked).2.1.symm.trans ht))
    · refine Bool.eq_false_iff.mpr fun hlocked => ?_
      obtain ⟨-, hu, hsame⟩ := h.row u hlocked
      obtain rfl := Option.some.inj (ht.symm.trans hu)
      exact htype hsame

/-- **`commit`** ends the transaction exactly when it comes back. -/
theorem sessionCommit_spec {s' : State Tbl} {result : CommitResult} {ok : Bool} (h : Guarded s)
    (hcommit : sessionCommit s result = some (s', ok)) :
    Guarded s' ∧ s'.m_isTransaction = (s.m_isTransaction && !ok) ∧ SameServer s s' := by
  unfold sessionCommit at hcommit
  obtain ⟨t, ht, hcommit⟩ := Option.map_eq_some_iff.mp hcommit
  obtain ⟨hrows, htable⟩ := h.released ht
  unfold tableCommit at hcommit
  by_cases htype : s.m_lockType t = 1
  · rw [if_pos htype] at hcommit
    have hnone := hrows htype
    cases result with
    | done =>
        obtain ⟨rfl, rfl⟩ := Prod.mk.inj hcommit
        exact ⟨guarded_unlocked hnone (by simp), by simp, rfl, rfl⟩
    | early =>
        by_cases hzero : s.m_iLockType = 0
        · -- lock type 0 would be the table's, so that the session holds nothing
          have hclosed : s.m_isTransaction = false := by
            refine Bool.eq_false_iff.mpr fun hopen => ?_
            have hsame := h.lockType hopen t ht
            omega
          simp only [hzero, if_true, Bool.false_eq_true, if_false] at hcommit
          obtain ⟨rfl, rfl⟩ := Prod.mk.inj hcommit
          exact ⟨h.of_closed hclosed rfl rfl hclosed, by simp, rfl, rfl⟩
        · simp only [hzero, Bool.false_eq_true, if_false] at hcommit
          obtain ⟨rfl, rfl⟩ := Prod.mk.inj hcommit
          exact ⟨h, by simp, rfl, rfl⟩
    | late =>
        by_cases hzero : s.m_iLockType = 0
        · simp only [hzero, if_true, Bool.false_eq_true, if_false] at hcommit
          obtain ⟨rfl, rfl⟩ := Prod.mk.inj hcommit
          exact ⟨guarded_unlocked hnone (by simp), by simp, rfl, rfl⟩
        · simp only [hzero, Bool.false_eq_true, if_false] at hcommit
          obtain ⟨rfl, rfl⟩ := Prod.mk.inj hcommit
          exact ⟨guarded_unlocked hnone h.lockType, by simp, rfl, rfl⟩
  · rw [if_neg htype] at hcommit
    have hnone := htable htype
    by_cases hdone : result = .done
    · simp only [hdone, decide_true, if_true] at hcommit
      obtain ⟨rfl, rfl⟩ := Prod.mk.inj hcommit
      exact ⟨guarded_unlocked hnone (by simp), by simp, rfl, rfl⟩
    · by_cases hzero : s.m_iLockType = 0
      · simp only [hdone, decide_false, hzero, if_true, Bool.false_eq_true, if_false] at hcommit
        obtain ⟨rfl, rfl⟩ := Prod.mk.inj hcommit
        exact ⟨guarded_unlocked hnone (by simp), by simp, rfl, rfl⟩
      · simp only [hdone, decide_false, hzero, Bool.false_eq_true, if_false] at hcommit
        obtain ⟨rfl, rfl⟩ := Prod.mk.inj hcommit
        exact ⟨guarded_unlocked hnone h.lockType, by simp, rfl, rfl⟩

/-- **`rollBack`** leaves no transaction, unless the table's rollback throws. -/
theorem sessionRollBack_spec (h : Guarded s) (rollbackOk : Bool) :
    Guarded (sessionRollBack s rollbackOk).1 ∧
    (sessionRollBack s rollbackOk).1.m_isTransaction = !(sessionRollBack s rollbackOk).2 ∧
    ((sessionRollBack s rollbackOk).2 = false → (sessionRollBack s rollbackOk).1 = s) ∧
    (rollbackOk = true → (sessionRollBack s rollbackOk).2 = true) ∧
    SameServer s (sessionRollBack s rollbackOk).1 := by
  unfold sessionRollBack
  cases hopen : s.m_isTransaction with
  | false => exact ⟨h, hopen, by simp, by simp, rfl, rfl⟩
  | true =>
      rw [if_pos rfl]
      cases ht : s.m_table with
      | none =>
          refine ⟨guarded_unlocked ?_ (by simp), rfl, by simp, by simp, rfl, rfl⟩
          intro u
          constructor
          · refine Bool.eq_false_iff.mpr fun hlocked => ?_
            exact absurd (h.table u hlocked).2.1 (by simp [ht])
          · refine Bool.eq_false_iff.mpr fun hlocked => ?_
            exact absurd (h.row u hlocked).2.1 (by simp [ht])
      | some t =>
          cases rollbackOk with
          | false => exact ⟨h, hopen, by simp, by simp, rfl, rfl⟩
          | true =>
              obtain ⟨hrows, htable⟩ := h.released ht
              by_cases htype : s.m_lockType t = 1
              · simp only [if_true, tableRollback, htype]
                exact ⟨guarded_unlocked (hrows htype) (by simp), rfl, by simp, by simp, rfl, rfl⟩
              · simp only [if_true, tableRollback, htype, if_false]
                exact ⟨guarded_unlocked (htable htype) (by simp), rfl, by simp, by simp, rfl, rfl⟩

/-- A query leaves the transaction as it is; rows are locked in a transaction of lock type 1. -/
theorem sessionSelect_spec {s' : State Tbl} {rows ok ok' : Bool} (h : Guarded s)
    (hselect : sessionSelect s found rows ok = some (s', ok')) :
    Guarded s' ∧ s'.m_isTransaction = s.m_isTransaction ∧ SameServer s s' := by
  unfold sessionSelect at hselect
  by_cases hopen : s.m_isTransaction = true
  · rw [if_pos hopen] at hselect
    obtain ⟨t, ht, hselect⟩ := Option.map_eq_some_iff.mp hselect
    obtain ⟨rfl, rfl⟩ := Prod.mk.inj hselect
    by_cases htype : s.m_lockType t = 1
    · rw [if_pos htype]
      refine ⟨⟨h.table, ?_, h.lockType⟩, rfl, rfl, rfl⟩
      intro u hu
      by_cases hut : u = t
      · subst hut
        exact ⟨hopen, ht, htype⟩
      · exact h.row u (by simpa [hut] using hu)
    · rw [if_neg htype]
      exact ⟨h, rfl, rfl, rfl⟩
  · rw [if_neg hopen] at hselect
    have hclosed := Bool.eq_false_iff.mpr hopen
    cases found with
    | none =>
        obtain ⟨rfl, rfl⟩ := Prod.mk.inj (Option.some.inj hselect)
        exact ⟨h, rfl, rfl, rfl⟩
    | some t =>
        obtain ⟨rfl, rfl⟩ := Prod.mk.inj (Option.some.inj hselect)
        exact ⟨h.of_closed hclosed rfl rfl hclosed, rfl, rfl, rfl⟩

end Session

/-! ## The requests -/

/-- The flag is right, and a session that has ended has no transaction. -/
structure Settled (s : State Tbl) : Prop where
  guarded : Guarded s
  flag : s.m_isInTransction = s.m_isTransaction
  ended : s.m_isActive = false → s.m_isTransaction = false

section Requests

variable {s t : State Tbl} {env : Env}

omit [DecidableEq Tbl] in
theorem Guarded.congr (h : Guarded s) (htransaction : t.m_isTransaction = s.m_isTransaction)
    (htable : t.m_table = s.m_table) (htype : t.m_lockType = s.m_lockType)
    (hitype : t.m_iLockType = s.m_iLockType) (htables : t.tableLocked = s.tableLocked)
    (hrows : t.rowLocked = s.rowLocked) : Guarded t := by
  refine ⟨?_, ?_, ?_⟩
  · rw [htransaction, htable, htype, htables]
    exact h.table
  · rw [htransaction, htable, htype, hrows]
    exact h.row
  · rw [htransaction, htable, htype, hitype]
    exact h.lockType

/-- `rollBack()` leaves a session without a transaction. -/
theorem rollBack_closes (h : Guarded s) (hok : env.rollbackOk = true) :
    Guarded (rollBack s env) ∧ (rollBack s env).m_isTransaction = false ∧
    (rollBack s env).m_isInTransction = false := by
  obtain ⟨hguarded, hclosed, -, hback, -⟩ := sessionRollBack_spec h env.rollbackOk
  have hdone := hback hok
  rw [hdone] at hclosed
  unfold rollBack
  simp only [hdone, if_true]
  exact ⟨hguarded.congr rfl rfl rfl rfl rfl rfl, hclosed, trivial⟩

/-- **A session that loses its client while it writes** is settled. -/
theorem write2Client_lost (h : Guarded s) (hlost : env.writeOk = false)
    (hok : env.rollbackOk = true) : Settled (write2Client s env) := by
  obtain ⟨hguarded, hclosed, hflag⟩ := rollBack_closes h hok
  unfold write2Client
  rw [if_neg (by simp [hlost])]
  exact ⟨hguarded.congr rfl rfl rfl rfl rfl rfl, hflag.trans hclosed.symm, fun _ => hclosed⟩

/-- An answer to a request that leaves the flag right. -/
theorem settled_write (h : Guarded s) (hactive : s.m_isActive = true)
    (hflag : env.writeOk = true → s.m_isInTransction = s.m_isTransaction)
    (hok : env.writeOk = false → env.rollbackOk = true) : Settled (write2Client s env) := by
  by_cases hwrite : env.writeOk = true
  · unfold write2Client
    rw [if_pos hwrite]
    exact ⟨h, hflag hwrite, fun hended => absurd hactive (by simp [hended])⟩
  · have hlost := Bool.eq_false_iff.mpr hwrite
    exact write2Client_lost h hlost (hok hlost)

/-- An answer after which the flag is reset. -/
theorem settled_write_reset (h : Guarded s) (hactive : s.m_isActive = true)
    (hclosed : env.writeOk = true → s.m_isTransaction = false)
    (hok : env.writeOk = false → env.rollbackOk = true) :
    Settled { write2Client s env with m_isInTransction := false } := by
  by_cases hwrite : env.writeOk = true
  · unfold write2Client
    rw [if_pos hwrite]
    refine ⟨h.congr rfl rfl rfl rfl rfl rfl, (hclosed hwrite).symm, fun hended => ?_⟩
    have hended' : s.m_isActive = false := hended
    exact absurd hactive (by simp [hended'])
  · have hlost := Bool.eq_false_iff.mpr hwrite
    have hsettled := write2Client_lost h hlost (hok hlost)
    have hended : (write2Client s env).m_isActive = false := by
      unfold write2Client
      rw [if_neg hwrite]
    exact ⟨hsettled.guarded.congr rfl rfl rfl rfl rfl rfl, (hsettled.ended hended).symm,
      hsettled.ended⟩

/-- The requests that may reset the flag while a transaction stays open. -/
def resetsFlag : Request Tbl → Bool
  | .begin _ _ _ _ => true
  | .getTableDesc fieldsOk found => fieldsOk && found
  | .getIndexDesc fieldsOk found => fieldsOk && found
  | .getAllTableName ok => ok
  | .getAllIndexName ok => ok
  | .getTableRowCount fieldsOk found => !(fieldsOk && found)
  | _ => false

/-- The session may end with this request. -/
def endsRun (env : Env) : Request Tbl → Bool
  | .quit | .lost => true
  | .getRowByRowNextRec _ ok sendOk => !(ok && sendOk)
  | _ => !env.writeOk

/-- The request does not reset the flag of an open transaction, and a rollback at the end of
the session does not throw. -/
def Keeps (s : State Tbl) (label : Request Tbl × Env) : Prop :=
  (s.m_isTransaction = true → resetsFlag label.1 = true → label.2.writeOk = false) ∧
  (endsRun label.2 label.1 = true → label.2.rollbackOk = true)

/-- What the requests need: the session is settled and active. -/
theorem Settled.begin (h : Settled s) (hactive : s.m_isActive = true) (fieldsOk : Bool)
    (found : Option Tbl) (iLockType : Int) (lockOk : Bool)
    (hreset : s.m_isTransaction = true → env.writeOk = false)
    (hok : env.writeOk = false → env.rollbackOk = true) :
    Settled (begin s env fieldsOk found iLockType lockOk) := by
  have hset : ∀ flag, Guarded { s with m_isInTransction := flag } :=
    fun flag => h.guarded.congr rfl rfl rfl rfl rfl rfl
  -- an open transaction survives only when the answer is written
  have hfailed : Settled (write2Client { s with m_isInTransction := false } env) := by
    refine settled_write (hset false) hactive (fun hwrite => ?_) hok
    by_cases hopen : s.m_isTransaction = true
    · exact absurd (hreset hopen) (by simp [hwrite])
    · exact (Bool.eq_false_iff.mpr hopen).symm
  unfold SocketSession.begin
  cases fieldsOk with
  | false => exact hfailed
  | true =>
      rw [if_pos rfl]
      by_cases hopen : s.m_isTransaction = true
      · have hnested : sessionBegin { s with m_isInTransction := true } found iLockType lockOk =
            ({ s with m_isInTransction := true }, false) := by
          unfold sessionBegin
          exact if_pos hopen
        rw [hnested]
        exact hfailed
      · obtain ⟨hguarded, hresult, hsame⟩ := sessionBegin_spec (hset true)
          (Bool.eq_false_iff.mpr hopen) found iLockType lockOk
        generalize sessionBegin { s with m_isInTransction := true } found iLockType lockOk = after
          at hguarded hresult hsame
        obtain ⟨s', ok⟩ := after
        cases ok with
        | true =>
            exact settled_write hguarded (hsame.1.trans hactive)
              (fun _ => hsame.2.trans hresult.symm) hok
        | false =>
            exact settled_write (hguarded.congr rfl rfl rfl rfl rfl rfl) (hsame.1.trans hactive)
              (fun _ => hresult.symm) hok

theorem Settled.commit (h : Settled s) (hactive : s.m_isActive = true) {result : CommitResult}
    (hok : env.writeOk = false → env.rollbackOk = true)
    (hcommit : commit s env result = some t) : Settled t := by
  unfold SocketSession.commit at hcommit
  obtain ⟨⟨s', ok⟩, hsession, rfl⟩ := Option.map_eq_some_iff.mp hcommit
  obtain ⟨hguarded, hresult, hsame⟩ := sessionCommit_spec h.guarded hsession
  cases ok with
  | true =>
      exact settled_write_reset hguarded (hsame.1.trans hactive) (fun _ => by simpa using hresult) hok
  | false =>
      refine settled_write hguarded (hsame.1.trans hactive) (fun _ => ?_) hok
      rw [hsame.2, h.flag, hresult]
      simp

theorem Settled.rollBackCmd (h : Settled s) (hactive : s.m_isActive = true)
    (hok : env.writeOk = false → env.rollbackOk = true) : Settled (rollBackCmd s env) := by
  obtain ⟨hguarded, hresult, hkeep, -, hsame⟩ := sessionRollBack_spec h.guarded env.rollbackOk
  unfold SocketSession.rollBackCmd
  generalize sessionRollBack s env.rollbackOk = after at hguarded hresult hkeep hsame
  obtain ⟨s', ok⟩ := after
  cases ok with
  | true => exact settled_write_reset hguarded (hsame.1.trans hactive) (fun _ => hresult) hok
  | false =>
      obtain rfl : s' = s := hkeep rfl
      exact settled_write h.guarded hactive (fun _ => h.flag) hok

theorem Settled.describe (h : Settled s) (hactive : s.m_isActive = true) {ok : Bool}
    (hreset : s.m_isTransaction = true → ok = true → env.writeOk = false)
    (hok : env.writeOk = false → env.rollbackOk = true) : Settled (describe s env ok) := by
  unfold SocketSession.describe
  cases ok with
  | true =>
      refine settled_write_reset h.guarded hactive (fun hwrite => ?_) hok
      refine Bool.eq_false_iff.mpr fun hopen => ?_
      exact absurd (hreset hopen rfl) (by simp [hwrite])
  | false => exact settled_write h.guarded hactive (fun _ => h.flag) hok

theorem Settled.getTableRowCount (h : Settled s) (hactive : s.m_isActive = true)
    {fieldsOk found : Bool}
    (hreset : s.m_isTransaction = true → (!(fieldsOk && found)) = true → env.writeOk = false)
    (hok : env.writeOk = false → env.rollbackOk = true) :
    Settled (getTableRowCount s env fieldsOk found) := by
  unfold SocketSession.getTableRowCount
  cases hfound : fieldsOk && found with
  | true => exact settled_write h.guarded hactive (fun _ => h.flag) hok
  | false =>
      refine settled_write (h.guarded.congr rfl rfl rfl rfl rfl rfl) hactive (fun hwrite => ?_) hok
      refine (Bool.eq_false_iff.mpr fun hopen => ?_).symm
      exact absurd (hreset hopen (by simp [hfound])) (by simp [hwrite])

omit [DecidableEq Tbl] in
/-- A call of the session that leaves the transaction as it is. -/
theorem Settled.keep (h : Settled s) (hguarded : Guarded t)
    (hopen : t.m_isTransaction = s.m_isTransaction) (hsame : SameServer s t) : Settled t :=
  ⟨hguarded, by rw [hsame.2, hopen, h.flag], fun hended => by
    rw [hopen]
    exact h.ended (by rw [← hsame.1]; exact hended)⟩

theorem Settled.select (h : Settled s) (hactive : s.m_isActive = true) {fieldsOk : Bool}
    {found : Option Tbl} {rows ok sendOk : Bool} (hok : env.writeOk = false → env.rollbackOk = true)
    (hselect : select s env fieldsOk found rows ok sendOk = some t) : Settled t := by
  unfold SocketSession.select at hselect
  cases fieldsOk with
  | false =>
      obtain rfl := Option.some.inj hselect
      exact settled_write h.guarded hactive (fun _ => h.flag) hok
  | true =>
      obtain ⟨⟨s', ok'⟩, hsession, rfl⟩ := Option.map_eq_some_iff.mp hselect
      obtain ⟨hguarded, hopen, hsame⟩ := sessionSelect_spec h.guarded hsession
      have hkept := h.keep hguarded hopen hsame
      dsimp only
      split
      · exact hkept
      · exact settled_write hguarded (hsame.1.trans hactive) (fun _ => hkept.flag) hok

theorem Settled.change (h : Settled s) (hactive : s.m_isActive = true) {fieldsOk : Bool}
    {call : State Tbl → Option (State Tbl × Bool)} (hok : env.writeOk = false → env.rollbackOk = true)
    (hcall : ∀ s' ok, call s = some (s', ok) →
      Guarded s' ∧ s'.m_isTransaction = s.m_isTransaction ∧ SameServer s s')
    (hchange : change s env fieldsOk call = some t) : Settled t := by
  unfold SocketSession.change at hchange
  cases fieldsOk with
  | false =>
      obtain rfl := Option.some.inj hchange
      exact settled_write h.guarded hactive (fun _ => h.flag) hok
  | true =>
      obtain ⟨⟨s', ok'⟩, hsession, rfl⟩ := Option.map_eq_some_iff.mp hchange
      obtain ⟨hguarded, hopen, hsame⟩ := hcall s' ok' hsession
      have hkept := h.keep hguarded hopen hsame
      exact settled_write hguarded (hsame.1.trans hactive) (fun _ => hkept.flag) hok

/-- The end of a lost connection: the flag tells whether to roll back. -/
theorem Settled.connectionLost (h : Settled s) (hactive : s.m_isActive = true)
    (hok : env.rollbackOk = true) : Settled (connectionLost s env) := by
  unfold SocketSession.connectionLost
  by_cases hflag : s.m_isInTransction = true
  · rw [if_pos hflag]
    have hsettled := h.rollBackCmd hactive (fun _ => hok)
    have hclosed : (SocketSession.rollBackCmd s env).m_isInTransction = false := by
      obtain ⟨-, -, -, hback, -⟩ := sessionRollBack_spec h.guarded env.rollbackOk
      unfold SocketSession.rollBackCmd
      simp only [hback hok, if_true]
    have hend : (SocketSession.rollBackCmd s env).m_isTransaction = false := by
      rw [← hsettled.flag]
      exact hclosed
    exact ⟨hsettled.guarded.congr rfl rfl rfl rfl rfl rfl, hsettled.flag, fun _ => hend⟩
  · rw [if_neg hflag]
    have hclosed : s.m_isTransaction = false := by
      rw [← h.flag]
      exact Bool.eq_false_iff.mpr hflag
    exact ⟨h.guarded.congr rfl rfl rfl rfl rfl rfl, h.flag, fun _ => hclosed⟩

theorem Settled.getRowByRowNextRec (h : Settled s) (hactive : s.m_isActive = true)
    {found : Option Tbl} {ok sendOk : Bool}
    (hok : (!(ok && sendOk)) = true → env.rollbackOk = true) :
    Settled (getRowByRowNextRec s env found ok sendOk) := by
  have hkept : Settled (sessionGetNextRec s found ok).1 := by
    unfold sessionGetNextRec
    by_cases hopen : s.m_isTransaction = true
    · rw [if_pos hopen]
      exact h
    · rw [if_neg hopen]
      have hclosed := Bool.eq_false_iff.mpr hopen
      exact h.keep (h.guarded.of_closed hclosed rfl rfl hclosed) rfl ⟨rfl, rfl⟩
  have hstill : (sessionGetNextRec s found ok).1.m_isActive = true := by
    unfold sessionGetNextRec
    split <;> exact hactive
  unfold SocketSession.getRowByRowNextRec
  dsimp only
  by_cases hsent : (ok && sendOk) = true
  · have hresult : ((sessionGetNextRec s found ok).2 && sendOk) = true := hsent
    rw [if_pos hresult]
    exact hkept
  · have hresult : ¬ ((sessionGetNextRec s found ok).2 && sendOk) = true := hsent
    rw [if_neg hresult]
    exact hkept.connectionLost hstill (hok (by rw [Bool.eq_false_iff.mpr hsent]; rfl))

theorem Settled.quit (h : Settled s) (hok : env.rollbackOk = true) : Settled (quit s env) := by
  obtain ⟨hguarded, hclosed, hflag⟩ := rollBack_closes h.guarded hok
  have hended : Settled { rollBack s env with m_isActive := false } :=
    ⟨hguarded.congr rfl rfl rfl rfl rfl rfl, hflag.trans hclosed.symm, fun _ => hclosed⟩
  unfold SocketSession.quit
  by_cases hwrite : env.writeOk = true
  · unfold write2Client
    rw [if_pos hwrite]
    exact hended
  · exact write2Client_lost hended.guarded (Bool.eq_false_iff.mpr hwrite) hok

end Requests

/-! ## Runs -/

/-- **Every request keeps the session settled**, as long as it does not reset the flag of an
open transaction. -/
theorem Settled.step {s t : State Tbl} {label : Request Tbl × Env} (h : Settled s)
    (hkeeps : Keeps s label) (hstep : step s label = some t) : Settled t := by
  obtain ⟨request, env⟩ := label
  obtain ⟨hreset, hends⟩ := hkeeps
  unfold SocketSession.step at hstep
  obtain ⟨hactive, hstep⟩ := Option.ite_none_right_eq_some.mp hstep
  dsimp only at hreset hends hstep
  cases request with
  | select fieldsOk found rows ok sendOk =>
      exact h.select hactive (fun hlost => hends (by simp [endsRun, hlost])) hstep
  | selectw fieldsOk found rows ok sendOk =>
      exact h.select hactive (fun hlost => hends (by simp [endsRun, hlost])) hstep
  | update fieldsOk found rows ok =>
      unfold dealRequest SocketSession.update at hstep
      refine h.change hactive (fun hlost => hends (by simp [endsRun, hlost])) ?_ hstep
      intro s' ok' hcall
      obtain ⟨-, -, hselect⟩ := Option.bind_eq_some_iff.mp hcall
      exact sessionSelect_spec h.guarded hselect
  | insert fieldsOk ok =>
      unfold dealRequest SocketSession.insert at hstep
      refine h.change hactive (fun hlost => hends (by simp [endsRun, hlost])) ?_ hstep
      intro s' ok' hcall
      obtain ⟨-, -, hsame⟩ := Option.map_eq_some_iff.mp hcall
      obtain ⟨rfl, -⟩ := Prod.mk.inj hsame
      exact ⟨h.guarded, rfl, rfl, rfl⟩
  | deleteRec fieldsOk found rows ok =>
      unfold dealRequest SocketSession.deleteRec at hstep
      refine h.change hactive (fun hlost => hends (by simp [endsRun, hlost])) ?_ hstep
      intro s' ok' hcall
      exact sessionSelect_spec h.guarded hcall
  | quit =>
      obtain rfl := Option.some.inj hstep
      exact h.quit (hends rfl)
  | begin fieldsOk found iLockType lockOk =>
      obtain rfl := Option.some.inj hstep
      exact h.begin hactive fieldsOk found iLockType lockOk (fun hopen => hreset hopen rfl)
        (fun hlost => hends (by simp [endsRun, hlost]))
  | commit result =>
      exact h.commit hactive (fun hlost => hends (by simp [endsRun, hlost])) hstep
  | rollback =>
      obtain rfl := Option.some.inj hstep
      exact h.rollBackCmd hactive (fun hlost => hends (by simp [endsRun, hlost]))
  | getTableDesc fieldsOk found =>
      obtain rfl := Option.some.inj hstep
      exact h.describe hactive hreset (fun hlost => hends (by simp [endsRun, hlost]))
  | getIndexDesc fieldsOk found =>
      obtain rfl := Option.some.inj hstep
      exact h.describe hactive hreset (fun hlost => hends (by simp [endsRun, hlost]))
  | getAllTableName ok =>
      obtain rfl := Option.some.inj hstep
      exact h.describe hactive hreset (fun hlost => hends (by simp [endsRun, hlost]))
  | getAllIndexName ok =>
      obtain rfl := Option.some.inj hstep
      exact h.describe hactive hreset (fun hlost => hends (by simp [endsRun, hlost]))
  | getTableRowCount fieldsOk found =>
      obtain rfl := Option.some.inj hstep
      exact h.getTableRowCount hactive hreset (fun hlost => hends (by simp [endsRun, hlost]))
  | getRowByRowNextRec found ok sendOk =>
      obtain rfl := Option.some.inj hstep
      exact h.getRowByRowNextRec hactive hends
  | unknown =>
      obtain rfl := Option.some.inj hstep
      exact settled_write h.guarded hactive (fun _ => h.flag)
        (fun hlost => hends (by simp [endsRun, hlost]))
  | lost =>
      obtain rfl := Option.some.inj hstep
      exact h.connectionLost hactive (hends rfl)

/-- **No transaction is left behind.**  In a run in which no request resets the flag of an
open transaction the flag is right after every request, and when the session has ended there
is neither a transaction nor a lock. -/
theorem settled_run {s : State Tbl} (labels : List (Request Tbl × Env))
    (hmeets : Meets step Keeps init labels) (hrun : run step init labels = some s) :
    s.m_isInTransction = s.m_isTransaction ∧
    (s.m_isActive = false → s.m_isTransaction = false ∧
      ∀ t, s.tableLocked t = false ∧ s.rowLocked t = false) := by
  have hinit : Settled (init : State Tbl) :=
    ⟨guarded_unlocked (fun _ => ⟨rfl, rfl⟩) (by simp [init]), rfl, fun _ => rfl⟩
  have hsettled : Settled s :=
    run_invariant_of_meets (fun _ _ _ h hkeeps hstep => h.step hkeeps hstep) hinit hmeets hrun
  refine ⟨hsettled.flag, fun hended => ?_⟩
  have hclosed := hsettled.ended hended
  exact ⟨hclosed, hsettled.guarded.unlocked hclosed⟩

/-- The client is lost in a transaction with row locks. -/
theorem settled_run_lost :
    ∃ s, run step (init : State Unit) [(.begin true (some ()) 1 true, ⟨true, true⟩),
        (.select true none true true true, ⟨true, true⟩), (.lost, ⟨false, true⟩)] = some s ∧
      s.m_isActive = false ∧ s.rowLocked () = false := by
  refine ⟨_, rfl, rfl, ?_⟩
  refine ((settled_run [(.begin true (some ()) 1 true, ⟨true, true⟩),
    (.select true none true true true, ⟨true, true⟩), (.lost, ⟨false, true⟩)] ?_ rfl).2 rfl).2 () |>.2
  refine meets_cons rfl ⟨by decide, by decide⟩ (meets_cons rfl ⟨by decide, by decide⟩
    (meets_cons rfl ⟨by decide, by decide⟩ trivial))

/-- A client that asks for a table's columns in the middle of a transaction and is lost then
leaves the transaction open and the table locked. -/
theorem not_settled_run :
    ∃ s, run step (init : State Unit) [(.begin true (some ()) 0 true, ⟨true, true⟩),
        (.getTableDesc true true, ⟨true, true⟩), (.lost, ⟨false, true⟩)] = some s ∧
      s.m_isActive = false ∧ s.m_isInTransction ≠ s.m_isTransaction ∧
      s.tableLocked () = true :=
  ⟨_, rfl, rfl, by decide, rfl⟩

end SocketSession
