import Boss.IndexRows
import Boss.Runs

/-!
# The row-lock manager

`LockManager` keeps its locks as rows of an ordinary table with two non-unique
hash indexes, one by session and one by resource.  A row says that a session
owns a resource or waits for it.  A request looks at the rows of the resource;
a release gives each resource of the session to the first waiter in the order of
the resource index and then deletes the session's rows.

The table is modelled with the record memory, the allocation of its slots and
the rows of both indexes, which read their keys from that memory.  `Env` holds
what other components answer during a call: the slot that `allocateTableMem`
gives, whether the two indexes find room for a bucket, and what the allocator
leaves in a slot that is freed.

This is the lock table as it is meant: a row is a session, a lock type and a
resource, and is read as it was written.  `LockTable` has the bytes that the
columns of a row really are, and the condition under which they are such rows
(`LockTable.step_view`).
-/

namespace LockManager

open IndexRows

/-- The two values of the column `LOCK_TYPE`, the bytes `'0'` and `'1'`. -/
inductive LockType
  | wait
  | own
  deriving DecidableEq, Repr

/-- What one record of the lock table says. -/
structure LockRow (S R : Type) where
  sessionId : S
  lockType : LockType
  resource : R
  deriving DecidableEq, Repr

/-- The lock table: record memory, allocated slots, its two indexes and
`m_recordNum`. -/
structure State (A S R : Type) where
  record : A → LockRow S R
  used : A → Bool
  sesIndex : Rows A
  resIndex : Rows A
  recordNum : Nat

/-- What a call gets from the memory manager. -/
structure Env (A S R : Type) where
  slot : Option A
  sesSpace : Bool
  resSpace : Bool
  junk : A → LockRow S R

variable {A S R : Type} [DecidableEq A] [DecidableEq S] [DecidableEq R]

/-- The lock table that `create` makes, over any memory. -/
def create (record : A → LockRow S R) : State A S R :=
  ⟨record, fun _ => false, fun _ => [], fun _ => [], 0⟩

namespace State

def sesKey (s : State A S R) (a : A) : S := (s.record a).sessionId
def resKey (s : State A S R) (a : A) : R := (s.record a).resource

def setRecord (s : State A S R) (a : A) (row : LockRow S R) : State A S R :=
  { s with record := Function.update s.record a row }

/-- `freeTableMem` on one slot. -/
def free (s : State A S R) (junk : A → LockRow S R) (a : A) : State A S R :=
  { s with
    record := Function.update s.record a (junk a)
    used := Function.update s.used a false }

end State

section Operations

variable (sesSlot : S → Nat) (resSlot : R → Nat)

/-- The records that `select` copies out through the session index. -/
def selectSes (s : State A S R) (session : S) : List (A × LockRow S R) :=
  (select s.sesKey sesSlot s.sesIndex session).map fun a => (a, s.record a)

/-- The records that `select` copies out through the resource index. -/
def selectRes (s : State A S R) (r : R) : List (A × LockRow S R) :=
  (select s.resKey resSlot s.resIndex r).map fun a => (a, s.record a)

/-- `deleteAllIndex` with the keys of the given record. -/
def deleteAllIndex (s : State A S R) (a : A) (row : LockRow S R) : State A S R :=
  let s := { s with sesIndex := (deleteIdx s.sesKey sesSlot s.sesIndex row.sessionId a).2 }
  { s with resIndex := (deleteIdx s.resKey resSlot s.resIndex row.resource a).2 }

/-- `insertAllIndex`; when the second index fails the first insertion is
undone. -/
def insertAllIndex (s : State A S R) (env : Env A S R) (a : A) (row : LockRow S R) :
    State A S R × Bool :=
  match insert s.sesKey sesSlot false env.sesSpace s.sesIndex row.sessionId a with
  | .error _ => (s, false)
  | .ok ses =>
      let s := { s with sesIndex := ses }
      match insert s.resKey resSlot false env.resSpace s.resIndex row.resource a with
      | .error _ =>
          ({ s with sesIndex := (deleteIdx s.sesKey sesSlot s.sesIndex row.sessionId a).2 }, false)
      | .ok res => ({ s with resIndex := res }, true)

/-- `BaseTable::insert` of one record; `false` when it throws. -/
def insertRec (s : State A S R) (env : Env A S R) (row : LockRow S R) : State A S R × Bool :=
  match env.slot with
  | none => (s, false)
  | some a =>
      let s := { s.setRecord a row with used := Function.update s.used a true }
      match insertAllIndex sesSlot resSlot s env a row with
      | (s, true) => ({ s with recordNum := s.recordNum + 1 }, true)
      | (s, false) => (deleteAllIndex sesSlot resSlot (s.free env.junk a) a row, false)

/-- `BaseTable::deleteRec`: first all index entries, then all slots. -/
def deleteRec (s : State A S R) (env : Env A S R) (rows : List (A × LockRow S R)) :
    State A S R :=
  let s := rows.foldl (fun s p => deleteAllIndex sesSlot resSlot s p.1 p.2) s
  let s := rows.foldl (fun s p => s.free env.junk p.1) s
  { s with recordNum := s.recordNum - rows.length }

/-- `signalFirstWaitSessionByResource`. -/
def signalFirstWaitSessionByResource (s : State A S R) (r : R) : State A S R :=
  match (selectRes resSlot s r).find? fun p => p.2.lockType = .wait with
  | some (a, row) => s.setRecord a { row with lockType := .own }
  | none => s

/-- `releaseLock`; nobody is woken when every row of the table is the session's. -/
def releaseLock (s : State A S R) (env : Env A S R) (session : S) : State A S R :=
  let rows := selectSes sesSlot s session
  let s :=
    if s.recordNum ≠ rows.length then
      rows.foldl (fun s p =>
        if p.2.lockType = .own then signalFirstWaitSessionByResource resSlot s p.2.resource
        else s) s
    else s
  deleteRec sesSlot resSlot s env rows

/-- `findOwnSessionByResource`. -/
def findOwnSessionByResource (s : State A S R) (r : R) : Option S :=
  ((selectRes resSlot s r).find? fun p => p.2.lockType = .own).map (·.2.sessionId)

/-- `findWaitResourceBySession`. -/
def findWaitResourceBySession (s : State A S R) (session : S) : Option R :=
  ((selectSes sesSlot s session).find? fun p => p.2.lockType = .wait).map (·.2.resource)

/-- `detectDeadLock`: the walk from the resource to its owner, to the resource
that this one waits for, and so on; `none` when `n` rounds do not suffice. -/
def detectDeadLock (s : State A S R) (session : S) : Nat → R → Option Bool
  | 0, _ => none
  | n + 1, value =>
      match findOwnSessionByResource resSlot s value with
      | none => some false
      | some newSessionId =>
          if newSessionId = session then some true
          else
            match findWaitResourceBySession sesSlot s newSessionId with
            | none => some false
            | some value => detectDeadLock s session n value

/-- What `judgeAndAddLock` returns. -/
inductive Answer
  /-- `0`: the lock was free and is now owned. -/
  | granted
  /-- `1`: the session already owns the resource. -/
  | owned
  /-- `2`: the session already waits for the resource. -/
  | waiting
  /-- `3`: the session now waits for the resource. -/
  | queued
  /-- `4`: a deadlock; everything the session had is released. -/
  | deadLock
  | thrown
  deriving DecidableEq, Repr

/-- `judgeAndAddLock`.  A new record of a table without primary key has no
resource and is not locked.  `n` bounds the rounds of `detectDeadLock`. -/
def judgeAndAddLock (s : State A S R) (env : Env A S R) (n : Nat) (resource : Option R)
    (session : S) : Option (State A S R × Answer) :=
  match resource with
  | none => some (s, .granted)
  | some r =>
      match selectRes resSlot s r with
      | [] =>
          match insertRec sesSlot resSlot s env ⟨session, .own, r⟩ with
          | (s, true) => some (s, .granted)
          | (s, false) => some (s, .thrown)
      | rows =>
          match rows.find? fun p => p.2.sessionId = session with
          | some (_, row) => some (s, if row.lockType = .wait then .waiting else .owned)
          | none =>
              (detectDeadLock sesSlot resSlot s session n r).map fun
                | true => (releaseLock sesSlot resSlot s env session, .deadLock)
                | false =>
                    match insertRec sesSlot resSlot s env ⟨session, .wait, r⟩ with
                    | (s, true) => (s, .queued)
                    | (s, false) => (s, .thrown)

/-- One call of a session. -/
inductive Call (A S R : Type)
  | judgeAndAddLock (env : Env A S R) (n : Nat) (resource : Option R) (session : S)
  | releaseLock (env : Env A S R) (session : S)

/-- One call as one step; a slot that is in use is never given out again, and a
walk that does not end is no step. -/
def step (s : State A S R) : Call A S R → Option (State A S R)
  | .judgeAndAddLock env n resource session =>
      if ∀ a ∈ env.slot, s.used a = false then
        (judgeAndAddLock sesSlot resSlot s env n resource session).map (·.1)
      else none
  | .releaseLock env session => some (releaseLock sesSlot resSlot s env session)

end Operations

end LockManager
