import Boss.IndexHash
import Mathlib.Data.List.FinRange

/-!
# Tables with indexes, and the commit of a transaction

A table keeps its records in slots of shared memory and has any number of indexes.
`Table::commit` applies a transaction in three phases, deletions, insertions and
updates, and each phase maintains every index.  When a step raises an exception, the
phase undoes what it did and `commit` undoes the phases before it.

The operations follow `BaseTable` and `Table::commit`.  An exception does not take back
what happened before it, so every operation returns the state that it leaves together
with the exception.  Two things are left to the environment `Env`: which slots the
memory manager hands out, if any, and what the bytes of a slot are once it is not live,
since idle slots are linked through their own bytes.
-/

namespace BaseTable

open IndexRows (InsertError)

/-- The bytes of a record. -/
abbrev Record := List UInt8

abbrev Key := List UInt8

/-- `Index`, what the table needs of one.  An index stores addresses; the key of an
address is read from the record there, through `keyOf`.  The flag of `insert` is the
answer of the memory manager when the index has no idle node left.  `Indexes keyOf live c`
says that `c` indexes exactly the addresses of `live` under their keys; the laws are about
the answers of `select` only, since `IndexBTree` does not keep it under its operations. -/
structure Index where
  Content : Type
  select : (ShmPosition → Key) → Content → Key → List ShmPosition
  insert : (ShmPosition → Key) → Bool → Content → Key → ShmPosition → Except InsertError Content
  deleteIdx : (ShmPosition → Key) → Content → Key → ShmPosition → Content
  Indexes : (ShmPosition → Key) → (ShmPosition → Prop) → Content → Prop
  congr : ∀ {keyOf keyOf' live live' c}, Indexes keyOf live c → (∀ a, live' a ↔ live a) →
    (∀ a, live a → keyOf' a = keyOf a) → Indexes keyOf' live' c
  select_spec : ∀ {keyOf live c}, Indexes keyOf live c →
    ∀ k a, a ∈ select keyOf c k ↔ live a ∧ keyOf a = k

/-- The indexes of a table, in the order of `m_indexNameList`, and for each the columns
that its key is put together from. -/
structure Table where
  m_indexNum : Nat
  index : Fin m_indexNum → Index
  getIndexKey : Fin m_indexNum → Record → Key

structure State (tbl : Table) where
  live : ShmPosition → Bool
  record : ShmPosition → Record
  content : (i : Fin tbl.m_indexNum) → (tbl.index i).Content
  m_recordNum : Int
  /-- How many answers of the environment were used. -/
  tick : Nat

/-- The answers of the memory manager, by the number of the question. -/
structure Env where
  tableMem : Nat → Option (List ShmPosition)
  idxMem : Nat → Bool
  garbage : Nat → ShmPosition → Record

/-- The exceptions that reach `commit`. -/
inductive Error where
  | index (e : InsertError)
  | noTableSpace
  deriving DecidableEq, Repr

inductive OperType where
  | delete
  | insert
  | update
  /-- `'3'`, nothing to do. -/
  | unchanged
  deriving DecidableEq, Repr

structure TransData where
  m_addr : ShmPosition
  m_oldRecordValue : Record
  m_newRecordValue : Record
  m_operType : OperType
  deriving DecidableEq, Repr

/-- One entry of the log that `undoIndexChange` replays backwards. -/
inductive IndexChangeLog (n : Nat) where
  | deleted (i : Fin n) (m_oldValue : Key) (m_addr : ShmPosition)
  | inserted (i : Fin n) (m_newValue : Key) (m_addr : ShmPosition)

variable {tbl : Table}

namespace State

/-- The key that an index reads at an address. -/
def keyAt (s : State tbl) (i : Fin tbl.m_indexNum) (a : ShmPosition) : Key :=
  tbl.getIndexKey i (s.record a)

def setContent (s : State tbl) (i : Fin tbl.m_indexNum) (c : (tbl.index i).Content) : State tbl :=
  { s with content := Function.update s.content i c }

/-- `Index::select` of one index. -/
def select (s : State tbl) (i : Fin tbl.m_indexNum) (k : Key) : List ShmPosition :=
  (tbl.index i).select (s.keyAt i) (s.content i) k

/-- `memcpy` of a record to its slot. -/
def memcpy (s : State tbl) (a : ShmPosition) (r : Record) : State tbl :=
  { s with record := Function.update s.record a r }

end State

variable (env : Env)

/-! ## Memory -/

/-- `allocateTableMem`: new slots, as many as asked for, or none. -/
def allocateTableMem (s : State tbl) (n : Nat) : State tbl × Option (List ShmPosition) :=
  match env.tableMem s.tick with
  | none => ({ s with tick := s.tick + 1 }, none)
  | some addrs =>
    if addrs.length = n ∧ addrs.Nodup ∧ ∀ a ∈ addrs, s.live a = false then
      ({ s with live := fun a => s.live a || decide (a ∈ addrs), tick := s.tick + 1 }, some addrs)
    else ({ s with tick := s.tick + 1 }, none)

/-- `freeTableMem`: the slot is not live any more, and links run through the bytes of
slots that are not live. -/
def freeTableMem (s : State tbl) (a : ShmPosition) : State tbl :=
  let live := Function.update s.live a false
  { s with
    live := live
    record := fun b => if live b then s.record b else env.garbage s.tick b
    tick := s.tick + 1 }

/-! ## One index -/

def insertIdx (s : State tbl) (i : Fin tbl.m_indexNum) (k : Key) (a : ShmPosition) :
    State tbl × Option Error :=
  match (tbl.index i).insert (s.keyAt i) (env.idxMem s.tick) (s.content i) k a with
  | .ok c => ({ s.setContent i c with tick := s.tick + 1 }, none)
  | .error e => ({ s with tick := s.tick + 1 }, some (.index e))

def deleteIdx (s : State tbl) (i : Fin tbl.m_indexNum) (k : Key) (a : ShmPosition) : State tbl :=
  s.setContent i ((tbl.index i).deleteIdx (s.keyAt i) (s.content i) k a)

/-- `undoIndexChange`, latest entry first; an exception ends it. -/
def undoIndexChange :
    List (IndexChangeLog tbl.m_indexNum) → State tbl → State tbl × Option Error
  | [], s => (s, none)
  | .deleted i k a :: rest, s =>
    match insertIdx env s i k a with
    | (s, some e) => (s, some e)
    | (s, none) => undoIndexChange rest s
  | .inserted i k a :: rest, s => undoIndexChange rest (deleteIdx s i k a)

/-- The `catch` blocks of the three functions below: undo the log and pass on the
exception, or the one that undoing it raises. -/
def catchIndexError (logs : List (IndexChangeLog tbl.m_indexNum)) (s : State tbl) (e : Error) :
    State tbl × Option Error :=
  match undoIndexChange env logs s with
  | (s, some e') => (s, some e')
  | (s, none) => (s, some e)

/-! ## All indexes of one record -/

/-- The record that `deleteAllIndex` and `insertAllIndex` take their keys from.  Restoring
exchanges the two. -/
def TransData.value (td : TransData) (useNew : Bool) : Record :=
  if useNew then td.m_newRecordValue else td.m_oldRecordValue

/-- The loop of `deleteAllIndex`. -/
def deleteFrom (value : Record) (a : ShmPosition) (is : List (Fin tbl.m_indexNum))
    (s : State tbl) : State tbl :=
  is.foldl (fun s i => deleteIdx s i (tbl.getIndexKey i value) a) s

/-- `BaseTable::deleteAllIndex`: with type 0 the old value, with type 1 the new one.
Deleting from an index raises no exception. -/
def deleteAllIndex (s : State tbl) (td : TransData) (restore : Bool) : State tbl :=
  deleteFrom (td.value restore) td.m_addr (List.finRange tbl.m_indexNum) s

/-- The loop of `insertAllIndex`. -/
def insertFrom (value : Record) (a : ShmPosition) :
    List (Fin tbl.m_indexNum) → List (IndexChangeLog tbl.m_indexNum) → State tbl →
      State tbl × Option Error
  | [], _, s => (s, none)
  | i :: rest, logs, s =>
    match insertIdx env s i (tbl.getIndexKey i value) a with
    | (s, none) => insertFrom value a rest (.inserted i (tbl.getIndexKey i value) a :: logs) s
    | (s, some e) => catchIndexError env logs s e

/-- `BaseTable::insertAllIndex`: with type 0 the new value, with type 1 the old one. -/
def insertAllIndex (s : State tbl) (td : TransData) (restore : Bool) : State tbl × Option Error :=
  insertFrom env (td.value (!restore)) td.m_addr (List.finRange tbl.m_indexNum) [] s

/-- One round of `updateAllIndex` for a key that changes. -/
def changeIdx (s : State tbl) (i : Fin tbl.m_indexNum) (k k' : Key) (a : ShmPosition) :
    State tbl × Option Error :=
  insertIdx env (deleteIdx s i k a) i k' a

/-- The loop of `updateAllIndex`, from the keys of one record to those of another. -/
def updateFrom (value value' : Record) (a : ShmPosition) :
    List (Fin tbl.m_indexNum) → List (IndexChangeLog tbl.m_indexNum) → State tbl →
      State tbl × Option Error
  | [], _, s => (s, none)
  | i :: rest, logs, s =>
    let k := tbl.getIndexKey i value
    let k' := tbl.getIndexKey i value'
    if k = k' then updateFrom value value' a rest logs s
    else
      match changeIdx env s i k k' a with
      | (s, none) => updateFrom value value' a rest (.inserted i k' a :: .deleted i k a :: logs) s
      | (s, some e) => catchIndexError env (.deleted i k a :: logs) s e

/-- `BaseTable::updateAllIndex`: with type 0 from the old value to the new one, with
type 1 back. -/
def updateAllIndex (s : State tbl) (td : TransData) (restore : Bool) : State tbl × Option Error :=
  updateFrom env (td.value restore) (td.value (!restore)) td.m_addr
    (List.finRange tbl.m_indexNum) [] s

/-! ## Phases -/

/-- `BaseTable::deleteRec`. -/
def deleteRec (s : State tbl) (transDatas : List TransData) : State tbl :=
  let s := transDatas.foldl (fun s td => deleteAllIndex s td false) s
  let s := transDatas.foldl (fun s td => freeTableMem env s td.m_addr) s
  { s with m_recordNum := s.m_recordNum - transDatas.length }

/-- The loop of `BaseTable::insert` over the records; `done` are the earlier ones, latest
first. -/
def insertLoop (addrs : List ShmPosition) :
    List TransData → List TransData → State tbl → State tbl × Option Error
  | _, [], s => (s, none)
  | done, td :: rest, s =>
    match insertAllIndex env s td false with
    | (s, none) => insertLoop addrs (td :: done) rest s
    | (s, some e) =>
      let s := addrs.foldl (freeTableMem env) s
      (done.foldl (fun s td => deleteAllIndex s td true) s, some e)

/-- The records with the slots that they get. -/
def placed (transDatas : List TransData) (addrs : List ShmPosition) : List TransData :=
  transDatas.zipWith (fun td a => { td with m_addr := a }) addrs

/-- `memcpy` of the new values. -/
def copyRecords (s : State tbl) (transDatas : List TransData) : State tbl :=
  transDatas.foldl (fun s td => s.memcpy td.m_addr td.m_newRecordValue) s

/-- `BaseTable::insert`: the state, the records with their slots and the exception. -/
def insert (s : State tbl) (transDatas : List TransData) :
    State tbl × List TransData × Option Error :=
  match allocateTableMem env s transDatas.length with
  | (s, none) => (s, transDatas, some .noTableSpace)
  | (s, some addrs) =>
    let transDatas := placed transDatas addrs
    match insertLoop env addrs [] transDatas (copyRecords s transDatas) with
    | (s, some e) => (s, transDatas, some e)
    | (s, none) =>
      ({ s with m_recordNum := s.m_recordNum + transDatas.length }, transDatas, none)

/-- The `catch` block of `BaseTable::update`: the earlier records back, latest first. -/
def restoreUpdates : List TransData → State tbl → State tbl × Option Error
  | [], s => (s, none)
  | td :: rest, s =>
    match updateAllIndex env s td true with
    | (s, some e) => (s, some e)
    | (s, none) => restoreUpdates rest s

/-- The first loop of `BaseTable::update`. -/
def updateLoop : List TransData → List TransData → State tbl → State tbl × Option Error
  | _, [], s => (s, none)
  | done, td :: rest, s =>
    match updateAllIndex env s td false with
    | (s, none) => updateLoop (td :: done) rest s
    | (s, some e) =>
      match restoreUpdates env done s with
      | (s, some e') => (s, some e')
      | (s, none) => (s, some e)

/-- `BaseTable::update`: first all indexes, then the records. -/
def update (s : State tbl) (transDatas : List TransData) : State tbl × Option Error :=
  match updateLoop env [] transDatas s with
  | (s, some e) => (s, some e)
  | (s, none) => (copyRecords s transDatas, none)

/-! ## `Table::commit` -/

/-- The two values change places, so that the record undoes what it did. -/
def TransData.swap (td : TransData) : TransData :=
  { td with m_oldRecordValue := td.m_newRecordValue, m_newRecordValue := td.m_oldRecordValue }

/-- The records of one operation, in their order. -/
def withType (transDatas : List TransData) (op : OperType) : List TransData :=
  transDatas.filter fun td => td.m_operType = op

/-- The `catch` block of `commit`: reinsert, then delete; updates are the last phase and
are never undone here.  An empty phase is skipped. -/
def undoCommit (s : State tbl) (unDelete unInsert : List TransData) (e : Error) :
    State tbl × Option Error :=
  let r := if unDelete = [] then (s, none) else
    ((insert env s unDelete).1, (insert env s unDelete).2.2)
  match r with
  | (s, some e') => (s, some e')
  | (s, none) =>
    if unInsert = [] then (s, some e) else (deleteRec env s unInsert, some e)

/-- The state when the insertions start. -/
def afterDelete (s : State tbl) (dels : List TransData) : State tbl :=
  if dels = [] then s else deleteRec env s dels

/-- The insertions of `commit`. -/
def insertPhase (s : State tbl) (ins : List TransData) :
    State tbl × List TransData × Option Error :=
  if ins = [] then (s, [], none) else insert env s ins

/-- The updates of `commit`. -/
def updatePhase (s : State tbl) (upds : List TransData) : State tbl × Option Error :=
  if upds = [] then (s, none) else update env s upds

/-- `Table::commit`, once the locks are released and the indexes opened. -/
def commit (s : State tbl) (transDatas : List TransData) : State tbl × Option Error :=
  let dels := withType transDatas .delete
  let ins := withType transDatas .insert
  let upds := withType transDatas .update
  let s := afterDelete env s dels
  let unDelete := dels.map TransData.swap
  match insertPhase env s ins with
  | (s, _, some e) => undoCommit env s unDelete [] e
  | (s, ins, none) =>
    match updatePhase env s upds with
    | (s, some e) => undoCommit env s unDelete (ins.map TransData.swap) e
    | (s, none) => (s, none)

end BaseTable
