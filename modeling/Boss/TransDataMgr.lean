import Boss.TableCommit
import Boss.MdbSessionScan
import Boss.Expression
import Mathlib.Data.Multiset.Filter
import Mathlib.Data.Multiset.Bind

/-!
# A transaction before its commit

Between `begin` and `commit` a session does not write to the table.  `TransDataMgr` keeps a
`TransData` for every record that a selection returned, with the bytes of the record at that
time as the old image and what `update` makes of it as the new one, and a `TransData` without
an address for every inserted record.  `commit` hands all of them to the table.

The calls follow `MdbSession`; an exception is `none`.  `Call.apply` and `Call.added` say what
a call means for a table that it is applied to at once.
-/

namespace TransDataMgr

open BaseTable
open MdbSession (passes)

/-! ## Records -/

/-- A column; strings are the types `VAR_TYPE_NUMSTR` and `VAR_TYPE_VSTR`. -/
structure ColumnDef where
  m_name : List UInt8
  m_offSet : Nat
  m_len : Nat
  m_isString : Bool

/-- `memcpy` into a record. -/
def writeBytes (m_value : Record) (m_offSet : Nat) (bytes : List UInt8) : Record :=
  m_value.take m_offSet ++ (bytes ++ m_value.drop (m_offSet + bytes.length))

/-- `RecordConvert::setColumnValue`. -/
def setColumnValue (m_columnList : List ColumnDef) (columnName value : List UInt8)
    (m_value : Record) : Record :=
  match m_columnList.find? fun c => Expression.sameName c.m_name columnName with
  | none => m_value
  | some c =>
      if c.m_isString then
        writeBytes (writeBytes m_value c.m_offSet (List.replicate c.m_len 0)) c.m_offSet
          (Expression.cString value)
      else writeBytes m_value c.m_offSet (value.take c.m_len)

/-- The loop of `RecordConvert::setColumnsValue`. -/
def setColumnsValue (m_columnList : List ColumnDef) (sFieldNames pUpdateValues : List (List UInt8))
    (m_value : Record) : Record :=
  (sFieldNames.zip pUpdateValues).foldl
    (fun m_value x => setColumnValue m_columnList x.1 x.2 m_value) m_value

/-! ## Selection -/

/-- The scan of an index without a key. -/
structure Scanner (tbl : Table) where
  scan : (i : Fin tbl.m_indexNum) → (tbl.index i).Content → List ShmPosition
  scan_spec : ∀ {i keyOf live c}, (tbl.index i).Indexes keyOf live c → ∀ a, a ∈ scan i c ↔ live a

/-- `IndexHash::selectALL`, on the rows of a hash index. -/
def hashScan (m_hashSize : Nat) (c : HashContent) : List ShmPosition :=
  (List.range' 0 m_hashSize).flatMap fun i => IndexRows.flat (c.rows i)

theorem hashScan_spec {m_hashSize perPage : Nat} {m_isUnique : Bool} (hsize : 0 < m_hashSize)
    {keyOf : ShmPosition → Key} {live : ShmPosition → Prop} {c : HashContent}
    (h : (hashIndex m_hashSize perPage m_isUnique).Indexes keyOf live c) (a : ShmPosition) :
    a ∈ hashScan m_hashSize c ↔ live a := by
  rw [h.1.indexed, hashScan, List.mem_flatMap]
  constructor
  · rintro ⟨i, -, ha⟩
    exact ⟨i, ha⟩
  · rintro ⟨i, ha⟩
    refine ⟨i, ?_, ha⟩
    rw [h.1.slot_of_mem ha, List.mem_range'_1]
    exact ⟨Nat.zero_le _, by rw [Nat.zero_add]; exact Nat.mod_lt _ hsize⟩

/-- The index, the key if there is one, and the expression with its parameters. -/
structure Query (tbl : Table) where
  index : Fin tbl.m_indexNum
  key : Option Key
  cExpr : Option (Record → Bool)

variable {tbl : Table} (columns : List ColumnDef) (sc : Scanner tbl) (s : State tbl)

/-- `BaseTable::select`. -/
def Query.found (q : Query tbl) : List ShmPosition :=
  match q.key with
  | some k => s.select q.index k
  | none => sc.scan q.index (s.content q.index)

/-- `matchTransData`, for the address of a record. -/
def matchTransData (pool : List TransData) (a : ShmPosition) : Option TransData :=
  pool.find? fun td => td.m_addr = a

/-- The `TransData` that `BaseTable::select` makes. -/
def selected (a : ShmPosition) : TransData := ⟨a, s.record a, [], .unchanged⟩

/-- One round of the loop of `MdbSession::select` in a transaction. -/
def selectRound (cExpr : Option (Record → Bool)) (acc : List ShmPosition × List TransData)
    (a : ShmPosition) : List ShmPosition × List TransData :=
  match matchTransData acc.2 a with
  | some td =>
      if td.m_operType = .delete then acc
      else if passes cExpr td.m_oldRecordValue then (acc.1 ++ [a], acc.2) else acc
  | none =>
      if passes cExpr (s.record a) then (acc.1 ++ [a], acc.2 ++ [selected s a]) else acc

/-- `MdbSession::select` in a transaction: the addresses of the results and the pool, which
has their `TransData`. -/
def select (q : Query tbl) (pool : List TransData) : List ShmPosition × List TransData :=
  (q.found sc s).foldl (selectRound s q.cExpr) ([], pool)

/-! ## Changes -/

/-- A change to the `TransData` of the results, one after the other. -/
def changeResults (change : TransData → TransData) (results : List ShmPosition)
    (pool : List TransData) : List TransData :=
  results.foldl (fun pool a => pool.map fun td => if td.m_addr = a then change td else td) pool

/-- Values for columns, and the records that they are for. -/
structure UpdateRow where
  applies : Record → Bool
  pUpdateValues : List (List UInt8)

/-- What `update` does to a result: the old image is cloned and its columns are set. -/
def updateResult (sFieldNames : List (List UInt8)) (td : TransData) (row : UpdateRow) : TransData :=
  if row.applies td.m_oldRecordValue then
    { td with
      m_newRecordValue := setColumnsValue columns sFieldNames row.pUpdateValues td.m_oldRecordValue
      m_operType := .update }
  else td

/-- Whether `setColumnsValue` raises an exception for a result: more names than values. -/
def raises (sFieldNames : List (List UInt8)) (rows : List UpdateRow) (pool : List TransData)
    (a : ShmPosition) : Bool :=
  (matchTransData pool a).any fun td => rows.any fun row =>
    row.applies td.m_oldRecordValue && decide (row.pUpdateValues.length < sFieldNames.length)

/-- The calls of a transaction on its table. -/
inductive Call (tbl : Table)
  | select (q : Query tbl)
  | update (q : Query tbl) (sFieldNames pUpdateValues : List (List UInt8))
  /-- `update` with several values; each comes with parameters for the expression. -/
  | updateRows (index : Fin tbl.m_indexNum) (key : Option Key) (sFieldNames : List (List UInt8))
      (cExpr : Option (List (List UInt8) → Record → Bool))
      (rows : List (List (List UInt8) × List (List UInt8)))
  | deleteRec (q : Query tbl)
  /-- The record that `assembleRec` made of the values. -/
  | insert (newRecordValue : Record)

/-- The query of a call that changes records; the rows of `updateRows` have conditions of
their own. -/
def Call.query : Call tbl → Option (Query tbl)
  | .select q => some q
  | .update q _ _ => some q
  | .updateRows index key _ _ _ => some ⟨index, key, none⟩
  | .deleteRec q => some q
  | .insert _ => none

/-- The rows of an update as the loops of `update` go through them: without an expression
`updateRows` does nothing. -/
def Call.rows : Call tbl → List UpdateRow
  | .update _ _ pUpdateValues => [⟨fun _ => true, pUpdateValues⟩]
  | .updateRows _ _ _ (some cExpr) rows => rows.map fun row => ⟨cExpr row.1, row.2⟩
  | _ => []

def Call.sFieldNames : Call tbl → List (List UInt8)
  | .update _ names _ => names
  | .updateRows _ _ names _ _ => names
  | _ => []

/-- What a call does to each of its results. -/
def Call.change (c : Call tbl) (td : TransData) : TransData :=
  match c with
  | .deleteRec _ => { td with m_operType := .delete }
  | _ => c.rows.foldl (updateResult columns c.sFieldNames) td

/-- The `TransData` of `MdbSession::insert`. -/
def inserted (newRecordValue : Record) : TransData := ⟨nullShmPos, [], newRecordValue, .insert⟩

/-- One call; the pool is what it changes. -/
def step (pool : List TransData) (c : Call tbl) : Option (List TransData) :=
  match c with
  | .insert newRecordValue => some (pool ++ [inserted newRecordValue])
  | _ =>
      match c.query with
      | none => none
      | some q =>
          let r := select sc s q pool
          if r.1.any (raises c.sFieldNames c.rows r.2) then none
          else some (changeResults (c.change columns) r.1 r.2)

/-! ## What the calls mean -/

/-- Whether a record is one of those that a query asks for. -/
def Query.meets (q : Query tbl) (r : Record) : Bool :=
  (match q.key with
    | none => true
    | some k => decide (tbl.getIndexKey q.index r = k)) && passes q.cExpr r

/-- The rows of an update as they are meant: no expression is no condition. -/
def Call.meantRows : Call tbl → List UpdateRow
  | .updateRows _ _ _ none rows => rows.map fun row => ⟨fun _ => true, row.2⟩
  | c => c.rows

/-- The rows applied to a record one after the other. -/
def applyRows (sFieldNames : List (List UInt8)) (rows : List UpdateRow) (r : Record) : Record :=
  rows.foldl (fun r row =>
    if row.applies r then setColumnsValue columns sFieldNames row.pUpdateValues r else r) r

/-- What becomes of a record of the table; `none` when it is deleted. -/
def Call.apply (c : Call tbl) (r : Record) : Option Record :=
  match c.query with
  | none => some r
  | some q =>
      if q.meets r then
        match c with
        | .deleteRec _ => none
        | _ => some (applyRows columns c.sFieldNames c.meantRows r)
      else some r

/-- The records that a call adds. -/
def Call.added : Call tbl → Multiset Record
  | .insert newRecordValue => {newRecordValue}
  | _ => 0

/-- A call applied to the contents of a table. -/
def Call.run (m : Multiset Record) (c : Call tbl) : Multiset Record :=
  m.filterMap (c.apply columns) + c.added

/-- The contents of a table: the records at its live addresses. -/
def Contents (s : State tbl) (m : Multiset Record) : Prop :=
  ∃ addrs : List ShmPosition, addrs.Nodup ∧ (∀ a, a ∈ addrs ↔ s.live a = true) ∧
    m = Multiset.ofList (addrs.map s.record)

end TransDataMgr
