import Boss.IndexMemMgr
import Boss.ListManager
import Boss.MemManagerTruncate
import Mathlib.Data.Char
import Mathlib.Data.List.Lex

/-!
# Tables, their indexes and what they own

The control area has a list of table descriptors and one of index descriptors; a table
descriptor keeps the positions and the names of its indexes in two arrays.  A table owns
pages of table spaces.  An index owns pages, too, and a hash index owns a segment of the
index space.  A B-tree index has two tables of its own, one for its nodes and one for the
chains of equal keys.

Here are the functions that drop a table, from `BaseTable::drop` down.  Descriptors are
named by the offset of their node, as the array of a table does.  The locks of the control
area and of the index space are granted: one caller runs at a time.  An exception ends the
drop; what it leaves behind is not described.
-/

namespace TableDescript

open MemManager SortedSlice

/-- `T_INDEXTYPE`. -/
inductive T_INDEXTYPE where
  | HASH_INDEX
  | TREE_INDEX
  | HASH_TREE
  deriving DecidableEq, Repr

/-- `TableDesc`, without its pages. -/
structure TableDesc where
  m_tableName : Name
  m_indexNum : Nat
  m_indexPosList : Nat → Nat
  m_indexNameList : Nat → Name
  m_recordNum : Nat

/-- `IndexDesc`, without its pages. -/
structure IndexDesc where
  m_indexName : Name
  m_indexType : T_INDEXTYPE
  m_tableName : Name
  m_header : ShmPosition

/-- Names are compared without regard to case. -/
def nameKey (name : Name) : List Char := name.map Char.toLower

def TableDesc.key (d : TableDesc) : List Char := nameKey d.m_tableName

def IndexDesc.key (d : IndexDesc) : List Char := nameKey d.m_indexName

/-- A descriptor that pages belong to, by the offset of its node. -/
inductive Descript where
  | table (offSet : Nat)
  | index (offSet : Nat)
  deriving DecidableEq, Repr

/-- What does not change: the table spaces, the index space and the places of the two lists
of descriptors. -/
structure Setup where
  m_tableMemMgr : Config Descript
  m_indexMemMgr : IndexMemMgr.SpaceInfo
  m_tbDescMgr : ListManager.Config TableDesc
  m_idxDescMgr : ListManager.Config IndexDesc

/-- Shared memory, as far as it is written here. -/
structure Mdb where
  m_tbDescMgr : ListManager.State TableDesc
  m_idxDescMgr : ListManager.State IndexDesc
  m_tableMemMgr : State Descript
  m_indexMemMgr : IndexMemMgr.State

/-- The exceptions of a drop, with their texts, and how it can go wrong otherwise. -/
inductive DropError where
  /-- 根据表名取表描述符失败! -/
  | noTable
  /-- 根据索引名取索引描述符失败! -/
  | noIndex
  /-- 取对应的索引标识符失败! -/
  | noIndexPos
  /-- 表删除对应的索引信息失败! -/
  | notInTable
  /-- 索引描述符删除成功,但释放Hash索引空间失败! -/
  | hashNotFreed
  /-- 删除索引描述符失败! -/
  | indexNotDeleted
  /-- 删除表描述符失败! -/
  | tableNotDeleted
  /-- 未知的索引类型! -/
  | unknownType
  /-- 根据偏移量取物理地址失败! -/
  | badAddress
  | page (e : FreeError)
  /-- A loop does not end. -/
  | endless
  | segment (f : IndexMemMgr.Fault)
  deriving DecidableEq, Repr

namespace Mdb

variable (s : Mdb)

def table (p : Nat) : TableDesc := s.m_tbDescMgr.element p

def index (p : Nat) : IndexDesc := s.m_idxDescMgr.element p

/-- A table descriptor is written through its address. -/
def setTable (p : Nat) (d : TableDesc) : Mdb :=
  { s with m_tbDescMgr := s.m_tbDescMgr.setVaue p d }

/-- An index descriptor is written through its address. -/
def setIndex (p : Nat) (d : IndexDesc) : Mdb :=
  { s with m_idxDescMgr := s.m_idxDescMgr.setVaue p d }

end Mdb

/-! ## The arrays of a table -/

/-- The loop of `dropIndex` over the names; it keeps the last match. -/
def TableDesc.findIndex (d : TableDesc) (r_idxName : Name) : Nat :=
  (List.range d.m_indexNum).foldl (fun t_indexOffSet i =>
    if strcasecmp (d.m_indexNameList i) r_idxName then d.m_indexPosList i else t_indexOffSet)
    ListManager.noNode

/-- `TableDesc::deleteIndex`; `none` stands for `false`. -/
def TableDesc.deleteIndex (d : TableDesc) (r_indexPos : Nat) : Option TableDesc :=
  match (List.range d.m_indexNum).find? fun i => d.m_indexPosList i = r_indexPos with
  | none => none
  | some t_pos => some { d with
      m_indexPosList := shiftDown (d.m_indexNum - 1 - t_pos) t_pos d.m_indexPosList
      m_indexNameList := shiftDown (d.m_indexNum - 1 - t_pos) t_pos d.m_indexNameList
      m_indexNum := d.m_indexNum - 1 }

/-! ## Descriptors by name -/

/-- `getTableDescByName`; only the name of the searched descriptor is set. -/
def getTableDescByName (s : Mdb) (r_tableName : Name) : Except DropError Nat :=
  match ListManager.getElement TableDesc.key s.m_tbDescMgr
    ⟨r_tableName, 0, fun _ => 0, fun _ => [], 0⟩ with
  | none => .error .noTable
  | some p => .ok p

/-- `getIndexDescByName`. -/
def getIndexDescByName (s : Mdb) (r_indexName : Name) : Except DropError Nat :=
  match ListManager.getElement IndexDesc.key s.m_idxDescMgr
    ⟨r_indexName, .HASH_INDEX, [], nullShmPos⟩ with
  | none => .error .noIndex
  | some p => .ok p

/-- `deleteTableDesc`; the node may be used again for the same name. -/
def deleteTableDesc (s : Mdb) (p : Nat) : Except DropError Mdb :=
  match ListManager.deleteElement TableDesc.key s.m_tbDescMgr (s.table p) true with
  | (t, true) => .ok { s with m_tbDescMgr := t }
  | (_, false) => .error .tableNotDeleted

/-- `deleteIndexDesc`. -/
def deleteIndexDesc (s : Mdb) (p : Nat) : Except DropError Mdb :=
  match ListManager.deleteElement IndexDesc.key s.m_idxDescMgr (s.index p) true with
  | (t, true) => .ok { s with m_idxDescMgr := t }
  | (_, false) => .error .indexNotDeleted

variable (env : Setup)

/-! ## Truncation -/

/-- The places of all pages. -/
def allPages (cfg : Config Descript) : List ShmPosition :=
  cfg.m_tableSpaceMgrList.flatMap fun sp =>
    (List.range sp.pageNum).map fun k => ⟨sp.m_spaceCode, sp.pageOffSet k⟩

/-- The pages of a descriptor go back to their spaces. -/
def freePages (s : Mdb) (d : Descript) : Except DropError Mdb :=
  match truncatePages env.m_tableMemMgr (allPages env.m_tableMemMgr).length s.m_tableMemMgr d with
  | none => .error .endless
  | some (_, some e) => .error (.page e)
  | some (t, none) => .ok { s with m_tableMemMgr := t }

/-- The index has a hash table. -/
def IndexDesc.hashed (d : IndexDesc) : Bool :=
  d.m_indexType = .HASH_INDEX || d.m_indexType = .HASH_TREE

/-- `truncateIndex`. -/
def truncateIndex (s : Mdb) (r_idxName : Name) : Except DropError Mdb := do
  let p ← getIndexDescByName s r_idxName
  let s ← freePages env s (.index p)
  if (s.index p).hashed then
    match IndexMemMgr.initHashSeg s.m_indexMemMgr (s.index p).m_header with
    | .error f => .error (.segment f)
    | .ok t => .ok { s with m_indexMemMgr := t }
  else .ok (s.setIndex p { s.index p with m_header := nullShmPos })

/-- `truncateTable`. -/
def truncateTable (s : Mdb) (r_tableName : Name) : Except DropError Mdb := do
  let p ← getTableDescByName s r_tableName
  let s ← (List.range (s.table p).m_indexNum).foldlM
    (fun s i => truncateIndex env s ((s.table p).m_indexNameList i)) s
  let s ← freePages env s (.table p)
  return s.setTable p { s.table p with m_recordNum := 0 }

/-! ## Dropping -/

/-- The third step of `dropIndex`: the hash table goes back to the index space. -/
def freeHash (s : Mdb) (p : Nat) : Except DropError Mdb :=
  if (s.index p).hashed then
    match IndexMemMgr.dropHashIdex env.m_indexMemMgr s.m_indexMemMgr true (s.index p).m_header with
    | .error f => .error (.segment f)
    | .ok (_, false) => .error .hashNotFreed
    | .ok (t, true) => .ok ({ s with m_indexMemMgr := t }.setIndex p
        { s.index p with m_header := nullShmPos })
  else .ok s

/-- `dropIndex`; the name of the table may be missing. -/
def dropIndex (s : Mdb) (r_idxName : Name) (r_tableName : Option Name) : Except DropError Mdb := do
  let p ← getIndexDescByName s r_idxName
  let t_tableName := r_tableName.getD (s.index p).m_tableName
  let s ← truncateIndex env s r_idxName
  let t ← getTableDescByName s t_tableName
  let t_indexOffSet := (s.table t).findIndex r_idxName
  if t_indexOffSet = ListManager.noNode then .error .noIndexPos
  else
    match (s.table t).deleteIndex t_indexOffSet with
    | none => .error .notInTable
    | some d => do
      let s ← freeHash env (s.setTable t d) p
      deleteIndexDesc s p

/-- `dropTable`; the names of the indexes are those of a copy of the descriptor. -/
def dropTable (s : Mdb) (r_tableName : Name) : Except DropError Mdb := do
  let p ← getTableDescByName s r_tableName
  let t_tableDesc := s.table p
  let s ← (List.range t_tableDesc.m_indexNum).foldlM
    (fun s i => dropIndex env s (t_tableDesc.m_indexNameList i) (some r_tableName)) s
  let s ← truncateTable env s r_tableName
  deleteTableDesc s p

/-! ## The classes of indexes -/

/-- `NODE_TABLE_PREFIX`. -/
def nodeTablePrefix : Name := "BTREE_NODE_".toList

/-- `CHAIN_ELEM_TABLE_PREFIX`. -/
def chainElemTablePrefix : Name := "BTREE_CHAINELEM_".toList

/-- `getPhAddr` does not throw: the space of the position is attached. -/
def Setup.attached (p : ShmPosition) : Bool :=
  MemManager.attached env.m_tableMemMgr p || p.m_spaceCode == env.m_indexMemMgr.m_spaceCode

/-- `IndexHash::initialization`; the lengths of the key columns are not needed here. -/
def IndexHash.initialization (s : Mdb) (m_tableName m_indexName : Name) : Except DropError Unit := do
  let p ← getIndexDescByName s m_indexName
  if env.attached (s.index p).m_header then do
    let _ ← getTableDescByName s m_tableName
    return ()
  else .error .badAddress

/-- `IndexHash::drop`. -/
def IndexHash.drop (s : Mdb) (m_tableName m_indexName : Name) : Except DropError Mdb :=
  dropIndex env s m_indexName (some m_tableName)

/-- `IndexBTree::initialization`: the descriptors of the two tables. -/
def IndexBTree.initialization (s : Mdb) (m_tableName m_indexName : Name) :
    Except DropError (Nat × Nat) := do
  let p ← getIndexDescByName s m_indexName
  if env.attached (s.index p).m_header then do
    let m_nodeTableDesc ← getTableDescByName s (nodeTablePrefix ++ (s.index p).m_indexName)
    let m_chainElemTableDesc ← getTableDescByName s (chainElemTablePrefix ++ (s.index p).m_indexName)
    let _ ← getTableDescByName s m_tableName
    return (m_nodeTableDesc, m_chainElemTableDesc)
  else .error .badAddress

/-- `IndexBTree::drop`. -/
def IndexBTree.drop (s : Mdb) (m_tableName m_indexName : Name)
    (m_nodeTableDesc m_chainElemTableDesc : Nat) : Except DropError Mdb := do
  let s ← dropTable env s (s.table m_nodeTableDesc).m_tableName
  let s ← dropTable env s (s.table m_chainElemTableDesc).m_tableName
  dropIndex env s m_indexName (some m_tableName)

/-- The instance of an index, by its type, is initialised and dropped. -/
def dropInstance (s : Mdb) (m_tableName m_indexName : Name) : T_INDEXTYPE → Except DropError Mdb
  | .HASH_INDEX => do
    IndexHash.initialization env s m_tableName m_indexName
    IndexHash.drop env s m_tableName m_indexName
  | .TREE_INDEX => do
    let (m_nodeTableDesc, m_chainElemTableDesc) ←
      IndexBTree.initialization env s m_tableName m_indexName
    IndexBTree.drop env s m_tableName m_indexName m_nodeTableDesc m_chainElemTableDesc
  | .HASH_TREE => .error .unknownType

/-- The loop of `BaseTable::drop`.  The number of indexes and their names are read from the
descriptor in every round. -/
def dropLoop (m_tableName : Name) (m_tableDesc : Nat) : Nat → Nat → Mdb → Except DropError Mdb
  | 0, i, s => if i < (s.table m_tableDesc).m_indexNum then .error .endless else .ok s
  | rounds + 1, i, s =>
    if i < (s.table m_tableDesc).m_indexNum then do
      let m_indexName := (s.table m_tableDesc).m_indexNameList i
      let p ← getIndexDescByName s m_indexName
      let s ← dropInstance env s m_tableName m_indexName (s.index p).m_indexType
      dropLoop m_tableName m_tableDesc rounds (i + 1) s
    else .ok s

/-- `BaseTable::drop`. -/
def drop (s : Mdb) (m_tableName : Name) (m_tableDesc : Nat) : Except DropError Mdb := do
  let s ← dropLoop env m_tableName m_tableDesc (s.table m_tableDesc).m_indexNum 0 s
  let s := s.setTable m_tableDesc { s.table m_tableDesc with m_recordNum := 0 }
  dropTable env s m_tableName

end TableDescript
