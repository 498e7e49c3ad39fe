import Boss.BaseTableInsert
import Boss.IndexRowsUndo

/-!
# An error in the middle of the indexes

`insertAllIndex`, `deleteAllIndex` and `updateAllIndex` go through the indexes of a table and,
when one of them raises an error, undo what was done in the indexes before it, latest first.
Inserting is undone completely and deleting raises nothing.  Updating moves the address of a
record to its new key before the record is written, so a new key that no other record has heads a
row that reads as the old key.  Undoing does not find the address there, and leaves it.

`undone_iff` says exactly which errors leave the answers of all indexes as they were.
-/

namespace BaseTable

open IndexRows (InsertError WellIndexed Answers)

variable {n : Nat} {defs : Fin n → HashIndexDef} {getIndexKey : Fin n → Record → Key}

/-- The operations on all indexes of one record. -/
inductive IndexSetOp where
  | insertAllIndex
  | deleteAllIndex
  | updateAllIndex
  deriving DecidableEq

namespace IndexSetOp

/-- One operation, with its error; deleting raises none. -/
def run (env : Env) (s : State (hashTable n defs getIndexKey)) (td : TransData) (restore : Bool) :
    IndexSetOp → State (hashTable n defs getIndexKey) × Option Error
  | .insertAllIndex => BaseTable.insertAllIndex env s td restore
  | .deleteAllIndex => (BaseTable.deleteAllIndex s td restore, none)
  | .updateAllIndex => BaseTable.updateAllIndex env s td restore

/-- What a caller gives: a record that is written but not indexed, or one that is indexed as it is
written. -/
def Ready (s : State (hashTable n defs getIndexKey)) (live : ShmPosition → Prop) (td : TransData)
    (restore : Bool) : IndexSetOp → Prop
  | .insertAllIndex => ¬ live td.m_addr ∧ s.record td.m_addr = td.value (!restore)
  | .deleteAllIndex => live td.m_addr
  | .updateAllIndex => live td.m_addr ∧ s.record td.m_addr = td.value restore

/-- After an error every index answers as before. -/
def Undone (env : Env) (s : State (hashTable n defs getIndexKey)) (td : TransData) (restore : Bool)
    (op : IndexSetOp) : Prop :=
  ∀ e, (op.run env s td restore).2 = some e →
    ∀ i k a, a ∈ (op.run env s td restore).1.select i k ↔ a ∈ s.select i k

end IndexSetOp

/-! ## When updating is undone -/

/-- The idle buckets of the `i`-th index. -/
def idleOf (s : State (hashTable n defs getIndexKey)) (i : Fin n) : Nat :=
  HashContent.idle (s.content i)

section Conditions

variable (env : Env) (s : State (hashTable n defs getIndexKey)) (live : ShmPosition → Prop)
  (a : ShmPosition) (value' : Record)

/-- No record has the new key. -/
def NewKeyFree (i : Fin n) : Prop := ∀ b, live b → s.keyAt i b ≠ getIndexKey i value'

/-- The old key and the new one share a slot. -/
def OneSlot (i : Fin n) : Prop :=
  hashSlot (defs i).m_hashSize (s.keyAt i a) = hashSlot (defs i).m_hashSize (getIndexKey i value')

instance (i : Fin n) : Decidable (OneSlot s a value' i) := inferInstanceAs (Decidable (_ = _))

/-- No other record has the old key. -/
def Alone (i : Fin n) : Prop := ∀ b, live b → s.keyAt i b = s.keyAt i a → b = a

/-- The index answers the same with the address under its new key. -/
def Still (i : Fin n) : Prop :=
  NewKeyFree s live value' i ∧ OneSlot s a value' i ∧ Alone s live a i

/-- The row that undoing leaves hides the other records of the old key. -/
def Hides (i : Fin n) : Prop :=
  NewKeyFree s live value' i ∧ OneSlot s a value' i ∧ ¬ Alone s live a i

/-- Undoing raises an error itself: the row that it leaves is in the way of a unique index, or
takes the bucket that the memory manager does not replace. -/
def Stops (tick : Nat) (i : Fin n) : Prop :=
  NewKeyFree s live value' i ∧ ((defs i).m_isUnique = true ∧ OneSlot s a value' i ∨
    idleOf s i = 0 ∧ env.idxMem tick = false)

/-- A unique index has the new key of a record whose key in it changes. -/
def Refuses (i : Fin n) : Prop :=
  s.keyAt i a ≠ getIndexKey i value' ∧ (defs i).m_isUnique = true ∧
    ∃ b, live b ∧ s.keyAt i b = getIndexKey i value'

/-- The indexes before the `i`-th one in which the key changes, latest first. -/
def changedBefore (i : Fin n) : List (Fin n) :=
  (((List.finRange n).take i).filter fun j => s.keyAt j a ≠ getIndexKey j value').reverse

/-- An index of the list is still right, or undoing gets as far as it and finds its rows;
the memory manager is asked once for each. -/
def GetsThrough (tick : Nat) (is : List (Fin n)) : Prop :=
  ∀ m j, is[m]? = some j → Still s live a value' j ∨
    ¬ Hides s live a value' j ∧
      ∀ m' ≤ m, ∀ j', is[m']? = some j' → ¬ Stops env s live a value' (tick + m') j'

/-- If the first index that refuses the new key is the `i`-th, undoing the ones before it gets
through. -/
def UndoneBefore (i : Fin n) : Prop :=
  Refuses s live a value' i → (∀ j < i, ¬ Refuses s live a value' j) →
    GetsThrough env s live a value' (s.tick + (changedBefore s a value' i).length + 2)
      (changedBefore s a value' i)

end Conditions

variable {env : Env} {s t : State (hashTable n defs getIndexKey)} {live : ShmPosition → Prop}
  {a : ShmPosition} {i : Fin n} {k : Key} {value' : Record}

/-! ## One index -/

/-- Of two writes to one index the second stays. -/
theorem State.setContent_setContent {tbl : Table} (s : State tbl) (i : Fin tbl.m_indexNum)
    (c c' : (tbl.index i).Content) : (s.setContent i c).setContent i c' = s.setContent i c' := by
  unfold State.setContent
  dsimp only
  rw [Function.update_idem]

/-- The same for hash indexes. -/
theorem setContent_twice (t : State (hashTable n defs getIndexKey)) (i : Fin n)
    (c c' : HashContent) : (t.setContent i c).setContent i c' = t.setContent i c' :=
  t.setContent_setContent i c c'

/-- One answer of the environment is used. -/
def State.ticked {tbl : Table} (s : State tbl) : State tbl := { s with tick := s.tick + 1 }

/-- An insertion into one index. -/
theorem insertIdx_eq (env : Env) (t : State (hashTable n defs getIndexKey)) (i : Fin n) (k : Key)
    (a : ShmPosition) :
    insertIdx env t i k a =
      match IndexRows.insert (t.keyAt i) (hashSlot (defs i).m_hashSize) (defs i).m_isUnique
        (decide (0 < idleOf t i) || env.idxMem t.tick) (rowsOf t i) k a with
      | .ok rows => ((t.setContent i
          (⟨rows, (if 0 < idleOf t i then idleOf t i else (defs i).perPage) - 1⟩ : HashContent)).ticked,
            none)
      | .error e => (t.ticked, some (.index e)) := by
  have hinsert : ((hashTable n defs getIndexKey).index i).insert (t.keyAt i) (env.idxMem t.tick)
      (t.content i) k a =
        match IndexRows.insert (t.keyAt i) (hashSlot (defs i).m_hashSize) (defs i).m_isUnique
          (decide (0 < idleOf t i) || env.idxMem t.tick) (rowsOf t i) k a with
        | .ok rows => .ok (⟨rows,
            (if 0 < idleOf t i then idleOf t i else (defs i).perPage) - 1⟩ : HashContent)
        | .error e => .error e := rfl
  unfold insertIdx
  rw [hinsert]
  cases IndexRows.insert (t.keyAt i) (hashSlot (defs i).m_hashSize) (defs i).m_isUnique
    (decide (0 < idleOf t i) || env.idxMem t.tick) (rowsOf t i) k a with
  | ok rows => rfl
  | error e => rfl

/-- A deletion from one index. -/
theorem deleteIdx_eq (t : State (hashTable n defs getIndexKey)) (i : Fin n) (k : Key)
    (a : ShmPosition) :
    BaseTable.deleteIdx t i k a =
      let r := IndexRows.deleteIdx (t.keyAt i) (hashSlot (defs i).m_hashSize) (rowsOf t i) k a
      t.setContent i (⟨r.2, if r.1 then idleOf t i + 1 else idleOf t i⟩ : HashContent) := rfl

/-- The rows that are written are those that are read. -/
theorem rowsOf_setContent_self (t : State (hashTable n defs getIndexKey)) (i : Fin n)
    (c : HashContent) : rowsOf (t.setContent i c) i = c.rows :=
  congrArg HashContent.rows (t.setContent_self i c)

/-- The idle buckets that are written are those that are read. -/
theorem idleOf_setContent_self (t : State (hashTable n defs getIndexKey)) (i : Fin n)
    (c : HashContent) : idleOf (t.setContent i c) i = c.idle :=
  congrArg HashContent.idle (t.setContent_self i c)

/-- The index without the record. -/
def deletedContent (s : State (hashTable n defs getIndexKey)) (a : ShmPosition) (i : Fin n) :
    HashContent :=
  ⟨(IndexRows.deleteIdx (s.keyAt i) (hashSlot (defs i).m_hashSize) (rowsOf s i) (s.keyAt i a) a).2,
    idleOf s i + 1⟩

/-- The index with the record under its new key. -/
def movedContent (s : State (hashTable n defs getIndexKey)) (a : ShmPosition) (value' : Record)
    (i : Fin n) : HashContent :=
  ⟨IndexRows.moved (s.keyAt i) (hashSlot (defs i).m_hashSize) (rowsOf s i) (getIndexKey i value') a,
    idleOf s i⟩

section Steps

variable (h : Holds s fun _ => live) (ha : live a) (hsame : SameRecords s t)

include h

theorem Holds.rows (i : Fin n) :
    WellIndexed (s.keyAt i) (hashSlot (defs i).m_hashSize) live (rowsOf s i) := (h i).1

theorem Holds.alone (hlive : live a) (hu : (defs i).m_isUnique = true) : Alone s live a i :=
  fun b hb hkey => (h i).2 hu b a hb hlive hkey

include ha hsame

/-- The record is taken out of an index. -/
theorem Holds.deleteIdx_eq (hc : t.content i = s.content i) :
    BaseTable.deleteIdx t i (s.keyAt i a) a = t.setContent i (deletedContent s a i) := by
  have hfound := ((h.rows i).delete_spec.1 ⟨ha, rfl⟩).1
  have hrows : rowsOf t i = rowsOf s i := congrArg HashContent.rows hc
  have hidle : idleOf t i = idleOf s i := congrArg HashContent.idle hc
  rw [BaseTable.deleteIdx_eq, hsame.keyAt, hrows, hidle]
  simp only [hfound, if_true, deletedContent]

/-- It goes to its new key, with the bucket that was given back. -/
theorem Holds.changeIdx_eq_moved (env : Env) (hc : t.content i = s.content i)
    (hkey : s.keyAt i a ≠ getIndexKey i value') (hno : ¬ Refuses s live a value' i) :
    changeIdx env t i (s.keyAt i a) (getIndexKey i value') a =
      ((t.setContent i (movedContent s a value' i)).ticked, none) := by
  have hins := (h.rows i).insert_deleted_moved (defs i).m_isUnique hkey
    fun hc => hno ⟨hkey, hc⟩
  have hkeyAt : (t.setContent i (deletedContent s a i)).keyAt i = s.keyAt i :=
    congrFun hsame.keyAt i
  have hidle : (decide (0 < (deletedContent s a i).idle) ||
      env.idxMem (t.setContent i (deletedContent s a i)).tick) = true := by
    simp [deletedContent]
  rw [changeIdx, h.deleteIdx_eq ha hsame hc, insertIdx_eq, hkeyAt, rowsOf_setContent_self,
    idleOf_setContent_self, hidle]
  simp only [deletedContent, hins, setContent_twice]
  rfl

/-- Or it is refused, and is in the index no more. -/
theorem Holds.changeIdx_eq_refused (env : Env) (hc : t.content i = s.content i)
    (hrefuses : Refuses s live a value' i) :
    changeIdx env t i (s.keyAt i a) (getIndexKey i value') a =
      ((t.setContent i (deletedContent s a i)).ticked, some (.index .uniqueConflict)) := by
  obtain ⟨hkey, hu, hused⟩ := hrefuses
  have hins := fun space => (h.rows i).insert_deleted_conflict space hkey hu hused
  have hkeyAt : (t.setContent i (deletedContent s a i)).keyAt i = s.keyAt i :=
    congrFun hsame.keyAt i
  rw [changeIdx, h.deleteIdx_eq ha hsame hc, insertIdx_eq, hkeyAt, rowsOf_setContent_self]
  simp only [deletedContent, hins]

/-- What is taken out of an index goes back, with the bucket that was given back. -/
theorem Holds.insertIdx_eq_back (env : Env) (hc : t.content i = deletedContent s a i) :
    BaseTable.insertIdx env t i (s.keyAt i a) a =
      ((t.setContent i (⟨IndexRows.put (s.keyAt i) (hashSlot (defs i).m_hashSize)
        (deletedContent s a i).rows (s.keyAt i a) a, idleOf s i⟩ : HashContent)).ticked, none) := by
  have hins := (h.rows i).insert_deleted (a := a) (defs i).m_isUnique
    fun hu => h.alone ha hu
  have hrows : rowsOf t i = (deletedContent s a i).rows := congrArg HashContent.rows hc
  have hidle : idleOf t i = idleOf s i + 1 := congrArg HashContent.idle hc
  have hspace : (decide (0 < idleOf t i) || env.idxMem t.tick) = true := by
    simp [hidle]
  rw [insertIdx_eq, hsame.keyAt, hrows, hspace]
  simp only [deletedContent, hins, hidle, Nat.succ_pos, if_true, Nat.add_sub_cancel]

end Steps

/-! ## Taking back one index -/

/-- The two entries that `updateAllIndex` has logged for an index, undone. -/
def undoOne {tbl : Table} (env : Env) (t : State tbl) (i : Fin tbl.m_indexNum) (k k' : Key)
    (a : ShmPosition) : State tbl × Option Error :=
  BaseTable.insertIdx env (BaseTable.deleteIdx t i k' a) i k a

/-- Undoing the change of one index, and then the changes before it. -/
theorem undoIndexChange_pair {tbl : Table} (env : Env) (t : State tbl) (i : Fin tbl.m_indexNum)
    (k k' : Key) (a : ShmPosition) (logs : List (IndexChangeLog tbl.m_indexNum)) :
    undoIndexChange env (.inserted i k' a :: .deleted i k a :: logs) t =
      match undoOne env t i k k' a with
      | (t, some e) => (t, some e)
      | (t, none) => undoIndexChange env logs t := by
  rewrite [undoIndexChange, undoIndexChange, undoOne]
  rcases insertIdx env (deleteIdx t i k' a) i k a with ⟨t', _ | e⟩
  · rfl
  · rfl

/-- A deletion is undone by inserting again, if that is not refused. -/
theorem undoIndexChange_deleted {tbl : Table} {env : Env} {t t' : State tbl}
    {i : Fin tbl.m_indexNum} {k : Key} {a : ShmPosition} (h : insertIdx env t i k a = (t', none))
    (logs : List (IndexChangeLog tbl.m_indexNum)) :
    undoIndexChange env (.deleted i k a :: logs) t = undoIndexChange env logs t' := by
  rw [undoIndexChange, h]

/-- The state that a `catch` block leaves. -/
theorem catchIndexError_state {tbl : Table} (env : Env)
    (logs : List (IndexChangeLog tbl.m_indexNum)) (t : State tbl) (e : Error) :
    (catchIndexError env logs t e).1 = (undoIndexChange env logs t).1 ∧
      (catchIndexError env logs t e).2 ≠ none := by
  unfold catchIndexError
  rcases undoIndexChange env logs t with ⟨t', _ | e'⟩
  · exact ⟨rfl, by simp⟩
  · exact ⟨rfl, by simp⟩

/-- Another index is not touched, and one answer of the environment is used. -/
theorem undoOne_other (env : Env) (t : State (hashTable n defs getIndexKey)) (i : Fin n)
    (k k' : Key) (a : ShmPosition) :
    let r := undoOne env t i k k' a
    SameRecords t r.1 ∧ r.1.tick = t.tick + 1 ∧ ∀ j ≠ i, r.1.content j = t.content j := by
  unfold undoOne
  rw [insertIdx_eq]
  split
  · refine ⟨⟨rfl, rfl⟩, rfl, fun j hj => ?_⟩
    exact (State.setContent_of_ne _ hj _).trans (State.setContent_of_ne t hj _)
  · exact ⟨⟨rfl, rfl⟩, rfl, fun j hj => State.setContent_of_ne t hj _⟩

/-- What an index has after the move are the moved rows, and as many idle buckets. -/
theorem moved_rows (hc : t.content i = movedContent s a value' i) :
    rowsOf t i = (movedContent s a value' i).rows ∧ idleOf t i = idleOf s i :=
  ⟨congrArg HashContent.rows hc,
    (congrArg HashContent.idle hc : idleOf t i = (movedContent s a value' i).idle)⟩

section Back

variable (h : Holds s fun _ => live) (ha : live a)
  (hc : t.content i = movedContent s a value' i) (hkey : s.keyAt i a ≠ getIndexKey i value')

include h ha hc hkey

/-- What the index answers if it is left alone. -/
theorem answers_moved_iff_still :
    Answers (s.keyAt i) (hashSlot (defs i).m_hashSize) live (rowsOf t i) ↔
      Still s live a value' i := by
  rw [(moved_rows hc).1]
  exact (h.rows i).answers_moved_iff ha hkey

/-- The key is in the index: the address is found behind the head of a row and goes back. -/
theorem undoOne_used (env : Env) (hsame : SameRecords s t)
    (hused : ∃ b, live b ∧ s.keyAt i b = getIndexKey i value') :
    let r := undoOne env t i (s.keyAt i a) (getIndexKey i value') a
    r.2 = none ∧ Answers (s.keyAt i) (hashSlot (defs i).m_hashSize) live (rowsOf r.1 i) := by
  have hfound := (h.rows i).deleteIdx_moved hkey hused
  obtain ⟨hrows, hidle⟩ := moved_rows hc
  have hdelete : BaseTable.deleteIdx t i (getIndexKey i value') a =
      t.setContent i (deletedContent s a i) := by
    rw [BaseTable.deleteIdx_eq, hsame.keyAt, hrows, hidle, movedContent]
    simp only [hfound, if_true, deletedContent]
  have hback := h.insertIdx_eq_back ha (t := t.setContent i (deletedContent s a i)) hsame env
    (t.setContent_self i _)
  dsimp only
  rw [undoOne, hdelete, hback]
  refine ⟨rfl, ?_⟩
  have hput : rowsOf (State.setContent (t.setContent i (deletedContent s a i)) i
      (⟨IndexRows.put (s.keyAt i) (hashSlot (defs i).m_hashSize) (deletedContent s a i).rows
        (s.keyAt i a) a, idleOf s i⟩ : HashContent)).ticked i = _ :=
    rowsOf_setContent_self _ i _
  rw [hput]
  exact (h.rows i).answers_put_deleted ha

/-- The key is in no record: the address is not found, and inserted again. -/
theorem undoOne_free (env : Env) (hsame : SameRecords s t) (hfree : NewKeyFree s live value' i) :
    let r := undoOne env t i (s.keyAt i a) (getIndexKey i value') a
    (Stops env s live a value' t.tick i → r.2 ≠ none ∧ r.1.content i = t.content i) ∧
    (¬ Stops env s live a value' t.tick i → r.2 = none ∧
      (Answers (s.keyAt i) (hashSlot (defs i).m_hashSize) live (rowsOf r.1 i) ↔
        ¬ Hides s live a value' i)) := by
  have hfound := (h.rows i).deleteIdx_moved_free hkey hfree
  obtain ⟨hrows, hidle⟩ := moved_rows hc
  -- the deletion writes the index as it is
  have hdelete : BaseTable.deleteIdx t i (getIndexKey i value') a =
      t.setContent i (movedContent s a value' i) := by
    rw [BaseTable.deleteIdx_eq, hsame.keyAt, hrows, hidle, movedContent]
    simp only [hfound]
    rfl
  have hins := (h.rows i).insert_moved_free (defs i).m_isUnique
    (decide (0 < idleOf s i) || env.idxMem t.tick) (fun hu => h.alone ha hu) hfree
  have hkeyAt : (t.setContent i (movedContent s a value' i)).keyAt i = s.keyAt i :=
    congrFun hsame.keyAt i
  have htick : (t.setContent i (movedContent s a value' i)).tick = t.tick := rfl
  let left := State.setContent t i (movedContent s a value' i)
  let idle := (if 0 < idleOf s i then idleOf s i else (defs i).perPage) - 1
  have hidleOf : (movedContent s a value' i).idle = idleOf s i := rfl
  have hundo : undoOne env t i (s.keyAt i a) (getIndexKey i value') a =
      match IndexRows.insert (s.keyAt i) (hashSlot (defs i).m_hashSize) (defs i).m_isUnique
        (decide (0 < idleOf s i) || env.idxMem t.tick) (IndexRows.moved (s.keyAt i)
          (hashSlot (defs i).m_hashSize) (rowsOf s i) (getIndexKey i value') a) (s.keyAt i a) a with
      | .ok rows => ((left.setContent i (⟨rows, idle⟩ : HashContent)).ticked, none)
      | .error e => (left.ticked, some (.index e)) := by
    rw [undoOne, hdelete, insertIdx_eq, hkeyAt, rowsOf_setContent_self, idleOf_setContent_self,
      htick, hidleOf]
    rfl
  have hleft : left.ticked.content i = t.content i := (t.setContent_self i _).trans hc.symm
  dsimp only
  by_cases hunique : (defs i).m_isUnique = true ∧ hashSlot (defs i).m_hashSize (s.keyAt i a) =
      hashSlot (defs i).m_hashSize (getIndexKey i value')
  · rw [hundo, hins, if_pos hunique]
    exact ⟨fun _ => ⟨by simp, hleft⟩, fun hgo => absurd ⟨hfree, .inl hunique⟩ hgo⟩
  · by_cases hspace : (decide (0 < idleOf s i) || env.idxMem t.tick) = true
    · have hgo : ¬ Stops env s live a value' t.tick i := by
        intro hstops
        rcases hstops.2 with hu | ⟨hidle, hmem⟩
        · exact hunique hu
        · simp [hidle, hmem] at hspace
      rw [hundo, hins, if_neg hunique, if_pos hspace]
      refine ⟨fun hstops => absurd hstops hgo, fun _ => ⟨rfl, ?_⟩⟩
      have hback : ∀ rows, rowsOf (State.setContent left i (⟨rows, idle⟩ : HashContent)).ticked i =
          rows := fun rows => rowsOf_setContent_self left i _
      dsimp only
      rw [hback]
      refine ((h.rows i).answers_put_moved_iff ha hfree).trans ?_
      constructor
      · exact fun halone hhides => hhides.2.2 (halone hhides.2.1)
      · exact fun hhides hslot => by_contra fun hother => hhides ⟨hfree, hslot, hother⟩
    · have hstops : Stops env s live a value' t.tick i := by
        simp only [Bool.or_eq_true, decide_eq_true_eq, not_or, Bool.not_eq_true] at hspace
        exact ⟨hfree, .inr ⟨by omega, hspace.2⟩⟩
      rw [hundo, hins, if_neg hunique, if_neg hspace]
      exact ⟨fun _ => ⟨by simp, hleft⟩, fun hgo => absurd hstops hgo⟩

/-- **One index undone**: it raises an error and stays as it is, or it answers as before unless
its new row hides the others of the old key. -/
theorem undoOne_spec (env : Env) (hsame : SameRecords s t) :
    let r := undoOne env t i (s.keyAt i a) (getIndexKey i value') a
    (Stops env s live a value' t.tick i → r.2 ≠ none ∧ r.1.content i = t.content i) ∧
    (¬ Stops env s live a value' t.tick i → r.2 = none ∧
      (Answers (s.keyAt i) (hashSlot (defs i).m_hashSize) live (rowsOf r.1 i) ↔
        ¬ Hides s live a value' i)) := by
  by_cases hfree : NewKeyFree s live value' i
  · exact undoOne_free h ha hc hkey env hsame hfree
  · have hback := undoOne_used h ha hc hkey env hsame (by simpa [NewKeyFree] using hfree)
    refine ⟨fun hstops => absurd hstops.1 hfree, fun _ => ⟨hback.1, ?_⟩⟩
    exact iff_of_true hback.2 fun hhides => hfree hhides.1

end Back

/-! ## Taking back the indexes before the one that refuses -/

/-- What `updateAllIndex` has logged for the indexes of a list. -/
def logsOf (s : State (hashTable n defs getIndexKey)) (a : ShmPosition) (value' : Record)
    (is : List (Fin n)) : List (IndexChangeLog n) :=
  is.flatMap fun j => [.inserted j (getIndexKey j value') a, .deleted j (s.keyAt j a) a]

/-- The undo goes through the indexes, the last one first. -/
theorem undoIndexChange_cons (env : Env) (s t : State (hashTable n defs getIndexKey))
    (a : ShmPosition) (value' : Record) (j : Fin n) (rest : List (Fin n)) :
    undoIndexChange env (logsOf s a value' (j :: rest)) t =
      match undoOne env t j (s.keyAt j a) (getIndexKey j value') a with
      | (t, some e) => (t, some e)
      | (t, none) => undoIndexChange env (logsOf s a value' rest) t := by
  have hlogs : logsOf s a value' (j :: rest) = .inserted j (getIndexKey j value') a ::
      .deleted j (s.keyAt j a) a :: logsOf s a value' rest := List.flatMap_cons
  rw [hlogs, undoIndexChange_pair]
  rcases undoOne env t j (s.keyAt j a) (getIndexKey j value') a with ⟨t', _ | e⟩
  · rfl
  · rfl

section Chain

variable {tick : Nat} {j : Fin n} {rest : List (Fin n)}

/-- When the first index stops, every index has to be right as it is. -/
theorem getsThrough_stops (hstops : Stops env s live a value' tick j) :
    GetsThrough env s live a value' tick (j :: rest) ↔
      ∀ j' ∈ j :: rest, Still s live a value' j' := by
  constructor
  · intro hgets j' hj'
    obtain ⟨m, hm⟩ := List.mem_iff_getElem?.mp hj'
    rcases hgets m j' hm with hstill | ⟨-, hgo⟩
    · exact hstill
    · exact absurd hstops (hgo 0 (Nat.zero_le m) j rfl)
  · exact fun hstill m j' hm => .inl (hstill j' (List.mem_of_getElem? hm))

/-- When it does not, it has to find its rows, and the others are taken back next. -/
theorem getsThrough_goes (hgoes : ¬ Stops env s live a value' tick j) :
    GetsThrough env s live a value' tick (j :: rest) ↔
      ¬ Hides s live a value' j ∧ GetsThrough env s live a value' (tick + 1) rest := by
  constructor
  · intro hgets
    refine ⟨fun hhides => ?_, fun m j' hm => ?_⟩
    · rcases hgets 0 j rfl with hstill | ⟨hnot, -⟩
      · exact hhides.2.2 hstill.2.2
      · exact hnot hhides
    · refine (hgets (m + 1) j' hm).imp_right fun hgo => ⟨hgo.1, fun m' hm' j'' hj'' => ?_⟩
      have hnext := hgo.2 (m' + 1) (Nat.succ_le_succ hm') j'' hj''
      rwa [show tick + 1 + m' = tick + (m' + 1) by omega]
  · intro hgets m j' hm
    obtain ⟨hhides, hgets⟩ := hgets
    cases m with
    | zero =>
        obtain rfl : j = j' := Option.some.inj hm
        refine .inr ⟨hhides, fun m' hm' j'' hj'' => ?_⟩
        obtain rfl := Nat.le_zero.mp hm'
        obtain rfl : j = j'' := Option.some.inj hj''
        exact hgoes
    | succ m =>
        refine (hgets m j' hm).imp_right fun hgo => ⟨hgo.1, fun m' hm' j'' hj'' => ?_⟩
        cases m' with
        | zero =>
            obtain rfl : j = j'' := Option.some.inj hj''
            exact hgoes
        | succ m' =>
            have hnext := hgo.2 m' (Nat.le_of_succ_le_succ hm') j'' hj''
            rwa [show tick + (m' + 1) = tick + 1 + m' by omega]

end Chain

/-- The `i`-th index of a state answers what the table had in it before. -/
def AnswersAs (s t : State (hashTable n defs getIndexKey)) (live : ShmPosition → Prop)
    (i : Fin n) : Prop :=
  Answers (s.keyAt i) (hashSlot (defs i).m_hashSize) live (rowsOf t i)

/-- What an index answers depends on its content only. -/
theorem AnswersAs.congr {t' : State (hashTable n defs getIndexKey)}
    (hc : t'.content i = t.content i) : AnswersAs s t' live i ↔ AnswersAs s t live i := by
  have hrows : rowsOf t' i = rowsOf t i := congrArg HashContent.rows hc
  rw [AnswersAs, AnswersAs, hrows]

/-- **Undoing the indexes before.** -/
theorem undoIndexChange_spec (env : Env) (h : Holds s fun _ => live) (ha : live a)
    (is : List (Fin n)) (hnodup : is.Nodup) (hsame : SameRecords s t)
    (hc : ∀ j ∈ is, t.content j = movedContent s a value' j)
    (hkey : ∀ j ∈ is, s.keyAt j a ≠ getIndexKey j value') :
    let r := undoIndexChange env (logsOf s a value' is) t
    SameRecords t r.1 ∧ (∀ j, j ∉ is → r.1.content j = t.content j) ∧
      ((∀ j ∈ is, AnswersAs s r.1 live j) ↔ GetsThrough env s live a value' t.tick is) := by
  induction is generalizing t with
  | nil => exact ⟨⟨rfl, rfl⟩, fun _ _ => rfl, by simp [GetsThrough]⟩
  | cons j rest ih =>
      obtain ⟨hj, hrest⟩ := List.nodup_cons.mp hnodup
      have hcj := hc j List.mem_cons_self
      have hkeyj := hkey j List.mem_cons_self
      obtain ⟨hsame', htick, hother⟩ :=
        undoOne_other env t j (s.keyAt j a) (getIndexKey j value') a
      obtain ⟨hstop, hgo⟩ := undoOne_spec h ha hcj hkeyj env hsame
      rw [undoIndexChange_cons]
      rcases hone : undoOne env t j (s.keyAt j a) (getIndexKey j value') a with ⟨t₁, _ | e⟩
      · rw [hone] at hsame' htick hother hstop hgo
        have hgoes : ¬ Stops env s live a value' t.tick j := fun hstops => (hstop hstops).1 rfl
        have hc₁ : ∀ m ∈ rest, t₁.content m = movedContent s a value' m := fun m hm =>
          (hother m fun heq => hj (heq ▸ hm)).trans (hc m (List.mem_cons_of_mem j hm))
        obtain ⟨hsame₂, hother₂, hrest₂⟩ := ih hrest (hsame.trans hsame') hc₁
          fun m hm => hkey m (List.mem_cons_of_mem j hm)
        refine ⟨hsame'.trans hsame₂, fun m hm => ?_, ?_⟩
        · rw [List.mem_cons, not_or] at hm
          exact (hother₂ m hm.2).trans (hother m hm.1)
        · have hfirst : AnswersAs s (undoIndexChange env (logsOf s a value' rest) t₁).1 live j ↔
              ¬ Hides s live a value' j := (AnswersAs.congr (hother₂ j hj)).trans (hgo hgoes).2
          dsimp only at htick hrest₂ ⊢
          rw [List.forall_mem_cons, hfirst, hrest₂, getsThrough_goes hgoes, htick]
      · rw [hone] at hsame' hother hstop hgo
        have hstops : Stops env s live a value' t.tick j := by
          by_contra hgoes
          cases (hgo hgoes).1
        refine ⟨hsame', fun m hm => hother m fun heq => hm (heq ▸ List.mem_cons_self), ?_⟩
        rw [getsThrough_stops hstops]
        refine forall₂_congr fun m hm => ?_
        have hkept : t₁.content m = t.content m := by
          by_cases hmj : m = j
          · subst hmj
            exact (hstop hstops).2
          · exact hother m hmj
        exact (AnswersAs.congr hkept).trans (answers_moved_iff_still h ha (hc m hm) (hkey m hm))

/-! ## The operations -/

/-- What the loop of `updateAllIndex` keeps: the indexes `before` have the address under its new
key, and the others are as they were. -/
structure MovedSoFar (s t : State (hashTable n defs getIndexKey)) (a : ShmPosition)
    (value' : Record) (before : List (Fin n)) : Prop where
  same : SameRecords s t
  tick : t.tick = s.tick + before.length
  moved : ∀ j ∈ before, t.content j = movedContent s a value' j
  changed : ∀ j ∈ before, s.keyAt j a ≠ getIndexKey j value'
  others : ∀ j, j ∉ before → t.content j = s.content j

namespace MovedSoFar

variable {before : List (Fin n)}

/-- An index that takes the new key joins the ones before. -/
theorem push (hm : MovedSoFar s t a value' before) (hi : i ∉ before)
    (hkey : s.keyAt i a ≠ getIndexKey i value') :
    MovedSoFar s (State.setContent t i (movedContent s a value' i)).ticked a value'
      (i :: before) where
  same := ⟨hm.same.1, hm.same.2⟩
  tick := congrArg (· + 1) hm.tick
  moved := by
    intro j hj
    by_cases hji : j = i
    · subst hji
      exact t.setContent_self j _
    · exact (t.setContent_of_ne hji _).trans
        (hm.moved j ((List.mem_cons.mp hj).resolve_left hji))
  changed := List.forall_mem_cons.mpr ⟨hkey, hm.changed⟩
  others := by
    intro j hj
    rw [List.mem_cons, not_or] at hj
    exact (t.setContent_of_ne hj.1 _).trans (hm.others j hj.2)

/-- An index that refuses is taken back first, and then the ones before it. -/
theorem refused (hm : MovedSoFar s t a value' before) (env : Env) (h : Holds s fun _ => live)
    (ha : live a) (hnodup : (i :: before).Nodup) :
    let r := catchIndexError env (.deleted i (s.keyAt i a) a :: logsOf s a value' before)
      (State.setContent t i (deletedContent s a i)).ticked (.index .uniqueConflict)
    SameRecords s r.1 ∧ r.2 ≠ none ∧ ((∀ j, AnswersAs s r.1 live j) ↔
      GetsThrough env s live a value' (s.tick + before.length + 2) before) := by
  obtain ⟨hi, hbefore⟩ := List.nodup_cons.mp hnodup
  dsimp only
  generalize hleft : (State.setContent t i (deletedContent s a i)).ticked = left
  have hleftSame : SameRecords s left := hleft ▸ ⟨hm.same.1, hm.same.2⟩
  have hleftTick : left.tick = t.tick + 1 := hleft ▸ rfl
  have hleftSelf : left.content i = deletedContent s a i := by
    rw [← hleft]
    exact t.setContent_self i _
  have hleftOther : ∀ j ≠ i, left.content j = t.content j := by
    intro j hj
    rw [← hleft]
    exact t.setContent_of_ne hj _
  have hback := h.insertIdx_eq_back ha hleftSame env hleftSelf
  generalize hright : (State.setContent left i (⟨IndexRows.put (s.keyAt i)
    (hashSlot (defs i).m_hashSize) (deletedContent s a i).rows (s.keyAt i a) a,
    idleOf s i⟩ : HashContent)).ticked = right at hback
  have hrightSame : SameRecords s right := hright ▸ ⟨hleftSame.1, hleftSame.2⟩
  have hrightTick : right.tick = s.tick + before.length + 2 := by
    rw [← hright, ← hm.tick]
    exact congrArg (· + 1) hleftTick
  have hrightSelf : AnswersAs s right live i := by
    rw [AnswersAs, ← hright]
    change Answers _ _ live (rowsOf (State.setContent left i _) i)
    rw [rowsOf_setContent_self]
    exact (h.rows i).answers_put_deleted ha
  have hrightOther : ∀ j ≠ i, right.content j = t.content j := by
    intro j hj
    rw [← hright]
    exact (left.setContent_of_ne hj _).trans (hleftOther j hj)
  obtain ⟨hstate, hraised⟩ := catchIndexError_state env (.deleted i (s.keyAt i a) a ::
    logsOf s a value' before) left (.index .uniqueConflict)
  rw [undoIndexChange_deleted hback] at hstate
  have hne : ∀ j ∈ before, j ≠ i := fun j hj heq => hi (heq ▸ hj)
  obtain ⟨hundoSame, hundoOther, hundo⟩ := undoIndexChange_spec env h ha before hbefore
    hrightSame (fun j hj => (hrightOther j (hne j hj)).trans (hm.moved j hj)) hm.changed
  rw [hstate, ← hrightTick, ← hundo]
  refine ⟨hrightSame.trans hundoSame, hraised, fun hall j _ => hall j, fun hall j => ?_⟩
  by_cases hj : j ∈ before
  · exact hall j hj
  · rw [AnswersAs.congr (hundoOther j hj)]
    by_cases hji : j = i
    · exact hji ▸ hrightSelf
    · rw [AnswersAs.congr ((hrightOther j hji).trans (hm.others j hj))]
      exact fun k x => ((h.rows j).select_spec k).2 x

end MovedSoFar

/-- **The loop of `updateAllIndex`**, with the changed indexes `before` behind it: it runs through,
or the first index that refuses ends it. -/
theorem updateFrom_spec (env : Env) (h : Holds s fun _ => live) (ha : live a) {value : Record}
    (hrecord : s.record a = value) (value' : Record) (is before : List (Fin n))
    (hnodup : (is ++ before).Nodup) (hm : MovedSoFar s t a value' before) :
    let r := updateFrom env value value' a is (logsOf s a value' before) t
    SameRecords s r.1 ∧
    ((r.2 = none ∧ ∀ j ∈ is, ¬ Refuses s live a value' j) ∨
      ∃ pre i post, is = pre ++ i :: post ∧ Refuses s live a value' i ∧
        (∀ j ∈ pre, ¬ Refuses s live a value' j) ∧ r.2 ≠ none ∧
        let changed := (pre.filter fun j => s.keyAt j a ≠ getIndexKey j value').reverse ++ before
        ((∀ j, AnswersAs s r.1 live j) ↔
          GetsThrough env s live a value' (s.tick + changed.length + 2) changed)) := by
  induction is generalizing t before with
  | nil => exact ⟨hm.same, .inl ⟨rfl, by simp⟩⟩
  | cons i rest ih =>
      obtain ⟨hi, hrest⟩ := List.nodup_cons.mp hnodup
      have hold : getIndexKey i value = s.keyAt i a := by rw [State.keyAt, hrecord]
      have hibefore : i ∉ before := fun hmem => hi (List.mem_append_right rest hmem)
      have hci := hm.others i hibefore
      simp only [updateFrom, hold]
      by_cases hkeyi : s.keyAt i a = getIndexKey i value'
      · -- the key of this index stays
        rw [if_pos hkeyi]
        have hno : ¬ Refuses s live a value' i := fun hrefuses => hrefuses.1 hkeyi
        obtain ⟨hsame', hloop⟩ := ih before hrest hm
        refine ⟨hsame', ?_⟩
        rcases hloop with ⟨hnone, hall⟩ | ⟨pre, m, post, hsplit, hrefuses, hpre, hsome, hiff⟩
        · exact .inl ⟨hnone, List.forall_mem_cons.mpr ⟨hno, hall⟩⟩
        · refine .inr ⟨i :: pre, m, post, by rw [hsplit, List.cons_append], hrefuses,
            List.forall_mem_cons.mpr ⟨hno, hpre⟩, hsome, ?_⟩
          rw [List.filter_cons_of_neg (by simpa using hkeyi)]
          exact hiff
      · rw [if_neg hkeyi]
        by_cases hrefuses : Refuses s live a value' i
        · -- the index refuses, and the loop ends
          rw [h.changeIdx_eq_refused ha hm.same env hci hrefuses]
          have hnodup' : (i :: before).Nodup :=
            hnodup.sublist ((List.sublist_append_right rest before).cons_cons i)
          obtain ⟨hsame', hraised, hiff⟩ := hm.refused env h ha hnodup'
          exact ⟨hsame', .inr ⟨[], i, rest, rfl, hrefuses, by simp, hraised, hiff⟩⟩
        · -- the index takes the new key
          rw [h.changeIdx_eq_moved ha hm.same env hci hkeyi hrefuses]
          dsimp only
          have hnodup' : (rest ++ i :: before).Nodup :=
            (List.perm_middle.nodup_iff).mpr (List.nodup_cons.mpr ⟨hi, hrest⟩)
          obtain ⟨hsame', hloop⟩ := ih (i :: before) hnodup' (hm.push hibefore hkeyi)
          refine ⟨hsame', ?_⟩
          rcases hloop with ⟨hnone, hall⟩ | ⟨pre, m, post, hsplit, hrefuse, hpre, hsome, hiff⟩
          · exact .inl ⟨hnone, List.forall_mem_cons.mpr ⟨hrefuses, hall⟩⟩
          · refine .inr ⟨i :: pre, m, post, by rw [hsplit, List.cons_append], hrefuse,
              List.forall_mem_cons.mpr ⟨hrefuses, hpre⟩, hsome, ?_⟩
            rw [List.filter_cons_of_pos (by simpa using hkeyi), List.reverse_cons,
              List.append_assoc, List.singleton_append]
            exact hiff

/-- What the indexes answer, in terms of their rows. -/
theorem select_same_iff (h : Holds s fun _ => live) (hsame : SameRecords s t) :
    (∀ i k a, a ∈ t.select i k ↔ a ∈ s.select i k) ↔ ∀ i, AnswersAs s t live i := by
  have hold : ∀ (i : Fin n) k a, a ∈ s.select i k ↔ live a ∧ s.keyAt i a = k := fun i k a =>
    ((h.rows i).select_spec k).2 a
  have hnew : ∀ (i : Fin n) k, t.select i k =
      IndexRows.select (s.keyAt i) (hashSlot (defs i).m_hashSize) (rowsOf t i) k := by
    intro i k
    rw [← hsame.keyAt]
    rfl
  simp only [hold, hnew, AnswersAs, Answers]

/-- **Updating is undone** exactly when the first index that refuses is. -/
theorem updateAllIndex_undone_iff {td : TransData} {restore : Bool} (env : Env)
    (h : Holds s fun _ => live) (ha : live td.m_addr)
    (hrecord : s.record td.m_addr = td.value restore) :
    IndexSetOp.Undone env s td restore .updateAllIndex ↔
      ∀ i, UndoneBefore env s live td.m_addr (td.value (!restore)) i := by
  obtain ⟨hsame, hloop⟩ := updateFrom_spec env h ha hrecord (td.value (!restore))
    (List.finRange n) [] (by simpa using List.nodup_finRange n)
    ⟨⟨rfl, rfl⟩, rfl, by simp, by simp, fun _ _ => rfl⟩
  rcases hloop with ⟨hnone, hall⟩ | ⟨pre, i, post, hsplit, hrefuses, hpre, hsome, hiff⟩
  · refine iff_of_true (fun e he => ?_) fun i hrefuses =>
      absurd hrefuses (hall i (List.mem_finRange i))
    exact absurd (he.symm.trans hnone) (by simp)
  · obtain ⟨hlength, hbefore⟩ := finRange_split hsplit
    have hchanged : (pre.filter fun j => s.keyAt j td.m_addr ≠
        getIndexKey j (td.value (!restore))).reverse ++ [] =
          changedBefore s td.m_addr (td.value (!restore)) i := by
      have htake : (List.finRange n).take i = pre := by
        rw [hsplit, ← hlength, List.take_left]
      rw [changedBefore, htake, List.append_nil]
    rw [hchanged] at hiff
    have hundone : IndexSetOp.Undone env s td restore .updateAllIndex ↔
        ∀ j, AnswersAs s (updateAllIndex env s td restore).1 live j := by
      have hsame' : SameRecords s (updateAllIndex env s td restore).1 := hsame
      rw [← select_same_iff h hsame']
      refine ⟨fun hundone => ?_, fun hall e _ => hall⟩
      obtain ⟨e, he⟩ := Option.ne_none_iff_exists'.mp hsome
      exact hundone e he
    refine (hundone.trans hiff).trans ⟨fun hgets j hj hfirst => ?_, fun hall => ?_⟩
    · -- the index that refuses first is the only one that matters
      have hij : j = i := by
        rcases lt_trichotomy j i with hlt | heq | hgt
        · exact absurd hj (hpre j (hbefore j hlt))
        · exact heq
        · exact absurd hrefuses (hfirst i hgt)
      rw [hij]
      exact hgets
    · exact hall i hrefuses fun j hj => hpre j (hbefore j hj)

/-- **Inserting is always undone.** -/
theorem insertAllIndex_undone {td : TransData} {restore : Bool} (env : Env)
    (h : Holds s fun _ => live) (hnew : ¬ live td.m_addr)
    (hrecord : s.record td.m_addr = td.value (!restore)) :
    IndexSetOp.Undone env s td restore .insertAllIndex := by
  have hstart : StackedAll s live fun i => if i ∈ ([] : List (Fin n)) then [td.m_addr] else [] := by
    intro i
    simpa using IndexRows.Stacked.nil (h.rows i)
  obtain ⟨hsame, -, hrefused⟩ := hstart.insertFrom env hnew List.not_mem_nil (List.finRange n) []
    (by simpa using List.nodup_finRange n) hrecord
  intro e he
  refine (select_same_iff h hsame).mpr fun i k a => ?_
  have hrows := ((hrefused e he).1 i).indexed
  rw [hsame.keyAt] at hrows
  exact ((hrows.of_iff (by simp)).select_spec k).2 a

/-- **After an error every index answers as before** exactly when it was not raised while updating,
or undoing the indexes before the one that refuses gets through. -/
theorem undone_iff {td : TransData} {restore : Bool} (env : Env) (h : Holds s fun _ => live)
    (op : IndexSetOp) (hready : op.Ready s live td restore) :
    op.Undone env s td restore ↔ (op = .updateAllIndex →
      ∀ i, UndoneBefore env s live td.m_addr (td.value (!restore)) i) := by
  cases op with
  | insertAllIndex =>
      exact iff_of_true (insertAllIndex_undone env h hready.1 hready.2) fun hop => by cases hop
  | deleteAllIndex => exact iff_of_true (fun e he => by cases he) fun hop => by cases hop
  | updateAllIndex =>
      rw [updateAllIndex_undone_iff env h hready.1 hready.2]
      exact ⟨fun hall _ => hall, fun hall => hall rfl⟩

/-! ## Two records with one key -/

/-- An index with the first byte as its key, and a unique one with the second byte; both have one
slot. -/
def pairDefs : Fin 2 → HashIndexDef
  | 0 => ⟨1, 8, false⟩
  | 1 => ⟨1, 8, true⟩

def pairKey (i : Fin 2) (r : Record) : Key := [r.getD i 0]

/-- The vertical lists of the two indexes. -/
def pairRows : Fin 2 → List (IndexRows.Row ShmPosition)
  | 0 => [⟨slot 0, [slot 1]⟩]
  | 1 => [⟨slot 1, []⟩, ⟨slot 0, []⟩]

/-- Slot 0 holds the record (1, 1) and slot 1 the record (1, 2). -/
def pairRecords : State (hashTable 2 pairDefs pairKey) where
  live a := decide (a = slot 0 ∨ a = slot 1)
  record a := if a = slot 0 then [1, 1] else [1, 2]
  content i := (⟨fun j => if j = 0 then pairRows i else [], 6⟩ : HashContent)
  m_recordNum := 2
  tick := 0

/-- The row of the two records is one for its slot. -/
theorem pairRows_slotOk (i : Fin 2) :
    IndexRows.SlotOk (pairRecords.keyAt i) (hashSlot (pairDefs i).m_hashSize) 0 (pairRows i) := by
  have hslots : slot 0 ≠ slot 1 := by decide
  have hzero : ∀ k, hashSlot 1 k = 0 := fun k => Nat.mod_one _
  match i with
  | 0 =>
      refine ⟨?_, ?_, ?_, ?_⟩
      · simp only [pairRows, List.mem_singleton, forall_eq, IndexRows.Row.all, List.forall_mem_cons]
        decide
      · exact fun r _ => hzero _
      · exact List.pairwise_singleton _ _
      · simp [pairRows, IndexRows.Row.all, hslots]
  | 1 =>
      refine ⟨?_, ?_, ?_, ?_⟩
      · simp [pairRows, IndexRows.Row.all]
      · exact fun r _ => hzero _
      · simp only [pairRows, List.pairwise_pair]
        decide
      · simp [pairRows, IndexRows.Row.all, hslots.symm]

/-- Both indexes hold the two records. -/
theorem pairRecords_holds : Holds pairRecords fun _ a => a = slot 0 ∨ a = slot 1 := by
  intro i
  have htwo : ∀ i : Fin 2, i = 0 ∨ i = 1 := by decide
  have hrows : ∀ j, rowsOf pairRecords i j = if j = 0 then pairRows i else [] := fun _ => rfl
  refine ⟨⟨fun j => ?_, fun a => ?_⟩, fun hu a b ha hb hkey => ?_⟩
  · change IndexRows.SlotOk _ _ j (rowsOf pairRecords i j)
    rw [hrows]
    by_cases hj : j = 0
    · rw [if_pos hj, hj]
      exact pairRows_slotOk i
    · rw [if_neg hj]
      exact ⟨by simp, by simp, List.Pairwise.nil, List.nodup_nil⟩
  · have hflat : a = slot 0 ∨ a = slot 1 ↔ a ∈ IndexRows.flat (pairRows i) := by
      rcases htwo i with rfl | rfl
      · simp [pairRows, IndexRows.Row.all]
      · simp [pairRows, IndexRows.Row.all, or_comm]
    refine hflat.trans ?_
    change _ ↔ ∃ j, a ∈ IndexRows.flat (rowsOf pairRecords i j)
    constructor
    · exact fun ha => ⟨0, ha⟩
    · intro hmem
      obtain ⟨j, hj⟩ := hmem
      rw [hrows] at hj
      by_cases hzero : j = 0
      · rwa [if_pos hzero] at hj
      · rw [if_neg hzero] at hj
        exact absurd hj List.not_mem_nil
  · rcases htwo i with rfl | rfl
    · cases hu
    · rcases ha with rfl | rfl <;> rcases hb with rfl | rfl
      · rfl
      · exact absurd hkey (by decide)
      · exact absurd hkey (by decide)
      · rfl

/-- The second record's key is given to the first one in the unique index only. -/
theorem undone_pairRecords :
    (IndexSetOp.run twoIdle pairRecords ⟨slot 0, [1, 1], [1, 2], .update⟩ false .updateAllIndex).2 =
      some (.index .uniqueConflict) ∧
    IndexSetOp.Undone twoIdle pairRecords ⟨slot 0, [1, 1], [1, 2], .update⟩ false
      .updateAllIndex := by
  refine ⟨by decide, (undone_iff twoIdle pairRecords_holds .updateAllIndex ⟨.inl rfl, rfl⟩).mpr ?_⟩
  -- no index before the one that refuses has changed
  intro _ i hrefuses _ m j hj
  have hnone : ∀ i, changedBefore pairRecords (slot 0) [1, 2] i = [] := by decide
  have hj' : ([] : List (Fin 2))[m]? = some j := (hnone i) ▸ hj
  cases hj'

/-- The first index has taken the key 3 when the second one refuses the key 2.  Undoing leaves the
row of the key 3, which reads as 1, and the record in slot 1 is not found any more. -/
theorem not_undone_pairRecords :
    Holds pairRecords (fun _ a => a = slot 0 ∨ a = slot 1) ∧
    IndexSetOp.updateAllIndex.Ready pairRecords (fun a => a = slot 0 ∨ a = slot 1)
      ⟨slot 0, [1, 1], [3, 2], .update⟩ false ∧
    ¬ IndexSetOp.Undone twoIdle pairRecords ⟨slot 0, [1, 1], [3, 2], .update⟩ false
      .updateAllIndex := by
  refine ⟨pairRecords_holds, ⟨.inl rfl, rfl⟩, fun hundone => ?_⟩
  have hbefore : slot 1 ∈ pairRecords.select 0 [1] := by decide
  have hlost : slot 1 ∉ (IndexSetOp.run twoIdle pairRecords ⟨slot 0, [1, 1], [3, 2], .update⟩ false
      .updateAllIndex).1.select 0 [1] := by decide
  exact hlost ((hundone (.index .uniqueConflict) (by decide) 0 [1] (slot 1)).mpr hbefore)

end BaseTable
