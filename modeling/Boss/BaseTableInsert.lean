import Boss.IndexRowsBatch
import Boss.TableCommit

/-!
# A batch of insertions that a conflict ends

`BaseTable::insert` puts the records of a batch into all hash indexes, one record after
the other.  When an index refuses one, the slots of the whole batch are freed first, and
then the earlier records are taken out of the indexes again, latest first.  A deletion
finds its row through the key that the head of the row has in memory, and by then the
free list runs through these bytes.

`Stacked` of `IndexRowsBatch` is followed through the loop for every index.  It says
which records opened the row of their key; `insert_restores_iff` says that the table is as
it was exactly when these records still read as their keys in the freed slots.
-/

namespace BaseTable

open IndexRows (InsertError Stacked Opens OpenersRead)

/-- What the definition of a hash index fixes. -/
structure HashIndexDef where
  m_hashSize : Nat
  perPage : Nat
  m_isUnique : Bool

/-- A table whose indexes are hash indexes. -/
abbrev hashTable (n : Nat) (defs : Fin n → HashIndexDef) (getIndexKey : Fin n → Record → Key) :
    Table where
  m_indexNum := n
  index i := hashIndex (defs i).m_hashSize (defs i).perPage (defs i).m_isUnique
  getIndexKey := getIndexKey

variable {n : Nat} {defs : Fin n → HashIndexDef} {getIndexKey : Fin n → Record → Key}

/-- The rows of the `i`-th index. -/
def rowsOf (s : State (hashTable n defs getIndexKey)) (i : Fin n) : IndexRows.Rows ShmPosition :=
  HashContent.rows (s.content i)

/-- The table as it was: the answers of all indexes are the same sets, no index has the
address of a free slot and the allocated slots are the same. -/
structure AsBefore (s t : State (hashTable n defs getIndexKey)) : Prop where
  select : ∀ i k a, a ∈ t.select i k ↔ a ∈ s.select i k
  noFree : ∀ i slot, ∀ a ∈ IndexRows.flat (rowsOf t i slot), t.live a = true
  live : ∀ a, t.live a = s.live a

/-- A unique index has the key of the record already, from the table or from an earlier
record of the batch. -/
def Taken (s : State (hashTable n defs getIndexKey)) (earlier : List TransData) (td : TransData)
    (i : Fin n) : Prop :=
  (defs i).m_isUnique = true ∧
    ((∃ b, s.live b = true ∧ s.keyAt i b = getIndexKey i td.m_newRecordValue) ∨
      ∃ td' ∈ earlier, getIndexKey i td'.m_newRecordValue = getIndexKey i td.m_newRecordValue)

/-- The first conflict of the batch: the record `td` behind `earlier`, in its `i`-th index. -/
structure FirstConflict (s : State (hashTable n defs getIndexKey)) (transDatas : List TransData)
    (earlier : List TransData) (td : TransData) (i : Fin n) : Prop where
  batch : ∃ later, transDatas = earlier ++ td :: later
  taken : Taken s earlier td i
  indexes : ∀ j < i, ¬ Taken s earlier td j
  records : ∀ pre td' post, earlier = pre ++ td' :: post → ∀ j, ¬ Taken s pre td' j

/-- In every index, a record whose key neither the table nor an earlier record of the
batch had reads as its key in the memory `freed`. -/
def FirstKeysStay (s : State (hashTable n defs getIndexKey)) (transDatas : List TransData)
    (freed : ShmPosition → Record) : Prop :=
  ∀ i earlier td later, transDatas = earlier ++ td :: later →
    (∀ b, s.live b = true → s.keyAt i b ≠ getIndexKey i td.m_newRecordValue) →
    (∀ td' ∈ earlier,
      getIndexKey i td'.m_newRecordValue ≠ getIndexKey i td.m_newRecordValue) →
    getIndexKey i (freed td.m_addr) = getIndexKey i td.m_newRecordValue

variable {env : Env} {s t : State (hashTable n defs getIndexKey)} {a : ShmPosition} {i : Fin n}
  {k : Key} {live : ShmPosition → Prop} {value : Record}

/-! ## One index -/

/-- The content that is written to an index is the one that is read. -/
theorem State.setContent_self {tbl : Table} (s : State tbl) (i : Fin tbl.m_indexNum)
    (c : (tbl.index i).Content) : (s.setContent i c).content i = c := by
  simp [State.setContent]

/-- Writing one index leaves the others. -/
theorem State.setContent_of_ne {tbl : Table} (s : State tbl) {i j : Fin tbl.m_indexNum}
    (hj : j ≠ i) (c : (tbl.index i).Content) : (s.setContent i c).content j = s.content j := by
  simp [State.setContent, hj]

/-- Writing one index changes its rows only. -/
theorem rowsOf_setContent (c : HashContent) :
    rowsOf (s.setContent i c) = Function.update (rowsOf s) i c.rows := by
  funext j
  by_cases hj : j = i
  · subst hj
    rw [Function.update_self]
    exact congrArg HashContent.rows (s.setContent_self j c)
  · rw [Function.update_of_ne hj]
    exact congrArg HashContent.rows (s.setContent_of_ne hj c)

/-- The answer of `IndexHash::insert` is the one of its rows. -/
theorem hashIndex_insert (d : HashIndexDef) (keyOf : ShmPosition → Key) (page : Bool)
    (c : HashContent) (k : Key) (a : ShmPosition) :
    ∃ space,
      match (hashIndex d.m_hashSize d.perPage d.m_isUnique).insert keyOf page c k a with
      | .ok c' => IndexRows.insert keyOf (hashSlot d.m_hashSize) d.m_isUnique space c.rows k a =
          .ok (HashContent.rows c')
      | .error e => IndexRows.insert keyOf (hashSlot d.m_hashSize) d.m_isUnique space c.rows k a =
          .error e := by
  refine ⟨decide (0 < c.idle) || page, ?_⟩
  cases hrows : IndexRows.insert keyOf (hashSlot d.m_hashSize) d.m_isUnique
    (decide (0 < c.idle) || page) c.rows k a with
  | ok rows => simp [hashIndex, hrows]
  | error e => simp [hashIndex, hrows]

/-- An insertion into one index, accepted or refused. -/
theorem insertIdx_rows (env : Env) (s : State (hashTable n defs getIndexKey)) (i : Fin n) (k : Key)
    (a : ShmPosition) :
    let r := insertIdx env s i k a
    SameRecords s r.1 ∧ r.1.tick = s.tick + 1 ∧ ∃ space,
      (r.2 = none → ∃ rows, IndexRows.insert (s.keyAt i) (hashSlot (defs i).m_hashSize)
          (defs i).m_isUnique space (rowsOf s i) k a = .ok rows ∧
        rowsOf r.1 = Function.update (rowsOf s) i rows) ∧
      ∀ e, r.2 = some e → ∃ e', e = .index e' ∧ IndexRows.insert (s.keyAt i)
          (hashSlot (defs i).m_hashSize) (defs i).m_isUnique space (rowsOf s i) k a = .error e' ∧
        rowsOf r.1 = rowsOf s := by
  obtain ⟨space, hspace⟩ :=
    hashIndex_insert (defs i) (s.keyAt i) (env.idxMem s.tick) (s.content i) k a
  unfold insertIdx
  split
  · rename_i c hc
    have hrows := hspace
    rw [show (hashIndex (defs i).m_hashSize (defs i).perPage (defs i).m_isUnique).insert
      (s.keyAt i) (env.idxMem s.tick) (s.content i) k a = .ok c from hc] at hrows
    refine ⟨⟨rfl, rfl⟩, rfl, space, fun _ => ⟨_, hrows, rowsOf_setContent c⟩, ?_⟩
    rintro e ⟨⟩
  · rename_i e he
    have hrows := hspace
    rw [show (hashIndex (defs i).m_hashSize (defs i).perPage (defs i).m_isUnique).insert
      (s.keyAt i) (env.idxMem s.tick) (s.content i) k a = .error e from he] at hrows
    refine ⟨⟨rfl, rfl⟩, rfl, space, fun hnone => by simp at hnone, ?_⟩
    rintro e' ⟨⟩
    exact ⟨e, rfl, hrows, rfl⟩

/-- A deletion from one index changes its rows only. -/
theorem deleteIdx_rows (s : State (hashTable n defs getIndexKey)) (i : Fin n) (k : Key)
    (a : ShmPosition) :
    rowsOf (deleteIdx s i k a) = Function.update (rowsOf s) i
      (IndexRows.deleteIdx (s.keyAt i) (hashSlot (defs i).m_hashSize) (rowsOf s i) k a).2 :=
  rowsOf_setContent _

/-! ## All indexes of one record -/

/-- Every index has the live addresses and the batch `done i` behind them. -/
def StackedAll (s : State (hashTable n defs getIndexKey)) (live : ShmPosition → Prop)
    (done : Fin n → List ShmPosition) : Prop :=
  ∀ i : Fin n, Stacked (s.keyAt i) (hashSlot (defs i).m_hashSize) live (done i) (rowsOf s i)

/-- A unique index has the key under an address that is live or in the batch. -/
def Conflict (s : State (hashTable n defs getIndexKey)) (live : ShmPosition → Prop)
    (done : List ShmPosition) (value : Record) (i : Fin n) : Prop :=
  (defs i).m_isUnique = true ∧
    ∃ b, (live b ∨ b ∈ done) ∧ s.keyAt i b = getIndexKey i value

variable {done : List ShmPosition} {doneOf : Fin n → List ShmPosition}

/-- A conflict depends on the records, not on the indexes. -/
theorem Conflict.congr (h : SameRecords s t) :
    Conflict t live done value i ↔ Conflict s live done value i := by
  unfold Conflict
  rw [h.keyAt]

/-- The stacks depend on the rows and on the records. -/
theorem StackedAll.congr (h : StackedAll s live doneOf) (hrows : rowsOf t = rowsOf s)
    (hsame : SameRecords s t) {doneOf' : Fin n → List ShmPosition}
    (hdone : ∀ i, doneOf' i = doneOf i) : StackedAll t live doneOf' := by
  intro i
  rw [hrows, hsame.keyAt, hdone]
  exact h i

/-- A record that enters one index is put on the stack of that index. -/
theorem StackedAll.update (h : StackedAll s live doneOf) (hsame : SameRecords s t)
    {rows : IndexRows.Rows ShmPosition} {l : List ShmPosition}
    (hrows : rowsOf t = Function.update (rowsOf s) i rows)
    (hnew : Stacked (s.keyAt i) (hashSlot (defs i).m_hashSize) live l rows) :
    StackedAll t live (Function.update doneOf i l) := by
  intro j
  rw [hrows, hsame.keyAt]
  by_cases hj : j = i
  · subst hj
    rw [Function.update_self, Function.update_self]
    exact hnew
  · rw [Function.update_of_ne hj, Function.update_of_ne hj]
    exact h j

/-- One index of one record. -/
theorem StackedAll.insertIdx (h : StackedAll s live doneOf) (env : Env) (hnew : ¬ live a)
    (hdone : a ∉ doneOf i) (hrecord : s.record a = value) :
    let r := BaseTable.insertIdx env s i (getIndexKey i value) a
    SameRecords s r.1 ∧ r.1.tick = s.tick + 1 ∧
    (r.2 = none → StackedAll r.1 live (Function.update doneOf i (a :: doneOf i)) ∧
      ¬ Conflict s live (doneOf i) value i) ∧
    ∀ e, r.2 = some e → StackedAll r.1 live doneOf ∧
      (e = .index .uniqueConflict → Conflict s live (doneOf i) value i) := by
  have hkey : getIndexKey i value = s.keyAt i a := by
    rw [State.keyAt, hrecord]
  obtain ⟨hsame, htick, space, hok, hrefused⟩ :=
    insertIdx_rows env s i (getIndexKey i value) a
  refine ⟨hsame, htick, fun hnone => ?_, fun e he => ?_⟩
  · obtain ⟨rows, hins, hrows⟩ := hok hnone
    constructor
    · rw [hkey] at hins
      exact h.update hsame hrows ((h i).insert hnew hdone hins)
    · intro hconflict
      have hrefuse := hins.symm.trans ((h i).indexed.insert_conflict.mpr hconflict)
      cases hrefuse
  · obtain ⟨e', rfl, hins, hrows⟩ := hrefused e he
    refine ⟨h.congr hrows hsame fun _ => rfl, ?_⟩
    rintro ⟨⟩
    exact (h i).indexed.insert_conflict.mp hins

/-- The latest entry of one index is taken back while its record is in memory. -/
theorem StackedAll.deleteIdx (h : StackedAll s live doneOf) (hdone : doneOf i = a :: done)
    (hrecord : s.record a = value) :
    StackedAll (BaseTable.deleteIdx s i (getIndexKey i value) a) live
      (Function.update doneOf i done) := by
  have hkey : getIndexKey i value = s.keyAt i a := by
    rw [State.keyAt, hrecord]
  have hi := h i
  rw [hdone] at hi
  rw [hkey]
  refine h.update (deleteIdx_same s i _ a) (deleteIdx_rows s i _ a) ?_
  exact hi.delete (fun _ _ => rfl) (fun _ _ _ _ _ => rfl)

/-- The log of an insertion undone. -/
theorem StackedAll.undoInserted (env : Env) (is : List (Fin n)) (hnodup : is.Nodup)
    (h : StackedAll s live fun i => if i ∈ is then a :: done else done)
    (hrecord : s.record a = value) :
    ∃ t, undoIndexChange env (is.map fun i => .inserted i (getIndexKey i value) a) s = (t, none) ∧
      StackedAll t live (fun _ => done) ∧ SameRecords s t ∧ t.tick = s.tick := by
  induction is generalizing s with
  | nil => exact ⟨s, rfl, h.congr rfl ⟨rfl, rfl⟩ (by simp), ⟨rfl, rfl⟩, rfl⟩
  | cons i rest ih =>
      obtain ⟨hi, hrest⟩ := List.nodup_cons.mp hnodup
      have hdelete := h.deleteIdx (i := i) (by simp : _ = a :: done) hrecord
      have hnext : StackedAll (BaseTable.deleteIdx s i (getIndexKey i value) a) live
          fun j => if j ∈ rest then a :: done else done := by
        refine hdelete.congr rfl ⟨rfl, rfl⟩ fun j => ?_
        by_cases hj : j = i
        · subst hj
          simp [hi]
        · simp [hj]
      obtain ⟨t, hundo, ht, hsame, htick⟩ := ih hrest hnext hrecord
      exact ⟨t, hundo, ht, (deleteIdx_same s i _ a).trans hsame, htick⟩

/-- The loop of `insertAllIndex`, with the indexes `before` behind it. -/
theorem StackedAll.insertFrom (env : Env) (hnew : ¬ live a) (hdone : a ∉ done)
    (is before : List (Fin n)) (hnodup : (is ++ before).Nodup)
    (h : StackedAll s live fun i => if i ∈ before then a :: done else done)
    (hrecord : s.record a = value) :
    let r := BaseTable.insertFrom env value a is
      (before.map fun i => .inserted i (getIndexKey i value) a) s
    SameRecords s r.1 ∧
    (r.2 = none → r.1.tick = s.tick + is.length ∧ (∀ i ∈ is, ¬ Conflict s live done value i) ∧
      StackedAll r.1 live fun i => if i ∈ is ++ before then a :: done else done) ∧
    ∀ e, r.2 = some e → StackedAll r.1 live (fun _ => done) ∧ ∃ pre i post,
      is = pre ++ i :: post ∧ r.1.tick = s.tick + pre.length + 1 ∧
      (∀ j ∈ pre, ¬ Conflict s live done value j) ∧
      (e = .index .uniqueConflict → Conflict s live done value i) := by
  induction is generalizing s before with
  | nil => exact ⟨⟨rfl, rfl⟩, fun _ => ⟨rfl, by simp, h⟩, fun e he => by cases he⟩
  | cons i rest ih =>
      obtain ⟨hi, hrest⟩ := List.nodup_cons.mp hnodup
      have hibefore : i ∉ before := fun hmem => hi (List.mem_append_right rest hmem)
      have hidone : (if i ∈ before then a :: done else done) = done := if_neg hibefore
      obtain ⟨hsame, htick, hok, hrefused⟩ :=
        h.insertIdx (i := i) env hnew (by rwa [hidone]) hrecord
      rw [hidone] at hok hrefused
      simp only [BaseTable.insertFrom]
      rcases hins : BaseTable.insertIdx env s i (getIndexKey i value) a with ⟨s₁, _ | e⟩
      · rw [hins] at hsame htick hok
        obtain ⟨hstacked, hno⟩ := hok rfl
        have hnext : StackedAll s₁ live fun j => if j ∈ i :: before then a :: done else done := by
          refine hstacked.congr rfl ⟨rfl, rfl⟩ fun j => ?_
          by_cases hj : j = i
          · subst hj
            simp
          · simp [hj]
        have hnodup' : (rest ++ i :: before).Nodup :=
          (List.perm_middle.nodup_iff).mpr (List.nodup_cons.mpr ⟨hi, hrest⟩)
        obtain ⟨hsame', hok', hrefused'⟩ := ih (i :: before) hnodup' hnext
          (by rw [hsame.2, hrecord])
        simp only [Conflict.congr hsame] at hok' hrefused'
        refine ⟨hsame.trans hsame', fun hnone => ?_, fun e he => ?_⟩
        · obtain ⟨htick', hnone', hlast⟩ := hok' hnone
          refine ⟨?_, List.forall_mem_cons.mpr ⟨hno, hnone'⟩, hlast.congr rfl ⟨rfl, rfl⟩ fun j => ?_⟩
          · rw [List.map_cons] at htick'
            rw [htick', htick, List.length_cons]
            omega
          · have hmem : j ∈ i :: rest ++ before ↔ j ∈ rest ++ i :: before := by
              simp only [List.mem_append, List.mem_cons, List.cons_append]
              tauto
            simp only [hmem]
        · obtain ⟨hlast, pre, j, post, hsplit, htick', hpre, hj⟩ := hrefused' e he
          refine ⟨hlast, i :: pre, j, post, by rw [hsplit, List.cons_append], ?_,
            List.forall_mem_cons.mpr ⟨hno, hpre⟩, hj⟩
          rw [List.map_cons] at htick'
          rw [htick', htick, List.length_cons]
          omega
      · rw [hins] at hsame htick hrefused
        obtain ⟨hstacked, hconflict⟩ := hrefused e rfl
        have hbefore : before.Nodup := hrest.sublist (List.sublist_append_right rest before)
        obtain ⟨t, hundo, ht, hsame', htick'⟩ :=
          hstacked.undoInserted env before hbefore (by rw [hsame.2, hrecord])
        simp only [catchIndexError, hundo]
        refine ⟨hsame.trans hsame', by simp, ?_⟩
        rintro e' ⟨⟩
        exact ⟨ht, [], i, rest, rfl, by rw [htick', htick]; rfl, by simp, hconflict⟩

/-- The `i`-th index is at place `i`, and the ones before it are in front of it. -/
theorem finRange_split {pre post : List (Fin n)} (hsplit : List.finRange n = pre ++ i :: post) :
    pre.length = i ∧ ∀ j < i, j ∈ pre := by
  have hlength : pre.length = i := by
    have hget : (List.finRange n)[pre.length]? = some i := by simp [hsplit]
    obtain ⟨hlt, hget⟩ := List.getElem?_eq_some_iff.mp hget
    rw [List.getElem_finRange] at hget
    simpa using congrArg Fin.val hget
  refine ⟨hlength, fun j hj => ?_⟩
  have hat : (List.finRange n)[(j : Nat)]? = some j := by simp
  rw [hsplit, List.getElem?_append_left (by omega)] at hat
  exact List.mem_of_getElem? hat

/-- **One record of the batch.** -/
theorem StackedAll.insertAllIndex {td : TransData} (h : StackedAll s live fun _ => done) (env : Env)
    (hnew : ¬ live td.m_addr) (hdone : td.m_addr ∉ done)
    (hrecord : s.record td.m_addr = td.m_newRecordValue) :
    let r := BaseTable.insertAllIndex env s td false
    SameRecords s r.1 ∧
    (r.2 = none → r.1.tick = s.tick + n ∧
      (∀ i, ¬ Conflict s live done td.m_newRecordValue i) ∧
      StackedAll r.1 live fun _ => td.m_addr :: done) ∧
    ∀ e, r.2 = some e → StackedAll r.1 live (fun _ => done) ∧ ∃ i : Fin n,
      r.1.tick = s.tick + i + 1 ∧ (∀ j < i, ¬ Conflict s live done td.m_newRecordValue j) ∧
      (e = .index .uniqueConflict → Conflict s live done td.m_newRecordValue i) := by
  have hstart : StackedAll s live
      fun i => if i ∈ ([] : List (Fin n)) then td.m_addr :: done else done :=
    h.congr rfl ⟨rfl, rfl⟩ (by simp)
  obtain ⟨hsame, hok, hrefused⟩ := hstart.insertFrom env hnew hdone (List.finRange n) []
    (by simpa using List.nodup_finRange n) hrecord
  refine ⟨hsame, fun hnone => ?_, fun e he => ?_⟩
  · obtain ⟨htick, hno, hlast⟩ := hok hnone
    rw [List.length_finRange] at htick
    refine ⟨htick, fun i => hno i (List.mem_finRange i), ?_⟩
    exact hlast.congr rfl ⟨rfl, rfl⟩ (by simp)
  · obtain ⟨hlast, pre, i, post, hsplit, htick, hpre, hconflict⟩ := hrefused e he
    obtain ⟨hlength, hbefore⟩ := finRange_split hsplit
    exact ⟨hlast, i, by rw [← hlength]; exact htick, fun j hj => hpre j (hbefore j hj), hconflict⟩

/-! ## The batch -/

/-- The loop of `BaseTable::insert` that ends with an exception: where it ends, and what
it leaves. -/
theorem StackedAll.insertLoop {e : Error} (addrs : List ShmPosition)
    (before rest : List TransData) (h : StackedAll s live fun _ => before.map TransData.m_addr)
    (hnew : ∀ td ∈ rest, ¬ live td.m_addr)
    (hnodup : (rest.map TransData.m_addr ++ before.map TransData.m_addr).Nodup)
    (hrecord : ∀ td ∈ rest, s.record td.m_addr = td.m_newRecordValue)
    (hraised : (BaseTable.insertLoop env addrs before rest s).2 = some e) :
    ∃ earlier td later, ∃ i : Fin n, ∃ s₁, rest = earlier ++ td :: later ∧ SameRecords s s₁ ∧
      s₁.tick = s.tick + earlier.length * n + i + 1 ∧
      StackedAll s₁ live (fun _ => (earlier.reverse ++ before).map TransData.m_addr) ∧
      (BaseTable.insertLoop env addrs before rest s).1 = (earlier.reverse ++ before).foldl
        (fun s td => deleteAllIndex s td true) (addrs.foldl (freeTableMem env) s₁) ∧
      (e = .index .uniqueConflict → Conflict s live
        ((earlier.reverse ++ before).map TransData.m_addr) td.m_newRecordValue i) ∧
      (∀ j < i, ¬ Conflict s live
        ((earlier.reverse ++ before).map TransData.m_addr) td.m_newRecordValue j) ∧
      ∀ pre td' post, earlier = pre ++ td' :: post → ∀ j, ¬ Conflict s live
        ((pre.reverse ++ before).map TransData.m_addr) td'.m_newRecordValue j := by
  induction rest generalizing s before with
  | nil => cases hraised
  | cons td rest ih =>
      rw [List.map_cons, List.cons_append, List.nodup_cons] at hnodup
      obtain ⟨htd, hnodup⟩ := hnodup
      have htdbefore : td.m_addr ∉ before.map TransData.m_addr :=
        fun hmem => htd (List.mem_append_right _ hmem)
      obtain ⟨hsame, hok, hrefused⟩ := h.insertAllIndex env (hnew td List.mem_cons_self)
        htdbefore (hrecord td List.mem_cons_self)
      rw [BaseTable.insertLoop] at hraised ⊢
      rcases hins : BaseTable.insertAllIndex env s td false with ⟨s₁, _ | e'⟩
      · rw [hins] at hsame hok hraised
        obtain ⟨htick, hno, hstacked⟩ := hok rfl
        have hnodup' : (rest.map TransData.m_addr ++ (td :: before).map TransData.m_addr).Nodup :=
          (List.perm_middle.nodup_iff).mpr (List.nodup_cons.mpr ⟨htd, hnodup⟩)
        obtain ⟨earlier, td', later, i, s₂, hsplit, hsame', htick', hstacked', hleft, hconflict,
          hindexes, hrecords⟩ := ih (td :: before) hstacked
            (fun td' htd' => hnew td' (List.mem_cons_of_mem td htd')) hnodup'
            (fun td' htd' => by rw [hsame.2]; exact hrecord td' (List.mem_cons_of_mem td htd'))
            hraised
        have hbehind : ∀ l : List TransData, (td :: l).reverse ++ before = l.reverse ++ td :: before := by
          simp
        simp only [Conflict.congr hsame] at hconflict hindexes hrecords
        refine ⟨td :: earlier, td', later, i, s₂, by rw [hsplit, List.cons_append],
          hsame.trans hsame', ?_, ?_⟩
        · rw [htick', htick, List.length_cons, Nat.succ_mul]
          omega
        · rw [hbehind]
          refine ⟨hstacked', hleft, hconflict, hindexes, fun pre td'' post hpre => ?_⟩
          cases pre with
          | nil =>
              obtain ⟨rfl, -⟩ := List.cons.inj hpre
              exact hno
          | cons x pre =>
              obtain ⟨rfl, hrest⟩ := List.cons.inj hpre
              rw [hbehind]
              exact hrecords pre td'' post hrest
      · rw [hins] at hsame hrefused hraised
        obtain rfl : e' = e := by simpa using hraised
        obtain ⟨hstacked, i, htick, hindexes, hconflict⟩ := hrefused e' rfl
        refine ⟨[], td, rest, i, s₁, rfl, hsame, ?_, hstacked, rfl, hconflict, hindexes, by simp⟩
        rw [htick, List.length_nil, Nat.zero_mul]
        rfl

/-- Freeing slots asks the environment once for each. -/
theorem freeAll_tick (env : Env) (addrs : List ShmPosition) (s : State (hashTable n defs getIndexKey)) :
    (addrs.foldl (freeTableMem env) s).tick = s.tick + addrs.length := by
  induction addrs generalizing s with
  | nil => rfl
  | cons a rest ih =>
      rw [List.foldl_cons, ih, List.length_cons]
      exact Nat.add_right_comm s.tick 1 rest.length

/-- The bytes of a free slot are those that the last release leaves. -/
theorem freeAll_garbage (env : Env) (addrs : List ShmPosition) (hne : addrs ≠ [])
    (s : State (hashTable n defs getIndexKey))
    (ha : (addrs.foldl (freeTableMem env) s).live a = false) :
    (addrs.foldl (freeTableMem env) s).record a =
      env.garbage (s.tick + addrs.length - 1) a := by
  obtain ⟨front, last, rfl⟩ := (List.eq_nil_or_concat addrs).resolve_left hne
  rw [List.concat_eq_append] at ha ⊢
  rw [List.foldl_append, List.foldl_cons, List.foldl_nil, freeTableMem] at ha ⊢
  dsimp only at ha ⊢
  rw [ha, if_neg Bool.false_ne_true, freeAll_tick, List.length_append]
  rfl

/-- The memory once the slots of a batch are free again: the records from before are as they were,
and a slot of the batch has the bytes of the last release. -/
theorem freeAll_batch (env : Env) (addrs : List ShmPosition)
    (s₂ : State (hashTable n defs getIndexKey))
    (hlive : ∀ b, s₂.live b = true ↔ s.live b = true ∨ b ∈ addrs)
    (hfresh : ∀ b ∈ addrs, s.live b = false) :
    let t := addrs.foldl (freeTableMem env) s₂
    (∀ b, t.live b = s.live b) ∧ (∀ b, s.live b = true → t.record b = s₂.record b) ∧
      ∀ b ∈ addrs, t.record b = env.garbage (s₂.tick + addrs.length - 1) b := by
  obtain ⟨-, hrecord, -⟩ := freeAll_spec env addrs s₂
  have hsame := freeAll_live env addrs s₂ hlive hfresh
  refine ⟨hsame, fun b hb => hrecord b ((hsame b).trans hb), fun b hb => ?_⟩
  exact freeAll_garbage env addrs (List.ne_nil_of_mem hb) s₂ ((hsame b).trans (hfresh b hb))

/-- The deletions of one record, one for each index. -/
theorem deleteFrom_rows (value : Record) (a : ShmPosition) (is : List (Fin n)) (hnodup : is.Nodup)
    (s : State (hashTable n defs getIndexKey)) (i : Fin n) :
    rowsOf (deleteFrom value a is s) i = if i ∈ is then
      (IndexRows.deleteIdx (s.keyAt i) (hashSlot (defs i).m_hashSize) (rowsOf s i)
        (getIndexKey i value) a).2 else rowsOf s i := by
  induction is generalizing s with
  | nil => rfl
  | cons j rest ih =>
      obtain ⟨hj, hrest⟩ := List.nodup_cons.mp hnodup
      refine (ih hrest (deleteIdx s j (getIndexKey j value) a)).trans ?_
      rw [deleteIdx_rows]
      by_cases hi : i = j
      · subst hi
        simp [hj]
      · simp only [List.mem_cons, hi, false_or, Function.update_of_ne hi]
        rfl

/-- The entries of the earlier records are looked for in the memory that there is. -/
theorem takenBack_rows (s₀ : State (hashTable n defs getIndexKey)) (done : List TransData)
    (hrecord : ∀ td ∈ done, s₀.record td.m_addr = td.m_newRecordValue)
    (s : State (hashTable n defs getIndexKey)) :
    SameRecords s (done.foldl (fun s td => deleteAllIndex s td true) s) ∧
    ∀ i : Fin n, rowsOf (done.foldl (fun s td => deleteAllIndex s td true) s) i =
      IndexRows.takeBack (s₀.keyAt i) (s.keyAt i) (hashSlot (defs i).m_hashSize)
        (done.map TransData.m_addr) (rowsOf s i) := by
  induction done generalizing s with
  | nil => exact ⟨⟨rfl, rfl⟩, fun _ => rfl⟩
  | cons td rest ih =>
      have hone : SameRecords s (deleteAllIndex s td true) := by
        have hsame : ∀ (is : List (Fin n)) (s : State (hashTable n defs getIndexKey)),
            SameRecords s (deleteFrom (td.value true) td.m_addr is s) := by
          intro is
          induction is with
          | nil => exact fun s => ⟨rfl, rfl⟩
          | cons i is ih => exact fun s => (deleteIdx_same s i _ td.m_addr).trans (ih _)
        exact hsame _ s
      obtain ⟨hsame, hrows⟩ := ih (fun td' htd' => hrecord td' (List.mem_cons_of_mem td htd'))
        (deleteAllIndex s td true)
      refine ⟨hone.trans hsame, fun i => (hrows i).trans ?_⟩
      have hfirst := deleteFrom_rows (td.value true) td.m_addr (List.finRange n)
        (List.nodup_finRange n) s i
      rw [if_pos (List.mem_finRange i)] at hfirst
      have hkey : getIndexKey i (td.value true) = s₀.keyAt i td.m_addr := by
        rw [State.keyAt, hrecord td List.mem_cons_self]
        rfl
      rw [hkey] at hfirst
      rw [hone.keyAt, IndexRows.takeBack, IndexRows.takeBack, List.map_cons, List.foldl_cons,
        ← hfirst]
      rfl

/-! ## The conflict and the first keys -/

/-- What the loop meets as a conflict is a key of the table or of an earlier record. -/
theorem conflict_iff {pre : List TransData} {td : TransData} (hlive : ∀ b, s.live b = true →
      t.record b = s.record b) (hrecord : ∀ td ∈ pre, t.record td.m_addr = td.m_newRecordValue) :
    Conflict t (fun b => s.live b = true) (pre.reverse.map TransData.m_addr)
      td.m_newRecordValue i ↔ Taken s pre td i := by
  refine and_congr_right fun _ => ?_
  constructor
  · rintro ⟨b, hb | hb, hkey⟩
    · exact .inl ⟨b, hb, by rwa [State.keyAt, hlive b hb] at hkey⟩
    · obtain ⟨td', htd', rfl⟩ := List.mem_map.mp hb
      rw [List.mem_reverse] at htd'
      exact .inr ⟨td', htd', by rwa [State.keyAt, hrecord td' htd'] at hkey⟩
  · rintro (⟨b, hb, hkey⟩ | ⟨td', htd', hkey⟩)
    · exact ⟨b, .inl hb, by rwa [State.keyAt, hlive b hb]⟩
    · refine ⟨td'.m_addr, .inr (List.mem_map_of_mem (List.mem_reverse.mpr htd')), ?_⟩
      rwa [State.keyAt, hrecord td' htd']

/-- A first conflict is not behind another one. -/
theorem FirstConflict.unique_of_append {transDatas earlier earlier' later later' as : List TransData}
    {td td' : TransData} {i i' : Fin n} (h : FirstConflict s transDatas earlier td i)
    (h' : FirstConflict s transDatas earlier' td' i') (hearlier : earlier' = earlier ++ as)
    (hrest : td :: later = as ++ td' :: later') : earlier' = earlier ∧ i' = i := by
  cases as with
  | nil =>
      rw [List.append_nil] at hearlier
      obtain rfl := hearlier
      obtain rfl := (List.cons.inj hrest).1
      refine ⟨rfl, ?_⟩
      rcases lt_trichotomy i i' with hlt | heq | hlt
      · exact absurd h.taken (h'.indexes i hlt)
      · exact heq.symm
      · exact absurd h'.taken (h.indexes i' hlt)
  | cons x as =>
      obtain ⟨rfl, -⟩ := List.cons.inj hrest
      exact absurd h.taken (h'.records earlier td as hearlier i)

/-- There is one first conflict. -/
theorem FirstConflict.unique {transDatas earlier earlier' : List TransData} {td td' : TransData}
    {i i' : Fin n} (h : FirstConflict s transDatas earlier td i)
    (h' : FirstConflict s transDatas earlier' td' i') : earlier' = earlier ∧ i' = i := by
  obtain ⟨later, hbatch⟩ := h.batch
  obtain ⟨later', hbatch'⟩ := h'.batch
  rcases List.append_eq_append_iff.mp (hbatch.symm.trans hbatch') with
    ⟨as, hearlier, hrest⟩ | ⟨as, hearlier, hrest⟩
  · exact h.unique_of_append h' hearlier hrest
  · exact (h'.unique_of_append h hearlier hrest).imp Eq.symm Eq.symm

/-- What is said of every first conflict is said of the one that there is. -/
theorem FirstConflict.forall_iff {transDatas earlier : List TransData} {addrs : List ShmPosition}
    {td : TransData} (hmem : env.tableMem s.tick = some addrs)
    (h : FirstConflict s (placed transDatas addrs) earlier td i)
    (P : List ShmPosition → List TransData → Fin n → Prop) :
    (∀ addrs earlier td i, env.tableMem s.tick = some addrs →
      FirstConflict s (placed transDatas addrs) earlier td i → P addrs earlier i) ↔
        P addrs earlier i := by
  constructor
  · exact fun hall => hall addrs earlier td i hmem h
  · intro hone addrs' earlier' td' i' hmem' h'
    obtain rfl : addrs' = addrs := Option.some.inj (hmem'.symm.trans hmem)
    obtain ⟨rfl, rfl⟩ := h.unique h'
    exact hone

/-- The openers of the rows are the records that were first with their keys. -/
theorem openersRead_iff {earlier : List TransData} (hlive : ∀ b, s.live b = true →
      t.record b = s.record b) (hrecord : ∀ td ∈ earlier, t.record td.m_addr = td.m_newRecordValue)
    (freed : ShmPosition → Record) :
    OpenersRead (t.keyAt i) (fun b => getIndexKey i (freed b)) (fun b => s.live b = true)
        (earlier.reverse.map TransData.m_addr) ↔
      ∀ front td later, earlier = front ++ td :: later →
        (∀ b, s.live b = true → s.keyAt i b ≠ getIndexKey i td.m_newRecordValue) →
        (∀ td' ∈ front,
          getIndexKey i td'.m_newRecordValue ≠ getIndexKey i td.m_newRecordValue) →
        getIndexKey i (freed td.m_addr) = getIndexKey i td.m_newRecordValue := by
  have hkeys : ∀ td ∈ earlier, t.keyAt i td.m_addr = getIndexKey i td.m_newRecordValue := by
    intro td htd
    rw [State.keyAt, hrecord td htd]
  have hold : ∀ b, s.live b = true → t.keyAt i b = s.keyAt i b := by
    intro b hb
    rw [State.keyAt, State.keyAt, hlive b hb]
  constructor
  · rintro hread front td later rfl hnew hfirst
    have htd := hkeys td (by simp)
    rw [← htd]
    refine hread (later.reverse.map TransData.m_addr) td.m_addr (front.reverse.map TransData.m_addr)
      (by simp) ⟨fun b hb => ?_, fun b hb => ?_⟩
    · rw [hold b hb, htd]
      exact hnew b hb
    · obtain ⟨td', htd', rfl⟩ := List.mem_map.mp hb
      rw [List.mem_reverse] at htd'
      rw [hkeys td' (by simp [htd']), htd]
      exact hfirst td' htd'
  · intro hstay later a front hsplit hopens
    obtain ⟨l₁, l₂, hl, -, hl₂⟩ := List.map_eq_append_iff.mp hsplit
    obtain ⟨td, l₃, rfl, rfl, rfl⟩ := List.map_eq_cons_iff.mp hl₂
    have hearlier : earlier = l₃.reverse ++ td :: l₁.reverse := by
      simpa using congrArg List.reverse hl
    have htd := hkeys td (by simp [hearlier])
    rw [htd]
    refine hstay l₃.reverse td l₁.reverse hearlier (fun b hb => ?_) (fun td' htd' => ?_)
    · rw [← htd, ← hold b hb]
      exact hopens.1 b hb
    · rw [List.mem_reverse] at htd'
      rw [← htd, ← hkeys td' (by simp [hearlier, htd'])]
      exact hopens.2 _ (List.mem_map_of_mem htd')

/-- What an index answers when it has exactly the live records under their keys. -/
theorem select_iff (h : IndexRows.WellIndexed (s.keyAt i) (hashSlot (defs i).m_hashSize)
      (fun b => s.live b = true) (rowsOf s i)) (k : Key) (a : ShmPosition) :
    a ∈ s.select i k ↔ s.live a = true ∧ s.keyAt i a = k :=
  (h.select_spec k).2 a

/-- Taking slots asks the environment once. -/
theorem allocateTableMem_tick {addrs : List ShmPosition} {m : Nat}
    (h : allocateTableMem env s m = (t, some addrs)) :
    env.tableMem s.tick = some addrs ∧ t.tick = s.tick + 1 := by
  unfold allocateTableMem at h
  cases hmem : env.tableMem s.tick with
  | none => simp [hmem] at h
  | some answer =>
      simp only [hmem] at h
      split at h
      · obtain ⟨rfl, haddrs⟩ := Prod.mk.inj h
        exact ⟨haddrs, rfl⟩
      · simp at h

/-- Copying the records does not ask the environment. -/
theorem copyRecords_tick (tds : List TransData) (s : State (hashTable n defs getIndexKey)) :
    (copyRecords s tds).tick = s.tick := by
  induction tds generalizing s with
  | nil => rfl
  | cons td rest ih => exact ih _

/-- A batch that meets a conflict ends at the first one, and the records before it are taken back
from the memory whose slots are free again. -/
theorem insert_raised (hcons : Consistent s) {transDatas : List TransData}
    (hraised : (insert env s transDatas).2.2 = some (.index .uniqueConflict)) :
    ∃ addrs earlier td i, ∃ s₁ s₂ : State (hashTable n defs getIndexKey),
      Prepared s s₁ transDatas addrs ∧ env.tableMem s.tick = some addrs ∧
      FirstConflict s (placed transDatas addrs) earlier td i ∧ SameRecords s₁ s₂ ∧
      s₂.tick = s.tick + 1 + earlier.length * n + i + 1 ∧
      StackedAll s₂ (fun b => s.live b = true) (fun _ => earlier.reverse.map TransData.m_addr) ∧
      (insert env s transDatas).1 = earlier.reverse.foldl (fun s td => deleteAllIndex s td true)
        (addrs.foldl (freeTableMem env) s₂) := by
  rcases halloc : allocateTableMem env s transDatas.length with ⟨s', _ | addrs⟩
  · simp [insert, halloc] at hraised
  have hprep := prepared halloc
  obtain ⟨hmem, htick'⟩ := allocateTableMem_tick halloc
  have htick₁ := copyRecords_tick (placed transDatas addrs) s'
  generalize hs₁ : copyRecords s' (placed transDatas addrs) = s₁ at hprep htick₁
  have hstart : StackedAll s₁ (fun b => s.live b = true)
      fun _ => ([] : List TransData).map TransData.m_addr :=
    fun i => Stacked.nil (hprep.holds hcons i).1
  have hloop : (insertLoop env addrs [] (placed transDatas addrs) s₁).2 =
        some (.index .uniqueConflict) ∧
      (insert env s transDatas).1 = (insertLoop env addrs [] (placed transDatas addrs) s₁).1 := by
    simp only [insert, halloc, hs₁] at hraised ⊢
    rcases hl : insertLoop env addrs [] (placed transDatas addrs) s₁ with ⟨s₂, _ | e⟩
    · simp [hl] at hraised
    · rw [hl] at hraised
      exact ⟨hraised, rfl⟩
  obtain ⟨hend, hinsert⟩ := hloop
  obtain ⟨earlier, td, later, i, s₂, hbatch, hsame, htick, hstacked, hleft, hconflict, hindexes,
    hrecords⟩ := hstart.insertLoop addrs [] (placed transDatas addrs) hprep.not_live
      (by simpa [hprep.length] using hprep.nodup) hprep.record hend
  have hplaced : ∀ td ∈ earlier, s₁.record td.m_addr = td.m_newRecordValue :=
    fun td htd => hprep.record td (by simp [hbatch, htd])
  simp only [List.append_nil] at hstacked hleft hconflict hindexes hrecords
  refine ⟨addrs, earlier, td, i, s₁, s₂, hprep, hmem, ⟨⟨later, hbatch⟩, ?_, fun j hj => ?_,
    fun pre td' post hpre j => ?_⟩, hsame, by rw [htick, htick₁, htick'], hstacked,
    hinsert.trans hleft⟩
  · exact (conflict_iff hprep.record_of_live hplaced).mp (hconflict trivial)
  · exact fun htaken => hindexes j hj ((conflict_iff hprep.record_of_live hplaced).mpr htaken)
  · refine fun htaken => hrecords pre td' post hpre j
      ((conflict_iff hprep.record_of_live ?_).mpr htaken)
    exact fun td'' htd'' => hplaced td'' (by simp [hpre, htd''])

/-- **A failed batch of insertions.**  After a conflict the table is as it was exactly when,
in every index, the records that were first with their key still read as that key in their
freed slots. -/
theorem insert_restores_iff (env : Env) (s : State (hashTable n defs getIndexKey))
    (transDatas : List TransData) (hcons : Consistent s)
    (hraised : (insert env s transDatas).2.2 = some (.index .uniqueConflict)) :
    AsBefore s (insert env s transDatas).1 ↔
      ∀ addrs earlier td i, env.tableMem s.tick = some addrs →
        FirstConflict s (placed transDatas addrs) earlier td i →
        FirstKeysStay s earlier
          (env.garbage (s.tick + earlier.length * n + i + addrs.length + 1)) := by
  obtain ⟨addrs, earlier, td, i, s₁, s₂, hprep, hmem, hfirst, hsame, htick, hstacked, hleft⟩ :=
    insert_raised hcons hraised
  obtain ⟨later, hbatch⟩ := hfirst.batch
  have hlive₁ := hprep.record_of_live
  have hplaced : ∀ td ∈ earlier, s₁.record td.m_addr = td.m_newRecordValue :=
    fun td htd => hprep.record td (by simp [hbatch, htd])
  -- the memory in which the entries are looked for
  have hcontent := (freeAll_spec env addrs s₂).2.2
  obtain ⟨hlive', hkept, hgarbage⟩ := freeAll_batch env addrs s₂
    (fun b => by rw [hsame.1, hprep.live]) hprep.fresh
  rw [hsame.2] at hkept
  have hlast : s₂.tick + addrs.length - 1 =
      s.tick + earlier.length * n + i + addrs.length + 1 := by omega
  rw [hlast] at hgarbage
  generalize addrs.foldl (freeTableMem env) s₂ = freed at hleft hcontent hlive' hkept hgarbage
  obtain ⟨hsame', hrows⟩ := takenBack_rows s₁ earlier.reverse
    (fun td htd => hplaced td (List.mem_reverse.mp htd)) freed
  rw [← hleft] at hsame' hrows
  generalize (insert env s transDatas).1 = t at hsame' hrows ⊢
  have hfreedRows : ∀ j, rowsOf freed j = rowsOf s₂ j := by
    intro j
    unfold rowsOf
    rw [hcontent]
  have hreads : ∀ j, (∀ slot, ∀ a ∈ IndexRows.flat (rowsOf t j slot), s.live a = true) ↔
      OpenersRead (s₁.keyAt j) (freed.keyAt j) (fun b => s.live b = true)
        (earlier.reverse.map TransData.m_addr) := by
    intro j
    have hj := hstacked j
    rw [hsame.keyAt] at hj
    rw [hrows, hfreedRows]
    refine hj.takeBack_iff fun b hb => ?_
    rw [State.keyAt, State.keyAt, hkept b hb]
  have hstay : (∀ j, OpenersRead (s₁.keyAt j) (freed.keyAt j) (fun b => s.live b = true)
        (earlier.reverse.map TransData.m_addr)) ↔
      FirstKeysStay s earlier
        (env.garbage (s.tick + earlier.length * n + i + addrs.length + 1)) := by
    unfold FirstKeysStay
    refine forall_congr' fun j => (openersRead_iff hlive₁ hplaced freed.record).trans ?_
    refine forall_congr' fun front => forall_congr' fun td' => forall_congr' fun later' =>
      forall_congr' fun hsplit => ?_
    have haddr : td'.m_addr ∈ addrs := by
      rw [← hprep.length, hbatch, hsplit]
      exact List.mem_map_of_mem (by simp)
    rw [hgarbage td'.m_addr haddr]
  have hcondition := hfirst.forall_iff hmem fun addrs earlier i => FirstKeysStay s earlier
    (env.garbage (s.tick + earlier.length * n + i + addrs.length + 1))
  have hliveT : ∀ a, t.live a = s.live a := by
    intro a
    rw [hsame'.1, hlive']
  rw [hcondition, ← hstay]
  constructor
  · intro h j
    refine (hreads j).mp fun slot a ha => ?_
    rw [← hliveT]
    exact h.noFree j slot a ha
  · intro h
    refine ⟨fun j k a => ?_, fun j slot a ha => ?_, hliveT⟩
    · have hj := hstacked j
      rw [hsame.keyAt] at hj
      have hkeys : ∀ b, s.live b = true → t.keyAt j b = s₁.keyAt j b := by
        intro b hb
        rw [hsame'.keyAt, State.keyAt, State.keyAt, hkept b hb]
      have hread : ∀ b, s.live b = true → freed.keyAt j b = s₁.keyAt j b := by
        intro b hb
        rw [State.keyAt, State.keyAt, hkept b hb]
      have hwell := hj.takeBack hread (h j)
      rw [← hfreedRows, ← hrows] at hwell
      rw [select_iff ((hwell.congr hkeys).of_iff fun b => by rw [hliveT]), select_iff (hcons j).1,
        hliveT]
      refine and_congr_right fun ha => ?_
      rw [hkeys a ha, State.keyAt, State.keyAt, hlive₁ a ha]
    · rw [hliveT]
      exact (hreads j).mpr (h j) slot a ha

/-! ## Two records with one key -/

/-- One unique index on a column of one byte at the offset. -/
abbrev byteTable (offSet : Nat) : Table :=
  hashTable 1 (fun _ => ⟨1, 8, true⟩) fun _ r => (r.drop offSet).take 1

def emptyTable (offSet : Nat) : State (byteTable offSet) where
  live _ := false
  record _ := []
  content _ := ⟨fun _ => [], 8⟩
  m_recordNum := 0
  tick := 0

/-- A free list of two slots: the first 8 bytes of a free slot are its `m_next`. -/
def twoLinked : Env where
  tableMem _ := some [slot 0, slot 1]
  idxMem _ := true
  garbage _ a := (if a = slot 0 then [16, 0, 0, 0, 0, 0, 0, 0] else List.replicate 8 255) ++ [1]

/-- The columns at the offsets 0 and 8 are both 1. -/
def twoOnes : List TransData :=
  let value : Record := [1, 0, 0, 0, 0, 0, 0, 0, 1]
  [⟨nullShmPos, [], value, .insert⟩, ⟨nullShmPos, [], value, .insert⟩]

/-- The indexes of an empty table are empty. -/
theorem emptyTable_consistent (offSet : Nat) : Consistent (emptyTable offSet) := by
  refine fun i => ⟨⟨fun j => ?_, fun a => ?_⟩, fun _ a b ha => by cases ha⟩
  · exact ⟨by simp [emptyTable], by simp [emptyTable], List.Pairwise.nil, List.nodup_nil⟩
  · simp [emptyTable]

/-- With the key behind the link, a refused batch leaves no trace. -/
theorem insert_restores_iff_keyBehindLink :
    AsBefore (emptyTable 8) (insert twoLinked (emptyTable 8) twoOnes).1 := by
  refine (insert_restores_iff twoLinked (emptyTable 8) twoOnes (emptyTable_consistent 8)
    (by decide)).mpr ?_
  rintro addrs earlier td i ⟨⟩ hfirst j front td' later hsplit - -
  obtain ⟨rest, hbatch⟩ := hfirst.batch
  have hmem : td' ∈ placed twoOnes [slot 0, slot 1] := by
    rw [hbatch, hsplit]
    simp
  have hall : ∀ td ∈ placed twoOnes [slot 0, slot 1],
      ((twoLinked.garbage 0 td.m_addr).drop 8).take 1 = (td.m_newRecordValue.drop 8).take 1 := by
    decide
  exact hall td' hmem

/-- With the key column at offset 0 the first record reads as 16 when its entry is looked
for.  The index keeps the address of a free slot. -/
theorem insert_not_restored :
    ∃ (n : Nat) (defs : Fin n → HashIndexDef) (getIndexKey : Fin n → Record → Key) (env : Env)
      (s : State (hashTable n defs getIndexKey)) (transDatas : List TransData), Consistent s ∧
      (insert env s transDatas).2.2 = some (.index .uniqueConflict) ∧
      ¬ AsBefore s (insert env s transDatas).1 := by
  refine ⟨1, _, _, twoLinked, emptyTable 0, twoOnes, emptyTable_consistent 0, by decide,
    fun hbefore => ?_⟩
  have hleft : slot 0 ∈
      IndexRows.flat (rowsOf (insert twoLinked (emptyTable 0) twoOnes).1 0 0) := by decide
  have hlive := hbefore.noFree 0 0 (slot 0) hleft
  rw [hbefore.live] at hlive
  cases hlive

end BaseTable
