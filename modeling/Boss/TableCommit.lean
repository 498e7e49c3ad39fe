import Boss.BaseTable

/-!
# Hash indexes under a commit

`hashIndex` makes the rows of `IndexRows` an index of a table.  `Consistent` says that every
index of a state indexes its live records, and `Prepared` what `BaseTable::insert` has done
before the first index is asked: slots that nobody uses are live and hold the records.

* `allocateTableMem_spec`, `freeAll_spec`: what taking and giving back slots changes.
* `prepared`: the state between `allocateTableMem` and the indexes.
* `commit_not_restored`: a commit that fails and does not bring the table back.
-/

namespace BaseTable

open IndexRows (InsertError WellIndexed)

/-! ## Hash indexes -/

/-- The rows of a hash index and its idle buckets. -/
structure HashContent where
  rows : IndexRows.Rows ShmPosition
  idle : Nat

/-- The slot of a key. -/
def hashSlot (m_hashSize : Nat) (k : Key) : Nat := (IndexHash.hash k).toNat % m_hashSize

/-- `IndexHash` as an index of a table; a page holds `perPage` buckets. -/
def hashIndex (m_hashSize perPage : Nat) (m_isUnique : Bool) : Index where
  Content := HashContent
  select keyOf c k :=
    IndexRows.select keyOf (hashSlot m_hashSize) c.rows k
  insert keyOf page c k a :=
    match IndexRows.insert keyOf (hashSlot m_hashSize) m_isUnique
      (decide (0 < c.idle) || page) c.rows k a with
    | .ok rows => .ok ⟨rows, (if 0 < c.idle then c.idle else perPage) - 1⟩
    | .error e => .error e
  deleteIdx keyOf c k a :=
    let r := IndexRows.deleteIdx keyOf (hashSlot m_hashSize) c.rows k a
    ⟨r.2, if r.1 then c.idle + 1 else c.idle⟩
  Indexes keyOf live c :=
    WellIndexed keyOf (hashSlot m_hashSize) live c.rows ∧
      (m_isUnique = true → ∀ a b, live a → live b → keyOf a = keyOf b → a = b)
  congr := by
    intro keyOf keyOf' live live' c h hlive hkeys
    refine ⟨(h.1.congr hkeys).of_iff hlive, ?_⟩
    intro hunique a b ha hb hkey
    rw [hlive] at ha hb
    rw [hkeys a ha, hkeys b hb] at hkey
    exact h.2 hunique a b ha hb hkey
  select_spec := by
    intro keyOf live c h k a
    exact (h.1.select_spec k).2 a

/-! ## What the indexes hold -/

variable {tbl : Table} {env : Env} {s t : State tbl} {a : ShmPosition}

/-- The `i`-th index holds the addresses of `held i`. -/
def Holds (s : State tbl) (held : Fin tbl.m_indexNum → ShmPosition → Prop) : Prop :=
  ∀ i, (tbl.index i).Indexes (s.keyAt i) (held i) (s.content i)

/-- Every index holds the live records. -/
def Consistent (s : State tbl) : Prop := Holds s fun _ a => s.live a = true

/-- Nothing but the indexes changes. -/
def SameRecords (s t : State tbl) : Prop := t.live = s.live ∧ t.record = s.record

theorem SameRecords.trans {r : State tbl} (h : SameRecords s t) (h' : SameRecords t r) :
    SameRecords s r := ⟨h'.1.trans h.1, h'.2.trans h.2⟩

theorem SameRecords.keyAt (h : SameRecords s t) : t.keyAt = s.keyAt := by
  funext i a
  unfold State.keyAt
  rw [h.2]

/-- The same contents, records and sets of addresses, as far as they matter. -/
theorem Holds.congr {held held' : Fin tbl.m_indexNum → ShmPosition → Prop} (h : Holds s held)
    (hcontent : t.content = s.content) (hrecord : ∀ i b, held i b → t.record b = s.record b)
    (hiff : ∀ i b, held' i b ↔ held i b) : Holds t held' := by
  intro i
  rw [hcontent]
  refine (tbl.index i).congr (h i) (hiff i) ?_
  intro b hb
  unfold State.keyAt
  rw [hrecord i b hb]

theorem deleteIdx_same (s : State tbl) (i : Fin tbl.m_indexNum) (k : Key) (a : ShmPosition) :
    SameRecords s (deleteIdx s i k a) := ⟨rfl, rfl⟩

/-! ## Slots -/

/-- Freeing slots: the other records stay. -/
theorem freeAll_spec (env : Env) (addrs : List ShmPosition) (s : State tbl) :
    let t := addrs.foldl (freeTableMem env) s
    (∀ b, t.live b = true ↔ s.live b = true ∧ b ∉ addrs) ∧
    (∀ b, t.live b = true → t.record b = s.record b) ∧ t.content = s.content := by
  induction addrs generalizing s with
  | nil => simp
  | cons a rest ih =>
      obtain ⟨hlive, hrecord, hcontent⟩ := ih (freeTableMem env s a)
      have hone : ∀ b, (freeTableMem env s a).live b = true ↔ s.live b = true ∧ b ≠ a := by
        intro b
        by_cases hb : b = a
        · simp [freeTableMem, hb]
        · simp [freeTableMem, hb]
      simp only [List.foldl_cons]
      refine ⟨fun b => ?_, fun b hb => ?_, hcontent⟩
      · rw [hlive, hone, List.mem_cons, not_or, and_assoc]
      · rw [hrecord b hb]
        have hb' : (freeTableMem env s a).live b = true := ((hlive b).mp hb).1
        unfold freeTableMem at hb' ⊢
        dsimp only at hb' ⊢
        rw [if_pos hb']

/-- What is live but for the slots of a batch, when these were free. -/
theorem live_and_notMem_iff {addrs : List ShmPosition} (hfresh : ∀ a ∈ addrs, s.live a = false)
    (b : ShmPosition) :
    (s.live b = true ∨ b ∈ addrs) ∧ b ∉ addrs ↔ s.live b = true := by
  constructor
  · rintro ⟨hb | hb, hnot⟩
    · exact hb
    · exact absurd hb hnot
  · intro hb
    refine ⟨.inl hb, fun hmem => ?_⟩
    rw [hfresh b hmem] at hb
    cases hb

/-- The live slots of before are left when the slots of a batch are free again. -/
theorem freeAll_live (env : Env) (addrs : List ShmPosition) {s : State tbl} (t : State tbl)
    (hlive : ∀ b, t.live b = true ↔ s.live b = true ∨ b ∈ addrs)
    (hfresh : ∀ b ∈ addrs, s.live b = false) (b : ShmPosition) :
    (addrs.foldl (freeTableMem env) t).live b = s.live b := by
  rw [Bool.eq_iff_iff, (freeAll_spec env addrs t).1, hlive]
  exact live_and_notMem_iff hfresh b

/-! ## The insertions -/

/-- What `memcpy` of records to different slots leaves. -/
theorem copyRecords_spec (tds : List TransData) (s : State tbl)
    (hnodup : (tds.map TransData.m_addr).Nodup) :
    (copyRecords s tds).live = s.live ∧ (copyRecords s tds).content = s.content ∧
    (∀ td ∈ tds, (copyRecords s tds).record td.m_addr = td.m_newRecordValue) ∧
    ∀ b, b ∉ tds.map TransData.m_addr → (copyRecords s tds).record b = s.record b := by
  induction tds generalizing s with
  | nil => exact ⟨rfl, rfl, by simp, fun _ _ => rfl⟩
  | cons td rest ih =>
      obtain ⟨htd, hnodup'⟩ := List.nodup_cons.mp hnodup
      obtain ⟨hlive, hcontent, hmem, hother⟩ := ih (s.memcpy td.m_addr td.m_newRecordValue) hnodup'
      refine ⟨hlive, hcontent, ?_, ?_⟩
      · intro td' htd'
        rcases List.mem_cons.mp htd' with rfl | htd'
        · refine (hother td'.m_addr htd).trans ?_
          simp [State.memcpy]
        · exact hmem td' htd'
      · intro b hb
        rw [List.map_cons, List.mem_cons, not_or] at hb
        refine (hother b hb.2).trans ?_
        simp [State.memcpy, hb.1]

theorem placed_addr (tds : List TransData) (addrs : List ShmPosition)
    (hlength : addrs.length = tds.length) : (placed tds addrs).map TransData.m_addr = addrs := by
  induction tds generalizing addrs with
  | nil =>
      obtain rfl := List.length_eq_zero_iff.mp hlength
      rfl
  | cons td rest ih =>
      cases addrs with
      | nil => simp at hlength
      | cons a addrs =>
          have hrest := ih addrs (by simpa using hlength)
          simpa [placed] using hrest

/-- New slots are new. -/
theorem allocateTableMem_spec {n : Nat} {s' : State tbl} {addrs : List ShmPosition}
    (h : allocateTableMem env s n = (s', some addrs)) :
    addrs.length = n ∧ addrs.Nodup ∧ (∀ a ∈ addrs, s.live a = false) ∧
    (∀ b, s'.live b = true ↔ s.live b = true ∨ b ∈ addrs) ∧ s'.record = s.record ∧
    s'.content = s.content := by
  unfold allocateTableMem at h
  cases hmem : env.tableMem s.tick with
  | none => simp [hmem] at h
  | some answer =>
      simp only [hmem] at h
      split at h
      · rename_i hok
        obtain ⟨rfl, haddrs⟩ := Prod.mk.inj h
        obtain rfl := Option.some.inj haddrs
        exact ⟨hok.1, hok.2.1, hok.2.2, by simp, rfl, rfl⟩
      · simp at h

/-- The records of the batch in memory, before the first index is touched. -/
structure Prepared (s s' : State tbl) (tds : List TransData) (addrs : List ShmPosition) : Prop where
  length : (placed tds addrs).map TransData.m_addr = addrs
  nodup : addrs.Nodup
  fresh : ∀ a ∈ addrs, s.live a = false
  live : ∀ b, s'.live b = true ↔ s.live b = true ∨ b ∈ addrs
  record : ∀ td ∈ placed tds addrs, s'.record td.m_addr = td.m_newRecordValue
  other : ∀ b, b ∉ addrs → s'.record b = s.record b
  content : s'.content = s.content

theorem prepared {s' : State tbl} {tds : List TransData} {addrs : List ShmPosition}
    (h : allocateTableMem env s tds.length = (s', some addrs)) :
    Prepared s (copyRecords s' (placed tds addrs)) tds addrs := by
  obtain ⟨hlength, hnodup, hfresh, hlive, hrecord, hcontent⟩ := allocateTableMem_spec h
  have haddr := placed_addr tds addrs hlength
  obtain ⟨hlive', hcontent', hmem, hother⟩ :=
    copyRecords_spec (placed tds addrs) s' (by rwa [haddr])
  refine ⟨haddr, hnodup, hfresh, fun b => ?_, hmem, fun b hb => ?_, hcontent'.trans hcontent⟩
  · rw [hlive', hlive]
  · rw [hother b (by rwa [haddr]), hrecord]

theorem Prepared.record_of_live {s' : State tbl} {tds : List TransData} {addrs : List ShmPosition}
    (h : Prepared s s' tds addrs) (b : ShmPosition) (hb : s.live b = true) :
    s'.record b = s.record b := by
  refine h.other b fun hmem => ?_
  rw [h.fresh b hmem] at hb
  cases hb

theorem Prepared.not_live {s' : State tbl} {tds : List TransData} {addrs : List ShmPosition}
    (h : Prepared s s' tds addrs) : ∀ td ∈ placed tds addrs, ¬ s.live td.m_addr = true := by
  intro td htd
  have hmem : td.m_addr ∈ addrs := h.length ▸ List.mem_map_of_mem htd
  simp [h.fresh _ hmem]

theorem Prepared.holds {s' : State tbl} {tds : List TransData} {addrs : List ShmPosition}
    (h : Prepared s s' tds addrs) (hcons : Consistent s) :
    Holds s' fun _ b => s.live b = true := by
  refine Holds.congr hcons h.content (fun i b hb => h.other b fun hmem => ?_) (fun _ _ => Iff.rfl)
  simp [h.fresh b hmem] at hb

/-! ## The commit -/

/-- What the claimants of a transaction see of a table: the live records, their bytes
and the answers of the indexes. -/
structure SameContent (s t : State tbl) : Prop where
  live : ∀ a, t.live a = s.live a
  record : ∀ a, s.live a = true → t.record a = s.record a
  select : ∀ i k a, a ∈ t.select i k ↔ a ∈ s.select i k

/-- The records that a transaction deletes or updates are live, and their old values are
what is in memory. -/
def Current (s : State tbl) (transDatas : List TransData) : Prop :=
  ∀ td ∈ transDatas, td.m_operType = .delete ∨ td.m_operType = .update →
    s.live td.m_addr = true ∧ s.record td.m_addr = td.m_oldRecordValue

/-! ## A run on a table with one unique index -/

/-- Slots of a table space. -/
def slot (n : Nat) : ShmPosition := ⟨1, 16 * n⟩

/-- A table whose records are keys, with one unique hash index of one slot. -/
def keyTable : Table where
  m_indexNum := 1
  index _ := hashIndex 1 8 true
  getIndexKey _ r := r

/-- Slot 0 holds the record 1 and slot 1 the record 2. -/
def twoRecords : State keyTable where
  live a := decide (a = slot 0 ∨ a = slot 1)
  record a := if a = slot 0 then [1] else [2]
  content _ := ⟨fun i => if i = 0 then [⟨slot 1, []⟩, ⟨slot 0, []⟩] else [], 6⟩
  m_recordNum := 2
  tick := 0

/-- Slots 2 and 3 are idle and are handed out in this order. -/
def twoIdle : Env where
  tableMem n := some [slot (if n < 2 then 2 else 3)]
  idxMem _ := true
  garbage _ _ := [255]

theorem twoRecords_consistent : Consistent twoRecords := by
  intro i
  have hkeys : twoRecords.keyAt i = fun a => if a = slot 0 then [1] else [2] := rfl
  have hslots : slot 0 ≠ slot 1 := by decide
  rw [hkeys]
  refine ⟨⟨fun j => ?_, fun a => ?_⟩, fun _ a b ha hb hkey => ?_⟩
  · by_cases hj : j = 0
    · subst hj
      refine ⟨?_, ?_, ?_, ?_⟩
      · simp [twoRecords, IndexRows.Row.all]
      · simp [twoRecords, hashSlot, Nat.mod_one]
      · simp [twoRecords, hslots.symm]
      · simp [twoRecords, IndexRows.Row.all, hslots.symm]
    · have hempty : (twoRecords.content i).rows j = [] := if_neg hj
      rw [hempty]
      exact ⟨by simp, by simp, List.Pairwise.nil, List.nodup_nil⟩
  · constructor
    · intro ha
      have hmem : a = slot 0 ∨ a = slot 1 := by simpa [twoRecords] using ha
      exact ⟨0, by simpa [twoRecords, IndexRows.Row.all] using hmem.symm⟩
    · rintro ⟨j, hj⟩
      by_cases hzero : j = 0
      · subst hzero
        have hmem : a = slot 1 ∨ a = slot 0 := by
          simpa [twoRecords, IndexRows.Row.all] using hj
        simpa [twoRecords] using hmem.symm
      · simp [twoRecords, hzero] at hj
  · have ha' : a = slot 0 ∨ a = slot 1 := by simpa [twoRecords] using ha
    have hb' : b = slot 0 ∨ b = slot 1 := by simpa [twoRecords] using hb
    rcases ha' with rfl | rfl <;> rcases hb' with rfl | rfl <;> simp_all

/-- Delete the record 1, insert another record 1 and make the record 2 a third one. -/
def replaceTwice : List TransData :=
  [⟨slot 0, [1], [], .delete⟩, ⟨nullShmPos, [], [1], .insert⟩, ⟨slot 1, [2], [1], .update⟩]

/-- The update is refused, and undoing the deletion is refused as well, because the
inserted record 1 is still there.  The deleted record is lost and the inserted one
stays. -/
theorem commit_not_restored :
    ∃ (env : Env) (s : State keyTable) (transDatas : List TransData) (e : Error),
      Consistent s ∧ Current s transDatas ∧ (commit env s transDatas).2 = some e ∧
      ¬ SameContent s (commit env s transDatas).1 := by
  refine ⟨twoIdle, twoRecords, replaceTwice, .index .uniqueConflict, twoRecords_consistent, ?_,
    by decide, fun hsame => ?_⟩
  · intro td htd htype
    simp only [replaceTwice, List.mem_cons, List.not_mem_nil, or_false] at htd
    rcases htd with rfl | rfl | rfl
    · decide
    · simp at htype
    · decide
  · have hlost : (commit twoIdle twoRecords replaceTwice).1.live (slot 0) = false := by decide
    have hlive : twoRecords.live (slot 0) = true := by decide
    rw [hsame.live, hlive] at hlost
    cases hlost

end BaseTable
