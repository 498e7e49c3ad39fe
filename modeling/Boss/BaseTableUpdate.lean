import Boss.BaseTableInsert
import Boss.IndexRowsChange

/-!
# A batch of updates and the keys in memory

`BaseTable::update` moves the index entries of all records of the batch before it writes
one of them, so while entries are moved every index is read through the old bytes.
`update_exact_iff` says when the indexes are exact afterwards: `IndexRows.AllFind`, taken
for every index over the records whose key in it changes.
-/

namespace BaseTable

open IndexRows (SlotOk WellIndexed AllFind Changed)

variable {n : Nat} {defs : Fin n → HashIndexDef} {getIndexKey : Fin n → Record → Key}

/-- Every answer is the live records of the key, no two records share a key in a unique
index, and every slot has one row for each of its keys. -/
structure Exact (s : State (hashTable n defs getIndexKey)) : Prop where
  select : ∀ (i : Fin n) k a, a ∈ s.select i k ↔ s.live a = true ∧ s.keyAt i a = k
  unique : ∀ i : Fin n, (defs i).m_isUnique = true → ∀ a b, s.live a = true → s.live b = true →
    s.keyAt i a = s.keyAt i b → a = b
  rows : ∀ (i : Fin n) j,
    SlotOk (s.keyAt i) (hashSlot (defs i).m_hashSize) j (rowsOf s i j)

/-- The records of the batch whose key in the `i`-th index changes. -/
def changedAddrs (getIndexKey : Fin n → Record → Key) (i : Fin n) (transDatas : List TransData) :
    List ShmPosition :=
  (transDatas.filter fun td =>
    getIndexKey i td.m_oldRecordValue ≠ getIndexKey i td.m_newRecordValue).map TransData.m_addr

/-- The keys once the batch is written. -/
def newKey (s : State (hashTable n defs getIndexKey)) (transDatas : List TransData) (i : Fin n)
    (a : ShmPosition) : Key :=
  getIndexKey i ((copyRecords s transDatas).record a)

/-- In every index, the old bytes lead to the right rows at every change of the batch. -/
def RowsFound (s : State (hashTable n defs getIndexKey)) (transDatas : List TransData) : Prop :=
  ∀ i : Fin n, AllFind (s.keyAt i) (newKey s transDatas i) (hashSlot (defs i).m_hashSize) []
    (rowsOf s i) (changedAddrs getIndexKey i transDatas)

variable {env : Env} {s t : State (hashTable n defs getIndexKey)} {a : ShmPosition} {i : Fin n}
  {k k' : Key} {value value' : Record}

/-! ## The entries of the batch -/

/-- One changed key. -/
theorem changeIdx_rows (h : changeIdx env s i k k' a = (t, none)) :
    SameRecords s t ∧ (∀ j ≠ i, rowsOf t j = rowsOf s j) ∧ ∃ space,
      IndexRows.insert (s.keyAt i) (hashSlot (defs i).m_hashSize) (defs i).m_isUnique space
        (IndexRows.deleteIdx (s.keyAt i) (hashSlot (defs i).m_hashSize) (rowsOf s i) k a).2 k' a =
          .ok (rowsOf t i) := by
  unfold changeIdx at h
  obtain ⟨hsame, -, space, hok, -⟩ := insertIdx_rows env (deleteIdx s i k a) i k' a
  rw [h] at hsame hok
  obtain ⟨rows, hins, hrows⟩ := hok rfl
  have hdelete := deleteIdx_rows s i k a
  rw [hdelete, Function.update_self] at hins
  refine ⟨(deleteIdx_same s i k a).trans hsame, fun j hj => ?_, space, ?_⟩
  · rw [hrows, Function.update_of_ne hj, hdelete, Function.update_of_ne hj]
  · rw [hrows, Function.update_self]
    exact hins

theorem catchIndexError_raises (logs : List (IndexChangeLog n)) (s : State (hashTable n defs getIndexKey))
    (e : Error) : (catchIndexError env logs s e).2 ≠ none := by
  unfold catchIndexError
  split <;> simp

/-- The loop over the indexes of one record. -/
theorem updateFrom_rows (is : List (Fin n)) (hnodup : is.Nodup) (logs : List (IndexChangeLog n))
    (h : (updateFrom env value value' a is logs s).2 = none) :
    let t := (updateFrom env value value' a is logs s).1
    SameRecords s t ∧
    (∀ i, i ∉ is ∨ getIndexKey i value = getIndexKey i value' → rowsOf t i = rowsOf s i) ∧
    ∀ i ∈ is, getIndexKey i value ≠ getIndexKey i value' → ∃ space,
      IndexRows.insert (s.keyAt i) (hashSlot (defs i).m_hashSize) (defs i).m_isUnique space
        (IndexRows.deleteIdx (s.keyAt i) (hashSlot (defs i).m_hashSize) (rowsOf s i)
          (getIndexKey i value) a).2 (getIndexKey i value') a = .ok (rowsOf t i) := by
  induction is generalizing s logs with
  | nil => exact ⟨⟨rfl, rfl⟩, fun _ _ => rfl, by simp⟩
  | cons j rest ih =>
      obtain ⟨hj, hrest⟩ := List.nodup_cons.mp hnodup
      simp only [updateFrom] at h ⊢
      by_cases hkeys : getIndexKey j value = getIndexKey j value'
      · rw [if_pos hkeys] at h ⊢
        obtain ⟨hsame, hother, hchanged⟩ := ih hrest logs h
        refine ⟨hsame, fun i hi => hother i ?_, fun i hi hne => hchanged i ?_ hne⟩
        · exact hi.imp_left fun hmem hi => hmem (List.mem_cons_of_mem j hi)
        · refine (List.mem_cons.mp hi).resolve_left ?_
          rintro rfl
          exact hne hkeys
      · rw [if_neg hkeys] at h ⊢
        rcases hstep : changeIdx env s j (getIndexKey j value) (getIndexKey j value') a with
          ⟨s₁, _ | e⟩
        · rw [hstep] at h
          obtain ⟨hsame₁, hother₁, space, hins⟩ := changeIdx_rows hstep
          obtain ⟨hsame, hother, hchanged⟩ := ih hrest _ h
          refine ⟨hsame₁.trans hsame, fun i hi => ?_, fun i hi hne => ?_⟩
          · have hij : i ≠ j := by
              rintro rfl
              rcases hi with hi | hi
              · exact hi List.mem_cons_self
              · exact hkeys hi
            have hi' := hi.imp_left fun (hmem : i ∉ j :: rest) hi => hmem (List.mem_cons_of_mem j hi)
            exact (hother i hi').trans (hother₁ i hij)
          · by_cases hij : i = j
            · subst hij
              refine ⟨space, hins.trans ?_⟩
              exact congrArg Except.ok (hother i (.inl hj)).symm
            · obtain ⟨space', hins'⟩ := hchanged i ((List.mem_cons.mp hi).resolve_left hij) hne
              rw [hsame₁.keyAt, hother₁ i hij] at hins'
              exact ⟨space', hins'⟩
        · rw [hstep] at h
          exact absurd h (catchIndexError_raises _ _ _)

/-- **The loop over the records**: every index goes through its changed keys. -/
theorem updateLoop_rows (done transDatas : List TransData) (new : Fin n → ShmPosition → Key)
    (hrecord : ∀ td ∈ transDatas, s.record td.m_addr = td.m_oldRecordValue)
    (hnew : ∀ td ∈ transDatas, ∀ i, new i td.m_addr = getIndexKey i td.m_newRecordValue)
    (h : (updateLoop env done transDatas s).2 = none) :
    let t := (updateLoop env done transDatas s).1
    SameRecords s t ∧ ∀ i, Changed (s.keyAt i) (new i) (hashSlot (defs i).m_hashSize)
      (defs i).m_isUnique (rowsOf s i) (changedAddrs getIndexKey i transDatas) (rowsOf t i) := by
  induction transDatas generalizing s done with
  | nil => exact ⟨⟨rfl, rfl⟩, fun _ => .nil⟩
  | cons td rest ih =>
      simp only [updateLoop] at h ⊢
      rcases hstep : updateAllIndex env s td false with ⟨s₁, _ | e⟩
      · rw [hstep] at h
        have hrow := updateFrom_rows (List.finRange n) (List.nodup_finRange n) []
          (congrArg Prod.snd hstep)
        rw [show updateFrom env (td.value false) (td.value (!false)) td.m_addr (List.finRange n) [] s =
          (s₁, none) from hstep] at hrow
        obtain ⟨hsame₁, hother, hchanged⟩ := hrow
        obtain ⟨hsame, hrest⟩ := ih (td :: done)
          (fun td' htd' => by rw [hsame₁.2]; exact hrecord td' (List.mem_cons_of_mem td htd'))
          (fun td' htd' => hnew td' (List.mem_cons_of_mem td htd')) h
        refine ⟨hsame₁.trans hsame, fun i => ?_⟩
        have hi := hrest i
        rw [hsame₁.keyAt] at hi
        by_cases hkeys : getIndexKey i td.m_oldRecordValue = getIndexKey i td.m_newRecordValue
        · rw [hother i (.inr hkeys)] at hi
          simpa [changedAddrs, hkeys] using hi
        · obtain ⟨space, hins⟩ := hchanged i (List.mem_finRange i) hkeys
          have hold : getIndexKey i (td.value false) = s.keyAt i td.m_addr := by
            rw [State.keyAt, hrecord td List.mem_cons_self]
            rfl
          rw [hold, show getIndexKey i (td.value (!false)) = new i td.m_addr from
            (hnew td List.mem_cons_self i).symm] at hins
          have hlist : changedAddrs getIndexKey i (td :: rest) =
              td.m_addr :: changedAddrs getIndexKey i rest := by
            simp [changedAddrs, hkeys]
          rw [hlist]
          exact .cons hins hi
      · rw [hstep] at h
        dsimp only at h
        split at h <;> simp at h

/-! ## The indexes afterwards -/

/-- The keys of the batch are those of the new bytes, the others stay. -/
theorem newKey_of_mem {transDatas : List TransData} (honce : (transDatas.map TransData.m_addr).Nodup)
    {td : TransData} (htd : td ∈ transDatas) (i : Fin n) :
    newKey s transDatas i td.m_addr = getIndexKey i td.m_newRecordValue := by
  rw [newKey, (copyRecords_spec transDatas s honce).2.2.1 td htd]

theorem newKey_of_notMem {transDatas : List TransData}
    (honce : (transDatas.map TransData.m_addr).Nodup)
    (ha : a ∉ transDatas.map TransData.m_addr) (i : Fin n) :
    newKey s transDatas i a = s.keyAt i a := by
  rw [newKey, (copyRecords_spec transDatas s honce).2.2.2 a ha, State.keyAt]

/-- The addresses that are moved in an index are those whose key in it changes. -/
theorem mem_changedAddrs_iff {transDatas : List TransData}
    (honce : (transDatas.map TransData.m_addr).Nodup)
    (hcurrent : ∀ td ∈ transDatas, s.record td.m_addr = td.m_oldRecordValue) :
    a ∈ changedAddrs getIndexKey i transDatas ↔ s.keyAt i a ≠ newKey s transDatas i a := by
  unfold changedAddrs
  by_cases ha : a ∈ transDatas.map TransData.m_addr
  · obtain ⟨td, htd, rfl⟩ := List.mem_map.mp ha
    rw [newKey_of_mem honce htd, State.keyAt, hcurrent td htd]
    constructor
    · intro hmem
      obtain ⟨td', htd', heq⟩ := List.mem_map.mp hmem
      obtain ⟨htd', hne⟩ := List.mem_filter.mp htd'
      obtain rfl := List.inj_on_of_nodup_map honce htd' htd heq
      simpa using hne
    · intro hne
      exact List.mem_map_of_mem (List.mem_filter.mpr ⟨htd, by simpa using hne⟩)
  · constructor
    · intro hmem
      obtain ⟨td, htd, rfl⟩ := List.mem_map.mp hmem
      exact absurd (List.mem_map_of_mem (List.mem_filter.mp htd).1) ha
    · intro hne
      exact absurd (newKey_of_notMem honce ha i).symm hne

/-- What a batch that runs through leaves: the records and their keys are the new ones, and every
index has gone through its changed keys. -/
theorem update_rows {transDatas : List TransData}
    (hcurrent : ∀ td ∈ transDatas, s.record td.m_addr = td.m_oldRecordValue)
    (honce : (transDatas.map TransData.m_addr).Nodup)
    (hsuccess : (update env s transDatas).2 = none) :
    let t := (update env s transDatas).1
    (∀ a, t.live a = s.live a) ∧ (∀ i : Fin n, t.keyAt i = newKey s transDatas i) ∧
      ∀ i : Fin n, Changed (s.keyAt i) (newKey s transDatas i) (hashSlot (defs i).m_hashSize)
        (defs i).m_isUnique (rowsOf s i) (changedAddrs getIndexKey i transDatas) (rowsOf t i) := by
  -- the loop has run through, and then the records are written
  obtain ⟨s₁, hloop⟩ : ∃ s₁, updateLoop env [] transDatas s = (s₁, none) := by
    unfold update at hsuccess
    rcases hl : updateLoop env [] transDatas s with ⟨s₁, _ | e⟩
    · exact ⟨s₁, rfl⟩
    · simp [hl] at hsuccess
  have hupdate : (update env s transDatas).1 = copyRecords s₁ transDatas := by
    simp only [update, hloop]
  obtain ⟨hsame, hchanged⟩ := updateLoop_rows [] transDatas (newKey s transDatas)
    hcurrent (fun td htd => newKey_of_mem honce htd) (congrArg Prod.snd hloop)
  rw [hloop] at hsame hchanged
  obtain ⟨hlive₁, hcontent₁, hrecord₁, hother₁⟩ := copyRecords_spec transDatas s₁ honce
  rw [hupdate]
  refine ⟨fun a => ?_, fun i => ?_, fun i => ?_⟩
  · rw [hlive₁, hsame.1]
  · funext a
    by_cases ha : a ∈ transDatas.map TransData.m_addr
    · obtain ⟨td, htd, rfl⟩ := List.mem_map.mp ha
      rw [newKey_of_mem honce htd, State.keyAt, hrecord₁ td htd]
    · rw [newKey_of_notMem honce ha, State.keyAt, State.keyAt, hother₁ a ha, hsame.2]
  · have hrows : rowsOf (copyRecords s₁ transDatas) i = rowsOf s₁ i := by
      unfold rowsOf
      rw [hcontent₁]
    rw [hrows]
    exact hchanged i

/-- **A batch of updates.**  The indexes are exact afterwards if and only if the old bytes
lead to the right rows at every change. -/
theorem update_exact_iff (env : Env) (s : State (hashTable n defs getIndexKey))
    (transDatas : List TransData) (hcons : Consistent s)
    (hcurrent : ∀ td ∈ transDatas, s.live td.m_addr = true ∧
      s.record td.m_addr = td.m_oldRecordValue)
    (honce : (transDatas.map TransData.m_addr).Nodup)
    (hsuccess : (update env s transDatas).2 = none) :
    Exact (update env s transDatas).1 ↔ RowsFound s transDatas := by
  have hold : ∀ td ∈ transDatas, s.record td.m_addr = td.m_oldRecordValue :=
    fun td htd => (hcurrent td htd).2
  obtain ⟨hlive, hkeys, hchanged⟩ := update_rows hold honce hsuccess
  generalize (update env s transDatas).1 = t at hlive hkeys hchanged ⊢
  have hdiffer : ∀ (i : Fin n) a,
      a ∈ changedAddrs getIndexKey i transDatas ↔ s.keyAt i a ≠ newKey s transDatas i a :=
    fun i a => mem_changedAddrs_iff honce hold
  have hbatch : ∀ i : Fin n, (∀ a ∈ changedAddrs getIndexKey i transDatas, s.live a = true) ∧
      (changedAddrs getIndexKey i transDatas).Nodup := by
    intro i
    refine ⟨fun a ha => ?_, honce.sublist (List.Sublist.map _ List.filter_sublist)⟩
    obtain ⟨td, htd, rfl⟩ := List.mem_map.mp ha
    exact (hcurrent td (List.mem_filter.mp htd).1).1
  have hwell : ∀ i : Fin n, WellIndexed
      (IndexRows.keyNow (s.keyAt i) (newKey s transDatas i) []) (hashSlot (defs i).m_hashSize)
      (fun a => s.live a = true) (rowsOf s i) := by
    intro i
    rw [IndexRows.keyNow_nil]
    exact (hcons i).1
  have hunique : ∀ i : Fin n, (defs i).m_isUnique = true → ∀ a b, s.live a = true →
      s.live b = true → IndexRows.keyNow (s.keyAt i) (newKey s transDatas i) [] a =
        IndexRows.keyNow (s.keyAt i) (newKey s transDatas i) [] b → a = b := by
    intro i
    rw [IndexRows.keyNow_nil]
    exact (hcons i).2
  have hiff : ∀ i : Fin n, (∀ j, SlotOk (t.keyAt i) (hashSlot (defs i).m_hashSize) j (rowsOf t i j)) ↔
      AllFind (s.keyAt i) (newKey s transDatas i) (hashSlot (defs i).m_hashSize) [] (rowsOf s i)
        (changedAddrs getIndexKey i transDatas) := by
    intro i
    rw [hkeys]
    exact IndexRows.changed_iff (hchanged i) (hwell i) (hunique i) (hbatch i).1 (by simp)
      (hbatch i).2 (by simpa using hdiffer i)
  constructor
  · exact fun hexact i => (hiff i).mp (hexact.rows i)
  · intro hfound
    have hlast : ∀ i : Fin n, WellIndexed (t.keyAt i) (hashSlot (defs i).m_hashSize)
          (fun a => t.live a = true) (rowsOf t i) ∧
        ((defs i).m_isUnique = true → ∀ a b, t.live a = true → t.live b = true →
          t.keyAt i a = t.keyAt i b → a = b) := by
      intro i
      obtain ⟨hindexed, hone⟩ := (hfound i).run (hchanged i) (hwell i) (hunique i) (hbatch i).1
        (by simp) (hbatch i).2
      have hnow : IndexRows.keyNow (s.keyAt i) (newKey s transDatas i)
          ((changedAddrs getIndexKey i transDatas).reverse ++ []) = t.keyAt i := by
        rw [hkeys, List.append_nil]
        exact IndexRows.keyNow_all fun a hne => List.mem_reverse.mpr ((hdiffer i a).mpr hne)
      rw [hnow] at hindexed hone
      simp only [hlive]
      exact ⟨hindexed, hone⟩
    exact ⟨fun i k a => select_iff (hlast i).1 k a, fun i => (hlast i).2,
      fun i j => (hlast i).1.slot j⟩

/-! ## Two records of a unique index -/

/-- The table of `twoRecords`, as one with hash indexes. -/
def twoHashed : State (hashTable 1 (fun _ => ⟨1, 8, true⟩) fun _ r => r) := twoRecords

/-- The records 1 and 2 become the records `r` and `r'`. -/
def updateBoth (r r' : Record) : List TransData :=
  [⟨slot 0, [1], r, .update⟩, ⟨slot 1, [2], r', .update⟩]

theorem updateBoth_current (r r' : Record) : ∀ td ∈ updateBoth r r',
    twoHashed.live td.m_addr = true ∧ twoHashed.record td.m_addr = td.m_oldRecordValue := by
  intro td htd
  simp only [updateBoth, List.mem_cons, List.not_mem_nil, or_false] at htd
  rcases htd with rfl | rfl
  · exact ⟨rfl, rfl⟩
  · exact ⟨rfl, rfl⟩

theorem update_exact_iff_different :
    Exact (update twoIdle twoHashed (updateBoth [3] [4])).1 := by
  refine (update_exact_iff twoIdle twoHashed (updateBoth [3] [4]) twoRecords_consistent
    (updateBoth_current [3] [4]) (by decide) (by decide)).mpr fun i => ?_
  obtain rfl : i = 0 := Fin.fin_one_eq_zero i
  exact ⟨⟨by decide, by decide⟩, ⟨by decide, by decide⟩, trivial⟩

/-- Both records become the record 3.  The second insertion reads the row of the first one
as 1, so the unique index has the key twice. -/
theorem update_not_exact :
    ∃ (n : Nat) (defs : Fin n → HashIndexDef) (getIndexKey : Fin n → Record → Key) (env : Env)
      (s : State (hashTable n defs getIndexKey)) (transDatas : List TransData), Consistent s ∧
      (∀ td ∈ transDatas, s.live td.m_addr = true ∧ s.record td.m_addr = td.m_oldRecordValue) ∧
      (transDatas.map TransData.m_addr).Nodup ∧ (update env s transDatas).2 = none ∧
      ¬ Exact (update env s transDatas).1 := by
  refine ⟨1, fun _ => ⟨1, 8, true⟩, fun _ r => r, twoIdle, twoHashed, updateBoth [3] [3],
    twoRecords_consistent, updateBoth_current [3] [3], by decide, by decide, fun hexact => ?_⟩
  have hsame := hexact.unique 0 rfl (slot 0) (slot 1) (by decide) (by decide) (by decide)
  exact absurd hsame (by decide)

end BaseTable
