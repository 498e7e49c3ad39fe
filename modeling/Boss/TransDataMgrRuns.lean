import Boss.TransDataMgr
import Boss.Runs

/-!
# Whole transactions

The pool lies over the table: for a live address it says what the transaction makes of the
record there (`image`), and the records without an address come on top.  A call does to that
view what it means for a table (`step_spec`), and `commit` makes the view the table
(`commit_contents`).

A call does so only as far as the pool is looked at like a table, which is not always.
Selections look at the table: they find an updated record by its old image and an inserted
one not at all; and `cloneRecordValue` starts a second update of a record from the old image
again.  `Separate` says when a call does not notice.

Main result: `step_query_spec`.
-/

namespace TransDataMgr

open BaseTable
open MdbSession (passes)

variable {tbl : Table} {columns : List ColumnDef} {sc : Scanner tbl} {s : State tbl}
  {pool : List TransData} {a : ShmPosition} {c : Call tbl}

/-! ## The condition -/

/-- Whether a call would change or delete a record. -/
def Call.concerns (c : Call tbl) (r : Record) : Bool :=
  match c.query with
  | none => false
  | some q => q.meets r &&
      match c with
      | .deleteRec _ => true
      | _ => c.meantRows.any fun row => row.applies r

/-- No record gets two of the rows: once one applies, no later one does, to the record as it
was or as it is then. -/
def Apart (columns : List ColumnDef) (sFieldNames : List (List UInt8)) (rows : List UpdateRow)
    (r : Record) : Prop :=
  rows.Pairwise fun x y => x.applies r = true → y.applies r = false ∧
    y.applies (setColumnsValue columns sFieldNames x.pUpdateValues r) = false

/-- **The call does not meet earlier changes of its transaction.**  It does not concern an
inserted record; it concerns an updated record by both of its images or by none, and makes
the same of both; and the rows of an update with several are apart, with an expression. -/
structure Separate (columns : List ColumnDef) (s : State tbl) (pool : List TransData)
    (c : Call tbl) : Prop where
  inserted : ∀ td ∈ pool, td.m_operType = .insert → c.concerns td.m_newRecordValue = false
  updated : ∀ td ∈ pool, td.m_operType = .update →
    c.concerns td.m_oldRecordValue = c.concerns td.m_newRecordValue ∧
    (c.concerns td.m_oldRecordValue = true →
      c.apply columns td.m_oldRecordValue = c.apply columns td.m_newRecordValue)
  expression : c.meantRows = c.rows
  apart : ∀ a, s.live a = true → Apart columns c.sFieldNames c.rows (s.record a)

/-! ## Rows -/

/-- Rows that do not apply to a record leave it. -/
theorem applyRows_none {names : List (List UInt8)} {rows : List UpdateRow} {r : Record}
    (h : ∀ row ∈ rows, row.applies r = false) : applyRows columns names rows r = r := by
  unfold applyRows
  induction rows with
  | nil => rfl
  | cons row rest ih =>
      rw [List.foldl_cons, h row List.mem_cons_self]
      exact ih fun row' hrow' => h row' (List.mem_cons_of_mem row hrow')

/-- Rows that do not apply to the old record leave the transaction data. -/
theorem updateRows_none {names : List (List UInt8)} {rows : List UpdateRow} {td : TransData}
    (h : ∀ row ∈ rows, row.applies td.m_oldRecordValue = false) :
    rows.foldl (updateResult columns names) td = td := by
  induction rows with
  | nil => rfl
  | cons row rest ih =>
      have hskip : updateResult columns names td row = td := by
        unfold updateResult
        rw [h row List.mem_cons_self]
        rfl
      rw [List.foldl_cons, hskip]
      exact ih fun row' hrow' => h row' (List.mem_cons_of_mem row hrow')

/-- What the loop over the rows makes of a result, if a row applies, depends on its old image
only. -/
theorem updateRows_some (columns : List ColumnDef) (names : List (List UInt8))
    {rows : List UpdateRow} {r : Record} (h : ∃ row ∈ rows, row.applies r = true) :
    ∃ v, ∀ td : TransData, td.m_oldRecordValue = r →
      rows.foldl (updateResult columns names) td
        = { td with m_newRecordValue := v, m_operType := .update } := by
  induction rows with
  | nil => simp at h
  | cons row rest ih =>
      by_cases hrest : ∃ row' ∈ rest, row'.applies r = true
      · obtain ⟨v, hv⟩ := ih hrest
        refine ⟨v, fun td htd => ?_⟩
        rw [List.foldl_cons]
        unfold updateResult
        by_cases hrow : row.applies td.m_oldRecordValue = true
        · rw [if_pos hrow]
          exact hv _ htd
        · rw [if_neg hrow]
          exact hv _ htd
      · have hnone : ∀ row' ∈ rest, row'.applies r = false := by simpa using hrest
        have hrow : row.applies r = true := by
          obtain ⟨row', hmem, happlies⟩ := h
          rcases List.mem_cons.mp hmem with rfl | hmem
          · exact happlies
          · exact absurd ⟨row', hmem, happlies⟩ hrest
        refine ⟨setColumnsValue columns names row.pUpdateValues r, fun td htd => ?_⟩
        have hfirst : updateResult columns names td row = { td with
            m_newRecordValue := setColumnsValue columns names row.pUpdateValues r
            m_operType := .update } := by
          unfold updateResult
          rw [htd, if_pos hrow]
        rw [List.foldl_cons, hfirst]
        exact updateRows_none (by simpa [htd] using hnone)

/-- Rows that are apart do to a result what they mean for its old image. -/
theorem updateRows_apart {names : List (List UInt8)} {rows : List UpdateRow} {td : TransData}
    (hapart : Apart columns names rows td.m_oldRecordValue)
    (h : ∃ row ∈ rows, row.applies td.m_oldRecordValue = true) :
    rows.foldl (updateResult columns names) td = { td with
      m_newRecordValue := applyRows columns names rows td.m_oldRecordValue
      m_operType := .update } := by
  induction rows with
  | nil => simp at h
  | cons row rest ih =>
      obtain ⟨hlater, hrest⟩ := List.pairwise_cons.mp hapart
      by_cases hrow : row.applies td.m_oldRecordValue = true
      · have hfirst : updateResult columns names td row = { td with
            m_newRecordValue := setColumnsValue columns names row.pUpdateValues td.m_oldRecordValue
            m_operType := .update } := by
          unfold updateResult
          rw [if_pos hrow]
        have happly : applyRows columns names (row :: rest) td.m_oldRecordValue
            = setColumnsValue columns names row.pUpdateValues td.m_oldRecordValue := by
          unfold applyRows
          rw [List.foldl_cons, if_pos hrow]
          exact applyRows_none fun row' hrow' => (hlater row' hrow' hrow).2
        rw [List.foldl_cons, hfirst, happly]
        exact updateRows_none fun row' hrow' => (hlater row' hrow' hrow).1
      · have hskip : updateResult columns names td row = td := by
          unfold updateResult
          rw [if_neg hrow]
        have happly : applyRows columns names (row :: rest) td.m_oldRecordValue
            = applyRows columns names rest td.m_oldRecordValue := by
          unfold applyRows
          rw [List.foldl_cons, if_neg hrow]
        have hsome : ∃ row' ∈ rest, row'.applies td.m_oldRecordValue = true := by
          obtain ⟨row', hmem, happlies⟩ := h
          rcases List.mem_cons.mp hmem with rfl | hmem
          · exact absurd happlies hrow
          · exact ⟨row', hmem, happlies⟩
        rw [List.foldl_cons, hskip, happly]
        exact ih hrest hsome

/-! ## Changes of results -/

/-- Applying the rows again changes nothing. -/
theorem rows_idem (names : List (List UInt8)) (rows : List UpdateRow) (td : TransData) :
    rows.foldl (updateResult columns names) (rows.foldl (updateResult columns names) td)
      = rows.foldl (updateResult columns names) td := by
  by_cases h : ∃ row ∈ rows, row.applies td.m_oldRecordValue = true
  · obtain ⟨v, hv⟩ := updateRows_some columns names h
    rw [hv td rfl]
    exact hv _ rfl
  · have hnone : ∀ row ∈ rows, row.applies td.m_oldRecordValue = false := by simpa using h
    rw [updateRows_none hnone, updateRows_none hnone]

/-- What a call does to a result. -/
theorem change_cases (columns : List ColumnDef) (c : Call tbl) (td : TransData) :
    c.change columns td = td ∨
    c.change columns td = { td with m_operType := .delete } ∨
    ∃ v, c.change columns td = { td with m_newRecordValue := v, m_operType := .update } := by
  have hrows : ∀ names (rows : List UpdateRow), rows.foldl (updateResult columns names) td = td ∨
      ∃ v, rows.foldl (updateResult columns names) td
        = { td with m_newRecordValue := v, m_operType := .update } := by
    intro names rows
    by_cases h : ∃ row ∈ rows, row.applies td.m_oldRecordValue = true
    · obtain ⟨v, hv⟩ := updateRows_some columns names h
      exact .inr ⟨v, hv td rfl⟩
    · exact .inl (updateRows_none (by simpa using h))
  cases c with
  | deleteRec q => exact .inr (.inl rfl)
  | _ => exact (hrows _ _).imp id .inr

/-- A change leaves the address. -/
theorem change_addr (c : Call tbl) (td : TransData) : (c.change columns td).m_addr = td.m_addr := by
  rcases change_cases columns c td with h | h | ⟨v, h⟩ <;> rw [h]

/-- Making a change again changes nothing. -/
theorem change_idem (c : Call tbl) (td : TransData) :
    c.change columns (c.change columns td) = c.change columns td := by
  cases c with
  | deleteRec q => rfl
  | _ => exact rows_idem _ _ td

/-- The results are changed once each, however often they occur. -/
theorem changeResults_eq (c : Call tbl) (results : List ShmPosition) (pool : List TransData) :
    changeResults (c.change columns) results pool
      = pool.map fun td => if td.m_addr ∈ results then c.change columns td else td := by
  unfold changeResults
  induction results generalizing pool with
  | nil => simp
  | cons a rest ih =>
      rw [List.foldl_cons, ih, List.map_map]
      refine List.map_congr_left fun td _ => ?_
      by_cases ha : td.m_addr = a
      · by_cases hrest : a ∈ rest
        · simp [ha, hrest, change_addr, change_idem]
        · simp [ha, hrest, change_addr]
      · simp [ha]

/-! ## The pool over the table -/

/-- The record that a `TransData` leaves at its address, if any. -/
def outcome (td : TransData) : Option Record :=
  match td.m_operType with
  | .delete => none
  | .update => some td.m_newRecordValue
  | _ => some td.m_oldRecordValue

/-- What the pool says about the record at a live address. -/
def image (s : State tbl) (pool : List TransData) (a : ShmPosition) : Option Record :=
  match matchTransData pool a with
  | none => some (s.record a)
  | some td => outcome td

/-- The pool has one `TransData` for an address, with the bytes that are there as the old
image, and none of the insertions has an address. -/
structure Buffered (s : State tbl) (pool : List TransData) : Prop where
  owned : ∀ td ∈ pool, td.m_operType ≠ .insert →
    s.live td.m_addr = true ∧ td.m_oldRecordValue = s.record td.m_addr
  added : ∀ td ∈ pool, td.m_operType = .insert → td.m_addr = nullShmPos
  once : ((pool.filter fun td => td.m_operType ≠ .insert).map TransData.m_addr).Nodup

/-- What is matched is in the pool and has the address. -/
theorem matchTransData_some {td : TransData} (h : matchTransData pool a = some td) :
    td ∈ pool ∧ td.m_addr = a :=
  ⟨List.mem_of_find?_eq_some h, by simpa using List.find?_some h⟩

/-- The `TransData` of a live address. -/
theorem Buffered.owned_of_match (hb : Buffered s pool) (hnull : s.live nullShmPos = false)
    (ha : s.live a = true) {td : TransData} (h : matchTransData pool a = some td) :
    td.m_operType ≠ .insert ∧ td.m_oldRecordValue = s.record a := by
  obtain ⟨hmem, rfl⟩ := matchTransData_some h
  have hne : td.m_operType ≠ .insert := by
    intro hinsert
    rw [hb.added td hmem hinsert, hnull] at ha
    cases ha
  exact ⟨hne, (hb.owned td hmem hne).2⟩

/-- The last one is matched only when none before it is. -/
theorem matchTransData_append (pool : List TransData) (td : TransData) (a : ShmPosition) :
    matchTransData (pool ++ [td]) a
      = (matchTransData pool a).or (if td.m_addr = a then some td else none) := by
  unfold matchTransData
  rw [List.find?_append]
  by_cases ha : td.m_addr = a
  · simp [ha]
  · simp [ha]

/-- An address without a `TransData` gets the one of its record. -/
theorem Buffered.append_selected (hb : Buffered s pool) (ha : s.live a = true)
    (hmatch : matchTransData pool a = none) : Buffered s (pool ++ [selected s a]) := by
  constructor
  · intro td htd hop
    rcases List.mem_append.mp htd with htd | htd
    · exact hb.owned td htd hop
    · obtain rfl := List.mem_singleton.mp htd
      exact ⟨ha, rfl⟩
  · intro td htd hop
    rcases List.mem_append.mp htd with htd | htd
    · exact hb.added td htd hop
    · obtain rfl := List.mem_singleton.mp htd
      cases hop
  · rw [List.filter_append, List.map_append, List.nodup_append]
    refine ⟨hb.once, by simp [selected], ?_⟩
    intro x hx y hy hxy
    obtain ⟨td, htd, rfl⟩ := List.mem_map.mp hx
    have hy : y = a := by simpa [selected] using hy
    have hnot := List.find?_eq_none.mp hmatch td (List.mem_filter.mp htd).1
    exact hnot (by simp [hxy, hy])

/-- A record that is selected is seen as it is in the table. -/
theorem image_append_selected (hmatch : matchTransData pool a = none) (b : ShmPosition) :
    image s (pool ++ [selected s a]) b = image s pool b := by
  unfold image
  rw [matchTransData_append]
  by_cases hb : a = b
  · subst hb
    simp [hmatch, selected, outcome]
  · simp [selected, hb]

/-! ### A pool whose records are changed where they are -/

section Map

variable {g : TransData → TransData} (haddr : ∀ td, (g td).m_addr = td.m_addr)

include haddr

/-- Changing all of the pool changes what is matched. -/
theorem matchTransData_map (pool : List TransData) (a : ShmPosition) :
    matchTransData (pool.map g) a = (matchTransData pool a).map g := by
  unfold matchTransData
  rw [List.find?_map]
  simp [haddr]

variable (htype : ∀ td ∈ pool, (g td).m_operType = .insert ↔ td.m_operType = .insert)

include htype

/-- Changes that leave the old records keep the pool true to the table. -/
theorem Buffered.map (hb : Buffered s pool)
    (hold : ∀ td ∈ pool, td.m_operType ≠ .insert →
      (g td).m_oldRecordValue = td.m_oldRecordValue) : Buffered s (pool.map g) := by
  constructor
  · intro td' htd' hop
    obtain ⟨td, htd, rfl⟩ := List.mem_map.mp htd'
    have hne : td.m_operType ≠ .insert := fun hins => hop ((htype td htd).mpr hins)
    rw [haddr, hold td htd hne]
    exact hb.owned td htd hne
  · intro td' htd' hop
    obtain ⟨td, htd, rfl⟩ := List.mem_map.mp htd'
    rw [haddr]
    exact hb.added td htd ((htype td htd).mp hop)
  · have hfilter : ((pool.map g).filter fun td => td.m_operType ≠ .insert)
        = (pool.filter fun td => td.m_operType ≠ .insert).map g := by
      rw [List.filter_map]
      refine congrArg (List.map g) (List.filter_congr fun td htd => ?_)
      simp [htype td htd]
    have hcomp : TransData.m_addr ∘ g = TransData.m_addr := funext haddr
    rw [hfilter, List.map_map, hcomp]
    exact hb.once

omit haddr in
/-- The insertions stay as they are. -/
theorem withType_insert_map (hinsert : ∀ td ∈ pool, td.m_operType = .insert → g td = td) :
    withType (pool.map g) .insert = withType pool .insert := by
  unfold withType
  rw [List.filter_map]
  have hsame : (pool.filter ((fun td => decide (td.m_operType = .insert)) ∘ g))
      = pool.filter fun td => td.m_operType = .insert :=
    List.filter_congr fun td htd => by simp [htype td htd]
  rw [hsame]
  refine (List.map_congr_left fun td htd => ?_).trans (List.map_id _)
  obtain ⟨hmem, hop⟩ := List.mem_filter.mp htd
  exact hinsert td hmem (by simpa using hop)

end Map

/-! ## Selection -/

/-- The loop of `select` after the addresses `seen`. -/
structure Selecting (s : State tbl) (pool : List TransData) (cExpr : Option (Record → Bool))
    (seen : List ShmPosition) (acc : List ShmPosition × List TransData) : Prop where
  buffered : Buffered s acc.2
  image_eq : ∀ a, image s acc.2 a = image s pool a
  inserts : withType acc.2 .insert = withType pool .insert
  results : ∀ a, a ∈ acc.1 ↔ a ∈ seen ∧ image s pool a ≠ none ∧ passes cExpr (s.record a) = true
  entries : ∀ a ∈ acc.1, matchTransData acc.2 a ≠ none

/-- One more record of the index is looked at. -/
theorem Selecting.round {cExpr : Option (Record → Bool)} {seen : List ShmPosition}
    {acc : List ShmPosition × List TransData} (h : Selecting s pool cExpr seen acc)
    (hnull : s.live nullShmPos = false) (ha : s.live a = true) :
    Selecting s pool cExpr (seen ++ [a]) (selectRound s cExpr acc a) := by
  -- results of an address that is kept, and of one that is passed over
  have hkeep : image s pool a ≠ none → passes cExpr (s.record a) = true → ∀ b,
      b ∈ acc.1 ++ [a] ↔
        b ∈ seen ++ [a] ∧ image s pool b ≠ none ∧ passes cExpr (s.record b) = true := by
    intro himage hpass b
    rw [List.mem_append, List.mem_append, h.results, List.mem_singleton]
    constructor
    · rintro (⟨hb, hrest⟩ | rfl)
      · exact ⟨.inl hb, hrest⟩
      · exact ⟨.inr rfl, himage, hpass⟩
    · rintro ⟨hb | rfl, hrest⟩
      · exact .inl ⟨hb, hrest⟩
      · exact .inr rfl
  have hpassover : ¬ (image s pool a ≠ none ∧ passes cExpr (s.record a) = true) → ∀ b,
      b ∈ acc.1 ↔ b ∈ seen ++ [a] ∧ image s pool b ≠ none ∧ passes cExpr (s.record b) = true := by
    intro hnot b
    rw [List.mem_append, h.results, List.mem_singleton]
    constructor
    · rintro ⟨hb, hrest⟩
      exact ⟨.inl hb, hrest⟩
    · rintro ⟨hb | rfl, hrest⟩
      · exact ⟨hb, hrest⟩
      · exact absurd hrest hnot
  have himage := h.image_eq a
  unfold selectRound
  cases hmatch : matchTransData acc.2 a with
  | some td =>
      obtain ⟨hne, hold⟩ := h.buffered.owned_of_match hnull ha hmatch
      dsimp only
      by_cases hdelete : td.m_operType = .delete
      · rw [if_pos hdelete]
        refine ⟨h.buffered, h.image_eq, h.inserts, hpassover ?_, h.entries⟩
        rw [← himage]
        simp [image, outcome, hmatch, hdelete]
      · rw [if_neg hdelete, hold]
        have hsome : image s pool a ≠ none := by
          rw [← himage]
          unfold image outcome
          rw [hmatch]
          cases hop : td.m_operType with
          | delete => exact absurd hop hdelete
          | _ => simp [hop]
        by_cases hpass : passes cExpr (s.record a) = true
        · rw [if_pos hpass]
          refine ⟨h.buffered, h.image_eq, h.inserts, hkeep hsome hpass, ?_⟩
          intro b hb
          rcases List.mem_append.mp hb with hb | hb
          · exact h.entries b hb
          · obtain rfl := List.mem_singleton.mp hb
            simp [hmatch]
        · rw [if_neg hpass]
          exact ⟨h.buffered, h.image_eq, h.inserts, hpassover fun hboth => hpass hboth.2, h.entries⟩
  | none =>
      dsimp only
      have hsome : image s pool a ≠ none := by
        rw [← himage]
        simp [image, hmatch]
      by_cases hpass : passes cExpr (s.record a) = true
      · rw [if_pos hpass]
        refine ⟨h.buffered.append_selected ha hmatch, ?_, ?_, hkeep hsome hpass, ?_⟩
        · exact fun b => (image_append_selected hmatch b).trans (h.image_eq b)
        · have hsame : withType (acc.2 ++ [selected s a]) .insert = withType acc.2 .insert := by
            simp [withType, selected]
          rw [hsame, h.inserts]
        · intro b hb
          rw [matchTransData_append]
          rcases List.mem_append.mp hb with hb | hb
          · cases hentry : matchTransData acc.2 b with
            | none => exact absurd hentry (h.entries b hb)
            | some td => simp
          · obtain rfl := List.mem_singleton.mp hb
            simp [selected]
      · rw [if_neg hpass]
        exact ⟨h.buffered, h.image_eq, h.inserts, hpassover fun hboth => hpass hboth.2, h.entries⟩

/-- **Selection** changes no image and finds the records by what is in the table. -/
theorem select_selecting (hb : Buffered s pool) (hnull : s.live nullShmPos = false) (q : Query tbl)
    (hfound : ∀ a ∈ q.found sc s, s.live a = true) :
    Selecting s pool q.cExpr (q.found sc s) (select sc s q pool) := by
  have hloop : ∀ (l seen : List ShmPosition) (acc : List ShmPosition × List TransData),
      (∀ a ∈ l, s.live a = true) → Selecting s pool q.cExpr seen acc →
      Selecting s pool q.cExpr (seen ++ l) (l.foldl (selectRound s q.cExpr) acc) := by
    intro l
    induction l with
    | nil =>
        intro seen acc _ h
        rwa [List.append_nil]
    | cons a rest ih =>
        intro seen acc hlive h
        have hround := h.round hnull (hlive a List.mem_cons_self)
        have hrest := ih (seen ++ [a]) _ (fun b hb => hlive b (List.mem_cons_of_mem a hb)) hround
        rwa [List.append_assoc] at hrest
  exact hloop _ [] _ hfound ⟨hb, fun _ => rfl, rfl, by simp, by simp⟩

/-! ## One call -/

/-- What is found is live and has the key, if one is asked for. -/
theorem found_iff (hcons : Consistent s) (q : Query tbl) :
    a ∈ q.found sc s ↔
      s.live a = true ∧ ∀ k, q.key = some k → tbl.getIndexKey q.index (s.record a) = k := by
  unfold Query.found
  cases hkey : q.key with
  | none =>
      rw [sc.scan_spec (hcons q.index)]
      simp
  | some k =>
      have hselect := (tbl.index q.index).select_spec (hcons q.index) k a
      simpa [State.select, State.keyAt] using hselect

/-- The results of a selection are the records that meet the query in the table and are not
deleted. -/
theorem Selecting.result_iff {q : Query tbl} {acc : List ShmPosition × List TransData}
    (h : Selecting s pool q.cExpr (q.found sc s) acc) (hcons : Consistent s) (ha : s.live a = true) :
    a ∈ acc.1 ↔ q.meets (s.record a) = true ∧ image s pool a ≠ none := by
  rw [h.results, found_iff hcons]
  unfold Query.meets
  cases hkey : q.key with
  | none => simp [ha, and_comm]
  | some k =>
      simp only [Bool.and_eq_true, decide_eq_true_eq, Option.some.injEq, forall_eq', ha, true_and]
      tauto

/-- A call leaves alone what it does not concern. -/
theorem apply_of_not_concerns {r : Record} (h : c.concerns r = false) :
    c.apply columns r = some r := by
  unfold Call.apply
  unfold Call.concerns at h
  cases hq : c.query with
  | none => rfl
  | some q =>
      rw [hq] at h
      dsimp only at h ⊢
      by_cases hmeets : q.meets r = true
      · rw [hmeets, Bool.true_and] at h
        rw [if_pos hmeets]
        have hrows : (∀ q', c ≠ .deleteRec q') → some (applyRows columns c.sFieldNames c.meantRows r)
            = some r := by
          intro hdelete
          have hnone : (c.meantRows.any fun row => row.applies r) = false := by
            cases c with
            | deleteRec q' => exact absurd rfl (hdelete q')
            | _ => exact h
          rw [applyRows_none (by simpa using hnone)]
        cases c with
        | deleteRec q' => cases h
        | _ => exact hrows (by simp)
      · rw [if_neg hmeets]

/-- Under the condition a call makes of an image what it makes of the record in the table. -/
theorem Separate.apply_image (hsep : Separate columns s pool c) (hb : Buffered s pool)
    (hnull : s.live nullShmPos = false) (ha : s.live a = true) {r : Record}
    (himage : image s pool a = some r) :
    c.apply columns r = if c.concerns (s.record a) then c.apply columns (s.record a) else some r := by
  -- the image is the record itself or the new image of an update
  have hcases : r = s.record a ∨ ∃ td ∈ pool, td.m_operType = .update ∧
      td.m_oldRecordValue = s.record a ∧ td.m_newRecordValue = r := by
    unfold image at himage
    cases hmatch : matchTransData pool a with
    | none =>
        rw [hmatch] at himage
        exact .inl (Option.some.inj himage).symm
    | some td =>
        obtain ⟨hne, hold⟩ := hb.owned_of_match hnull ha hmatch
        rw [hmatch] at himage
        dsimp only [outcome] at himage
        cases hop : td.m_operType with
        | delete => simp [hop] at himage
        | insert => exact absurd hop hne
        | update =>
            simp only [hop, Option.some.injEq] at himage
            exact .inr ⟨td, (matchTransData_some hmatch).1, hop, hold, himage⟩
        | unchanged =>
            simp only [hop, Option.some.injEq] at himage
            exact .inl (himage.symm.trans hold)
  have hboth : c.concerns r = c.concerns (s.record a) ∧
      (c.concerns (s.record a) = true → c.apply columns r = c.apply columns (s.record a)) := by
    rcases hcases with rfl | ⟨td, htd, hop, hold, rfl⟩
    · exact ⟨rfl, fun _ => rfl⟩
    · obtain ⟨hsame, happly⟩ := hsep.updated td htd hop
      rw [hold] at hsame happly
      exact ⟨hsame.symm, fun hconcerns => (happly hconcerns).symm⟩
  by_cases hconcerns : c.concerns (s.record a) = true
  · rw [if_pos hconcerns]
    exact hboth.2 hconcerns
  · have hfalse : c.concerns (s.record a) = false := by simpa using hconcerns
    rw [if_neg hconcerns]
    exact apply_of_not_concerns (hboth.1.trans hfalse)

/-- A call that selects. -/
theorem step_query {q : Query tbl} (hq : c.query = some q) {pool' : List TransData}
    (h : step columns sc s pool c = some pool') :
    pool' = (select sc s q pool).2.map fun td =>
      if td.m_addr ∈ (select sc s q pool).1 then c.change columns td else td := by
  rw [← changeResults_eq]
  unfold step at h
  rw [hq] at h
  cases c with
  | insert r => cases hq
  | _ =>
      dsimp only at h
      split at h
      · cases h
      · exact (Option.some.inj h).symm

/-- What a change makes of the image of a result. -/
theorem change_image (hsep : Separate columns s pool c) {q : Query tbl} (hq : c.query = some q)
    (hmeets : q.meets (s.record a) = true) (ha : s.live a = true) {td : TransData}
    (hold : td.m_oldRecordValue = s.record a) {r : Record} (hr : outcome td = some r) :
    outcome (c.change columns td)
      = if c.concerns (s.record a) then c.apply columns (s.record a) else some r := by
  have hrows : (∀ q', c ≠ .deleteRec q') → c.change columns td
        = c.rows.foldl (updateResult columns c.sFieldNames) td ∧
      c.concerns (s.record a) = (c.rows.any fun row => row.applies (s.record a)) ∧
      c.apply columns (s.record a) = some (applyRows columns c.sFieldNames c.rows (s.record a)) := by
    intro hdelete
    rw [← hsep.expression]
    unfold Call.concerns Call.apply
    rw [hq]
    dsimp only
    rw [hmeets, if_pos rfl, Bool.true_and]
    rw [hsep.expression]
    cases c with
    | deleteRec q' => exact absurd rfl (hdelete q')
    | _ => exact ⟨rfl, rfl, rfl⟩
  by_cases hdelete : ∃ q', c = .deleteRec q'
  · obtain ⟨q', rfl⟩ := hdelete
    obtain rfl : q' = q := Option.some.inj hq
    have hconcerns : (Call.deleteRec q').concerns (s.record a) = true := by
      simp [Call.concerns, Call.query, hmeets]
    rw [if_pos hconcerns]
    simp [outcome, Call.change, Call.apply, Call.query, hmeets]
  · obtain ⟨hchange, hconcerns, happly⟩ := hrows fun q' hq' => hdelete ⟨q', hq'⟩
    rw [hchange, hconcerns, happly]
    by_cases hany : ∃ row ∈ c.rows, row.applies td.m_oldRecordValue = true
    · have htrue : (c.rows.any fun row => row.applies (s.record a)) = true := by
        rw [← hold]
        simpa using hany
      rw [updateRows_apart (by rw [hold]; exact hsep.apart a ha) hany, htrue, hold]
      rfl
    · have hnone : ∀ row ∈ c.rows, row.applies td.m_oldRecordValue = false := by simpa using hany
      have hfalse : (c.rows.any fun row => row.applies (s.record a)) = false := by
        rw [← hold]
        simpa using hnone
      rw [updateRows_none hnone, hfalse, hr]
      rfl

/-- The insertions of a pool and the images of its live addresses after a call. -/
structure Applied (columns : List ColumnDef) (s : State tbl) (pool : List TransData) (c : Call tbl)
    (pool' : List TransData) : Prop where
  buffered : Buffered s pool'
  image_eq : ∀ a, s.live a = true → image s pool' a = (image s pool a).bind (c.apply columns)
  inserts : ((withType pool' .insert).map TransData.m_newRecordValue : Multiset Record)
    = (withType pool .insert).map TransData.m_newRecordValue + c.added

/-- **A call that selects.** -/
theorem step_query_spec (hcons : Consistent s) (hnull : s.live nullShmPos = false)
    (hb : Buffered s pool) (hsep : Separate columns s pool c) {q : Query tbl}
    (hq : c.query = some q) {pool' : List TransData}
    (h : step columns sc s pool c = some pool') : Applied columns s pool c pool' := by
  obtain rfl := step_query hq h
  have hsel : Selecting s pool q.cExpr (q.found sc s) (select sc s q pool) :=
    select_selecting hb hnull q fun a ha => ((found_iff hcons q).mp ha).1
  generalize select sc s q pool = acc at hsel ⊢
  have hlive : ∀ a ∈ acc.1, s.live a = true := fun a ha =>
    ((found_iff hcons q).mp ((hsel.results a).mp ha).1).1
  set g : TransData → TransData := fun td =>
    if td.m_addr ∈ acc.1 then c.change columns td else td with hg
  have haddr : ∀ td, (g td).m_addr = td.m_addr := by
    intro td
    simp only [hg]
    split
    · exact change_addr c td
    · rfl
  have hinsert : ∀ td ∈ acc.2, td.m_operType = .insert → g td = td := by
    intro td htd hop
    refine if_neg fun hmem => ?_
    have hnull' := hlive _ hmem
    rw [hsel.buffered.added td htd hop, hnull] at hnull'
    cases hnull'
  have hother : ∀ td, td.m_operType ≠ .insert →
      (g td).m_operType ≠ .insert ∧ (g td).m_oldRecordValue = td.m_oldRecordValue := by
    intro td hop
    simp only [hg]
    split
    · rcases change_cases columns c td with hc | hc | ⟨v, hc⟩ <;> rw [hc] <;> simp [hop]
    · exact ⟨hop, rfl⟩
  have htype : ∀ td ∈ acc.2, (g td).m_operType = .insert ↔ td.m_operType = .insert := by
    intro td htd
    constructor
    · intro hop
      by_contra hne
      exact (hother td hne).1 hop
    · intro hop
      rw [hinsert td htd hop, hop]
  refine ⟨hsel.buffered.map haddr htype fun td _ hop => (hother td hop).2, ?_, ?_⟩
  · intro a ha
    have hmatch := matchTransData_map haddr acc.2 a
    have hresult := hsel.result_iff hcons ha
    have himage := hsel.image_eq a
    by_cases hmem : a ∈ acc.1
    · obtain ⟨hmeets, hsome⟩ := hresult.mp hmem
      obtain ⟨td, htd⟩ := Option.ne_none_iff_exists'.mp (hsel.entries a hmem)
      obtain ⟨-, hold⟩ := hsel.buffered.owned_of_match hnull ha htd
      obtain ⟨r, hr⟩ := Option.ne_none_iff_exists'.mp hsome
      have houtcome : outcome td = some r := by
        rw [← hr, ← himage]
        simp [image, htd]
      have hchange : g td = c.change columns td := if_pos (by rwa [(matchTransData_some htd).2])
      rw [hr, Option.bind_some, hsep.apply_image hb hnull ha hr,
        ← change_image hsep hq hmeets ha hold houtcome]
      simp [image, hmatch, htd, hchange]
    · have hkeep : image s (acc.2.map g) a = image s pool a := by
        rw [← himage]
        unfold image
        rw [hmatch]
        cases htd : matchTransData acc.2 a with
        | none => rfl
        | some td =>
            have hsame : g td = td := if_neg (by rwa [(matchTransData_some htd).2])
            simp [hsame]
      rw [hkeep]
      cases hr : image s pool a with
      | none => rfl
      | some r =>
          have hmeets : q.meets (s.record a) = false := by
            have hnot := fun hmeets => hmem (hresult.mpr ⟨hmeets, by simp [hr]⟩)
            simpa using hnot
          have hconcerns : c.concerns (s.record a) = false := by
            unfold Call.concerns
            rw [hq]
            simp [hmeets]
          rw [Option.bind_some, hsep.apply_image hb hnull ha hr, hconcerns]
          rfl
  · have hfilter : withType (acc.2.map g) .insert = withType pool .insert :=
      (withType_insert_map htype hinsert).trans hsel.inserts
    rw [hfilter]
    cases c with
    | insert r => cases hq
    | _ => simp [Call.added]

end TransDataMgr
