import Boss.IndexHashRuns

/-!
# Scans of the hash index

Without a key `IndexHash::select` returns addresses of the whole table: all of them
(`selectALL`), the first few (`selectLimited`), or those of the next slot in use
(`selectRowByRow`), which keeps its place in `m_iHashPosi`.  All three walk the slots in
order, down the row heads of a slot and along each row.

On a linked index the walk over a slot gives its addresses, row by row (`slotData`).  The
full scan is then the concatenation over all slots, and what `selectRowByRow` has not
returned yet is the concatenation over the slots from `m_iHashPosi` on (`nextSlot_spec`).
-/

namespace IndexHash

open LinkedChain IndexRows

/-- `SELECT_ROW_BY_ROW`. -/
def SELECT_ROW_BY_ROW : Int := -2

/-- `SELECT_ROW_BY_ROW_INTERNAL`. -/
def SELECT_ROW_BY_ROW_INTERNAL : Int := -3

section Scans

variable (d : IndexDef) (h : State) (n : Nat)

/-- The vertical loop of `selectALL` and `selectRowByRow`. -/
def collectColumn : Nat → ShmPosition → Option (List ShmPosition)
  | 0, _ => none
  | k + 1, ptr1 =>
      if ptr1 = nullShmPos then some []
      else (collectRow h n ptr1).bind fun row =>
        (collectColumn k (h.diffNext ptr1)).map (row ++ ·)

/-- The loop of `selectALL` over the slots, `k` of them from `i` on. -/
def selectSlots : Nat → Nat → Option (List ShmPosition)
  | 0, _ => some []
  | k + 1, i =>
      if h.m_hashTable i = nullShmPos then selectSlots k (i + 1)
      else (collectColumn h n n (h.m_hashTable i)).bind fun column =>
        (selectSlots k (i + 1)).map (column ++ ·)

def selectALL : Option (List ShmPosition) := selectSlots h n d.m_hashSize 0

/-- The horizontal loop of `selectLimited`. -/
def limitedRow (iRowCount : Nat) :
    Nat → ShmPosition → List ShmPosition → Option (List ShmPosition)
  | 0, _, _ => none
  | k + 1, ptr2, results =>
      if ptr2 = nullShmPos then some results
      else
        let results := results ++ [h.data ptr2]
        if iRowCount ≤ results.length then some results
        else limitedRow iRowCount k (h.sameNext ptr2) results

/-- The vertical loop of `selectLimited`. -/
def limitedColumn (iRowCount : Nat) :
    Nat → ShmPosition → List ShmPosition → Option (List ShmPosition)
  | 0, _, _ => none
  | k + 1, ptr1, results =>
      if ptr1 = nullShmPos then some results
      else (limitedRow h iRowCount n ptr1 results).bind fun results =>
        if iRowCount ≤ results.length then some results
        else limitedColumn iRowCount k (h.diffNext ptr1) results

/-- The loop of `selectLimited` over the slots. -/
def limitedSlots (iRowCount : Nat) : Nat → Nat → List ShmPosition → Option (List ShmPosition)
  | 0, _, results => some results
  | k + 1, i, results =>
      let column := if h.m_hashTable i = nullShmPos then some results
        else limitedColumn h n iRowCount n (h.m_hashTable i) results
      column.bind fun results =>
        if iRowCount ≤ results.length then some results
        else limitedSlots iRowCount k (i + 1) results

def selectLimited (iRowCount : Nat) : Option (List ShmPosition) :=
  limitedSlots h n iRowCount d.m_hashSize 0 []

/-- The loop of `selectRowByRow`: the addresses of the first slot in use, and the slot behind
it. -/
def nextSlot : Nat → Nat → Option (List ShmPosition × Nat)
  | 0, m_iHashPosi => some ([], m_iHashPosi)
  | k + 1, m_iHashPosi =>
      if h.m_hashTable m_iHashPosi = nullShmPos then nextSlot k (m_iHashPosi + 1)
      else (collectColumn h n n (h.m_hashTable m_iHashPosi)).map fun column =>
        (column, m_iHashPosi + 1)

/-- `selectRowByRow`; the first call starts from the beginning. -/
def selectRowByRow (m_iHashPosi : Nat) (iRowCount : Int) : Option (List ShmPosition × Nat) :=
  let m_iHashPosi := if iRowCount = SELECT_ROW_BY_ROW then 0 else m_iHashPosi
  nextSlot h n (d.m_hashSize - m_iHashPosi) m_iHashPosi

/-- `IndexHash::select` without key parameters: the addresses and the new place. -/
def selectScan (m_iHashPosi : Nat) (iRowCount : Int) : Option (List ShmPosition × Nat) :=
  if iRowCount = -1 then (selectALL d h n).map (·, m_iHashPosi)
  else if iRowCount = SELECT_ROW_BY_ROW ∨ iRowCount = SELECT_ROW_BY_ROW_INTERNAL then
    selectRowByRow d h n m_iHashPosi iRowCount
  else (selectLimited d h n iRowCount.toNat).map (·, m_iHashPosi)

end Scans

/-! ## What the walks give -/

variable {h : State} {start : ShmPosition} {l : List (Row ShmPosition)} {ps : Rows ShmPosition}
  {d : IndexDef} {n : Nat}

/-- The addresses of a slot in the order of its rows. -/
def slotData (h : State) (ps : Rows ShmPosition) (i : Nat) : List ShmPosition :=
  (flat (ps i)).map h.data

/-- The addresses of `k` slots from `i` on. -/
def slotsData (h : State) (ps : Rows ShmPosition) (k i : Nat) : List ShmPosition :=
  (List.range' i k).flatMap (slotData h ps)

/-- The records of several slots are those of the first and those of the rest. -/
theorem slotsData_succ (k i : Nat) :
    slotsData h ps (k + 1) i = slotData h ps i ++ slotsData h ps k (i + 1) := by
  unfold slotsData
  rw [List.range'_succ, List.flatMap_cons]

/-- The rounds that suffice for the slots of an index. -/
def Enough (d : IndexDef) (ps : Rows ShmPosition) (n : Nat) : Prop :=
  ∀ i < d.m_hashSize, rounds (ps i) ≤ n

/-- There is such a number of rounds. -/
theorem exists_enough (d : IndexDef) (ps : Rows ShmPosition) :
    ∃ N, ∀ n, N ≤ n → Enough d ps n := by
  have hbelow : ∀ m, ∃ N, ∀ i < m, rounds (ps i) ≤ N := by
    intro m
    induction m with
    | zero => exact ⟨0, by simp⟩
    | succ m ih =>
        obtain ⟨N, hN⟩ := ih
        refine ⟨max N (rounds (ps m)), fun i hi => ?_⟩
        rcases Nat.lt_succ_iff_lt_or_eq.mp hi with hlt | rfl
        · exact Nat.le_trans (hN i hlt) (Nat.le_max_left _ _)
        · exact Nat.le_max_right _ _
  obtain ⟨N, hN⟩ := hbelow d.m_hashSize
  exact ⟨N, fun n hn i hi => Nat.le_trans (hN i hi) hn⟩

/-- Behind the first row the slot goes on with the next one. -/
theorem SlotLinked.tail {r : Row ShmPosition} (hs : SlotLinked h start (r :: l)) :
    start = r.head ∧ start ≠ nullShmPos ∧ SlotLinked h (h.diffNext start) l := by
  obtain ⟨rfl, hne, hdown⟩ := hs.down
  exact ⟨rfl, hne, hdown, fun q hq => hs.across q (List.mem_cons_of_mem r hq)⟩

/-- Following the rows of a slot collects all its records. -/
theorem collectColumn_eq (hs : SlotLinked h start l) {k : Nat} (hk : l.length < k)
    (hn : ∀ r ∈ l, r.all.length < n) :
    collectColumn h n k start = some ((flat l).map h.data) := by
  induction l generalizing start k with
  | nil =>
      obtain ⟨m, rfl⟩ := Nat.exists_eq_succ_of_ne_zero (Nat.ne_zero_of_lt hk)
      have hnull : start = nullShmPos := hs.down
      simp [collectColumn, hnull]
  | cons r rest ih =>
      obtain ⟨m, rfl⟩ := Nat.exists_eq_succ_of_ne_zero (Nat.ne_zero_of_lt hk)
      obtain ⟨rfl, hne, hrest⟩ := hs.tail
      have hrow := collectRow_eq (hs.across r List.mem_cons_self) (hn r List.mem_cons_self)
      unfold collectColumn
      rw [if_neg hne, hrow, Option.bind_some,
        ih hrest (by simpa using hk) fun q hq => hn q (List.mem_cons_of_mem r hq),
        Option.map_some, flat_cons, List.map_append]

/-- What `rounds` is enough for. -/
theorem rounds_le (hn : rounds l ≤ n) : l.length < n ∧ ∀ r ∈ l, r.all.length < n := by
  unfold rounds at hn
  refine ⟨by omega, fun r hr => ?_⟩
  have hlen := length_le_flat hr
  omega

/-- A slot is empty when its link is null. -/
theorem slot_null_iff (hr : Linked h ps) (i : Nat) :
    h.m_hashTable i = nullShmPos ↔ ps i = [] := by
  have hs := hr.slot i
  constructor
  · intro hnull
    rw [hnull] at hs
    exact List.map_eq_nil_iff.mp (chain_null hs.down)
  · intro hnil
    rw [hnil] at hs
    exact hs.down

/-- An empty slot has no records. -/
theorem slotData_eq_nil {i : Nat} (hnil : ps i = []) : slotData h ps i = [] := by
  simp [slotData, hnil]

/-- A slot with rows has records. -/
theorem slotData_ne_nil {i : Nat} (hne : ps i ≠ []) : slotData h ps i ≠ [] := by
  obtain ⟨r, rest, hps⟩ := List.exists_cons_of_ne_nil hne
  simp [slotData, hps, Row.all]

/-- A slot in use is walked to its end. -/
theorem collectColumn_slot (hr : Linked h ps) {i : Nat} (hn : rounds (ps i) ≤ n) :
    collectColumn h n n (h.m_hashTable i) = some (slotData h ps i) := by
  obtain ⟨hlength, hrows⟩ := rounds_le hn
  exact collectColumn_eq (hr.slot i) hlength hrows

/-! ## The full scan -/

/-- Going through the slots collects all their records. -/
theorem selectSlots_eq (hr : Linked h ps) (hn : Enough d ps n) {k i : Nat}
    (hk : i + k ≤ d.m_hashSize) : selectSlots h n k i = some (slotsData h ps k i) := by
  induction k generalizing i with
  | zero => rfl
  | succ k ih =>
      unfold selectSlots
      rw [ih (by omega), slotsData_succ]
      by_cases hnull : h.m_hashTable i = nullShmPos
      · rw [if_pos hnull, slotData_eq_nil ((slot_null_iff hr i).mp hnull), List.nil_append]
      · rw [if_neg hnull, collectColumn_slot hr (hn i (by omega)), Option.bind_some, Option.map_some]

/-- **The full scan** returns the addresses slot by slot. -/
theorem selectALL_eq (hr : Linked h ps) (hn : Enough d ps n) :
    selectALL d h n = some (slotsData h ps d.m_hashSize 0) :=
  selectSlots_eq hr hn (by omega)

/-! ## The limited scan -/

/-- A loop that has collected enough stops with a prefix, and what follows does not change it. -/
theorem take_full {limit : Nat} {x y : List ShmPosition} (hfull : limit ≤ (x.take limit).length) :
    (x ++ y).take limit = x.take limit := by
  rw [List.length_take] at hfull
  exact List.take_append_of_le_length (by omega)

/-- A loop that has not collected enough has everything. -/
theorem take_open {limit : Nat} {x : List ShmPosition} (hopen : ¬ limit ≤ (x.take limit).length) :
    x.take limit = x ∧ x.length < limit := by
  rw [List.length_take] at hopen
  exact ⟨List.take_of_length_le (by omega), by omega⟩

/-- With a limit a row is followed up to the limit. -/
theorem limitedRow_eq {limit : Nat} {p : ShmPosition} {ps : List ShmPosition}
    (hc : Chain h.sameNext nullShmPos p ps) {k : Nat} (hk : ps.length < k)
    {results : List ShmPosition} (hlt : results.length < limit) :
    limitedRow h limit k p results = some ((results ++ ps.map h.data).take limit) := by
  induction ps generalizing p k results with
  | nil =>
      obtain ⟨m, rfl⟩ := Nat.exists_eq_succ_of_ne_zero (Nat.ne_zero_of_lt hk)
      have hnull : p = nullShmPos := hc
      rw [limitedRow, if_pos hnull, List.map_nil, List.append_nil,
        List.take_of_length_le (Nat.le_of_lt hlt)]
  | cons q rest ih =>
      obtain ⟨m, rfl⟩ := Nat.exists_eq_succ_of_ne_zero (Nat.ne_zero_of_lt hk)
      obtain ⟨rfl, hne, hrest⟩ := hc
      have hlength : (results ++ [h.data p]).length = results.length + 1 := by simp
      have hsplit : results ++ (p :: rest).map h.data =
          (results ++ [h.data p]) ++ rest.map h.data := by
        simp
      dsimp only [limitedRow]
      rw [if_neg hne, hsplit]
      by_cases hfull : limit ≤ (results ++ [h.data p]).length
      · rw [if_pos hfull, List.take_append_of_le_length hfull, List.take_of_length_le (by omega)]
      · rw [if_neg hfull]
        exact ih hrest (by simpa using hk) (by omega)

/-- With a limit the rows of a slot are followed up to the limit. -/
theorem limitedColumn_eq {limit : Nat} (hs : SlotLinked h start l) {k : Nat} (hk : l.length < k)
    (hn : ∀ r ∈ l, r.all.length < n) {results : List ShmPosition} (hlt : results.length < limit) :
    limitedColumn h n limit k start results
      = some ((results ++ (flat l).map h.data).take limit) := by
  induction l generalizing start k results with
  | nil =>
      obtain ⟨m, rfl⟩ := Nat.exists_eq_succ_of_ne_zero (Nat.ne_zero_of_lt hk)
      have hnull : start = nullShmPos := hs.down
      rw [limitedColumn, if_pos hnull, flat_nil, List.map_nil, List.append_nil,
        List.take_of_length_le (Nat.le_of_lt hlt)]
  | cons r rest ih =>
      obtain ⟨m, rfl⟩ := Nat.exists_eq_succ_of_ne_zero (Nat.ne_zero_of_lt hk)
      obtain ⟨rfl, hne, hrest⟩ := hs.tail
      rw [limitedColumn, if_neg hne,
        limitedRow_eq (hs.across r List.mem_cons_self) (hn r List.mem_cons_self) hlt,
        Option.bind_some, flat_cons, List.map_append, ← List.append_assoc]
      by_cases hfull : limit ≤ ((results ++ r.all.map h.data).take limit).length
      · rw [if_pos hfull, take_full hfull]
      · obtain ⟨htake, hopen⟩ := take_open hfull
        rw [if_neg hfull, htake,
          ih hrest (by simpa using hk) (fun q hq => hn q (List.mem_cons_of_mem r hq)) hopen]

/-- With a limit the slots are gone through up to the limit. -/
theorem limitedSlots_eq {limit : Nat} (hr : Linked h ps) (hn : Enough d ps n) {k i : Nat}
    (hk : i + k ≤ d.m_hashSize) {results : List ShmPosition} (hlt : results.length < limit) :
    limitedSlots h n limit k i results = some ((results ++ slotsData h ps k i).take limit) := by
  induction k generalizing i results with
  | zero =>
      rw [limitedSlots, slotsData, List.range'_zero, List.flatMap_nil, List.append_nil,
        List.take_of_length_le (Nat.le_of_lt hlt)]
  | succ k ih =>
      have hcolumn : (if h.m_hashTable i = nullShmPos then some results
          else limitedColumn h n limit n (h.m_hashTable i) results)
          = some ((results ++ slotData h ps i).take limit) := by
        by_cases hnull : h.m_hashTable i = nullShmPos
        · rw [if_pos hnull, slotData_eq_nil ((slot_null_iff hr i).mp hnull), List.append_nil,
            List.take_of_length_le (Nat.le_of_lt hlt)]
        · obtain ⟨hlength, hrows⟩ := rounds_le (hn i (by omega))
          rw [if_neg hnull, limitedColumn_eq (hr.slot i) hlength hrows hlt]
          rfl
      dsimp only [limitedSlots]
      rw [hcolumn, Option.bind_some, slotsData_succ, ← List.append_assoc]
      by_cases hfull : limit ≤ ((results ++ slotData h ps i).take limit).length
      · rw [if_pos hfull, take_full hfull]
      · obtain ⟨htake, hopen⟩ := take_open hfull
        rw [if_neg hfull, htake, ih (by omega) hopen]

/-- **The limited scan** returns the beginning of the full scan. -/
theorem selectLimited_eq (hr : Linked h ps) (hn : Enough d ps n) {limit : Nat} (hlimit : 1 ≤ limit) :
    selectLimited d h n limit = some ((slotsData h ps d.m_hashSize 0).take limit) := by
  unfold selectLimited
  rw [limitedSlots_eq hr hn (by omega) hlimit, List.nil_append]

/-! ## Slot by slot -/

/-- **The next slot in use**: what it returns comes first in what is left, and nothing comes
only if nothing is left. -/
theorem nextSlot_spec (hr : Linked h ps) (hn : Enough d ps n) {k i : Nat}
    (hk : i + k = d.m_hashSize) :
    ∃ column k' i', nextSlot h n k i = some (column, i') ∧ i' + k' = d.m_hashSize ∧
      slotsData h ps k i = column ++ slotsData h ps k' i' ∧
      (column = [] → slotsData h ps k i = []) ∧ (column ≠ [] → k' < k) := by
  induction k generalizing i with
  | zero => exact ⟨[], 0, i, rfl, hk, rfl, fun _ => rfl, fun hne => absurd rfl hne⟩
  | succ k ih =>
      unfold nextSlot
      by_cases hnull : h.m_hashTable i = nullShmPos
      · obtain ⟨column, k', i', hnext, hk', hsplit, hend, hless⟩ := ih (i := i + 1) (by omega)
        have hskip : slotsData h ps (k + 1) i = slotsData h ps k (i + 1) := by
          rw [slotsData_succ, slotData_eq_nil ((slot_null_iff hr i).mp hnull), List.nil_append]
        refine ⟨column, k', i', by rw [if_pos hnull, hnext], hk', by rw [hskip, hsplit], ?_, ?_⟩
        · intro hcolumn
          rw [hskip]
          exact hend hcolumn
        · intro hcolumn
          have hlt := hless hcolumn
          omega
      · refine ⟨slotData h ps i, k, i + 1, ?_, by omega, slotsData_succ k i, ?_, ?_⟩
        · rw [if_neg hnull, collectColumn_slot hr (hn i (by omega)), Option.map_some]
        · intro hcolumn
          exact absurd hcolumn (slotData_ne_nil fun hnil => hnull ((slot_null_iff hr i).mpr hnil))
        · omega

/-! ## What the scans find -/

variable {s : Sys} {a : ShmPosition}

/-- A slot has the addresses of its rows. -/
theorem slotData_eq_flat (h : State) (ps : Rows ShmPosition) (i : Nat) :
    slotData h ps i = flat (dataRows h ps i) := (flat_map h.data (ps i)).symm

/-- No address is in two places of a scan. -/
theorem Organised.nodup_slotsData (ho : Organised d s ps) (k i : Nat) :
    (slotsData s.index ps k i).Nodup := by
  have hrange : (List.range' i k).Nodup := List.nodup_range'
  refine List.nodup_flatMap.mpr ⟨fun j _ => ?_, hrange.imp fun hne a ha hb => ?_⟩
  · rw [slotData_eq_flat]
    exact (ho.rows.slot j).once
  · rw [slotData_eq_flat] at ha hb
    exact hne ((ho.rows.slot_of_mem ha).trans (ho.rows.slot_of_mem hb).symm)

theorem slotOf_lt (hsize : 0 < d.m_hashSize) (key : Key) : slotOf d key < d.m_hashSize :=
  Nat.mod_lt _ hsize

/-- The full scan finds the live addresses. -/
theorem Organised.mem_slotsData (ho : Organised d s ps) (hsize : 0 < d.m_hashSize) :
    a ∈ slotsData s.index ps d.m_hashSize 0 ↔ s.live a = true := by
  unfold slotsData
  rw [List.mem_flatMap, ho.rows.indexed]
  simp only [slotData_eq_flat, ← List.range_eq_range', List.mem_range]
  constructor
  · rintro ⟨i, -, ha⟩
    exact ⟨i, ha⟩
  · rintro ⟨i, ha⟩
    have hslot := ho.rows.slot_of_mem ha
    exact ⟨i, hslot ▸ slotOf_lt hsize _, ha⟩

end IndexHash
