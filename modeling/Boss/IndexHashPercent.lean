import Boss.Histogram
import Boss.IndexHashRuns
import Boss.IndexHashScan

/-!
# How full the hash table is

`IndexHash::getHashPercent` counts the slots in use and the buckets behind them, and how
many slots have how many buckets.  It walks the slots with its own loops, which count where
those of `selectALL` collect.  On a linked index both walks take the same way, so the
record count is the length of the full scan, and the distribution is the histogram of the
lengths of the slots in use.  The `int` counters are natural numbers here.

Main result: `getHashPercent_spec`.
-/

namespace IndexHash

open LinkedChain IndexRows

/-- What `getHashPercent` hands out; `mHashCal` has the number of slots for each number of
buckets. -/
structure HashPercent where
  iHashSize : Nat
  iUsedHash : Nat
  iRecordCount : Nat
  mHashCal : List (Nat × Nat)
  deriving DecidableEq, Repr

section Percent

variable (d : IndexDef) (h : State) (n : Nat)

/-- The first loop of `getHashPercent`, over `k` slots from `i` on. -/
def usedHash : Nat → Nat → Nat → Nat
  | 0, _, iUsedHash => iUsedHash
  | k + 1, i, iUsedHash =>
      if h.m_hashTable i = nullShmPos then usedHash k (i + 1) iUsedHash
      else usedHash k (i + 1) (iUsedHash + 1)

/-- The horizontal loop of `getHashPercent`; it moves `iCount` and `iRecordCount`. -/
def countRow : Nat → ShmPosition → Nat × Nat → Option (Nat × Nat)
  | 0, _, _ => none
  | k + 1, ptr2, counts =>
      if ptr2 = nullShmPos then some counts
      else countRow k (h.sameNext ptr2) (counts.1 + 1, counts.2 + 1)

/-- The vertical loop of `getHashPercent`. -/
def countColumn : Nat → ShmPosition → Nat × Nat → Option (Nat × Nat)
  | 0, _, _ => none
  | k + 1, ptr1, counts =>
      if ptr1 = nullShmPos then some counts
      else (countRow h n ptr1 counts).bind fun counts => countColumn k (h.diffNext ptr1) counts

/-- The second loop of `getHashPercent`, over `k` slots from `i` on: the record count and
`mHashCal`. -/
def countSlots : Nat → Nat → Nat → List (Nat × Nat) → Option (Nat × List (Nat × Nat))
  | 0, _, iRecordCount, mHashCal => some (iRecordCount, mHashCal)
  | k + 1, i, iRecordCount, mHashCal =>
      if h.m_hashTable i = nullShmPos then countSlots k (i + 1) iRecordCount mHashCal
      else (countColumn h n n (h.m_hashTable i) (0, iRecordCount)).bind fun counts =>
        if counts.1 = 0 then countSlots k (i + 1) counts.2 mHashCal
        else countSlots k (i + 1) counts.2 (Histogram.add counts.1 mHashCal)

/-- `IndexHash::getHashPercent`. -/
def getHashPercent : Option HashPercent :=
  (countSlots h n d.m_hashSize 0 0 []).map fun r =>
    ⟨d.m_hashSize, usedHash h d.m_hashSize 0 0, r.1, r.2⟩

/-- Whether a slot is in use and its rows have `len` addresses together. -/
def slotHas (len i : Nat) : Bool :=
  h.m_hashTable i ≠ nullShmPos ∧
    (collectColumn h n n (h.m_hashTable i)).map List.length = some len

attribute [grind =] usedHash countRow countColumn countSlots getHashPercent slotHas

/-- **The figures of an index** whose full scan returns `all`. -/
structure Figures (all : List ShmPosition) (p : HashPercent) : Prop where
  size : p.iHashSize = d.m_hashSize
  used : p.iUsedHash = (List.range d.m_hashSize).countP fun i => h.m_hashTable i ≠ nullShmPos
  records : p.iRecordCount = all.length
  total : (p.mHashCal.map Prod.snd).sum = p.iUsedHash
  weighted : (p.mHashCal.map fun e => e.1 * e.2).sum = p.iRecordCount
  ascending : SortedMap.Ascending Prod.fst p.mHashCal
  counts : ∀ len c, (len, c) ∈ p.mHashCal ↔
    0 < c ∧ (List.range d.m_hashSize).countP (slotHas h n len) = c

end Percent

variable {h : State} {start : ShmPosition} {l : List (Row ShmPosition)} {ps : Rows ShmPosition}
  {d : IndexDef} {n : Nat}

theorem countRow_eq {ps : List ShmPosition} (hc : Chain h.sameNext nullShmPos start ps) {k : Nat}
    (hk : ps.length < k) (counts : Nat × Nat) :
    countRow h k start counts = some (counts.1 + ps.length, counts.2 + ps.length) := by
  induction ps generalizing start k counts with
  | nil =>
      obtain ⟨m, rfl⟩ := Nat.exists_eq_succ_of_ne_zero (Nat.ne_zero_of_lt hk)
      have hnull : start = nullShmPos := hc
      simp [countRow, hnull]
  | cons q rest ih =>
      obtain ⟨m, rfl⟩ := Nat.exists_eq_succ_of_ne_zero (Nat.ne_zero_of_lt hk)
      obtain ⟨rfl, hne, hrest⟩ := hc
      rw [countRow, if_neg hne, ih hrest (by simpa using hk)]
      simp only [List.length_cons, Option.some.injEq, Prod.mk.injEq]
      omega

theorem countColumn_eq (hs : SlotLinked h start l) {k : Nat} (hk : l.length < k)
    (hn : ∀ r ∈ l, r.all.length < n) (counts : Nat × Nat) :
    countColumn h n k start counts =
      some (counts.1 + (flat l).length, counts.2 + (flat l).length) := by
  induction l generalizing start k counts with
  | nil =>
      obtain ⟨m, rfl⟩ := Nat.exists_eq_succ_of_ne_zero (Nat.ne_zero_of_lt hk)
      have hnull : start = nullShmPos := hs.down
      simp [countColumn, hnull]
  | cons r rest ih =>
      obtain ⟨m, rfl⟩ := Nat.exists_eq_succ_of_ne_zero (Nat.ne_zero_of_lt hk)
      obtain ⟨rfl, hne, hrest⟩ := hs.tail
      have hrow := countRow_eq (hs.across r List.mem_cons_self) (hn r List.mem_cons_self) counts
      rw [countColumn, if_neg hne, hrow, Option.bind_some,
        ih hrest (by simpa using hk) fun q hq => hn q (List.mem_cons_of_mem r hq)]
      simp only [flat_cons, List.length_append, Option.some.injEq, Prod.mk.injEq]
      omega

/-- The slots in use among `k` from `i` on. -/
def usedSlots (h : State) (k i : Nat) : List Nat :=
  (List.range' i k).filter fun j => h.m_hashTable j ≠ nullShmPos

/-- How many addresses they have. -/
def usedLengths (h : State) (ps : Rows ShmPosition) (k i : Nat) : List Nat :=
  (usedSlots h k i).map fun j => (slotData h ps j).length

theorem usedSlots_succ (k i : Nat) :
    usedSlots h (k + 1) i =
      if h.m_hashTable i = nullShmPos then usedSlots h k (i + 1)
      else i :: usedSlots h k (i + 1) := by
  unfold usedSlots
  rw [List.range'_succ, List.filter_cons]
  by_cases hnull : h.m_hashTable i = nullShmPos
  · simp [hnull]
  · simp [hnull]

theorem usedHash_eq (k i iUsedHash : Nat) :
    usedHash h k i iUsedHash = iUsedHash + (usedSlots h k i).length := by
  induction k generalizing i iUsedHash with
  | zero => rfl
  | succ k ih =>
      rw [usedHash, usedSlots_succ]
      split
      · exact ih _ _
      · rw [ih, List.length_cons]
        omega

/-- A slot that is not in use adds nothing to the full scan. -/
theorem length_slotsData (hr : Linked h ps) (k i : Nat) :
    (slotsData h ps k i).length = (usedLengths h ps k i).sum := by
  induction k generalizing i with
  | zero => rfl
  | succ k ih =>
      rw [slotsData_succ, List.length_append, ih]
      unfold usedLengths
      rw [usedSlots_succ]
      by_cases hnull : h.m_hashTable i = nullShmPos
      · rw [if_pos hnull, slotData_eq_nil ((slot_null_iff hr i).mp hnull), List.length_nil,
          Nat.zero_add]
      · rw [if_neg hnull, List.map_cons, List.sum_cons]

/-- **The walk of `getHashPercent`** adds up the lengths of the slots in use and enters each
of them. -/
theorem countSlots_eq (hr : Linked h ps) (hn : Enough d ps n) {k i : Nat}
    (hk : i + k ≤ d.m_hashSize) (iRecordCount : Nat) (mHashCal : List (Nat × Nat)) :
    countSlots h n k i iRecordCount mHashCal =
      some (iRecordCount + (usedLengths h ps k i).sum,
        Histogram.addAll (usedLengths h ps k i) mHashCal) := by
  induction k generalizing i iRecordCount mHashCal with
  | zero => rfl
  | succ k ih =>
      unfold countSlots usedLengths
      rw [usedSlots_succ]
      by_cases hnull : h.m_hashTable i = nullShmPos
      · rw [if_pos hnull, if_pos hnull]
        exact ih (by omega) _ _
      · obtain ⟨hlength, hrows⟩ := rounds_le (hn i (by omega))
        have hslot : (slotData h ps i).length = (flat (ps i)).length := List.length_map ..
        have hpos : (flat (ps i)).length ≠ 0 := by
          rw [← hslot]
          exact fun hzero => slotData_ne_nil (fun hnil => hnull ((slot_null_iff hr i).mpr hnil))
            (List.length_eq_zero_iff.mp hzero)
        rw [if_neg hnull, if_neg hnull, countColumn_eq (hr.slot i) hlength hrows,
          Option.bind_some]
        dsimp only
        rw [Nat.zero_add, if_neg hpos, ih (by omega), List.map_cons, List.sum_cons, hslot,
          Nat.add_assoc]
        rfl

/-- The slots whose walk collects `len` addresses are those of this length. -/
theorem countP_slotHas (hr : Linked h ps) (hn : Enough d ps n) (len : Nat) :
    (List.range d.m_hashSize).countP (slotHas h n len) =
      (usedLengths h ps d.m_hashSize 0).count len := by
  unfold usedLengths usedSlots List.count
  rw [← List.range_eq_range', List.countP_map, List.countP_filter]
  refine List.countP_congr fun i hi => ?_
  have hlt : i < d.m_hashSize := List.mem_range.mp hi
  unfold slotHas
  rw [collectColumn_slot hr (hn i hlt)]
  simp only [Option.map_some, Option.some.injEq, Function.comp_apply, beq_iff_eq,
    decide_eq_true_eq, Bool.and_eq_true]
  tauto

/-- **`getHashPercent`** of a linked index. -/
theorem getHashPercent_spec (hr : Linked h ps) (hn : Enough d ps n) :
    ∃ p, getHashPercent d h n = some p ∧ Figures d h n (slotsData h ps d.m_hashSize 0) p := by
  unfold getHashPercent
  rw [countSlots_eq hr hn (by omega)]
  have hcounts : Histogram.Counts (usedLengths h ps d.m_hashSize 0)
      (Histogram.addAll (usedLengths h ps d.m_hashSize 0) []) :=
    Histogram.counts_addAll Histogram.counts_nil _
  have hlength : (usedLengths h ps d.m_hashSize 0).length = (usedSlots h d.m_hashSize 0).length :=
    List.length_map ..
  refine ⟨_, rfl, rfl, ?_, ?_, ?_, ?_, hcounts.ascending, fun len c => ?_⟩
  · rw [usedHash_eq, Nat.zero_add, List.range_eq_range', List.countP_eq_length_filter]
    rfl
  · rw [length_slotsData hr]
    exact Nat.zero_add _
  · rw [Histogram.total_addAll, usedHash_eq, hlength]
    rfl
  · have hweight := Histogram.weigh_addAll (fun len => len) (usedLengths h ps d.m_hashSize 0) []
    rw [List.map_id'] at hweight
    exact hweight
  · rw [hcounts.entry, countP_slotHas hr hn]

end IndexHash
