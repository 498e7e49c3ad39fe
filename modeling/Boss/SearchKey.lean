import Boss.IndexKey
import Boss.InputParams
import Mathlib.Data.List.GetD
import Mathlib.Data.List.Zip

/-!
# The key of a search and the key of a record

A row is looked up by the values that it was inserted with: `getSearchKey` makes a key of the
values, `getIndexKey` one of the record that `assembleRec` made of them.  Both have the same
bytes of a value.  Behind a string that is shorter than its column they differ where one of
them is not blank: the record, where a column in front is longer than what it takes in a slot;
the search, where the slot of the parameter held a longer string before and more of the
caller's memory is copied.  Apart from that keys and records have to fit their buffers
(`hits_iff`).
-/

namespace SearchKey

open ByteMemory RecordConvert IndexKey Params

/-! ## The record -/

/-- The values of all columns, written in the order of the columns. -/
def writeAll (m : Nat → UInt8) (ps : List (ColumnDef × List UInt8)) : Nat → UInt8 :=
  ps.foldl (fun m p => write m p.1.m_offSet p.2) m

/-- `assembleRec` writes all values, unless one goes beyond the record. -/
theorem assembleColumns_eq {size : Nat} {cs : List ColumnDef} {values : List (List UInt8)}
    (hfits : List.Forall₂ ColumnDef.Fits cs values) (rec : Nat → UInt8) :
    assembleColumns size rec cs (values.map some) =
      if ∀ p ∈ cs.zip values, p.1.m_offSet + p.2.length ≤ size then
        .ok (writeAll rec (cs.zip values))
      else .error .outside := by
  induction hfits generalizing rec with
  | nil => simp [assembleColumns, writeAll]
  | @cons c value cs values hc _ ih =>
      rw [List.map_cons, assembleColumns, hc.source, List.zip_cons_cons]
      change (memcpy size rec c.m_offSet value).bind _ = _
      simp only [List.forall_mem_cons]
      by_cases hin : c.m_offSet + value.length ≤ size
      · rw [memcpy_eq _ hin]
        change assembleColumns size (write rec c.m_offSet value) cs (values.map some) = _
        rw [ih]
        by_cases hall : ∀ p ∈ cs.zip values, p.1.m_offSet + p.2.length ≤ size
        · rw [if_pos hall, if_pos ⟨hin, hall⟩]
          rfl
        · rw [if_neg hall, if_neg fun h : _ ∧ _ => hall h.2]
      · rw [memcpy, if_neg hin, if_neg fun h : _ ∧ _ => hin h.1]
        rfl

theorem writeAll_outside {ps : List (ColumnDef × List UInt8)} {x : Nat}
    (h : ∀ p ∈ ps, x < p.1.m_offSet ∨ p.1.m_offSet + p.2.length ≤ x) (m : Nat → UInt8) :
    writeAll m ps x = m x := by
  induction ps generalizing m with
  | nil => rfl
  | cons p ps ih =>
      rw [List.forall_mem_cons] at h
      have hrest : writeAll m (p :: ps) x = writeAll (write m p.1.m_offSet p.2) ps x := rfl
      rw [hrest, ih h.2, write_outside h.1]

/-- The column of a name with its value. -/
def found (ps : List (ColumnDef × List UInt8)) (columnName : List Char) :
    Option (ColumnDef × List UInt8) :=
  ps.find? fun p => sameName p.1.m_name columnName

/-- The columns in front of it. -/
def inFront (ps : List (ColumnDef × List UInt8)) (columnName : List Char) :
    List (ColumnDef × List UInt8) :=
  ps.takeWhile fun p => !sameName p.1.m_name columnName

theorem found_split {ps : List (ColumnDef × List UInt8)} {columnName : List Char}
    {p : ColumnDef × List UInt8} (h : found ps columnName = some p) :
    ∃ post, ps = inFront ps columnName ++ p :: post := by
  induction ps with
  | nil => cases h
  | cons q ps ih =>
      unfold found at h
      unfold inFront
      rw [List.find?_cons] at h
      cases hname : sameName q.1.m_name columnName with
      | true =>
          rw [hname] at h
          cases h
          exact ⟨ps, by rw [List.takeWhile_cons_of_neg (by simp [hname])]; rfl⟩
      | false =>
          rw [hname] at h
          obtain ⟨post, hpost⟩ := ih h
          refine ⟨post, ?_⟩
          rw [List.takeWhile_cons_of_pos (by simp [hname]), List.cons_append]
          exact congrArg (q :: ·) hpost

theorem column_of_found {d : TableDesc} {values : List (List UInt8)}
    (hlen : d.columns.length = values.length) {columnName : List Char}
    {p : ColumnDef × List UInt8} (h : found (d.columns.zip values) columnName = some p) :
    column d columnName = some p.1 := by
  have hfst : d.columns = (d.columns.zip values).map Prod.fst :=
    (List.map_fst_zip hlen.le).symm
  rw [column, hfst, List.find?_map]
  exact congrArg (Option.map Prod.fst) h

/-- A column ends before those behind it begin. -/
theorem le_behind {pre post : List ColumnDef} {c : ColumnDef} {n : Nat} :
    ∀ {a b : Nat}, Placed a (pre ++ c :: post) b → c.slotLen = some n →
      ∀ e ∈ post, c.m_offSet + n ≤ e.m_offSet := by
  induction pre with
  | nil =>
      intro a b h hn e he
      cases h with
      | cons hoff hlen hrest =>
          obtain rfl := Option.some.inj (hlen.symm.trans hn)
          rw [hoff]
          exact hrest.le_offSet e he
  | cons q pre ih =>
      intro a b h hn e he
      cases h with
      | cons _ _ hrest => exact ih hrest hn e he

/-- **What a record has in a column** that is as long as what it takes in a slot: the value, and
behind it what the columns in front have left there. -/
theorem writeAll_column {cs : List ColumnDef} {values : List (List UInt8)} {a b : Nat}
    (hplaced : Placed a cs b) (hfits : List.Forall₂ ColumnDef.Fits cs values)
    {columnName : List Char} {c : ColumnDef} {value : List UInt8}
    (h : found (cs.zip values) columnName = some (c, value)) (hsize : c.slotLen = some c.m_len)
    {k : Nat} (hk : k < c.m_len) :
    writeAll (fun _ => 0) (cs.zip values) (c.m_offSet + k) =
      if k < value.length then value.getD k 0
      else writeAll (fun _ => 0) (inFront (cs.zip values) columnName) (c.m_offSet + k) := by
  obtain ⟨post, hpost⟩ := found_split h
  have hcs : cs = (inFront (cs.zip values) columnName).map Prod.fst ++ c :: post.map Prod.fst := by
    have hmap := congrArg (List.map Prod.fst) hpost
    rwa [List.map_fst_zip hfits.length_eq.le, List.map_append, List.map_cons] at hmap
  have hbehind : ∀ p ∈ post, c.m_offSet + c.m_len ≤ p.1.m_offSet := by
    intro p hp
    rw [hcs] at hplaced
    exact le_behind hplaced hsize p.1 (List.mem_map_of_mem hp)
  have hall : writeAll (fun _ => 0) (cs.zip values) (c.m_offSet + k) =
      write (writeAll (fun _ => 0) (inFront (cs.zip values) columnName)) c.m_offSet value
        (c.m_offSet + k) := by
    conv_lhs => rw [hpost]
    rw [writeAll, List.foldl_append, List.foldl_cons]
    refine writeAll_outside (fun p hp => Or.inl ?_) _
    have := hbehind p hp
    omega
  rw [hall]
  by_cases hin : k < value.length
  · rw [if_pos hin, write, if_pos (by omega), Nat.add_sub_cancel_left]
  · rw [if_neg hin, write_outside (by omega)]

/-! ## The key of a search -/

/-- What is searched for in one column of an index. -/
structure Sought where
  columnName : List Char
  given : Given

/-- The bytes of a key that come from a value: its copy, up to the end of the column. -/
def soughtBytes (x : Nat × Sought) : List UInt8 :=
  (List.range x.2.given.c.m_len).map fun k =>
    if k < x.2.given.lenth x.1 then x.2.given.arg.memory.getD k 0 else 0

/-- No copy goes beyond the buffer of a key. -/
def CopiesFit : Nat → List (Nat × Sought) → Prop
  | _, [] => True
  | iOffSize, x :: xs =>
      iOffSize + x.2.given.lenth x.1 ≤ maxColumnLen ∧ CopiesFit (iOffSize + x.2.given.c.m_len) xs

variable {d : TableDesc} {xs : List (Nat × Sought)}

/-- The names and the copies that `getSearchKey` works on. -/
def names (xs : List (Nat × Sought)) : List (List Char) := xs.map (·.2.columnName)

def copies (xs : List (Nat × Sought)) : List (List UInt8) :=
  xs.map fun x => (x.2.given.slot x.1).m_pValue

theorem length_copy {x : Nat × Sought}
    (hreach : x.2.given.lenth x.1 ≤ x.2.given.arg.memory.length) :
    (x.2.given.slot x.1).m_pValue.length = x.2.given.lenth x.1 :=
  List.length_take_of_le hreach

theorem getD_copy {x : Nat × Sought} {k : Nat} (hk : k < x.2.given.lenth x.1) :
    (x.2.given.slot x.1).m_pValue.getD k 0 = x.2.given.arg.memory.getD k 0 := by
  rw [List.getD_eq_getElem?_getD, List.getD_eq_getElem?_getD]
  exact congrArg (Option.getD · 0) (List.getElem?_take_of_lt hk)

/-- One value of a search. -/
theorem searchKeyFrom_cons {columnName : List Char} {c : ColumnDef}
    (hcolumn : column d columnName = some c) {iOffSize : Nat} {value : List UInt8}
    (hin : iOffSize + value.length ≤ maxColumnLen) (key : Nat → UInt8) (names : List (List Char))
    (values : List (List UInt8)) :
    searchKeyFrom d iOffSize key (columnName :: names) (value :: values) =
      searchKeyFrom d (iOffSize + c.m_len) (write key iOffSize value) names values := by
  rw [searchKeyFrom, memcpy_eq _ hin, hcolumn]
  rfl

/-- A key is only made if all copies fit. -/
theorem copiesFit_of_ok (hcolumn : ∀ x ∈ xs, column d x.2.columnName = some x.2.given.c)
    (hreach : ∀ x ∈ xs, x.2.given.lenth x.1 ≤ x.2.given.arg.memory.length) :
    ∀ {iOffSize : Nat} {key key' : Nat → UInt8},
      searchKeyFrom d iOffSize key (names xs) (copies xs) = .ok key' → CopiesFit iOffSize xs := by
  induction xs with
  | nil => exact fun _ => trivial
  | cons x xs ih =>
      intro iOffSize key key' hok
      rw [List.forall_mem_cons] at hcolumn hreach
      rw [names, copies, List.map_cons, List.map_cons, ← names, ← copies] at hok
      have hlen := length_copy hreach.1
      by_cases hin : iOffSize + x.2.given.lenth x.1 ≤ maxColumnLen
      · rw [searchKeyFrom_cons hcolumn.1 (by omega)] at hok
        exact ⟨hin, ih hcolumn.2 hreach.2 hok⟩
      · rw [searchKeyFrom, memcpy, if_neg (by omega)] at hok
        cases hok

/-- **The key of a search.**  A copy is at most one byte longer than its column, and this byte
is written over by the next copy. -/
theorem searchKeyFrom_spec (hcolumn : ∀ x ∈ xs, column d x.2.columnName = some x.2.given.c)
    (hreach : ∀ x ∈ xs, x.2.given.lenth x.1 ≤ x.2.given.arg.memory.length)
    (hbounded : ∀ x ∈ xs, Bounded x.2.given.c (x.2.given.lenth x.1)) :
    ∀ {iOffSize : Nat} {key : Nat → UInt8}, (∀ y, iOffSize < y → key y = 0) →
      CopiesFit iOffSize xs →
      ∃ key', searchKeyFrom d iOffSize key (names xs) (copies xs) = .ok key' ∧
        (∀ y < iOffSize, key' y = key y) ∧
        read key' iOffSize (xs.map (·.2.given.c.m_len)).sum = xs.flatMap soughtBytes := by
  induction xs with
  | nil => exact fun _ _ => ⟨_, rfl, fun _ _ => rfl, rfl⟩
  | cons x xs ih =>
      intro iOffSize key hblank hfit
      rw [List.forall_mem_cons] at hcolumn hreach hbounded
      obtain ⟨hin, hrest⟩ := hfit
      have hlen := length_copy hreach.1
      have hle := hbounded.1.le
      have hblank' : ∀ y, iOffSize + x.2.given.c.m_len < y →
          write key iOffSize (x.2.given.slot x.1).m_pValue y = 0 := by
        intro y hy
        rw [write_outside (by omega)]
        exact hblank y (by omega)
      obtain ⟨key', hok, hsame, hread⟩ := ih hcolumn.2 hreach.2 hbounded.2 hblank' hrest
      refine ⟨key', ?_, fun y hy => ?_, ?_⟩
      · rw [names, copies, List.map_cons, List.map_cons, ← names, ← copies,
          searchKeyFrom_cons hcolumn.1 (by omega)]
        exact hok
      · rw [hsame y (by omega), write_outside (by omega)]
      · rw [List.map_cons, List.sum_cons, List.flatMap_cons, ← hread]
        have hsplit : read key' iOffSize
            (x.2.given.c.m_len + (xs.map (·.2.given.c.m_len)).sum) =
            read key' iOffSize x.2.given.c.m_len ++
              read key' (iOffSize + x.2.given.c.m_len) (xs.map (·.2.given.c.m_len)).sum := by
          simp [ByteMemory.read, List.range_add, Nat.add_assoc, Function.comp_def]
        rw [hsplit]
        congr 1
        unfold soughtBytes
        refine List.map_congr_left fun k hk => ?_
        have hk' : k < x.2.given.c.m_len := List.mem_range.mp hk
        rw [hsame _ (by omega)]
        by_cases hcopy : k < x.2.given.lenth x.1
        · rw [if_pos hcopy, write, if_pos (by omega), Nat.add_sub_cancel_left, getD_copy hcopy]
        · -- a copy that is shorter than its column is that of a string, with its zero
          have hpos : 0 < x.2.given.lenth x.1 := by
            have hbound := hbounded.1
            unfold Bounded at hbound
            split at hbound <;> omega
          rw [if_neg hcopy, write_outside (by omega)]
          exact hblank _ (by omega)

/-! ## Both keys -/

/-- The values that are searched for are those of the record, in columns that take in a slot
what they are declared with. -/
def SoughtIn (d : TableDesc) (values : List (List UInt8)) (e : Sought) : Prop :=
  found (d.columns.zip values) e.columnName = some (e.given.c, e.given.value) ∧
    e.given.c.m_type ≠ .NUMSTR

/-- A record is assembled of the values, a key is made of the values that are searched for, and
it is the key of the record. -/
def Hits (d : TableDesc) (values : List (List UInt8)) (p : InputParams) (es : List Sought) : Prop :=
  ∃ rec q key key', assembleRec d (values.map some) = .ok rec ∧
    p.setAll (es.map (·.given.arg)) = some q ∧
    getSearchKey d (es.map (·.columnName)) (q.slots.map (·.m_pValue)) = .ok key ∧
    getIndexKey d (es.map (·.columnName)) rec = .ok key' ∧
    read key 0 (getHashKeyLenth d (es.map (·.columnName))) =
      read key' 0 (getHashKeyLenth d (es.map (·.columnName)))

/-- What the copy of a value leaves behind the value. -/
def leftInCopy (x : Nat × Sought) (k : Nat) : UInt8 :=
  if k < x.2.given.lenth x.1 then x.2.given.arg.memory.getD k 0 else 0

/-- What the columns in front leave behind the value in the record. -/
def leftInRecord (d : TableDesc) (values : List (List UInt8)) (e : Sought) (k : Nat) : UInt8 :=
  writeAll (fun _ => 0) (inFront (d.columns.zip values) e.columnName) (e.given.c.m_offSet + k)

/-- Records and keys fit their buffers, and behind a value both have the same left. -/
structure Lands (d : TableDesc) (values : List (List UInt8)) (p : InputParams)
    (es : List Sought) : Prop where
  record : ∀ q ∈ d.columns.zip values, q.1.m_offSet + q.2.length ≤ d.recordSize
  key : (es.map (·.given.c.m_len)).sum ≤ maxColumnLen
  copies : CopiesFit 0 (p.oldLenths.zip es)
  reach : ∀ x ∈ p.oldLenths.zip es, x.2.given.lenth x.1 ≤ x.2.given.arg.memory.length
  behind : ∀ x ∈ p.oldLenths.zip es, ∀ k, x.2.given.value.length ≤ k → k < x.2.given.c.m_len →
    leftInCopy x k = leftInRecord d values x.2 k

theorem Given.slotLen (g : Given) (h : g.c.m_type ≠ .NUMSTR) : g.c.slotLen = some g.c.m_len := by
  by_cases hvstr : g.c.m_type = .VSTR
  · rw [ColumnDef.slotLen, hvstr]
  · exact g.gives.size (by simp [ColumnDef.isString, h, hvstr])

/-- A value is all in its copy. -/
theorem copy_value (x : Nat × Sought) {k : Nat} (hk : k < x.2.given.value.length) :
    k < x.2.given.lenth x.1 ∧ x.2.given.arg.memory.getD k 0 = x.2.given.value.getD k 0 := by
  have hmemory := x.2.given.gives.memory
  have hlen := x.2.given.gives.fits.length_le
  unfold Given.lenth lenthAfter
  by_cases hstring : x.2.given.c.isString = true
  · rw [if_pos hstring] at hmemory ⊢
    obtain ⟨behind, hbehind⟩ := hmemory
    exact ⟨by omega, by rw [hbehind, List.getD_append _ _ _ _ hk]⟩
  · rw [if_neg hstring] at hmemory ⊢
    obtain ⟨behind, hbehind⟩ := hmemory
    exact ⟨by omega, by rw [hbehind, List.getD_append _ _ _ _ hk]⟩

section

variable {values : List (List UInt8)} {p : InputParams} {es : List Sought}

/-- One column: both keys agree just where the same is left behind the value. -/
theorem soughtBytes_eq_iff {b : Nat} (hplaced : Placed 0 d.columns b)
    (hfits : List.Forall₂ ColumnDef.Fits d.columns values) {x : Nat × Sought}
    (hx : SoughtIn d values x.2) :
    soughtBytes x =
        columnBytes d (writeAll (fun _ => 0) (d.columns.zip values)) x.2.columnName ↔
      ∀ k, x.2.given.value.length ≤ k → k < x.2.given.c.m_len →
        leftInCopy x k = leftInRecord d values x.2 k := by
  have hcolumn := column_of_found hfits.length_eq hx.1
  have hrecord : ∀ k, k < x.2.given.c.m_len → _ := fun k hk =>
    writeAll_column hplaced hfits hx.1 (Given.slotLen _ hx.2) hk
  unfold columnBytes
  rw [hcolumn]
  dsimp only
  rw [soughtBytes, ByteMemory.read, List.map_inj_left]
  simp only [List.mem_range]
  constructor
  · intro h k hlow hk
    have hbyte := hrecord k hk
    rw [if_neg (by omega)] at hbyte
    exact (h k hk).trans hbyte
  · intro h k hk
    rw [hrecord k hk]
    by_cases hvalue : k < x.2.given.value.length
    · obtain ⟨hcopy, hbyte⟩ := copy_value x hvalue
      rw [if_pos hvalue, if_pos hcopy, hbyte]
    · rw [if_neg hvalue]
      exact h k (by omega) hk

/-- What `setAll` makes of a clean parameter object. -/
theorem setAll_sought (hp : Clean (es.map (·.given.c)) p) :
    p.setAll (es.map (·.given.arg)) =
      if ∀ x ∈ p.oldLenths.zip es, x.2.given.lenth x.1 ≤ x.2.given.arg.memory.length then
        some ⟨es.length, (p.oldLenths.zip es).map fun x => x.2.given.slot x.1, es.length,
          p.m_isReseted⟩
      else none := by
  have hcolumns : (es.map (·.given)).map (·.c) = es.map (·.given.c) := by
    rw [List.map_map]
    rfl
  have hset := hp.setAll hcolumns
  rw [List.map_map] at hset
  have hargs : es.map (·.given.arg) = es.map ((fun g : Given => g.arg) ∘ fun e => e.given) := rfl
  have hreach : (∀ x ∈ p.oldLenths.zip (es.map (·.given)), x.2.lenth x.1 ≤ x.2.arg.memory.length) ↔
      ∀ x ∈ p.oldLenths.zip es, x.2.given.lenth x.1 ≤ x.2.given.arg.memory.length := by
    rw [List.zip_map_right, List.forall_mem_map]
    rfl
  have hslots : ((p.oldLenths.zip (es.map (·.given))).map fun x => x.2.slot x.1) =
      (p.oldLenths.zip es).map fun x => x.2.given.slot x.1 := by
    rw [List.zip_map_right, List.map_map]
    rfl
  rw [hargs, hset, copiedAll_eq, hslots, List.length_map]
  by_cases hall : ∀ x ∈ p.oldLenths.zip es, x.2.given.lenth x.1 ≤ x.2.given.arg.memory.length
  · rw [if_pos hall, if_pos (hreach.mpr hall)]
    rfl
  · rw [if_neg hall, if_neg fun h => hall (hreach.mp h)]
    rfl

/-- A list of the columns is one of the columns with the lengths of their slots. -/
theorem map_sought_eq {β : Type} {lenths : List Nat} (hlen : lenths.length = es.length)
    (f : Sought → β) : es.map f = (lenths.zip es).map fun x => f x.2 := by
  conv_lhs => rw [← List.map_snd_zip hlen.ge]
  rw [List.map_map]
  rfl

theorem bounded_of_clean (hp : Clean (es.map (·.given.c)) p) :
    ∀ x ∈ p.oldLenths.zip es, Bounded x.2.given.c (x.2.given.lenth x.1) := by
  intro x hx
  have hle := hp.oldLenths_le
  rw [List.forall₂_map_left_iff, List.forall₂_iff_zip] at hle
  have hswap : (x.2, x.1) ∈ es.zip p.oldLenths := by
    rw [← List.zip_swap]
    exact List.mem_map.mpr ⟨x, hx, rfl⟩
  exact x.2.given.gives.bounded (hle.2 hswap)

theorem getHashKeyLenth_sought (hlen : d.columns.length = values.length)
    (hes : ∀ e ∈ es, SoughtIn d values e) :
    getHashKeyLenth d (es.map (·.columnName)) = (es.map (·.given.c.m_len)).sum := by
  rw [getHashKeyLenth_eq, List.map_map]
  refine congrArg List.sum (List.map_congr_left fun e he => ?_)
  exact declaredLen_of_column (column_of_found hlen (hes e he).1)

/-- All columns: both keys agree just where they do in each of them. -/
theorem soughtKey_eq_iff {b : Nat} (hplaced : Placed 0 d.columns b)
    (hfits : List.Forall₂ ColumnDef.Fits d.columns values)
    (hxs : ∀ x ∈ xs, SoughtIn d values x.2) :
    xs.flatMap soughtBytes =
        keyBytes d (writeAll (fun _ => 0) (d.columns.zip values)) (names xs) ↔
      ∀ x ∈ xs, ∀ k, x.2.given.value.length ≤ k → k < x.2.given.c.m_len →
        leftInCopy x k = leftInRecord d values x.2 k := by
  have hpieces : ∀ rec, ∀ x ∈ xs,
      (soughtBytes x).length = (columnBytes d rec x.2.columnName).length := by
    intro rec x hx
    have hcolumn := column_of_found hfits.length_eq (hxs x hx).1
    rw [length_columnBytes, declaredLen_of_column hcolumn, soughtBytes, List.length_map,
      List.length_range]
  rw [keyBytes, names, List.flatMap_map, flatMap_eq_iff (hpieces _)]
  exact forall_congr' fun x => forall_congr' fun hx => soughtBytes_eq_iff hplaced hfits (hxs x hx)

end

/-- A string of a column that holds up to `m_len` characters. -/
def givenString (c : ColumnDef) (hc : c.m_type = .VSTR) (value : List UInt8) (h : c.Fits value) :
    Given where
  c := c
  value := value
  arg := ⟨.VSTR, value ++ [0]⟩
  gives :=
    { type := hc.symm
      fits := h
      known := by rw [hc]; decide
      size := by simp [ColumnDef.isString, hc]
      memory := by
        rw [if_pos (by simp [ColumnDef.isString, hc])]
        exact ⟨[], rfl⟩ }

/-- Cards are searched by their name. -/
def cardSought : List Sought :=
  [⟨['N'], givenString ⟨['n'], .VSTR, 5, 4⟩ rfl [65, 66] (by decide)⟩]

/-- A number of four digits in front of a string. -/
def digitsTable : TableDef := ⟨[⟨['n'], .NUMSTR, 4, 0⟩, ⟨['s'], .VSTR, 4, 0⟩]⟩

def digitsSought : List Sought :=
  [⟨['s'], givenString ⟨['s'], .VSTR, 4, 2⟩ rfl [65] (by decide)⟩]

end SearchKey
