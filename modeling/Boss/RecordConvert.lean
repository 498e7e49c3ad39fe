import Boss.ByteMemory
import Boss.IndexMemMgr
import Mathlib.Data.List.Forall2
import Mathlib.Data.List.Pairwise
import Mathlib.Data.List.TakeWhile

/-!
# Columns in a record

`getSlotSize` gives every column of a table its offset in a slot, one behind the other, and
adds up what the types take there.  `assembleRec` writes the values of a record at these
offsets and `getColumnValue` reads them.  But it copies by the declared length `m_len`, and
what a type takes in a slot is another number: half of it for a numeric string, a constant
for numbers.  What is written comes back for all values exactly when no declared length
goes beyond the column that follows (`roundTrip_iff_roomy`).

Lengths are natural numbers here: the sums of a slot are taken to fit in an `int`.
-/

namespace RecordConvert

open ByteMemory
open IndexMemMgr (sizeofShmPosition)

/-- `COLUMN_VAR_TYPE`, without the prefix `VAR_TYPE_`. -/
inductive COLUMN_VAR_TYPE
  | INT2 | INT | DATE | LONG | REAL | NUMSTR | VSTR | UNKNOW
  deriving DecidableEq

structure ColumnDef where
  m_name : List Char
  m_type : COLUMN_VAR_TYPE
  m_len : Nat
  m_offSet : Nat
  deriving DecidableEq

/-- The columns of a `TableDef`. -/
structure TableDef where
  m_columnList : List ColumnDef

/-- A `TableDesc`: its definition and `m_pageInfo.m_slotSize`. -/
structure TableDesc where
  m_tableDef : TableDef
  m_slotSize : Int

namespace ColumnDef

/-- What a column takes in a slot; a type that is not known ends `getSlotSize`. -/
def slotLen (c : ColumnDef) : Option Nat :=
  match c.m_type with
  | .INT2 => some 2
  | .INT => some 4
  | .DATE => some (2 * 4)
  | .LONG => some 8
  | .REAL => some 4
  | .NUMSTR => some ((c.m_len + 1) / 2)
  | .VSTR => some c.m_len
  | .UNKNOW => none

def isString (c : ColumnDef) : Bool := c.m_type = .NUMSTR ∨ c.m_type = .VSTR

end ColumnDef

/-- The loop of `getSlotSize`: the columns with their offsets, and the sum or -1. -/
def placeColumns (t_slotSize : Nat) : List ColumnDef → List ColumnDef × Int
  | [] => ([], t_slotSize)
  | c :: cs =>
      let c' := { c with m_offSet := t_slotSize }
      match c.slotLen with
      | none => (c' :: cs, -1)
      | some n =>
          let (cs', size) := placeColumns (t_slotSize + n) cs
          (c' :: cs', size)

/-- `TableDef::getSlotSize`, which writes the offsets on its way. -/
def TableDef.getSlotSize (t : TableDef) : TableDef × Int :=
  let (cs, size) := placeColumns 0 t.m_columnList
  (⟨cs⟩, size)

/-- `initByTableDef` with `setSlotSize`: the sum is compared as a `size_t`, where -1 is larger
than every other number. -/
def initByTableDef (t : TableDef) : TableDesc :=
  let (t', t_slotSize) := t.getSlotSize
  ⟨t', if t_slotSize < 0 ∨ sizeofShmPosition < t_slotSize then t_slotSize
    else sizeofShmPosition⟩

namespace TableDesc

def columns (d : TableDesc) : List ColumnDef := d.m_tableDef.m_columnList

/-- What `malloc` gives a record. -/
def recordSize (d : TableDesc) : Nat := d.m_slotSize.toNat

/-- `m_columnPos.find`: of two columns with one name the first has been kept. -/
def columnPos (d : TableDesc) (columnName : List Char) : Option Nat :=
  d.columns.findIdx? fun c => decide (c.m_name.map Char.toLower = columnName.map Char.toLower)

end TableDesc

/-- How a call ends without a result. -/
inductive Failure
  /-- `值个数和表定义字段数不符!` -/
  | count
  /-- A copy leaves the record or the value it reads, and is not followed any further. -/
  | outside
  deriving DecidableEq

/-- What a column copies from a value: the characters in front of the zero, or `m_len` bytes. -/
def ColumnDef.source (c : ColumnDef) (value : List UInt8) : Except Failure (List UInt8) :=
  if c.isString then .ok (value.takeWhile (· ≠ 0))
  else if c.m_len ≤ value.length then .ok (value.take c.m_len)
  else .error .outside

/-- `memcpy` to a place in a record. -/
def memcpy (size : Nat) (rec : Nat → UInt8) (offSet : Nat) (bytes : List UInt8) :
    Except Failure (Nat → UInt8) :=
  if offSet + bytes.length ≤ size then .ok (write rec offSet bytes) else .error .outside

/-- The loop of `assembleRec`; a value that is missing is NULL. -/
def assembleColumns (size : Nat) (rec : Nat → UInt8) :
    List ColumnDef → List (Option (List UInt8)) → Except Failure (Nat → UInt8)
  | [], _ => .ok rec
  | _ :: _, [] => .error .count
  | _ :: _, none :: _ => .error .count
  | c :: cs, some value :: pValues =>
      (c.source value).bind fun bytes =>
        (memcpy size rec c.m_offSet bytes).bind fun rec' => assembleColumns size rec' cs pValues

/-- `assembleRec`. -/
def assembleRec (d : TableDesc) (pValues : List (Option (List UInt8))) :
    Except Failure (Nat → UInt8) :=
  assembleColumns d.recordSize (fun _ => 0) d.columns pValues

/-- `getColumnValue` by the number of a column: `m_len` bytes, or false. -/
def getColumnAt (d : TableDesc) (rec : Nat → UInt8) (iSequnce : Nat) :
    Except Failure (Option (List UInt8)) :=
  match d.columns[iSequnce]? with
  | none => .ok none
  | some c =>
      if c.m_offSet + c.m_len ≤ d.recordSize then .ok (some (read rec c.m_offSet c.m_len))
      else .error .outside

/-- `getColumnValue` by the name of a column. -/
def getColumnValue (d : TableDesc) (rec : Nat → UInt8) (columnName : List Char) :
    Except Failure (Option (List UInt8)) :=
  match d.columnPos columnName with
  | none => .ok none
  | some i => getColumnAt d rec i

/-! ## Values that fit and come back -/

/-- A value that fits its column: a string of at most `m_len` characters, or `m_len` bytes. -/
def ColumnDef.Fits (c : ColumnDef) (value : List UInt8) : Prop :=
  if c.isString then (0 : UInt8) ∉ value ∧ value.length ≤ c.m_len else value.length = c.m_len

instance (c : ColumnDef) (value : List UInt8) : Decidable (c.Fits value) :=
  inferInstanceAs (Decidable (if c.isString then (0 : UInt8) ∉ value ∧ value.length ≤ c.m_len
    else value.length = c.m_len))

/-- What reading a column is to give: the value, and zeros behind a string. -/
def ColumnDef.image (c : ColumnDef) (value : List UInt8) : List UInt8 :=
  value ++ List.replicate (c.m_len - value.length) 0

/-- The value of every column is read from a record. -/
def Holds (d : TableDesc) (rec : Nat → UInt8) (values : List (List UInt8)) : Prop :=
  ∀ i c value, d.columns[i]? = some c → values[i]? = some value →
    getColumnAt d rec i = .ok (some (c.image value))

/-- A record of these values is assembled and all values are read from it; what is written for
different columns does not overlap, and stays in the slot. -/
structure RoundTrip (d : TableDesc) (values : List (List UInt8)) : Prop where
  assembled : ∃ rec, assembleRec d (values.map some) = .ok rec ∧ Holds d rec values ∧
    ∀ columnName i c value, d.columnPos columnName = some i → d.columns[i]? = some c →
      values[i]? = some value → getColumnValue d rec columnName = .ok (some (c.image value))
  apart : (d.columns.zip values).Pairwise fun p q => ∀ x,
    ¬ ((p.1.m_offSet ≤ x ∧ x < p.1.m_offSet + p.2.length) ∧
      q.1.m_offSet ≤ x ∧ x < q.1.m_offSet + q.2.length)
  within : ∀ p ∈ d.columns.zip values, p.1.m_offSet + p.2.length ≤ d.m_slotSize

theorem ColumnDef.Fits.length_le {c : ColumnDef} {value : List UInt8} (h : c.Fits value) :
    value.length ≤ c.m_len := by
  rw [ColumnDef.Fits] at h
  split at h
  · exact h.2
  · exact h.le

/-- All of a value that fits is copied. -/
theorem ColumnDef.Fits.source {c : ColumnDef} {value : List UInt8} (h : c.Fits value) :
    c.source value = .ok value := by
  rw [ColumnDef.Fits] at h
  rw [ColumnDef.source]
  by_cases hstring : c.isString = true
  · rw [if_pos hstring] at h ⊢
    have hnonzero : ∀ x ∈ value, decide (x ≠ 0) = true := by
      intro x hx
      rw [decide_eq_true_eq]
      rintro rfl
      exact h.1 hx
    rw [List.takeWhile_eq_self_iff.mpr hnonzero]
  · rw [if_neg hstring] at h ⊢
    rw [if_pos h.ge, List.take_of_length_le h.le]

/-- A row of one character fits every column. -/
theorem ColumnDef.fits_replicate (c : ColumnDef) {x : UInt8} (hx : x ≠ 0) :
    c.Fits (List.replicate c.m_len x) := by
  rw [ColumnDef.Fits]
  split
  · refine ⟨fun hmem => hx ?_, by simp⟩
    exact (List.eq_of_mem_replicate hmem).symm
  · simp

/-! ## Where the columns are -/

/-- The columns are one behind the other from `a` to `b`, as wide as their types say. -/
inductive Placed : Nat → List ColumnDef → Nat → Prop
  | nil (a : Nat) : Placed a [] a
  | cons {a b n : Nat} {c : ColumnDef} {cs : List ColumnDef} (hoff : c.m_offSet = a)
      (hlen : c.slotLen = some n) (h : Placed (a + n) cs b) : Placed a (c :: cs) b

theorem Placed.le {a b : Nat} {cs : List ColumnDef} (h : Placed a cs b) : a ≤ b := by
  induction h with
  | nil a => exact Nat.le_refl a
  | cons _ _ _ ih => omega

theorem Placed.le_offSet {a b : Nat} {cs : List ColumnDef} (h : Placed a cs b) :
    ∀ c ∈ cs, a ≤ c.m_offSet := by
  induction h with
  | nil _ => simp
  | @cons a b n c cs hoff hlen h ih =>
      intro d hd
      rcases List.mem_cons.mp hd with rfl | hd
      · exact hoff.ge
      · have := ih d hd
        omega

/-- Every column ends before the next one that has a length, and in the slot. -/
def Apart (size : Nat) (cs : List ColumnDef) : Prop :=
  cs.Pairwise (fun c d => 0 < c.m_len → 0 < d.m_len → c.m_offSet + c.m_len ≤ d.m_offSet) ∧
    ∀ c ∈ cs, c.m_offSet + c.m_len ≤ size

/-- The bytes in front of the first of these columns that has a length. -/
def roomBehind (spare : Nat) : List ColumnDef → Nat
  | [] => spare
  | c :: cs => if c.m_len = 0 then c.slotLen.getD 0 + roomBehind spare cs else 0

/-- No column is longer than what it takes in a slot and the bytes that are free behind it. -/
def Roomy (spare : Nat) : List ColumnDef → Prop
  | [] => True
  | c :: cs => c.m_len ≤ c.slotLen.getD 0 + roomBehind spare cs ∧ Roomy spare cs

theorem le_roomBehind_iff {a b size : Nat} {cs : List ColumnDef} (h : Placed a cs b)
    (hb : b ≤ size) (x : Nat) :
    x ≤ a + roomBehind (size - b) cs ↔ (∀ c ∈ cs, 0 < c.m_len → x ≤ c.m_offSet) ∧ x ≤ size := by
  induction h with
  | nil a =>
      rw [roomBehind]
      simp only [List.not_mem_nil, false_implies, implies_true, true_and]
      omega
  | @cons a b n c cs hoff hlen h ih =>
      rw [roomBehind, hlen, Option.getD_some]
      by_cases hzero : c.m_len = 0
      · rw [if_pos hzero, ← Nat.add_assoc, ih hb]
        simp [hzero]
      · rw [if_neg hzero, Nat.add_zero]
        constructor
        · intro hx
          refine ⟨fun d hd _ => ?_, hx.trans ((Placed.cons hoff hlen h).le.trans hb)⟩
          exact hx.trans ((Placed.cons hoff hlen h).le_offSet d hd)
        · intro hx
          exact (hx.1 c List.mem_cons_self (Nat.pos_of_ne_zero hzero)).trans hoff.le

theorem apart_iff_roomy {a b size : Nat} {cs : List ColumnDef} (h : Placed a cs b)
    (hb : b ≤ size) : Apart size cs ↔ Roomy (size - b) cs := by
  induction h with
  | nil a => simp [Apart, Roomy]
  | @cons a b n c cs hoff hlen h ih =>
      have hroom : c.m_len ≤ n + roomBehind (size - b) cs ↔
          (∀ d ∈ cs, 0 < c.m_len → 0 < d.m_len → c.m_offSet + c.m_len ≤ d.m_offSet) ∧
            c.m_offSet + c.m_len ≤ size := by
        have hle := le_roomBehind_iff h hb (a + c.m_len)
        rw [hoff]
        by_cases hzero : c.m_len = 0
        · have := h.le
          simp only [hzero, Nat.lt_irrefl, false_implies, implies_true, true_and]
          omega
        · simp only [Nat.pos_of_ne_zero hzero, true_implies]
          rw [← hle]
          omega
      rw [Roomy, hlen, Option.getD_some, hroom, ← ih hb, Apart, Apart, List.pairwise_cons,
        List.forall_mem_cons]
      constructor
      · rintro ⟨⟨hbefore, hrest⟩, hin, hall⟩
        exact ⟨⟨hbefore, hin⟩, hrest, hall⟩
      · rintro ⟨⟨hbefore, hin⟩, hrest, hall⟩
        exact ⟨⟨hbefore, hrest⟩, hin, hall⟩

/-! ## The record that is assembled -/

section

variable {size : Nat} (rec : Nat → UInt8)

theorem memcpy_eq {offSet : Nat} {bytes : List UInt8} (h : offSet + bytes.length ≤ size) :
    memcpy size rec offSet bytes = .ok (write rec offSet bytes) :=
  if_pos h

/-- **The columns are assembled one behind the other.**  Where a column with a length begins the
record is still blank. -/
theorem assembleColumns_spec {cs : List ColumnDef} {values : List (List UInt8)}
    (hapart : Apart size cs) (hfits : List.Forall₂ ColumnDef.Fits cs values)
    (hblank : ∀ c ∈ cs, 0 < c.m_len → ∀ x, c.m_offSet ≤ x → rec x = 0) :
    ∃ rec', assembleColumns size rec cs (values.map some) = .ok rec' ∧
      (∀ x, (∀ c ∈ cs, 0 < c.m_len → x < c.m_offSet) → rec' x = rec x) ∧
      ∀ p ∈ cs.zip values, read rec' p.1.m_offSet p.1.m_len = p.1.image p.2 := by
  induction hfits generalizing rec with
  | nil => exact ⟨rec, rfl, fun _ _ => rfl, by simp⟩
  | @cons c value cs values hc hrest ih =>
      obtain ⟨hpair, hin⟩ := hapart
      rw [List.pairwise_cons] at hpair
      have hlen := hc.length_le
      have hend := hin c List.mem_cons_self
      have hblank' : ∀ d ∈ cs, 0 < d.m_len → ∀ x, d.m_offSet ≤ x →
          write rec c.m_offSet value x = 0 := by
        intro d hd hpos x hx
        by_cases hzero : c.m_len = 0
        · rw [write_outside (by omega)]
          exact hblank d (List.mem_cons_of_mem _ hd) hpos x hx
        · have hbefore := hpair.1 d hd (Nat.pos_of_ne_zero hzero) hpos
          rw [write_outside (by omega)]
          exact hblank d (List.mem_cons_of_mem _ hd) hpos x hx
      obtain ⟨rec', hok, hsame, hread⟩ :=
        ih _ ⟨hpair.2, fun d hd => hin d (List.mem_cons_of_mem _ hd)⟩ hblank'
      refine ⟨rec', ?_, fun x hx => ?_, fun p hp => ?_⟩
      · rw [List.map_cons, assembleColumns, hc.source]
        change (memcpy size rec c.m_offSet value).bind _ = _
        rw [memcpy_eq _ (by omega)]
        exact hok
      · rw [hsame x fun d hd => hx d (List.mem_cons_of_mem _ hd)]
        by_cases hzero : c.m_len = 0
        · exact write_outside (by omega)
        · have := hx c List.mem_cons_self (Nat.pos_of_ne_zero hzero)
          exact write_outside (by omega)
      · rw [List.zip_cons_cons] at hp
        rcases List.mem_cons.mp hp with rfl | hp
        · have hkept : read rec' c.m_offSet c.m_len =
              read (write rec c.m_offSet value) c.m_offSet c.m_len := by
            refine read_congr fun y hlow hhigh => hsame y fun d hd hpos => ?_
            have := hpair.1 d hd (by omega) hpos
            omega
          refine hkept.trans (read_write hlen fun x hlow hhigh => ?_)
          exact hblank c List.mem_cons_self (by omega) x (by omega)
        · exact hread p hp

end

/-! ## Tables -/

/-- All types of the table are known. -/
def TableDef.Supported (t : TableDef) : Prop := ∀ c ∈ t.m_columnList, c.m_type ≠ .UNKNOW

/-- What the columns of a table take in a slot. -/
def TableDef.width (t : TableDef) : Nat := (t.m_columnList.map (·.slotLen.getD 0)).sum

/-- No declared length goes beyond the next column that has one, or, at the end, beyond the slot,
which is never shorter than a position. -/
def TableDef.Roomy (t : TableDef) : Prop :=
  RecordConvert.Roomy (sizeofShmPosition - t.width) t.m_columnList

theorem ColumnDef.slotLen_isSome {c : ColumnDef} (h : c.m_type ≠ .UNKNOW) :
    ∃ n, c.slotLen = some n := by
  rw [ColumnDef.slotLen]
  split
  case h_8 hunknown => exact absurd hunknown h
  all_goals exact ⟨_, rfl⟩

/-- The loop gives every column its place, and changes nothing else of it. -/
theorem placeColumns_spec {cs : List ColumnDef} (h : ∀ c ∈ cs, c.m_type ≠ .UNKNOW) (a : Nat) :
    ∃ cs', placeColumns a cs = (cs', ((a + (cs.map (·.slotLen.getD 0)).sum : Nat) : Int)) ∧
      Placed a cs' (a + (cs.map (·.slotLen.getD 0)).sum) ∧
      ∀ spare, Roomy spare cs' ↔ Roomy spare cs := by
  suffices hspec : ∃ cs',
      placeColumns a cs = (cs', ((a + (cs.map (·.slotLen.getD 0)).sum : Nat) : Int)) ∧
      Placed a cs' (a + (cs.map (·.slotLen.getD 0)).sum) ∧
      ∀ spare, (Roomy spare cs' ↔ Roomy spare cs) ∧
        roomBehind spare cs' = roomBehind spare cs by
    obtain ⟨cs', hplace, hplaced, hsame⟩ := hspec
    exact ⟨cs', hplace, hplaced, fun spare => (hsame spare).1⟩
  induction cs generalizing a with
  | nil => exact ⟨[], by simp [placeColumns], by simpa using Placed.nil a, fun _ => by simp⟩
  | cons c cs ih =>
      obtain ⟨n, hn⟩ := ColumnDef.slotLen_isSome (h c List.mem_cons_self)
      obtain ⟨cs', hplace, hplaced, hsame⟩ :=
        ih (fun d hd => h d (List.mem_cons_of_mem _ hd)) (a + n)
      have hn' : ColumnDef.slotLen { c with m_offSet := a } = some n := hn
      refine ⟨{ c with m_offSet := a } :: cs', ?_, ?_, fun spare => ⟨?_, ?_⟩⟩
      · rw [placeColumns, hn]
        dsimp only
        rw [hplace, List.map_cons, List.sum_cons, hn, Option.getD_some, Nat.add_assoc]
      · rw [List.map_cons, List.sum_cons, hn, Option.getD_some, ← Nat.add_assoc]
        exact .cons rfl hn' hplaced
      · rw [RecordConvert.Roomy, RecordConvert.Roomy, hn, hn', (hsame spare).2, (hsame spare).1]
      · rw [roomBehind, roomBehind, hn, hn', (hsame spare).2]

/-- A table that is created has its columns in the slot, one behind the other. -/
theorem initByTableDef_spec {t : TableDef} (h : t.Supported) :
    Placed 0 (initByTableDef t).columns t.width ∧
      (initByTableDef t).m_slotSize = ((initByTableDef t).recordSize : Int) ∧
      (initByTableDef t).recordSize = t.width + (sizeofShmPosition - t.width) ∧
      (RecordConvert.Roomy (sizeofShmPosition - t.width) (initByTableDef t).columns ↔ t.Roomy) := by
  obtain ⟨cs, hplace, hplaced, hsame⟩ := placeColumns_spec h 0
  have hinit : initByTableDef t = ⟨⟨cs⟩, if (t.width : Int) < 0 ∨ (sizeofShmPosition : Int) <
      (t.width : Int) then (t.width : Int) else (sizeofShmPosition : Int)⟩ := by
    rw [initByTableDef, TableDef.getSlotSize, hplace, Nat.zero_add]
    rfl
  rw [Nat.zero_add] at hplaced
  refine ⟨by rw [hinit]; exact hplaced, ?_, ?_, by rw [hinit]; exact hsame _⟩
  · rw [TableDesc.recordSize, hinit]
    dsimp only
    split <;> omega
  · rw [TableDesc.recordSize, hinit]
    dsimp only
    split <;> omega

theorem getColumnAt_eq {d : TableDesc} {i : Nat} {c : ColumnDef} (hc : d.columns[i]? = some c)
    (hin : c.m_offSet + c.m_len ≤ d.recordSize) (rec : Nat → UInt8) :
    getColumnAt d rec i = .ok (some (read rec c.m_offSet c.m_len)) := by
  rw [getColumnAt, hc]
  exact if_pos hin

/-- **Columns that are apart come back.** -/
theorem roundTrip_of_apart {d : TableDesc} {values : List (List UInt8)}
    (hsize : d.m_slotSize = (d.recordSize : Int)) (hapart : Apart d.recordSize d.columns)
    (hfits : List.Forall₂ ColumnDef.Fits d.columns values) : RoundTrip d values := by
  have hzip : ∀ (i : Nat) c value, d.columns[i]? = some c → values[i]? = some value →
      (c, value) ∈ d.columns.zip values := by
    intro i c value hc hvalue
    refine List.mem_iff_getElem?.mpr ⟨i, ?_⟩
    rw [List.getElem?_zip_eq_some]
    exact ⟨hc, hvalue⟩
  have hfit : ∀ p ∈ d.columns.zip values, p.1 ∈ d.columns ∧ p.2.length ≤ p.1.m_len := by
    intro p hp
    obtain ⟨i, hi⟩ := List.mem_iff_getElem?.mp hp
    rw [List.getElem?_zip_eq_some] at hi
    refine ⟨List.mem_of_getElem? hi.1, ?_⟩
    exact ((List.forall₂_iff_zip.mp hfits).2 hp).length_le
  obtain ⟨rec, hok, -, hread⟩ :=
    assembleColumns_spec (fun _ => 0) hapart hfits fun _ _ _ _ _ => rfl
  have hholds : Holds d rec values := by
    intro i c value hc hvalue
    rw [getColumnAt_eq hc (hapart.2 c (List.mem_of_getElem? hc)), hread _ (hzip i c value hc hvalue)]
  constructor
  · refine ⟨rec, hok, hholds, fun columnName i c value hpos hc hvalue => ?_⟩
    rw [getColumnValue, hpos]
    exact hholds i c value hc hvalue
  · have hpair : (d.columns.zip values).Pairwise fun p q =>
        0 < p.1.m_len → 0 < q.1.m_len → p.1.m_offSet + p.1.m_len ≤ q.1.m_offSet := by
      have hfst := hapart.1
      rw [← List.map_fst_zip hfits.length_eq.le] at hfst
      exact List.pairwise_map.mp hfst
    refine hpair.imp_of_mem fun hp hq hpq x ⟨hxp, hxq⟩ => ?_
    have hp' := (hfit _ hp).2
    have hq' := (hfit _ hq).2
    have := hpq (by omega) (by omega)
    omega
  · intro p hp
    obtain ⟨hmem, hlen⟩ := hfit p hp
    have := hapart.2 p.1 hmem
    omega

/-- The record of a round trip is long enough for every column. -/
theorem RoundTrip.within_len {d : TableDesc} {values : List (List UInt8)} (h : RoundTrip d values)
    (hlen : values.length = d.columns.length) :
    ∀ c ∈ d.columns, c.m_offSet + c.m_len ≤ d.recordSize := by
  intro c hc
  obtain ⟨i, hi, rfl⟩ := List.mem_iff_getElem.mp hc
  obtain ⟨rec, -, hholds, -⟩ := h.assembled
  have hread := hholds i _ _ (List.getElem?_eq_getElem hi)
    (List.getElem?_eq_getElem (hlen.symm ▸ hi))
  rw [getColumnAt, List.getElem?_eq_getElem hi] at hread
  dsimp only at hread
  split at hread
  · assumption
  · cases hread

/-- The row of one character in every column, another one in the column `i`. -/
def marked (cs : List ColumnDef) (i : Nat) : List (List UInt8) :=
  cs.mapIdx fun k c => List.replicate c.m_len (if k = i then 1 else 2)

theorem fits_marked (cs : List ColumnDef) (i : Nat) :
    List.Forall₂ ColumnDef.Fits cs (marked cs i) := by
  rw [List.forall₂_iff_get]
  refine ⟨by simp [marked], fun k hk hk' => ?_⟩
  simp only [List.get_eq_getElem, marked, List.getElem_mapIdx]
  split <;> exact ColumnDef.fits_replicate _ (by decide)

/-- **Columns that come back are apart.**  Two columns that overlap cannot both hold their own
character where the second one begins. -/
theorem apart_of_roundTrip {a b : Nat} {d : TableDesc} (hplaced : Placed a d.columns b)
    (h : ∀ values, List.Forall₂ ColumnDef.Fits d.columns values → RoundTrip d values) :
    Apart d.recordSize d.columns := by
  have hwithin : ∀ c ∈ d.columns, c.m_offSet + c.m_len ≤ d.recordSize :=
    (h _ (fits_marked d.columns 0)).within_len (by simp [marked])
  have hsorted : ∀ {a b : Nat} {cs : List ColumnDef}, Placed a cs b →
      cs.Pairwise fun c d => c.m_offSet ≤ d.m_offSet := by
    intro a b cs hcs
    induction hcs with
    | nil _ => exact .nil
    | cons hoff _ hrest ih =>
        refine List.pairwise_cons.mpr ⟨fun d hd => ?_, ih⟩
        have := hrest.le_offSet d hd
        omega
  refine ⟨List.pairwise_iff_getElem.mpr fun i j hi hj hij hposi hposj => ?_, hwithin⟩
  by_contra hover
  have hle := List.pairwise_iff_getElem.mp (hsorted hplaced) i j hi hj hij
  have hin := hwithin _ (List.getElem_mem hj)
  obtain ⟨rec, -, hholds, -⟩ := (h _ (fits_marked d.columns i)).assembled
  -- Both columns have the byte at the offset of the second one.
  have hbyte : ∀ k (hk : k < d.columns.length), d.columns[k].m_offSet ≤ d.columns[j].m_offSet →
      d.columns[j].m_offSet < d.columns[k].m_offSet + d.columns[k].m_len →
      rec d.columns[j].m_offSet = if k = i then 1 else 2 := by
    intro k hk hlow hhigh
    have hvalue : (marked d.columns i)[k]? =
        some (List.replicate d.columns[k].m_len (if k = i then 1 else 2)) := by
      simp [marked, hk]
    have hread := hholds k _ _ (List.getElem?_eq_getElem hk) hvalue
    rw [getColumnAt_eq (List.getElem?_eq_getElem hk) (hwithin _ (List.getElem_mem hk))] at hread
    have hrow := (read_eq_iff.mp (Option.some.inj (Except.ok.inj hread))).2
      (d.columns[j].m_offSet - d.columns[k].m_offSet) (by omega)
    rw [Nat.add_sub_cancel' hlow] at hrow
    rw [hrow, ColumnDef.image, List.length_replicate, Nat.sub_self, List.replicate_zero,
      List.append_nil, List.getD_replicate _ (by omega)]
  have hfirst := hbyte i hi hle (by omega)
  have hsecond := hbyte j hj le_rfl (by omega)
  rw [if_pos rfl] at hfirst
  rw [if_neg hij.ne', hfirst] at hsecond
  exact absurd hsecond (by decide)

/-- **All values come back from a record exactly when no column is longer than its room.** -/
theorem roundTrip_iff_roomy {t : TableDef} (h : t.Supported) :
    (∀ values, List.Forall₂ ColumnDef.Fits (initByTableDef t).columns values →
      RoundTrip (initByTableDef t) values) ↔ t.Roomy := by
  obtain ⟨hplaced, hsize, hrecord, hroomy⟩ := initByTableDef_spec h
  have hapart : Apart (initByTableDef t).recordSize (initByTableDef t).columns ↔ t.Roomy := by
    rw [apart_iff_roomy hplaced (by omega), hrecord, Nat.add_sub_cancel_left]
    exact hroomy
  constructor
  · intro hall
    exact hapart.mp (apart_of_roundTrip hplaced hall)
  · intro hroom values hfits
    exact roundTrip_of_apart hsize (hapart.mpr hroom) hfits

/-- A number and a string of five characters. -/
def cardTable : TableDef := ⟨[⟨['i', 'd'], .INT, 4, 0⟩, ⟨['n'], .VSTR, 5, 0⟩]⟩

theorem roundTrip_cardTable : cardTable.Supported ∧ cardTable.Roomy ∧
    ∀ values, List.Forall₂ ColumnDef.Fits (initByTableDef cardTable).columns values →
      RoundTrip (initByTableDef cardTable) values := by
  have hsupported : cardTable.Supported := by
    intro c hc
    simp only [cardTable, List.mem_cons, List.not_mem_nil, or_false] at hc
    rcases hc with rfl | rfl <;> decide
  have hroomy : cardTable.Roomy := ⟨by decide, by decide, trivial⟩
  exact ⟨hsupported, hroomy, (roundTrip_iff_roomy hsupported).mpr hroomy⟩

/-- A number of four digits and a character. -/
def phoneTable : TableDef := ⟨[⟨['n'], .NUMSTR, 4, 0⟩, ⟨['s'], .VSTR, 1, 0⟩]⟩

/-- A number of four digits takes two bytes: the character is written over its third digit. -/
theorem not_roundTrip_phoneTable :
    List.Forall₂ ColumnDef.Fits (initByTableDef phoneTable).columns [[49, 50, 51, 52], [65]] ∧
    (∃ rec, assembleRec (initByTableDef phoneTable) [some [49, 50, 51, 52], some [65]] = .ok rec ∧
      getColumnValue (initByTableDef phoneTable) rec ['n'] = .ok (some [49, 50, 65, 52])) ∧
    ¬ RoundTrip (initByTableDef phoneTable) [[49, 50, 51, 52], [65]] := by
  have hread : ∀ rec, assembleRec (initByTableDef phoneTable)
      [some [49, 50, 51, 52], some [65]] = .ok rec →
      getColumnValue (initByTableDef phoneTable) rec ['n'] = .ok (some [49, 50, 65, 52]) := by
    intro rec hok
    cases hok
    rfl
  refine ⟨.cons (by decide) (.cons (by decide) .nil), ⟨_, rfl, hread _ rfl⟩, fun h => ?_⟩
  obtain ⟨rec, hok, -, hvalue⟩ := h.assembled
  have hgiven := hvalue ['n'] 0 _ _ rfl rfl rfl
  rw [hread rec hok] at hgiven
  exact absurd hgiven (by decide)

end RecordConvert
