import Boss.FixedRows
import Boss.Runs
import Mathlib.Algebra.Group.Int.Defs
import Mathlib.Algebra.GroupWithZero.Nat

/-!
# Rows in local memory

A `DataSet` keeps its rows one behind the other in a block that it lets grow by a chunk whenever the
rows have filled it.  Where the rows end and where the block ends are indices that every operation
updates by itself; a row that is removed leaves its bytes behind.

A byte that nobody has written is indeterminate.  Operations give `none` where the source throws an
exception, where an assertion fails and where the behaviour is undefined.

Main results: `sound_iff_good` for one call, `dataSet_is_list` for sequences of calls.
-/

namespace Dataset

open FixedRows Runs

/-! ## Fields -/

inductive DataType
  | FTINT
  | FTSTRING
  | FTDOUBLE
  | FTINT64
  deriving DecidableEq, Repr

def ALIGN_SIZE : Nat := 8

def DOALIGN (x : Nat) : Nat := ((x - 1) ||| (ALIGN_SIZE - 1)) + 1

structure Field where
  dataType : DataType
  length : Nat
  deriving DecidableEq, Repr

/-- The length that `setLength` gives the field. -/
def Field.getLength (field : Field) : Nat :=
  match field.dataType with
  | .FTINT => 4
  | .FTDOUBLE => 8
  | .FTINT64 => 8
  | .FTSTRING => DOALIGN (field.length + 1)

/-- Fields whose offsets are `int`s. -/
structure Layout where
  fields : List Field
  small : (fields.map Field.getLength).sum < 2147483648

def Layout.rowSize (layout : Layout) : Nat := (layout.fields.map Field.getLength).sum

def Layout.offset (layout : Layout) (index : Nat) : Nat :=
  ((layout.fields.take index).map Field.getLength).sum

/-- What a program assigns to a field; a `double` as its bits. -/
inductive Value
  | int (l : Int)
  | int64 (l : Int)
  | double (bits : UInt64)
  | str (s : List UInt8)
  deriving DecidableEq, Repr

def bytesOf (n : Nat) (l : Int) : List UInt8 :=
  (List.range n).map fun i => UInt8.ofNat (l / 256 ^ i % 256).toNat

/-- The bytes that an assignment writes; none when the types do not go together. -/
def stored (field : Field) (value : Value) : List UInt8 :=
  match field.dataType, value with
  | .FTINT, .int l => bytesOf 4 l
  | .FTINT64, .int l => bytesOf 8 l
  | .FTINT64, .int64 l => bytesOf 8 l
  | .FTINT, .int64 l => bytesOf 4 l
  | .FTDOUBLE, .double bits => bytesOf 8 bits.toNat
  | .FTSTRING, .str s =>
    (s ++ List.replicate (field.getLength - 1) 0).take (field.getLength - 1)
  | _, _ => []

/-! ## The data set -/

abbrev Byte := Option UInt8

structure DataSet where
  layout : Layout
  chunk : UInt32
  address : Option (List Byte)
  memorySize : Nat
  endIndex : Nat
  border : Nat
  sortOpts : List String

/-- The data set with some fields and no rows. -/
def new (layout : Layout) (chunk : UInt32) : DataSet := ⟨layout, chunk, none, 0, 0, 0, []⟩

namespace DataSet

variable (ds : DataSet)

abbrev rowSize : Nat := ds.layout.rowSize

def block : List Byte := ds.address.getD []

/-- The rows from `begin()` to `end()`. -/
def seen : List (List Byte) := rows ds.rowSize ds.endIndex ds.block

/-- `realloc`, and `malloc` when there is no block. -/
def realloc (size : Nat) : List Byte :=
  ds.block.take size ++ List.replicate (size - ds.block.length) none

/-- The block grows by a chunk, unless its size is no `unsigned int` then and the new bytes are
cleared where there is no block. -/
def extend : Option (DataSet × Bool) :=
  if ds.memorySize + ds.chunk.toNat < 4294967296 then
    let size := ds.memorySize + ds.chunk.toNat
    let address := overwrite (ds.realloc size) ds.memorySize
      (List.replicate ds.chunk.toNat (some 0))
    let border := size / ds.rowSize
    some ({ ds with address := some address, memorySize := size, border := border },
      border ≠ ds.endIndex)
  else none

/-- After an `extend` that reports success there is room, and the loop ends. -/
def pushBack : Option (DataSet × Nat) :=
  if ds.layout.fields = [] then none
  else if ds.endIndex = ds.border then
    match ds.extend with
    | none => none
    | some (ds, false) => some (ds, ds.endIndex)
    | some (ds, true) => some ({ ds with endIndex := ds.endIndex + 1 }, ds.endIndex)
  else some ({ ds with endIndex := ds.endIndex + 1 }, ds.endIndex)

def popBack : DataSet :=
  if ds.endIndex = 0 then ds else { ds with endIndex := ds.endIndex - 1 }

def erase (pos : Nat) : Option DataSet :=
  if pos = ds.endIndex then some ds
  else if ds.endIndex < pos then none
  else
    some { ds with
      address := ds.address.map fun block =>
        move block (pos * ds.rowSize) ((pos + 1) * ds.rowSize)
          ((ds.endIndex - pos - 1) * ds.rowSize)
      endIndex := ds.endIndex - 1 }

/-- With a block, what is cleared lies behind the one that `realloc` has freed. -/
def reserve (n : Int) : Option (DataSet × Bool) :=
  if ds.rowSize < 1 ∨ n < ds.border then some (ds, true)
  else
    match ds.address with
    | some _ => none
    | none =>
      let size := ds.rowSize * n.toNat % 4294967296
      some ({ ds with
        address := some (List.replicate size (some 0)), memorySize := size,
        border := size / ds.rowSize }, true)

def buildIndex (name : String) : DataSet :=
  if name ∈ ds.sortOpts then ds else { ds with sortOpts := ds.sortOpts ++ [name] }

/-- `DataSet_->Fields_[index]` of a row, assigned to. -/
def assign (pos index : Nat) (value : Value) : Option DataSet :=
  match ds.layout.fields[index]? with
  | none => none
  | some field =>
    if pos < ds.endIndex then
      some { ds with
        address := ds.address.map fun block =>
          overwrite block (pos * ds.rowSize + ds.layout.offset index)
            ((stored field value).map some) }
    else none

end DataSet

/-- The loop drops the index at `i` and goes on with `i + 1`, while there are indexes. -/
def dropAllIndex : Nat → Nat → List String → Option (List String)
  | 0, _, sortOpts => some sortOpts
  | rounds + 1, i, sortOpts =>
    if 0 < sortOpts.length then
      match sortOpts[i]? with
      | none => none
      | some name => dropAllIndex rounds (i + 1) (sortOpts.erase name)
    else some sortOpts

/-- The size of the block that is freed stays. -/
def DataSet.clear (ds : DataSet) : Option DataSet :=
  (dropAllIndex ds.sortOpts.length 0 ds.sortOpts).map fun sortOpts =>
    { ds with address := none, endIndex := 0, border := 0, sortOpts := sortOpts }

inductive Op
  | pushBack
  | assign (pos index : Nat) (value : Value)
  | erase (pos : Nat)
  | popBack
  | reserve (n : Int)
  | buildIndex (name : String)
  | clear
  deriving DecidableEq, Repr

def call (ds : DataSet) : Op → Option DataSet
  | .pushBack => ds.pushBack.map Prod.fst
  | .assign pos index value => ds.assign pos index value
  | .erase pos => ds.erase pos
  | .popBack => some ds.popBack
  | .reserve n => (ds.reserve n).map Prod.fst
  | .buildIndex name => some (ds.buildIndex name)
  | .clear => ds.clear

/-! ## A list of rows -/

/-- What the operations make of a list of rows. -/
def listStep (layout : Layout) (list : List (List Byte)) : Op → List (List Byte)
  | .pushBack => list ++ [List.replicate layout.rowSize (some 0)]
  | .assign pos index value =>
    match layout.fields[index]? with
    | none => list
    | some field =>
      list.modify pos fun r => overwrite r (layout.offset index) ((stored field value).map some)
  | .erase pos => list.eraseIdx pos
  | .popBack => list.dropLast
  | .reserve _ => list
  | .buildIndex _ => list
  | .clear => []

/-- The rows and fields that the operation names exist. -/
def Admits (ds : DataSet) : Op → Prop
  | .assign pos index _ => pos < ds.endIndex ∧ index < ds.layout.fields.length
  | .erase pos => pos < ds.endIndex
  | _ => True

def Inside (ds : DataSet) : Prop := ds.endIndex * ds.rowSize ≤ ds.block.length

/-- The operation does what it does with a list of rows, inside of the block, and `clear` leaves no
index. -/
def Sound (ds : DataSet) (op : Op) : Prop :=
  Admits ds op → ∃ ds' ∈ call ds op,
    ds'.seen = listStep ds.layout ds.seen op ∧ Inside ds' ∧ (op = .clear → ds'.sortOpts = [])

instance (ds : DataSet) (op : Op) : Decidable (Admits ds op) := by
  cases op <;> unfold Admits <;> infer_instance

instance (ds : DataSet) (op : Op) : Decidable (Sound ds op) := by
  unfold Sound Inside
  infer_instance

/-- There are fields; the bytes behind the last row are zero; and when the block is full, it was not
cleared with its size left over, and a chunk makes room for a row in less than 4 GiB. -/
def Pushable (ds : DataSet) : Prop :=
  ds.layout.fields ≠ [] ∧ (∀ c ∈ row ds.rowSize ds.block ds.endIndex, c = some 0) ∧
    (ds.endIndex = ds.border → (ds.address = none → ds.memorySize = 0) ∧
      ds.memorySize + ds.chunk.toNat < 4294967296 ∧
      ds.endIndex < (ds.memorySize + ds.chunk.toNat) / ds.rowSize)

def Good (ds : DataSet) : Op → Prop
  | .pushBack => Pushable ds
  | .reserve n => ds.rowSize < 1 ∨ n < ds.border ∨ ds.address = none
  | .clear => ds.sortOpts.length ≤ 1
  | _ => True

/-! ## What an operation keeps -/

/-- The block has the size that is kept, and the border is where it ends. -/
structure WellFormed (ds : DataSet) : Prop where
  size_lt : ds.memorySize < 4294967296
  end_le : ds.endIndex ≤ ds.border
  null : ds.address = none → ds.border = 0
  length : ∀ block, ds.address = some block → block.length = ds.memorySize
  border_eq : ∀ block, ds.address = some block → ds.border = ds.memorySize / ds.rowSize

variable {ds : DataSet}

/-- A new data set is well formed. -/
theorem wellFormed_new (layout : Layout) (chunk : UInt32) : WellFormed (new layout chunk) where
  size_lt := Nat.succ_pos 4294967295
  end_le := Nat.le_refl _
  null := fun _ => rfl
  length := fun _ h => by cases h
  border_eq := fun _ h => by cases h

/-- The used bytes of a well formed data set are inside its memory. -/
theorem WellFormed.inside (h : WellFormed ds) : Inside ds := by
  unfold Inside DataSet.block
  cases haddress : ds.address with
  | none =>
      have hend : ds.endIndex = 0 := Nat.le_zero.mp (h.null haddress ▸ h.end_le)
      rw [hend, Nat.zero_mul]
      exact Nat.zero_le _
  | some block =>
      rw [Option.getD_some, h.length block haddress]
      calc ds.endIndex * ds.rowSize
          ≤ ds.border * ds.rowSize := Nat.mul_le_mul_right _ h.end_le
        _ = ds.memorySize / ds.rowSize * ds.rowSize := by rw [h.border_eq block haddress]
        _ ≤ ds.memorySize := Nat.div_mul_le_self _ _

/-- What of the block is left when it has grown: where there was none, its size is indeterminate. -/
def kept (ds : DataSet) : List Byte := ds.address.getD (List.replicate ds.memorySize none)

/-- What is kept on an extension is as long as the memory was. -/
theorem WellFormed.length_kept (h : WellFormed ds) : (kept ds).length = ds.memorySize := by
  unfold kept
  cases haddress : ds.address with
  | none => rw [Option.getD_none, List.length_replicate]
  | some block => rw [Option.getD_some, h.length block haddress]

/-- **What a growing block holds.** -/
theorem extended_block (h : WellFormed ds) (n : Nat) :
    overwrite (ds.realloc (ds.memorySize + n)) ds.memorySize (List.replicate n (some 0)) =
      kept ds ++ List.replicate n (some 0) := by
  have hrealloc : ds.realloc (ds.memorySize + n) = kept ds ++ List.replicate n none := by
    unfold DataSet.realloc kept DataSet.block
    cases haddress : ds.address with
    | none =>
        rw [Option.getD_none, Option.getD_none, List.take_nil, List.nil_append, List.length_nil,
          Nat.sub_zero, List.replicate_append_replicate]
    | some block =>
        have hlength := h.length block haddress
        rw [Option.getD_some, Option.getD_some, List.take_of_length_le (by omega), hlength,
          Nat.add_sub_cancel_left]
  have hkept := h.length_kept
  have hall : (kept ds ++ List.replicate n none).length = (kept ds).length + n := by
    rw [List.length_append, List.length_replicate]
  rw [hrealloc, overwrite, List.length_replicate, ← hkept, List.take_left,
    List.drop_eq_nil_of_le (Nat.le_of_eq hall), List.append_nil]

/-- An extension appends a chunk of zeros, if the size still fits. -/
theorem extend_eq (h : WellFormed ds) :
    ds.extend =
      if ds.memorySize + ds.chunk.toNat < 4294967296 then
        some ({ ds with
            address := some (kept ds ++ List.replicate ds.chunk.toNat (some 0))
            memorySize := ds.memorySize + ds.chunk.toNat
            border := (ds.memorySize + ds.chunk.toNat) / ds.rowSize },
          decide ((ds.memorySize + ds.chunk.toNat) / ds.rowSize ≠ ds.endIndex))
      else none := by
  unfold DataSet.extend
  rw [← extended_block h]

/-- The border does not come back when the block grows. -/
theorem WellFormed.end_le_grown (h : WellFormed ds) (n : Nat) :
    ds.endIndex ≤ (ds.memorySize + n) / ds.rowSize := by
  cases haddress : ds.address with
  | none =>
      have hend : ds.endIndex = 0 := Nat.le_zero.mp (h.null haddress ▸ h.end_le)
      rw [hend]
      exact Nat.zero_le _
  | some block =>
      calc ds.endIndex
          ≤ ds.border := h.end_le
        _ = ds.memorySize / ds.rowSize := h.border_eq block haddress
        _ ≤ (ds.memorySize + n) / ds.rowSize := Nat.div_le_div_right (Nat.le_add_right _ _)

/-- A row with a column is not empty. -/
theorem rowSize_pos {layout : Layout} (h : layout.fields ≠ []) : 0 < layout.rowSize := by
  obtain ⟨fields, small⟩ := layout
  cases fields with
  | nil => exact absurd rfl h
  | cons field rest =>
      have hfield : 0 < field.getLength := by
        unfold Field.getLength DOALIGN
        cases field.dataType <;> exact Nat.succ_pos _
      rw [Layout.rowSize, List.map_cons, List.sum_cons]
      omega

/-! ## Each operation against the list -/

/-- A call that returns is sound when its result is the one of the list. -/
theorem sound_iff_of_call {op : Op} {ds' : DataSet} (hadmits : Admits ds op)
    (hcall : call ds op = some ds') :
    Sound ds op ↔ ds'.seen = listStep ds.layout ds.seen op ∧ Inside ds' ∧
      (op = .clear → ds'.sortOpts = []) := by
  unfold Sound
  rw [hcall]
  constructor
  · intro h
    obtain ⟨found, hfound, hsound⟩ := h hadmits
    obtain rfl : ds' = found := Option.some.inj hfound
    exact hsound
  · intro h _
    exact ⟨ds', rfl, h⟩

/-- A call that fails is not sound. -/
theorem not_sound_of_call {op : Op} (hadmits : Admits ds op) (hcall : call ds op = none) :
    ¬ Sound ds op := by
  intro h
  obtain ⟨ds', hds', _⟩ := h hadmits
  rw [hcall] at hds'
  cases hds'

/-- One more row is a row of zeros exactly when its bytes are. -/
theorem pushed_iff {block : List Byte} (hrows : rows ds.rowSize ds.endIndex block = ds.seen)
    (hlength : (ds.endIndex + 1) * ds.rowSize ≤ block.length) :
    rows ds.rowSize (ds.endIndex + 1) block = listStep ds.layout ds.seen .pushBack ↔
      ∀ c ∈ row ds.rowSize block ds.endIndex, c = some 0 := by
  rw [Nat.succ_mul] at hlength
  rw [rows_succ, hrows, listStep, List.append_cancel_left_eq, List.cons.injEq,
    and_iff_left rfl]
  exact row_eq_replicate_iff hlength

/-- With room behind the last row, the next one is what stands there. -/
theorem sound_pushBack_of_room (h : WellFormed ds) (hfields : ds.layout.fields ≠ [])
    (hroom : ds.endIndex ≠ ds.border) : Sound ds .pushBack ↔ Pushable ds := by
  have hcall : call ds .pushBack = some { ds with endIndex := ds.endIndex + 1 } := by
    unfold call DataSet.pushBack
    rw [if_neg hfields, if_neg hroom]
    rfl
  have hwf : WellFormed { ds with endIndex := ds.endIndex + 1 } :=
    { h with end_le := Nat.lt_of_le_of_ne h.end_le hroom }
  have hrows : rows ds.rowSize ds.endIndex ds.block = ds.seen := rfl
  have hpushed := pushed_iff hrows hwf.inside
  rw [sound_iff_of_call (show Admits ds .pushBack from trivial) hcall]
  constructor
  · rintro ⟨hseen, -, -⟩
    exact ⟨hfields, hpushed.mp hseen, fun heq => absurd heq hroom⟩
  · rintro ⟨-, hzero, -⟩
    exact ⟨hpushed.mpr hzero, hwf.inside, fun hop => by cases hop⟩

/-- What stands behind the rows of a full block, once it has grown, is zero when the rest of the
block is, and when there is a block or nothing was kept of its size. -/
theorem grown_row_iff (hR : 0 < ds.rowSize) (hend : ds.address = none → ds.endIndex = 0) {n : Nat} :
    (∀ c ∈ row ds.rowSize (kept ds ++ List.replicate n (some 0)) ds.endIndex, c = some 0) ↔
      (∀ c ∈ row ds.rowSize ds.block ds.endIndex, c = some 0) ∧
        (ds.address = none → ds.memorySize = 0) := by
  rw [forall_row_append_replicate_iff]
  unfold kept DataSet.block
  cases haddress : ds.address with
  | some block =>
      rw [Option.getD_some, Option.getD_some]
      exact (and_iff_left (fun h => by cases h)).symm
  | none =>
      rw [Option.getD_none, Option.getD_none, hend haddress]
      unfold row
      rw [Nat.zero_mul, List.drop_zero, List.drop_zero, List.take_replicate, List.take_nil]
      constructor
      · intro hzero
        refine ⟨fun c hc => absurd hc List.not_mem_nil, fun _ => ?_⟩
        by_contra hsize
        have hmem : (none : Byte) ∈ List.replicate (min ds.rowSize ds.memorySize) none :=
          List.mem_replicate.mpr ⟨by omega, rfl⟩
        cases hzero none hmem
      · rintro ⟨-, hsize⟩ c hc
        rw [hsize rfl, Nat.min_zero] at hc
        cases hc

/-- In a full block the row comes from a new chunk. -/
theorem sound_pushBack_of_full (h : WellFormed ds) (hfields : ds.layout.fields ≠ [])
    (hfull : ds.endIndex = ds.border) : Sound ds .pushBack ↔ Pushable ds := by
  have hR : 0 < ds.rowSize := rowSize_pos hfields
  have hadmits : Admits ds .pushBack := trivial
  have hend : ds.address = none → ds.endIndex = 0 := fun hnull => hfull.trans (h.null hnull)
  have hgrown := grown_row_iff hR hend (n := ds.chunk.toNat)
  have hextend := extend_eq h
  by_cases hsize : ds.memorySize + ds.chunk.toNat < 4294967296
  · rw [if_pos hsize] at hextend
    by_cases hsame : (ds.memorySize + ds.chunk.toNat) / ds.rowSize = ds.endIndex
    · -- the chunk is too small for a row, and there is no new one
      have hcall : ∃ ds', call ds .pushBack = some ds' ∧ ds'.endIndex = ds.endIndex ∧
          ds'.rowSize = ds.rowSize := by
        unfold call DataSet.pushBack
        rw [if_neg hfields, if_pos hfull, hextend, decide_eq_false (not_not.mpr hsame)]
        exact ⟨_, rfl, rfl, rfl⟩
      obtain ⟨ds', hcall, hend', -⟩ := hcall
      rw [sound_iff_of_call hadmits hcall]
      constructor
      · rintro ⟨hseen, -, -⟩
        have hlength := congrArg List.length hseen
        rw [listStep, List.length_append, DataSet.seen, DataSet.seen, length_rows, length_rows,
          hend', List.length_singleton] at hlength
        omega
      · rintro ⟨-, -, hroom⟩
        have hlt := (hroom hfull).2.2
        omega
    · have hlt : ds.endIndex < (ds.memorySize + ds.chunk.toNat) / ds.rowSize :=
        Nat.lt_of_le_of_ne (h.end_le_grown _) (Ne.symm hsame)
      have hcall : call ds .pushBack = some { ds with
          address := some (kept ds ++ List.replicate ds.chunk.toNat (some 0))
          memorySize := ds.memorySize + ds.chunk.toNat
          endIndex := ds.endIndex + 1
          border := (ds.memorySize + ds.chunk.toNat) / ds.rowSize } := by
        unfold call DataSet.pushBack
        rw [if_neg hfields, if_pos hfull, hextend, decide_eq_true hsame]
        rfl
      have hlength : (ds.endIndex + 1) * ds.rowSize ≤
          (kept ds ++ List.replicate ds.chunk.toNat (some 0)).length := by
        rw [List.length_append, List.length_replicate, h.length_kept]
        exact (Nat.le_div_iff_mul_le hR).mp hlt
      have hrows : rows ds.rowSize ds.endIndex
          (kept ds ++ List.replicate ds.chunk.toNat (some 0)) = ds.seen := by
        have hinside := h.inside
        unfold DataSet.seen kept DataSet.block Inside at *
        cases haddress : ds.address with
        | none =>
            rw [hend haddress]
            rfl
        | some block =>
            rw [DataSet.block, haddress] at hinside
            exact rows_append hinside
      have hpushed := pushed_iff hrows hlength
      rw [sound_iff_of_call hadmits hcall]
      constructor
      · rintro ⟨hseen, -, -⟩
        obtain ⟨hzero, hkept⟩ := hgrown.mp (hpushed.mp hseen)
        exact ⟨hfields, hzero, fun _ => ⟨hkept, hsize, hlt⟩⟩
      · rintro ⟨-, hzero, hroom⟩
        exact ⟨hpushed.mpr (hgrown.mpr ⟨hzero, (hroom hfull).1⟩), hlength,
          fun hop => by cases hop⟩
  · rw [if_neg hsize] at hextend
    have hcall : call ds .pushBack = none := by
      unfold call DataSet.pushBack
      rw [if_neg hfields, if_pos hfull, hextend]
      rfl
    refine iff_of_false (not_sound_of_call hadmits hcall) ?_
    rintro ⟨-, -, hroom⟩
    exact hsize (hroom hfull).2.1

/-- Appending a row is sound exactly when there is room or the chunk makes room. -/
theorem sound_pushBack_iff (h : WellFormed ds) : Sound ds .pushBack ↔ Pushable ds := by
  by_cases hfields : ds.layout.fields = []
  · have hcall : call ds .pushBack = none := by
      unfold call DataSet.pushBack
      rw [if_pos hfields]
      rfl
    exact iff_of_false (not_sound_of_call trivial hcall) (fun hpush => hpush.1 hfields)
  · by_cases hfull : ds.endIndex = ds.border
    · exact sound_pushBack_of_full h hfields hfull
    · exact sound_pushBack_of_room h hfields hfull

/-- A stored value is not longer than its column. -/
theorem stored_length_le (field : Field) (value : Value) :
    (stored field value).length ≤ field.getLength := by
  have hbytes : ∀ n l, (bytesOf n l).length = n := fun n l => by
    rw [bytesOf, List.length_map, List.length_range]
  obtain ⟨dataType, length⟩ := field
  cases dataType <;> cases value <;> simp [stored, hbytes, Field.getLength]

/-- What is assigned to a field stays in the row. -/
theorem offset_add_stored_le {layout : Layout} {index : Nat} {field : Field}
    (hfield : layout.fields[index]? = some field) (value : Value) :
    layout.offset index + ((stored field value).map some).length ≤ layout.rowSize := by
  obtain ⟨hlt, hget⟩ := List.getElem?_eq_some_iff.mp hfield
  have hstored := stored_length_le field value
  have hsplit : layout.fields =
      layout.fields.take index ++ field :: layout.fields.drop (index + 1) := by
    rw [← hget, List.getElem_cons_drop, List.take_append_drop]
  have hsum : layout.rowSize = layout.offset index + (field.getLength +
      ((layout.fields.drop (index + 1)).map Field.getLength).sum) := by
    rw [Layout.rowSize, Layout.offset]
    conv_lhs => rw [hsplit]
    rw [List.map_append, List.sum_append, List.map_cons, List.sum_cons]
  rw [List.length_map]
  omega

/-- Writing into the block keeps where it ends. -/
theorem WellFormed.written (h : WellFormed ds) (n : Nat) (write : List Byte → List Byte)
    (hwrite : ∀ block, ds.address = some block → (write block).length = block.length)
    (hn : n ≤ ds.endIndex) :
    WellFormed { ds with address := ds.address.map write, endIndex := n } where
  size_lt := h.size_lt
  end_le := Nat.le_trans hn h.end_le
  null := fun hnull => h.null (Option.map_eq_none_iff.mp hnull)
  length := by
    intro block hblock
    obtain ⟨old, hold, rfl⟩ := Option.map_eq_some_iff.mp hblock
    exact (hwrite old hold).trans (h.length old hold)
  border_eq := by
    intro block hblock
    obtain ⟨old, hold, rfl⟩ := Option.map_eq_some_iff.mp hblock
    exact h.border_eq old hold

/-- Where there is a row there is a block. -/
theorem WellFormed.exists_block (h : WellFormed ds) {pos : Nat} (hpos : pos < ds.endIndex) :
    ∃ block, ds.address = some block ∧ ds.endIndex * ds.rowSize ≤ block.length := by
  cases haddress : ds.address with
  | none =>
      have hborder := h.null haddress
      have hend := h.end_le
      omega
  | some block =>
      have hinside := h.inside
      unfold Inside DataSet.block at hinside
      rw [haddress] at hinside
      exact ⟨block, rfl, hinside⟩

/-- An assignment changes its row. -/
theorem assign_spec (h : WellFormed ds) {pos index : Nat} (value : Value)
    (hpos : pos < ds.endIndex) (hindex : index < ds.layout.fields.length) :
    ∃ ds', ds.assign pos index value = some ds' ∧ WellFormed ds' ∧
      ds'.seen = listStep ds.layout ds.seen (.assign pos index value) := by
  obtain ⟨block, hblock, hlength⟩ := h.exists_block hpos
  have hfield : ds.layout.fields[index]? = some ds.layout.fields[index] :=
    List.getElem?_eq_getElem hindex
  have hin : ds.layout.offset index +
      ((stored ds.layout.fields[index] value).map some).length ≤ ds.rowSize :=
    offset_add_stored_le hfield value
  have hrow := row_end_le (w := ds.rowSize) hpos
  refine ⟨_, ?_, h.written ds.endIndex (fun block =>
      overwrite block (pos * ds.rowSize + ds.layout.offset index)
        ((stored ds.layout.fields[index] value).map some)) ?_ (Nat.le_refl _), ?_⟩
  · unfold DataSet.assign
    rw [hfield]
    dsimp only
    rw [if_pos hpos]
  · intro block' hblock'
    obtain rfl : block = block' := Option.some.inj (hblock.symm.trans hblock')
    exact length_overwrite (by omega)
  · have hlist : listStep ds.layout ds.seen (.assign pos index value) =
        ds.seen.modify pos fun r => overwrite r (ds.layout.offset index)
          ((stored ds.layout.fields[index] value).map some) := by
      simp only [listStep, hfield]
    rw [hlist]
    unfold DataSet.seen DataSet.block
    rw [hblock]
    exact rows_overwrite hpos hlength hin

/-- Erasing moves the rows behind. -/
theorem erase_spec (h : WellFormed ds) {pos : Nat} (hpos : pos < ds.endIndex) :
    ∃ ds', ds.erase pos = some ds' ∧ WellFormed ds' ∧
      ds'.seen = listStep ds.layout ds.seen (.erase pos) := by
  obtain ⟨block, hblock, hlength⟩ := h.exists_block hpos
  have hrow := row_end_le (w := ds.rowSize) hpos
  refine ⟨_, ?_, h.written (ds.endIndex - 1) (fun block =>
      move block (pos * ds.rowSize) ((pos + 1) * ds.rowSize)
        ((ds.endIndex - pos - 1) * ds.rowSize)) ?_ (Nat.sub_le _ _), ?_⟩
  · unfold DataSet.erase
    rw [if_neg (by omega), if_neg (by omega)]
  · intro block' hblock'
    obtain rfl : block = block' := Option.some.inj (hblock.symm.trans hblock')
    exact length_move hpos hlength
  · unfold DataSet.seen DataSet.block listStep
    rw [hblock]
    exact rows_move hpos hlength

/-- Removing the last row is removing the last line. -/
theorem popBack_spec (h : WellFormed ds) :
    WellFormed ds.popBack ∧ ds.popBack.seen = listStep ds.layout ds.seen .popBack := by
  unfold DataSet.popBack
  by_cases hend : ds.endIndex = 0
  · rw [if_pos hend]
    refine ⟨h, ?_⟩
    unfold DataSet.seen listStep
    rw [hend]
    rfl
  · rw [if_neg hend]
    exact ⟨{ h with end_le := Nat.le_trans (Nat.sub_le _ _) h.end_le }, rows_pred⟩

/-- Without a block, or when there is enough, the rows stay. -/
theorem reserve_spec (h : WellFormed ds) {n : Int} (hgood : Good ds (.reserve n)) :
    ∃ ds', call ds (.reserve n) = some ds' ∧ WellFormed ds' ∧ ds'.seen = ds.seen := by
  change ∃ ds', (ds.reserve n).map Prod.fst = some ds' ∧ WellFormed ds' ∧ ds'.seen = ds.seen
  unfold DataSet.reserve
  by_cases henough : ds.rowSize < 1 ∨ n < ds.border
  · rw [if_pos henough]
    exact ⟨ds, rfl, h, rfl⟩
  · have hnull : ds.address = none := by
      rcases hgood with hrow | hborder | hnull
      · exact absurd (Or.inl hrow) henough
      · exact absurd (Or.inr hborder) henough
      · exact hnull
    have hend : ds.endIndex = 0 := Nat.le_zero.mp (h.null hnull ▸ h.end_le)
    rw [if_neg henough, hnull]
    refine ⟨_, rfl, ?_, ?_⟩
    · exact {
        size_lt := Nat.mod_lt _ (Nat.succ_pos 4294967295)
        end_le := by rw [hend]; exact Nat.zero_le _
        null := fun hsome => by cases hsome
        length := fun block hblock => by
          rw [← Option.some.inj hblock, List.length_replicate]
        border_eq := fun _ _ => rfl }
    · unfold DataSet.seen
      rw [hend]
      rfl

/-- A reservation that is not good fails. -/
theorem reserve_fails {n : Int} (hbad : ¬ Good ds (.reserve n)) : call ds (.reserve n) = none := by
  change (ds.reserve n).map Prod.fst = none
  unfold DataSet.reserve
  unfold Good at hbad
  push Not at hbad
  obtain ⟨hrow, hborder, hblock⟩ := hbad
  obtain ⟨block, hblock⟩ := Option.ne_none_iff_exists'.mp hblock
  rw [if_neg (by omega), hblock]
  rfl

/-- From the second round on the loop ends behind the last index. -/
theorem dropAllIndex_fails {rounds i : Nat} {sortOpts : List String} (hi : 0 < i)
    (hrounds : sortOpts.length ≤ rounds) (hsome : sortOpts ≠ []) :
    dropAllIndex rounds i sortOpts = none := by
  have hpos : 0 < sortOpts.length := List.length_pos_iff.mpr hsome
  induction rounds generalizing i sortOpts with
  | zero => omega
  | succ rounds ih =>
      unfold dropAllIndex
      rw [if_pos hpos]
      cases hname : sortOpts[i]? with
      | none => rfl
      | some name =>
          obtain ⟨hlt, hget⟩ := List.getElem?_eq_some_iff.mp hname
          have hlength := List.length_erase_of_mem (hget ▸ List.getElem_mem hlt)
          have hrest : 0 < (sortOpts.erase name).length := by omega
          exact ih (Nat.succ_pos i) (by omega) (List.length_pos_iff.mp hrest) hrest

/-- **The loop drops all indexes exactly when there is at most one.** -/
theorem dropAllIndex_eq (sortOpts : List String) :
    dropAllIndex sortOpts.length 0 sortOpts = if sortOpts.length ≤ 1 then some [] else none := by
  match sortOpts with
  | [] => rfl
  | [name] => simp [dropAllIndex]
  | name :: second :: rest =>
      have hmany : ¬ (name :: second :: rest).length ≤ 1 := by
        rw [List.length_cons, List.length_cons]
        omega
      have hpos : 0 < (name :: second :: rest).length := Nat.succ_pos _
      rw [if_neg hmany, List.length_cons, dropAllIndex, if_pos hpos, List.getElem?_cons_zero]
      dsimp only
      rw [List.erase_cons_head]
      exact dropAllIndex_fails Nat.one_pos (Nat.le_refl _) (List.cons_ne_nil _ _)

/-- Clearing needs that there is at most one sort option. -/
theorem clear_eq : ds.clear = if ds.sortOpts.length ≤ 1 then
    some { ds with address := none, endIndex := 0, border := 0, sortOpts := [] } else none := by
  unfold DataSet.clear
  rw [dropAllIndex_eq]
  by_cases hfew : ds.sortOpts.length ≤ 1
  · rw [if_pos hfew, if_pos hfew]
    rfl
  · rw [if_neg hfew, if_neg hfew]
    rfl

/-- Appending a row keeps the data set well formed. -/
theorem pushBack_wellFormed {ds' : DataSet} (h : WellFormed ds)
    (hcall : call ds .pushBack = some ds') : WellFormed ds' := by
  change ds.pushBack.map Prod.fst = some ds' at hcall
  unfold DataSet.pushBack at hcall
  by_cases hfields : ds.layout.fields = []
  · rw [if_pos hfields] at hcall
    cases hcall
  · rw [if_neg hfields] at hcall
    by_cases hfull : ds.endIndex = ds.border
    · rw [if_pos hfull, extend_eq h] at hcall
      by_cases hsize : ds.memorySize + ds.chunk.toNat < 4294967296
      · have hgrown : WellFormed { ds with
            address := some (kept ds ++ List.replicate ds.chunk.toNat (some 0))
            memorySize := ds.memorySize + ds.chunk.toNat
            border := (ds.memorySize + ds.chunk.toNat) / ds.rowSize } := {
          size_lt := hsize
          end_le := h.end_le_grown _
          null := fun hnull => by cases hnull
          length := fun block hblock => by
            rw [← Option.some.inj hblock, List.length_append, List.length_replicate, h.length_kept]
          border_eq := fun _ _ => rfl }
        rw [if_pos hsize] at hcall
        by_cases hsame : (ds.memorySize + ds.chunk.toNat) / ds.rowSize = ds.endIndex
        · rw [decide_eq_false (not_not.mpr hsame)] at hcall
          rw [← Option.some.inj hcall]
          exact hgrown
        · rw [decide_eq_true hsame] at hcall
          rw [← Option.some.inj hcall]
          exact { hgrown with end_le := Nat.lt_of_le_of_ne hgrown.end_le (Ne.symm hsame) }
      · rw [if_neg hsize] at hcall
        cases hcall
    · rw [if_neg hfull] at hcall
      rw [← Option.some.inj hcall]
      exact { h with end_le := Nat.lt_of_le_of_ne h.end_le hfull }

/-- What a call makes of a well-formed data set is well formed. -/
theorem wellFormed_call {op : Op} {ds' : DataSet} (h : WellFormed ds)
    (hcall : call ds op = some ds') : WellFormed ds' := by
  cases op with
  | pushBack => exact pushBack_wellFormed h hcall
  | assign pos index value =>
      by_cases hadmits : pos < ds.endIndex ∧ index < ds.layout.fields.length
      · obtain ⟨found, hfound, hwf, -⟩ := assign_spec h value hadmits.1 hadmits.2
        obtain rfl : found = ds' := Option.some.inj (hfound.symm.trans hcall)
        exact hwf
      · change ds.assign pos index value = some ds' at hcall
        unfold DataSet.assign at hcall
        cases hfield : ds.layout.fields[index]? with
        | none =>
            rw [hfield] at hcall
            cases hcall
        | some field =>
            have hpos : ¬ pos < ds.endIndex := fun hpos =>
              hadmits ⟨hpos, (List.getElem?_eq_some_iff.mp hfield).1⟩
            rw [hfield] at hcall
            dsimp only at hcall
            rw [if_neg hpos] at hcall
            cases hcall
  | erase pos =>
      by_cases hpos : pos < ds.endIndex
      · obtain ⟨found, hfound, hwf, -⟩ := erase_spec h hpos
        obtain rfl : found = ds' := Option.some.inj (hfound.symm.trans hcall)
        exact hwf
      · change ds.erase pos = some ds' at hcall
        unfold DataSet.erase at hcall
        by_cases heq : pos = ds.endIndex
        · rw [if_pos heq] at hcall
          exact Option.some.inj hcall ▸ h
        · rw [if_neg heq, if_pos (by omega)] at hcall
          cases hcall
  | popBack => exact Option.some.inj hcall ▸ (popBack_spec h).1
  | reserve n =>
      by_cases hgood : Good ds (.reserve n)
      · obtain ⟨found, hfound, hwf, -⟩ := reserve_spec h hgood
        obtain rfl : found = ds' := Option.some.inj (hfound.symm.trans hcall)
        exact hwf
      · rw [reserve_fails hgood] at hcall
        cases hcall
  | buildIndex name =>
      obtain rfl : ds.buildIndex name = ds' := Option.some.inj hcall
      unfold DataSet.buildIndex
      by_cases hname : name ∈ ds.sortOpts
      · rw [if_pos hname]
        exact h
      · rw [if_neg hname]
        exact { h with }
  | clear =>
      change ds.clear = some ds' at hcall
      rw [clear_eq] at hcall
      by_cases hfew : ds.sortOpts.length ≤ 1
      · rw [if_pos hfew] at hcall
        rw [← Option.some.inj hcall]
        exact {
          size_lt := h.size_lt
          end_le := Nat.le_refl _
          null := fun _ => rfl
          length := fun _ hblock => by cases hblock
          border_eq := fun _ hblock => by cases hblock }
      · rw [if_neg hfew] at hcall
        cases hcall

/-- **An operation does what it does with a list of rows exactly when it is good.** -/
theorem sound_iff_good (h : WellFormed ds) (op : Op) : Sound ds op ↔ Good ds op := by
  cases op with
  | pushBack => exact sound_pushBack_iff h
  | assign pos index value =>
      refine iff_of_true (fun hadmits => ?_) trivial
      obtain ⟨ds', hcall, hwf, hseen⟩ := assign_spec h value hadmits.1 hadmits.2
      exact ⟨ds', hcall, hseen, hwf.inside, fun hop => by cases hop⟩
  | erase pos =>
      refine iff_of_true (fun hadmits => ?_) trivial
      obtain ⟨ds', hcall, hwf, hseen⟩ := erase_spec h hadmits
      exact ⟨ds', hcall, hseen, hwf.inside, fun hop => by cases hop⟩
  | popBack =>
      obtain ⟨hwf, hseen⟩ := popBack_spec h
      exact iff_of_true
        (fun _ => ⟨ds.popBack, rfl, hseen, hwf.inside, fun hop => by cases hop⟩) trivial
  | reserve n =>
      by_cases hgood : Good ds (.reserve n)
      · obtain ⟨ds', hcall, hwf, hseen⟩ := reserve_spec h hgood
        exact iff_of_true (fun _ => ⟨ds', hcall, hseen, hwf.inside, fun hop => by cases hop⟩) hgood
      · exact iff_of_false (not_sound_of_call trivial (reserve_fails hgood)) hgood
  | buildIndex name =>
      have hseen : (ds.buildIndex name).seen = ds.seen := by
        unfold DataSet.buildIndex
        by_cases hname : name ∈ ds.sortOpts
        · rw [if_pos hname]
        · rw [if_neg hname]
          rfl
      have hcall : call ds (.buildIndex name) = some (ds.buildIndex name) := rfl
      have hinside := (wellFormed_call h hcall).inside
      exact iff_of_true (fun _ => ⟨_, hcall, hseen, hinside, fun hop => by cases hop⟩) trivial
  | clear =>
      have hclear : call ds .clear = _ := clear_eq
      by_cases hfew : ds.sortOpts.length ≤ 1
      · rw [if_pos hfew] at hclear
        refine iff_of_true (fun _ => ⟨_, hclear, rfl, ?_, fun _ => rfl⟩) hfew
        exact (wellFormed_call h hclear).inside
      · rw [if_neg hfew] at hclear
        exact iff_of_false (not_sound_of_call trivial hclear) hfew

/-- No call changes the layout. -/
theorem call_layout {op : Op} {ds' : DataSet} (hcall : call ds op = some ds') :
    ds'.layout = ds.layout := by
  cases op <;>
    grind [call, DataSet.pushBack, DataSet.extend, DataSet.assign, DataSet.erase,
      DataSet.popBack, DataSet.reserve, DataSet.buildIndex, clear_eq]

/-! ## Sequences of operations -/

/-- A run of sound operations on rows and fields that exist does to the rows what it does to a list
of rows. -/
theorem run_seen {ops : List Op} (h : WellFormed ds)
    (hmeets : Meets call (fun ds op => Admits ds op ∧ Sound ds op) ds ops) :
    ∃ ds', run call ds ops = some ds' ∧ ds'.seen = ops.foldl (listStep ds.layout) ds.seen ∧
      Inside ds' := by
  obtain ⟨ds', hrun, hwf⟩ := run_progress_of_meets (I := WellFormed)
    (fun _ _ h hok => by
      obtain ⟨ds', hcall, -⟩ := hok.2 hok.1
      exact ⟨ds', hcall, wellFormed_call h hcall⟩) h hmeets
  have hsame : ds'.layout = ds.layout ∧ ds'.seen = ops.foldl (listStep ds.layout) ds.seen :=
    run_simulates_of_meets
      (R := fun (current : DataSet) list => current.layout = ds.layout ∧ current.seen = list)
      (fun current op next list hrel hok hcall => by
        have hstep := (sound_iff_of_call hok.1 hcall).mp hok.2
        rw [← hrel.1, ← hrel.2]
        exact ⟨call_layout hcall, hstep.1⟩) ⟨rfl, rfl⟩ hmeets hrun
  exact ⟨ds', hrun, hsame.2, hwf.inside⟩

/-- **A data set is a list of rows, through any sequence of operations, exactly when each of them is
good.** -/
theorem dataSet_is_list (layout : Layout) (chunk : UInt32) (ops : List Op) :
    (Meets call Sound (new layout chunk) ops ↔ Meets call Good (new layout chunk) ops) ∧
      (Meets call (fun ds op => Admits ds op ∧ Good ds op) (new layout chunk) ops →
        ∃ ds, run call (new layout chunk) ops = some ds ∧
          ds.seen = ops.foldl (listStep layout) [] ∧ Inside ds) := by
  have hwf := wellFormed_new layout chunk
  have hinvariant : ∀ ds op ds', WellFormed ds → call ds op = some ds' → WellFormed ds' :=
    fun _ _ _ h hcall => wellFormed_call h hcall
  constructor
  · exact meets_iff_of_invariant hinvariant (fun _ op h => sound_iff_good h op) hwf
  · intro hmeets
    have hsound := (meets_iff_of_invariant hinvariant (fun _ op h =>
      and_congr_right fun _ => sound_iff_good h op) hwf).mpr hmeets
    exact run_seen hwf hsound

/-- A row of one `int` is written, popped and pushed again: the new row holds what was written. -/
theorem dataSet_is_no_list :
    ¬ Meets call Sound (new ⟨[⟨.FTINT, 20⟩], by decide⟩ 8)
      [.pushBack, .assign 0 0 (.int 7), .popBack, .pushBack] := by
  decide

end Dataset
