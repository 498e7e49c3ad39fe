import Boss.RecordConvert
import Boss.LockManager

/-!
# The bytes of a lock row

`judgeAndAddLock` puts a lock row together in an array of 500 bytes: first the columns of the
primary key, copied one by one through the buffer `maxValue`, then `SESSION_ID` and `LOCK_TYPE`.
`setColumnValue` measures a string with `strlen`, also the value of `LOCK_TYPE`, which is the address
of one character: the bytes that stand behind it on the stack are copied too, over the columns of
the key, up to the first zero.

* `setKey_spec` — the columns of the key are read as they were copied, if none is longer than what it
  takes in a slot and no string has anything behind its first zero;
* `decode_lockRec` — with a zero behind the character the whole row is read as it was meant;
* `decode_setLockType` — and another `LOCK_TYPE` is all that a promotion changes.
-/

namespace LockRecord

open ByteMemory
open RecordConvert (ColumnDef Placed placeColumns)
open IndexMemMgr (sizeofShmPosition)
open LockManager (LockRow LockType)

abbrev Bytes := List UInt8

/-- A record in memory, by offset. -/
abbrev Rec := Nat → UInt8

/-! ## The columns -/

/-- `SESSION_ID` and `LOCK_TYPE` in `lockManagerDef` of `Table::create`. -/
def sessionColumn : ColumnDef := ⟨['S', 'E', 'S', 'S', 'I', 'O', 'N', '_', 'I', 'D'], .INT, 4, 0⟩
def lockTypeColumn : ColumnDef := ⟨['L', 'O', 'C', 'K', '_', 'T', 'Y', 'P', 'E'], .VSTR, 1, 4⟩

/-- The column that stands for the key of a table without one. -/
def resAddrColumn : ColumnDef := ⟨['R', 'E', 'S', '_', 'A', 'D', 'D', 'R'], .LONG, 8, 5⟩

/-- What stands for a resource in the lock table: columns of the types and the lengths of the key,
or the address. -/
def resourceColumns (keys : List ColumnDef) : List ColumnDef :=
  if keys = [] then [resAddrColumn] else keys

/-- The columns `m_columns` of the lock table, at the offsets that `getSlotSize` gives them. -/
def keyColumns (keys : List ColumnDef) : List ColumnDef :=
  (placeColumns 5 (resourceColumns keys)).1

/-- `m_slotSize` of the lock table. -/
def slotSize (keys : List ColumnDef) : Nat :=
  (RecordConvert.initByTableDef
    ⟨sessionColumn :: lockTypeColumn :: resourceColumns keys⟩).recordSize

/-- What `judgeAndAddLock` takes from a record of the table: the bytes of its position, its old
and its new value. -/
structure InTransData where
  m_pos : Rec
  m_oldRecordValue : Rec
  m_newRecordValue : Rec

/-- Step (1): the columns of the key from the old or the new value, or the position in a buffer of
zeros; a record without key that has no position yet is not locked. -/
def keyValues (keys : List ColumnDef) (inTransData : InTransData) (lockType : Bool) :
    Option (List Bytes) :=
  if keys = [] then
    if inTransData.m_pos 0 = 0 then none
    else some [read inTransData.m_pos 0 sizeofShmPosition ++ List.replicate (8 - sizeofShmPosition) 0]
  else
    let m_value :=
      if lockType then inTransData.m_newRecordValue else inTransData.m_oldRecordValue
    some (keys.map fun c => read m_value c.m_offSet c.m_len)

/-! ## Writing -/

/-- `setColumnValue`.  `value` are the bytes from the address on, and zeros behind them. -/
def setColumnValue (c : ColumnDef) (rec : Rec) (value : Bytes) : Rec :=
  if c.isString then
    write (write rec c.m_offSet (List.replicate c.m_len 0)) c.m_offSet (value.takeWhile (· ≠ 0))
  else write rec c.m_offSet (value.take c.m_len)

/-- The loop over `m_columns`: a value is copied to the front of `maxValue`, which keeps what is
behind it of the values before. -/
def setKey : List ColumnDef → List Bytes → Bytes → Rec → Rec
  | c :: cs, v :: vs, maxValue, rec =>
    let value := v ++ maxValue.drop v.length
    setKey cs vs value (setColumnValue c rec value)
  | _, _, _, rec => rec

/-- The characters `'0'` and `'1'`. -/
def code : LockType → UInt8
  | .wait => 48
  | .own => 49

/-- `setColumnValue("LOCK_TYPE", &tmplockTypeValue)`: `stack` are the bytes behind the character. -/
def setLockType (rec : Rec) (lockType : LockType) (stack : Bytes) : Rec :=
  setColumnValue lockTypeColumn rec (code lockType :: stack)

/-- The array `lockRec` when it is inserted. -/
def lockRec (keys : List ColumnDef) (values : List Bytes) (sessionId : UInt32) (lockType : LockType)
    (stack : Bytes) : Rec :=
  let r := setKey (keyColumns keys) values [] fun _ => 0
  setLockType (store r sessionColumn.m_offSet sessionColumn.m_len sessionId.toNat) lockType stack

/-! ## Reading -/

def sessionOf (rec : Rec) : UInt32 :=
  UInt32.ofNat (load rec sessionColumn.m_offSet sessionColumn.m_len)

def lockTypeOf (rec : Rec) : UInt8 := rec lockTypeColumn.m_offSet

/-- `getColumnsValue` of `m_columns`, and the key of the index by resource. -/
def resourceOf (keys : List ColumnDef) (rec : Rec) : Bytes :=
  (keyColumns keys).flatMap fun c => read rec c.m_offSet c.m_len

/-- What a record of the lock table says. -/
def decode (keys : List ColumnDef) (rec : Rec) : LockRow UInt32 Bytes :=
  ⟨sessionOf rec, if lockTypeOf rec = code .wait then .wait else .own, resourceOf keys rec⟩

/-! ## Rows that keep their key -/

/-- No column of the key is longer than what it takes in a slot, and all of them together go into
the buffers of a search. -/
structure Fitting (keys : List ColumnDef) : Prop where
  fits : ∀ c ∈ keys, ∃ n, c.slotLen = some n ∧ c.m_len ≤ n
  within : (keys.map (·.m_len)).sum ≤ 100

/-- Behind the first zero of a string there is nothing else. -/
def ZeroPadded (value : Bytes) : Prop := ∀ x ∈ value.dropWhile (· ≠ 0), x = 0

instance (value : Bytes) : Decidable (ZeroPadded value) :=
  inferInstanceAs (Decidable (∀ x ∈ value.dropWhile (· ≠ 0), x = 0))

/-- The values are as long as the columns, and the strings among them end with zeros. -/
def Copied (cs : List ColumnDef) (values : List Bytes) : Prop :=
  List.Forall₂ (fun c v => v.length = c.m_len ∧ (c.isString = true → ZeroPadded v)) cs values

variable {keys cs : List ColumnDef} {c : ColumnDef} {values : List Bytes} {rec other : Rec}
  {sessionId : UInt32} {lockType : LockType} {stack value maxValue : Bytes} {a b : Nat}

/-- A write changes nothing in front of the column. -/
theorem setColumnValue_before {x : Nat} (h : x < c.m_offSet) :
    setColumnValue c rec value x = rec x := by
  unfold setColumnValue
  split
  · rw [write_outside (.inl h), write_outside (.inl h)]
  · exact write_outside (.inl h)

/-- A string that ends with zeros is its own characters and zeros. -/
theorem ZeroPadded.eq (h : ZeroPadded value) :
    value.takeWhile (· ≠ 0) ++
      List.replicate (value.length - (value.takeWhile (· ≠ 0)).length) 0 = value := by
  have hsplit := List.takeWhile_append_dropWhile (p := (· ≠ (0 : UInt8))) (l := value)
  have hlength := congrArg List.length hsplit
  rw [List.length_append] at hlength
  have hzeros : value.dropWhile (· ≠ 0) =
      List.replicate (value.length - (value.takeWhile (· ≠ 0)).length) 0 := by
    rw [List.eq_replicate_iff]
    exact ⟨by omega, h⟩
  rw [← hzeros]
  exact hsplit

/-- Of a row that is written its front is read. -/
theorem read_write_front (m : Rec) (a : Nat) (value behind : Bytes) :
    read (write m a (value ++ behind)) a value.length = value := by
  rw [read_eq_iff]
  refine ⟨rfl, fun i hi => ?_⟩
  have hin : a ≤ a + i ∧ a + i < a + (value ++ behind).length := by
    rw [List.length_append]
    omega
  rw [write, if_pos hin, Nat.add_sub_cancel_left, List.getD_append _ _ _ _ hi]

/-- **A value is read as it was copied**, whatever stands behind it in the buffer. -/
theorem read_setColumnValue {behind : Bytes} (hlen : value.length = c.m_len)
    (hzero : c.isString = true → ZeroPadded value) :
    read (setColumnValue c rec (value ++ behind)) c.m_offSet c.m_len = value := by
  unfold setColumnValue
  split
  · rename_i hstring
    rw [List.takeWhile_append]
    split
    · -- without a zero of its own the string goes on in the buffer
      rw [← hlen]
      exact read_write_front _ _ _ _
    · have hle : (value.takeWhile (· ≠ 0)).length ≤ c.m_len :=
        hlen ▸ (List.takeWhile_sublist _).length_le
      rw [read_write hle, ← hlen]
      · exact (hzero hstring).eq
      · intro x hlow hhigh
        have hin : c.m_offSet ≤ x ∧ x < c.m_offSet + (List.replicate c.m_len (0 : UInt8)).length := by
          rw [List.length_replicate]
          omega
        rw [write, if_pos hin, List.getD_replicate _ (by omega)]
  · rw [← hlen, List.take_left]
    simpa using read_write_front rec c.m_offSet value []

/-- **The columns of a key are read as they were copied.**  What a string leaves behind its column
is written over by the columns that follow. -/
theorem setKey_spec (hplaced : Placed a cs b) (hfits : ∀ c ∈ cs, ∃ n, c.slotLen = some n ∧ c.m_len ≤ n)
    (hcopied : Copied cs values) (maxValue : Bytes) (rec : Rec) :
    (∀ x < a, setKey cs values maxValue rec x = rec x) ∧
      (cs.flatMap fun c => read (setKey cs values maxValue rec) c.m_offSet c.m_len) =
        values.flatten := by
  induction hplaced generalizing values maxValue rec with
  | nil a =>
      cases hcopied
      exact ⟨fun _ _ => rfl, rfl⟩
  | @cons a b n c cs hoff hlen _ ih =>
      obtain ⟨v, vs, ⟨hvalue, hzero⟩, hrest, rfl⟩ := List.forall₂_cons_left_iff.mp hcopied
      obtain ⟨⟨n', hn', hle⟩, hfits⟩ := List.forall_mem_cons.mp hfits
      obtain rfl : n = n' := Option.some.inj (hlen.symm.trans hn')
      obtain ⟨hbefore, hread⟩ := ih hfits hrest (v ++ maxValue.drop v.length)
        (setColumnValue c rec (v ++ maxValue.drop v.length))
      have hkept : read (setKey (c :: cs) (v :: vs) maxValue rec) c.m_offSet c.m_len = v := by
        have hwritten : read (setColumnValue c rec (v ++ maxValue.drop v.length)) c.m_offSet c.m_len =
            v := read_setColumnValue hvalue hzero
        exact (read_congr fun x _ hhigh => hbefore x (by omega)).trans hwritten
      refine ⟨fun x hx => ?_, ?_⟩
      · exact (hbefore x (by omega)).trans (setColumnValue_before (by omega))
      · rw [List.flatMap_cons, List.flatten_cons, hkept]
        exact congrArg (v ++ ·) hread

/-! ## Whole rows -/

/-- The loop changes no type and no length. -/
theorem placeColumns_fits (h : ∀ c ∈ cs, ∃ n, c.slotLen = some n ∧ c.m_len ≤ n) (a : Nat) :
    ∀ c ∈ (placeColumns a cs).1, ∃ n, c.slotLen = some n ∧ c.m_len ≤ n := by
  induction cs generalizing a with
  | nil => exact h
  | cons c cs ih =>
      obtain ⟨⟨n, hn, hle⟩, hrest⟩ := List.forall_mem_cons.mp h
      rw [placeColumns, hn]
      exact List.forall_mem_cons.mpr ⟨⟨n, hn, hle⟩, ih hrest (a + n)⟩

theorem placeColumns_copied (h : Copied cs values) (a : Nat) :
    Copied (placeColumns a cs).1 values := by
  induction h generalizing a with
  | nil => exact .nil
  | @cons c v cs vs hvalue hrest ih =>
      rw [placeColumns]
      cases c.slotLen with
      | none => exact .cons hvalue hrest
      | some n => exact .cons hvalue (ih (a + n))

theorem Fitting.resourceColumns_fits (h : Fitting keys) :
    ∀ c ∈ resourceColumns keys, ∃ n, c.slotLen = some n ∧ c.m_len ≤ n := by
  unfold resourceColumns
  split
  · simp [resAddrColumn, ColumnDef.slotLen]
  · exact h.fits

/-- The columns of the lock table stand one behind the other in a slot. -/
theorem Fitting.placed (h : Fitting keys) :
    ∃ b, Placed 5 (keyColumns keys) b ∧ b ≤ slotSize keys := by
  have hknown : ∀ c ∈ resourceColumns keys, c.m_type ≠ .UNKNOW := by
    intro c hc hunknown
    obtain ⟨n, hn, -⟩ := h.resourceColumns_fits c hc
    rw [ColumnDef.slotLen, hunknown] at hn
    cases hn
  obtain ⟨cs, hplace, hplaced, -⟩ := RecordConvert.placeColumns_spec hknown 5
  have htable : RecordConvert.TableDef.Supported
      ⟨sessionColumn :: lockTypeColumn :: resourceColumns keys⟩ := by
    refine List.forall_mem_cons.mpr ⟨?_, List.forall_mem_cons.mpr ⟨?_, hknown⟩⟩ <;> decide
  obtain ⟨-, -, hsize, -⟩ := RecordConvert.initByTableDef_spec htable
  have hwidth : RecordConvert.TableDef.width
      ⟨sessionColumn :: lockTypeColumn :: resourceColumns keys⟩ =
        5 + ((resourceColumns keys).map (·.slotLen.getD 0)).sum := by
    rw [RecordConvert.TableDef.width, List.map_cons, List.map_cons, List.sum_cons, List.sum_cons,
      ← Nat.add_assoc]
    rfl
  refine ⟨_, by rw [keyColumns, hplace]; exact hplaced, ?_⟩
  rw [slotSize, hsize, hwidth]
  omega

/-- What is read of a column lies between where the columns begin and where they end. -/
theorem Placed.range (hplaced : Placed a cs b)
    (hfits : ∀ c ∈ cs, ∃ n, c.slotLen = some n ∧ c.m_len ≤ n) :
    ∀ c ∈ cs, a ≤ c.m_offSet ∧ c.m_offSet + c.m_len ≤ b := by
  induction hplaced with
  | nil _ => simp
  | @cons a b n c cs hoff hlen hrest ih =>
      obtain ⟨⟨n', hn', hle⟩, hfits⟩ := List.forall_mem_cons.mp hfits
      obtain rfl : n = n' := Option.some.inj (hlen.symm.trans hn')
      have hend := hrest.le
      refine List.forall_mem_cons.mpr ⟨⟨hoff.ge, by omega⟩, fun d hd => ?_⟩
      obtain ⟨hlow, hhigh⟩ := ih hfits d hd
      exact ⟨by omega, hhigh⟩

theorem Fitting.range (h : Fitting keys) :
    ∀ c ∈ keyColumns keys, 5 ≤ c.m_offSet ∧ c.m_offSet + c.m_len ≤ slotSize keys := by
  obtain ⟨b, hplaced, hsize⟩ := h.placed
  intro c hc
  obtain ⟨hlow, hhigh⟩ := Placed.range hplaced (placeColumns_fits h.resourceColumns_fits 5) c hc
  exact ⟨hlow, hhigh.trans hsize⟩

/-- A row of the lock table has room for a session and a type. -/
theorem Fitting.five_le (h : Fitting keys) : 5 ≤ slotSize keys := by
  obtain ⟨b, hplaced, hsize⟩ := h.placed
  exact hplaced.le.trans hsize

/-- Only the bytes of the key matter to it. -/
theorem resourceOf_congr (h : Fitting keys)
    (hsame : ∀ x, 5 ≤ x → x < slotSize keys → other x = rec x) :
    resourceOf keys other = resourceOf keys rec := by
  refine List.flatMap_congr fun c hc => read_congr fun x hlow hhigh => ?_
  obtain ⟨hfirst, hlast⟩ := h.range c hc
  exact hsame x (by omega) (by omega)

/-- Only the bytes of the slot matter to what a row says. -/
theorem decode_congr (h : Fitting keys) (hsame : ∀ x < slotSize keys, other x = rec x) :
    decode keys other = decode keys rec := by
  have hfive := h.five_le
  have hsession : sessionOf other = sessionOf rec := by
    refine congrArg UInt32.ofNat (load_congr fun x _ hhigh => hsame x ?_)
    simp only [sessionColumn] at hhigh
    omega
  have htype : lockTypeOf other = lockTypeOf rec := hsame 4 (by omega)
  rw [decode, hsession, htype, resourceOf_congr h fun x _ => hsame x]
  rfl

/-- A character with a zero behind it is written alone. -/
theorem setLockType_apply (hstack : stack.takeWhile (· ≠ 0) = []) (x : Nat) :
    setLockType rec lockType stack x = if x = 4 then code lockType else rec x := by
  have hcode : code lockType ≠ 0 := by cases lockType <;> decide
  have hvalue : (code lockType :: stack).takeWhile (· ≠ 0) = [code lockType] := by
    rw [List.takeWhile_cons_of_pos (by simpa using hcode), hstack]
  have hstring : lockTypeColumn.isString = true := rfl
  rw [setLockType, setColumnValue, if_pos hstring, hvalue]
  by_cases hx : x = 4
  · subst hx
    rfl
  · rw [if_neg hx]
    have hout : x < lockTypeColumn.m_offSet ∨ lockTypeColumn.m_offSet + 1 ≤ x := by
      simp only [lockTypeColumn]
      omega
    rw [write_outside hout, write_outside hout]

theorem lockTypeOf_setLockType (hstack : stack.takeWhile (· ≠ 0) = []) :
    lockTypeOf (setLockType rec lockType stack) = code lockType :=
  setLockType_apply hstack 4

/-- With a zero behind the character nothing else of the row is written. -/
theorem decode_setLockType (h : Fitting keys) (hstack : stack.takeWhile (· ≠ 0) = []) :
    decode keys (setLockType rec lockType stack) =
      { decode keys rec with lockType := lockType } := by
  have hsession : sessionOf (setLockType rec lockType stack) = sessionOf rec := by
    refine congrArg UInt32.ofNat (load_congr fun x _ hhigh => ?_)
    simp only [sessionColumn] at hhigh
    rw [setLockType_apply hstack, if_neg (by omega)]
  have hresource : resourceOf keys (setLockType rec lockType stack) = resourceOf keys rec := by
    refine resourceOf_congr h fun x hlow _ => ?_
    rw [setLockType_apply hstack, if_neg (by omega)]
  have htype : (if code lockType = code .wait then LockType.wait else .own) = lockType := by
    cases lockType <;> decide
  rw [decode, hsession, hresource, lockTypeOf_setLockType hstack, htype]
  rfl

/-- **A row is read as it was meant**, if its key fits and the byte behind the character is zero. -/
theorem decode_lockRec (h : Fitting keys) (hcopied : Copied (resourceColumns keys) values)
    (hstack : stack.takeWhile (· ≠ 0) = []) :
    decode keys (lockRec keys values sessionId lockType stack) =
      ⟨sessionId, lockType, values.flatten⟩ := by
  obtain ⟨b, hplaced, -⟩ := h.placed
  obtain ⟨-, hkey⟩ := setKey_spec hplaced (placeColumns_fits h.resourceColumns_fits 5)
    (placeColumns_copied hcopied 5) [] fun _ => 0
  have hsession : sessionOf (store (setKey (keyColumns keys) values [] fun _ => 0)
      sessionColumn.m_offSet sessionColumn.m_len sessionId.toNat) = sessionId := by
    rw [sessionOf, load_store sessionId.toNat_lt]
    exact UInt32.ofNat_toNat
  have hresource : resourceOf keys (store (setKey (keyColumns keys) values [] fun _ => 0)
      sessionColumn.m_offSet sessionColumn.m_len sessionId.toNat) = values.flatten := by
    refine (resourceOf_congr h fun x hlow _ => store_outside (.inr ?_)).trans hkey
    simp only [sessionColumn]
    omega
  rw [lockRec, decode_setLockType h hstack, decode, hsession, hresource]

end LockRecord
