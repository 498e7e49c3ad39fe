import Boss.RecordConvert

/-!
# Keys of an index

An index has a list of columns of its table.  `getIndexKey` takes a key out of a record: the
declared length of each column, one behind the other, in a buffer of 100 bytes that is zero
before.  `getSearchKey` puts the values that are searched for into such a buffer; the places
of the values are those of the columns, but each brings a length of its own.  Both write up
to where `getHashKeyLenth` says that the key ends.

A copy out of a buffer is `outside`.  A record is read where a column says; behind a slot
there are other bytes of its page.

Main result: `read_keyBytes`.
-/

namespace IndexKey

open ByteMemory RecordConvert

/-- `MAX_COLUMN_LEN`. -/
def maxColumnLen : Nat := 100

/-- `strcasecmp(..) == 0`. -/
def sameName (a b : List Char) : Bool := decide (a.map Char.toLower = b.map Char.toLower)

/-- The first column of a name: the loop of `getHashKeyLenth` leaves with it, and `m_columnPos`
keeps it. -/
def column (d : TableDesc) (columnName : List Char) : Option ColumnDef :=
  d.columns.find? fun c => sameName c.m_name columnName

/-- The declared length of a column; nothing is added for a name that is not found. -/
def declaredLen (d : TableDesc) (columnName : List Char) : Nat :=
  ((column d columnName).map (·.m_len)).getD 0

/-- The loop of `getHashKeyLenth`. -/
def hashKeyLenthFrom (d : TableDesc) (m_iHashKeyLenth : Nat) : List (List Char) → Nat
  | [] => m_iHashKeyLenth
  | pColumnName :: names => hashKeyLenthFrom d (m_iHashKeyLenth + declaredLen d pColumnName) names

/-- `getHashKeyLenth`. -/
def getHashKeyLenth (d : TableDesc) (m_columnList : List (List Char)) : Nat :=
  hashKeyLenthFrom d 0 m_columnList

/-- The loop of `getIndexKey`. -/
def indexKeyFrom (d : TableDesc) (pRecord : Nat → UInt8) (iOffSize : Nat) (m_indexKey : Nat → UInt8) :
    List (List Char) → Except Failure (Nat → UInt8)
  | [] => .ok m_indexKey
  | columnName :: names =>
      match column d columnName with
      | none => indexKeyFrom d pRecord iOffSize m_indexKey names
      | some c =>
          -- the value is copied through a buffer of its own
          if c.m_len ≤ maxColumnLen then
            (memcpy maxColumnLen m_indexKey iOffSize (read pRecord c.m_offSet c.m_len)).bind
              fun m_indexKey' => indexKeyFrom d pRecord (iOffSize + c.m_len) m_indexKey' names
          else .error .outside

/-- `getIndexKey`. -/
def getIndexKey (d : TableDesc) (m_columnList : List (List Char)) (pRecord : Nat → UInt8) :
    Except Failure (Nat → UInt8) :=
  indexKeyFrom d pRecord 0 (fun _ => 0) m_columnList

/-- The loop of `getSearchKey`.  A value is given by the `m_iValueLenths` bytes that are copied;
behind the name of no column there is no `m_iIndexColumnLenth`. -/
def searchKeyFrom (d : TableDesc) (iOffSize : Nat) (m_cSearchKey : Nat → UInt8) :
    List (List Char) → List (List UInt8) → Except Failure (Nat → UInt8)
  | columnName :: names, value :: values =>
      (memcpy maxColumnLen m_cSearchKey iOffSize value).bind fun m_cSearchKey' =>
        match column d columnName with
        | none => .error .outside
        | some c => searchKeyFrom d (iOffSize + c.m_len) m_cSearchKey' names values
  | _, _ => .ok m_cSearchKey

/-- `getSearchKey`. -/
def getSearchKey (d : TableDesc) (m_columnList : List (List Char)) (m_pValues : List (List UInt8)) :
    Except Failure (Nat → UInt8) :=
  if m_pValues.length = m_columnList.length then
    searchKeyFrom d 0 (fun _ => 0) m_columnList m_pValues
  else .error .count

/-! ## Lengths -/

theorem hashKeyLenthFrom_eq (d : TableDesc) (n : Nat) (names : List (List Char)) :
    hashKeyLenthFrom d n names = n + (names.map (declaredLen d)).sum := by
  induction names generalizing n with
  | nil => rfl
  | cons name names ih =>
      rw [hashKeyLenthFrom, ih, List.map_cons, List.sum_cons]
      omega

theorem getHashKeyLenth_eq (d : TableDesc) (names : List (List Char)) :
    getHashKeyLenth d names = (names.map (declaredLen d)).sum := by
  rw [getHashKeyLenth, hashKeyLenthFrom_eq, Nat.zero_add]

theorem declaredLen_of_column {d : TableDesc} {columnName : List Char} {c : ColumnDef}
    (h : column d columnName = some c) : declaredLen d columnName = c.m_len := by
  rw [declaredLen, h]
  rfl

/-! ## The key of a record -/

/-- What a record has in a column; nothing where there is none. -/
def columnBytes (d : TableDesc) (pRecord : Nat → UInt8) (columnName : List Char) : List UInt8 :=
  match column d columnName with
  | none => []
  | some c => read pRecord c.m_offSet c.m_len

@[simp] theorem length_read (m : Nat → UInt8) (a n : Nat) : (read m a n).length = n := by
  simp [ByteMemory.read]

theorem length_columnBytes (d : TableDesc) (pRecord : Nat → UInt8) (columnName : List Char) :
    (columnBytes d pRecord columnName).length = declaredLen d columnName := by
  unfold columnBytes declaredLen
  split <;> simp [*]

/-- All columns of a key, one behind the other. -/
def keyBytes (d : TableDesc) (pRecord : Nat → UInt8) (names : List (List Char)) : List UInt8 :=
  names.flatMap (columnBytes d pRecord)

theorem length_keyBytes (d : TableDesc) (pRecord : Nat → UInt8) (names : List (List Char)) :
    (keyBytes d pRecord names).length = (names.map (declaredLen d)).sum := by
  induction names with
  | nil => rfl
  | cons name names ih =>
      rw [keyBytes, List.flatMap_cons, List.length_append, length_columnBytes, ← keyBytes, ih,
        List.map_cons, List.sum_cons]

/-- Two rows that are written one behind the other are one row. -/
theorem write_append (m : Nat → UInt8) (a : Nat) (xs ys : List UInt8) :
    write (write m a xs) (a + xs.length) ys = write m a (xs ++ ys) := by
  funext x
  unfold write
  rw [List.length_append]
  by_cases hfirst : a ≤ x ∧ x < a + xs.length
  · rw [if_neg (by omega), if_pos hfirst, if_pos (by omega),
      List.getD_append _ _ _ _ (by omega)]
  · by_cases hsecond : a + xs.length ≤ x ∧ x < a + xs.length + ys.length
    · rw [if_pos hsecond, if_pos (by omega), List.getD_append_right _ _ _ _ (by omega)]
      congr 1
      omega
    · rw [if_neg hsecond, if_neg hfirst, if_neg (by omega)]

theorem write_nil (m : Nat → UInt8) (a : Nat) : write m a [] = m := by
  funext x
  exact write_outside (by simp; omega)

/-- **The key of a record**: its columns, where they fit the buffer. -/
theorem indexKeyFrom_eq {d : TableDesc} {pRecord : Nat → UInt8} {names : List (List Char)}
    {iOffSize : Nat} {key : Nat → UInt8}
    (hfit : iOffSize + (names.map (declaredLen d)).sum ≤ maxColumnLen) :
    indexKeyFrom d pRecord iOffSize key names =
      .ok (write key iOffSize (keyBytes d pRecord names)) := by
  induction names generalizing iOffSize key with
  | nil =>
      rw [indexKeyFrom, keyBytes, List.flatMap_nil, write_nil]
  | cons name names ih =>
      rw [List.map_cons, List.sum_cons] at hfit
      rw [indexKeyFrom, keyBytes, List.flatMap_cons, ← keyBytes]
      unfold columnBytes
      split
      case h_1 hnone => rw [ih (by omega), List.nil_append]
      case h_2 c hsome =>
        rw [declaredLen_of_column hsome] at hfit
        rw [if_pos (by omega), memcpy_eq _ (by simp; omega)]
        change indexKeyFrom d pRecord (iOffSize + c.m_len) _ names = _
        have hlen : (read pRecord c.m_offSet c.m_len).length = c.m_len := length_read _ _ _
        rw [ih (by omega), ← write_append, hlen]

theorem getIndexKey_eq {d : TableDesc} {pRecord : Nat → UInt8} {names : List (List Char)}
    (hfit : getHashKeyLenth d names ≤ maxColumnLen) :
    getIndexKey d names pRecord = .ok (write (fun _ => 0) 0 (keyBytes d pRecord names)) := by
  rw [getHashKeyLenth_eq] at hfit
  exact indexKeyFrom_eq (by omega)

/-- A key that does not fit the buffer is written out of it. -/
theorem indexKeyFrom_outside {d : TableDesc} {pRecord : Nat → UInt8} {names : List (List Char)}
    {iOffSize : Nat} {key : Nat → UInt8} (hstart : iOffSize ≤ maxColumnLen)
    (hlong : maxColumnLen < iOffSize + (names.map (declaredLen d)).sum) :
    indexKeyFrom d pRecord iOffSize key names = .error .outside := by
  induction names generalizing iOffSize key with
  | nil =>
      simp at hlong
      omega
  | cons name names ih =>
      rw [List.map_cons, List.sum_cons] at hlong
      rw [indexKeyFrom]
      split
      case h_1 hnone =>
        refine ih hstart ?_
        simp [declaredLen, hnone] at hlong
        omega
      case h_2 c hsome =>
        rw [declaredLen_of_column hsome] at hlong
        by_cases hone : c.m_len ≤ maxColumnLen
        · rw [if_pos hone, memcpy, length_read]
          by_cases hin : iOffSize + c.m_len ≤ maxColumnLen
          · rw [if_pos hin]
            exact ih hin (by omega)
          · rw [if_neg hin]
            rfl
        · rw [if_neg hone]

/-- Rows that are put together from pieces of the same lengths are equal just where all pieces
are. -/
theorem flatMap_eq_iff {A : Type} {f g : A → List UInt8} {xs : List A}
    (hlen : ∀ x ∈ xs, (f x).length = (g x).length) :
    xs.flatMap f = xs.flatMap g ↔ ∀ x ∈ xs, f x = g x := by
  induction xs with
  | nil => simp
  | cons x xs ih =>
      rw [List.forall_mem_cons] at hlen ⊢
      rw [← ih hlen.2, List.flatMap_cons, List.flatMap_cons]
      constructor
      · intro h
        exact List.append_inj h hlen.1
      · intro h
        exact congrArg₂ _ h.1 h.2

/-- A row of known length is read back from where it was written. -/
theorem read_write_self (m : Nat → UInt8) (a : Nat) (xs : List UInt8) :
    read (write m a xs) a xs.length = xs := by
  have h : read (write m a xs) a xs.length = xs ++ List.replicate (xs.length - xs.length) 0 :=
    read_write (Nat.le_refl _) fun x hlow hhigh => absurd hhigh (by omega)
  rwa [Nat.sub_self, List.replicate_zero, List.append_nil] at h

/-- The key of a record, read from its buffer. -/
theorem read_keyBytes (d : TableDesc) (pRecord : Nat → UInt8) (names : List (List Char)) :
    read (write (fun _ => 0) 0 (keyBytes d pRecord names)) 0 (getHashKeyLenth d names) =
      keyBytes d pRecord names := by
  rw [getHashKeyLenth_eq, ← length_keyBytes d pRecord names]
  exact read_write_self _ _ _

end IndexKey
