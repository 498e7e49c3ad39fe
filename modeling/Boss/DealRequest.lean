import Boss.RemoteMdbSession

/-!
# The commands at the server

`SocketSession::dealRequest` takes the name of the command off the request and hands the rest
to the handler of the command, which splits it into fields and the fields into parameters, and
calls the `MdbSession`.  The call, with its arguments, is what arrives of a command of the
client.

A text that was empty arrives as a null pointer, a parameter without bytes as a null parameter,
and a list without parameters as a null pointer.  Otherwise the arguments are the ones of the
client, with two exceptions.  A select row by row is called without the index key parameters, and
with empty texts in place of null.  A batch update of one record becomes the update of this
record.

Main results: `select_received` and its like for one command, `dealRequest_cmd` for all.
-/

namespace DealRequest

open Decimal ExcuteCmd LengthPrefix PublicFunc RemoteMdbSession

/-- A call of the `MdbSession`. -/
inductive Call
  | select (cTableName cIndexName : Option (List Byte)) (pIndexKeyParams : Option InputParams)
      (cExpr : Option (List Byte)) (pOtherParams : Option InputParams) (iRowCount : BitVec 32)
  | deleteRec (cTableName cIndexName : Option (List Byte)) (pIndexKeyParams : Option InputParams)
      (cExpr : Option (List Byte)) (pOtherParams : Option InputParams)
  | insert (cTableName : Option (List Byte)) (pInputParams : Option InputParams)
  | update (cTableName cIndexName : Option (List Byte)) (pIndexKeyParams : Option InputParams)
      (sFieldNames : List (List Byte)) (pUpdateValues : Option InputParams)
      (cExpr : Option (List Byte)) (pOtherParams : Option InputParams)
  | updateRecords (cTableName cIndexName : Option (List Byte))
      (pIndexKeyParams : Option InputParams) (sFieldNames : List (List Byte))
      (pUpdateValues : List (Option InputParams)) (cExpr : Option (List Byte))
      (pOtherParams : List (Option InputParams))
  deriving DecidableEq

/-- What a request leads to. -/
inductive Reply
  | call (c : Call)
  /-- The text of an error is written to the client. -/
  | error (text : String)
  /-- One of the other requests of `m_fucMap`. -/
  | other (cmd : List Byte)
  deriving DecidableEq

/-- The wrong number of fields. -/
def fieldCountError : Reply := .error "传入字段数有误!"

/-- `(char *)pValues[i]`. -/
def charPointer (value : Option (List Byte)) : Option (List Byte) := value.map cString

/-- `strcpy` into a buffer of `size` bytes. -/
def strcpy (size : Nat) (value : List Byte) : Option (List Byte) :=
  if (cString value).length < size then some (cString value) else none

/-- A buffer that is cleared where there is no text. -/
def strcpyOrClear (size : Nat) : Option (List Byte) → Option (List Byte)
  | none => some []
  | some value => strcpy size value

section
variable (isBigEndian : Bool)

/-- `memcpy(&iRowCount, value, sizeof(int))`. -/
def getInt : Option (List Byte) → Option (BitVec 32)
  | none => none
  | some value =>
    if 4 ≤ value.length then some (BitVec.ofNat 32 (ofNumeral isBigEndian (value.take 4)))
    else none

/-- The first part of `select`, up to the call. -/
def selectFields (table index keys expr other : Option (List Byte)) (iRowCount : BitVec 32) :
    Option Reply :=
  if iRowCount = SELECT_ROW_BY_ROW then do
    let m_cRowByRowTableName ← table.bind (strcpy 64)
    let m_cRowByRowIndexName ← strcpyOrClear 64 index
    let m_cRowByRowExpr ← strcpyOrClear 128 expr
    let m_pRowByRowOtherParams ← splitParams isBigEndian other
    pure (.call (.select (some m_cRowByRowTableName) (some m_cRowByRowIndexName) none
      (some m_cRowByRowExpr) m_pRowByRowOtherParams iRowCount))
  else do
    let pIndexKeyParams ← splitParams isBigEndian keys
    let pOtherParams ← splitParams isBigEndian other
    pure (.call (.select (charPointer table) (charPointer index) pIndexKeyParams (charPointer expr)
      pOtherParams iRowCount))

def select (cRecvline : List Byte) : Option Reply := do
  let pValues ← splitValues isBigEndian (some cRecvline)
  match pValues with
  | [table, index, keys, expr, other] =>
    selectFields isBigEndian table index keys expr other (-1)
  | [table, index, keys, expr, other, rowCount] => do
    let iRowCount ← getInt isBigEndian rowCount
    selectFields isBigEndian table index keys expr other iRowCount
  | _ => pure fieldCountError

def deleteRec (cRecvline : List Byte) : Option Reply := do
  let pValues ← splitValues isBigEndian (some cRecvline)
  match pValues with
  | [table, index, keys, expr, other] => do
    let pIndexKeyParams ← splitParams isBigEndian keys
    let pOtherParams ← splitParams isBigEndian other
    pure (.call (.deleteRec (charPointer table) (charPointer index) pIndexKeyParams
      (charPointer expr) pOtherParams))
  | _ => pure fieldCountError

def insert (cRecvline : List Byte) : Option Reply := do
  let pValues ← splitValues isBigEndian (some cRecvline)
  match pValues with
  | [table, params] => do
    let pInputParams ← splitParams isBigEndian params
    pure (.call (.insert (charPointer table) pInputParams))
  | _ => pure fieldCountError

def update (cRecvline : List Byte) : Option Reply := do
  let pValues ← splitValues isBigEndian (some cRecvline)
  match pValues with
  | [table, index, keys, names, values, expr, other] => do
    let pIndexKeyParams ← splitParams isBigEndian keys
    let sFieldNames ← splitStrings isBigEndian names
    let pUpdateValues ← splitRecords isBigEndian values
    let pOtherParams ← splitRecords isBigEndian other
    if pUpdateValues.length > 1 then
      pure (.call (.updateRecords (charPointer table) (charPointer index) pIndexKeyParams
        sFieldNames pUpdateValues (charPointer expr) pOtherParams))
    else do
      let value ← pUpdateValues[0]?
      let params ← pOtherParams[0]?
      pure (.call (.update (charPointer table) (charPointer index) pIndexKeyParams sFieldNames
        value (charPointer expr) params))
  | _ => pure fieldCountError

/-- The names of `m_fucMap` whose requests are not commands of this kind. -/
def otherCmds : List (List Byte) :=
  [name ['q', 'u', 'i', 't'],
    name ['b', 'e', 'g', 'i', 'n'],
    name ['c', 'o', 'm', 'm', 'i', 't'],
    name ['r', 'o', 'l', 'l', 'b', 'a', 'c', 'k'],
    name ['g', 'e', 't', 'T', 'a', 'b', 'l', 'e', 'D', 'e', 's', 'c'],
    name ['g', 'e', 't', 'I', 'n', 'd', 'e', 'x', 'D', 'e', 's', 'c'],
    name ['g', 'e', 't', 'A', 'L', 'l', 'T', 'a', 'b', 'l', 'e', 'N', 'a', 'm', 'e'],
    name ['g', 'e', 't', 'A', 'L', 'l', 'I', 'n', 'd', 'e', 'x', 'N', 'a', 'm', 'e'],
    name ['s', 'e', 'l', 'e', 'c', 't', 'w'],
    name ['g', 'e', 't', 'T', 'a', 'b', 'l', 'e', 'R', 'o', 'w', 'C', 'o', 'u', 'n', 't'],
    name ['g', 'e', 't', 'r', 'o', 'w', 'b', 'y', 'r', 'o', 'w', 'n', 'e', 'x', 't', 'r', 'e', 'c']]

/-- `m_fucMap`. -/
def handle (cmd cRecvline : List Byte) : Option Reply :=
  if cmd = SELECT_CMD then select isBigEndian cRecvline
  else if cmd = UPDATE_CMD then update isBigEndian cRecvline
  else if cmd = INSERT_CMD then insert isBigEndian cRecvline
  else if cmd = DELETE_CMD then deleteRec isBigEndian cRecvline
  else if cmd ∈ otherCmds then some (.other cmd)
  else some (.error "unknowed command!")

/-- `sizeof(cmd)` of `dealRequest`. -/
def cmdSize : Nat := 20

def dealRequest (cRecvline : List Byte) : Option Reply := do
  let (length, request) ← getLength isBigEndian cRecvline
  if length ≠ cRecvline.length then
    let (command, request) ← take length request
    let cmd := command ++ List.replicate (cmdSize - length) 0
    if length ≤ cmdSize ∧ 0 ∈ cmd then handle isBigEndian (cString cmd) request else none
  else some (.error "unknowed command!")

end

/-! ## What the client asked for -/

/-- The call with the arguments of the client: what is empty is null. -/
def meant : Command → Call
  | .select t i k e o n => .select (pointer t.bytes) (pointer i.bytes) (arrived k)
      (pointer (expression e)) (arrived o) n
  | .deleteRec t i k e o => .deleteRec (pointer t.bytes) (pointer i.bytes) (arrived k)
      (pointer (expression e)) (arrived o)
  | .insert t v => .insert (pointer t.bytes) (arrived v)
  | .update t i k f v e o => .update (pointer t.bytes) (pointer i.bytes) (arrived k) f (arrived v)
      (pointer (expression e)) (arrived o)
  | .updateRecords t i k f v e o => .updateRecords (pointer t.bytes) (pointer i.bytes) (arrived k)
      f (v.map arrived) (pointer (expression e)) (o.map arrived)

/-- The call that arrives. -/
def received : Command → Call
  | .select t i k e o n =>
    if n = SELECT_ROW_BY_ROW then
      .select (some t.bytes) (some i.bytes) none (some (expression e)) (arrived o) n
    else meant (.select t i k e o n)
  | .updateRecords t i k f [v] e (o :: _) => meant (.update t i k f v e o)
  | c => meant c

/-- The command writes over no buffer of the server, and there is a record where one is taken. -/
def InBuffers : Command → Prop
  | .select t i _ e _ n => n = SELECT_ROW_BY_ROW →
      t.bytes ≠ [] ∧ t.bytes.length < 64 ∧ i.bytes.length < 64 ∧ (expression e).length < 128
  | .update _ _ _ f _ _ _ => ∀ field ∈ f, IsName field
  | .updateRecords _ _ _ f v _ o =>
      (∀ field ∈ f, IsName field) ∧ v ≠ [] ∧ (v.length = 1 → o ≠ [])
  | _ => True

/-! ## The fields of a request -/

/-- A field as the first `splitStr` leaves it. -/
def stored (field : List Byte) : Option (List Byte) :=
  (pointer field).map fun value => value ++ [0]

/-- A field that is not empty is stored with a zero behind it. -/
theorem stored_of_ne_nil {field : List Byte} (h : field ≠ []) :
    stored field = some (field ++ [0]) := by
  simp [stored, pointer, h]

/-- A text without zeros is read up to the zero behind it. -/
theorem cString_append_zero {text : List Byte} (h : ∀ c ∈ text, c ≠ 0) :
    cString (text ++ [0]) = text := by
  rw [cString, List.takeWhile_append_of_pos (by simpa using h)]
  simp

/-- A string arrives as it was sent; an empty one arrives as no pointer. -/
theorem charPointer_stored (s : CString) : charPointer (stored s.bytes) = pointer s.bytes := by
  by_cases h : s.bytes = []
  · simp [charPointer, stored, pointer, h]
  · simp [charPointer, stored_of_ne_nil h, pointer, h, cString_append_zero s.ne_zero]

/-- The text of an expression has no zeros. -/
theorem expression_ne_zero (e : Option CString) : ∀ c ∈ expression e, c ≠ 0 := by
  cases e with
  | none => simp [expression, content]
  | some s => exact s.ne_zero

/-- An expression arrives as it was sent; an empty one arrives as no pointer. -/
theorem charPointer_expression (e : Option CString) :
    charPointer (stored (expression e)) = pointer (expression e) :=
  charPointer_stored ⟨expression e, expression_ne_zero e⟩

/-- A name that is shorter than its buffer is copied as it was sent. -/
theorem strcpy_stored (s : CString) {size : Nat} (hne : s.bytes ≠ []) (h : s.bytes.length < size) :
    (stored s.bytes).bind (strcpy size) = some s.bytes := by
  rw [stored_of_ne_nil hne, Option.bind_some, strcpy, cString_append_zero s.ne_zero, if_pos h]

/-- The same for a name that may be empty. -/
theorem strcpyOrClear_stored (s : CString) {size : Nat} (h : s.bytes.length < size) :
    strcpyOrClear size (stored s.bytes) = some s.bytes := by
  by_cases hne : s.bytes = []
  · rw [hne]
    rfl
  · have hcopy := strcpy_stored s hne h
    rw [stored_of_ne_nil hne] at hcopy ⊢
    exact hcopy

section
variable {isBigEndian : Bool}

/-- Packed strings are never empty, since their number is packed as well. -/
theorem putStrings_ne_nil (texts : List (List Byte)) : putStrings isBigEndian texts ≠ [] := by
  intro h
  have hlength := congrArg List.length h
  simp [putStrings, TRANS_FIELDS_LENTH_BYTES] at hlength

/-- Parameters are split as they were packed, if their length fits into two bytes. -/
theorem splitParams_stored {params : Option InputParams}
    (hfits : (putParams isBigEndian params).length < 2 ^ 16) :
    splitParams isBigEndian (stored (putParams isBigEndian params)) = some (arrived params) := by
  rw [stored_of_ne_nil (show putParams isBigEndian params ≠ [] from putStrings_ne_nil _)]
  exact splitParams_putParams hfits [0]

/-- The same for several sets of parameters. -/
theorem splitRecords_stored {records : List (Option InputParams)}
    (hfits : (putRecords isBigEndian records).length < 2 ^ 16) :
    splitRecords isBigEndian (stored (putRecords isBigEndian records)) =
      some (records.map arrived) := by
  rw [stored_of_ne_nil (show putRecords isBigEndian records ≠ [] from putStrings_ne_nil _)]
  exact splitRecords_putRecords hfits [0]

/-- The same for column names. -/
theorem splitStrings_stored {names : List (List Byte)} (hnames : ∀ name ∈ names, IsName name)
    (hfits : (putStrings isBigEndian names).length < 2 ^ 16) :
    splitStrings isBigEndian (stored (putStrings isBigEndian names)) = some names := by
  rw [stored_of_ne_nil (putStrings_ne_nil _)]
  exact splitStrings_putStrings hnames hfits [0]

/-- A null pointer and a list without parameters arrive alike. -/
theorem splitParams_stored_other {o : Option InputParams}
    (hfits : (if o = none then [] else putParams isBigEndian o).length < 2 ^ 16) :
    splitParams isBigEndian (stored (if o = none then [] else putParams isBigEndian o)) =
      some (arrived o) := by
  cases o with
  | none => rfl
  | some params => exact splitParams_stored hfits

/-- A number of four bytes is read as it was packed. -/
theorem getInt_stored (n : BitVec 32) :
    getInt isBigEndian (stored (numeral isBigEndian 4 n.toNat)) = some n := by
  have hlength := numeral_length isBigEndian 4 n.toNat
  have hne : numeral isBigEndian 4 n.toNat ≠ [] := by
    intro h
    rw [h] at hlength
    simp at hlength
  have htake : (numeral isBigEndian 4 n.toNat ++ [0]).take 4 = numeral isBigEndian 4 n.toNat := by
    rw [List.take_append_of_le_length (by omega), List.take_of_length_le (by omega)]
  have hvalue : ofNumeral isBigEndian (numeral isBigEndian 4 n.toNat) = n.toNat :=
    ofNumeral_numeral (Nat.lt_of_lt_of_eq n.isLt (by decide))
  rw [stored_of_ne_nil hne]
  simp only [getInt, htake, hvalue, List.length_append, hlength]
  simp

/-! ## The handlers -/

/-- **The handler gets the request behind the name of its command.** -/
theorem dealRequest_putString {command request : List Byte} (hlength : command.length < cmdSize)
    (hzero : 0 ∉ command) :
    dealRequest isBigEndian (putString isBigEndian command ++ request) =
      handle isBigEndian command request := by
  have hsize : cmdSize = 20 := rfl
  have hfits : command.length < 2 ^ 16 := Nat.lt_trans hlength (by decide)
  have hnumber : getLength isBigEndian (putString isBigEndian command ++ request) =
      some (command.length, command ++ request) := by
    rw [putString, List.append_assoc]
    exact reads_length hfits (command ++ request)
  have hother : command.length ≠ (putString isBigEndian command ++ request).length := by
    have := putString_length isBigEndian command
    have htwo : TRANS_FIELDS_LENTH_BYTES = 2 := rfl
    rw [List.length_append]
    omega
  obtain ⟨hend, hcommand⟩ := cString_padded hlength fun c hc h => hzero (h ▸ hc)
  simp only [dealRequest, hnumber, Option.bind_eq_bind, Option.bind_some, if_pos hother,
    Reads.take command request, if_pos hend, hcommand]

/-- What `splitStr` leaves for a handler. -/
theorem splitValues_fields {command cmd : List Byte} {fields : List (List Byte)}
    (h : putCmd isBigEndian command fields = some cmd) :
    splitValues isBigEndian (some (putStrings isBigEndian fields)) = some (fields.map stored) := by
  obtain ⟨_, _, hcount, hfits⟩ := putCmd_spec h
  exact splitValues_putStrings hcount hfits

/-- The fields of a selection arrive as they were sent. -/
theorem selectFields_received {t i : CString} {k o : Option InputParams} {e : Option CString}
    {n : BitVec 32} (hbuffers : InBuffers (.select t i k e o n))
    (hk : (putParams isBigEndian k).length < 2 ^ 16)
    (ho : (if o = none then [] else putParams isBigEndian o).length < 2 ^ 16) :
    selectFields isBigEndian (stored t.bytes) (stored i.bytes) (stored (putParams isBigEndian k))
      (stored (expression e)) (stored (if o = none then [] else putParams isBigEndian o)) n =
      some (.call (received (.select t i k e o n))) := by
  by_cases hrow : n = SELECT_ROW_BY_ROW
  · obtain ⟨hne, ht, hi, he⟩ := hbuffers hrow
    have hexpr : strcpyOrClear 128 (stored (expression e)) = some (expression e) :=
      strcpyOrClear_stored ⟨expression e, expression_ne_zero e⟩ he
    rw [selectFields, if_pos hrow, strcpy_stored t hne ht, strcpyOrClear_stored i hi, hexpr,
      splitParams_stored_other ho]
    simp [received, hrow]
  · rw [selectFields, if_neg hrow, splitParams_stored hk, splitParams_stored_other ho,
      charPointer_stored, charPointer_stored, charPointer_expression]
    simp [received, meant, hrow]

/-- **A selection arrives** with its table, index, keys, expression, parameters and limit. -/
theorem select_received {t i : CString} {k o : Option InputParams} {e : Option CString}
    {n : BitVec 32} {cmd : List Byte}
    (h : RemoteMdbSession.select isBigEndian t i k e o n = some cmd)
    (hbuffers : InBuffers (.select t i k e o n)) :
    dealRequest isBigEndian cmd = some (.call (received (.select t i k e o n))) := by
  obtain ⟨rfl, _, _, hfits⟩ := putCmd_spec h
  rw [dealRequest_putString (by decide) (by decide)]
  show select isBigEndian _ = _
  rw [select, splitValues_fields h]
  show (getInt isBigEndian (stored (numeral isBigEndian 4 n.toNat))).bind _ = _
  rw [getInt_stored]
  exact selectFields_received hbuffers (hfits _ (by simp)) (hfits _ (by simp))

/-- **A deletion arrives** with its table, index, keys, expression and parameters. -/
theorem deleteRec_received {t i : CString} {k o : Option InputParams} {e : Option CString}
    {cmd : List Byte} (h : RemoteMdbSession.deleteRec isBigEndian t i k e o = some cmd) :
    dealRequest isBigEndian cmd = some (.call (received (.deleteRec t i k e o))) := by
  obtain ⟨rfl, _, _, hfits⟩ := putCmd_spec h
  rw [dealRequest_putString (by decide) (by decide)]
  show deleteRec isBigEndian _ = _
  rw [deleteRec, splitValues_fields h]
  simp only [List.map_cons, List.map_nil, Option.bind_eq_bind, Option.bind_some,
    splitParams_stored (hfits (putParams isBigEndian k) (by simp)),
    splitParams_stored (hfits (putParams isBigEndian o) (by simp)),
    charPointer_stored, charPointer_expression]
  rfl

/-- **An insertion arrives** with its table and values. -/
theorem insert_received {t : CString} {v : Option InputParams} {cmd : List Byte}
    (h : RemoteMdbSession.insert isBigEndian t v = some cmd) :
    dealRequest isBigEndian cmd = some (.call (received (.insert t v))) := by
  obtain ⟨rfl, _, _, hfits⟩ := putCmd_spec h
  rw [dealRequest_putString (by decide) (by decide)]
  show insert isBigEndian _ = _
  rw [insert, splitValues_fields h]
  simp only [List.map_cons, List.map_nil, Option.bind_eq_bind, Option.bind_some,
    splitParams_stored (hfits (putParams isBigEndian v) (by simp)), charPointer_stored]
  rfl

/-- **An update arrives** with its fields and with the values of every record. -/
theorem updateRecords_received {t i : CString} {k : Option InputParams} {f : List (List Byte)}
    {v o : List (Option InputParams)} {e : Option CString} {cmd : List Byte}
    (h : RemoteMdbSession.updateRecords isBigEndian t i k f v e o = some cmd)
    (hbuffers : InBuffers (.updateRecords t i k f v e o)) :
    dealRequest isBigEndian cmd = some (.call (received (.updateRecords t i k f v e o))) := by
  obtain ⟨hnames, hne, hone⟩ := hbuffers
  obtain ⟨rfl, _, _, hfits⟩ := putCmd_spec h
  rw [dealRequest_putString (by decide) (by decide)]
  show update isBigEndian _ = _
  rw [update, splitValues_fields h]
  simp only [List.map_cons, List.map_nil, Option.bind_eq_bind, Option.bind_some,
    splitParams_stored (hfits (putParams isBigEndian k) (by simp)),
    splitStrings_stored hnames (hfits (putStrings isBigEndian f) (by simp)),
    splitRecords_stored (hfits (putRecords isBigEndian v) (by simp)),
    splitRecords_stored (hfits (putRecords isBigEndian o) (by simp)),
    charPointer_stored, charPointer_expression, List.length_map]
  -- two records or more stay a batch
  match v, o with
  | [], _ => exact absurd rfl hne
  | [_], [] => exact absurd rfl (hone rfl)
  | [_], _ :: _ => rfl
  | _ :: _ :: _, _ =>
      rw [if_pos (by simp)]
      rfl

/-- **What arrives of a command**, in either byte order. -/
theorem dealRequest_cmd (isBigEndian : Bool) (c : Command) (cmd : List Byte)
    (hcmd : c.cmd isBigEndian = some cmd) (hbuffers : InBuffers c) :
    dealRequest isBigEndian cmd = some (.call (received c)) := by
  cases c with
  | select t i k e o n => exact select_received hcmd hbuffers
  | deleteRec t i k e o => exact deleteRec_received hcmd
  | insert t v => exact insert_received hcmd
  | update t i k f v e o =>
      -- written as a batch of one record
      exact updateRecords_received (v := [v]) (o := [o]) hcmd ⟨hbuffers, by simp, by simp⟩
  | updateRecords t i k f v e o => exact updateRecords_received hcmd hbuffers

end

/-- A table with a name of one letter. -/
def tableA : CString := ⟨[65], by simp⟩

/-- One parameter is empty, and one has a zero byte. -/
def updateA : Command :=
  .update tableA tableA (some [some [0, 255], none]) [[66]] (some [some []]) none none

/-- The bytes of an update of one column with one record. -/
theorem dealRequest_cmd_updateA :
    dealRequest false [6, 0, 117, 112, 100, 97, 116, 101, 7, 0, 1, 0, 65, 1, 0, 65,
        8, 0, 2, 0, 2, 0, 0, 255, 0, 0, 5, 0, 1, 0, 1, 0, 66, 8, 0, 1, 0, 4, 0, 1, 0, 0, 0,
        0, 0, 6, 0, 1, 0, 2, 0, 0, 0] =
      some (.call (.update (some [65]) (some [65]) (some [some [0, 255], none]) [[66]]
        (some [none]) none none)) :=
  dealRequest_cmd false updateA _ (by decide +kernel)
    (by simp [InBuffers, updateA, IsName, T_NAMEDEF])

/-- A select row by row with an index key. -/
def rowByRowA : Command := .select tableA tableA (some [some [1]]) none none SELECT_ROW_BY_ROW

def rowByRowCmd : List Byte :=
  [6, 0, 115, 101, 108, 101, 99, 116, 6, 0, 1, 0, 65, 1, 0, 65, 5, 0, 1, 0, 1, 0, 1, 0, 0, 0, 0,
    4, 0, 254, 255, 255, 255]

/-- The key does not arrive. -/
theorem dealRequest_rowByRowA :
    rowByRowA.cmd false = some rowByRowCmd ∧ InBuffers rowByRowA ∧
      dealRequest false rowByRowCmd ≠ some (.call (meant rowByRowA)) :=
  ⟨by decide +kernel, fun _ => ⟨by decide, by decide, by decide, by decide⟩, by decide +kernel⟩

end DealRequest
