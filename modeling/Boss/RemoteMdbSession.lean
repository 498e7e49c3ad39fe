import Boss.PublicFunc

/-!
# The commands of the client

`RemoteMdbSession` puts a command together in a buffer of `MAX_CMD_LEN` bytes on its stack:
the name of the command behind its length, the number of its fields, and every field behind
its length.  The fields of a list are again written so.  `none` stands for a command that does
not fit into the buffer.

The updates write their values and their other parameters as lists of records, also when
there is one record.  `select` alone writes a field without bytes for other parameters that are
null, and has the row count as a last field.
-/

namespace RemoteMdbSession

open Decimal LengthPrefix PublicFunc

def MAX_CMD_LEN : Nat := 1024

def SELECT_ROW_BY_ROW : BitVec 32 := -2

/-- The bytes of a name of the protocol. -/
def name (text : List Char) : List Byte := text.map fun c => UInt8.ofNat c.toNat

def SELECT_CMD : List Byte := name ['s', 'e', 'l', 'e', 'c', 't']

def INSERT_CMD : List Byte := name ['i', 'n', 's', 'e', 'r', 't']

def UPDATE_CMD : List Byte := name ['u', 'p', 'd', 'a', 't', 'e']

def DELETE_CMD : List Byte := name ['d', 'e', 'l', 'e', 't', 'e', 'R', 'e', 'c']

/-- A `const char *` that is not null: the bytes in front of the zero byte. -/
structure CString where
  bytes : List Byte
  ne_zero : ∀ c ∈ bytes, c ≠ 0

/-- The bytes of an expression, which may be null. -/
def expression (cExpr : Option CString) : List Byte := content (cExpr.map CString.bytes)

section
variable (isBigEndian : Bool)

/-- The command in `cmd`, with `fields.length` as its number of fields. -/
def putCmd (command : List Byte) (fields : List (List Byte)) : Option (List Byte) :=
  let cmd := putString isBigEndian command ++ putStrings isBigEndian fields
  if cmd.length ≤ MAX_CMD_LEN then some cmd else none

def select (cTableName cIndexName : CString) (pIndexKeyParams : Option InputParams)
    (cExpr : Option CString) (pOtherParams : Option InputParams) (iRowCount : BitVec 32) :
    Option (List Byte) :=
  putCmd isBigEndian SELECT_CMD
    [cTableName.bytes,
      cIndexName.bytes,
      putParams isBigEndian pIndexKeyParams,
      expression cExpr,
      -- the number 0 is written, but the offset does not move over it
      if pOtherParams = none then [] else putParams isBigEndian pOtherParams,
      numeral isBigEndian 4 iRowCount.toNat]

def deleteRec (cTableName cIndexName : CString) (pIndexKeyParams : Option InputParams)
    (cExpr : Option CString) (pOtherParams : Option InputParams) : Option (List Byte) :=
  putCmd isBigEndian DELETE_CMD
    [cTableName.bytes,
      cIndexName.bytes,
      putParams isBigEndian pIndexKeyParams,
      expression cExpr,
      putParams isBigEndian pOtherParams]

def insert (cTableName : CString) (pInputParams : Option InputParams) : Option (List Byte) :=
  putCmd isBigEndian INSERT_CMD [cTableName.bytes, putParams isBigEndian pInputParams]

/-- `update` with a `vector` of records. -/
def updateRecords (cTableName cIndexName : CString) (pIndexKeyParams : Option InputParams)
    (sFieldNames : List (List Byte)) (pUpdateValues : List (Option InputParams))
    (cExpr : Option CString) (pOtherParams : List (Option InputParams)) : Option (List Byte) :=
  putCmd isBigEndian UPDATE_CMD
    [cTableName.bytes,
      cIndexName.bytes,
      putParams isBigEndian pIndexKeyParams,
      putStrings isBigEndian sFieldNames,
      putRecords isBigEndian pUpdateValues,
      expression cExpr,
      putRecords isBigEndian pOtherParams]

/-- `update` of one record, which writes the number 1 of records. -/
def update (cTableName cIndexName : CString) (pIndexKeyParams : Option InputParams)
    (sFieldNames : List (List Byte)) (pUpdateValues : Option InputParams)
    (cExpr : Option CString) (pOtherParams : Option InputParams) : Option (List Byte) :=
  putCmd isBigEndian UPDATE_CMD
    [cTableName.bytes,
      cIndexName.bytes,
      putParams isBigEndian pIndexKeyParams,
      putStrings isBigEndian sFieldNames,
      putRecords isBigEndian [pUpdateValues],
      expression cExpr,
      putRecords isBigEndian [pOtherParams]]

end

/-- A call of the client, with its arguments. -/
inductive Command
  | select (cTableName cIndexName : CString) (pIndexKeyParams : Option InputParams)
      (cExpr : Option CString) (pOtherParams : Option InputParams) (iRowCount : BitVec 32)
  | deleteRec (cTableName cIndexName : CString) (pIndexKeyParams : Option InputParams)
      (cExpr : Option CString) (pOtherParams : Option InputParams)
  | insert (cTableName : CString) (pInputParams : Option InputParams)
  | update (cTableName cIndexName : CString) (pIndexKeyParams : Option InputParams)
      (sFieldNames : List (List Byte)) (pUpdateValues : Option InputParams)
      (cExpr : Option CString) (pOtherParams : Option InputParams)
  | updateRecords (cTableName cIndexName : CString) (pIndexKeyParams : Option InputParams)
      (sFieldNames : List (List Byte)) (pUpdateValues : List (Option InputParams))
      (cExpr : Option CString) (pOtherParams : List (Option InputParams))

/-- What is sent to the server. -/
def Command.cmd (isBigEndian : Bool) : Command → Option (List Byte)
  | .select t i k e o n => RemoteMdbSession.select isBigEndian t i k e o n
  | .deleteRec t i k e o => RemoteMdbSession.deleteRec isBigEndian t i k e o
  | .insert t v => RemoteMdbSession.insert isBigEndian t v
  | .update t i k f v e o => RemoteMdbSession.update isBigEndian t i k f v e o
  | .updateRecords t i k f v e o => RemoteMdbSession.updateRecords isBigEndian t i k f v e o

/-! ## What fits into the buffer -/

/-- **In a command that fits, every length fits its two bytes.** -/
theorem putCmd_spec {isBigEndian : Bool} {command cmd : List Byte} {fields : List (List Byte)}
    (h : putCmd isBigEndian command fields = some cmd) :
    cmd = putString isBigEndian command ++ putStrings isBigEndian fields ∧
      command.length < 2 ^ 16 ∧ fields.length < 2 ^ 16 ∧
      ∀ field ∈ fields, field.length < 2 ^ 16 := by
  simp only [putCmd, Option.ite_none_right_eq_some, Option.some.injEq, List.length_append] at h
  obtain ⟨hlength, rfl⟩ := h
  obtain ⟨hcount, hfield⟩ := putStrings_bounds isBigEndian fields
  have hcommand := putString_length isBigEndian command
  have hmax : MAX_CMD_LEN < 2 ^ 16 := by decide
  exact ⟨rfl, by omega, by omega, fun field h => by
    have := hfield field h
    omega⟩

end RemoteMdbSession
