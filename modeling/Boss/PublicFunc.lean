import Boss.ExcuteCmd
import Boss.LengthPrefix

/-!
# The four `splitStr`

A command is a number of fields, each behind its length, and a field may again be such a list,
or a list of such lists.  A length takes `TRANS_FIELDS_LENTH_BYTES` bytes in the byte order of
the machine, on every level.

`splitStr` walks over the request with an offset.  Here it is what is left of the request
behind the offset, and `none` stands for a read behind the last byte, through a null pointer
or out of a buffer.

Main results: `splitParams_putParams`, `splitRecords_putRecords` and `splitStrings_putStrings`.
-/

namespace PublicFunc

open Decimal ExcuteCmd LengthPrefix

def TRANS_FIELDS_LENTH_BYTES : Nat := 2

/-- `sizeof(T_NAMEDEF)`. -/
def T_NAMEDEF : Nat := 64 + 1

/-- `m_pValues`: a parameter is a pointer to `m_iValueLenths[i]` bytes, or null with length 0. -/
abbrev InputParams := List (Option (List Byte))

section
variable (isBigEndian : Bool)

/-- The bytes of `length` from `m_offSet` on. -/
def putLength (length : Nat) : List Byte := numeral isBigEndian TRANS_FIELDS_LENTH_BYTES length

def getLength : Reader Byte Nat := number isBigEndian TRANS_FIELDS_LENTH_BYTES

/-- One field of the first `splitStr`: `malloc(length + 1)` filled with zeros, and the field. -/
def getValue : Reader Byte (Option (List Byte)) := do
  let length ← getLength isBigEndian
  if length > 0 then
    let value ← take length
    pure (some (value ++ [0]))
  else pure none

/-- `splitStr(request, pValues)`. -/
def splitValues : Option (List Byte) → Option (List (Option (List Byte)))
  | none => some []
  | some request => StateT.run' (do
      let fieldNum ← getLength isBigEndian
      many (getValue isBigEndian) fieldNum) request

/-- One parameter of the second. -/
def getParam : Reader Byte (Option (List Byte)) := do
  let length ← getLength isBigEndian
  if length > 0 then
    let value ← take length
    pure (some value)
  else pure none

/-- `splitStr(request, pInputParams)`. -/
def splitParams : Option (List Byte) → Option (Option InputParams)
  | none => some none
  | some request => StateT.run' (do
      let fieldNum ← getLength isBigEndian
      let m_pValues ← many (getParam isBigEndian) fieldNum
      pure (if fieldNum > 0 then some m_pValues else none)) request

/-- One record of the third: what `splitStr` finds at the offset, which then moves on by the
length of the record. -/
def getRecord : Reader Byte (Option InputParams) := do
  let length ← getLength isBigEndian
  let p ← peek fun request => splitParams isBigEndian (some request)
  skip length
  pure p

/-- `splitStr(request, vector<InputParams *>)`. -/
def splitRecords : Option (List Byte) → Option (List (Option InputParams))
  | none => some []
  | some request => StateT.run' (do
      let recordNum ← getLength isBigEndian
      many (getRecord isBigEndian) recordNum) request

/-- One string of the fourth, which goes through a `T_NAMEDEF` and is taken from there as a
C string. -/
def getString : Reader Byte (List Byte) := do
  let length ← getLength isBigEndian
  let value ← take length
  let tmp := value ++ List.replicate (T_NAMEDEF - length) 0
  if length ≤ T_NAMEDEF ∧ 0 ∈ tmp then pure (cString tmp) else failure

/-- `splitStr(inPutStr, vector<string>)`. -/
def splitStrings : Option (List Byte) → Option (List (List Byte))
  | none => none
  | some inPutStr => StateT.run' (do
      let filedNum ← getLength isBigEndian
      many (getString isBigEndian) filedNum) inPutStr

/-! ## What the client writes -/

/-- A text, or a list that was put together, behind its length. -/
def putString (text : List Byte) : List Byte := putLength isBigEndian text.length ++ text

/-- A list of texts behind their number. -/
def putStrings (texts : List (List Byte)) : List Byte :=
  putLength isBigEndian texts.length ++ texts.flatMap (putString isBigEndian)

/-- The bytes at a pointer that may be null. -/
def content (value : Option (List Byte)) : List Byte := value.getD []

/-- An `InputParams *`; a null pointer gives the list of no parameters. -/
def putParams (params : Option InputParams) : List Byte :=
  putStrings isBigEndian ((params.getD []).map content)

/-- A `vector<InputParams *>`, each record behind its length. -/
def putRecords (records : List (Option InputParams)) : List Byte :=
  putStrings isBigEndian (records.map (putParams isBigEndian))

end

/-! ## What the server finds

A text without bytes comes back as a null pointer, and so does a list without parameters. -/

def pointer (text : List Byte) : Option (List Byte) := if text = [] then none else some text

/-- The parameters as they arrive. -/
def arrived (params : Option InputParams) : Option InputParams :=
  let m_pValues := (params.getD []).map fun value => pointer (content value)
  if m_pValues = [] then none else some m_pValues

section
variable {isBigEndian : Bool}

@[simp]
theorem putLength_length (n : Nat) :
    (putLength isBigEndian n).length = TRANS_FIELDS_LENTH_BYTES := numeral_length _ _ _

theorem putString_length (isBigEndian : Bool) (text : List Byte) :
    (putString isBigEndian text).length = TRANS_FIELDS_LENTH_BYTES + text.length := by
  simp [putString]

/-- A text in a list is not longer than the list, and there are not more texts than bytes. -/
theorem putStrings_bounds (isBigEndian : Bool) (texts : List (List Byte)) :
    texts.length ≤ (putStrings isBigEndian texts).length ∧
      ∀ text ∈ texts, text.length ≤ (putStrings isBigEndian texts).length := by
  have hflat : texts.length ≤ (texts.flatMap (putString isBigEndian)).length ∧
      ∀ text ∈ texts, text.length ≤ (texts.flatMap (putString isBigEndian)).length := by
    induction texts with
    | nil => simp
    | cons t texts ih =>
        have htwo : TRANS_FIELDS_LENTH_BYTES = 2 := rfl
        obtain ⟨hcount, hlength⟩ := ih
        rw [List.flatMap_cons, List.length_append, putString_length, List.length_cons, htwo]
        refine ⟨by omega, fun text htext => ?_⟩
        rcases List.mem_cons.mp htext with rfl | htext
        · omega
        · have := hlength text htext
          omega
  obtain ⟨hcount, hlength⟩ := hflat
  rw [putStrings, List.length_append]
  exact ⟨by omega, fun text htext => by
    have := hlength text htext
    omega⟩

theorem reads_length {n : Nat} (h : n < 2 ^ 16) :
    Reads (getLength isBigEndian) (putLength isBigEndian n) n := Reads.number h

theorem reads_value {text : List Byte} (h : text.length < 2 ^ 16) :
    Reads (getValue isBigEndian) (putString isBigEndian text)
      ((pointer text).map fun value => value ++ [0]) := by
  refine (reads_length h).bind ?_
  cases text with
  | nil => exact Reads.pure none
  | cons c text => exact (Reads.take (c :: text)).map fun value => some (value ++ [0])

theorem reads_param {text : List Byte} (h : text.length < 2 ^ 16) :
    Reads (getParam isBigEndian) (putString isBigEndian text) (pointer text) := by
  refine (reads_length h).bind ?_
  cases text with
  | nil => exact Reads.pure none
  | cons c text => exact (Reads.take (c :: text)).map some

/-- A list of texts, read with any of the readers of one text. -/
theorem reads_strings {α : Type} {get : Reader Byte α} {value : List Byte → α}
    {texts : List (List Byte)} (hfits : texts.length < 2 ^ 16)
    (hget : ∀ text ∈ texts, Reads get (putString isBigEndian text) (value text)) :
    Reads (do
      let n ← getLength isBigEndian
      many get n) (putStrings isBigEndian texts) (texts.map value) :=
  (reads_length hfits).bind (Reads.many hget)

/-- **Fields are found as they were written**, each with a zero byte behind it. -/
theorem splitValues_putStrings {fields : List (List Byte)} (hcount : fields.length < 2 ^ 16)
    (hfits : ∀ field ∈ fields, field.length < 2 ^ 16) :
    splitValues isBigEndian (some (putStrings isBigEndian fields)) =
      some (fields.map fun field => (pointer field).map fun value => value ++ [0]) := by
  have hread : Reads (do
      let fieldNum ← getLength isBigEndian
      many (getValue isBigEndian) fieldNum) (putStrings isBigEndian fields) _ :=
    reads_strings hcount fun field h => reads_value (hfits field h)
  have hrun := hread.run' []
  rwa [List.append_nil] at hrun

/-- **Parameters are found as they were written**, whatever bytes follow. -/
theorem splitParams_putParams {params : Option InputParams}
    (hfits : (putParams isBigEndian params).length < 2 ^ 16) (rest : List Byte) :
    splitParams isBigEndian (some (putParams isBigEndian params ++ rest)) =
      some (arrived params) := by
  let texts := (params.getD []).map content
  obtain ⟨hcount, hlength⟩ := putStrings_bounds isBigEndian texts
  have hmany : Reads (many (getParam isBigEndian) texts.length)
      (texts.flatMap (putString isBigEndian)) (texts.map pointer) :=
    Reads.many fun text h => reads_param (lt_of_le_of_lt (hlength text h) hfits)
  have hread : Reads (do
      let fieldNum ← getLength isBigEndian
      let m_pValues ← many (getParam isBigEndian) fieldNum
      pure (if fieldNum > 0 then some m_pValues else none)) (putParams isBigEndian params)
      (if texts.length > 0 then some (texts.map pointer) else none) :=
    (reads_length (lt_of_le_of_lt hcount hfits)).bind
      (hmany.map fun m_pValues => if texts.length > 0 then some m_pValues else none)
  have hlist : (if texts.length > 0 then some (texts.map pointer) else none) = arrived params := by
    simp only [arrived, texts, List.map_map]
    cases params.getD [] with
    | nil => rfl
    | cons value values => rfl
  rw [← hlist]
  exact hread.run' rest

/-- **Records are found as they were written.** -/
theorem splitRecords_putRecords {records : List (Option InputParams)}
    (hfits : (putRecords isBigEndian records).length < 2 ^ 16) (rest : List Byte) :
    splitRecords isBigEndian (some (putRecords isBigEndian records ++ rest)) =
      some (records.map arrived) := by
  obtain ⟨hcount, hlength⟩ :=
    putStrings_bounds isBigEndian (records.map (putParams isBigEndian))
  have hrecord : ∀ record ∈ records, Reads (getRecord isBigEndian)
      (putString isBigEndian (putParams isBigEndian record)) (arrived record) := by
    intro record h
    have hrecordFits := lt_of_le_of_lt (hlength _ (List.mem_map_of_mem h)) hfits
    exact (reads_length hrecordFits).bind
      (Reads.peek_skip fun rest => splitParams_putParams hrecordFits rest)
  have hread : Reads (do
      let recordNum ← getLength isBigEndian
      many (getRecord isBigEndian) recordNum) (putRecords isBigEndian records)
      (records.map arrived) := by
    have hmany := Reads.many hrecord
    rw [putRecords, putStrings, List.flatMap_map, List.length_map]
    rw [List.length_map] at hcount
    exact (reads_length (lt_of_le_of_lt hcount hfits)).bind hmany
  exact hread.run' rest

/-- A text that is shorter than the cleared buffer it is copied into. -/
theorem cString_padded {text : List Byte} {size : Nat} (hlength : text.length < size)
    (hzero : ∀ c ∈ text, c ≠ 0) :
    (text.length ≤ size ∧ 0 ∈ text ++ List.replicate (size - text.length) 0) ∧
      cString (text ++ List.replicate (size - text.length) 0) = text := by
  obtain ⟨k, hk⟩ : ∃ k, size - text.length = k + 1 := ⟨size - text.length - 1, by omega⟩
  rw [hk, cString, List.takeWhile_append_of_pos (by simpa using hzero)]
  exact ⟨⟨Nat.le_of_lt hlength, by simp⟩, by simp [List.replicate_succ]⟩

/-- A name that fits into a `T_NAMEDEF`. -/
def IsName (text : List Byte) : Prop := text.length < T_NAMEDEF ∧ ∀ c ∈ text, c ≠ 0

theorem reads_string {text : List Byte} (h : IsName text) :
    Reads (getString isBigEndian) (putString isBigEndian text) text := by
  have hfits : text.length < 2 ^ 16 := Nat.lt_trans h.1 (by decide)
  obtain ⟨hend, htext⟩ := cString_padded h.1 h.2
  have hlast : Reads (if text.length ≤ T_NAMEDEF ∧
      0 ∈ text ++ List.replicate (T_NAMEDEF - text.length) 0
      then pure (cString (text ++ List.replicate (T_NAMEDEF - text.length) 0))
      else failure : Reader Byte (List Byte)) [] text := by
    rw [if_pos hend, htext]
    exact Reads.pure text
  have hread : Reads (getString isBigEndian)
      (putLength isBigEndian text.length ++ (text ++ [])) text :=
    (reads_length hfits).bind ((Reads.take text).bind hlast)
  rwa [List.append_nil] at hread

/-- **Field names are found as they were written.** -/
theorem splitStrings_putStrings {names : List (List Byte)} (hnames : ∀ name ∈ names, IsName name)
    (hfits : (putStrings isBigEndian names).length < 2 ^ 16) (rest : List Byte) :
    splitStrings isBigEndian (some (putStrings isBigEndian names ++ rest)) = some names := by
  obtain ⟨hcount, _⟩ := putStrings_bounds isBigEndian names
  have hread : Reads (do
      let filedNum ← getLength isBigEndian
      many (getString isBigEndian) filedNum) (putStrings isBigEndian names) (names.map id) :=
    reads_strings (lt_of_le_of_lt hcount hfits) fun name h => reads_string (hnames name h)
  rw [List.map_id] at hread
  exact hread.run' rest

end

end PublicFunc
