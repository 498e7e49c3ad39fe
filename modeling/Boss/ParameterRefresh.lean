import Boss.Chunks
import Boss.ParameterInterface
import Boss.SortedMap
import Mathlib.Algebra.GroupWithZero.Nat
import Mathlib.Data.List.Sort
import Mathlib.Data.List.TakeWhile

/-!
# Refreshing a parameter table

`Parameter::getData` reads what a data source delivers into a second pool of rows, builds a second
set of indexes over it and puts both in the place of the live ones.  A row is kept as the bytes of
its fields with the offset of each in a `char`, which is signed; sorting and queries read the fields
there.  The bytes are handed out by a `ParameterBuffer`, whose position in its chunk is a `short`.

An error of the data source leaves the live indexes as they are.  So does its report that there are
no rows.  Definitions give `none` where the behaviour of the source is undefined.

Main results:
* `sound_iff_counted`: a refresh of storable records is complete or without effect exactly when a
  report of no rows is true;
* `refreshes_complete_iff`: so through any history of refreshes;
* `positioned_of_unit_le`: a chunk of at most 32767 bytes never runs out of positions.
-/

namespace Parameter

open Chunks Runs ParameterInterface

abbrev Bytes := List UInt8

/-- A string up to its NUL. -/
def cstr (s : Bytes) : Bytes := s.takeWhile (· ≠ 0)

/-- What `EBCD_incode` leaves in its first argument, and `EBCD_decode`. -/
structure Codec where
  incode : Bytes → Bytes → Bytes
  decode : Bytes → Bytes

/-- A field of a table: what its format prints, and whether it is compressed. -/
structure Field where
  print : Bytes → Bytes
  compress : Bool

structure Table where
  codec : Codec
  fields : List Field
  bufferUnit : Nat
  /-- For each index the fields that it is sorted by, and whether in ascending order. -/
  indexes : List (List (Nat × Bool))
  indexes_lt : ∀ keys ∈ indexes, ∀ k ∈ keys, k.1 < fields.length

variable (T : Table)

/-! ## Rows -/

/-- What a `char` makes of a number. -/
def char (n : Nat) : Int := if n % 256 < 128 then (n % 256 : Nat) else (n % 256 : Nat) - 256

structure ParameterCdr where
  m_index : List Int
  m_fields : Bytes
  deriving DecidableEq, Repr

/-- The offsets of the fields from `j` on, and their bytes. -/
def place : Nat → List Bytes → List Int × Bytes
  | _, [] => ([], [])
  | j, field :: rest =>
    let next := place (j + field.length + 1) rest
    (char j :: next.1, field ++ 0 :: next.2)

/-- `ParameterCdr::insert`, with a buffer of 1024 bytes for the fields and the range that `getBuffer`
hands out for them.  The ranges for the offsets, of at most 127 bytes in chunks of 1024, always lie in
their chunks. -/
def ParameterCdr.insert (bufferUnit : Nat) (buffer : Store Unit) (field : List Bytes) :
    Option (ParameterCdr × Store Unit) :=
  let m_count := char field.length
  if m_count ≤ 0 then some (⟨[], []⟩, buffer)
  else
    let cdr := place 0 (field.take m_count.toNat)
    let m_fields := take bufferUnit cdr.2.length buffer
    if cdr.2.length ≤ 1024 ∧ 0 ≤ m_fields.1.offset ∧
        m_fields.1.offset + cdr.2.length ≤ bufferUnit then
      some (⟨cdr.1, cdr.2⟩, m_fields.2)
    else none

def ParameterCdr.at (cdr : ParameterCdr) (i : Nat) : Option Bytes :=
  cdr.m_index[i]?.bind fun m =>
    if 0 ≤ m ∧ m.toNat < cdr.m_fields.length then some (cstr (cdr.m_fields.drop m.toNat)) else none

/-- A field as sorting, queries and `dump` read it. -/
def decoded (field : Field) (s : Bytes) : Bytes := if field.compress then T.codec.decode s else s

def key (position : Nat) (cdr : ParameterCdr) : Option Bytes :=
  (cdr.at position).bind fun s => T.fields[position]?.map fun field => decoded T field s

/-- `Parameter::format`, into the 80 bytes of `tmp`.  Nobody looks whether a field could be
compressed. -/
def format (tmp line : Bytes) (field : Field) : Option Bytes :=
  let text := cstr (field.print line)
  let strDes := if field.compress then T.codec.incode tmp text else text
  if text.length < 1024 ∧ strDes.length < 80 then some strDes else none

/-- The loop over the fields of a record; `tmp` at its end, and the formatted fields. -/
def desLines : Bytes → List Field → List Bytes → Option (Bytes × List Bytes)
  | tmp, _, [] => some (tmp, [])
  | _, [], _ :: _ => none
  | tmp, field :: fields, line :: lines =>
    (format T tmp line field).bind fun tmp =>
      (desLines tmp fields lines).map fun rest => (rest.1, cstr tmp :: rest.2)

/-- The loop over the records. -/
def load : Store Unit → Bytes → List (List Bytes) → Option (List ParameterCdr)
  | _, _, [] => some []
  | buffer, tmp, lines :: records =>
    (desLines T tmp T.fields lines).bind fun des =>
      (ParameterCdr.insert T.bufferUnit buffer des.2).bind fun inserted =>
        (load inserted.2 des.1 records).map fun pool => inserted.1 :: pool

/-- A new `ParameterBuffer`, which has no chunk. -/
def newBuffer : Store Unit := ⟨0, 0, fun _ _ => ()⟩

/-! ## Indexes -/

/-- The comparison behind `operator<` of `Index`. -/
def compareKeys : List (Nat × Bool) → ParameterCdr → ParameterCdr → Ordering
  | [] => fun _ _ => .eq
  | (position, ascending) :: rest =>
    compareLex
      (fun left right =>
        let left_key := (key T position left).getD []
        let right_key := (key T position right).getD []
        if ascending then compare left_key right_key else compare right_key left_key)
      (compareKeys rest)

/-- `partial_sort` of a whole index. -/
def sort (keys : List (Nat × Bool)) (pool : List ParameterCdr) : List ParameterCdr :=
  pool.insertionSort fun a b => (compareKeys T keys a b).isLE = true

structure State where
  index : List (List ParameterCdr)
  indexTmp : List (List ParameterCdr)
  cdrPool : List ParameterCdr
  cdrPoolTmp : List ParameterCdr
  count : Int
  needUpdata : Bool
  systemState : SystemState

/-- A table that nothing was read into. -/
def new : State where
  index := T.indexes.map fun _ => []
  indexTmp := T.indexes.map fun _ => []
  cdrPool := []
  cdrPoolTmp := []
  count := 0
  needUpdata := false
  systemState := .READY_STATE

/-- Sorting reads the keys of all rows. -/
def getDataIndex (s : State) : Option State :=
  if ∀ cdr ∈ s.cdrPoolTmp, ∀ keys ∈ T.indexes, ∀ k ∈ keys, (key T k.1 cdr).isSome then
    some { s with
      needUpdata := true, indexTmp := T.indexes.map fun keys => sort T keys s.cdrPoolTmp }
  else none

def toSwitch (s : State) : State :=
  { s with
    index := s.indexTmp
    indexTmp := s.index.map fun _ => []
    cdrPool := s.cdrPoolTmp
    cdrPoolTmp := []
    needUpdata := false }

/-! ## Refreshes -/

/-- What a data source does in one refresh: the number that `reset` returns, the records that
`getRecord` returns one after the other, and whether it returns an error behind them. -/
structure Delivery where
  reset : Int
  records : List (List Bytes)
  fails : Bool
  /-- What is in `tmp` before the first field. -/
  tmp : Bytes
  records_ne : ∀ lines ∈ records, lines ≠ []

/-- No query is running. -/
def getData (s : State) (d : Delivery) : Option (State × Bool) :=
  let s := { s with cdrPoolTmp := [] }
  if d.reset < 0 then some (s, false)
  else
    let s := { s with count := d.reset }
    if s.count = 0 then some (s, true)
    else
      (load T newBuffer d.tmp d.records).bind fun pool =>
        let s := { s with cdrPoolTmp := pool }
        if d.fails then some (s, false)
        else
          (getDataIndex T s).map fun s =>
            let s := if s.systemState = .READY_STATE then
                { s with systemState := .UPDATA_STATE } else s
            let s := toSwitch s
            (if s.systemState = .UPDATA_STATE then { s with systemState := .READY_STATE } else s,
              true)

def upData (s : State) (d : Delivery) : Option State :=
  if s.needUpdata then (getData T { s with needUpdata := false } d).map Prod.fst else some s

/-- `needUpdata` marks the table, or it is refreshed. -/
inductive Step
  | mark
  | upData (d : Delivery)

def step (s : State) : Step → Option State
  | .mark => some { s with needUpdata := true }
  | .upData d => upData T s d

/-! ## Queries -/

/-- What a query looks for: its first field, how it searches, and its expression. -/
structure Query where
  inField : Nat
  seachType : Nat
  eq : ParameterCdr → Bool
  lt : ParameterCdr → Bool

def seach (q : Query) (list : List ParameterCdr) : List ParameterCdr :=
  match q.seachType with
  | 0 => list.filter q.eq
  | 2 => ((list.drop (SortedMap.lowerBound q.lt list)).take 1).filter q.eq
  | _ => (list.drop (SortedMap.lowerBound q.lt list)).takeWhile q.eq

/-- The answer from the first index whose first field is the query's. -/
def find (s : State) (q : Query) : List ParameterCdr :=
  match (T.indexes.zip s.index).find? fun entry => entry.1.head?.map Prod.fst = some q.inField with
  | none => []
  | some entry => seach q entry.2

/-! ## What a refresh is for -/

/-- The fields of a row as `dump` prints them. -/
def shown (cdr : ParameterCdr) : List (Option Bytes) :=
  (List.range T.fields.length).map fun i => key T i cdr

/-- The fields of a record as their formats print them. -/
def texts (lines : List Bytes) : List (Option Bytes) :=
  (T.fields.zip lines).map fun entry => some (cstr (entry.1.print entry.2))

/-- Every index holds exactly the records, in its order. -/
def Holds (s : State) (records : List (List Bytes)) : Prop :=
  List.Forall₂
    (fun keys list => (list.map (shown T)).Perm (records.map (texts T)) ∧
      list.Pairwise fun a b => (compareKeys T keys a b).isLE)
    T.indexes s.index

/-- Every answer consists of the records. -/
def Answers (s : State) (records : List (List Bytes)) : Prop :=
  ∀ q, ∀ cdr ∈ find T s q, ∃ lines ∈ records, shown T cdr = texts T lines

/-- The data source delivers its records without an error. -/
def Delivery.Delivers (d : Delivery) : Prop := 0 ≤ d.reset ∧ d.fails = false

/-- A refresh of a marked table is complete when the records are delivered and without effect when
they are not. -/
def Sound (s : State) : Step → Prop
  | .mark => True
  | .upData d => s.needUpdata → ∃ t, upData T s d = some t ∧
      (d.Delivers → Holds T t d.records ∧ Answers T t d.records) ∧
      (¬ d.Delivers → t.index = s.index)

/-- When the data source delivers and reports no rows, the indexes hold what it delivers already. -/
def Counted (s : State) : Step → Prop
  | .mark => True
  | .upData d => s.needUpdata → d.Delivers → d.reset = 0 → Holds T s d.records

/-- What is stored of a field. -/
def code (field : Field) (line : Bytes) : Bytes :=
  if field.compress then T.codec.incode [] (cstr (field.print line)) else cstr (field.print line)

/-- The field fits, and what is stored of it reads back as it was printed. -/
def Keeps (field : Field) (line : Bytes) : Prop :=
  (∀ tmp, format T tmp line field = some (code T field line)) ∧ 0 ∉ code T field line ∧
    decoded T field (code T field line) = cstr (field.print line)

def codes (lines : List Bytes) : List Bytes :=
  (T.fields.zip lines).map fun entry => code T entry.1 entry.2

/-- Where the field behind the first `n` begins. -/
def offset (fields : List Bytes) (n : Nat) : Nat :=
  ((fields.take n).map fun field => field.length + 1).sum

/-- The record has the fields of the table, less than 128; each keeps what it prints; they fit into
the buffers; and each begins at an offset below 128. -/
def Storable (lines : List Bytes) : Prop :=
  lines.length = T.fields.length ∧ lines.length < 128 ∧
    (∀ entry ∈ T.fields.zip lines, Keeps T entry.1 entry.2) ∧
    offset (codes T lines) lines.length ≤ 1024 ∧
    offset (codes T lines) lines.length ≤ T.bufferUnit ∧
    ∀ n < lines.length, offset (codes T lines) n < 128

/-- The position in the chunk is not negative when a record is inserted, for records of these sizes one
after the other. -/
def Positioned (bufferUnit : Nat) : Store Unit → List Nat → Prop
  | _, [] => True
  | buffer, size :: sizes =>
    (buffer.count = 0 ∨ 0 ≤ buffer.position) ∧
      Positioned bufferUnit (take bufferUnit size buffer).2 sizes

/-- How many bytes a record takes. -/
def size (lines : List Bytes) : Nat := offset (codes T lines) lines.length

def StorableStep (_ : State) : Step → Prop
  | .mark => True
  | .upData d => (∀ lines ∈ d.records, Storable T lines) ∧
      Positioned T.bufferUnit newBuffer (d.records.map (size T))

/-! ## What is stored is read back -/

variable {T}

theorem cstr_eq_self {s : Bytes} (h : 0 ∉ s) : cstr s = s :=
  List.takeWhile_eq_self_iff.mpr fun _ hb => decide_eq_true fun hzero => h (hzero ▸ hb)

theorem cstr_append {s : Bytes} (h : 0 ∉ s) (rest : Bytes) : cstr (s ++ 0 :: rest) = s := by
  have hself : ∀ b ∈ s, (decide (b ≠ 0)) = true :=
    fun b hb => decide_eq_true fun hzero => h (hzero ▸ hb)
  unfold cstr
  rw [List.takeWhile_append_of_pos hself]
  exact List.append_nil s

theorem char_of_lt {n : Nat} (h : n < 128) : char n = n := by
  unfold char
  split_ifs <;> omega

theorem offset_succ (field : Bytes) (rest : List Bytes) (n : Nat) :
    offset (field :: rest) (n + 1) = field.length + 1 + offset rest n := by
  rw [offset, List.take_succ_cons, List.map_cons, List.sum_cons, offset]

theorem offset_lt {fields : List Bytes} {i : Nat} (hi : i < fields.length) :
    offset fields i < offset fields fields.length := by
  induction fields generalizing i with
  | nil => exact absurd hi (Nat.not_lt_zero i)
  | cons field rest ih =>
      rw [List.length_cons, offset_succ]
      cases i with
      | zero => exact Nat.lt_of_lt_of_le (Nat.succ_pos field.length) (Nat.le_add_right _ _)
      | succ i =>
          rw [offset_succ]
          exact Nat.add_lt_add_left (ih (Nat.lt_of_succ_lt_succ hi)) _

theorem length_place (j : Nat) (fields : List Bytes) :
    (place j fields).2.length = offset fields fields.length := by
  induction fields generalizing j with
  | nil => rfl
  | cons field rest ih =>
      have hrest := ih (j + field.length + 1)
      rw [place, List.length_cons, offset_succ]
      simp only [List.length_append, List.length_cons, hrest]
      omega

/-- **A field is found where its offset says.** -/
theorem place_spec {fields : List Bytes} (hnul : ∀ field ∈ fields, 0 ∉ field) {i : Nat}
    (hi : i < fields.length) :
    ∀ {j : Nat} (before : Bytes), before.length = j →
      (place j fields).1[i]? = some (char (j + offset fields i)) ∧
        cstr ((before ++ (place j fields).2).drop (j + offset fields i)) = fields[i] := by
  induction fields generalizing i with
  | nil => exact absurd hi (Nat.not_lt_zero i)
  | cons field rest ih =>
      intro j before hbefore
      rw [place]
      cases i with
      | zero =>
          refine ⟨rfl, ?_⟩
          have hzero : j + offset (field :: rest) 0 = before.length := by
            rw [hbefore]
            rfl
          rw [hzero, List.drop_left]
          exact cstr_append (hnul field List.mem_cons_self) _
      | succ i =>
          have hlength : (before ++ (field ++ [0])).length = j + field.length + 1 := by
            rw [List.length_append, List.length_append, List.length_singleton, hbefore]
            omega
          obtain ⟨hindex, hfield⟩ := ih (fun f hf => hnul f (List.mem_cons_of_mem _ hf))
            (Nat.lt_of_succ_lt_succ hi) (before ++ (field ++ [0])) hlength
          have hoffset : j + offset (field :: rest) (i + 1) =
              j + field.length + 1 + offset rest i := by
            rw [offset_succ]
            omega
          have hbytes : before ++ (field ++ 0 :: (place (j + field.length + 1) rest).2) =
              before ++ (field ++ [0]) ++ (place (j + field.length + 1) rest).2 := by
            rw [List.append_assoc, List.append_assoc]
            rfl
          rw [hoffset]
          refine ⟨hindex, ?_⟩
          dsimp only
          rw [hbytes]
          exact hfield

/-- A chunk of at most 32767 bytes never runs out of positions: the next one is begun before the
`short` turns negative. -/
theorem positioned_of_unit_le {bufferUnit : Nat} (hshort : bufferUnit ≤ 32767) {sizes : List Nat}
    (hsizes : ∀ size ∈ sizes, size ≤ bufferUnit) {buffer : Store Unit}
    (hbuffer : buffer.count = 0 ∨ 0 ≤ buffer.position) :
    Positioned bufferUnit buffer sizes := by
  induction sizes generalizing buffer with
  | nil => exact trivial
  | cons size sizes ih =>
      have hsize : (size : Int) ≤ bufferUnit :=
        Int.ofNat_le.mpr (hsizes size List.mem_cons_self)
      have hnext := take_position hsize (by omega) hbuffer
      exact ⟨hbuffer, ih (fun n hn => hsizes n (List.mem_cons_of_mem _ hn)) (.inr hnext)⟩

/-- A row is stored as its fields when the position in the chunk is not negative. -/
theorem insert_spec {bufferUnit : Nat} {buffer : Store Unit} {fields : List Bytes}
    (hne : fields ≠ []) (hnul : ∀ field ∈ fields, 0 ∉ field)
    (hcount : fields.length < 128) (hroom : offset fields fields.length ≤ 1024)
    (hunit : offset fields fields.length ≤ bufferUnit)
    (hoffset : ∀ n < fields.length, offset fields n < 128)
    (hbuffer : buffer.count = 0 ∨ 0 ≤ buffer.position) :
    ∃ cdr, ParameterCdr.insert bufferUnit buffer fields =
        some (cdr, (take bufferUnit (offset fields fields.length) buffer).2) ∧
      ∀ i (hi : i < fields.length), cdr.at i = some fields[i] := by
  have hpos : 0 < fields.length := List.length_pos_iff.mpr hne
  have hlength := length_place 0 fields
  obtain ⟨hlow, hhigh⟩ := take_inside (Int.ofNat_le.mpr hunit) hbuffer
  refine ⟨⟨(place 0 fields).1, (place 0 fields).2⟩, ?_, ?_⟩
  · unfold ParameterCdr.insert
    dsimp only
    rw [char_of_lt hcount, if_neg (by omega), Int.toNat_natCast, List.take_length, hlength,
      if_pos ⟨hroom, hlow, hhigh⟩]
  · intro i hi
    have hlast : offset fields i < (place 0 fields).2.length := hlength ▸ offset_lt hi
    obtain ⟨hindex, hfield⟩ := place_spec hnul hi (j := 0) [] rfl
    rw [Nat.zero_add] at hindex hfield
    unfold ParameterCdr.at
    dsimp only
    rw [hindex, char_of_lt (hoffset i hi), Option.bind_some, Int.toNat_natCast,
      if_pos ⟨Int.natCast_nonneg _, hlast⟩]
    exact congrArg some hfield

/-- What the loop over the fields makes of fields that keep what they print. -/
theorem desLines_spec {fields : List Field} {lines : List Bytes}
    (hlength : lines.length = fields.length)
    (hkeeps : ∀ entry ∈ fields.zip lines, Keeps T entry.1 entry.2) (tmp : Bytes) :
    ∃ last, desLines T tmp fields lines =
      some (last, (fields.zip lines).map fun entry => code T entry.1 entry.2) := by
  induction fields generalizing lines tmp with
  | nil =>
      obtain rfl : lines = [] := List.length_eq_zero_iff.mp hlength
      exact ⟨tmp, rfl⟩
  | cons field fields ih =>
      cases lines with
      | nil => cases hlength
      | cons line lines =>
          obtain ⟨hformat, hnul, -⟩ := hkeeps (field, line) List.mem_cons_self
          obtain ⟨last, hrest⟩ := ih (Nat.succ.inj hlength)
            (fun entry hentry => hkeeps entry (List.mem_cons_of_mem _ hentry)) (code T field line)
          refine ⟨last, ?_⟩
          unfold desLines
          rw [hformat, Option.bind_some, hrest, Option.map_some, cstr_eq_self hnul]
          rfl

/-- A record that can be stored is shown as its formats print it. -/
theorem stored_shown {lines : List Bytes} (hne : lines ≠ []) (h : Storable T lines) (tmp : Bytes)
    {buffer : Store Unit} (hbuffer : buffer.count = 0 ∨ 0 ≤ buffer.position) :
    ∃ last cdr, desLines T tmp T.fields lines = some (last, codes T lines) ∧
      ParameterCdr.insert T.bufferUnit buffer (codes T lines) =
        some (cdr, (take T.bufferUnit (size T lines) buffer).2) ∧
      shown T cdr = texts T lines := by
  obtain ⟨hlength, hcount, hkeeps, hroom, hunit, hoffset⟩ := h
  have hcodes : (codes T lines).length = lines.length := by
    rw [codes, List.length_map, List.length_zip]
    omega
  have hnul : ∀ s ∈ codes T lines, 0 ∉ s := by
    intro s hs
    obtain ⟨entry, hentry, rfl⟩ := List.mem_map.mp hs
    exact (hkeeps entry hentry).2.1
  have hsome : codes T lines ≠ [] := fun hnil =>
    hne (List.length_eq_zero_iff.mp (hcodes ▸ congrArg List.length hnil))
  obtain ⟨last, hlines⟩ := desLines_spec hlength hkeeps tmp
  rw [← hcodes] at hcount hroom hunit hoffset
  obtain ⟨cdr, hinsert, hat⟩ := insert_spec hsome hnul hcount hroom hunit hoffset hbuffer
  rw [hcodes] at hinsert
  refine ⟨last, cdr, hlines, hinsert, ?_⟩
  apply List.ext_getElem
  · rw [shown, texts, List.length_map, List.length_map, List.length_range, List.length_zip]
    omega
  · intro i hi _
    rw [shown, List.length_map, List.length_range] at hi
    have hzip : i < (T.fields.zip lines).length := by
      rw [List.length_zip]
      omega
    have hentry := hkeeps _ (List.getElem_mem hzip)
    have hbound : i < (codes T lines).length := by omega
    have hcode : (codes T lines)[i] = code T T.fields[i] lines[i] := by
      simp only [codes, List.getElem_map, List.getElem_zip]
    rw [List.getElem_zip] at hentry
    simp only [shown, texts, List.getElem_map, List.getElem_range, List.getElem_zip]
    rw [key, hat i (by omega), hcode, Option.bind_some, List.getElem?_eq_getElem hi,
      Option.map_some, hentry.2.2]

/-- Records that can be stored are loaded when the position stays good. -/
theorem load_spec {records : List (List Bytes)} (hne : ∀ lines ∈ records, lines ≠ [])
    (h : ∀ lines ∈ records, Storable T lines) (tmp : Bytes) {buffer : Store Unit}
    (hbuffer : Positioned T.bufferUnit buffer (records.map (size T))) :
    ∃ pool, load T buffer tmp records = some pool ∧
      pool.map (shown T) = records.map (texts T) := by
  induction records generalizing tmp buffer with
  | nil => exact ⟨[], rfl, rfl⟩
  | cons lines records ih =>
      obtain ⟨hposition, hrest⟩ := hbuffer
      obtain ⟨last, cdr, hlines, hinsert, hshown⟩ := stored_shown (hne lines List.mem_cons_self)
        (h lines List.mem_cons_self) tmp hposition
      obtain ⟨pool, hload, hpool⟩ := ih (fun l hl => hne l (List.mem_cons_of_mem _ hl))
        (fun l hl => h l (List.mem_cons_of_mem _ hl)) last hrest
      refine ⟨cdr :: pool, ?_, ?_⟩
      · rw [load, hlines, Option.bind_some, hinsert, Option.bind_some, hload, Option.map_some]
      · rw [List.map_cons, List.map_cons, hshown, hpool]

/-- What is shown of a record can be sorted by. -/
theorem key_isSome {cdr : ParameterCdr} {lines : List Bytes}
    (hlength : lines.length = T.fields.length) (hshown : shown T cdr = texts T lines) {i : Nat}
    (hi : i < T.fields.length) : (key T i cdr).isSome := by
  have hkey : (shown T cdr)[i]? = some (key T i cdr) := by
    rw [shown, List.getElem?_map, List.getElem?_range hi, Option.map_some]
  have hzip : i < (T.fields.zip lines).length := by
    rw [List.length_zip]
    omega
  rw [hshown, texts, List.getElem?_map, List.getElem?_eq_getElem hzip, Option.map_some] at hkey
  rw [← Option.some.inj hkey]
  rfl

/-! ## Sorting -/

instance transCmp_compareKeys (keys : List (Nat × Bool)) : Std.TransCmp (compareKeys T keys) := by
  induction keys with
  | nil =>
      exact {
        eq_swap := rfl
        isLE_trans := fun _ _ => rfl }
  | cons k rest ih =>
      obtain ⟨position, ascending⟩ := k
      unfold compareKeys
      cases ascending with
      | true =>
          have hfield : Std.TransCmp (compareOn fun cdr => (key T position cdr).getD []) :=
            inferInstance
          exact inferInstanceAs (Std.TransCmp (compareLex
            (compareOn fun cdr => (key T position cdr).getD []) (compareKeys T rest)))
      | false =>
          have hfield : Std.TransCmp fun a b =>
              compareOn (fun cdr => (key T position cdr).getD []) b a := Std.TransCmp.opposite
          exact inferInstanceAs (Std.TransCmp (compareLex
            (fun a b => compareOn (fun cdr => (key T position cdr).getD []) b a)
            (compareKeys T rest)))

/-- Sorting keeps the rows and puts them in order. -/
theorem sort_spec (keys : List (Nat × Bool)) (pool : List ParameterCdr) :
    (sort T keys pool).Perm pool ∧
      (sort T keys pool).Pairwise fun a b => (compareKeys T keys a b).isLE := by
  exact ⟨List.perm_insertionSort _ _,
    SortedMap.pairwise_insertionSort_of_cmp (fun _ _ => Iff.rfl) pool⟩

/-! ## Answers -/

theorem mem_of_mem_seach {q : Query} {list : List ParameterCdr} {cdr : ParameterCdr}
    (h : cdr ∈ seach q list) : cdr ∈ list := by
  unfold seach at h
  split at h
  · exact (List.mem_filter.mp h).1
  · exact List.mem_of_mem_drop (List.mem_of_mem_take (List.mem_filter.mp h).1)
  · exact List.mem_of_mem_drop (List.takeWhile_subset _ h)

/-- Queries answer from the rows of the indexes. -/
theorem Holds.answers {s : State} {records : List (List Bytes)} (h : Holds T s records) :
    Answers T s records := by
  intro q cdr hcdr
  unfold find at hcdr
  split at hcdr
  · cases hcdr
  · next entry hentry =>
      have hmem := List.mem_of_find?_eq_some hentry
      have hperm := ((List.forall₂_iff_zip.mp h).2 hmem).1
      have hshown : shown T cdr ∈ entry.2.map (shown T) :=
        List.mem_map_of_mem (mem_of_mem_seach hcdr)
      obtain ⟨lines, hlines, htexts⟩ := List.mem_map.mp (hperm.mem_iff.mp hshown)
      exact ⟨lines, hlines, htexts.symm⟩

/-! ## Refreshes -/

/-- Rows that show the records make indexes that hold them. -/
theorem getDataIndex_spec {s : State} {records : List (List Bytes)}
    (hstorable : ∀ lines ∈ records, Storable T lines)
    (hpool : s.cdrPoolTmp.map (shown T) = records.map (texts T)) :
    ∃ t, getDataIndex T s = some t ∧
      List.Forall₂
        (fun keys list => (list.map (shown T)).Perm (records.map (texts T)) ∧
          list.Pairwise fun a b => (compareKeys T keys a b).isLE)
        T.indexes t.indexTmp := by
  have hreadable : ∀ cdr ∈ s.cdrPoolTmp, ∀ keys ∈ T.indexes, ∀ k ∈ keys,
      (key T k.1 cdr).isSome := by
    intro cdr hcdr keys hkeys k hk
    have hshown : shown T cdr ∈ records.map (texts T) :=
      hpool ▸ List.mem_map_of_mem hcdr
    obtain ⟨lines, hlines, htexts⟩ := List.mem_map.mp hshown
    exact key_isSome (hstorable lines hlines).1 htexts.symm (T.indexes_lt keys hkeys k hk)
  unfold getDataIndex
  rw [if_pos hreadable]
  refine ⟨_, rfl, ?_⟩
  rw [List.forall₂_map_right_iff]
  apply List.forall₂_same.mpr
  intro keys _
  obtain ⟨hperm, hsorted⟩ := sort_spec keys s.cdrPoolTmp
  exact ⟨hpool ▸ hperm.map (shown T), hsorted⟩

/-- Raising and lowering the state of the system leaves the indexes. -/
theorem index_systemState (s : State) (c : Prop) [Decidable c] (systemState : SystemState) :
    (if c then { s with systemState := systemState } else s).index = s.index ∧
      (if c then { s with systemState := systemState } else s).indexTmp = s.indexTmp := by
  by_cases hc : c
  · rw [if_pos hc]
    exact ⟨rfl, rfl⟩
  · rw [if_neg hc]
    exact ⟨rfl, rfl⟩

/-- What a delivery does to the live indexes. -/
theorem getData_spec {d : Delivery} (s : State)
    (hstorable : ∀ lines ∈ d.records, Storable T lines)
    (hbuffer : Positioned T.bufferUnit newBuffer (d.records.map (size T))) :
    ∃ t, (getData T s d).map Prod.fst = some t ∧
      (d.Delivers ∧ d.reset ≠ 0 → Holds T t d.records) ∧
      (¬ (d.Delivers ∧ d.reset ≠ 0) → t.index = s.index) := by
  unfold getData
  dsimp only
  by_cases hreset : d.reset < 0
  · rw [if_pos hreset]
    refine ⟨_, rfl, ?_, fun _ => rfl⟩
    rintro ⟨⟨hle, -⟩, -⟩
    omega
  · rw [if_neg hreset]
    by_cases hzero : d.reset = 0
    · rw [if_pos hzero]
      exact ⟨_, rfl, fun h => absurd hzero h.2, fun _ => rfl⟩
    · obtain ⟨pool, hload, hpool⟩ := load_spec d.records_ne hstorable d.tmp hbuffer
      rw [if_neg hzero, hload, Option.bind_some]
      cases hfails : d.fails with
      | true =>
          rw [if_pos rfl]
          refine ⟨_, rfl, ?_, fun _ => rfl⟩
          rintro ⟨⟨-, hok⟩, -⟩
          rw [hfails] at hok
          cases hok
      | false =>
          obtain ⟨t, hindex, hholds⟩ := getDataIndex_spec
            (s := { s with cdrPoolTmp := pool, count := d.reset }) hstorable hpool
          rw [if_neg Bool.false_ne_true, hindex, Option.map_some]
          refine ⟨_, rfl, fun _ => ?_, ?_⟩
          · unfold Holds
            dsimp only
            rw [(index_systemState _ _ _).1, toSwitch, (index_systemState t _ _).2]
            exact hholds
          · intro hnot
            exact absurd ⟨⟨by omega, hfails⟩, hzero⟩ hnot

/-- **A refresh of storable records is complete or without effect exactly when a report of no rows
is true.** -/
theorem sound_iff_counted (s : State) (a : Step) (hstorable : StorableStep T s a) :
    Sound T s a ↔ Counted T s a := by
  cases a with
  | mark => exact iff_of_true trivial trivial
  | upData d =>
      by_cases hneed : s.needUpdata
      · obtain ⟨t, hdata, hswitched, hkept⟩ :=
          getData_spec { s with needUpdata := false } hstorable.1 hstorable.2
        have hup : upData T s d = some t := by
          rw [upData, if_pos hneed]
          exact hdata
        constructor
        · intro hsound _ hdelivers hzero
          obtain ⟨t', ht', hcomplete, -⟩ := hsound hneed
          obtain rfl : t = t' := Option.some.inj (hup.symm.trans ht')
          have hindex : t.index = s.index := hkept fun h => h.2 hzero
          have hholds := (hcomplete hdelivers).1
          unfold Holds at hholds ⊢
          rwa [hindex] at hholds
        · intro hcounted _
          refine ⟨t, hup, ?_, ?_⟩
          · intro hdelivers
            have hholds : Holds T t d.records := by
              by_cases hzero : d.reset = 0
              · have hindex : t.index = s.index := hkept fun h => h.2 hzero
                have hheld := hcounted hneed hdelivers hzero
                unfold Holds at hheld ⊢
                rwa [hindex]
              · exact hswitched ⟨hdelivers, hzero⟩
            exact ⟨hholds, hholds.answers⟩
          · intro hfailed
            exact hkept fun h => hfailed h.1
      · exact iff_of_true (fun h => absurd h hneed) (fun h => absurd h hneed)

variable (T)

/-- A table of one field and one index. -/
def letters : Table where
  codec := ⟨fun _ src => src, id⟩
  fields := [⟨id, false⟩]
  bufferUnit := 1024
  indexes := [[(0, true)]]
  indexes_lt := by decide

/-- Two letters. -/
def twoLetters : Delivery := ⟨2, [[[66]], [[65]]], false, [], by decide⟩

end Parameter
