import Boss.Chunks
import Boss.ParameterRefresh

/-!
# Records in their buffer

The records of a parameter table are kept in two rows of chunks: one for their bytes, in chunks of
`m_bufferUnit`, and one of 1024 for the offsets of their fields, a `char` each.  `at` adds such an
offset to the place of the record.

An offset of 128 or more is kept as another number, and `m_position`, which is a `short`, gets
negative when more than 32767 bytes of a chunk have been handed out.  As long as neither happens
every field of every record is read as it was inserted (`reads_back`).
-/

namespace ParameterBuffer

open Chunks Parameter Runs

/-- The chunks of the bytes, and those of the offsets. -/
structure Buffer where
  m_bufferUnit : Int
  buffers : Store UInt8
  indexBuffers : Store Int

def getBuffer (b : Buffer) (size : Nat) : Place × Buffer :=
  let r := take b.m_bufferUnit size b.buffers
  (r.1, { b with buffers := r.2 })

def getIndexBuffer (b : Buffer) (size : Nat) : Place × Buffer :=
  let r := take 1024 size b.indexBuffers
  (r.1, { b with indexBuffers := r.2 })

/-- A record: where its offsets and its bytes are, if it has fields. -/
structure Cdr where
  m_index : Option Place
  m_fields : Option Place
  m_count : Int

/-- `ParameterCdr::insert`; the fields are put together in `tmp`. -/
def insert (b : Buffer) (field : List Bytes) : Cdr × Buffer :=
  let m_count := char field.length
  if m_count ≤ 0 then (⟨none, none, m_count⟩, b)
  else
    let tmp := place 0 (field.take m_count.toNat)
    let (m_index, b) := getIndexBuffer b m_count.toNat
    let b := { b with indexBuffers := write b.indexBuffers m_index tmp.1 }
    let (m_fields, b) := getBuffer b tmp.2.length
    (⟨some m_index, some m_fields, m_count⟩,
      { b with buffers := write b.buffers m_fields tmp.2 })

/-- The string that `at` points to; no record has more than 1024 bytes. -/
def Cdr.at (b : Buffer) (cdr : Cdr) (i : Nat) : Option Bytes :=
  cdr.m_index.bind fun m_index => cdr.m_fields.map fun m_fields =>
    let m := b.indexBuffers.cell m_index.block (m_index.offset + i)
    cstr (row b.buffers ⟨m_fields.block, m_fields.offset + m⟩ 1024)

/-- A record with what was inserted into it. -/
structure Inserted where
  cdr : Cdr
  fields : List Bytes

structure State where
  buffer : Buffer
  inserted : List Inserted

/-- A buffer without chunks.  The positions are not set, and the memory that it is going to get
holds anything. -/
def created (m_bufferUnit m_position m_indexPosition : Int) (memory : Nat → Int → UInt8)
    (indexMemory : Nat → Int → Int) : State where
  buffer := ⟨m_bufferUnit, ⟨0, short m_position, memory⟩, ⟨0, short m_indexPosition, indexMemory⟩⟩
  inserted := []

/-- A record is inserted. -/
def step (s : State) (field : List Bytes) : Option State :=
  let r := insert s.buffer field
  some ⟨r.2, s.inserted ++ [⟨r.1, field⟩]⟩

/-- The bytes of a record, and its offsets. -/
def Inserted.fieldsRange (r : Inserted) : Option Range :=
  r.cdr.m_fields.map fun p => ⟨p, offset r.fields r.fields.length⟩

def Inserted.indexRange (r : Inserted) : Option Range :=
  r.cdr.m_index.map fun p => ⟨p, r.fields.length⟩

/-- Every record reads as it was inserted, and what was handed out lies in the chunks and apart. -/
structure State.ReadsBack (s : State) : Prop where
  fields : ∀ r ∈ s.inserted, ∀ i (hi : i < r.fields.length), r.cdr.at s.buffer i = some r.fields[i]
  inside : ∀ r ∈ s.inserted.filterMap Inserted.fieldsRange,
    r.Inside s.buffer.m_bufferUnit s.buffer.buffers.count
  apart : (s.inserted.filterMap Inserted.fieldsRange).Pairwise Range.Apart
  indexInside : ∀ r ∈ s.inserted.filterMap Inserted.indexRange,
    r.Inside 1024 s.buffer.indexBuffers.count
  indexApart : (s.inserted.filterMap Inserted.indexRange).Pairwise Range.Apart

/-- A record that a buffer is made for. -/
structure Fitting (m_bufferUnit : Int) (field : List Bytes) : Prop where
  count : field.length ≤ 127
  nul : ∀ f ∈ field, 0 ∉ f
  size : offset field field.length ≤ 1024
  unit : (offset field field.length : Int) ≤ m_bufferUnit

/-- The offsets are kept in a `char` each, and the position is not negative. -/
def Packs (s : State) (field : List Bytes) : Prop :=
  (∀ n < field.length, offset field n < 128) ∧
    (s.buffer.buffers.count = 0 ∨ 0 ≤ s.buffer.buffers.position)

instance (s : State) (field : List Bytes) : Decidable (Packs s field) :=
  inferInstanceAs (Decidable (_ ∧ (_ ∨ _)))

/-- What is stored of a record. -/
structure Stored (b : Buffer) (r : Inserted) (m_index m_fields : Place) : Prop where
  index : r.cdr.m_index = some m_index
  fields : r.cdr.m_fields = some m_fields
  offsets : row b.indexBuffers m_index r.fields.length = (place 0 r.fields).1
  bytes : row b.buffers m_fields (offset r.fields r.fields.length) = (place 0 r.fields).2

/-- What every insertion keeps. -/
structure Inv (m_bufferUnit : Int) (s : State) : Prop where
  unit : s.buffer.m_bufferUnit = m_bufferUnit
  sound : Sound m_bufferUnit s.buffer.buffers (s.inserted.filterMap Inserted.fieldsRange)
  indexSound : Sound 1024 s.buffer.indexBuffers (s.inserted.filterMap Inserted.indexRange)
  position : s.buffer.indexBuffers.count = 0 ∨ 0 ≤ s.buffer.indexBuffers.position
  packed : ∀ r ∈ s.inserted, Fitting m_bufferUnit r.fields ∧
    ∀ n < r.fields.length, offset r.fields n < 128
  stored : ∀ r ∈ s.inserted, r.fields ≠ [] → ∃ m_index m_fields, Stored s.buffer r m_index m_fields

variable {m_bufferUnit : Int} {s t : State} {b : Buffer} {r : Inserted} {field : List Bytes}
  {m_index m_fields : Place}

/-! ## Reading -/

/-- A string that ends within a row. -/
theorem cstr_of_take {bytes text : Bytes} (htext : 0 ∉ text)
    (h : bytes.take (text.length + 1) = text ++ [0]) : cstr bytes = text := by
  have hsplit : bytes = text ++ 0 :: bytes.drop (text.length + 1) := by
    have hboth := List.take_append_drop (text.length + 1) bytes
    rw [h, List.append_assoc] at hboth
    exact hboth.symm
  rw [hsplit]
  exact cstr_append htext _

/-- The bytes of a record from a field on. -/
theorem place_take {fields : List Bytes} {i : Nat} (hi : i < fields.length) (j : Nat) :
    ((place j fields).2.drop (offset fields i)).take (fields[i].length + 1) = fields[i] ++ [0] := by
  induction fields generalizing i j with
  | nil => exact absurd hi (Nat.not_lt_zero i)
  | cons field rest ih =>
      cases i with
      | zero =>
          have hzero : offset (field :: rest) 0 = 0 := rfl
          rw [place, hzero]
          simp [List.take_append]
      | succ i =>
          rw [place, offset_succ]
          have hskip : (field ++ 0 :: (place (j + field.length + 1) rest).2).drop
              (field.length + 1 + offset rest i) =
              (place (j + field.length + 1) rest).2.drop (offset rest i) := by
            rw [← List.drop_drop, List.append_cons, List.drop_left' (by simp)]
          rw [hskip]
          exact ih (Nat.lt_of_succ_lt_succ hi) _

theorem offset_add_le {fields : List Bytes} {i : Nat} (hi : i < fields.length) :
    offset fields i + (fields[i].length + 1) ≤ offset fields fields.length := by
  induction fields generalizing i with
  | nil => exact absurd hi (Nat.not_lt_zero i)
  | cons field rest ih =>
      rw [List.length_cons, offset_succ]
      cases i with
      | zero =>
          have hzero : offset (field :: rest) 0 = 0 := rfl
          rw [hzero]
          simp
      | succ i =>
          have hrest := ih (Nat.lt_of_succ_lt_succ hi)
          rw [offset_succ, List.getElem_cons_succ]
          omega

/-- **A field is read as it was inserted** when its offset is kept. -/
theorem Stored.at_eq (h : Stored b r m_index m_fields) (hnul : ∀ f ∈ r.fields, 0 ∉ f)
    (hsize : offset r.fields r.fields.length ≤ 1024) {i : Nat} (hi : i < r.fields.length)
    (hoffset : offset r.fields i < 128) : r.cdr.at b i = some r.fields[i] := by
  have hcell : b.indexBuffers.cell m_index.block (m_index.offset + i) = offset r.fields i := by
    have hspec := (place_spec hnul hi (j := 0) [] rfl).1
    rw [Nat.zero_add, char_of_lt hoffset, ← h.offsets] at hspec
    simpa [row, hi] using hspec
  have hle := offset_add_le hi
  have hbytes : (row b.buffers ⟨m_fields.block, m_fields.offset + offset r.fields i⟩ 1024).take
      (r.fields[i].length + 1) = r.fields[i] ++ [0] := by
    rw [row_first _ _ (by omega), ← row_part _ _ hle, h.bytes]
    exact place_take hi 0
  unfold Cdr.at
  rw [h.index, h.fields, Option.bind_some, Option.map_some]
  dsimp only
  rw [hcell, cstr_of_take (hnul _ (List.getElem_mem hi)) hbytes]

/-! ## Inserting -/

theorem length_place_offsets (j : Nat) (fields : List Bytes) :
    (place j fields).1.length = fields.length := by
  induction fields generalizing j with
  | nil => rfl
  | cons field rest ih =>
      rw [place, List.length_cons, List.length_cons]
      exact congrArg (· + 1) (ih _)

/-- What `insert` takes and writes. -/
theorem insert_eq (b : Buffer) (hne : field ≠ []) (hcount : field.length ≤ 127) :
    insert b field =
      (⟨some (take 1024 field.length b.indexBuffers).1,
          some (take b.m_bufferUnit (offset field field.length) b.buffers).1, field.length⟩,
        { b with
          indexBuffers := write (take 1024 field.length b.indexBuffers).2
            (take 1024 field.length b.indexBuffers).1 (place 0 field).1
          buffers := write (take b.m_bufferUnit (offset field field.length) b.buffers).2
            (take b.m_bufferUnit (offset field field.length) b.buffers).1 (place 0 field).2 }) := by
  have hpos : 0 < field.length := List.length_pos_iff.mpr hne
  have hchar : char field.length = field.length := char_of_lt (by omega)
  unfold insert
  dsimp only
  rw [hchar, if_neg (by omega), Int.toNat_natCast, List.take_length]
  simp only [getIndexBuffer, getBuffer, length_place]

/-- A record stays stored when others are written elsewhere. -/
theorem Stored.elsewhere {b' : Buffer} {pi pf : Place} {offsets : List Int} {bytes : Bytes}
    {store : Store UInt8} {indexStore : Store Int} (h : Stored b r m_index m_fields)
    (hstore : store.cell = b.buffers.cell) (hindexStore : indexStore.cell = b.indexBuffers.cell)
    (hb : b'.buffers = write store pf bytes) (hb' : b'.indexBuffers = write indexStore pi offsets)
    (hapart : Range.Apart ⟨m_fields, offset r.fields r.fields.length⟩ ⟨pf, bytes.length⟩)
    (hindexApart : Range.Apart ⟨m_index, r.fields.length⟩ ⟨pi, offsets.length⟩) :
    Stored b' r m_index m_fields where
  index := h.index
  fields := h.fields
  offsets := by
    rw [hb', row_write_apart hindexApart, ← h.offsets]
    simp only [row, hindexStore]
  bytes := by
    rw [hb, row_write_apart hapart, ← h.bytes]
    simp only [row, hstore]

theorem filterMap_concat_none {α β : Type*} {f : α → Option β} {l : List α} {a : α}
    (h : f a = none) : (l ++ [a]).filterMap f = l.filterMap f := by
  simp [List.filterMap_append, h]

theorem filterMap_concat_some {α β : Type*} {f : α → Option β} {l : List α} {a : α} {b : β}
    (h : f a = some b) : (l ++ [a]).filterMap f = l.filterMap f ++ [b] := by
  simp [List.filterMap_append, h]

/-- **An insertion that packs keeps everything.** -/
theorem Inv.step (h : Inv m_bufferUnit s) (hfit : Fitting m_bufferUnit field)
    (hpacks : Packs s field) (hstep : step s field = some t) : Inv m_bufferUnit t := by
  obtain rfl := (Option.some.inj hstep).symm
  have hpacked : ∀ r ∈ s.inserted ++ [⟨(insert s.buffer field).1, field⟩],
      Fitting m_bufferUnit r.fields ∧ ∀ n < r.fields.length, offset r.fields n < 128 := by
    intro r hr
    rcases List.mem_append.mp hr with hr | hr
    · exact h.packed r hr
    · obtain rfl := List.mem_singleton.mp hr
      exact ⟨hfit, hpacks.1⟩
  by_cases hne : field = []
  · subst hne
    refine ⟨h.unit, ?_, ?_, h.position, hpacked, fun r hr hr' => ?_⟩
    · rw [filterMap_concat_none rfl]
      exact h.sound
    · rw [filterMap_concat_none rfl]
      exact h.indexSound
    · rcases List.mem_append.mp hr with hr | hr
      · exact h.stored r hr hr'
      · obtain rfl := List.mem_singleton.mp hr
        exact absurd rfl hr'
  · have hinsert := insert_eq s.buffer hne hfit.count
    rw [h.unit] at hinsert
    have hsize := hfit.size
    have hcount := hfit.count
    -- the ranges that are taken
    have hsound := take_sound h.sound hfit.unit (by omega) hpacks.2
    have hunit : (field.length : Int) ≤ 1024 := by omega
    have hindexSound := take_sound h.indexSound hunit (by omega) h.position
    have hposition := take_position hunit (by omega) h.position
    generalize hpf : take m_bufferUnit (offset field field.length) s.buffer.buffers = pf at *
    generalize hpi : take 1024 field.length s.buffer.indexBuffers = pi at *
    have hcell : pf.2.cell = s.buffer.buffers.cell := by rw [← hpf, take_cell]
    have hindexCell : pi.2.cell = s.buffer.indexBuffers.cell := by rw [← hpi, take_cell]
    simp only [hinsert] at hpacked ⊢
    have hrange : Inserted.fieldsRange ⟨⟨some pi.1, some pf.1, field.length⟩, field⟩ =
        some ⟨pf.1, offset field field.length⟩ := rfl
    have hindexRange : Inserted.indexRange ⟨⟨some pi.1, some pf.1, field.length⟩, field⟩ =
        some ⟨pi.1, field.length⟩ := rfl
    refine ⟨rfl, ?_, ?_, .inr hposition, hpacked, fun r hr hr' => ?_⟩
    · dsimp only
      rw [filterMap_concat_some hrange]
      exact hsound.write _ _
    · dsimp only
      rw [filterMap_concat_some hindexRange]
      exact hindexSound.write _ _
    · rcases List.mem_append.mp hr with hr | hr
      · obtain ⟨m_index, m_fields, hstored⟩ := h.stored r hr hr'
        have hmem : ⟨m_fields, offset r.fields r.fields.length⟩ ∈
            s.inserted.filterMap Inserted.fieldsRange :=
          List.mem_filterMap.mpr ⟨r, hr, by simp [Inserted.fieldsRange, hstored.fields]⟩
        have hindexMem : ⟨m_index, r.fields.length⟩ ∈ s.inserted.filterMap Inserted.indexRange :=
          List.mem_filterMap.mpr ⟨r, hr, by simp [Inserted.indexRange, hstored.index]⟩
        refine ⟨m_index, m_fields, hstored.elsewhere hcell hindexCell rfl rfl ?_ ?_⟩
        · rw [length_place]
          exact (List.pairwise_append.mp hsound.apart).2.2 _ hmem _ List.mem_cons_self
        · rw [length_place_offsets]
          exact (List.pairwise_append.mp hindexSound.apart).2.2 _ hindexMem _ List.mem_cons_self
      · obtain rfl := List.mem_singleton.mp hr
        refine ⟨pi.1, pf.1, rfl, rfl, ?_, ?_⟩
        · dsimp only
          rw [← length_place_offsets 0 field]
          exact row_write_self
        · dsimp only
          rw [← length_place 0 field]
          exact row_write_self

theorem created_inv (m_bufferUnit m_position m_indexPosition : Int) (memory : Nat → Int → UInt8)
    (indexMemory : Nat → Int → Int) :
    Inv m_bufferUnit (created m_bufferUnit m_position m_indexPosition memory indexMemory) :=
  ⟨rfl, sound_nil (short_le _), sound_nil (short_le _), .inl rfl, by simp [created],
    by simp [created]⟩

theorem Inv.readsBack (h : Inv m_bufferUnit s) : s.ReadsBack where
  fields r hr i hi := by
    obtain ⟨m_index, m_fields, hstored⟩ := h.stored r hr (List.ne_nil_of_length_pos (by omega))
    obtain ⟨hfit, hoffset⟩ := h.packed r hr
    exact hstored.at_eq hfit.nul hfit.size hi (hoffset i hi)
  inside := by
    rw [h.unit]
    exact h.sound.inside
  apart := h.sound.apart
  indexInside := h.indexSound.inside
  indexApart := h.indexSound.apart

/-- **Records read back** after every run of insertions that pack. -/
theorem reads_back (m_bufferUnit m_position m_indexPosition : Int) (memory : Nat → Int → UInt8)
    (indexMemory : Nat → Int → Int) {records : List (List Bytes)}
    (hfit : ∀ field ∈ records, Fitting m_bufferUnit field)
    (hpacks : Meets step Packs
      (created m_bufferUnit m_position m_indexPosition memory indexMemory) records) :
    ∃ t, run step (created m_bufferUnit m_position m_indexPosition memory indexMemory) records =
      some t ∧ t.ReadsBack := by
  have hstep (s : State) (field : List Bytes) (h : Inv m_bufferUnit s)
      (hboth : Packs s field ∧ Fitting m_bufferUnit field) :
      ∃ t, step s field = some t ∧ Inv m_bufferUnit t :=
    ⟨_, rfl, h.step hboth.2 hboth.1 rfl⟩
  obtain ⟨t, hrun, ht⟩ := run_progress_of_meets hstep
    (created_inv m_bufferUnit m_position m_indexPosition memory indexMemory)
    (hpacks.and (meets_of_forall hfit _))
  exact ⟨t, hrun, ht.readsBack⟩

/-- From a negative position on records are written in front of their chunk. -/
theorem position_lost (hunit : s.buffer.m_bufferUnit = m_bufferUnit)
    (hfit : Fitting m_bufferUnit field) (hne : field ≠ []) (hcount : s.buffer.buffers.count ≠ 0)
    (hposition : s.buffer.buffers.position < 0) (hstep : step s field = some t) :
    ¬ t.ReadsBack := by
  obtain rfl := (Option.some.inj hstep).symm
  intro h
  have hroom := hfit.unit
  have htake : take m_bufferUnit (offset field field.length) s.buffer.buffers =
      (⟨s.buffer.buffers.count - 1, s.buffer.buffers.position⟩, { s.buffer.buffers with
        position := short (s.buffer.buffers.position + offset field field.length) }) := by
    unfold take
    rw [if_neg (by omega)]
  have hinsert := insert_eq s.buffer hne hfit.count
  have hinside := h.inside
  simp only [hinsert, hunit, htake] at hinside
  have hmem : ⟨⟨s.buffer.buffers.count - 1, s.buffer.buffers.position⟩,
      offset field field.length⟩ ∈ (s.inserted ++ [(⟨⟨some (take 1024 field.length
        s.buffer.indexBuffers).1, some ⟨s.buffer.buffers.count - 1, s.buffer.buffers.position⟩,
        field.length⟩, field⟩ : Inserted)]).filterMap Inserted.fieldsRange :=
    List.mem_filterMap.mpr ⟨_, List.mem_append_right _ List.mem_cons_self, rfl⟩
  have hlow := (hinside _ hmem).2.1
  dsimp only at hlow
  omega

/-- Memory full of spaces. -/
def spaces : Nat → Int → UInt8 := fun _ _ => 32

/-- So many letters. -/
def letters (n : Nat) (letter : UInt8) : Bytes := List.replicate n letter

theorem reads_back_two :
    ∃ t, run step (created 300 0 0 spaces fun _ _ => 0)
      [[letters 5 65, letters 2 66], [letters 126 67, letters 100 68]] = some t ∧ t.ReadsBack := by
  refine reads_back 300 0 0 spaces (fun _ _ => 0) (fun field hfield => ?_) (by decide +kernel)
  rcases List.mem_cons.mp hfield with rfl | hfield
  · exact ⟨by decide, by decide, by decide, by decide⟩
  · obtain rfl := List.mem_singleton.mp hfield
    exact ⟨by decide, by decide +kernel, by decide +kernel, by decide +kernel⟩

/-- A field behind 128 bytes of its record is read in the record before it. -/
theorem second_field_lost :
    Fitting 300 [letters 127 65] ∧ Fitting 300 [letters 127 66, letters 1 67] ∧
      ∃ t, run step (created 300 0 0 spaces fun _ _ => 0)
          [[letters 127 65], [letters 127 66, letters 1 67]] = some t ∧
        (t.inserted.getLast?.bind fun r => r.cdr.at t.buffer 1) = some (letters 127 65) ∧
        ¬ t.ReadsBack := by
  refine ⟨⟨by decide, by decide, by decide +kernel, by decide +kernel⟩,
    ⟨by decide, by decide, by decide +kernel, by decide +kernel⟩, _, rfl, by decide +kernel, ?_⟩
  intro h
  have hread := h.fields _ (List.mem_cons_of_mem _ List.mem_cons_self) 1 (by decide)
  revert hread
  decide +kernel

end ParameterBuffer
