import Boss.IndexHashRefine
import Boss.Runs

/-!
# Runs of the hash index

The callers of an index insert the address of a record under the record's own
key, never an address that is already indexed, and do not touch the key bytes of
an indexed record.  Between calls the memory that is not allocated to buckets
may change in any way.  In every state that such calls reach the buckets are
linked as rows that index exactly the live addresses, which is the refinement of
`IndexHashRefine` joined with the invariant of `IndexRows`.

Main results: `Organised.returns`, the calls end; `hash_index_correct`, what they answer.
-/

namespace IndexHash

open IndexRows

/-- The index, the key bytes of the records, and which addresses are live:
inserted and not deleted since. -/
structure Sys where
  index : State
  keyOf : ShmPosition → Key
  live : ShmPosition → Bool

/-- An index that has just been created, over any records. -/
def Sys.init (keyOf : ShmPosition → Key) : Sys := ⟨create, keyOf, fun _ => false⟩

/-- The key of the record that a bucket points to. -/
def Sys.keyAt (s : Sys) (p : ShmPosition) : Key := s.keyOf (s.index.data p)

/-- `allocateIdxMem` gives a position that is not allocated, or throws. -/
def validAnswer (h : State) : Option ShmPosition → Prop
  | none => True
  | some p => p ≠ nullShmPos ∧ h.used p = false

instance (h : State) (mem : Option ShmPosition) : Decidable (validAnswer h mem) :=
  match mem with
  | none => .isTrue trivial
  | some _ => inferInstanceAs (Decidable (_ ∧ _))

theorem validAnswer_some {h : State} {mem : Option ShmPosition} (hmem : validAnswer h mem) :
    ∀ p, mem = some p → p ≠ nullShmPos ∧ h.used p = false := by
  rintro p rfl
  exact hmem

inductive Call
  | insert (n : Nat) (mem : Option ShmPosition) (a : ShmPosition)
  | deleteIdx (n : Nat) (key : Key) (a : ShmPosition)
  /-- A record that is not indexed is written. -/
  | writeRecord (a : ShmPosition) (key : Key)
  /-- Memory that holds no bucket is written, by the allocator or anyone else. -/
  | writeUnused (p : ShmPosition) (b : Bucket)
  deriving DecidableEq, Repr

/-- One call; `n` bounds the rounds of its loops. -/
def step (d : IndexDef) (s : Sys) : Call → Option Sys
  | .insert n mem a =>
      if s.live a = false ∧ validAnswer s.index mem then
        (insert d s.keyOf s.index n mem (s.keyOf a) a).map fun
          | .ok h => { s with index := h, live := Function.update s.live a true }
          | .error _ => s
      else none
  | .deleteIdx n key a =>
      (deleteIdx d s.keyOf s.index n key a).map fun r =>
        { s with
          index := r.2
          live := if s.keyOf a = key then Function.update s.live a false else s.live }
  | .writeRecord a key =>
      if s.live a then none else some { s with keyOf := Function.update s.keyOf a key }
  | .writeUnused p b =>
      if s.index.used p then none else some { s with index := s.index.setBucket p b }

/-- The rows of positions that the buckets form, and what they index. -/
structure Organised (d : IndexDef) (s : Sys) (ps : Rows ShmPosition) : Prop where
  linked : Linked s.index ps
  rows : WellIndexed s.keyOf (slotOf d) (fun a => s.live a = true) (dataRows s.index ps)

variable {d : IndexDef} {s t : Sys} {ps : Rows ShmPosition}

attribute [grind =] Sys.init Sys.keyAt validAnswer step

theorem organised_init (d : IndexDef) (keyOf : ShmPosition → Key) :
    Organised d (Sys.init keyOf) fun _ => [] where
  linked := ⟨fun _ => ⟨rfl, by simp⟩, by simp, by simp, by simp⟩
  rows := ⟨fun _ => ⟨by simp [dataRows], by simp [dataRows], by simp [dataRows],
    by simp [dataRows]⟩, by simp [Sys.init, dataRows]⟩

theorem Organised.step_insert {n : Nat} {mem : Option ShmPosition} {a : ShmPosition}
    (ho : Organised d s ps) (h : step d s (.insert n mem a) = some t) :
    ∃ ps', Organised d t ps' := by
  simp only [step] at h
  split at h
  · rename_i hguard
    obtain ⟨hdead, hmem⟩ := hguard
    obtain ⟨result, hresult, rfl⟩ := Option.map_eq_some_iff.mp h
    obtain ⟨result', hresult', hrefines⟩ :=
      insert_refines d s.keyOf (s.keyOf a) a ho.linked (validAnswer_some hmem)
        (Nat.le_max_right n _)
    obtain rfl : result = result' :=
      Option.some.inj ((insert_mono (Nat.le_max_left n _) hresult).symm.trans hresult')
    cases result with
    | error e => exact ⟨ps, ho⟩
    | ok h' =>
        generalize hrows : IndexRows.insert s.keyOf (slotOf d) d.m_isUnique mem.isSome
          (dataRows s.index ps) (s.keyOf a) a = rows at hrefines
        cases rows with
        | error e => exact absurd hrefines (by simp [InsertRefines])
        | ok rows' =>
            obtain ⟨ps', hlinked, rfl⟩ := hrefines
            refine ⟨ps', hlinked, ?_⟩
            have hnew := ho.rows.insert_ok (by simp [hdead]) hrows
            refine ⟨hnew.slot, fun b => ?_⟩
            rw [← hnew.indexed b]
            by_cases hb : b = a
            · simp [hb]
            · simp [hb]
  · cases h

theorem Organised.step_deleteIdx {n : Nat} {key : Key} {a : ShmPosition} (ho : Organised d s ps)
    (h : step d s (.deleteIdx n key a) = some t) : ∃ ps', Organised d t ps' := by
  simp only [step] at h
  obtain ⟨result, hresult, rfl⟩ := Option.map_eq_some_iff.mp h
  obtain ⟨h', ps', hresult', hlinked, hrows⟩ :=
    deleteIdx_refines d s.keyOf key a ho.linked (Nat.le_max_right n _)
  obtain rfl := Option.some.inj ((deleteIdx_mono (Nat.le_max_left n _) hresult).symm.trans hresult')
  refine ⟨ps', hlinked, ?_⟩
  obtain ⟨hlive, hother⟩ := ho.rows.delete_spec (a := a) (k := key)
  dsimp only
  rw [hrows]
  by_cases hkey : s.keyOf a = key
  · rw [if_pos hkey]
    by_cases ha : s.live a = true
    · have hnew := (hlive ⟨ha, hkey⟩).2
      refine ⟨hnew.slot, fun b => ?_⟩
      rw [← hnew.indexed b]
      by_cases hb : b = a
      · simp [hb]
      · simp [hb]
    · have hsame : Function.update s.live a false = s.live := by
        simpa using ha
      rw [hsame, hother fun hc => ha hc.1]
      exact ho.rows
  · rw [if_neg hkey, hother fun hc => hkey hc.2]
    exact ho.rows

theorem Organised.step_writeRecord {key : Key} {a : ShmPosition} (ho : Organised d s ps)
    (h : step d s (.writeRecord a key) = some t) : Organised d t ps := by
  simp only [step] at h
  split at h
  · cases h
  · rename_i hdead
    obtain rfl := Option.some.inj h
    refine ⟨ho.linked, ho.rows.congr fun b hb => ?_⟩
    have hne : b ≠ a := by
      rintro rfl
      exact hdead hb
    exact Function.update_of_ne hne _ _

theorem Organised.step_writeUnused {p : ShmPosition} {b : Bucket} (ho : Organised d s ps)
    (h : step d s (.writeUnused p b) = some t) : Organised d t ps := by
  simp only [step] at h
  split at h
  · cases h
  · rename_i hfree
    obtain rfl := Option.some.inj h
    have hne : ∀ i, ∀ x ∈ flat (ps i), x ≠ p := by
      rintro i x hx rfl
      exact hfree (ho.linked.used i x hx)
    have hbucket : ∀ i, ∀ x ∈ flat (ps i), (s.index.setBucket p b).bucket x = s.index.bucket x :=
      fun i x hx => Function.update_of_ne (hne i x hx) _ _
    refine ⟨⟨fun i => (ho.linked.slot i).congr (hbucket i), ho.linked.nodup, ho.linked.apart,
      ho.linked.used⟩, ?_⟩
    have hdata : dataRows (s.index.setBucket p b) ps = dataRows s.index ps := by
      funext i
      exact map_congr_flat fun x hx => congrArg Bucket.m_data (hbucket i x hx)
    rw [hdata]
    exact ho.rows

/-- Every call keeps the index organised. -/
theorem organised_step {c : Call} (ho : ∃ ps, Organised d s ps) (h : step d s c = some t) :
    ∃ ps, Organised d t ps := by
  obtain ⟨ps, ho⟩ := ho
  cases c with
  | insert n mem a => exact ho.step_insert h
  | deleteIdx n key a => exact ho.step_deleteIdx h
  | writeRecord a key => exact ⟨ps, ho.step_writeRecord h⟩
  | writeUnused p b => exact ⟨ps, ho.step_writeUnused h⟩

theorem organised_of_run {keyOf : ShmPosition → Key} {calls : List Call}
    (hrun : Runs.run (step d) (Sys.init keyOf) calls = some s) : ∃ ps, Organised d s ps :=
  Runs.run_invariant (fun _ _ _ ho h => organised_step ho h) ⟨_, organised_init d keyOf⟩ hrun

/-- What the buckets of an index look like, in terms of bucket positions: each
slot is a vertical list of rows with one head per key, the buckets of a row carry
one key, the key belongs to the slot, and every live address has one bucket. -/
structure TwoDimensional (d : IndexDef) (s : Sys) (ps : Rows ShmPosition) : Prop where
  linked : Linked s.index ps
  one_head : ∀ i, (ps i).Pairwise fun r r' => s.keyAt r.head ≠ s.keyAt r'.head
  same_key : ∀ i, ∀ r ∈ ps i, ∀ p ∈ r.all, s.keyAt p = s.keyAt r.head
  hashed : ∀ i, ∀ p ∈ flat (ps i), (hash (s.keyAt p)).toNat % d.m_hashSize = i
  live_once : ∀ a, s.live a = true → ∃! p, (∃ i, p ∈ flat (ps i)) ∧ s.index.data p = a
  only_live : ∀ i, ∀ p ∈ flat (ps i), s.live (s.index.data p) = true

theorem Organised.twoDimensional (ho : Organised d s ps) : TwoDimensional d s ps := by
  have hflat : ∀ i, flat (dataRows s.index ps i) = (flat (ps i)).map s.index.data := fun i =>
    flat_map s.index.data (ps i)
  have hindexed : ∀ a, s.live a = true ↔ ∃ i, ∃ p ∈ flat (ps i), s.index.data p = a := by
    intro a
    rw [ho.rows.indexed]
    simp only [hflat, List.mem_map]
  have hslot : ∀ i, ∀ p ∈ flat (ps i), (hash (s.keyAt p)).toNat % d.m_hashSize = i := by
    intro i p hp
    have hmem : s.index.data p ∈ flat (dataRows s.index ps i) := by
      rw [hflat]; exact List.mem_map_of_mem hp
    exact (ho.rows.slot_of_mem hmem).symm
  refine ⟨ho.linked, ?_, ?_, hslot, ?_, ?_⟩
  · intro i
    have hone := (ho.rows.slot i).one_row
    unfold dataRows at hone
    rw [List.pairwise_map] at hone
    exact hone
  · intro i r hr p hp
    have hrow : r.map s.index.data ∈ dataRows s.index ps i := List.mem_map_of_mem hr
    exact (ho.rows.slot i).same_key _ hrow _ (by rw [Row.map_all]; exact List.mem_map_of_mem hp)
  · intro a ha
    obtain ⟨i, p, hp, rfl⟩ := (hindexed a).mp ha
    refine ⟨p, ⟨⟨i, hp⟩, rfl⟩, ?_⟩
    rintro q ⟨⟨j, hq⟩, hqp⟩
    have hij : j = i := by
      rw [← hslot i p hp, ← hslot j q hq, Sys.keyAt, Sys.keyAt, hqp]
    subst hij
    have honce := (ho.rows.slot j).once
    rw [hflat] at honce
    exact List.inj_on_of_nodup_map honce hq hp hqp
  · intro i p hp
    exact (hindexed _).mpr ⟨i, p, hp, rfl⟩

/-- Every call on an organised index returns, given enough rounds. -/
theorem Organised.returns (ho : Organised d s ps) (keyOf : ShmPosition → Key) (key : Key)
    (a : ShmPosition) {mem : Option ShmPosition} (hmem : validAnswer s.index mem) :
    ∃ N, ∀ n, N ≤ n → (select d keyOf s.index n key).isSome ∧
      (insert d keyOf s.index n mem key a).isSome ∧
      (deleteIdx d keyOf s.index n key a).isSome := by
  refine ⟨rounds (ps (slotOf d key)), fun n hn => ⟨?_, ?_, ?_⟩⟩
  · rw [select_refines d keyOf key ho.linked hn]; rfl
  · obtain ⟨result, hresult, -⟩ := insert_refines d keyOf key a ho.linked
      (validAnswer_some hmem) hn
    rw [hresult]; rfl
  · obtain ⟨h', ps', hresult, -⟩ := deleteIdx_refines d keyOf key a ho.linked hn
    rw [hresult]; rfl

/-- **The hash index over whole runs.**  After any sequence of calls on an empty
index the buckets are organised in two dimensions; `select` returns, for every
key, exactly the live addresses of that key, each once; and a unique index
refuses a second address with a live key and stays as it is. -/
theorem hash_index_correct {keyOf : ShmPosition → Key} {calls : List Call}
    (hrun : Runs.run (step d) (Sys.init keyOf) calls = some s) :
    (∃ ps, TwoDimensional d s ps) ∧
    (∀ key, ∃ N, ∀ n, N ≤ n → ∃ result, select d s.keyOf s.index n key = some result ∧
      result.Nodup ∧ ∀ a, a ∈ result ↔ s.live a = true ∧ s.keyOf a = key) ∧
    (d.m_isUnique = true → ∀ a b, s.live a = false → s.live b = true → s.keyOf b = s.keyOf a →
      ∀ mem, validAnswer s.index mem → ∃ N, ∀ n, N ≤ n →
        insert d s.keyOf s.index n mem (s.keyOf a) a = some (.error .uniqueConflict) ∧
        step d s (.insert n mem a) = some s) := by
  obtain ⟨ps, ho⟩ := organised_of_run hrun
  refine ⟨⟨ps, ho.twoDimensional⟩, ?_, ?_⟩
  · intro key
    refine ⟨_, fun n hn => ⟨_, select_refines d s.keyOf key ho.linked hn, ?_⟩⟩
    exact ho.rows.select_spec key
  · intro hunique a b hdead hlive hkey mem hmem
    refine ⟨rounds (ps (slotOf d (s.keyOf a))), fun n hn => ?_⟩
    obtain ⟨result, hresult, hrefines⟩ := insert_refines d s.keyOf (s.keyOf a) a ho.linked
      (validAnswer_some hmem) hn
    rw [ho.rows.insert_conflict.mpr ⟨hunique, b, hlive, hkey⟩] at hrefines
    have hconflict : result = .error .uniqueConflict := by
      cases result with
      | ok h' => exact absurd hrefines (by simp [InsertRefines])
      | error e => rw [show e = .uniqueConflict from hrefines]
    rw [hconflict] at hresult
    refine ⟨hresult, ?_⟩
    simp [step, hdead, hmem, hresult]

/-- Three records in a table of one slot: two under key `[1]`, one under `[2]`;
then the head of the row of `[1]` is deleted. -/
def collisions : List Call :=
  [.writeRecord ⟨1, 10⟩ [1], .writeRecord ⟨1, 20⟩ [2], .writeRecord ⟨1, 30⟩ [1],
    .insert 9 (some ⟨2, 1⟩) ⟨1, 10⟩, .insert 9 (some ⟨2, 2⟩) ⟨1, 20⟩,
    .insert 9 (some ⟨2, 3⟩) ⟨1, 30⟩, .deleteIdx 9 [1] ⟨1, 10⟩]

theorem hash_index_correct_collisions :
    ∃ s, Runs.run (step ⟨1, false⟩) (Sys.init fun _ => []) collisions = some s ∧
      select ⟨1, false⟩ s.keyOf s.index 9 [1] = some [⟨1, 30⟩] ∧
      ∃ ps, TwoDimensional ⟨1, false⟩ s ps := by
  obtain ⟨s, hs⟩ : ∃ s, Runs.run (step ⟨1, false⟩) (Sys.init fun _ => []) collisions = some s :=
    Option.isSome_iff_exists.mp (by decide)
  have hsel : (Runs.run (step ⟨1, false⟩) (Sys.init fun _ => []) collisions).map
      (fun s => select ⟨1, false⟩ s.keyOf s.index 9 [1]) = some (some [⟨1, 30⟩]) := by decide
  rw [hs] at hsel
  exact ⟨s, hs, Option.some.inj hsel, (hash_index_correct hs).1⟩

end IndexHash
