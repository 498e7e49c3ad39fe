import Boss.Fuel
import Boss.IndexHashPercent

/-!
# Re-indexing

`IndexHash::reIndex` clears the destination, walks the source with the loops of `selectALL`
and inserts every address it meets into the destination, under the key that the
destination's own `getIndexKey` reads from the record.  The two are different indexes of one
table; they may have different numbers of slots and different columns.

The walk inserts what a full scan of the source returns (`reIndex_eq`).  An insertion into
an index that is not unique only fails for want of memory, so the destination ends with
exactly the addresses of the source.  What `select` finds there goes by the destination's
columns.
-/

namespace IndexHash

open Fuel IndexRows LinkedChain

/-- `allocateIdxMem` for the destination.  The buckets in use tell how far a run has come, so
the answer may be any at each call. -/
structure Allocator where
  answer : State → Option ShmPosition
  valid : ∀ h, validAnswer h (answer h)

/-- `IndexHash::truncate`: the pages of the buckets are given back, and `initHash` clears the
slots. -/
def truncate (d : IndexDef) (h : State) : State where
  m_hashTable := fun i => if i < d.m_hashSize then nullShmPos else h.m_hashTable i
  bucket := h.bucket
  used := fun _ => false

/-- What follows a call that may throw; an exception passes on. -/
def unlessThrown (f : State → Option (Except InsertError State)) :
    Except InsertError State → Option (Except InsertError State)
  | .ok dest => f dest
  | .error e => some (.error e)

theorem bind_unlessThrown (x : Option (Except InsertError State))
    (f g : State → Option (Except InsertError State)) :
    (x.bind (unlessThrown f)).bind (unlessThrown g) =
      x.bind (unlessThrown fun dest => (f dest).bind (unlessThrown g)) := by
  match x with
  | none => rfl
  | some (.ok dest) => rfl
  | some (.error e) => rfl

section ReIndex

variable (d d' : IndexDef) (keyOf' : ShmPosition → Key) (memory : Allocator) (h : State) (n : Nat)

/-- The insertion of `reIndex` into the destination. -/
def insertInto (addr : ShmPosition) (dest : State) : Option (Except InsertError State) :=
  insert d' keyOf' dest n (memory.answer dest) (keyOf' addr) addr

/-- The horizontal loop of `reIndex`. -/
def reIndexRow : Nat → ShmPosition → State → Option (Except InsertError State)
  | 0, _, _ => none
  | k + 1, ptr2, dest =>
      if ptr2 = nullShmPos then some (.ok dest)
      else (insertInto d' keyOf' memory n (h.data ptr2) dest).bind
        (unlessThrown fun dest => reIndexRow k (h.sameNext ptr2) dest)

/-- The vertical loop of `reIndex`. -/
def reIndexColumn : Nat → ShmPosition → State → Option (Except InsertError State)
  | 0, _, _ => none
  | k + 1, ptr1, dest =>
      if ptr1 = nullShmPos then some (.ok dest)
      else (reIndexRow d' keyOf' memory h n n ptr1 dest).bind
        (unlessThrown fun dest => reIndexColumn k (h.diffNext ptr1) dest)

/-- The loop of `reIndex` over the slots, `k` of them from `i` on. -/
def reIndexSlots : Nat → Nat → State → Option (Except InsertError State)
  | 0, _, dest => some (.ok dest)
  | k + 1, i, dest =>
      if h.m_hashTable i = nullShmPos then reIndexSlots k (i + 1) dest
      else (reIndexColumn d' keyOf' memory h n n (h.m_hashTable i) dest).bind
        (unlessThrown fun dest => reIndexSlots k (i + 1) dest)

/-- `IndexHash::reIndex` of the source `h` into `dest`, whose keys `keyOf'` are. -/
def reIndex (dest : State) : Option (Except InsertError State) :=
  reIndexSlots d' keyOf' memory h n d.m_hashSize 0 (truncate d' dest)

/-- The insertion of a list of addresses, one after the other. -/
def insertAll : List ShmPosition → State → Option (Except InsertError State)
  | [], dest => some (.ok dest)
  | a :: rest, dest => (insertInto d' keyOf' memory n a dest).bind
      (unlessThrown fun dest => insertAll rest dest)

end ReIndex

variable {d d' : IndexDef} {keyOf' : ShmPosition → Key} {memory : Allocator} {h : State} {n : Nat}
  {start : ShmPosition} {l : List (Row ShmPosition)} {ps ps' : Rows ShmPosition} {s t : Sys}
  {a : ShmPosition}

/-! ## The walk -/

theorem insertAll_append (as bs : List ShmPosition) (dest : State) :
    insertAll d' keyOf' memory n (as ++ bs) dest =
      (insertAll d' keyOf' memory n as dest).bind
        (unlessThrown fun dest => insertAll d' keyOf' memory n bs dest) := by
  induction as generalizing dest with
  | nil => rfl
  | cons a rest ih =>
      simp only [List.cons_append, insertAll, ih]
      rw [bind_unlessThrown]

theorem reIndexRow_eq {ps : List ShmPosition} (hc : Chain h.sameNext nullShmPos start ps) {k : Nat}
    (hk : ps.length < k) (dest : State) :
    reIndexRow d' keyOf' memory h n k start dest =
      insertAll d' keyOf' memory n (ps.map h.data) dest := by
  induction ps generalizing start k dest with
  | nil =>
      obtain ⟨m, rfl⟩ := Nat.exists_eq_succ_of_ne_zero (Nat.ne_zero_of_lt hk)
      have hnull : start = nullShmPos := hc
      simp [reIndexRow, insertAll, hnull]
  | cons q rest ih =>
      obtain ⟨m, rfl⟩ := Nat.exists_eq_succ_of_ne_zero (Nat.ne_zero_of_lt hk)
      obtain ⟨rfl, hne, hrest⟩ := hc
      have hnext : ∀ dest, reIndexRow d' keyOf' memory h n m (h.sameNext start) dest =
          insertAll d' keyOf' memory n (rest.map h.data) dest :=
        fun dest => ih hrest (by simpa using hk) dest
      rw [reIndexRow, if_neg hne, List.map_cons, insertAll]
      simp only [hnext]

theorem reIndexColumn_eq (hs : SlotLinked h start l) {k : Nat} (hk : l.length < k)
    (hn : ∀ r ∈ l, r.all.length < n) (dest : State) :
    reIndexColumn d' keyOf' memory h n k start dest =
      insertAll d' keyOf' memory n ((flat l).map h.data) dest := by
  induction l generalizing start k dest with
  | nil =>
      obtain ⟨m, rfl⟩ := Nat.exists_eq_succ_of_ne_zero (Nat.ne_zero_of_lt hk)
      have hnull : start = nullShmPos := hs.down
      simp [reIndexColumn, insertAll, hnull]
  | cons r rest ih =>
      obtain ⟨m, rfl⟩ := Nat.exists_eq_succ_of_ne_zero (Nat.ne_zero_of_lt hk)
      obtain ⟨rfl, hne, hrest⟩ := hs.tail
      have hrow : reIndexRow d' keyOf' memory h n n r.head dest =
          insertAll d' keyOf' memory n (r.all.map h.data) dest :=
        reIndexRow_eq (hs.across r List.mem_cons_self) (hn r List.mem_cons_self) dest
      have hnext : ∀ dest, reIndexColumn d' keyOf' memory h n m (h.diffNext r.head) dest =
          insertAll d' keyOf' memory n ((flat rest).map h.data) dest :=
        fun dest => ih hrest (by simpa using hk) (fun q hq => hn q (List.mem_cons_of_mem r hq)) dest
      rw [reIndexColumn, if_neg hne, hrow, flat_cons, List.map_append, insertAll_append]
      simp only [hnext]

theorem reIndexSlots_eq (hr : Linked h ps) (hn : Enough d ps n) {k i : Nat}
    (hk : i + k ≤ d.m_hashSize) (dest : State) :
    reIndexSlots d' keyOf' memory h n k i dest =
      insertAll d' keyOf' memory n (slotsData h ps k i) dest := by
  induction k generalizing i dest with
  | zero => rfl
  | succ k ih =>
      have hnext : ∀ dest, reIndexSlots d' keyOf' memory h n k (i + 1) dest =
          insertAll d' keyOf' memory n (slotsData h ps k (i + 1)) dest :=
        fun dest => ih (by omega) dest
      rw [reIndexSlots, slotsData_succ]
      by_cases hnull : h.m_hashTable i = nullShmPos
      · rw [if_pos hnull, hnext, slotData_eq_nil ((slot_null_iff hr i).mp hnull), List.nil_append]
      · obtain ⟨hlength, hrows⟩ := rounds_le (hn i (by omega))
        rw [if_neg hnull, reIndexColumn_eq (hr.slot i) hlength hrows, insertAll_append]
        simp only [hnext]
        rfl

/-- **`reIndex` inserts what the full scan of the source returns.** -/
theorem reIndex_eq (hr : Linked h ps) (hn : Enough d ps n) (dest : State) :
    reIndex d d' keyOf' memory h n dest =
      insertAll d' keyOf' memory n (slotsData h ps d.m_hashSize 0) (truncate d' dest) :=
  reIndexSlots_eq hr hn (by omega) _

/-! ## The destination -/

/-- A truncated index is in order and has no addresses. -/
theorem Organised.truncate (ho : Organised d s ps) (hsize : 0 < d.m_hashSize) :
    Organised d ⟨truncate d s.index, s.keyOf, fun _ => false⟩ fun _ => [] := by
  have hempty := organised_init d s.keyOf
  refine ⟨⟨fun i => ⟨?_, by simp⟩, by simp, by simp, by simp⟩, hempty.rows⟩
  change (if i < d.m_hashSize then nullShmPos else s.index.m_hashTable i) = nullShmPos
  split
  · rfl
  · rename_i hout
    -- the slots behind the table have never been used
    refine (slot_null_iff ho.linked i).mpr (List.eq_nil_iff_forall_not_mem.mpr fun r hr => ?_)
    have hmem : s.index.data r.head ∈ flat (dataRows s.index ps i) :=
      mem_flat.mpr ⟨r.map s.index.data, List.mem_map_of_mem hr, (r.map s.index.data).head_mem_all⟩
    rw [ho.rows.slot_of_mem hmem] at hout
    exact hout (slotOf_lt hsize _)

/-- An insertion of a new address into an index that is not unique. -/
theorem Organised.insert_fresh (ho : Organised d s ps) (hunique : d.m_isUnique = false)
    (hdead : s.live a = false) {mem : Option ShmPosition} (hmem : validAnswer s.index mem) :
    ∃ result, Settles (fun n => insert d s.keyOf s.index n mem (s.keyOf a) a) result ∧
      ((mem = none ∧ result = .error .noSpace) ∨
        ∃ h' ps', result = .ok h' ∧
          Organised d { s with index := h', live := Function.update s.live a true } ps') := by
  obtain ⟨result, hresult, hrefines⟩ := insert_refines d s.keyOf (s.keyOf a) a ho.linked
    (validAnswer_some hmem) (Nat.le_refl _)
  refine ⟨result, ⟨_, fun n hn => insert_mono hn hresult⟩, ?_⟩
  cases mem with
  | none =>
      have hrows : IndexRows.insert s.keyOf (slotOf d) d.m_isUnique false (dataRows s.index ps)
          (s.keyOf a) a = .error .noSpace := by
        unfold IndexRows.insert
        rw [hunique]
        split
        · rfl
        · rfl
      refine Or.inl ⟨rfl, ?_⟩
      rw [Option.isSome_none, hrows] at hrefines
      cases result with
      | ok h' => exact absurd hrefines (by simp [InsertRefines])
      | error e => rw [show e = .noSpace from hrefines]
  | some p =>
      have hrows : ∃ rows, IndexRows.insert s.keyOf (slotOf d) d.m_isUnique true
          (dataRows s.index ps) (s.keyOf a) a = .ok rows := by
        unfold IndexRows.insert
        rw [hunique]
        split
        · exact ⟨_, rfl⟩
        · exact ⟨_, rfl⟩
      obtain ⟨rows, hrows⟩ := hrows
      rw [Option.isSome_some, hrows] at hrefines
      cases result with
      | error e => exact absurd hrefines (by simp [InsertRefines])
      | ok h' =>
          have hstep : step d s (.insert (rounds (ps (slotOf d (s.keyOf a)))) (some p) a) =
              some { s with index := h', live := Function.update s.live a true } := by
            rw [step, if_pos ⟨hdead, hmem⟩, hresult]
            rfl
          obtain ⟨ps', ho'⟩ := ho.step_insert hstep
          exact Or.inr ⟨h', ps', rfl, ho'⟩

/-- **All of them.**  The insertions end, and unless the memory ran out the index has the
addresses besides those it had. -/
theorem Organised.insertAll (ho : Organised d s ps) (hunique : d.m_isUnique = false)
    (memory : Allocator) {as : List ShmPosition} (hnodup : as.Nodup)
    (hdead : ∀ a ∈ as, s.live a = false) :
    ∃ result, Settles (fun n => insertAll d s.keyOf memory n as s.index) result ∧
      ((result = .error .noSpace ∧ ∃ h, memory.answer h = none) ∨
        ∃ h' ps', result = .ok h' ∧
          Organised d ⟨h', s.keyOf, fun b => s.live b || decide (b ∈ as)⟩ ps') := by
  induction as generalizing s ps with
  | nil =>
      refine ⟨.ok s.index, settles_some _, Or.inr ⟨s.index, ps, rfl, ?_⟩⟩
      simpa using ho
  | cons a rest ih =>
      obtain ⟨hnew, hrest⟩ := List.nodup_cons.mp hnodup
      obtain ⟨result, hsettles, hcases⟩ := ho.insert_fresh hunique
        (hdead a List.mem_cons_self) (memory.valid s.index)
      rcases hcases with ⟨hnone, rfl⟩ | ⟨h', ps', rfl, ho'⟩
      · exact ⟨_, hsettles.bind (settles_some _), Or.inl ⟨rfl, s.index, hnone⟩⟩
      · have hdead' : ∀ b ∈ rest, Function.update s.live a true b = false := by
          intro b hb
          have hne : b ≠ a := fun hba => hnew (hba ▸ hb)
          rw [Function.update_of_ne hne]
          exact hdead b (List.mem_cons_of_mem a hb)
        obtain ⟨result', hsettles', hcases'⟩ := ih ho' hrest hdead'
        refine ⟨result', hsettles.bind hsettles', hcases'.imp_right ?_⟩
        rintro ⟨h'', ps'', rfl, ho''⟩
        refine ⟨h'', ps'', rfl, ?_⟩
        have hlive : (fun b => Function.update s.live a true b || decide (b ∈ rest)) =
            fun b => s.live b || decide (b ∈ a :: rest) := by
          funext b
          by_cases hba : b = a
          · simp [hba]
          · simp [hba]
        rw [← hlive]
        exact ho''

/-- **`reIndex` ends**, and unless the memory ran out the destination has the addresses of
the source. -/
theorem Organised.reIndex (ho : Organised d s ps) (ho' : Organised d' t ps')
    (hsize : 0 < d.m_hashSize) (hsize' : 0 < d'.m_hashSize) (hunique : d'.m_isUnique = false)
    (memory : Allocator) :
    ∃ result, Settles (fun n => reIndex d d' t.keyOf memory s.index n t.index) result ∧
      ((result = .error .noSpace ∧ ∃ h, memory.answer h = none) ∨
        ∃ dest ps'', result = .ok dest ∧ Organised d' ⟨dest, t.keyOf, s.live⟩ ps'') := by
  obtain ⟨N, hN⟩ := exists_enough d ps
  obtain ⟨result, ⟨M, hM⟩, hcases⟩ := (ho'.truncate hsize').insertAll hunique memory
    (ho.nodup_slotsData d.m_hashSize 0) (fun _ _ => rfl)
  refine ⟨result, ⟨max N M, fun n hn => ?_⟩, hcases.imp_right ?_⟩
  · dsimp only
    rw [reIndex_eq ho.linked (hN n ((Nat.le_max_left N M).trans hn))]
    exact hM n ((Nat.le_max_right N M).trans hn)
  · rintro ⟨dest, ps'', rfl, hdest⟩
    refine ⟨dest, ps'', rfl, ?_⟩
    have hlive : (fun a => false || decide (a ∈ slotsData s.index ps d.m_hashSize 0)) = s.live := by
      funext a
      rw [Bool.false_or, Bool.eq_iff_iff, decide_eq_true_iff, ho.mem_slotsData hsize]
    rw [← hlive]
    exact hdest

/-! ## What is preserved -/

/-- The destination holds the addresses of the source, each once. -/
def SameContents (d d' : IndexDef) (s : Sys) (dest : State) (n : Nat) : Prop :=
  ∃ all all', selectALL d s.index n = some all ∧ selectALL d' dest n = some all' ∧
    (∀ a, a ∈ all ↔ s.live a = true) ∧ all.Nodup ∧ all'.Perm all

/-- `select` finds on the destination what it finds on the source. -/
def SameSelects (d d' : IndexDef) (s : Sys) (keyOf' : ShmPosition → Key) (dest : State) (n : Nat) :
    Prop :=
  ∀ key, ∃ found found', select d s.keyOf s.index n key = some found ∧
    select d' keyOf' dest n key = some found' ∧ ∀ a, a ∈ found' ↔ a ∈ found

/-- `select` finds the addresses whose records have the key in the destination's columns. -/
def SelectsOwnKeys (d' : IndexDef) (live : ShmPosition → Bool) (keyOf' : ShmPosition → Key)
    (dest : State) (n : Nat) : Prop :=
  ∀ key, ∃ found, select d' keyOf' dest n key = some found ∧ found.Nodup ∧
    ∀ a, a ∈ found ↔ live a = true ∧ keyOf' a = key

/-- `getHashPercent` gives the figures of the full scan. -/
def FiguresRight (d : IndexDef) (h : State) (n : Nat) : Prop :=
  ∃ p all, getHashPercent d h n = some p ∧ selectALL d h n = some all ∧ Figures d h n all p

theorem figuresRight (hr : Linked h ps) (hn : Enough d ps n) : FiguresRight d h n := by
  obtain ⟨p, hp, hfigures⟩ := getHashPercent_spec hr hn
  exact ⟨p, _, hp, selectALL_eq hr hn, hfigures⟩

theorem Organised.selectsOwnKeys (ho : Organised d s ps) (hsize : 0 < d.m_hashSize)
    (hn : Enough d ps n) : SelectsOwnKeys d s.live s.keyOf s.index n := fun key =>
  ⟨_, select_refines d s.keyOf key ho.linked (hn _ (slotOf_lt hsize key)), ho.rows.select_spec key⟩

/-- Indexes of the same addresses scan them in some order. -/
theorem sameContents {dest : State} (ho : Organised d s ps)
    (ho' : Organised d' ⟨dest, keyOf', s.live⟩ ps') (hsize : 0 < d.m_hashSize)
    (hsize' : 0 < d'.m_hashSize) (hn : Enough d ps n) (hn' : Enough d' ps' n) :
    SameContents d d' s dest n := by
  refine ⟨_, _, selectALL_eq ho.linked hn, selectALL_eq ho'.linked hn',
    fun a => ho.mem_slotsData hsize, ho.nodup_slotsData _ _, ?_⟩
  refine (List.perm_ext_iff_of_nodup (ho'.nodup_slotsData _ _) (ho.nodup_slotsData _ _)).mpr ?_
  intro a
  exact (ho'.mem_slotsData hsize').trans (ho.mem_slotsData hsize).symm

/-- Under keys that agree on the addresses, both find the same. -/
theorem sameSelects {dest : State} (hsource : SelectsOwnKeys d s.live s.keyOf s.index n)
    (hdest : SelectsOwnKeys d' s.live keyOf' dest n)
    (hkeys : ∀ a, s.live a = true → keyOf' a = s.keyOf a) : SameSelects d d' s keyOf' dest n := by
  intro key
  obtain ⟨found, hfound, -, hmem⟩ := hsource key
  obtain ⟨found', hfound', -, hmem'⟩ := hdest key
  refine ⟨found, found', hfound, hfound', fun a => ?_⟩
  rw [hmem, hmem']
  refine and_congr_right fun hlive => ?_
  rw [hkeys a hlive]

/-- **Re-indexing preserves contents.**  Whatever calls have made the source and the
destination, `reIndex` ends, and only fails when the memory runs out.  Then the destination has
the addresses of the source, each once; `select` goes by the destination's own columns there,
which is what it finds on the source when the columns are the same.  On any index
`getHashPercent` gives the figures of the full scan. -/
theorem reIndex_preserves (hsize : 0 < d.m_hashSize) (hsize' : 0 < d'.m_hashSize)
    (hunique : d'.m_isUnique = false) {k k' : ShmPosition → Key} {calls calls' : List Call}
    (hrun : Runs.run (step d) (Sys.init k) calls = some s)
    (hrun' : Runs.run (step d') (Sys.init k') calls' = some t) (memory : Allocator) :
    (∃ result, Settles (fun n => reIndex d d' t.keyOf memory s.index n t.index) result ∧
      (∀ e, result = .error e → e = .noSpace ∧ ∃ h, memory.answer h = none) ∧
      ∀ dest, result = .ok dest → ∃ N, ∀ n, N ≤ n →
        SameContents d d' s dest n ∧ SelectsOwnKeys d' s.live t.keyOf dest n ∧
        ((∀ a, s.live a = true → t.keyOf a = s.keyOf a) → SameSelects d d' s t.keyOf dest n) ∧
        FiguresRight d' dest n) ∧
    ∃ N, ∀ n, N ≤ n → FiguresRight d s.index n := by
  obtain ⟨ps, ho⟩ := organised_of_run hrun
  obtain ⟨ps', ho'⟩ := organised_of_run hrun'
  obtain ⟨N, hN⟩ := exists_enough d ps
  refine ⟨?_, N, fun n hn => figuresRight ho.linked (hN n hn)⟩
  obtain ⟨result, hsettles, hcases⟩ := ho.reIndex ho' hsize hsize' hunique memory
  refine ⟨result, hsettles, ?_⟩
  rcases hcases with ⟨rfl, hrefused⟩ | ⟨dest, ps'', rfl, hdest⟩
  · refine ⟨fun e he => ⟨(Except.error.inj he).symm, hrefused⟩, fun dest hok => ?_⟩
    cases hok
  · refine ⟨fun e he => absurd he (by simp), fun dest' hok => ?_⟩
    obtain rfl := Except.ok.inj hok
    obtain ⟨N', hN'⟩ := exists_enough d' ps''
    refine ⟨max N N', fun n hn => ?_⟩
    have henough : Enough d ps n := hN n ((Nat.le_max_left N N').trans hn)
    have henough' : Enough d' ps'' n := hN' n ((Nat.le_max_right N N').trans hn)
    have hown : SelectsOwnKeys d' s.live t.keyOf dest n := hdest.selectsOwnKeys hsize' henough'
    exact ⟨sameContents ho hdest hsize hsize' henough henough', hown,
      sameSelects (ho.selectsOwnKeys hsize henough) hown, figuresRight hdest.linked henough'⟩

/-- Three idle buckets. -/
def idleBuckets : Allocator where
  answer h := [⟨3, 1⟩, ⟨3, 2⟩, ⟨3, 3⟩].find? fun p => !h.used p
  valid h := by
    cases hfind : List.find? (fun p => !h.used p) [⟨3, 1⟩, ⟨3, 2⟩, ⟨3, 3⟩] with
    | none => trivial
    | some p =>
        have hidle : h.used p = false := by simpa using List.find?_some hfind
        have hmem := List.mem_of_find?_eq_some hfind
        refine ⟨?_, hidle⟩
        rintro rfl
        exact absurd hmem (by decide)

/-- The records of `collisions` move into seven slots. -/
theorem reIndex_preserves_collisions :
    ∃ s, Runs.run (step ⟨1, false⟩) (Sys.init fun _ => []) collisions = some s ∧
      ∃ result, Settles (fun n =>
          reIndex ⟨1, false⟩ ⟨7, false⟩ s.keyOf idleBuckets s.index n create) result ∧
        ∀ dest, result = .ok dest → ∃ N, ∀ n, N ≤ n →
          SameContents ⟨1, false⟩ ⟨7, false⟩ s dest n ∧
          SameSelects ⟨1, false⟩ ⟨7, false⟩ s s.keyOf dest n ∧ FiguresRight ⟨7, false⟩ dest n := by
  obtain ⟨s, hs⟩ : ∃ s, Runs.run (step ⟨1, false⟩) (Sys.init fun _ => []) collisions = some s :=
    Option.isSome_iff_exists.mp (by decide)
  have hempty : Runs.run (step ⟨7, false⟩) (Sys.init s.keyOf) [] = some (Sys.init s.keyOf) := rfl
  obtain ⟨⟨result, hsettles, -, hok⟩, -⟩ :=
    reIndex_preserves (by decide) (by decide) rfl hs hempty idleBuckets
  refine ⟨s, hs, result, hsettles, fun dest hdest => ?_⟩
  obtain ⟨N, hN⟩ := hok dest hdest
  refine ⟨N, fun n hn => ?_⟩
  obtain ⟨hcontents, -, hselects, hfigures⟩ := hN n hn
  exact ⟨hcontents, hselects fun _ _ => rfl, hfigures⟩

/-- One record has the key `[1]` in the source's column and `[2]` in the destination's:
under `[1]` the destination does not find it. -/
theorem not_sameSelects_otherColumn :
    ∃ s dest, Runs.run (step ⟨4, false⟩) (Sys.init fun _ => [1]) [.insert 9 (some ⟨2, 1⟩) ⟨1, 10⟩]
        = some s ∧
      reIndex ⟨4, false⟩ ⟨8, false⟩ (fun _ => [2]) idleBuckets s.index 9 create = some (.ok dest) ∧
      ¬ SameSelects ⟨4, false⟩ ⟨8, false⟩ s (fun _ => [2]) dest 9 := by
  have hfinds : ((Runs.run (step ⟨4, false⟩) (Sys.init fun _ => [1])
      [.insert 9 (some ⟨2, 1⟩) ⟨1, 10⟩]).bind fun s =>
        (reIndex ⟨4, false⟩ ⟨8, false⟩ (fun _ => [2]) idleBuckets s.index 9 create).bind fun r =>
          r.toOption.map fun dest => (select ⟨4, false⟩ s.keyOf s.index 9 [1],
            select ⟨8, false⟩ (fun _ => [2]) dest 9 [1])) = some (some [⟨1, 10⟩], some []) := by
    decide
  obtain ⟨s, hs, hfinds⟩ := Option.bind_eq_some_iff.mp hfinds
  obtain ⟨r, hr, hfinds⟩ := Option.bind_eq_some_iff.mp hfinds
  cases r with
  | error e => cases hfinds
  | ok dest =>
      obtain ⟨hsource, hdest⟩ := Prod.mk.inj (Option.some.inj hfinds)
      refine ⟨s, dest, hs, hr, fun hsame => ?_⟩
      obtain ⟨found, found', hfound, hfound', hmem⟩ := hsame [1]
      obtain rfl := Option.some.inj (hsource.symm.trans hfound)
      obtain rfl := Option.some.inj (hdest.symm.trans hfound')
      exact absurd ((hmem ⟨1, 10⟩).mpr List.mem_cons_self) List.not_mem_nil

end IndexHash
