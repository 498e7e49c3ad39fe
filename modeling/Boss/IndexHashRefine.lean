import Boss.IndexHash

/-!
# The linked buckets refine the rows

`Linked h ps` says that the buckets of `h` are linked as the rows of positions
`ps`: the slot table and `m_diffNext` give the row heads of each slot,
`m_sameNext` gives each row, no position occurs twice and all are allocated.
Reading the record address of every position (`dataRows`) gives the rows that
`IndexRows` works on.

`select_refines`, `insert_refines` and `deleteIdx_refines` connect the two
levels for arbitrary record memory: the loops end, the results agree, and the
new buckets represent the new rows.  The four relinking cases of `deleteIdx` and
its inner case meet in `relink_spec`.
-/

namespace IndexHash

open LinkedChain IndexRows

/-- The buckets reached from `start` are linked as the rows `l`. -/
structure SlotLinked (h : State) (start : ShmPosition) (l : List (Row ShmPosition)) : Prop where
  down : Chain h.diffNext nullShmPos start (l.map (·.head))
  across : ∀ r ∈ l, Chain h.sameNext nullShmPos r.head r.all

/-- The index is linked as the rows of positions `ps`. -/
structure Linked (h : State) (ps : Rows ShmPosition) : Prop where
  slot : ∀ i, SlotLinked h (h.m_hashTable i) (ps i)
  nodup : ∀ i, (flat (ps i)).Nodup
  apart : ∀ i j p, p ∈ flat (ps i) → p ∈ flat (ps j) → i = j
  used : ∀ i, ∀ p ∈ flat (ps i), h.used p = true

/-- The rows of record addresses behind the rows of positions. -/
def dataRows (h : State) (ps : Rows ShmPosition) : Rows ShmPosition :=
  fun i => (ps i).map (Row.map h.data)

variable {h h' : State} {start p q : ShmPosition} {l : List (Row ShmPosition)}
  {ps : Rows ShmPosition} {d : IndexDef} {keyOf : ShmPosition → Key} {key : Key}
  {a : ShmPosition}

theorem head_mem_flat {r : Row ShmPosition} (hr : r ∈ l) : r.head ∈ flat l :=
  mem_flat.mpr ⟨r, hr, r.head_mem_all⟩

/-- A slot only depends on its own buckets. -/
theorem SlotLinked.congr (hs : SlotLinked h start l)
    (hsame : ∀ p ∈ flat l, h'.bucket p = h.bucket p) : SlotLinked h' start l := by
  constructor
  · refine (path_congr fun y hy => ?_).mpr hs.down
    obtain ⟨r, hr, rfl⟩ := List.mem_map.mp hy
    unfold State.diffNext
    rw [hsame _ (head_mem_flat hr)]
  · intro r hr
    refine (path_congr fun y hy => ?_).mpr (hs.across r hr)
    unfold State.sameNext
    rw [hsame y (mem_flat.mpr ⟨r, hr, hy⟩)]

/-- Relinking one slot with its own and with unused positions. -/
theorem Linked.update (hr : Linked h ps) {val : Nat} {l : List (Row ShmPosition)}
    (hslot : SlotLinked h' (h'.m_hashTable val) l) (hnodup : (flat l).Nodup)
    (hused : ∀ p ∈ flat l, h'.used p = true)
    (hfrom : ∀ p ∈ flat l, p ∈ flat (ps val) ∨ h.used p = false)
    (htable : ∀ j, j ≠ val → h'.m_hashTable j = h.m_hashTable j)
    (hframe : ∀ j, j ≠ val → ∀ p ∈ flat (ps j), h'.bucket p = h.bucket p ∧ h'.used p = h.used p) :
    Linked h' (Function.update ps val l) := by
  have hother : ∀ j, j ≠ val → ∀ p ∈ flat l, p ∉ flat (ps j) := by
    intro j hj p hp hpj
    rcases hfrom p hp with hin | hfree
    · exact hj (hr.apart j val p hpj hin)
    · rw [hr.used j p hpj] at hfree; cases hfree
  constructor
  · intro j
    by_cases hj : j = val
    · subst hj; rw [Function.update_self]; exact hslot
    · rw [Function.update_of_ne hj, htable j hj]
      exact (hr.slot j).congr fun p hp => (hframe j hj p hp).1
  · intro j
    by_cases hj : j = val
    · subst hj; rw [Function.update_self]; exact hnodup
    · rw [Function.update_of_ne hj]; exact hr.nodup j
  · intro i j p hpi hpj
    by_cases hi : i = val
    · by_cases hj : j = val
      · rw [hi, hj]
      · rw [hi, Function.update_self] at hpi
        rw [Function.update_of_ne hj] at hpj
        exact absurd hpj (hother j hj p hpi)
    · rw [Function.update_of_ne hi] at hpi
      by_cases hj : j = val
      · rw [hj, Function.update_self] at hpj
        exact absurd hpi (hother i hi p hpj)
      · rw [Function.update_of_ne hj] at hpj
        exact hr.apart i j p hpi hpj
  · intro j p hp
    by_cases hj : j = val
    · subst hj; rw [Function.update_self] at hp; exact hused p hp
    · rw [Function.update_of_ne hj] at hp
      rw [(hframe j hj p hp).2]
      exact hr.used j p hp

/-- Changing the row of one slot changes the records of that slot only. -/
theorem dataRows_update {val : Nat} {l : List (Row ShmPosition)}
    (hdata : ∀ j, j ≠ val → ∀ p ∈ flat (ps j), h'.data p = h.data p) :
    dataRows h' (Function.update ps val l) =
      Function.update (dataRows h ps) val (l.map (Row.map h'.data)) := by
  funext j
  by_cases hj : j = val
  · subst hj; simp [dataRows]
  · rw [Function.update_of_ne hj]
    simp only [dataRows, Function.update_of_ne hj]
    exact map_congr_flat (hdata j hj)

/-! ## The loops end -/

/-- The search down the heads finds the row of the key, if there is one. -/
theorem findHead_eq (hs : SlotLinked h start l) {n : Nat} (hn : l.length < n) :
    findHead keyOf h key n start =
      some ((l.find? fun r => keyOf (h.data r.head) = key).elim nullShmPos (·.head)) := by
  induction l generalizing start n with
  | nil =>
      obtain ⟨m, rfl⟩ : ∃ m, n = m + 1 := ⟨n - 1, by simp at hn; omega⟩
      have hnull : start = nullShmPos := hs.down
      simp [findHead, hnull]
  | cons r rest ih =>
      obtain ⟨m, rfl⟩ : ∃ m, n = m + 1 := ⟨n - 1, by simp at hn; omega⟩
      obtain ⟨rfl, hne, hdown⟩ := hs.down
      unfold findHead
      rw [if_neg hne]
      by_cases hkey : keyOf (h.data r.head) = key
      · simp [hkey]
      · have hrest : SlotLinked h (h.diffNext r.head) rest :=
          ⟨hdown, fun q hq => hs.across q (List.mem_cons_of_mem r hq)⟩
        rw [if_neg hkey, ih hrest (by simp at hn; omega)]
        simp [hkey]

/-- Following the links of a row collects its records. -/
theorem collectRow_eq {ps : List ShmPosition} (hc : Chain h.sameNext nullShmPos p ps) {n : Nat}
    (hn : ps.length < n) : collectRow h n p = some (ps.map h.data) := by
  induction ps generalizing p n with
  | nil =>
      obtain ⟨m, rfl⟩ : ∃ m, n = m + 1 := ⟨n - 1, by simp at hn; omega⟩
      have hnull : p = nullShmPos := hc
      simp [collectRow, hnull]
  | cons x rest ih =>
      obtain ⟨m, rfl⟩ : ∃ m, n = m + 1 := ⟨n - 1, by simp at hn; omega⟩
      obtain ⟨rfl, hne, hrest⟩ := hc
      unfold collectRow
      rw [if_neg hne, ih hrest (by simp at hn; omega)]
      rfl

/-! A loop that has ended does not change its answer when it is given more
rounds. -/

/-- More rounds do not change a head that is found. -/
theorem findHead_mono {n m : Nat} {r : ShmPosition} (hnm : n ≤ m)
    (hsome : findHead keyOf h key n p = some r) : findHead keyOf h key m p = some r := by
  induction n generalizing m p with
  | zero => cases hsome
  | succ n ih =>
      obtain ⟨m, rfl⟩ : ∃ k, m = k + 1 := ⟨m - 1, by omega⟩
      unfold findHead at hsome ⊢
      split at hsome
      · rename_i hnull
        rw [if_pos hnull]; exact hsome
      · rename_i hnull
        rw [if_neg hnull]
        split at hsome
        · rename_i hkey
          rw [if_pos hkey]; exact hsome
        · rename_i hkey
          rw [if_neg hkey]; exact ih (by omega) hsome

/-- More rounds do not change a place that is found in a row. -/
theorem locateInRow_mono {n m : Nat} {last : ShmPosition}
    {r : Option (ShmPosition × ShmPosition)} (hnm : n ≤ m)
    (hsome : locateInRow h a n last p = some r) : locateInRow h a m last p = some r := by
  induction n generalizing m p last with
  | zero => cases hsome
  | succ n ih =>
      obtain ⟨m, rfl⟩ : ∃ k, m = k + 1 := ⟨m - 1, by omega⟩
      unfold locateInRow at hsome ⊢
      split at hsome
      · rename_i hnull
        rw [if_pos hnull]; exact hsome
      · rename_i hnull
        rw [if_neg hnull]
        split at hsome
        · rename_i hdata
          rw [if_pos hdata]; exact hsome
        · rename_i hdata
          rw [if_neg hdata]; exact ih (by omega) hsome

/-- More rounds do not change a place that is found. -/
theorem locate_mono {n m : Nat} {last : ShmPosition} {r : Option Found} (hnm : n ≤ m)
    (hsome : locate keyOf h key a n last p = some r) :
    locate keyOf h key a m last p = some r := by
  induction n generalizing m p last with
  | zero => cases hsome
  | succ n ih =>
      obtain ⟨m, rfl⟩ : ∃ k, m = k + 1 := ⟨m - 1, by omega⟩
      unfold locate at hsome ⊢
      split at hsome
      · rename_i hnull
        rw [if_pos hnull]; exact hsome
      · rename_i hnull
        rw [if_neg hnull]
        split at hsome
        · rename_i hkey
          obtain ⟨found, hfound, hrest⟩ := Option.bind_eq_some_iff.mp hsome
          rw [if_pos hkey, locateInRow_mono (by omega) hfound, Option.bind_some]
          cases found with
          | some pair => exact hrest
          | none => exact ih (by omega) hrest
        · rename_i hkey
          rw [if_neg hkey]; exact ih (by omega) hsome

/-- More rounds do not change what an insertion returns. -/
theorem insert_mono {n m : Nat} {mem : Option ShmPosition} {r : Except InsertError State}
    (hnm : n ≤ m) (hsome : insert d keyOf h n mem key a = some r) :
    insert d keyOf h m mem key a = some r := by
  unfold insert at hsome ⊢
  dsimp only at hsome ⊢
  split at hsome
  · rename_i hnull
    rw [if_pos hnull]; exact hsome
  · rename_i hnull
    obtain ⟨ptr1, hptr, rfl⟩ := Option.map_eq_some_iff.mp hsome
    rw [if_neg hnull, findHead_mono hnm hptr, Option.map_some]

/-- More rounds do not change what a deletion returns. -/
theorem deleteIdx_mono {n m : Nat} {r : Bool × State} (hnm : n ≤ m)
    (hsome : deleteIdx d keyOf h n key a = some r) : deleteIdx d keyOf h m key a = some r := by
  unfold deleteIdx at hsome ⊢
  dsimp only at hsome ⊢
  split at hsome
  · rename_i hnull
    rw [if_pos hnull]; exact hsome
  · rename_i hnull
    obtain ⟨found, hfound, rfl⟩ := Option.map_eq_some_iff.mp hsome
    rw [if_neg hnull, locate_mono hnm hfound, Option.map_some]

/-- The rounds that suffice for any loop over the rows `l`. -/
def rounds (l : List (Row ShmPosition)) : Nat := l.length + (flat l).length + 2

/-- A row is not longer than the slot. -/
theorem length_le_flat {r : Row ShmPosition} (hr : r ∈ l) : r.all.length ≤ (flat l).length := by
  induction l with
  | nil => cases hr
  | cons r' rest ih =>
      rw [flat_cons, List.length_append]
      rcases List.mem_cons.mp hr with rfl | hr
      · omega
      · have := ih hr; omega

/-- **Selection.** -/
theorem select_refines (d : IndexDef) (keyOf : ShmPosition → Key) (key : Key) (hr : Linked h ps)
    {n : Nat} (hn : rounds (ps (slotOf d key)) ≤ n) :
    select d keyOf h n key =
      some (IndexRows.select keyOf (slotOf d) (dataRows h ps) key) := by
  have hs := hr.slot (slotOf d key)
  unfold rounds at hn
  unfold select IndexRows.select findRow dataRows
  dsimp only
  split
  · rename_i hnull
    rw [hnull] at hs
    have hnil : ps (slotOf d key) = [] := List.map_eq_nil_iff.mp (chain_null hs.down)
    simp [hnil]
  · rw [findHead_eq hs (by omega), Option.bind_some, List.find?_map]
    cases hfind : (ps (slotOf d key)).find? fun r => keyOf (h.data r.head) = key with
    | none =>
        have hnone : List.find? ((fun r => decide (keyOf r.head = key)) ∘ Row.map h.data)
            (ps (slotOf d key)) = none := hfind
        rw [hnone]
        obtain ⟨m, rfl⟩ : ∃ m, n = m + 1 := ⟨n - 1, by omega⟩
        simp [collectRow]
    | some r =>
        have hsome : List.find? ((fun r => decide (keyOf r.head = key)) ∘ Row.map h.data)
            (ps (slotOf d key)) = some r := hfind
        have hmem := List.mem_of_find?_eq_some hfind
        have hlen := length_le_flat hmem
        rw [hsome]
        simpa using collectRow_eq (hs.across r hmem) (by omega)

/-! ## Insertion -/

section Fields

variable (h : State) (p q : ShmPosition) (b : Bucket)

@[simp] theorem setBucket_diffNext :
    (h.setBucket p b).diffNext = Function.update h.diffNext p b.m_diffNext := by
  funext x
  by_cases hx : x = p
  · subst hx; simp [State.setBucket, State.diffNext]
  · simp [State.setBucket, State.diffNext, hx]

@[simp] theorem setBucket_sameNext :
    (h.setBucket p b).sameNext = Function.update h.sameNext p b.m_sameNext := by
  funext x
  by_cases hx : x = p
  · subst hx; simp [State.setBucket, State.sameNext]
  · simp [State.setBucket, State.sameNext, hx]

@[simp] theorem setBucket_data :
    (h.setBucket p b).data = Function.update h.data p b.m_data := by
  funext x
  by_cases hx : x = p
  · subst hx; simp [State.setBucket, State.data]
  · simp [State.setBucket, State.data, hx]

@[simp] theorem setDiffNext_diffNext :
    (h.setDiffNext p q).diffNext = Function.update h.diffNext p q := setBucket_diffNext ..

@[simp] theorem setDiffNext_sameNext : (h.setDiffNext p q).sameNext = h.sameNext := by
  unfold State.setDiffNext
  rw [setBucket_sameNext]
  exact Function.update_eq_self p h.sameNext

@[simp] theorem setDiffNext_data : (h.setDiffNext p q).data = h.data := by
  unfold State.setDiffNext
  rw [setBucket_data]
  exact Function.update_eq_self p h.data

@[simp] theorem setSameNext_sameNext :
    (h.setSameNext p q).sameNext = Function.update h.sameNext p q := setBucket_sameNext ..

@[simp] theorem setSameNext_diffNext : (h.setSameNext p q).diffNext = h.diffNext := by
  unfold State.setSameNext
  rw [setBucket_diffNext]
  exact Function.update_eq_self p h.diffNext

@[simp] theorem setSameNext_data : (h.setSameNext p q).data = h.data := by
  unfold State.setSameNext
  rw [setBucket_data]
  exact Function.update_eq_self p h.data

@[simp] theorem allocate_diffNext : (h.allocate p).diffNext = h.diffNext := rfl
@[simp] theorem allocate_sameNext : (h.allocate p).sameNext = h.sameNext := rfl
@[simp] theorem allocate_data : (h.allocate p).data = h.data := rfl
@[simp] theorem free_diffNext : (h.free p).diffNext = h.diffNext := rfl
@[simp] theorem free_sameNext : (h.free p).sameNext = h.sameNext := rfl
@[simp] theorem free_data : (h.free p).data = h.data := rfl
@[simp] theorem setSlot_diffNext (val : Nat) : (h.setSlot val p).diffNext = h.diffNext := rfl
@[simp] theorem setSlot_sameNext (val : Nat) : (h.setSlot val p).sameNext = h.sameNext := rfl
@[simp] theorem setSlot_data (val : Nat) : (h.setSlot val p).data = h.data := rfl

variable {h p}

theorem setDiffNext_bucket {x : ShmPosition} (hx : x ≠ p) :
    (h.setDiffNext p q).bucket x = h.bucket x := Function.update_of_ne hx _ _

theorem setSameNext_bucket {x : ShmPosition} (hx : x ≠ p) :
    (h.setSameNext p q).bucket x = h.bucket x := Function.update_of_ne hx _ _

end Fields

/-- Outcomes of an insertion on the two levels. -/
def InsertRefines : Except InsertError State → Except InsertError (Rows ShmPosition) → Prop
  | .ok h', .ok rows => ∃ ps', Linked h' ps' ∧ dataRows h' ps' = rows
  | .error e, .error e' => e = e'
  | _, _ => False

/-- A bucket that is not used is in no slot. -/
theorem notMem_of_unused (hr : Linked h ps) (hp : h.used p = false) (i : Nat) : p ∉ flat (ps i) := by
  intro hmem
  rw [hr.used i p hmem] at hp
  cases hp

/-- Writing a bucket outside of some rows leaves their records. -/
theorem map_data_update {l : List (Row ShmPosition)} (hp : p ∉ flat l) :
    l.map (Row.map (Function.update h.data p a)) = l.map (Row.map h.data) := by
  refine map_congr_flat fun x hx => Function.update_of_ne ?_ _ _
  rintro rfl
  exact hp hx

/-- A new bucket in front of the vertical list. -/
theorem push_linked (hr : Linked h ps) {val : Nat} (hp : p ≠ nullShmPos) (hfree : h.used p = false)
    (hh : h' = ((h.allocate p).setBucket p ⟨a, h.m_hashTable val, nullShmPos⟩).setSlot val p) :
    Linked h' (Function.update ps val (⟨p, []⟩ :: ps val)) ∧
      dataRows h' (Function.update ps val (⟨p, []⟩ :: ps val)) =
        Function.update (dataRows h ps) val (⟨a, []⟩ :: dataRows h ps val) := by
  have hnot := notMem_of_unused hr hfree
  have hbucket : ∀ x, x ≠ p → h'.bucket x = h.bucket x := by
    intro x hx
    simp [hh, State.setSlot, State.setBucket, State.allocate, hx]
  have hne : ∀ j, ∀ x ∈ flat (ps j), x ≠ p := fun j x hx hxp => hnot j (hxp ▸ hx)
  constructor
  · refine hr.update ?_ ?_ ?_ ?_ ?_ ?_
    · have hold := (hr.slot val).congr fun x hx => hbucket x (hne val x hx)
      constructor
      · refine ⟨by simp [hh, State.setSlot], hp, ?_⟩
        have hdiff : h'.diffNext p = h.m_hashTable val := by simp [hh]
        rw [hdiff]
        exact hold.down
      · intro r hrow
        rcases List.mem_cons.mp hrow with rfl | hrow
        · have hsame : h'.sameNext p = nullShmPos := by simp [hh]
          exact ⟨rfl, hp, hsame⟩
        · exact hold.across r hrow
    · simpa [Row.all] using ⟨hnot val, hr.nodup val⟩
    · intro x hx
      rcases List.mem_append.mp hx with hx | hx
      · simp [Row.all] at hx
        simp [hh, hx, State.setSlot, State.setBucket, State.allocate]
      · have hxp := hne val x hx
        simpa [hh, State.setSlot, State.setBucket, State.allocate, hxp] using hr.used val x hx
    · intro x hx
      rcases List.mem_append.mp hx with hx | hx
      · simp [Row.all] at hx
        exact .inr (hx ▸ hfree)
      · exact .inl hx
    · intro j hj
      simp [hh, State.setSlot, State.setBucket, State.allocate, hj]
    · intro j hj x hx
      have hxp := hne j x hx
      exact ⟨hbucket x hxp, by simp [hh, State.setSlot, State.setBucket, State.allocate, hxp]⟩
  · rw [dataRows_update fun j _ x hx => congrArg Bucket.m_data (hbucket x (hne j x hx))]
    have hdata : h'.data = Function.update h.data p a := by simp [hh]
    rw [List.map_cons, hdata, map_data_update (hnot val)]
    simp [Row.map, dataRows]

/-- The rows beside a given one do not share positions with it. -/
theorem notMem_beside {pre post : List (Row ShmPosition)} {r r' : Row ShmPosition}
    (hnodup : (flat (pre ++ r :: post)).Nodup) (hp : p ∈ r.all) (hr' : r' ∈ pre ++ post) :
    p ∉ r'.all := by
  intro hp'
  rw [flat_middle] at hnodup
  obtain ⟨-, hright, hleft⟩ := List.nodup_append.mp hnodup
  rcases List.mem_append.mp hr' with hmem | hmem
  · exact hleft p (mem_flat.mpr ⟨r', hmem, hp'⟩) p (List.mem_append_left _ hp) rfl
  · exact (List.nodup_append.mp hright).2.2 p hp p (mem_flat.mpr ⟨r', hmem, hp'⟩) rfl

/-- No bucket is in its row twice. -/
theorem nodup_row {pre post : List (Row ShmPosition)} {r : Row ShmPosition}
    (hnodup : (flat (pre ++ r :: post)).Nodup) : r.all.Nodup := by
  rw [flat_middle] at hnodup
  exact (List.nodup_append.mp (List.nodup_append.mp hnodup).2.1).1

/-- The slot with a new bucket behind the head of a row. -/
theorem add_slot {start : ShmPosition} {pre post : List (Row ShmPosition)} {r : Row ShmPosition}
    (hslot : SlotLinked h start (pre ++ r :: post)) (hnodup : (flat (pre ++ r :: post)).Nodup)
    (hnot : p ∉ flat (pre ++ r :: post)) (hp : p ≠ nullShmPos)
    (hdiff : h'.diffNext = Function.update h.diffNext p nullShmPos)
    (hsame : h'.sameNext =
      Function.update (Function.update h.sameNext p (h.sameNext r.head)) r.head p) :
    SlotLinked h' start (pre ++ r.insertSecond p :: post) := by
  have hpr : p ≠ r.head := fun hph => hnot (hph ▸ head_mem_flat (by simp))
  constructor
  · have hheads : (pre ++ r.insertSecond p :: post).map (·.head) =
        (pre ++ r :: post).map (·.head) := by simp
    rw [hheads, hdiff]
    refine (path_update ?_).mpr hslot.down
    intro hmem
    obtain ⟨q, hq, hqp⟩ := List.mem_map.mp hmem
    exact hnot (hqp ▸ head_mem_flat hq)
  · have hbeside : ∀ q ∈ pre ++ post, Chain h'.sameNext nullShmPos q.head q.all := by
      intro q hq
      have hqmem : q ∈ pre ++ r :: post := by simp at hq ⊢; tauto
      refine (path_congr fun x hx => ?_).mpr (hslot.across q hqmem)
      have hxp : x ≠ p := fun heq => hnot (heq ▸ mem_flat.mpr ⟨q, hqmem, hx⟩)
      have hxr : x ≠ r.head := by
        rintro rfl
        exact notMem_beside hnodup r.head_mem_all hq hx
      rw [hsame, Function.update_of_ne hxr, Function.update_of_ne hxp]
    have hrow : Chain h'.sameNext nullShmPos r.head (r.insertSecond p).all := by
      obtain ⟨-, hheadNe, htail⟩ := hslot.across r (by simp)
      have htailNot : p ∉ r.tail ∧ r.head ∉ r.tail := by
        refine ⟨fun hx => hnot (mem_flat.mpr ⟨r, by simp, List.mem_cons_of_mem _ hx⟩), ?_⟩
        exact (List.nodup_cons.mp (nodup_row hnodup)).1
      refine ⟨rfl, hheadNe, by simp [hsame], hp, ?_⟩
      have hstep : h'.sameNext p = h.sameNext r.head := by simp [hsame, hpr]
      rw [hstep, hsame]
      exact (path_update htailNot.2).mpr ((path_update htailNot.1).mpr htail)
    intro q hq
    rcases List.mem_append.mp hq with hq | hq
    · exact hbeside q (List.mem_append_left _ hq)
    · rcases List.mem_cons.mp hq with rfl | hq
      · exact hrow
      · exact hbeside q (List.mem_append_right _ hq)

/-- The addresses in a slot with a new bucket. -/
theorem add_data {pre post : List (Row ShmPosition)} {r : Row ShmPosition}
    (hnot : p ∉ flat (pre ++ r :: post)) :
    (pre ++ r.insertSecond p :: post).map (Row.map (Function.update h.data p a)) =
      pre.map (Row.map h.data) ++ (r.map h.data).insertSecond a :: post.map (Row.map h.data) := by
  have hpre : p ∉ flat pre := fun hx => hnot (by rw [flat_middle]; simp [hx])
  have hpost : p ∉ flat post := fun hx => hnot (by rw [flat_middle]; simp [hx])
  have hrow : p ∉ flat [r] := fun hx => hnot (by rw [flat_middle]; simp at hx; simp [hx])
  have hr1 : Row.map (Function.update h.data p a) r = Row.map h.data r :=
    List.head_eq_of_cons_eq (map_data_update hrow)
  have hins : Row.map (Function.update h.data p a) (r.insertSecond p) =
      (Row.map (Function.update h.data p a) r).insertSecond a := by
    simp [Row.map, Row.insertSecond]
  rw [List.map_append, List.map_cons, map_data_update hpre, map_data_update hpost, hins, hr1]

/-- A new bucket behind the head of a row. -/
theorem add_linked (hr : Linked h ps) {val : Nat} {pre post : List (Row ShmPosition)}
    {r : Row ShmPosition} (hrows : ps val = pre ++ r :: post) (hp : p ≠ nullShmPos)
    (hfree : h.used p = false)
    (hh : h' = ((h.allocate p).setBucket p ⟨a, nullShmPos, h.sameNext r.head⟩).setSameNext
      r.head p) :
    Linked h' (Function.update ps val (pre ++ r.insertSecond p :: post)) ∧
      dataRows h' (Function.update ps val (pre ++ r.insertSecond p :: post)) =
        Function.update (dataRows h ps) val (pre.map (Row.map h.data) ++
          (r.map h.data).insertSecond a :: post.map (Row.map h.data)) := by
  have hnot := notMem_of_unused hr hfree
  have hslot := hr.slot val
  have hnodup := hr.nodup val
  have hnotVal := hnot val
  rw [hrows] at hslot hnodup hnotVal
  have hheadMem : r.head ∈ flat (ps val) := by rw [hrows]; exact head_mem_flat (by simp)
  have hbucket : ∀ x, x ≠ p → x ≠ r.head → h'.bucket x = h.bucket x := by
    intro x hx hxr
    simp [hh, State.setSameNext, State.setBucket, State.allocate, hx, hxr]
  have hne : ∀ j, ∀ x ∈ flat (ps j), x ≠ p := fun j x hx hxp => hnot j (hxp ▸ hx)
  have hother : ∀ j, j ≠ val → ∀ x ∈ flat (ps j), x ≠ r.head := by
    rintro j hj x hx rfl
    exact hj (hr.apart j val _ hx hheadMem)
  have husedEq : ∀ x, x ≠ p → h'.used x = h.used x := by
    intro x hx
    simp [hh, State.setSameNext, State.setBucket, State.allocate, hx]
  constructor
  · refine hr.update ?_ ?_ ?_ ?_ ?_ ?_
    · have htable : h'.m_hashTable val = h.m_hashTable val := by rw [hh]; rfl
      rw [htable]
      exact add_slot hslot hnodup hnotVal hp (by simp [hh]) (by simp [hh])
    · exact flat_insertSecond_perm.nodup_iff.mpr (List.nodup_cons.mpr ⟨hnotVal, hnodup⟩)
    · intro x hx
      rcases List.mem_cons.mp (flat_insertSecond_perm.mem_iff.mp hx) with rfl | hx
      · simp [hh, State.setSameNext, State.setBucket, State.allocate]
      · rw [← hrows] at hx
        rw [husedEq x (hne val x hx)]
        exact hr.used val x hx
    · intro x hx
      rcases List.mem_cons.mp (flat_insertSecond_perm.mem_iff.mp hx) with rfl | hx
      · exact .inr hfree
      · exact .inl (hrows ▸ hx)
    · intro j _
      rw [hh]; rfl
    · intro j hj x hx
      exact ⟨hbucket x (hne j x hx) (hother j hj x hx), husedEq x (hne j x hx)⟩
  · have hdata : h'.data = Function.update h.data p a := by simp [hh]
    rw [dataRows_update fun j hj x hx =>
      congrArg Bucket.m_data (hbucket x (hne j x hx) (hother j hj x hx)), hdata, add_data hnotVal]

/-- The rows of positions behind a split of the rows of addresses. -/
theorem split_of_map {l : List (Row ShmPosition)} {pre post : List (Row ShmPosition)}
    {r : Row ShmPosition} (hsplit : l.map (Row.map h.data) = pre ++ r :: post) :
    ∃ pre' r' post', l = pre' ++ r' :: post' ∧ pre'.map (Row.map h.data) = pre ∧
      r'.map h.data = r ∧ post'.map (Row.map h.data) = post := by
  obtain ⟨pre', rest, rfl, hpre, hrest⟩ := List.map_eq_append_iff.mp hsplit
  obtain ⟨r', post', rfl, hr, hpost⟩ := List.map_eq_cons_iff.mp hrest
  exact ⟨pre', r', post', rfl, hpre, hr, hpost⟩

/-- **Insertion.** -/
theorem insert_refines (d : IndexDef) (keyOf : ShmPosition → Key) (key : Key)
    (a : ShmPosition) (hr : Linked h ps) {mem : Option ShmPosition}
    (hmem : ∀ p, mem = some p → p ≠ nullShmPos ∧ h.used p = false) {n : Nat}
    (hn : rounds (ps (slotOf d key)) ≤ n) :
    ∃ result, insert d keyOf h n mem key a = some result ∧
      InsertRefines result
        (IndexRows.insert keyOf (slotOf d) d.m_isUnique mem.isSome (dataRows h ps) key a) := by
  have hs := hr.slot (slotOf d key)
  unfold rounds at hn
  unfold insert IndexRows.insert
  dsimp only
  cases hadd : addToRow keyOf key a (dataRows h ps (slotOf d key)) with
  | none =>
      have hnone : ∀ r ∈ ps (slotOf d key), keyOf (h.data r.head) ≠ key := fun r hrow =>
        addToRow_none.mp hadd (r.map h.data) (List.mem_map_of_mem hrow)
      have hfind : (ps (slotOf d key)).find? (fun r => keyOf (h.data r.head) = key) = none := by
        simpa using hnone
      -- both ways of adding a row write the same bucket: an empty slot holds null
      cases mem with
      | none =>
          split
          · exact ⟨_, rfl, rfl⟩
          · rw [findHead_eq hs (by omega), hfind]
            exact ⟨_, rfl, rfl⟩
      | some p =>
          obtain ⟨hp, hfree⟩ := hmem p rfl
          obtain ⟨hlinked, hdata⟩ := push_linked (a := a) hr hp hfree rfl
          split
          · rename_i hnull
            rw [hnull] at hlinked hdata
            exact ⟨_, rfl, _, hlinked, hdata⟩
          · rw [findHead_eq hs (by omega), hfind]
            exact ⟨_, rfl, _, hlinked, hdata⟩
  | some l =>
      obtain ⟨pre, r, post, hrows, hkey, rfl, hfirst⟩ := addToRow_some hadd
      obtain ⟨pre', r', post', hps, rfl, rfl, rfl⟩ := split_of_map hrows
      have hfind : (ps (slotOf d key)).find? (fun r => keyOf (h.data r.head) = key) = some r' := by
        rw [hps, List.find?_append, List.find?_eq_none.mpr, Option.none_or, List.find?_cons_of_pos]
        · simpa using hkey
        · intro q hq
          simpa using hfirst (q.map h.data) (List.mem_map_of_mem hq)
      have hheadMem : r'.head ∈ (ps (slotOf d key)).map (·.head) := by rw [hps]; simp
      have hheadNe : r'.head ≠ nullShmPos := ne_null_of_mem hs.down hheadMem
      have hstart : h.m_hashTable (slotOf d key) ≠ nullShmPos := by
        intro hnull
        have hdown := hs.down
        rw [hnull] at hdown
        rw [chain_null hdown] at hheadMem
        cases hheadMem
      rw [if_neg hstart, findHead_eq hs (by omega), hfind]
      simp only [Option.map_some, Option.elim_some, if_neg hheadNe]
      cases d.m_isUnique with
      | true => exact ⟨_, rfl, rfl⟩
      | false =>
          cases mem with
          | none => exact ⟨_, rfl, rfl⟩
          | some p =>
              obtain ⟨hp, hfree⟩ := hmem p rfl
              obtain ⟨hlinked, hdata⟩ := add_linked (a := a) hr hps hp hfree rfl
              exact ⟨_, rfl, _, hlinked, hdata⟩

/-! ## Deletion -/

/-- The search in a row finds the first bucket of the record and the one before it. -/
theorem locateInRow_eq {ps : List ShmPosition} (hc : Chain h.sameNext nullShmPos p ps)
    (last : ShmPosition) {n : Nat} (hn : ps.length < n) :
    (a ∉ ps.map h.data → locateInRow h a n last p = some none) ∧
    ∀ t₁ q t₂, ps = t₁ ++ q :: t₂ → h.data q = a → a ∉ t₁.map h.data →
      locateInRow h a n last p = some (some (t₁.getLastD last, q)) := by
  induction ps generalizing p last n with
  | nil =>
      obtain ⟨m, rfl⟩ : ∃ m, n = m + 1 := ⟨n - 1, by simp at hn; omega⟩
      have hnull : p = nullShmPos := hc
      refine ⟨fun _ => by simp [locateInRow, hnull], ?_⟩
      intro t₁ q t₂ hsplit
      simp at hsplit
  | cons x rest ih =>
      obtain ⟨m, rfl⟩ : ∃ m, n = m + 1 := ⟨n - 1, by simp at hn; omega⟩
      obtain ⟨rfl, hne, hrest⟩ := hc
      have hnext := ih hrest p (Nat.lt_of_succ_lt_succ hn)
      unfold locateInRow
      rw [if_neg hne]
      constructor
      · intro hnot
        rw [List.map_cons, List.mem_cons] at hnot
        rw [if_neg (fun hx => hnot (.inl hx.symm))]
        exact hnext.1 fun hx => hnot (.inr hx)
      · intro t₁ q t₂ hsplit hq hnot
        cases t₁ with
        | nil =>
            obtain ⟨rfl, rfl⟩ := List.cons.inj hsplit
            simp [hq]
        | cons y t₁ =>
            obtain ⟨rfl, rfl⟩ := List.cons.inj hsplit
            rw [List.map_cons, List.mem_cons] at hnot
            rw [if_neg (fun hx => hnot (.inl hx.symm)),
              hnext.2 t₁ q t₂ rfl hq fun hx => hnot (.inr hx), List.getLastD_cons]

/-- The row has the key and the address. -/
def Hits (keyOf : ShmPosition → Key) (h : State) (key : Key) (a : ShmPosition)
    (r : Row ShmPosition) : Prop :=
  keyOf (h.data r.head) = key ∧ a ∈ r.all.map h.data

/-- **The search goes row by row** and finds the first row of the key that has the record. -/
theorem locate_eq (keyOf : ShmPosition → Key) (key : Key) (a : ShmPosition)
    (hs : SlotLinked h start l) (last : ShmPosition) {n : Nat} (hn : rounds l ≤ n) :
    ((∀ r ∈ l, ¬ Hits keyOf h key a r) → locate keyOf h key a n last start = some none) ∧
    ∀ pre r post t₁ q t₂, l = pre ++ r :: post → (∀ r' ∈ pre, ¬ Hits keyOf h key a r') →
      keyOf (h.data r.head) = key → r.all = t₁ ++ q :: t₂ → h.data q = a →
      a ∉ t₁.map h.data →
      locate keyOf h key a n last start =
        some (some ⟨(pre.map (·.head)).getLastD last, r.head, t₁.getLastD nullShmPos, q⟩) := by
  induction l generalizing start last n with
  | nil =>
      unfold rounds at hn
      obtain ⟨m, rfl⟩ : ∃ m, n = m + 1 := ⟨n - 1, by omega⟩
      have hnull : start = nullShmPos := hs.down
      refine ⟨fun _ => by simp [locate, hnull], ?_⟩
      intro pre r post t₁ q t₂ hsplit
      simp at hsplit
  | cons r rest ih =>
      unfold rounds at hn
      simp only [List.length_cons, flat_cons, List.length_append] at hn
      obtain ⟨m, rfl⟩ : ∃ m, n = m + 1 := ⟨n - 1, by omega⟩
      obtain ⟨rfl, hne, hdown⟩ := hs.down
      have hrest : SlotLinked h (h.diffNext r.head) rest :=
        ⟨hdown, fun q hq => hs.across q (List.mem_cons_of_mem r hq)⟩
      have hnext := ih hrest r.head (n := m) (by unfold rounds; omega)
      have hlen : r.all.length < m := by omega
      have hrow := locateInRow_eq (a := a) (hs.across r List.mem_cons_self) nullShmPos hlen
      -- a row that does not hit is passed over, whichever way it misses
      have hpass : ¬ Hits keyOf h key a r →
          locate keyOf h key a (m + 1) last r.head =
            locate keyOf h key a m r.head (h.diffNext r.head) := by
        intro hmiss
        rw [locate, if_neg hne]
        split
        · rename_i hkey
          rw [hrow.1 fun hmem => hmiss ⟨hkey, hmem⟩, Option.bind_some]
        · rfl
      constructor
      · intro hnone
        rw [hpass (hnone r List.mem_cons_self)]
        exact hnext.1 fun q hq => hnone q (List.mem_cons_of_mem r hq)
      · intro pre r' post t₁ q t₂ hsplit hfirst hkey hall hq hnot
        cases pre with
        | nil =>
            obtain ⟨rfl, rfl⟩ := List.cons.inj hsplit
            rw [locate, if_neg hne, if_pos hkey, hrow.2 t₁ q t₂ hall hq hnot, Option.bind_some]
            rfl
        | cons y pre =>
            obtain ⟨rfl, rfl⟩ := List.cons.inj hsplit
            rw [hpass (hfirst r List.mem_cons_self),
              hnext.2 pre r' post t₁ q t₂ rfl (fun z hz => hfirst z (List.mem_cons_of_mem r hz))
                hkey hall hq hnot, List.map_cons, List.getLastD_cons]

/-- Where the vertical list goes when a row is taken out or gets a new head:
`x` is the position that the row before it, or the slot, must link to. -/
theorem down_split {pre post : List (Row ShmPosition)} {r : Row ShmPosition}
    (hs : SlotLinked h start (pre ++ r :: post)) :
    Path h.diffNext nullShmPos start (pre.map (·.head)) r.head ∧
      Chain h.diffNext nullShmPos (h.diffNext r.head) (post.map (·.head)) := by
  have hdown := hs.down
  rw [List.map_append, List.map_cons] at hdown
  obtain ⟨m, hpre, rfl, -, hpost⟩ := path_append.mp hdown
  exact ⟨hpre, hpost⟩

/-- The slot after the head of a row has been taken out, whatever is done to the
link before it: `down` is the new link function and `x` the new start. -/
theorem headless_down {pre post : List (Row ShmPosition)} {r : Row ShmPosition}
    {t₂ : List ShmPosition} {down : ShmPosition → ShmPosition} {x : ShmPosition}
    (hs : SlotLinked h start (pre ++ r :: post)) (hall : r.all = r.head :: t₂)
    (hpre : Path down nullShmPos x (pre.map (·.head)) (t₂.headD (h.diffNext r.head)))
    (hnew : ∀ t, t₂.head? = some t → down t = h.diffNext r.head)
    (hpost : ∀ r' ∈ post, down r'.head = h.diffNext r'.head) :
    Chain down nullShmPos x
      ((pre ++ (Row.ofList t₂).toList ++ post).map (·.head)) := by
  have hrest : Chain down nullShmPos (h.diffNext r.head) (post.map (·.head)) := by
    refine (path_congr fun y hy => ?_).mpr (down_split hs).2
    obtain ⟨r', hr', rfl⟩ := List.mem_map.mp hy
    exact hpost r' hr'
  rw [List.map_append, List.map_append, List.append_assoc]
  refine path_append.mpr ⟨_, hpre, ?_⟩
  cases t₂ with
  | nil => exact hrest
  | cons t ts =>
      have hacross := hs.across r (by simp)
      rw [hall] at hacross
      refine ⟨rfl, hacross.2.2.2.1, ?_⟩
      rw [hnew t rfl]
      exact hrest

/-- What relinking one slot may do: it links the slot as `l'`, touches buckets of
the slot only and never the record addresses or the allocation. -/
structure Relinked (h h' : State) (val : Nat) (l l' : List (Row ShmPosition)) : Prop where
  slot : SlotLinked h' (h'.m_hashTable val) l'
  table : ∀ j, j ≠ val → h'.m_hashTable j = h.m_hashTable j
  frame : ∀ x, x ∉ flat l → h'.bucket x = h.bucket x
  used : h'.used = h.used
  data : h'.data = h.data

/-- A row loses its head: the slot is linked again once the vertical links are
right, because the horizontal ones stay. -/
theorem headless_slot {pre post : List (Row ShmPosition)} {r : Row ShmPosition}
    {t₂ : List ShmPosition} (hs : SlotLinked h start (pre ++ r :: post))
    (hall : r.all = r.head :: t₂) (hsame : h'.sameNext = h.sameNext)
    (hdown : Chain h'.diffNext nullShmPos p ((pre ++ (Row.ofList t₂).toList ++ post).map (·.head))) :
    SlotLinked h' p (pre ++ (Row.ofList t₂).toList ++ post) := by
  refine ⟨hdown, fun q hq => ?_⟩
  rw [hsame]
  rcases List.mem_append.mp hq with hq | hq
  · rcases List.mem_append.mp hq with hq | hq
    · exact hs.across q (by simp [hq])
    · have hacross := hs.across r (by simp)
      rw [hall] at hacross
      cases t₂ with
      | nil => cases hq
      | cons t ts =>
          obtain rfl : q = ⟨t, ts⟩ := by simpa [Row.ofList] using hq
          obtain ⟨-, -, hstep, htail⟩ := hacross
          exact ⟨rfl, htail⟩
  · exact hs.across q (by simp [hq])

/-- The follower that becomes the head of its row is a bucket of this row only. -/
theorem follower_apart {pre post : List (Row ShmPosition)} {r : Row ShmPosition} {t : ShmPosition}
    {ts : List ShmPosition} (hnodup : (flat (pre ++ r :: post)).Nodup)
    (hall : r.all = r.head :: t :: ts) :
    t ∈ flat (pre ++ r :: post) ∧ ∀ r' ∈ pre ++ post, r'.head ≠ t := by
  have htmem : t ∈ r.all := by rw [hall]; simp
  refine ⟨mem_flat.mpr ⟨r, by simp, htmem⟩, ?_⟩
  rintro r' hr' rfl
  exact notMem_beside hnodup htmem hr' r'.head_mem_all

/-- The head of the first row is taken out. -/
theorem first_relinked {val : Nat} {post : List (Row ShmPosition)} {r : Row ShmPosition}
    {t₂ : List ShmPosition} (hs : SlotLinked h (h.m_hashTable val) (r :: post))
    (hnodup : (flat (r :: post)).Nodup) (hall : r.all = r.head :: t₂) :
    Relinked h (relink h val ⟨nullShmPos, r.head, nullShmPos, r.head⟩) val (r :: post)
      ((Row.ofList t₂).toList ++ post) := by
  -- with no row in front
  have hs' : SlotLinked h (h.m_hashTable val) ([] ++ r :: post) := hs
  have hnodup' : (flat ([] ++ r :: post)).Nodup := hnodup
  have hacross := hs.across r (by simp)
  rw [hall] at hacross
  unfold relink
  simp only [true_or, if_true]
  cases t₂ with
  | nil =>
      have hnext : h.sameNext r.head = nullShmPos := hacross.2.2
      simp only [hnext, and_self, if_true]
      refine ⟨headless_slot hs' hall rfl ?_, ?_, fun _ _ => rfl, rfl, rfl⟩
      · refine headless_down hs' hall ?_ (by simp) fun _ _ => rfl
        simp [State.setSlot]
      · intro j hj
        simp [State.setSlot, hj]
  | cons t ts =>
      obtain ⟨-, -, hnext, htne, -⟩ := hacross
      obtain ⟨htflat, hbeside⟩ := follower_apart hnodup' hall
      simp only [hnext, htne, and_false, if_false]
      refine ⟨headless_slot hs' hall (by simp) ?_, ?_, ?_, rfl, by simp⟩
      · refine headless_down hs' hall ?_ ?_ ?_
        · simp [State.setDiffNext, State.setBucket, State.setSlot]
        · intro t' ht'
          obtain rfl : t = t' := by simpa using ht'
          simp
        · intro r' hr'
          have hne := hbeside r' (by simpa using hr')
          simp [hne]
      · intro j hj
        simp [State.setDiffNext, State.setBucket, State.setSlot, hj]
      · intro x hx
        exact setDiffNext_bucket _ fun hxt => hx (hxt ▸ htflat)

/-- The head of a later row is taken out; the row before it is `r₀`. -/
theorem later_relinked {val : Nat} {pre post : List (Row ShmPosition)} {r₀ r : Row ShmPosition}
    {t₂ : List ShmPosition} (hs : SlotLinked h (h.m_hashTable val) (pre.concat r₀ ++ r :: post))
    (hnodup : (flat (pre.concat r₀ ++ r :: post)).Nodup) (hall : r.all = r.head :: t₂) :
    Relinked h (relink h val ⟨r₀.head, r.head, nullShmPos, r.head⟩) val
      (pre.concat r₀ ++ r :: post) (pre.concat r₀ ++ (Row.ofList t₂).toList ++ post) := by
  have hacross := hs.across r (by simp)
  rw [hall] at hacross
  have hr₀ : r₀ ∈ pre.concat r₀ ++ r :: post := by simp
  have hr₀ne : r₀.head ≠ nullShmPos :=
    ne_null_of_mem hs.down (List.mem_map_of_mem hr₀)
  have hnodup₀ : (flat (pre ++ r₀ :: r :: post)).Nodup := by simpa using hnodup
  have hr₀not : ∀ r' ∈ pre ++ r :: post, r'.head ≠ r₀.head := by
    intro r' hr' heq
    exact notMem_beside hnodup₀ r₀.head_mem_all hr' (heq ▸ r'.head_mem_all)
  have hpath : ∀ v, Path (Function.update h.diffNext r₀.head v) nullShmPos
      (h.m_hashTable val) ((pre.concat r₀).map (·.head)) v := by
    intro v
    have hpre := (down_split hs).1
    rw [List.concat_eq_append, List.map_append, List.map_singleton] at hpre ⊢
    refine path_relink hpre fun hmem => ?_
    obtain ⟨r', hr', heq⟩ := List.mem_map.mp hmem
    exact hr₀not r' (List.mem_append_left _ hr') heq
  unfold relink
  simp only [true_or, if_true]
  cases t₂ with
  | nil =>
      have hnext : h.sameNext r.head = nullShmPos := hacross.2.2
      simp only [hr₀ne, hnext, false_and, if_true, if_false]
      refine ⟨headless_slot hs hall (by simp) ?_, fun _ _ => rfl, ?_, rfl, by simp⟩
      · refine headless_down hs hall ?_ (by simp) ?_
        · rw [setDiffNext_diffNext]
          exact hpath (h.diffNext r.head)
        · intro r' hr'
          simp [hr₀not r' (by simp [hr'])]
      · intro x hx
        exact setDiffNext_bucket _ fun hxt => hx (hxt ▸ head_mem_flat hr₀)
  | cons t ts =>
      obtain ⟨-, -, hnext, htne, -⟩ := hacross
      obtain ⟨htflat, hbeside⟩ := follower_apart hnodup hall
      simp only [hr₀ne, hnext, htne, false_and, if_false]
      have hrr₀ : r.head ≠ r₀.head := hr₀not r (by simp)
      have hdiff : (h.setDiffNext r₀.head t).diffNext r.head = h.diffNext r.head := by
        simp [hrr₀]
      rw [hdiff]
      refine ⟨headless_slot hs hall (by simp) ?_, fun _ _ => rfl, ?_, rfl, by simp⟩
      · refine headless_down hs hall ?_ ?_ ?_
        · rw [setDiffNext_diffNext, setDiffNext_diffNext]
          refine (path_update ?_).mpr (hpath t)
          intro hmem
          obtain ⟨r', hr', hrt⟩ := List.mem_map.mp hmem
          exact hbeside r' (by simp at hr' ⊢; tauto) hrt
        · intro t' ht'
          obtain rfl : t = t' := by simpa using ht'
          simp
        · intro r' hr'
          have hne := hbeside r' (by simp [hr'])
          simp [hne, hr₀not r' (by simp [hr'])]
      · intro x hx
        have hxt : x ≠ t := fun heq => hx (heq ▸ htflat)
        have hxr₀ : x ≠ r₀.head := fun heq => hx (heq ▸ head_mem_flat hr₀)
        rw [setDiffNext_bucket _ hxt, setDiffNext_bucket _ hxr₀]

/-- The head of a row is taken out. -/
theorem head_relinked {val : Nat} {pre post : List (Row ShmPosition)} {r : Row ShmPosition}
    {t₂ : List ShmPosition} (hs : SlotLinked h (h.m_hashTable val) (pre ++ r :: post))
    (hnodup : (flat (pre ++ r :: post)).Nodup) (hall : r.all = r.head :: t₂) :
    Relinked h
      (relink h val ⟨(pre.map (·.head)).getLastD nullShmPos, r.head, nullShmPos, r.head⟩) val
      (pre ++ r :: post) (pre ++ (Row.ofList t₂).toList ++ post) := by
  rcases List.eq_nil_or_concat pre with rfl | ⟨pre', r₀, rfl⟩
  · exact first_relinked hs hnodup hall
  · have hlast : (((pre'.concat r₀).map (·.head)).getLastD nullShmPos) = r₀.head := by
      rw [List.concat_eq_append, List.map_append, List.map_singleton, List.getLastD_concat]
    rw [hlast]
    exact later_relinked hs hnodup hall

/-- An inner bucket is taken out of its row. -/
theorem inner_relinked {val : Nat} {pre post : List (Row ShmPosition)} {r : Row ShmPosition}
    {t : List ShmPosition} {x q : ShmPosition} {t₂ : List ShmPosition} {pLast : ShmPosition}
    (hs : SlotLinked h (h.m_hashTable val) (pre ++ r :: post))
    (hnodup : (flat (pre ++ r :: post)).Nodup) (hall : r.all = (t ++ [x]) ++ q :: t₂) :
    Relinked h (relink h val ⟨pLast, r.head, x, q⟩) val
      (pre ++ r :: post) (pre ++ (Row.ofList ((t ++ [x]) ++ t₂)).toList ++ post) := by
  have hacross := hs.across r (by simp)
  have hrow := nodup_row hnodup
  rw [hall] at hacross hrow
  have hxmem : x ∈ r.all := by rw [hall]; simp
  have hxflat : x ∈ flat (pre ++ r :: post) := mem_flat.mpr ⟨r, by simp, hxmem⟩
  have hxne : x ≠ nullShmPos := ne_null_of_mem hacross (by simp)
  obtain ⟨r', hof, hheadEq⟩ : ∃ r', Row.ofList ((t ++ [x]) ++ t₂) = some r' ∧ r'.head = r.head := by
    cases t with
    | nil =>
        exact ⟨_, rfl, (List.cons.inj hall).1.symm⟩
    | cons y t => exact ⟨_, rfl, (List.cons.inj hall).1.symm⟩
  have hheadMem : r.head ∈ t ++ [x] := by
    cases t with
    | nil => rw [(List.cons.inj hall).1]; simp
    | cons y t => rw [(List.cons.inj hall).1]; simp
  have hheadq : r.head ≠ q := by
    rintro rfl
    exact (List.nodup_append.mp hrow).2.2 _ hheadMem _ List.mem_cons_self rfl
  have hrelink : relink h val ⟨pLast, r.head, x, q⟩ = h.setSameNext x (h.sameNext q) := by
    simp [relink, hxne, hheadq]
  rw [hrelink, hof]
  refine ⟨⟨?_, ?_⟩, fun _ _ => rfl, ?_, rfl, by simp⟩
  · have hheads : (pre ++ (some r').toList ++ post).map (·.head) =
        (pre ++ r :: post).map (·.head) := by simp [hheadEq]
    rw [hheads, setSameNext_diffNext]
    exact hs.down
  · intro q' hq'
    rw [setSameNext_sameNext]
    have hcase : q' = r' ∨ q' ∈ pre ++ post := by simp at hq' ⊢; tauto
    rcases hcase with rfl | hbeside
    · rw [Row.ofList_all hof, hheadEq]
      obtain ⟨m, hleft, hright⟩ := path_append.mp hacross
      obtain ⟨rfl, -, htail⟩ := hright
      have hx : x ∉ t ∧ x ∉ t₂ := by
        simp only [List.nodup_append, List.mem_append, List.mem_cons] at hrow
        grind
      refine path_append.mpr ⟨_, path_relink hleft hx.1, ?_⟩
      exact (path_update hx.2).mpr htail
    · refine (path_update (notMem_beside hnodup hxmem hbeside)).mpr ?_
      exact hs.across q' (by simp at hbeside ⊢; tauto)
  · intro y hy
    exact setSameNext_bucket _ fun heq => hy (heq ▸ hxflat)

/-- **Relinking.**  The cases of `deleteIdx` together. -/
theorem relink_spec {val : Nat} {pre post : List (Row ShmPosition)} {r : Row ShmPosition}
    {t₁ t₂ : List ShmPosition} (hs : SlotLinked h (h.m_hashTable val) (pre ++ r :: post))
    (hnodup : (flat (pre ++ r :: post)).Nodup) (hall : r.all = t₁ ++ q :: t₂) :
    Relinked h
      (relink h val ⟨(pre.map (·.head)).getLastD nullShmPos, r.head, t₁.getLastD nullShmPos, q⟩)
      val (pre ++ r :: post) (pre ++ (Row.ofList (t₁ ++ t₂)).toList ++ post) := by
  rcases List.eq_nil_or_concat t₁ with rfl | ⟨t, x, rfl⟩
  · obtain ⟨rfl, -⟩ := List.cons.inj hall
    exact head_relinked hs hnodup hall
  · rw [List.concat_eq_append] at hall ⊢
    rw [List.getLastD_concat]
    exact inner_relinked hs hnodup hall

/-- A slot that has lost one bucket, once the bucket is freed. -/
theorem Linked.remove (hr : Linked h ps) {val : Nat} {pre post : List (Row ShmPosition)}
    {r : Row ShmPosition} {t₁ t₂ : List ShmPosition} (hrows : ps val = pre ++ r :: post)
    (hall : r.all = t₁ ++ q :: t₂)
    (hre : Relinked h h' val (pre ++ r :: post) (pre ++ (Row.ofList (t₁ ++ t₂)).toList ++ post)) :
    Linked (h'.free q) (Function.update ps val (pre ++ (Row.ofList (t₁ ++ t₂)).toList ++ post)) := by
  have hnodup := hr.nodup val
  rw [hrows, flat_middle, hall] at hnodup
  have hflat : flat (pre ++ (Row.ofList (t₁ ++ t₂)).toList ++ post) =
      flat pre ++ ((t₁ ++ t₂) ++ flat post) := by
    rw [flat_append, flat_append, flat_ofList, List.append_assoc]
  have hold : flat (ps val) = flat pre ++ ((t₁ ++ q :: t₂) ++ flat post) := by
    rw [hrows, flat_middle, hall]
  have hsub : (flat pre ++ ((t₁ ++ t₂) ++ flat post)).Sublist
      (flat pre ++ ((t₁ ++ q :: t₂) ++ flat post)) := by
    refine List.Sublist.append_left (List.Sublist.append_right ?_ _) _
    exact List.Sublist.append_left (List.sublist_cons_self q t₂) _
  have hqflat : q ∈ flat (ps val) := by rw [hold]; simp
  have hqnot : q ∉ flat pre ++ ((t₁ ++ t₂) ++ flat post) := by
    simp only [List.nodup_append, List.nodup_cons, List.mem_append, List.mem_cons] at hnodup ⊢
    grind
  refine hr.update ?_ ?_ ?_ ?_ ?_ ?_
  · exact hre.slot.congr fun _ _ => rfl
  · rw [hflat]; exact hnodup.sublist hsub
  · intro x hx
    rw [hflat] at hx
    have hxq : x ≠ q := fun heq => hqnot (heq ▸ hx)
    have hxold : x ∈ flat (ps val) := by rw [hold]; exact hsub.subset hx
    simpa [State.free, hxq, hre.used] using hr.used val x hxold
  · intro x hx
    rw [hflat] at hx
    exact .inl (by rw [hold]; exact hsub.subset hx)
  · exact hre.table
  · intro j hj x hx
    have hxnot : x ∉ flat (ps val) := fun hxv => hj (hr.apart j val x hx hxv)
    have hxq : x ≠ q := fun heq => hxnot (heq ▸ hqflat)
    refine ⟨hre.frame x (by rwa [hrows] at hxnot), ?_⟩
    simp [State.free, hxq, hre.used]

/-- **Deletion.** -/
theorem deleteIdx_refines (d : IndexDef) (keyOf : ShmPosition → Key) (key : Key)
    (a : ShmPosition) (hr : Linked h ps) {n : Nat} (hn : rounds (ps (slotOf d key)) ≤ n) :
    ∃ h' ps', deleteIdx d keyOf h n key a =
        some ((IndexRows.deleteIdx keyOf (slotOf d) (dataRows h ps) key a).1, h') ∧
      Linked h' ps' ∧
      dataRows h' ps' = (IndexRows.deleteIdx keyOf (slotOf d) (dataRows h ps) key a).2 := by
  have hs := hr.slot (slotOf d key)
  have hloc := locate_eq keyOf key a hs nullShmPos hn
  unfold deleteIdx IndexRows.deleteIdx
  dsimp only
  cases hrem : removeFrom keyOf key a (dataRows h ps (slotOf d key)) with
  | none =>
      have hnone : ∀ r ∈ ps (slotOf d key), ¬ Hits keyOf h key a r := fun r hrow hhit =>
        removeFrom_none.mp hrem (r.map h.data) (List.mem_map_of_mem hrow) hhit.1 hhit.2
      refine ⟨h, ps, ?_, hr, rfl⟩
      split
      · rfl
      · rw [hloc.1 hnone]; rfl
  | some l =>
      obtain ⟨pre, r, post, hrows, hkey, hmem, rfl, hfirst⟩ := removeFrom_some hrem
      obtain ⟨pre', r', post', hps, rfl, rfl, rfl⟩ := split_of_map hrows
      obtain ⟨l₁, l₂, hsplit, hnot⟩ := List.eq_append_cons_of_mem hmem
      rw [Row.map_all] at hsplit
      obtain ⟨t₁, rest, hall, rfl, hrest⟩ := List.map_eq_append_iff.mp hsplit
      obtain ⟨q, t₂, rfl, hq, rfl⟩ := List.map_eq_cons_iff.mp hrest
      have hnodup := hr.nodup (slotOf d key)
      rw [hps] at hs hnodup
      have hre := relink_spec hs hnodup hall
      have hstart : h.m_hashTable (slotOf d key) ≠ nullShmPos := by
        intro hnull
        have hdown := hs.down
        rw [hnull] at hdown
        simpa using chain_null hdown
      rw [if_neg hstart, hloc.2 pre' r' post' t₁ q t₂ hps
        (fun z hz hhit => hfirst (z.map h.data) (List.mem_map_of_mem hz) hhit) hkey hall hq hnot]
      refine ⟨_, _, rfl, hr.remove hps hall hre, ?_⟩
      have herase : (r'.map h.data).all.erase a = (t₁ ++ t₂).map h.data := by
        rw [Row.map_all, hsplit, List.erase_append_right _ hnot, List.erase_cons_head, List.map_append]
      rw [dataRows_update (h := h) fun j _ x _ => by rw [free_data, hre.data], free_data, hre.data,
        herase, List.map_append, List.map_append]
      congr 3
      cases t₁ ++ t₂ <;> rfl

end IndexHash
