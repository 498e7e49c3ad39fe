import Boss.IndexMemMgrRelease
import Boss.ListManagerDistinct
import Boss.TableDescript
import Mathlib.Data.List.Perm.Subperm

/-!
# What a drop does to the memory

The memory has four parts: the table descriptors, the index descriptors, the pages and the
segments.  `Change` says what a drop does to each of them: which descriptors are gone, whose
pages went back, which segments are not used any more; everything else is what it was.
Changes compose, and every function of the drop has a lemma that says what change it is.

Main results: `Ordered.deleteTableDesc`, `TableDesc.deleteIndex_eq` and `Holding.dropIndex`.
-/

namespace TableDescript

open LinkedChain MemManager SortedSlice

variable {env : Setup} {s s' s'' : Mdb} {p q t n x y : Nat} {d : Descript} {name : Name}

/-! ## The parts of the memory -/

/-- The used nodes of the table descriptors. -/
abbrev tableNodes (env : Setup) (s : Mdb) : List Nat :=
  ListManager.usedNodes env.m_tbDescMgr s.m_tbDescMgr

/-- The used nodes of the index descriptors. -/
abbrev indexNodes (env : Setup) (s : Mdb) : List Nat :=
  ListManager.usedNodes env.m_idxDescMgr s.m_idxDescMgr

/-- The pages of a descriptor, or the free pages of a space. -/
def pagesOf (env : Setup) (s : Mdb) (line : Line Descript) : List ShmPosition :=
  walk s.m_tableMemMgr.next nullShmPos (allPages env.m_tableMemMgr).length
    (s.m_tableMemMgr.firstPage line)

/-- The used segments of the index space. -/
def usedSegs (env : Setup) (s : Mdb) : List Nat :=
  IndexMemMgr.idleSegs s.m_indexMemMgr env.m_indexMemMgr.m_size s.m_indexMemMgr.m_fUsedSeg

/-- **The memory is in order.** -/
structure Ordered (env : Setup) (s : Mdb) : Prop where
  tables : ListManager.Kept TableDesc.key env.m_tbDescMgr s.m_tbDescMgr
  indexes : ListManager.Kept IndexDesc.key env.m_idxDescMgr s.m_idxDescMgr
  pages : ∃ L, Sound env.m_tableMemMgr s.m_tableMemMgr L ∧ ∀ p d, L.owner p ≠ .batch d
  segs : ∃ layout used idle,
    IndexMemMgr.Layout env.m_indexMemMgr s.m_indexMemMgr layout used idle

/-- Every page of a space is among all pages. -/
theorem mem_allPages {cfg : Config Descript} {p : ShmPosition} {sp : TableSpace}
    (h : IsPage cfg p sp) : p ∈ allPages cfg := by
  obtain ⟨hspace, k, hk, hoff⟩ := h
  obtain ⟨hmem, hcode⟩ := spaceByCode_some hspace
  refine List.mem_flatMap.mpr ⟨sp, hmem, List.mem_map.mpr ⟨k, List.mem_range.mpr hk, ?_⟩⟩
  rw [hcode, ← hoff]

/-- No line has more pages than there are. -/
theorem length_lines_le {cfg : Config Descript} {m : State Descript} {L : Layout Descript}
    (h : Sound cfg m L) (line : Line Descript) : (L.lines line).length ≤ (allPages cfg).length := by
  refine ((h.inv.lines.nodup line).subperm fun p hp => ?_).length_le
  have hpage : L.owner p ≠ .other := by
    cases line with
    | desc d =>
        rw [(h.inv.own.desc_iff d p).mp hp]
        simp
    | free code =>
        rw [((h.inv.own.free_iff code p).mp hp).1]
        simp
  obtain ⟨sp, hsp⟩ := h.inv.own.isPage p hpage
  exact mem_allPages hsp

/-- The pages of a list are those of the layout. -/
theorem pagesOf_eq {L : Layout Descript} (h : Sound env.m_tableMemMgr s.m_tableMemMgr L)
    (line : Line Descript) : pagesOf env s line = L.lines line :=
  walk_eq (h.inv.lines.queue line).1 (length_lines_le h line)

/-- The used segments are those of the layout. -/
theorem usedSegs_eq {layout used idle : List Nat}
    (h : IndexMemMgr.Layout env.m_indexMemMgr s.m_indexMemMgr layout used idle) :
    usedSegs env s = used := by
  refine IndexMemMgr.idleSegs_eq h.lists.usedList.forward ?_
  have := h.tiled.length_le
  have hlength := h.parts.length_eq
  simp only [List.length_append] at hlength
  omega

/-! ## Changes -/

/-- The entries of the arrays of a table: a position and a name without regard to case. -/
def TableDesc.entries (d : TableDesc) : List (Nat × List Char) :=
  slice (fun i => (d.m_indexPosList i, nameKey (d.m_indexNameList i))) d.m_indexNum

/-- **What a drop does**: the tables `ts` and the indexes `xs` are gone, the pages of `ds` are
free, the segments `ps` are not used any more.  Only the arrays of the table `t` and the
indexes `xs` were written. -/
structure Change (env : Setup) (t : Nat) (s s' : Mdb) (ds : List Descript) (ts xs ps : List Nat) :
    Prop where
  ordered : Ordered env s'
  tables : ∀ p, p ∈ tableNodes env s' ↔ p ∈ tableNodes env s ∧ p ∉ ts
  tableName : ∀ p, (s'.table p).m_tableName = (s.table p).m_tableName
  entries : ∀ p ≠ t, (s'.table p).entries = (s.table p).entries
  indexes : ∀ p, p ∈ indexNodes env s' ↔ p ∈ indexNodes env s ∧ p ∉ xs
  index : ∀ x, x ∉ xs → s'.index x = s.index x
  owned : ∀ d p, p ∈ pagesOf env s' (.desc d) ↔ p ∈ pagesOf env s (.desc d) ∧ d ∉ ds
  free : ∀ p, p ∈ pagesOf env s' (.free p.m_spaceCode) ↔
    p ∈ pagesOf env s (.free p.m_spaceCode) ∨ ∃ d ∈ ds, p ∈ pagesOf env s (.desc d)
  segs : ∀ p, p ∈ usedSegs env s' ↔ p ∈ usedSegs env s ∧ p ∉ ps
  sizes : ∀ p ∈ usedSegs env s', IndexMemMgr.sizes s'.m_indexMemMgr p =
    IndexMemMgr.sizes s.m_indexMemMgr p

/-- Nothing changed is a change. -/
theorem Change.refl (h : Ordered env s) (t : Nat) : Change env t s s [] [] [] [] where
  ordered := h
  tables := by simp
  tableName _ := rfl
  entries _ _ := rfl
  indexes := by simp
  index _ _ := rfl
  owned := by simp
  free := by simp
  segs := by simp
  sizes _ _ := rfl

/-- **Changes compose.** -/
theorem Change.trans {ds ds' : List Descript} {ts ts' xs xs' ps ps' : List Nat}
    (h : Change env t s s' ds ts xs ps) (h' : Change env t s' s'' ds' ts' xs' ps') :
    Change env t s s'' (ds ++ ds') (ts ++ ts') (xs ++ xs') (ps ++ ps') where
  ordered := h'.ordered
  tables p := by
    rw [h'.tables, h.tables, List.mem_append]
    tauto
  tableName p := (h'.tableName p).trans (h.tableName p)
  entries p hp := (h'.entries p hp).trans (h.entries p hp)
  indexes p := by
    rw [h'.indexes, h.indexes, List.mem_append]
    tauto
  index x hx := by
    rw [List.mem_append, not_or] at hx
    exact (h'.index x hx.2).trans (h.index x hx.1)
  owned d p := by
    rw [h'.owned, h.owned, List.mem_append]
    tauto
  free p := by
    rw [h'.free, h.free]
    simp only [List.mem_append, h.owned]
    constructor
    · rintro ((hfree | ⟨d, hd, hp⟩) | ⟨d, hd, hp, -⟩)
      · exact .inl hfree
      · exact .inr ⟨d, .inl hd, hp⟩
      · exact .inr ⟨d, .inr hd, hp⟩
    · rintro (hfree | ⟨d, hd | hd, hp⟩)
      · exact .inl (.inl hfree)
      · exact .inl (.inr ⟨d, hd, hp⟩)
      · by_cases hin : d ∈ ds
        · exact .inl (.inr ⟨d, hin, hp⟩)
        · exact .inr ⟨d, hd, hp, hin⟩
  segs p := by
    rw [h'.segs, h.segs, List.mem_append]
    tauto
  sizes p hp := (h'.sizes p hp).trans (h.sizes p ((h'.segs p).mp hp).1)

/-! ## Descriptors by name -/

/-- A table is found by its name exactly when it is listed. -/
theorem Ordered.getTableDescByName_ok (h : Ordered env s) :
    getTableDescByName s name = .ok p ↔ p ∈ tableNodes env s ∧ (s.table p).key = nameKey name := by
  have hget := h.tables.getElement_eq_some (e := ⟨name, 0, fun _ => 0, fun _ => [], 0⟩) (p := p)
  refine Iff.trans ?_ hget
  unfold getTableDescByName
  cases ListManager.getElement TableDesc.key s.m_tbDescMgr ⟨name, 0, fun _ => 0, fun _ => [], 0⟩ with
  | none => simp
  | some q => simp

/-- An index is found by its name exactly when it is listed. -/
theorem Ordered.getIndexDescByName_ok (h : Ordered env s) :
    getIndexDescByName s name = .ok p ↔ p ∈ indexNodes env s ∧ (s.index p).key = nameKey name := by
  have hget := h.indexes.getElement_eq_some (e := ⟨name, .HASH_INDEX, [], nullShmPos⟩) (p := p)
  refine Iff.trans ?_ hget
  unfold getIndexDescByName
  cases ListManager.getElement IndexDesc.key s.m_idxDescMgr ⟨name, .HASH_INDEX, [], nullShmPos⟩ with
  | none => simp
  | some q => simp

/-- There is no descriptor of that name. -/
theorem getTableDescByName_error :
    getTableDescByName s name = .error .noTable ↔ ∀ p, getTableDescByName s name ≠ .ok p := by
  unfold getTableDescByName
  cases ListManager.getElement TableDesc.key s.m_tbDescMgr ⟨name, 0, fun _ => 0, fun _ => [], 0⟩ with
  | none => simp
  | some q => simp

/-- An index is missing when the search gives no place. -/
theorem getIndexDescByName_error :
    getIndexDescByName s name = .error .noIndex ↔ ∀ p, getIndexDescByName s name ≠ .ok p := by
  unfold getIndexDescByName
  cases ListManager.getElement IndexDesc.key s.m_idxDescMgr ⟨name, .HASH_INDEX, [], nullShmPos⟩ with
  | none => simp
  | some q => simp

/-! ## Changes of one part -/

/-- Another number of records. -/
theorem Ordered.setRecordNum (h : Ordered env s) (t p v : Nat) :
    Change env t s (s.setTable p { s.table p with m_recordNum := v }) [] [] [] [] := by
  obtain ⟨hkept, hused⟩ := h.tables.setVaue (p := p) (e := { s.table p with m_recordNum := v }) rfl
  have htable : ∀ q, (s.setTable p { s.table p with m_recordNum := v }).table q =
      if q = p then { s.table p with m_recordNum := v } else s.table q := by
    intro q
    by_cases hq : q = p
    · simp [Mdb.table, Mdb.setTable, hq]
    · simp [Mdb.table, Mdb.setTable, hq]
  refine ⟨⟨hkept, h.indexes, h.pages, h.segs⟩, ?_, fun q => ?_, fun q _ => ?_, by simp [indexNodes,
    Mdb.setTable], fun _ _ => rfl, by simp [pagesOf, Mdb.setTable], by simp [pagesOf, Mdb.setTable],
    by simp [usedSegs, Mdb.setTable], fun _ _ => rfl⟩
  · intro q
    rw [tableNodes, tableNodes, Mdb.setTable, hused]
    simp
  · rw [htable]
    by_cases hq : q = p
    · rw [if_pos hq, hq]
    · rw [if_neg hq]
  · rw [htable]
    by_cases hq : q = p
    · rw [if_pos hq, hq]
      rfl
    · rw [if_neg hq]

/-- **The pages of a descriptor go back.** -/
theorem Ordered.freePages (h : Ordered env s) (t : Nat) (d : Descript) :
    ∃ s', freePages env s d = .ok s' ∧ Change env t s s' [d] [] [] [] ∧
      s' = { s with m_tableMemMgr := s'.m_tableMemMgr } := by
  obtain ⟨L, hsound, hnone⟩ := h.pages
  obtain ⟨m, L', htruncate, hsound', howner, -, -⟩ :=
    hsound.truncatePages hnone d (length_lines_le hsound (.desc d))
  have hnone' : ∀ p e, L'.owner p ≠ .batch e := by
    intro p e
    rw [howner]
    split
    · simp
    · exact hnone p e
  let s' : Mdb := { s with m_tableMemMgr := m }
  have hpages' := fun line => @pagesOf_eq env s' L' hsound' line
  refine ⟨s', ?_, ⟨⟨h.tables, h.indexes, ⟨L', hsound', hnone'⟩, h.segs⟩, by simp [tableNodes, s'],
    fun _ => rfl, fun _ _ => rfl, by simp [indexNodes, s'], fun _ _ => rfl, fun e p => ?_, fun p => ?_,
    by simp [usedSegs, s'], fun _ _ => rfl⟩, rfl⟩
  · unfold TableDescript.freePages
    rw [htruncate]
  · rw [hpages', pagesOf_eq hsound, hsound'.inv.own.desc_iff, hsound.inv.own.desc_iff, howner]
    by_cases hp : L.owner p = .desc d
    · rw [if_pos hp, hp]
      simp
      tauto
    · rw [if_neg hp, List.mem_singleton]
      refine ⟨fun hq => ⟨hq, fun hed => hp (hed ▸ hq)⟩, fun hq => hq.1⟩
  · rw [hpages', pagesOf_eq hsound, hsound'.inv.own.free_iff, hsound.inv.own.free_iff, howner]
    simp only [List.mem_singleton, exists_eq_left, pagesOf_eq hsound, hsound.inv.own.desc_iff]
    by_cases hp : L.owner p = .desc d
    · simp [hp]
    · simp [hp]

/-- **A table descriptor is deleted.** -/
theorem Ordered.deleteTableDesc (h : Ordered env s) (t : Nat) (hn : n ∈ tableNodes env s) :
    ∃ s', deleteTableDesc s n = .ok s' ∧ Change env t s s' [] [n] [] [] ∧ s'.table = s.table ∧
      s'.m_indexMemMgr = s.m_indexMemMgr := by
  obtain ⟨m, hdelete, hkept, helement, hused⟩ := h.tables.deleteElement hn rfl true
  have htable : ({ s with m_tbDescMgr := m } : Mdb).table = s.table := helement
  refine ⟨{ s with m_tbDescMgr := m }, ?_, ⟨⟨hkept, h.indexes, h.pages, h.segs⟩, fun q => ?_,
    fun q => ?_, fun q _ => ?_, by simp [indexNodes], fun _ _ => rfl, by simp [pagesOf],
    by simp [pagesOf], by simp [usedSegs], fun _ _ => rfl⟩, htable, rfl⟩
  · unfold TableDescript.deleteTableDesc Mdb.table
    rw [hdelete]
  · rw [tableNodes, hused, List.mem_singleton]
  · rw [htable]
  · rw [htable]

/-! ## The arrays of a table -/

/-- Two names are equal without regard to case when they compare alike. -/
theorem strcasecmp_iff {a b : Name} : strcasecmp a b = true ↔ nameKey a = nameKey b := by
  rw [strcasecmp, decide_eq_true_iff]
  rfl

/-- The place and the name of an index are an entry of its table. -/
theorem TableDesc.entry {d : TableDesc} {i : Nat} (hi : i < d.m_indexNum) :
    (d.m_indexPosList i, nameKey (d.m_indexNameList i)) ∈ d.entries :=
  mem_slice.mpr ⟨i, hi, rfl⟩

/-- **The position of a name is found** when no two entries have it. -/
theorem TableDesc.findIndex_eq {d : TableDesc} (hmem : (x, nameKey name) ∈ d.entries)
    (honly : ∀ y, (y, nameKey name) ∈ d.entries → y = x) : d.findIndex name = x := by
  obtain ⟨i, hi, hentry⟩ := mem_slice.mp hmem
  -- from the round of the entry on, the last match is the only one
  have hloop : ∀ m ≤ d.m_indexNum, i < m → (List.range m).foldl (fun t_indexOffSet i =>
      if strcasecmp (d.m_indexNameList i) name then d.m_indexPosList i else t_indexOffSet)
      ListManager.noNode = x := by
    intro m
    induction m with
    | zero =>
        intro _ him
        omega
    | succ m ih =>
        intro hm him
        rw [List.range_succ, List.foldl_append, List.foldl_cons, List.foldl_nil]
        by_cases hmatch : strcasecmp (d.m_indexNameList m) name = true
        · rw [if_pos hmatch]
          refine honly _ ?_
          rw [← strcasecmp_iff.mp hmatch]
          exact TableDesc.entry (by omega)
        · rw [if_neg hmatch]
          have hne : i ≠ m := by
            rintro rfl
            exact hmatch (strcasecmp_iff.mpr (Prod.mk.inj hentry).2)
          exact ih (by omega) (by omega)
  exact hloop d.m_indexNum (Nat.le_refl _) hi

/-- **`deleteIndex` takes one entry out of both arrays.** -/
theorem TableDesc.deleteIndex_eq {d : TableDesc} {pre post : List (Nat × List Char)}
    {key : List Char} (hentries : d.entries = pre ++ (x, key) :: post)
    (hpre : ∀ e ∈ pre, e.1 ≠ x) :
    ∃ d', d.deleteIndex x = some d' ∧ d'.m_tableName = d.m_tableName ∧
      d'.entries = pre ++ post := by
  have hlength : d.m_indexNum = (pre ++ (x, key) :: post).length := by
    rw [← hentries]
    simp [TableDesc.entries]
  have hlt : pre.length < d.m_indexNum := by
    rw [hlength]
    simp
  have hget : ∀ i < d.m_indexNum,
      (pre ++ (x, key) :: post)[i]? = some (d.m_indexPosList i, nameKey (d.m_indexNameList i)) := by
    intro i hi
    have hi' : i < d.entries.length := by simpa [TableDesc.entries] using hi
    have hslice : d.entries[i] = (d.m_indexPosList i, nameKey (d.m_indexNameList i)) :=
      getElem_slice hi'
    rw [← hentries, List.getElem?_eq_getElem hi', hslice]
  have hfind : (List.range d.m_indexNum).find? (fun i => decide (d.m_indexPosList i = x)) =
      some pre.length := by
    rw [List.find?_range_eq_some]
    refine ⟨?_, List.mem_range.mpr hlt, fun i hi => ?_⟩
    · have hentry := hget pre.length hlt
      rw [List.getElem?_append_right (Nat.le_refl _), Nat.sub_self] at hentry
      have hx : x = d.m_indexPosList pre.length :=
        congrArg Prod.fst (Option.some.inj hentry)
      simp [← hx]
    · have hentry := hget i (by omega)
      rw [List.getElem?_append_left hi] at hentry
      have hne := hpre _ (List.mem_of_getElem? hentry)
      simpa using hne
  have hdelete : d.deleteIndex x = some { d with
      m_indexPosList := shiftDown (d.m_indexNum - 1 - pre.length) pre.length d.m_indexPosList
      m_indexNameList := shiftDown (d.m_indexNum - 1 - pre.length) pre.length d.m_indexNameList
      m_indexNum := d.m_indexNum - 1 } := by
    rw [TableDesc.deleteIndex, hfind]
  refine ⟨_, hdelete, rfl, ?_⟩
  have hshift : ∀ i, (shiftDown (d.m_indexNum - 1 - pre.length) pre.length d.m_indexPosList i,
      nameKey (shiftDown (d.m_indexNum - 1 - pre.length) pre.length d.m_indexNameList i)) =
      shiftDown (d.m_indexNum - 1 - pre.length) pre.length
        (fun i => (d.m_indexPosList i, nameKey (d.m_indexNameList i))) i := by
    intro i
    simp only [shiftDown_apply]
    split <;> rfl
  unfold TableDesc.entries
  simp only [hshift]
  have herase := slice_shiftDown (f := fun i => (d.m_indexPosList i, nameKey (d.m_indexNameList i)))
    (m := d.m_indexNum - 1 - pre.length) hlt (by omega)
  refine herase.trans ?_
  change d.entries.eraseIdx pre.length = _
  rw [hentries, List.eraseIdx_append_of_length_le (Nat.le_refl _)]
  simp

/-! ## What a table holds -/

/-- The tables of a B-tree index. -/
def auxTables (s : Mdb) (x : Nat) : List Nat :=
  if (s.index x).m_indexType = .TREE_INDEX then
    (getTableDescByName s (nodeTablePrefix ++ (s.index x).m_indexName)).toOption.toList ++
      (getTableDescByName s (chainElemTablePrefix ++ (s.index x).m_indexName)).toOption.toList
  else []

/-- The position of the hash table of an index. -/
def hashHeader (s : Mdb) (x : Nat) : List ShmPosition :=
  if (s.index x).hashed then [(s.index x).m_header] else []

/-- The segment of an index. -/
def hashSeg (s : Mdb) (x : Nat) : List Nat :=
  (hashHeader s x).map fun pos => pos.m_offSet - IndexMemMgr.sizeofHashIndexSeg

/-- The hash tables go back on safe ways, one after the other. -/
def SafeDrops (sp : IndexMemMgr.SpaceInfo) : IndexMemMgr.State → List ShmPosition → Prop
  | _, [] => True
  | m, pos :: rest =>
    IndexMemMgr.DropSafe m (IndexMemMgr.idleSegs m sp.m_size m.m_fIdleSeg)
      (pos.m_offSet - IndexMemMgr.sizeofHashIndexSeg) ∧
    ∀ m', IndexMemMgr.dropHashIdex sp m true pos = .ok (m', true) → SafeDrops sp m' rest

/-- A table without indexes. -/
structure IsAux (env : Setup) (s : Mdb) (n : Nat) (name : Name) : Prop where
  mem : n ∈ tableNodes env s
  key : (s.table n).key = nameKey name
  entries : (s.table n).entries = []

/-- **The table `t` holds the indexes `idxs`**, and they hold what they held in `s₀`. -/
structure Holding (env : Setup) (s₀ : Mdb) (t : Nat) (s : Mdb) (idxs : List Nat) : Prop where
  ordered : Ordered env s
  mem : t ∈ tableNodes env s
  nodup : idxs.Nodup
  used : ∀ x ∈ idxs, x ∈ indexNodes env s
  entries : (s.table t).entries = idxs.map fun x => (x, (s.index x).key)
  index : ∀ x ∈ idxs, s.index x = s₀.index x
  attached : ∀ x ∈ idxs, env.attached (s₀.index x).m_header = true
  typed : ∀ x ∈ idxs, (s₀.index x).m_indexType ≠ .HASH_TREE
  segs : ∀ x ∈ idxs, ∀ pos ∈ hashHeader s₀ x, ∃ p ∈ usedSegs env s,
    pos.m_offSet = p + IndexMemMgr.sizeofHashIndexSeg ∧ IndexMemMgr.HashFits s.m_indexMemMgr p
  apart : ∀ x ∈ idxs, ∀ y ∈ idxs, x ≠ y → ∀ p ∈ hashSeg s₀ x, p ∉ hashSeg s₀ y

/-- The B-tree indexes have their tables. -/
def Planted (env : Setup) (s₀ s : Mdb) (idxs : List Nat) : Prop :=
  ∀ x ∈ idxs, (s₀.index x).m_indexType = .TREE_INDEX → ∃ n c, auxTables s₀ x = [n, c] ∧
    IsAux env s n (nodeTablePrefix ++ (s₀.index x).m_indexName) ∧
    IsAux env s c (chainElemTablePrefix ++ (s₀.index x).m_indexName)

/-! ## Dropping an index -/

theorem ok_bind {α β : Type} (a : α) (f : α → Except DropError β) : (Except.ok a >>= f) = f a := rfl

/-- The index descriptor loses its header and is deleted. -/
theorem Ordered.deleteIndexDesc (h : Ordered env s) (hx : x ∈ indexNodes env s) (s' : Mdb)
    (hs' : s'.m_idxDescMgr =
      (s.setIndex x { s.index x with m_header := nullShmPos }).m_idxDescMgr) :
    ∃ u, deleteIndexDesc s' x = .ok { s' with m_idxDescMgr := u } ∧
      ListManager.Kept IndexDesc.key env.m_idxDescMgr u ∧
      (∀ y ≠ x, u.element y = s.index y) ∧
      ∀ y, y ∈ ListManager.usedNodes env.m_idxDescMgr u ↔ y ∈ indexNodes env s ∧ y ≠ x := by
  obtain ⟨hkept, hused⟩ :=
    h.indexes.setVaue (p := x) (e := { s.index x with m_header := nullShmPos }) rfl
  obtain ⟨u, hdelete, hkept', helement, hused'⟩ :=
    hkept.deleteElement (p := x) (hused ▸ hx) rfl true
  refine ⟨u, ?_, hkept', fun y hy => ?_, fun y => ?_⟩
  · unfold TableDescript.deleteIndexDesc Mdb.index
    rw [hs', Mdb.setIndex]
    dsimp only
    rw [hdelete]
  · rw [helement]
    simp [hy, Mdb.index]
  · rw [hused', hused]

/-- Names that differ in their keys differ in the array. -/
theorem Holding.split {s₀ : Mdb} {pre post : List Nat}
    (h : Holding env s₀ t s (pre ++ x :: post)) (hname : nameKey name = (s.index x).key) :
    (s.table t).findIndex name = x ∧
    ∃ d', (s.table t).deleteIndex x = some d' ∧ d'.m_tableName = (s.table t).m_tableName ∧
      d'.entries = (pre ++ post).map fun y => (y, (s.index y).key) := by
  have hx : x ∈ pre ++ x :: post := by simp
  have hentries := h.entries
  constructor
  · refine TableDesc.findIndex_eq ?_ fun y hy => ?_
    · rw [hentries, hname]
      exact List.mem_map.mpr ⟨x, hx, rfl⟩
    · rw [hentries, hname] at hy
      obtain ⟨z, hz, heq⟩ := List.mem_map.mp hy
      obtain ⟨rfl, hkey⟩ := Prod.mk.inj heq
      exact h.ordered.indexes.unique (h.used z hz) (h.used x hx) hkey
  · rw [List.map_append, List.map_cons] at hentries
    obtain ⟨d', hdelete, htable, hentries'⟩ := TableDesc.deleteIndex_eq hentries (by
      intro e he
      obtain ⟨y, hy, rfl⟩ := List.mem_map.mp he
      rintro rfl
      exact (List.nodup_cons.mp (List.nodup_middle.mp h.nodup)).1 (List.mem_append_left post hy))
    exact ⟨d', hdelete, htable, by rw [hentries', List.map_append]⟩

/-- The hash table of an index goes back. -/
theorem Holding.dropHash {s₀ : Mdb} {idxs : List Nat} {rest : List ShmPosition}
    (h : Holding env s₀ t s idxs) (hx : x ∈ idxs) (hhashed : (s₀.index x).hashed = true)
    (hsafe : SafeDrops env.m_indexMemMgr s.m_indexMemMgr (hashHeader s₀ x ++ rest)) :
    IndexMemMgr.initHashSeg s.m_indexMemMgr (s₀.index x).m_header = .ok s.m_indexMemMgr ∧
    ∃ m, IndexMemMgr.dropHashIdex env.m_indexMemMgr s.m_indexMemMgr true (s₀.index x).m_header =
        .ok (m, true) ∧
      (∃ layout used idle, IndexMemMgr.Layout env.m_indexMemMgr m layout used idle ∧
        (∀ p, p ∈ used ↔ p ∈ usedSegs env s ∧ p ∉ hashSeg s₀ x) ∧
        ∀ p ∈ used, IndexMemMgr.sizes m p = IndexMemMgr.sizes s.m_indexMemMgr p) ∧
      SafeDrops env.m_indexMemMgr m rest := by
  have hheader : hashHeader s₀ x = [(s₀.index x).m_header] := if_pos hhashed
  obtain ⟨p, hp, hpos, hfits⟩ := h.segs x hx (s₀.index x).m_header (by rw [hheader]; simp)
  obtain ⟨layout, used, idle, hlayout⟩ := h.ordered.segs
  rw [usedSegs_eq hlayout] at hp ⊢
  rw [hheader, List.singleton_append] at hsafe
  obtain ⟨hdropSafe, hrest⟩ := hsafe
  have hsub : (s₀.index x).m_header.m_offSet - IndexMemMgr.sizeofHashIndexSeg = p := by omega
  rw [hlayout.idleSegs_eq, hsub] at hdropSafe
  obtain ⟨m, layout', used', idle', hdrop, hlayout', hused, hsizes⟩ :=
    hlayout.release_sizes hp hpos hdropSafe
  have hseg : hashSeg s₀ x = [p] := by rw [hashSeg, hheader, List.map_singleton, hsub]
  refine ⟨hlayout.initHashSeg (hlayout.used_mem hp) hpos hfits, m, hdrop,
    ⟨layout', used', idle', hlayout', fun q => ?_, hsizes⟩, hrest m hdrop⟩
  rw [hused, hseg, List.mem_singleton]

/-- What `dropIndex` leaves: the pages are those of `s₁`, the segments are `m`. -/
theorem Holding.remove {s₀ s₁ : Mdb} {pre post : List Nat} {m : IndexMemMgr.State}
    {u : ListManager.State IndexDesc} {d' : TableDesc}
    (h : Holding env s₀ t s (pre ++ x :: post))
    (hfree : Change env t s s₁ [.index x] [] [] [])
    (hkept : ListManager.Kept IndexDesc.key env.m_idxDescMgr u)
    (hindex : ∀ y ≠ x, u.element y = s.index y)
    (hused : ∀ y, y ∈ ListManager.usedNodes env.m_idxDescMgr u ↔ y ∈ indexNodes env s ∧ y ≠ x)
    (hname : d'.m_tableName = (s.table t).m_tableName)
    (hsegs : ∃ layout used idle, IndexMemMgr.Layout env.m_indexMemMgr m layout used idle ∧
      (∀ p, p ∈ used ↔ p ∈ usedSegs env s ∧ p ∉ hashSeg s₀ x) ∧
      ∀ p ∈ used, IndexMemMgr.sizes m p = IndexMemMgr.sizes s.m_indexMemMgr p) :
    Change env t s ⟨(s.setTable t d').m_tbDescMgr, u, s₁.m_tableMemMgr, m⟩ [.index x] [] [x]
      (hashSeg s₀ x) := by
  obtain ⟨hkept', hused'⟩ := h.ordered.tables.setVaue (p := t) (e := d') (by
    unfold TableDesc.key
    rw [hname]
    rfl)
  obtain ⟨layout, used, idle, hlayout, husedSegs, hsizes⟩ := hsegs
  have htable : ∀ q, (s.setTable t d').table q = if q = t then d' else s.table q := by
    intro q
    by_cases hq : q = t
    · simp [Mdb.table, Mdb.setTable, hq]
    · simp [Mdb.table, Mdb.setTable, hq]
  have hsegs' : usedSegs env ⟨(s.setTable t d').m_tbDescMgr, u, s₁.m_tableMemMgr, m⟩ = used :=
    usedSegs_eq hlayout
  refine ⟨⟨hkept', hkept, hfree.ordered.pages, ⟨layout, used, idle, hlayout⟩⟩, fun q => ?_, fun q => ?_,
    fun q hq => ?_, fun q => ?_, fun y hy => ?_, hfree.owned, hfree.free, fun q => ?_, fun q hq => ?_⟩
  · rw [tableNodes, tableNodes, Mdb.setTable, hused']
    simp
  · change ((s.setTable t d').table q).m_tableName = _
    rw [htable]
    by_cases hq : q = t
    · rw [if_pos hq, hname, hq]
    · rw [if_neg hq]
  · change ((s.setTable t d').table q).entries = _
    rw [htable, if_neg hq]
  · rw [indexNodes, hused, List.mem_singleton]
  · exact hindex y (by simpa using hy)
  · rw [hsegs']
    exact husedSegs q
  · rw [hsegs'] at hq
    exact hsizes q hq

/-- What `truncateIndex` does to an index with a hash table that is in order. -/
theorem truncateIndex_hash {s₁ : Mdb} (hget : getIndexDescByName s name = .ok x)
    (hpages : freePages env s (.index x) = .ok s₁) (hhashed : (s₁.index x).hashed = true)
    (hinit : IndexMemMgr.initHashSeg s₁.m_indexMemMgr (s₁.index x).m_header = .ok s₁.m_indexMemMgr) :
    truncateIndex env s name = .ok s₁ := by
  unfold truncateIndex
  rw [hget, ok_bind, hpages, ok_bind, if_pos hhashed, hinit]

/-- What it does to an index without one. -/
theorem truncateIndex_plain {s₁ : Mdb} (hget : getIndexDescByName s name = .ok x)
    (hpages : freePages env s (.index x) = .ok s₁) (hhashed : ¬ (s₁.index x).hashed = true) :
    truncateIndex env s name =
      .ok (s₁.setIndex x { s₁.index x with m_header := nullShmPos }) := by
  unfold truncateIndex
  rw [hget, ok_bind, hpages, ok_bind, if_neg hhashed]

/-- Freeing a hash index gives its segments back and clears its header. -/
theorem freeHash_hash {m : IndexMemMgr.State} (hhashed : (s.index x).hashed = true)
    (hdrop : IndexMemMgr.dropHashIdex env.m_indexMemMgr s.m_indexMemMgr true (s.index x).m_header =
      .ok (m, true)) :
    freeHash env s x = .ok ({ s with m_indexMemMgr := m }.setIndex x
      { s.index x with m_header := nullShmPos }) := by
  unfold freeHash
  rw [if_pos hhashed, hdrop]

/-- `dropIndex` comes to the descriptor when the steps before succeed. -/
theorem dropIndex_eq {s₁ s₂ : Mdb} {tableName : Name} {d : TableDesc}
    (hget : getIndexDescByName s name = .ok x) (htruncate : truncateIndex env s name = .ok s₁)
    (htable : getTableDescByName s₁ tableName = .ok t) (hfind : (s₁.table t).findIndex name = x)
    (hnode : x ≠ ListManager.noNode) (hdelete : (s₁.table t).deleteIndex x = some d)
    (hfreed : freeHash env (s₁.setTable t d) x = .ok s₂) :
    dropIndex env s name (some tableName) = deleteIndexDesc s₂ x := by
  unfold dropIndex
  rw [hget, ok_bind, htruncate, ok_bind, Option.getD_some, htable, ok_bind, hfind, if_neg hnode,
    hdelete]
  dsimp only
  rw [hfreed, ok_bind]

/-- **`dropIndex` of an index of the table.** -/
theorem Holding.dropIndex {s₀ : Mdb} {pre post : List Nat} {rest : List ShmPosition}
    {tableName : Name} (h : Holding env s₀ t s (pre ++ x :: post))
    (hname : nameKey name = (s.index x).key) (htable : nameKey tableName = (s.table t).key)
    (hsafe : SafeDrops env.m_indexMemMgr s.m_indexMemMgr (hashHeader s₀ x ++ rest)) :
    ∃ s', dropIndex env s name (some tableName) = .ok s' ∧
      Change env t s s' [.index x] [] [x] (hashSeg s₀ x) ∧
      (s'.table t).entries = (pre ++ post).map (fun y => (y, (s.index y).key)) ∧
      SafeDrops env.m_indexMemMgr s'.m_indexMemMgr rest := by
  have hx : x ∈ pre ++ x :: post := by simp
  have hused := h.used x hx
  have hget : getIndexDescByName s name = .ok x :=
    h.ordered.getIndexDescByName_ok.mpr ⟨hused, hname.symm⟩
  obtain ⟨s₁, hpages, hfree, hs₁⟩ := h.ordered.freePages t (.index x)
  generalize s₁.m_tableMemMgr = pages at hs₁
  subst hs₁
  obtain ⟨hfind, d', hdelete, htableName, hentries⟩ := h.split hname
  have hnode : x ≠ ListManager.noNode := h.ordered.indexes.ne_noNode hused
  have hsame := h.index x hx
  have htableDesc : getTableDescByName s tableName = .ok t :=
    h.ordered.getTableDescByName_ok.mpr ⟨h.mem, htable.symm⟩
  by_cases hhashed : (s₀.index x).hashed = true
  · obtain ⟨hinit, m, hdrop, hsegs, hrest⟩ := h.dropHash hx hhashed hsafe
    rw [← hsame] at hhashed hinit hdrop
    obtain ⟨u, hdeleted, hkept, hindex, husedNodes⟩ := h.ordered.deleteIndexDesc hused
      (({ s with m_tableMemMgr := pages, m_indexMemMgr := m }.setTable t d').setIndex x
        { s.index x with m_header := nullShmPos }) rfl
    have htruncate : truncateIndex env s name = .ok { s with m_tableMemMgr := pages } :=
      truncateIndex_hash hget hpages hhashed hinit
    have hfreed : freeHash env ({ s with m_tableMemMgr := pages }.setTable t d') x =
        .ok (({ s with m_tableMemMgr := pages, m_indexMemMgr := m }.setTable t d').setIndex x
          { s.index x with m_header := nullShmPos }) := freeHash_hash hhashed hdrop
    refine ⟨_, ?_, h.remove hfree hkept hindex husedNodes htableName hsegs, ?_, hrest⟩
    · rw [dropIndex_eq hget htruncate htableDesc hfind hnode hdelete hfreed, hdeleted]
      rfl
    · rw [← hentries]
      simp [Mdb.table, Mdb.setTable]
  · obtain ⟨u, hdeleted, hkept, hindex, husedNodes⟩ := h.ordered.deleteIndexDesc hused
      (({ s with m_tableMemMgr := pages }.setIndex x
        { s.index x with m_header := nullShmPos }).setTable t d') rfl
    have hnone : hashHeader s₀ x = [] := if_neg hhashed
    rw [← hsame] at hhashed
    rw [hnone, List.nil_append] at hsafe
    have hsegs : ∃ layout used idle,
        IndexMemMgr.Layout env.m_indexMemMgr s.m_indexMemMgr layout used idle ∧
        (∀ p, p ∈ used ↔ p ∈ usedSegs env s ∧ p ∉ hashSeg s₀ x) ∧
        ∀ p ∈ used, IndexMemMgr.sizes s.m_indexMemMgr p = IndexMemMgr.sizes s.m_indexMemMgr p := by
      obtain ⟨layout, used, idle, hlayout⟩ := h.ordered.segs
      refine ⟨layout, used, idle, hlayout, fun p => ?_, fun _ _ => rfl⟩
      rw [usedSegs_eq hlayout, hashSeg, hnone]
      simp
    have htruncate : truncateIndex env s name = .ok ({ s with m_tableMemMgr := pages }.setIndex x
        { s.index x with m_header := nullShmPos }) := truncateIndex_plain hget hpages hhashed
    have hfreed : ∀ s₂ : Mdb, (s₂.index x).hashed = (s.index x).hashed →
        freeHash env s₂ x = .ok s₂ := by
      intro s₂ heq
      unfold freeHash
      rw [heq, if_neg hhashed]
    refine ⟨_, ?_, h.remove hfree hkept hindex husedNodes htableName hsegs, ?_, hsafe⟩
    · have hheader : ∀ d : IndexDesc,
          ({ d with m_header := nullShmPos } : IndexDesc).hashed = d.hashed := fun _ => rfl
      have hplain := hfreed (({ s with m_tableMemMgr := pages }.setIndex x
          { s.index x with m_header := nullShmPos }).setTable t d') (by
        rw [← hheader (s.index x)]
        exact congrArg IndexDesc.hashed (by simp [Mdb.index, Mdb.setIndex, Mdb.setTable]))
      rw [dropIndex_eq hget htruncate htableDesc hfind hnode hdelete hplain, hdeleted]
      rfl
    · rw [← hentries]
      simp [Mdb.table, Mdb.setTable]

end TableDescript
