import Boss.TableDescriptDrop

/-!
# Dropping a table

`BaseTable::drop` goes through the array of indexes with a growing number, while every index
that it drops leaves the array: it drops the first index, the third, the fifth and so on.
The others are dropped by `MemManager::dropTable`, which knows their pages and their hash
tables but not the tables of B-tree indexes.

Main results: `Holding.dropTable`, what a drop leaves; `drop_releases_iff`, when it gives all back.
-/

namespace TableDescript

open MemManager Runs

variable {env : Setup} {s₀ s s' : Mdb} {p q t n c x y : Nat} {name tableName : Name}
  {idxs pre post ts xs ps : List Nat} {ds : List Descript} {rest : List ShmPosition}

/-! ## What is left after a change -/

/-- **What is left is held as before.** -/
theorem Holding.keep {left : List Nat} (h : Holding env s₀ t s idxs)
    (hchange : Change env t s s' ds ts xs ps) (hsub : left.Sublist idxs) (ht : t ∉ ts)
    (hxs : ∀ y ∈ left, y ∉ xs) (hps : ∀ y ∈ left, ∀ p ∈ hashSeg s₀ y, p ∉ ps)
    (hentries : (s'.table t).entries = left.map fun y => (y, (s.index y).key)) :
    Holding env s₀ t s' left where
  ordered := hchange.ordered
  mem := (hchange.tables t).mpr ⟨h.mem, ht⟩
  nodup := h.nodup.sublist hsub
  used y hy := (hchange.indexes y).mpr ⟨h.used y (hsub.subset hy), hxs y hy⟩
  entries := by
    rw [hentries]
    refine List.map_congr_left fun y hy => ?_
    rw [hchange.index y (hxs y hy)]
  index y hy := (hchange.index y (hxs y hy)).trans (h.index y (hsub.subset hy))
  attached y hy := h.attached y (hsub.subset hy)
  typed y hy := h.typed y (hsub.subset hy)
  segs y hy pos hpos := by
    obtain ⟨p, hp, hoff, hfits⟩ := h.segs y (hsub.subset hy) pos hpos
    have hseg : p ∈ hashSeg s₀ y := List.mem_map.mpr ⟨pos, hpos, by omega⟩
    have hp' : p ∈ usedSegs env s' := (hchange.segs p).mpr ⟨hp, hps y hy p hseg⟩
    exact ⟨p, hp', hoff, hfits.congr (hchange.sizes p hp')⟩
  apart y hy z hz := h.apart y (hsub.subset hy) z (hsub.subset hz)

/-- What is left of the indexes stays planted when a change does not reach their tables. -/
theorem Planted.keep {left : List Nat} (h : Planted env s₀ s idxs)
    (hchange : Change env t s s' ds ts xs ps) (hsub : left ⊆ idxs)
    (hts : ∀ y ∈ left, ∀ n ∈ auxTables s₀ y, n ∉ ts ∧ n ≠ t) : Planted env s₀ s' left := by
  intro y hy htree
  obtain ⟨n, c, haux, hn, hc⟩ := h y (hsub hy) htree
  have hkeep : ∀ {m nm}, m ∈ auxTables s₀ y → IsAux env s m nm → IsAux env s' m nm := by
    intro m nm hm hisAux
    obtain ⟨hnot, hne⟩ := hts y hy m hm
    refine ⟨(hchange.tables m).mpr ⟨hisAux.mem, hnot⟩, ?_,
      (hchange.entries m hne).trans hisAux.entries⟩
    rw [TableDesc.key, hchange.tableName]
    exact hisAux.key
  exact ⟨n, c, haux, hkeep (by simp [haux]) hn, hkeep (by simp [haux]) hc⟩

/-! ## Tables without indexes -/

/-- A table has as many indexes as entries. -/
theorem TableDesc.indexNum_eq (d : TableDesc) : d.m_indexNum = d.entries.length := by
  simp [TableDesc.entries]

/-- **A table without indexes is truncated and deleted.** -/
theorem Ordered.truncateDelete (h : Ordered env s) (t : Nat) (hn : n ∈ tableNodes env s)
    (hkey : (s.table n).key = nameKey name) (hentries : (s.table n).entries = []) :
    ∃ s', (truncateTable env s name >>= fun s => TableDescript.deleteTableDesc s n) = .ok s' ∧
      Change env t s s' [.table n] [n] [] [] ∧ (∀ p, (s'.table p).entries = (s.table p).entries) ∧
      s'.m_indexMemMgr = s.m_indexMemMgr := by
  have hnum : (s.table n).m_indexNum = 0 := by rw [TableDesc.indexNum_eq, hentries]; rfl
  obtain ⟨s₁, hpages, hfree, hs₁⟩ := h.freePages t (.table n)
  have htable₁ : s₁.table = s.table := by rw [hs₁]; rfl
  have hreset := hfree.ordered.setRecordNum t n 0
  have hn₂ := (hreset.tables n).mpr ⟨(hfree.tables n).mpr ⟨hn, by simp⟩, by simp⟩
  obtain ⟨s₃, hdelete, hdeleted, htable₃, hsegs₃⟩ := hreset.ordered.deleteTableDesc t hn₂
  have hchange := (hfree.trans hreset).trans hdeleted
  simp only [List.append_nil, List.nil_append] at hchange
  refine ⟨s₃, ?_, hchange, fun p => ?_, ?_⟩
  · unfold truncateTable
    rw [h.getTableDescByName_ok.mpr ⟨hn, hkey⟩, ok_bind, hnum]
    change (TableDescript.freePages env s (.table n) >>= fun s => _) >>= _ = _
    rw [hpages, ok_bind]
    exact hdelete
  · rw [htable₃, ← htable₁]
    by_cases hp : p = n
    · subst hp
      simp [Mdb.table, Mdb.setTable, TableDesc.entries]
    · simp [Mdb.table, Mdb.setTable, hp]
  · rw [hsegs₃, hs₁]
    rfl

/-- **`dropTable` of a table without indexes.** -/
theorem Ordered.dropTable (h : Ordered env s) (t : Nat) (hn : n ∈ tableNodes env s)
    (hkey : (s.table n).key = nameKey name) (hentries : (s.table n).entries = []) :
    ∃ s', TableDescript.dropTable env s name = .ok s' ∧ Change env t s s' [.table n] [n] [] [] ∧
      (∀ p, (s'.table p).entries = (s.table p).entries) ∧ s'.m_indexMemMgr = s.m_indexMemMgr := by
  obtain ⟨s', hdrop, hrest⟩ := h.truncateDelete t hn hkey hentries
  refine ⟨s', ?_, hrest⟩
  unfold TableDescript.dropTable
  rw [h.getTableDescByName_ok.mpr ⟨hn, hkey⟩, ok_bind]
  dsimp only
  rw [TableDesc.indexNum_eq, hentries]
  exact hdrop

/-! ## Indexes that the table drops itself -/

/-- One index after the other, by their names. -/
theorem Holding.dropIndexes {names : List Name} (h : Holding env s₀ t s idxs)
    (hnames : names.map nameKey = idxs.map fun x => (s.index x).key)
    (htable : nameKey tableName = (s.table t).key)
    (hsafe : SafeDrops env.m_indexMemMgr s.m_indexMemMgr (idxs.flatMap (hashHeader s₀) ++ rest)) :
    ∃ s', names.foldlM (fun s i => TableDescript.dropIndex env s i (some tableName)) s = .ok s' ∧
      Change env t s s' (idxs.map .index) [] idxs (idxs.flatMap (hashSeg s₀)) ∧
      (s'.table t).entries = [] := by
  induction idxs generalizing s names with
  | nil =>
      obtain rfl : names = [] := by simpa using hnames
      exact ⟨s, rfl, Change.refl h.ordered t, by simpa using h.entries⟩
  | cons x idxs ih =>
      obtain ⟨name, names, rfl⟩ : ∃ name rest, names = name :: rest := by
        cases names with
        | nil => simp at hnames
        | cons name rest => exact ⟨name, rest, rfl⟩
      rw [List.map_cons, List.map_cons, List.cons.injEq] at hnames
      rw [List.flatMap_cons, List.append_assoc] at hsafe
      have hhere : Holding env s₀ t s ([] ++ x :: idxs) := h
      obtain ⟨s₁, hdrop, hchange, hentries, hsafe₁⟩ := hhere.dropIndex hnames.1 htable hsafe
      have hnot := (List.nodup_cons.mp h.nodup).1
      have h₁ : Holding env s₀ t s₁ idxs := by
        refine h.keep hchange (List.sublist_cons_self x idxs) (by simp) ?_ ?_ hentries
        · intro y hy hyx
          exact hnot (List.mem_singleton.mp hyx ▸ hy)
        · intro y hy p hp
          refine h.apart y (List.mem_cons_of_mem x hy) x List.mem_cons_self ?_ p hp
          rintro rfl
          exact hnot hy
      have hnames₁ : names.map nameKey = idxs.map fun y => (s₁.index y).key := by
        rw [hnames.2]
        refine List.map_congr_left fun y hy => ?_
        rw [hchange.index y (fun hyx => hnot (List.mem_singleton.mp hyx ▸ hy))]
      have htable₁ : nameKey tableName = (s₁.table t).key := by
        rw [htable, TableDesc.key, TableDesc.key, hchange.tableName]
      obtain ⟨s', hdrops, hchanges, hempty⟩ := ih h₁ hnames₁ htable₁ hsafe₁
      refine ⟨s', ?_, hchange.trans hchanges, hempty⟩
      rw [List.foldlM_cons, hdrop]
      exact hdrops

/-! ## Indexes that are dropped by their own class -/

theorem nameKey_append (a b : Name) : nameKey (a ++ b) = nameKey a ++ nameKey b := List.map_append

/-- No table is one of nodes and one of chains. -/
theorem prefixes_apart (a b : Name) :
    nameKey (nodeTablePrefix ++ a) ≠ nameKey (chainElemTablePrefix ++ b) := by
  rw [nameKey_append, nameKey_append]
  have hnode : nameKey nodeTablePrefix = "btree_".toList ++ 'n' :: "ode_".toList := by decide
  have hchain : nameKey chainElemTablePrefix = "btree_".toList ++ 'c' :: "hainelem_".toList := by
    decide
  rw [hnode, hchain, List.append_assoc, List.append_assoc]
  intro heq
  have htail := List.append_cancel_left heq
  simp at htail

/-- The tables of an index are its own, and the dropped table is none of them. -/
theorem Planted.apart (h : Planted env s₀ s idxs) (hold : Holding env s₀ t s idxs) (hx : x ∈ idxs)
    (hn : n ∈ auxTables s₀ x) : n ≠ t ∧ ∀ y ∈ idxs, y ≠ x → n ∉ auxTables s₀ y := by
  have htree : ∀ {y m}, m ∈ auxTables s₀ y → (s₀.index y).m_indexType = .TREE_INDEX := by
    intro y m hm
    by_contra hnot
    rw [auxTables, if_neg hnot] at hm
    cases hm
  have haux : ∀ {y m}, y ∈ idxs → m ∈ auxTables s₀ y →
      IsAux env s m (nodeTablePrefix ++ (s₀.index y).m_indexName) ∨
      IsAux env s m (chainElemTablePrefix ++ (s₀.index y).m_indexName) := by
    intro y m hy hm
    obtain ⟨a, c, heq, ha, hc⟩ := h y hy (htree hm)
    rw [heq, List.mem_cons, List.mem_singleton] at hm
    rcases hm with rfl | rfl
    · exact .inl ha
    · exact .inr hc
  constructor
  · rintro rfl
    have hempty : (s.table n).entries = [] := by
      rcases haux hx hn with hisAux | hisAux
      · exact hisAux.entries
      · exact hisAux.entries
    rw [hold.entries, List.map_eq_nil_iff] at hempty
    rw [hempty] at hx
    cases hx
  · intro y hy hyx hn'
    have hname : ∀ pre : Name, nameKey (pre ++ (s₀.index x).m_indexName) =
        nameKey (pre ++ (s₀.index y).m_indexName) → False := by
      intro pre heq
      rw [nameKey_append, nameKey_append] at heq
      have hkey : (s.index x).key = (s.index y).key := by
        rw [hold.index x hx, hold.index y hy]
        exact List.append_cancel_left heq
      exact hyx (hold.ordered.indexes.unique (hold.used y hy) (hold.used x hx) hkey.symm)
    rcases haux hx hn with hxn | hxc <;> rcases haux hy hn' with hyn | hyc
    · exact hname _ (hxn.key.symm.trans hyn.key)
    · exact prefixes_apart _ _ (hxn.key.symm.trans hyc.key)
    · exact prefixes_apart _ _ (hyn.key.symm.trans hxc.key)
    · exact hname _ (hxc.key.symm.trans hyc.key)

/-- What an index owns, in the order in which it goes back. -/
def parts (s : Mdb) (x : Nat) : List Descript := (auxTables s x).map .table ++ [.index x]

/-- **`drop` of the class of an index** gives back all that the index owns. -/
theorem Holding.dropInstance (h : Holding env s₀ t s (pre ++ x :: post))
    (hplanted : Planted env s₀ s (pre ++ x :: post)) (hname : nameKey name = (s.index x).key)
    (htable : nameKey tableName = (s.table t).key)
    (hsafe : SafeDrops env.m_indexMemMgr s.m_indexMemMgr (hashHeader s₀ x ++ rest)) :
    ∃ s', dropInstance env s tableName name (s.index x).m_indexType = .ok s' ∧
      Change env t s s' (parts s₀ x) (auxTables s₀ x) [x] (hashSeg s₀ x) ∧
      (s'.table t).entries = (pre ++ post).map (fun y => (y, (s.index y).key)) ∧
      SafeDrops env.m_indexMemMgr s'.m_indexMemMgr rest := by
  have hx : x ∈ pre ++ x :: post := by simp
  have hsame := h.index x hx
  have hget : getIndexDescByName s name = .ok x :=
    h.ordered.getIndexDescByName_ok.mpr ⟨h.used x hx, hname.symm⟩
  have hgetTable : getTableDescByName s tableName = .ok t :=
    h.ordered.getTableDescByName_ok.mpr ⟨h.mem, htable.symm⟩
  have hattached : env.attached (s.index x).m_header = true := hsame ▸ h.attached x hx
  cases htype : (s.index x).m_indexType with
  | HASH_TREE => exact absurd (hsame ▸ htype) (h.typed x hx)
  | HASH_INDEX =>
      obtain ⟨s', hdrop, hchange, hentries, hsafe'⟩ := h.dropIndex hname htable hsafe
      have hnone : auxTables s₀ x = [] := by
        rw [auxTables, ← hsame, htype]
        rfl
      have hparts : parts s₀ x = [.index x] := by rw [parts, hnone]; rfl
      refine ⟨s', ?_, by rwa [hnone, hparts], hentries, hsafe'⟩
      unfold TableDescript.dropInstance IndexHash.initialization IndexHash.drop
      dsimp only
      rw [hget, ok_bind, if_pos hattached, hgetTable]
      exact hdrop
  | TREE_INDEX =>
      obtain ⟨n, c, haux, hn, hc⟩ := hplanted x hx (hsame ▸ htype)
      have happart := fun m hm => hplanted.apart h hx (n := m) hm
      have hcn : c ≠ n := by
        rintro rfl
        exact prefixes_apart _ _ (hn.key.symm.trans hc.key)
      -- the table of nodes, the table of chains, and then the index
      obtain ⟨s₁, hdrop₁, hchange₁, hentries₁, hsegs₁⟩ :=
        h.ordered.dropTable t hn.mem rfl hn.entries
      have hc₁ : c ∈ tableNodes env s₁ := (hchange₁.tables c).mpr ⟨hc.mem, by simpa using hcn⟩
      obtain ⟨s₂, hdrop₂, hchange₂, hentries₂, hsegs₂⟩ :=
        hchange₁.ordered.dropTable t hc₁ rfl ((hentries₁ c).trans hc.entries)
      have hchange := hchange₁.trans hchange₂
      have hindex₂ : ∀ y, s₂.index y = s.index y := fun y => hchange.index y (by simp)
      have h₂ : Holding env s₀ t s₂ (pre ++ x :: post) := by
        refine h.keep hchange (List.Sublist.refl _) ?_ (by simp) (by simp) ?_
        · have htn := (happart n (by simp [haux])).1
          have htc := (happart c (by simp [haux])).1
          simp [htn.symm, htc.symm]
        · rw [hentries₂, hentries₁]
          exact h.entries
      have htable₂ : nameKey tableName = (s₂.table t).key := by
        rw [htable, TableDesc.key, TableDesc.key, hchange.tableName]
      rw [← hsegs₁, ← hsegs₂] at hsafe
      obtain ⟨s', hdrop, hdropped, hentries, hsafe'⟩ :=
        h₂.dropIndex ((hindex₂ x).symm ▸ hname) htable₂ hsafe
      have hall := hchange.trans hdropped
      have hparts : parts s₀ x = ([.table n] ++ [.table c]) ++ [.index x] := by rw [parts, haux]; rfl
      refine ⟨s', ?_, ?_, ?_, hsafe'⟩
      · have hnode : getTableDescByName s (nodeTablePrefix ++ (s.index x).m_indexName) = .ok n :=
          h.ordered.getTableDescByName_ok.mpr ⟨hn.mem, hsame ▸ hn.key⟩
        have hchain : getTableDescByName s (chainElemTablePrefix ++ (s.index x).m_indexName) = .ok c :=
          h.ordered.getTableDescByName_ok.mpr ⟨hc.mem, hsame ▸ hc.key⟩
        unfold TableDescript.dropInstance IndexBTree.initialization
        dsimp only
        rw [hget, ok_bind, if_pos hattached, hnode, ok_bind, hchain, ok_bind, hgetTable, ok_bind]
        change IndexBTree.drop env s tableName name n c = _
        unfold IndexBTree.drop
        rw [hdrop₁, ok_bind, hdrop₂, ok_bind, hdrop]
      · rw [haux, hparts]
        exact hall
      · rw [hentries]
        exact List.map_congr_left fun y _ => by rw [hindex₂]

/-! ## The loop -/

/-- The elements at the places 0, 2, 4, … -/
def atEven {α : Type} : List α → List α
  | [] => []
  | [x] => [x]
  | x :: _ :: l => x :: atEven l

/-- The elements at the places 1, 3, 5, … -/
def atOdd {α : Type} : List α → List α
  | [] => []
  | [_] => []
  | _ :: y :: l => y :: atOdd l

/-- The even and the odd places together are all places. -/
theorem atEven_atOdd_perm {α : Type} (l : List α) : (atEven l ++ atOdd l).Perm l := by
  induction l using atEven.induct with
  | case1 => exact List.Perm.refl _
  | case2 x => exact List.Perm.refl _
  | case3 x y l ih =>
      have hmiddle : (atEven l ++ y :: atOdd l).Perm (y :: (atEven l ++ atOdd l)) := List.perm_middle
      exact (hmiddle.trans (ih.cons y)).cons x

/-- What stands at the odd places stands in the list in the same order. -/
theorem atOdd_sublist {α : Type} (l : List α) : (atOdd l).Sublist l := by
  induction l using atEven.induct with
  | case1 => exact List.Sublist.refl _
  | case2 x => exact List.nil_sublist _
  | case3 x y l ih => exact (ih.cons_cons y).cons x

/-- What stands at an odd place has an odd number. -/
theorem mem_atOdd {α : Type} {l : List α} {x : α} : x ∈ atOdd l ↔ ∃ i, l[2 * i + 1]? = some x := by
  induction l using atEven.induct with
  | case1 => simp [atOdd]
  | case2 y => simp [atOdd]
  | case3 y z l ih =>
      rw [atOdd, List.mem_cons, ih]
      constructor
      · rintro (rfl | ⟨i, hi⟩)
        · exact ⟨0, rfl⟩
        · exact ⟨i + 1, hi⟩
      · rintro ⟨i, hi⟩
        cases i with
        | zero => exact .inl (by simpa using hi.symm)
        | succ i => exact .inr ⟨i, hi⟩

/-- An entry is the position and the name of its index. -/
theorem TableDesc.getElem?_entries {d : TableDesc} {i : Nat} {e : Nat × List Char}
    (h : d.entries[i]? = some e) :
    i < d.m_indexNum ∧ (d.m_indexPosList i, nameKey (d.m_indexNameList i)) = e := by
  obtain ⟨hi, heq⟩ := List.getElem?_eq_some_iff.mp h
  rw [← heq]
  exact ⟨by simpa [TableDesc.entries] using hi, (SortedSlice.getElem_slice hi).symm⟩

/-- **One round of the loop**: the index at the number of the round leaves the array, and the
next round goes on behind the index that took its place. -/
theorem Holding.dropRound (h : Holding env s₀ t s (pre ++ x :: post)) (rounds : Nat)
    (hplanted : Planted env s₀ s (pre ++ x :: post)) (htable : nameKey tableName = (s.table t).key)
    (hsafe : SafeDrops env.m_indexMemMgr s.m_indexMemMgr (hashHeader s₀ x ++ rest)) :
    ∃ s', dropLoop env tableName t (rounds + 1) pre.length s =
        dropLoop env tableName t rounds (pre.length + 1) s' ∧
      Change env t s s' (parts s₀ x) (auxTables s₀ x) [x] (hashSeg s₀ x) ∧
      Holding env s₀ t s' (pre ++ post) ∧ Planted env s₀ s' (pre ++ post) ∧
      nameKey tableName = (s'.table t).key ∧
      SafeDrops env.m_indexMemMgr s'.m_indexMemMgr rest := by
  have hx : x ∈ pre ++ x :: post := by simp
  have hsub : (pre ++ post).Sublist (pre ++ x :: post) :=
    (List.Sublist.refl pre).append (List.sublist_cons_self x post)
  have hne : ∀ y ∈ pre ++ post, y ≠ x := fun y hy heq =>
    (List.nodup_cons.mp (List.nodup_middle.mp h.nodup)).1 (heq ▸ hy)
  have hentry : (s.table t).entries[pre.length]? = some (x, (s.index x).key) := by
    rw [h.entries]
    simp
  obtain ⟨hlt, heq⟩ := TableDesc.getElem?_entries hentry
  have hname : nameKey ((s.table t).m_indexNameList pre.length) = (s.index x).key :=
    (Prod.mk.inj heq).2
  have hget : getIndexDescByName s ((s.table t).m_indexNameList pre.length) = .ok x :=
    h.ordered.getIndexDescByName_ok.mpr ⟨h.used x hx, hname.symm⟩
  obtain ⟨s', hdrop, hchange, hentries, hsafe'⟩ := h.dropInstance hplanted hname htable hsafe
  have happart := fun m hm => hplanted.apart h hx (n := m) hm
  refine ⟨s', ?_, hchange, h.keep hchange hsub ?_ ?_ ?_ hentries, hplanted.keep hchange hsub.subset ?_,
    ?_, hsafe'⟩
  · rw [dropLoop, if_pos hlt]
    dsimp only
    rw [hget, ok_bind, hdrop, ok_bind]
  · exact fun hmem => (happart t hmem).1 rfl
  · exact fun y hy hyx => hne y hy (List.mem_singleton.mp hyx)
  · exact fun y hy p hp => h.apart y (hsub.subset hy) x hx (hne y hy) p hp
  · intro y hy n hn
    refine ⟨fun hmem => (happart n hmem).2 y (hsub.subset hy) (hne y hy) hn, ?_⟩
    exact (hplanted.apart h (hsub.subset hy) hn).1
  · rw [htable, TableDesc.key, TableDesc.key, hchange.tableName]

/-- The loop ends when its number is past the array. -/
theorem Holding.dropLoop_end {rounds i : Nat} (h : Holding env s₀ t s idxs)
    (hi : idxs.length ≤ i) : dropLoop env tableName t rounds i s = .ok s := by
  have hnot : ¬ i < (s.table t).m_indexNum := by
    rw [TableDesc.indexNum_eq, h.entries, List.length_map]
    omega
  cases rounds with
  | zero => rw [dropLoop, if_neg hnot]
  | succ rounds => rw [dropLoop, if_neg hnot]

/-- **The loop drops every other index.** -/
theorem Holding.dropLoop {rounds : Nat} (h : Holding env s₀ t s (pre ++ idxs))
    (hplanted : Planted env s₀ s (pre ++ idxs)) (htable : nameKey tableName = (s.table t).key)
    (hsafe : SafeDrops env.m_indexMemMgr s.m_indexMemMgr
      ((atEven idxs).flatMap (hashHeader s₀) ++ rest)) (hrounds : idxs.length ≤ rounds) :
    ∃ s', dropLoop env tableName t rounds pre.length s = .ok s' ∧
      Change env t s s' ((atEven idxs).flatMap (parts s₀)) ((atEven idxs).flatMap (auxTables s₀))
        (atEven idxs) ((atEven idxs).flatMap (hashSeg s₀)) ∧
      Holding env s₀ t s' (pre ++ atOdd idxs) ∧
      SafeDrops env.m_indexMemMgr s'.m_indexMemMgr rest := by
  induction idxs using atEven.induct generalizing pre s rounds with
  | case1 => exact ⟨s, h.dropLoop_end (by simp), Change.refl h.ordered t, h, hsafe⟩
  | case2 x =>
      obtain ⟨rounds, rfl⟩ : ∃ r, rounds = r + 1 := ⟨rounds - 1, by simp at hrounds; omega⟩
      obtain ⟨s', hround, hchange, hleft, -, -, hsafe'⟩ :=
        h.dropRound rounds hplanted htable (by simpa [atEven] using hsafe)
      refine ⟨s', ?_, by simpa [atEven] using hchange, hleft, hsafe'⟩
      rw [hround]
      exact hleft.dropLoop_end (by simp)
  | case3 x y l ih =>
      rw [List.length_cons, List.length_cons] at hrounds
      obtain ⟨rounds, rfl⟩ : ∃ r, rounds = r + 1 := ⟨rounds - 1, by omega⟩
      rw [atEven, List.flatMap_cons, List.append_assoc] at hsafe
      obtain ⟨s₁, hround, hchange, hleft, hplanted₁, htable₁, hsafe₁⟩ :=
        h.dropRound rounds hplanted htable hsafe
      have hrounds₁ : l.length ≤ rounds := by omega
      have hassoc : ∀ r : List Nat, pre ++ y :: r = (pre ++ [y]) ++ r := by simp
      rw [hassoc] at hleft hplanted₁
      obtain ⟨s', hloop, hchanges, hleft', hsafe'⟩ :=
        ih hleft hplanted₁ htable₁ hsafe₁ hrounds₁
      refine ⟨s', ?_, hchange.trans hchanges, ?_, hsafe'⟩
      · rw [hround]
        simpa using hloop
      · rw [atOdd, hassoc]
        exact hleft'

/-! ## The whole drop -/

/-- **`dropTable`** drops the indexes that are left, and the table. -/
theorem Holding.dropTable (h : Holding env s₀ t s idxs)
    (htable : nameKey tableName = (s.table t).key)
    (hsafe : SafeDrops env.m_indexMemMgr s.m_indexMemMgr (idxs.flatMap (hashHeader s₀) ++ rest)) :
    ∃ s', dropTable env s tableName = .ok s' ∧
      Change env t s s' (idxs.map .index ++ [.table t]) [t] idxs (idxs.flatMap (hashSeg s₀)) := by
  have hnames : ((List.range (s.table t).m_indexNum).map (s.table t).m_indexNameList).map nameKey =
      idxs.map fun x => (s.index x).key := by
    have hsnd := congrArg (List.map Prod.snd) h.entries
    simpa [TableDesc.entries, SortedSlice.slice, Function.comp_def] using hsnd
  obtain ⟨s₁, hdrops, hchange, hempty⟩ := h.dropIndexes hnames htable hsafe
  rw [List.foldlM_map] at hdrops
  have hmem₁ : t ∈ tableNodes env s₁ := (hchange.tables t).mpr ⟨h.mem, by simp⟩
  have hkey₁ : (s₁.table t).key = nameKey tableName := by
    rw [htable, TableDesc.key, TableDesc.key, hchange.tableName]
  obtain ⟨s', hdelete, hdeleted, -, -⟩ := hchange.ordered.truncateDelete t hmem₁ hkey₁ hempty
  have hall := hchange.trans hdeleted
  simp only [List.append_nil, List.nil_append] at hall
  refine ⟨s', ?_, hall⟩
  unfold TableDescript.dropTable
  rw [h.ordered.getTableDescByName_ok.mpr ⟨h.mem, htable.symm⟩, ok_bind]
  dsimp only
  rw [hdrops, ok_bind]
  exact hdelete

/-- **What `BaseTable::drop` does.**  The indexes at the even places give back all that they
own, the others only their pages and hash tables. -/
theorem Holding.drop (h : Holding env s₀ t s idxs) (hplanted : Planted env s₀ s idxs)
    (htable : nameKey tableName = (s.table t).key)
    (hsafe : SafeDrops env.m_indexMemMgr s.m_indexMemMgr
      ((atEven idxs ++ atOdd idxs).flatMap (hashHeader s₀))) :
    ∃ s', drop env s tableName t = .ok s' ∧
      Change env t s s'
        ((atEven idxs).flatMap (parts s₀) ++ ((atOdd idxs).map .index ++ [.table t]))
        ((atEven idxs).flatMap (auxTables s₀) ++ [t]) (atEven idxs ++ atOdd idxs)
        ((atEven idxs ++ atOdd idxs).flatMap (hashSeg s₀)) := by
  have hnum : (s.table t).m_indexNum = idxs.length := by
    rw [TableDesc.indexNum_eq, h.entries, List.length_map]
  rw [List.flatMap_append] at hsafe
  have hhere : Holding env s₀ t s ([] ++ idxs) := h
  obtain ⟨s₁, hloop, hchange, hleft, hsafe₁⟩ :=
    hhere.dropLoop hplanted htable hsafe (Nat.le_of_eq hnum.symm)
  rw [List.nil_append] at hleft
  have hreset := hleft.ordered.setRecordNum t t 0
  have hentries₂ : ((s₁.setTable t { s₁.table t with m_recordNum := 0 }).table t).entries =
      (atOdd idxs).map fun y => (y, (s₁.index y).key) := by
    rw [← hleft.entries]
    simp [Mdb.table, Mdb.setTable, TableDesc.entries]
  have hleft₂ := hleft.keep hreset (List.Sublist.refl _) (by simp) (by simp) (by simp) hentries₂
  have htable₂ : nameKey tableName =
      ((s₁.setTable t { s₁.table t with m_recordNum := 0 }).table t).key := by
    rw [htable, TableDesc.key, TableDesc.key, hreset.tableName, hchange.tableName]
  rw [← List.append_nil ((atOdd idxs).flatMap (hashHeader s₀))] at hsafe₁
  obtain ⟨s', hdrop, hdropped⟩ := hleft₂.dropTable htable₂ hsafe₁
  have hall := (hchange.trans hreset).trans hdropped
  simp only [List.append_nil] at hall
  refine ⟨s', ?_, by rw [List.flatMap_append]; exact hall⟩
  unfold TableDescript.drop
  have hstart : TableDescript.dropLoop env tableName t (s.table t).m_indexNum 0 s = .ok s₁ := hloop
  rw [hstart, ok_bind]
  exact hdrop

/-- The positions of the indexes of a table. -/
def TableDesc.indexes (d : TableDesc) : List Nat := SortedSlice.slice d.m_indexPosList d.m_indexNum

/-- **All of the table is released**: the pages of the table, of its indexes and of the tables
of its B-tree indexes are free, the places of its hash tables are idle, and none of the
descriptors is found any more. -/
structure Released (env : Setup) (s s' : Mdb) (t : Nat) : Prop where
  pages : ∀ d ∈ Descript.table t :: (s.table t).indexes.flatMap (parts s),
    ∀ p ∈ pagesOf env s (.desc d), p ∈ pagesOf env s' (.free p.m_spaceCode)
  segs : ∀ p ∈ (s.table t).indexes.flatMap (hashSeg s),
    IndexMemMgr.Idle env.m_indexMemMgr s'.m_indexMemMgr p (s.m_indexMemMgr.size p)
  tables : ∀ n ∈ t :: (s.table t).indexes.flatMap (auxTables s),
    getTableDescByName s' (s.table n).m_tableName = .error .noTable
  indexes : ∀ x ∈ (s.table t).indexes,
    getIndexDescByName s' (s.index x).m_indexName = .error .noIndex

/-- **The table and its indexes are in order.** -/
structure Stored (env : Setup) (s : Mdb) (t : Nat) : Prop where
  holding : Holding env s t s (s.table t).indexes
  planted : Planted env s s (s.table t).indexes

/-- The tables of an index at an odd place are still there. -/
theorem Stored.tree_remains (h : Stored env s t)
    (hchange : Change env t s s' ds ((atEven (s.table t).indexes).flatMap (auxTables s) ++ [t]) xs ps)
    (hx : x ∈ atOdd (s.table t).indexes) (htree : (s.index x).m_indexType = .TREE_INDEX) :
    ∃ n ∈ auxTables s x, getTableDescByName s' (s.table n).m_tableName = .ok n := by
  have hmem := (atOdd_sublist _).subset hx
  obtain ⟨n, c, haux, hn, -⟩ := h.planted x hmem htree
  have hin : n ∈ auxTables s x := by simp [haux]
  obtain ⟨hnt, happart⟩ := h.planted.apart h.holding hmem hin
  have hnodup := (atEven_atOdd_perm (s.table t).indexes).nodup_iff.mpr h.holding.nodup
  refine ⟨n, hin, hchange.ordered.getTableDescByName_ok.mpr ⟨(hchange.tables n).mpr ⟨hn.mem, ?_⟩, ?_⟩⟩
  · rw [List.mem_append, List.mem_singleton, not_or]
    refine ⟨fun hflat => ?_, hnt⟩
    obtain ⟨y, hy, hny⟩ := List.mem_flatMap.mp hflat
    have hyx : y ≠ x := fun heq => (List.nodup_append.mp hnodup).2.2 y hy x hx heq
    have hy' := (atEven_atOdd_perm (s.table t).indexes).mem_iff.mp (List.mem_append_left _ hy)
    exact happart y hy' hyx hny
  · rw [TableDesc.key, hchange.tableName]

/-- The name of a dropped table is not found any more. -/
theorem Change.table_gone (hchange : Change env t s s' ds ts xs ps) (h : Ordered env s)
    (hn : n ∈ tableNodes env s) (hts : n ∈ ts) :
    getTableDescByName s' (s.table n).m_tableName = .error .noTable := by
  rw [getTableDescByName_error]
  intro q hq
  obtain ⟨hq', hkey⟩ := hchange.ordered.getTableDescByName_ok.mp hq
  obtain ⟨hqs, hnot⟩ := (hchange.tables q).mp hq'
  have hkey' : (s.table q).key = (s.table n).key := by
    rw [TableDesc.key, ← hchange.tableName]
    exact hkey
  rw [h.tables.unique hqs hn hkey'] at hnot
  exact hnot hts

/-- The name of a dropped index is not found any more. -/
theorem Change.index_gone (hchange : Change env t s s' ds ts xs ps) (h : Ordered env s)
    (hx : x ∈ indexNodes env s) (hxs : x ∈ xs) :
    getIndexDescByName s' (s.index x).m_indexName = .error .noIndex := by
  rw [getIndexDescByName_error]
  intro q hq
  obtain ⟨hq', hkey⟩ := hchange.ordered.getIndexDescByName_ok.mp hq
  obtain ⟨hqs, hnot⟩ := (hchange.indexes q).mp hq'
  rw [hchange.index q hnot] at hkey
  rw [h.indexes.unique hqs hx hkey] at hnot
  exact hnot hxs

/-- A segment that a drop gives back is idle. -/
theorem Change.seg_idle (hchange : Change env t s s' ds ts xs ps) (h : Ordered env s) {p : Nat}
    (hused : p ∈ usedSegs env s) (hp : p ∈ ps) :
    IndexMemMgr.Idle env.m_indexMemMgr s'.m_indexMemMgr p (s.m_indexMemMgr.size p) := by
  obtain ⟨layout, used, idle, hlayout⟩ := h.segs
  obtain ⟨layout', used', idle', hlayout'⟩ := hchange.ordered.segs
  have hsegs := hchange.segs
  have hsizes := hchange.sizes
  simp only [usedSegs_eq hlayout, usedSegs_eq hlayout'] at hsegs hsizes hused
  exact hlayout.idle_of_not_used hlayout' (fun q hq => ((hsegs q).mp hq).1) hsizes hused
    fun hp' => ((hsegs p).mp hp').2 hp

/-- Tables besides that of its rows has a B-tree index only, and they are in use. -/
theorem Stored.mem_auxTables (h : Stored env s t) (hx : x ∈ (s.table t).indexes)
    (hn : n ∈ auxTables s x) : (s.index x).m_indexType = .TREE_INDEX ∧ n ∈ tableNodes env s := by
  have htree : (s.index x).m_indexType = .TREE_INDEX := by
    by_contra hnot
    rw [auxTables, if_neg hnot] at hn
    cases hn
  obtain ⟨a, c, haux, ha, hc⟩ := h.planted x hx htree
  rw [haux, List.mem_cons, List.mem_singleton] at hn
  rcases hn with rfl | rfl
  · exact ⟨htree, ha.mem⟩
  · exact ⟨htree, hc.mem⟩

/-- Everything is released when no index at an odd place has tables. -/
theorem Stored.released (h : Stored env s t)
    (hchange : Change env t s s'
      ((atEven (s.table t).indexes).flatMap (parts s) ++
        ((atOdd (s.table t).indexes).map .index ++ [.table t]))
      ((atEven (s.table t).indexes).flatMap (auxTables s) ++ [t])
      (atEven (s.table t).indexes ++ atOdd (s.table t).indexes)
      ((atEven (s.table t).indexes ++ atOdd (s.table t).indexes).flatMap (hashSeg s)))
    (hodd : ∀ x ∈ atOdd (s.table t).indexes, (s.index x).m_indexType ≠ .TREE_INDEX) :
    Released env s s' t := by
  have hperm := atEven_atOdd_perm (s.table t).indexes
  have hplaces : ∀ x, x ∈ (s.table t).indexes ↔
      x ∈ atEven (s.table t).indexes ∨ x ∈ atOdd (s.table t).indexes := by
    intro x
    rw [← hperm.mem_iff, List.mem_append]
  have hnone : ∀ x ∈ atOdd (s.table t).indexes, auxTables s x = [] := fun x hx => if_neg (hodd x hx)
  refine ⟨fun d hd p hp => ?_, fun p hp => ?_, fun n hn => ?_, fun x hx => ?_⟩
  · refine (hchange.free p).mpr (.inr ⟨d, ?_, hp⟩)
    simp only [List.mem_append, List.mem_singleton]
    rcases List.mem_cons.mp hd with rfl | hd
    · exact .inr (.inr rfl)
    · obtain ⟨x, hx, hdx⟩ := List.mem_flatMap.mp hd
      rcases (hplaces x).mp hx with heven | hplace
      · exact .inl (List.mem_flatMap.mpr ⟨x, heven, hdx⟩)
      · rw [parts, hnone x hplace, List.map_nil, List.nil_append, List.mem_singleton] at hdx
        exact .inr (.inl (List.mem_map.mpr ⟨x, hplace, hdx.symm⟩))
  · obtain ⟨x, hx, hpx⟩ := List.mem_flatMap.mp hp
    obtain ⟨pos, hpos, rfl⟩ := List.mem_map.mp hpx
    obtain ⟨p, hused, hoff, -⟩ := h.holding.segs x hx pos hpos
    have hp : pos.m_offSet - IndexMemMgr.sizeofHashIndexSeg = p := by omega
    rw [hp] at hpx ⊢
    exact hchange.seg_idle h.holding.ordered hused
      (List.mem_flatMap.mpr ⟨x, hperm.mem_iff.mpr hx, hpx⟩)
  · rcases List.mem_cons.mp hn with rfl | hn
    · exact hchange.table_gone h.holding.ordered h.holding.mem (by simp)
    · obtain ⟨x, hx, hnx⟩ := List.mem_flatMap.mp hn
      obtain ⟨htree, hused⟩ := h.mem_auxTables hx hnx
      have heven := ((hplaces x).mp hx).resolve_right fun hplace => hodd x hplace htree
      exact hchange.table_gone h.holding.ordered hused
        (List.mem_append_left _ (List.mem_flatMap.mpr ⟨x, heven, hnx⟩))
  · exact hchange.index_gone h.holding.ordered (h.holding.used x hx) (hperm.mem_iff.mpr hx)

/-! ## A table with two indexes -/

/-- The code of the space is one byte without the sign. -/
theorem rowSpace_code_lt : 1 < 128 := by decide

/-- A table space of two pages. -/
def rowSpace : TableSpace where
  m_spaceName := ['p']
  m_spaceCode := 1
  m_sOffSet := 0
  m_size := 360
  m_pageSize := 160
  code_pos := Nat.one_pos
  code_lt := rowSpace_code_lt
  header_le := by decide
  size_le := by decide
  page_pos := by decide

/-- Two descriptors fit behind the header of their list. -/
theorem twoDescs_fit : 0 + ListManager.sizeofNodeListInfo + 2 * 40 < 2 ^ 64 := by decide

/-- One table space, the index space, and room for five tables and two indexes. -/
def smallSetup : Setup where
  m_tableMemMgr := ⟨[rowSpace], fun _ => 8, fun _ => [], by decide⟩
  m_indexMemMgr := IndexMemMgr.smallSpace
  m_tbDescMgr := ⟨0, 5, 40, ⟨[], 0, fun _ => 0, fun _ => [], 0⟩, by decide, by decide, by decide⟩
  m_idxDescMgr := ⟨0, 2, 40, ⟨[], .HASH_INDEX, [], nullShmPos⟩, Nat.two_pos, by decide, twoDescs_fit⟩

/-- A new list of descriptors, and the list after some calls. -/
def newList {T : Type} (cfg : ListManager.Config T) : ListManager.State T :=
  ListManager.initElements cfg
    ⟨0, 0, fun _ => 0, fun _ => 0, fun _ => ⟨0, 0, 0, .idle, cfg.zero⟩, fun _ => 0⟩

def listAfter {T : Type} (key : T → List Char) (cfg : ListManager.Config T)
    (calls : List (ListManager.Call T)) : ListManager.State T :=
  (run (ListManager.step key cfg) (newList cfg) calls).getD (newList cfg)

/-- The tables of a B-tree index are added. -/
def auxAdded (name : Name) : List (ListManager.Call TableDesc) :=
  [.addElement ⟨nodeTablePrefix ++ name, 0, fun _ => 0, fun _ => [], 0⟩ true,
    .addElement ⟨chainElemTablePrefix ++ name, 0, fun _ => 0, fun _ => [], 0⟩ true]

/-- A table with two indexes, of which the second is a hash index or a B-tree index. -/
def tablesAdded (tree : Bool) : List (ListManager.Call TableDesc) :=
  .addElement ⟨['T'], 2, smallSetup.m_idxDescMgr.node, fun i => if i = 0 then ['A'] else ['B'],
      0⟩ true ::
    (auxAdded ['A'] ++ if tree then auxAdded ['B'] else [])

def indexesAdded (tree : Bool) : List (ListManager.Call IndexDesc) :=
  [.addElement ⟨['A'], .TREE_INDEX, ['T'], ⟨1, 40⟩⟩ true,
    .addElement (if tree then ⟨['B'], .TREE_INDEX, ['T'], ⟨1, 48⟩⟩
      else ⟨['B'], .HASH_INDEX, ['T'], ⟨3, 1112⟩⟩) true]

/-- The index space, and the space with one hash table. -/
def noHash : IndexMemMgr.Sys := IndexMemMgr.start (IndexMemMgr.fresh IndexMemMgr.smallSpace)

def hashAdded : IndexMemMgr.Sys :=
  (IndexMemMgr.step IndexMemMgr.smallSpace noHash (.createHashIndex true ⟨['B'], 1⟩)).getD noHash

/-- The memory with the table and its indexes. -/
def twoIndexes (tree : Bool) : Mdb where
  m_tbDescMgr := listAfter TableDesc.key smallSetup.m_tbDescMgr (tablesAdded tree)
  m_idxDescMgr := listAfter IndexDesc.key smallSetup.m_idxDescMgr (indexesAdded tree)
  m_tableMemMgr := create smallSetup.m_tableMemMgr
    ⟨fun _ => ⟨0, 0, nullShmPos, nullShmPos, 0, 0, 0, 0, 0, 0⟩, fun _ _ => 0, fun _ => ⟨0, 0, 0⟩,
      fun _ => initPos⟩
  m_indexMemMgr := hashAdded.state

/-- The list after calls that add new names is kept in order. -/
theorem kept_listAfter {T : Type} {key : T → List Char} {cfg : ListManager.Config T}
    {calls : List (ListManager.Call T)}
    (hmeets : Meets (ListManager.step key cfg) (ListManager.AddsNew key) (newList cfg) calls)
    (hrun : (run (ListManager.step key cfg) (newList cfg) calls).isSome = true) :
    ListManager.Kept key cfg (listAfter key cfg calls) :=
  ListManager.kept_run hmeets (IndexMemMgr.eq_some_getD hrun (newList cfg))

/-- The two tables and the two indexes are in order. -/
theorem ordered_twoIndexes (tree : Bool) : Ordered smallSetup (twoIndexes tree) where
  tables := by
    refine kept_listAfter ?_ ?_
    · cases tree with
      | false => decide
      | true => decide
    · cases tree with
      | false => rfl
      | true => rfl
  indexes := by
    have hmeets : Meets (ListManager.step IndexDesc.key smallSetup.m_idxDescMgr)
        (ListManager.AddsNew IndexDesc.key) (newList smallSetup.m_idxDescMgr) (indexesAdded tree) := by
      cases tree with
      | false => decide
      | true => decide
    refine kept_listAfter hmeets ?_
    cases tree with
    | false => rfl
    | true => rfl
  pages := ⟨_, create_sound _ _, fun p d => (freshLayout_not_used _ p d).2⟩
  segs := by
    have hinit : IndexMemMgr.f_init IndexMemMgr.smallSpace IndexMemMgr.zeros =
        some (IndexMemMgr.fresh IndexMemMgr.smallSpace) := IndexMemMgr.eq_some_getD (by decide) _
    have hstep : IndexMemMgr.step IndexMemMgr.smallSpace noHash (.createHashIndex true ⟨['B'], 1⟩) =
        some hashAdded := IndexMemMgr.eq_some_getD (by decide) _
    obtain ⟨layout, used, idle, hsound⟩ :=
      (IndexMemMgr.sound_start hinit).step (by decide) hstep
    exact ⟨layout, used, idle, hsound.layout⟩

/-- The table and its indexes are stored where the descriptors say. -/
theorem stored_twoIndexes (tree : Bool) : Stored smallSetup (twoIndexes tree) 64 where
  holding := {
    ordered := ordered_twoIndexes tree
    mem := by revert tree; decide +kernel
    nodup := by revert tree; decide +kernel
    used := by revert tree; decide +kernel
    entries := by revert tree; decide +kernel
    index _ _ := rfl
    attached := by revert tree; decide +kernel
    typed := by revert tree; decide +kernel
    segs := by
      unfold IndexMemMgr.HashFits
      revert tree
      decide +kernel
    apart := by revert tree; decide +kernel }
  planted := by
    intro x hx htree
    have hindexes : ∀ tree, ((twoIndexes tree).table 64).indexes = [64, 104] := by decide +kernel
    rw [hindexes] at hx
    have hcases : x = 64 ∨ x = 104 ∧ tree = true := by
      revert tree x
      decide +kernel
    rcases hcases with rfl | ⟨rfl, rfl⟩
    · refine ⟨104, 144, ?_, ⟨?_, ?_, ?_⟩, ?_, ?_, ?_⟩
      all_goals
        revert tree
        decide +kernel
    · refine ⟨184, 224, ?_, ⟨?_, ?_, ?_⟩, ?_, ?_, ?_⟩
      all_goals decide +kernel

/-- Dropping the two indexes one after the other is safe. -/
theorem safe_twoIndexes (tree : Bool) :
    SafeDrops smallSetup.m_indexMemMgr (twoIndexes tree).m_indexMemMgr
      ((atEven ((twoIndexes tree).table 64).indexes ++
        atOdd ((twoIndexes tree).table 64).indexes).flatMap (hashHeader (twoIndexes tree))) := by
  have hheaders : (atEven ((twoIndexes tree).table 64).indexes ++
      atOdd ((twoIndexes tree).table 64).indexes).flatMap (hashHeader (twoIndexes tree)) =
        if tree then [] else [⟨3, 1112⟩] := by
    cases tree <;> rfl
  rw [hheaders]
  cases tree with
  | true => trivial
  | false => exact ⟨by decide, fun _ _ => trivial⟩

/-! ## When everything is released -/

/-- **A drop releases the whole table exactly when no B-tree index stands at an odd place of
its array.**  It always comes to an end, if the hash tables go back on safe ways. -/
theorem drop_releases_iff (h : Stored env s t) (hname : nameKey tableName = (s.table t).key)
    (hsafe : SafeDrops env.m_indexMemMgr s.m_indexMemMgr
      ((atEven (s.table t).indexes ++ atOdd (s.table t).indexes).flatMap (hashHeader s))) :
    ∃ s', drop env s tableName t = .ok s' ∧ (Released env s s' t ↔
      ∀ i, 2 * i + 1 < (s.table t).m_indexNum →
        (s.index ((s.table t).m_indexPosList (2 * i + 1))).m_indexType ≠ .TREE_INDEX) := by
  obtain ⟨s', hdrop, hchange⟩ := h.holding.drop h.planted hname hsafe
  refine ⟨s', hdrop, ?_⟩
  have hodd : ∀ x, x ∈ atOdd (s.table t).indexes ↔
      ∃ i, 2 * i + 1 < (s.table t).m_indexNum ∧ (s.table t).m_indexPosList (2 * i + 1) = x := by
    intro x
    rw [mem_atOdd]
    refine exists_congr fun i => ?_
    simp only [TableDesc.indexes, SortedSlice.slice, List.getElem?_map, Option.map_eq_some_iff,
      List.getElem?_eq_some_iff, List.length_range, List.getElem_range]
    constructor
    · rintro ⟨a, ⟨hi, rfl⟩, hx⟩
      exact ⟨hi, hx⟩
    · rintro ⟨hi, hx⟩
      exact ⟨_, ⟨hi, rfl⟩, hx⟩
  constructor
  · intro hreleased i hi htree
    have hx := (hodd _).mpr ⟨i, hi, rfl⟩
    obtain ⟨n, hn, hfound⟩ := h.tree_remains hchange hx htree
    have hgone := hreleased.tables n (List.mem_cons_of_mem t
      (List.mem_flatMap.mpr ⟨_, (atOdd_sublist _).subset hx, hn⟩))
    rw [hfound] at hgone
    cases hgone
  · intro htrees
    refine h.released hchange fun x hx => ?_
    obtain ⟨i, hi, rfl⟩ := (hodd x).mp hx
    exact htrees i hi

/-- A B-tree index and a hash index: everything is released. -/
theorem drop_releases_iff_twoIndexes :
    ∃ s', drop smallSetup (twoIndexes false) ['t'] 64 = .ok s' ∧
      Released smallSetup (twoIndexes false) s' 64 := by
  have hname : nameKey ['t'] = ((twoIndexes false).table 64).key := by decide +kernel
  obtain ⟨s', hdrop, hreleased⟩ :=
    drop_releases_iff (stored_twoIndexes false) hname (safe_twoIndexes false)
  refine ⟨s', hdrop, hreleased.mpr ?_⟩
  have hnum : ((twoIndexes false).table 64).m_indexNum = 2 := by decide +kernel
  intro i hi
  obtain rfl : i = 0 := by omega
  decide +kernel

/-- Two B-tree indexes: the tables of the second one are still there. -/
theorem drop_not_releases :
    ¬ ∀ (env : Setup) (s s' : Mdb) (tableName : Name) (t : Nat), Stored env s t →
      nameKey tableName = (s.table t).key →
      SafeDrops env.m_indexMemMgr s.m_indexMemMgr
        ((atEven (s.table t).indexes ++ atOdd (s.table t).indexes).flatMap (hashHeader s)) →
      drop env s tableName t = .ok s' → Released env s s' t := by
  intro h
  have hstored := stored_twoIndexes true
  have hname : nameKey ['T'] = ((twoIndexes true).table 64).key := by decide +kernel
  obtain ⟨s', hdrop, hchange⟩ := hstored.holding.drop hstored.planted hname (safe_twoIndexes true)
  have hreleased :=
    h smallSetup (twoIndexes true) s' ['T'] 64 hstored hname (safe_twoIndexes true) hdrop
  have hodd : 104 ∈ atOdd ((twoIndexes true).table 64).indexes := by decide +kernel
  obtain ⟨n, hn, hfound⟩ := hstored.tree_remains hchange hodd (by decide +kernel)
  have hgone := hreleased.tables n (List.mem_cons_of_mem 64
    (List.mem_flatMap.mpr ⟨104, (atOdd_sublist _).subset hodd, hn⟩))
  rw [hfound] at hgone
  cases hgone

end TableDescript
