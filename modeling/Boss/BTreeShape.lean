import Boss.BTreeSearch

/-!
# The shape of a B-tree under insertion

A `Tree` is an index whose nodes are stored levels.  `create` makes one with a single level, and every
insertion keeps it one, whether it succeeds or not (`Tree.insert`).  All that is said about the shape
of the nodes that can be reached from the root is read off the levels (`Tree.shaped`).
-/

namespace BTree

open SortedSlice

variable {Key : Type}

/-! ## Trees -/

/-- The nodes of the index are levels. -/
structure Tree (s : State Key) (M : Nat) (levels : List (Level Key)) : Prop where
  stored : Stored s.view M true levels
  nodup : (positions levels ++ s.freshNodes).Nodup
  ne_null : ∀ p ∈ positions levels ++ s.freshNodes, p ≠ nullShmPos
  used : positions levels ⊆ s.usedNodes
  root : s.m_header = rootOf levels

/-- What the memory manager promises about the nodes that it will hand out. -/
structure Fresh (s : State Key) : Prop where
  nodup : s.freshNodes.Nodup
  ne_null : ∀ p ∈ s.freshNodes, p ≠ nullShmPos

theorem Stored.exists_cons {v : ShmPosition → View Key} {M : Nat} {leaf : Bool}
    {levels : List (Level Key)} (h : Stored v M leaf levels) : ∃ low ups, levels = low :: ups := by
  cases levels with
  | nil => exact h.elim
  | cons low ups => exact ⟨low, ups, rfl⟩

/-- The topmost level is the root. -/
theorem Stored.top {v : ShmPosition → View Key} {M : Nat} {leaf : Bool} {levels : List (Level Key)}
    (h : Stored v M leaf levels) : ∃ lows b, levels = lows ++ [[b]] ∧ rootOf levels = b.pos ∧
      (v b.pos).parent = nullShmPos := by
  induction levels generalizing leaf with
  | nil => exact h.elim
  | cons low ups ih =>
      cases ups with
      | nil =>
          obtain ⟨-, b, rfl, hparent, -⟩ := h
          exact ⟨[], b, rfl, rfl, hparent⟩
      | cons up rest =>
          obtain ⟨lows, b, hlevels, hroot, hparent⟩ := ih h.2.2.2.2
          exact ⟨low :: lows, b, congrArg (low :: ·) hlevels, hroot, hparent⟩

/-- No level is empty. -/
theorem Stored.level_ne_nil {v : ShmPosition → View Key} {M : Nat} {leaf : Bool} (hM : 2 ≤ M)
    {low : Level Key} {ups : List (Level Key)} (h : Stored v M leaf (low :: ups)) : low ≠ [] := by
  induction ups generalizing low leaf with
  | nil =>
      obtain ⟨-, b, rfl, -⟩ := h
      exact List.cons_ne_nil _ _
  | cons up rest ih =>
      have hups : Stored v M false (up :: rest) := h.2.2.2.2
      obtain ⟨u, up, rfl⟩ := List.exists_cons_of_ne_nil (ih hups)
      obtain ⟨e, es, he⟩ := List.exists_cons_of_ne_nil (hups.ne_nil hM u List.mem_cons_self)
      obtain ⟨before, c, after, rfl, -⟩ := h.block_below (b := u) (e := e) List.mem_cons_self (by
        rw [he]
        exact List.mem_cons_self)
      simp

/-- There are at least as many nodes as levels. -/
theorem Stored.length_le {v : ShmPosition → View Key} {M : Nat} {leaf : Bool} (hM : 2 ≤ M)
    {levels : List (Level Key)} (h : Stored v M leaf levels) :
    levels.length ≤ (positions levels).length := by
  induction levels generalizing leaf with
  | nil => exact Nat.zero_le _
  | cons low ups ih =>
      have hlow : 0 < low.length := List.length_pos_iff.mpr (h.level_ne_nil hM)
      have hups : ups.length ≤ (positions ups).length := by
        cases ups with
        | nil => exact Nat.zero_le _
        | cons up rest => exact ih h.2.2.2.2
      rw [positions_cons, List.length_cons, List.length_append, places, List.length_map]
      omega

/-! ## The way to a leaf -/

/-- What is on a trail can be looked up. -/
theorem lookup_trail {frames : List (Frame Key)}
    (hnodup : (positions (frames.map Frame.level)).Nodup) :
    ∀ f ∈ frames, (trail frames).lookup f.pos = some f.left.length := by
  have hpos : (frames.map Frame.pos).Nodup := by
    refine hnodup.sublist ?_
    clear hnodup
    induction frames with
    | nil => exact List.Sublist.refl _
    | cons f fs ih =>
        have hone : [f.pos].Sublist (places f.level) := by
          simp [Frame.level, Frame.block]
        exact hone.append ih
  intro f hf
  obtain ⟨fs, gs, rfl⟩ := List.append_of_mem hf
  rw [List.lookup_eq_some_iff]
  refine ⟨trail gs, trail fs, ?_, fun p hp => ?_⟩
  · simp [trail]
  · obtain ⟨g, hg, rfl⟩ := List.mem_map.mp hp
    rw [List.map_append, List.map_cons, List.nodup_append, List.nodup_cons] at hpos
    rw [bne_iff_ne]
    rintro heq
    exact hpos.2.1.1 (List.mem_map.mpr ⟨g, List.mem_reverse.mp hg, heq.symm⟩)

variable [LinearOrder Key]

omit [LinearOrder Key] in
/-- **The search in a tree goes down to a leaf**, and an insertion can begin there. -/
theorem Tree.wayDown {s : State Key} {M : Nat} {levels : List (Level Key)} (h : Tree s M levels)
    (hM : 2 ≤ M) (below : Key → Bool) :
    ∃ frames before b after, levels = (before ++ b :: after) :: frames.map Frame.level ∧
      BTree.wayDown s below s.depth s.m_header [] = .ok (b.pos, trail frames) ∧
      Routed below frames ∧ frames.length + 2 ≤ s.depth ∧
      ∀ addr, Ready s M (trail frames) true frames before b after addr := by
  obtain ⟨lows, r, hlevels, hroot, -⟩ := h.stored.top
  have hlength : levels.length < s.depth := by
    have hsub := (List.subperm_of_subset (List.nodup_append.mp h.nodup).1 h.used).length_le
    have hle := h.stored.length_le hM
    rw [State.depth]
    omega
  have hstored : Stored s.view M true (lows ++ ([] ++ r :: []) :: [].map Frame.level) := by
    have hstored := h.stored
    rwa [hlevels] at hstored
  obtain ⟨frames, before, b, after, hway, hall, hleads, hrouted⟩ := wayDown_spec (b := r) hM below
    hstored trivial (fun f hf => absurd hf List.not_mem_nil) s.depth (by
      rw [hlevels, List.length_append] at hlength
      omega)
  have hall' : levels = (before ++ b :: after) :: frames.map Frame.level := hlevels.trans hall
  refine ⟨frames, before, b, after, hall', ?_, hrouted, ?_, fun addr => ?_⟩
  · rw [h.root, hroot]
    exact hway
  · rw [hall', List.length_cons, List.length_map] at hlength
    omega
  · have hnodup := h.nodup
    have hne := h.ne_null
    rw [hall'] at hnodup hne
    refine ⟨hall' ▸ h.stored, lookup_trail ?_, hleads, hnodup, hne, fun hleaf => Bool.noConfusion hleaf⟩
    have hpositions := (List.nodup_append.mp hnodup).1
    rw [positions_cons] at hpositions
    exact (List.nodup_append.mp hpositions).2.1

/-! ## One insertion -/

/-- A search in the node at `p` takes the slot in front of the first one for its element: the node is
empty, the key lies there, and it leads to records. -/
def LedInFront (front : Front Key) (s : State Key) (key : Key) (p : ShmPosition) : Prop :=
  (s.node p).m_pCurrentNum = 0 ∧ key ≠ ((s.node p).elemt 0).m_pKeyValue ∧
    key = (front s.node s.chain p).m_pKeyValue ∧ (front s.node s.chain p).records.isSome

instance (front : Front Key) (s : State Key) (key : Key) (p : ShmPosition) :
    Decidable (LedInFront front s key p) := inferInstanceAs (Decidable (_ ∧ _))

/-- A search ends at the leaf that the way leads to. -/
theorem searchLeaf_cases (front : Front Key) (s : State Key) (key : Key) (p : ShmPosition)
    (path : Path) :
    searchLeaf front s key p path = .ok ⟨false, [], p, path, false⟩ ∨
      (∃ i results, searchLeaf front s key p path =
        .ok ⟨true, results, p, path ++ [(p, i)], false⟩) ∨
      searchLeaf front s key p path = .error .noAddress ∨
      LedInFront front s key p ∧
        ∃ results, searchLeaf front s key p path = .ok ⟨true, results, p, path, true⟩ := by
  unfold searchLeaf
  dsimp only
  split_ifs with hfirst hempty hslot hlast
  · exact Or.inr (Or.inl ⟨_, _, rfl⟩)
  · cases hrecords : (front s.node s.chain p).records with
    | none => exact Or.inr (Or.inr (Or.inl rfl))
    | some results =>
        have hne : key ≠ ((s.node p).elemt 0).m_pKeyValue := by
          rwa [Node.narrow, hempty] at hfirst
        exact Or.inr (Or.inr (Or.inr ⟨⟨hempty, hne, hslot, by simp [hrecords]⟩, _, rfl⟩))
  · exact Or.inl rfl
  · exact Or.inr (Or.inl ⟨_, _, rfl⟩)
  · exact Or.inl rfl

omit [LinearOrder Key] in
/-- The elements of a leaf are replaced by as many others. -/
theorem Stored.replaceLeaf {v : ShmPosition → View Key} {M : Nat} {before after : Level Key}
    {b : Block Key} {ups : List (Level Key)} (h : Stored v M true ((before ++ b :: after) :: ups))
    (hnodup : (positions ((before ++ b :: after) :: ups)).Nodup) {es : List (Elem Key)}
    (hlength : es.length = b.elems.length) :
    Stored (Function.update v b.pos { v b.pos with elems := es }) M true
      ((before ++ ⟨b.pos, es⟩ :: after) :: ups) := by
  rw [positions_cons, List.nodup_append, places_append, places_cons, List.nodup_append,
    List.nodup_cons] at hnodup
  obtain ⟨⟨-, ⟨hafter, -⟩, hbefore⟩, -, hups⟩ := hnodup
  generalize hv' : Function.update v b.pos { v b.pos with elems := es } = v'
  have hat : v' b.pos = { v b.pos with elems := es } := by rw [← hv', Function.update_self]
  have hother : ∀ p, p ≠ b.pos → v' p = v p := fun p hp => by
    rw [← hv', Function.update_of_ne hp]
  have hparent : ∀ p, (v' p).parent = (v p).parent := by
    intro p
    by_cases hp : p = b.pos
    · rw [hp, hat]
    · rw [hother p hp]
  have hmem : ∀ c ∈ before ++ (⟨b.pos, es⟩ : Block Key) :: after,
      c = ⟨b.pos, es⟩ ∨ c ∈ before ++ b :: after ∧ c.pos ≠ b.pos := by
    intro c hc
    rcases List.mem_append.mp hc with hc | hc
    · exact Or.inr ⟨List.mem_append_left _ hc,
        hbefore _ (List.mem_map_of_mem hc) _ List.mem_cons_self⟩
    · rcases List.mem_cons.mp hc with hc | hc
      · exact Or.inl hc
      · refine Or.inr ⟨List.mem_append_right _ (List.mem_cons_of_mem _ hc), fun heq => hafter ?_⟩
        exact List.mem_map.mpr ⟨c, hc, heq⟩
  have hself : b ∈ before ++ b :: after := by simp
  have hholds : ∀ c ∈ before ++ (⟨b.pos, es⟩ : Block Key) :: after, Holds v' M true c := by
    intro c hc
    rcases hmem c hc with rfl | ⟨hc, hne⟩
    · have hold := h.holds b hself
      refine ⟨?_, ?_, ?_, hlength.trans_le hold.room⟩
      · rw [hat]
        exact hold.maxNum
      · rw [hat]
        exact hold.leaf_iff
      · rw [hat]
    · have hsame := hother c.pos hne
      exact (h.holds c hc).congr (by rw [hsame]) (by rw [hsame]) (by rw [hsame])
  cases ups with
  | nil =>
      obtain ⟨-, d, hd, hroot, -⟩ := h
      obtain ⟨rfl, rfl⟩ := single_block ⟨d, hd⟩
      obtain rfl := (List.cons.inj hd).1
      exact ⟨hholds, ⟨b.pos, es⟩, rfl, (hparent _).trans hroot, fun hleaf => Bool.noConfusion hleaf⟩
  | cons up rest =>
      obtain ⟨-, hhalf, hperm, hparents, hstored⟩ := h
      refine ⟨hholds, fun c hc => ?_, by simpa using hperm, fun u hu e he => ?_,
        hstored.congr fun p hp => hother p ?_⟩
      · rcases hmem c hc with rfl | ⟨hc, -⟩
        · exact (hhalf b hself).trans hlength.ge
        · exact hhalf c hc
      · rw [hparent]
        exact hparents u hu e he
      · rintro rfl
        exact hups _ (by simp) _ hp rfl

/-- An insertion ends well, or with an exception of one of three kinds; the state that it leaves is
`good` even then. -/
def Ends {α : Type} (r : Outcome Key α) (done : α → Prop) (good : State Key → Prop) : Prop :=
  match r with
  | .ok a => done a
  | .error (f, t) => (f = .repeated ∨ f = .noMemory ∨ f = .noAddress) ∧ good t

omit [LinearOrder Key] in
/-- Nodes that were fresh come into a tree. -/
theorem Tree.of_takes {s t : State Key} {M : Nat} {levels levels' : List (Level Key)}
    {root : ShmPosition} (taken : List ShmPosition) (h : Tree s M levels)
    (hfresh : s.freshNodes = taken ++ t.freshNodes) (hused : t.usedNodes = taken.reverse ++ s.usedNodes)
    (hstored : Stored t.view M true levels') (hnodup : (positions levels').Nodup)
    (hsub : positions levels' ⊆ taken ++ positions levels) (hroot : root = rootOf levels') :
    Tree { t with m_header := root } M levels' := by
  have hall := h.nodup
  rw [hfresh, List.nodup_append, List.nodup_append] at hall
  obtain ⟨-, ⟨-, htnodup, hcross⟩, hold⟩ := hall
  constructor
  · exact hstored
  · refine List.nodup_append.mpr ⟨hnodup, htnodup, fun p hp p' hp' => ?_⟩
    rcases List.mem_append.mp (hsub hp) with hp | hp
    · exact hcross p hp p' hp'
    · exact hold p hp p' (List.mem_append_right _ hp')
  · intro p hp
    refine h.ne_null p ?_
    rw [hfresh]
    rcases List.mem_append.mp hp with hp | hp
    · rcases List.mem_append.mp (hsub hp) with hp | hp
      · exact List.mem_append_right _ (List.mem_append_left _ hp)
      · exact List.mem_append_left _ hp
    · exact List.mem_append_right _ (List.mem_append_right _ hp)
  · intro p hp
    change p ∈ t.usedNodes
    rw [hused]
    rcases List.mem_append.mp (hsub hp) with hp | hp
    · exact List.mem_append_left _ (List.mem_reverse.mpr hp)
    · exact List.mem_append_right _ (h.used hp)
  · exact hroot

/-- The elements of a block are replaced by as many others; the chain elements may change too. -/
def Replaced (s t : State Key) (b : Block Key) : Prop :=
  ∃ es, es.length = b.elems.length ∧
    t.view = Function.update s.view b.pos { s.view b.pos with elems := es } ∧
    t = { s with
      node := t.node
      chain := t.chain
      freshChain := t.freshChain
      usedChain := t.usedChain }

omit [LinearOrder Key] in
/-- A repeated key changes an element of a leaf. -/
theorem insertRepeated_spec {s : State Key} {M : Nat} {path : Path} {b : Block Key}
    (addr : ShmPosition) (h : Holds s.view M true b) (hM : 2 ≤ M) {i : Nat}
    (hpath : path.lookup b.pos = some i) :
    Ends (insertRepeated s path b.pos addr) (Replaced s · b) (Replaced s · b) := by
  have hmax : (s.node b.pos).m_iMaxNum = M := h.maxNum
  have hnum : (s.node b.pos).m_pCurrentNum = b.elems.length := by
    rw [Node.currentNum_eq]
    exact congrArg List.length h.elems
  have hroom := h.room
  have hguard : ¬ ((s.node b.pos).m_iMaxNum < (s.node b.pos).m_pCurrentNum ∨
      (s.node b.pos).m_iMaxNum = 0) := by omega
  unfold insertRepeated
  dsimp only
  rw [if_neg hguard, State.getElemPosiInNode, hpath, State.allocateChain]
  cases s.freshChain with
  | nil =>
      refine ⟨Or.inr (Or.inl rfl), b.elems, rfl, ?_, rfl⟩
      rw [← h.elems]
      exact (Function.update_eq_self _ _).symm
  | cons c rest =>
      refine ⟨slice (Function.update (s.node b.pos).elemt i
        { (s.node b.pos).elemt i with m_pNext := c, m_pRecordAddrs := c })
        (s.node b.pos).m_pCurrentNum, ?_, view_setNode _ _ _, rfl⟩
      rw [slice_length]
      exact hnum

omit [LinearOrder Key] in
/-- Only the root of a tree can be empty. -/
theorem Ready.empty_root {s : State Key} {M : Nat} {path : Path} {frames : List (Frame Key)}
    {before after : Level Key} {b : Block Key} {addr : ShmPosition}
    (h : Ready s M path true frames before b after addr) (hM : 2 ≤ M) (hempty : b.elems = []) :
    rootOf ((before ++ b :: after) :: frames.map Frame.level) = b.pos := by
  cases frames with
  | nil =>
      obtain ⟨-, d, hd, -⟩ := h.stored
      obtain ⟨rfl, rfl⟩ := single_block ⟨d, hd⟩
      rfl
  | cons f fs =>
      have hhalf := h.stored.2.1 b (by simp)
      rw [hempty, List.length_nil] at hhalf
      omega

/-- **Every insertion through an object with the root keeps the tree**, even if it fails, unless it
goes on in front of the first slot. -/
theorem Tree.insert {s : State Key} {M : Nat} {levels : List (Level Key)} (h : Tree s M levels)
    (hM : 2 ≤ M) {o : IndexBTree} (ho : o.m_pRootNode = s.m_header) (front : Front Key) (key : Key)
    (addr : ShmPosition) (hfront : s.m_isUnique = true ∨ ¬ LedInFront front s key s.m_header) :
    Ends (o.insert front s key addr)
      (fun r => r.2.m_pRootNode = r.1.m_header ∧ ∃ levels', Tree r.1 M levels')
      (fun t => t.m_header = s.m_header ∧ ∃ levels', Tree t M levels') := by
  obtain ⟨frames, before, b, after, hlevels, hway, -, hrounds, hready⟩ := h.wayDown hM (· ≤ key)
  have hempty := hready addr |>.empty_root hM
  have hready := hready addr
  have hsearch : o.search front s key = searchLeaf front s key b.pos (trail frames) := by
    rw [IndexBTree.search, ho, hway]
    rfl
  unfold IndexBTree.insert
  rw [hsearch]
  rcases searchLeaf_cases front s key b.pos (trail frames) with
    hleaf | ⟨i, results, hleaf⟩ | hleaf | ⟨hled, results, hleaf⟩
  · rw [hleaf]
    -- the key is new
    rcases nodeInsert_spec hM hready key hrounds with ⟨t, levels', taken, hfail, habandoned⟩ |
      ⟨t, levels', taken, root, hok, hins⟩
    · have hheader : t.m_header = s.m_header := by rw [habandoned.takes.2]
      have hroot : t.m_header = rootOf levels' := by
        rw [hheader, habandoned.root_eq, ← hlevels]
        exact h.root
      have htree : Tree { t with m_header := t.m_header } M levels' := by
        refine h.of_takes _ habandoned.takes.1 (by rw [habandoned.takes.2]) habandoned.stored
          habandoned.nodup ?_ hroot
        rw [hlevels]
        exact habandoned.subset
      simp only [Except.mapError, bind, Except.bind, Bool.false_eq_true, if_false, hfail]
      exact ⟨Or.inr (Or.inl rfl), hheader, levels', htree⟩
    · have hheader : t.m_header = s.m_header := by rw [hins.takes.2]
      have hroot : root.getD t.m_header = rootOf levels' := by
        rw [hheader, ← hins.root_eq, ← hlevels, ← h.root]
      have htree : Tree { t with m_header := root.getD t.m_header } M levels' := by
        refine h.of_takes _ hins.takes.1 (by rw [hins.takes.2]) hins.stored ?_ ?_ hroot
        · rw [hins.perm.nodup_iff, ← hlevels]
          have hnodup := h.nodup
          rw [hins.takes.1, ← List.append_assoc, List.nodup_append] at hnodup
          exact List.nodup_append_comm.mp hnodup.1
        · rw [hlevels]
          exact hins.perm.subset
      simp only [Except.mapError, bind, Except.bind, Bool.false_eq_true, if_false, hok]
      cases root with
      | none => exact ⟨ho.trans hheader.symm, levels', htree⟩
      | some p => exact ⟨rfl, levels', htree⟩
  · rw [hleaf]
    -- the key is there
    simp only [Except.mapError, bind, Except.bind, if_true, Bool.false_eq_true, if_false]
    split_ifs
    · exact ⟨Or.inl rfl, rfl, levels, h⟩
    · have hpath : ∃ j, (trail frames ++ [(b.pos, i)]).lookup b.pos = some j := by
        rw [List.lookup_append, List.lookup_cons_self]
        cases (trail frames).lookup b.pos with
        | none => exact ⟨i, rfl⟩
        | some j => exact ⟨j, rfl⟩
      obtain ⟨j, hpath⟩ := hpath
      have hkeeps : ∀ t, Replaced s t b → t.m_header = s.m_header ∧ ∃ levels', Tree t M levels' := by
        rintro t ⟨es, hlength, hview, hrest⟩
        have hheader : t.m_header = s.m_header := by rw [hrest]
        refine ⟨hheader, (before ++ ⟨b.pos, es⟩ :: after) :: frames.map Frame.level, ?_⟩
        have hplaces : positions ((before ++ ⟨b.pos, es⟩ :: after) :: frames.map Frame.level) =
            positions levels := by
          rw [hlevels]
          simp
        have hnodup := (List.nodup_append.mp h.nodup).1
        rw [hlevels] at hnodup
        have htree : Tree { t with m_header := t.m_header } M
            ((before ++ ⟨b.pos, es⟩ :: after) :: frames.map Frame.level) := by
          refine h.of_takes [] ?_ ?_ ?_ ?_ ?_ ?_
          · rw [hrest]
            rfl
          · rw [hrest]
            rfl
          · rw [hview]
            exact hready.stored.replaceLeaf hnodup hlength
          · rw [hplaces]
            exact (List.nodup_append.mp h.nodup).1
          · rw [hplaces]
            exact List.Subset.refl _
          · rw [hheader]
            refine h.root.trans (rootOf_congr ?_)
            rw [hlevels]
            simp
        exact htree
      have hspec := insertRepeated_spec addr hready.holds hM hpath
      cases hresult : insertRepeated s (trail frames ++ [(b.pos, i)]) b.pos addr with
      | ok t =>
          rw [hresult] at hspec
          obtain ⟨hheader, htree⟩ := hkeeps t hspec
          exact ⟨ho.trans hheader.symm, htree⟩
      | error e =>
          rw [hresult] at hspec
          exact ⟨hspec.1, hkeeps _ hspec.2⟩
  · rw [hleaf]
    exact ⟨Or.inr (Or.inr rfl), rfl, levels, h⟩
  · rw [hleaf]
    have hnone : b.elems = [] := by
      rw [← List.length_eq_zero_iff, ← hready.holds.elems]
      exact (Node.currentNum_eq _).symm.trans hled.1
    have hunique : s.m_isUnique = true := by
      refine hfront.resolve_right fun hnot => hnot ?_
      rwa [h.root, hlevels, hempty hnone]
    simp only [Except.mapError, bind, Except.bind, if_true, hunique]
    exact ⟨Or.inl rfl, rfl, levels, h⟩

/-! ## The shape -/

/-- The nodes that are so many steps below the root. -/
inductive Reached (s : State Key) : Nat → ShmPosition → Prop
  | root : Reached s 0 s.m_header
  | child {n p i} : Reached s n p → (s.node p).isLeafNode = false →
      i < (s.node p).m_pCurrentNum → Reached s (n + 1) ((s.node p).elemt i).m_pRecordAddrs

/-- The shape of a B-tree: all leaves are at the same depth, no node but the root is less than half
full, none has more elements than it has slots, and every child knows the node that has it in an
element. -/
structure Shaped (s : State Key) (M : Nat) : Prop where
  sameDepth : ∃ d, (∃ p, Reached s d p) ∧
    ∀ n p, Reached s n p → ((s.node p).isLeafNode = true ↔ n = d)
  atLeast : ∀ n p, Reached s n p → p ≠ s.m_header →
    (s.node p).m_iMaxNum / 2 ≤ (s.node p).m_pCurrentNum
  atMost : ∀ n p, Reached s n p → (s.node p).m_iMaxNum = M ∧
    (s.node p).m_pCurrentNum ≤ (s.node p).m_iMaxNum
  parent : ∀ n p i, Reached s n p → (s.node p).isLeafNode = false →
    i < (s.node p).m_pCurrentNum → (s.node ((s.node p).elemt i).m_pRecordAddrs).m_pParentNode = p

section

variable {s : State Key} {M : Nat} {levels : List (Level Key)}

omit [LinearOrder Key] in
/-- A node in so many steps below the root is in the level that is so far below the topmost. -/
theorem Tree.reached (h : Tree s M levels) {n : Nat} {p : ShmPosition} (hp : Reached s n p) :
    ∃ lows l ups b, levels = lows ++ l :: ups ∧ ups.length = n ∧ b ∈ l ∧ b.pos = p := by
  induction hp with
  | root =>
      obtain ⟨lows, b, hlevels, hroot, -⟩ := h.stored.top
      exact ⟨lows, [b], [], b, hlevels, rfl, List.mem_cons_self, hroot.symm.trans h.root.symm⟩
  | @child n p i hp hleaf hi ih =>
      obtain ⟨lows, l, ups, b, hlevels, hlength, hb, rfl⟩ := ih
      have hstored := h.stored
      rw [hlevels] at hstored
      cases lows using List.reverseRecOn with
      | nil =>
          have hholds := hstored.holds b hb
          rw [isLeafNode_eq, decide_eq_false_iff_not] at hleaf
          exact absurd (hholds.leaf_iff.mp rfl) hleaf
      | append_singleton lows low _ =>
          rw [List.append_assoc, List.singleton_append] at hstored hlevels
          have hpair := hstored.suffix
          have hholds := (Stored.holds hpair.2.2.2.2) b hb
          have helems : (s.node b.pos).view.elems = b.elems := hholds.elems
          have hlt : i < (s.node b.pos).view.elems.length := by
            rwa [← Node.currentNum_eq]
          have hmem : (s.node b.pos).elemt i ∈ b.elems := by
            rw [Node.elemt_eq _ hlt, ← helems]
            exact List.getElem_mem hlt
          obtain ⟨before, c, after, rfl, haddr⟩ := hpair.block_below hb hmem
          refine ⟨lows, _, l :: ups, c, hlevels, ?_, ?_, haddr.symm⟩
          · rw [List.length_cons, hlength]
          · simp

omit [LinearOrder Key] in
/-- **A tree has the shape of a B-tree.** -/
theorem Tree.shaped (h : Tree s M levels) (hM : 2 ≤ M) : Shaped s M := by
  -- what is known of a node that is reached
  have hnode : ∀ {n p}, Reached s n p → ∃ lows l ups b, levels = lows ++ l :: ups ∧
      ups.length = n ∧ b ∈ l ∧ b.pos = p ∧ Stored s.view M lows.isEmpty (l :: ups) ∧
      Holds s.view M lows.isEmpty b ∧ ((s.node p).isLeafNode = true ↔ lows = []) := by
    intro n p hp
    obtain ⟨lows, l, ups, b, hlevels, hlength, hb, rfl⟩ := h.reached hp
    have hstored := h.stored
    rw [hlevels] at hstored
    have hsuffix : Stored s.view M lows.isEmpty (l :: ups) := by
      simpa using hstored.suffix
    have hholds := hsuffix.holds b hb
    refine ⟨lows, l, ups, b, hlevels, hlength, hb, rfl, hsuffix, hholds, ?_⟩
    rw [isLeafNode_eq, decide_eq_true_iff, ← List.isEmpty_iff]
    exact hholds.leaf_iff.symm
  have hnum : ∀ {leaf} {b : Block Key}, Holds s.view M leaf b →
      (s.node b.pos).m_pCurrentNum = b.elems.length := by
    intro leaf b hb
    rw [Node.currentNum_eq]
    exact congrArg List.length hb.elems
  have hmax : ∀ {leaf} {b : Block Key}, Holds s.view M leaf b → (s.node b.pos).m_iMaxNum = M :=
    fun hb => hb.maxNum
  obtain ⟨low, ups, rfl⟩ := h.stored.exists_cons
  constructor
  · refine ⟨ups.length, ?_, fun n p hp => ?_⟩
    · have hdown : ∀ n ≤ ups.length, ∃ p, Reached s n p := by
        intro n
        induction n with
        | zero => exact fun _ => ⟨_, .root⟩
        | succ n ih =>
            intro hn
            obtain ⟨p, hp⟩ := ih (by omega)
            obtain ⟨lows, l, ups', b, hlevels, hlength, hb, rfl, hsuffix, hholds, hleaf⟩ := hnode hp
            have hlows : lows ≠ [] := by
              rintro rfl
              obtain ⟨-, rfl⟩ := List.cons.inj hlevels
              omega
            have hempty : lows.isEmpty = false := by
              rwa [← Bool.not_eq_true, List.isEmpty_iff]
            have hinner : (s.node b.pos).isLeafNode = false := by
              rwa [← Bool.not_eq_true, hleaf]
            rw [hempty] at hsuffix
            have hne := hsuffix.ne_nil hM b hb
            refine ⟨_, .child (i := 0) hp hinner ?_⟩
            rw [hnum hholds]
            exact List.length_pos_iff.mpr hne
      exact hdown _ le_rfl
    · obtain ⟨lows, l, ups', b, hlevels, hlength, -, -, -, -, hleaf⟩ := hnode hp
      have hcount := congrArg List.length hlevels
      rw [List.length_cons, List.length_append, List.length_cons] at hcount
      rw [hleaf, ← List.length_eq_zero_iff]
      omega
  · intro n p hp hroot
    obtain ⟨lows, l, ups', b, hlevels, hlength, hb, rfl, hsuffix, hholds, -⟩ := hnode hp
    rw [hmax hholds, hnum hholds]
    cases ups' with
    | nil =>
        obtain ⟨-, r, rfl, -⟩ := hsuffix
        obtain rfl := List.mem_singleton.mp hb
        obtain ⟨lows', r, htop, hrootOf, -⟩ := h.stored.top
        have hsame := List.append_inj_right' (hlevels.symm.trans htop) rfl
        obtain rfl := (List.cons.inj (List.cons.inj hsame).1).1
        exact absurd (hrootOf.symm.trans h.root.symm) hroot
    | cons up rest => exact hsuffix.2.1 b hb
  · intro n p hp
    obtain ⟨lows, l, ups', b, -, -, -, rfl, -, hholds, -⟩ := hnode hp
    refine ⟨hmax hholds, ?_⟩
    rw [hmax hholds, hnum hholds]
    exact hholds.room
  · intro n p i hp hinner hi
    obtain ⟨lows, l, ups', b, hlevels, -, hb, rfl, -, hholds, hleaf⟩ := hnode hp
    have hstored := h.stored
    rw [hlevels] at hstored
    cases lows using List.reverseRecOn with
    | nil =>
        rw [hleaf.mpr rfl] at hinner
        cases hinner
    | append_singleton lows low _ =>
        rw [List.append_assoc, List.singleton_append] at hstored
        have hparents := hstored.suffix.2.2.2.1
        have helems : (s.node b.pos).view.elems = b.elems := hholds.elems
        have hlt : i < (s.node b.pos).view.elems.length := by
          rwa [← Node.currentNum_eq]
        refine hparents b hb _ ?_
        rw [Node.elemt_eq _ hlt, ← helems]
        exact List.getElem_mem hlt

end

omit [LinearOrder Key] in
/-- A new index is a tree. -/
theorem create_tree {s t : State Key} {o : IndexBTree} {M : Nat} (hfresh : Fresh s)
    (hcreate : create s M = .ok (t, o)) :
    ∃ r, Tree t M [[⟨r, []⟩]] := by
  cases hnodes : s.freshNodes with
  | nil =>
      rw [create, State.allocateNode, hnodes] at hcreate
      cases hcreate
  | cons r rest =>
      rw [create, State.allocateNode, hnodes] at hcreate
      cases hcreate
      refine ⟨r, ?_⟩
      have hnodup := hfresh.nodup
      have hne := hfresh.ne_null
      rw [hnodes] at hnodup hne
      generalize hs' : ({ s with freshNodes := rest, usedNodes := r :: s.usedNodes } : State Key) = s'
      have hview : ((s'.setNode r ((s'.node r).initial M)).setNodeTypeLeaf r).view r =
          ⟨noBrother, nullShmPos, M, []⟩ := by
        rw [State.setNodeTypeLeaf, view_setBrotherNode, Function.update_self, view_setNode,
          Function.update_self]
        rfl
      constructor
      · refine ⟨fun b hb => ?_, _, rfl, ?_, fun hleaf => Bool.noConfusion hleaf⟩
        · obtain rfl := List.mem_singleton.mp hb
          refine ⟨congrArg View.maxNum hview, ?_, congrArg View.elems hview, Nat.zero_le _⟩
          have hbrother : noBrother ≠ nullShmPos := by decide
          exact iff_of_true rfl ((congrArg View.brother hview).trans_ne hbrother)
        · exact congrArg View.parent hview
      · subst hs'
        exact hnodup
      · subst hs'
        exact hne
      · subst hs'
        simp [positions, places, State.setNodeTypeLeaf, State.setBrotherNode, State.setNode]
      · rfl

end BTree
