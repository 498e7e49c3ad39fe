import Boss.BTreeInsert

/-!
# The way down a B-tree

The way from the root to a leaf passes through one block of every level, and its path has the position
of the element in each of them (`wayDown_spec`).  When the levels are ordered, all elements in front of
the leaf are below what is looked for and all behind it are not (`Routed.split`).
-/

namespace BTree

variable {Key : Type}

/-- What a search notes on its way to the frames. -/
def trail (frames : List (Frame Key)) : Path := frames.reverse.map fun f => (f.pos, f.left.length)

/-- In every frame the way has gone as far to the right as it can. -/
def Routed (below : Key → Bool) (frames : List (Frame Key)) : Prop :=
  ∀ f ∈ frames, (f.left = [] ∨ below f.elem.m_pKeyValue = true) ∧
    ∀ a ∈ f.right.head?, below a.m_pKeyValue = false

/-- Binary search ends with two neighbours, if it begins with two elements. -/
theorem narrow_spec (n : Node Key) (below : Key → Bool) (rounds iFirst iLast : Nat)
    (hrounds : iLast - iFirst ≤ rounds + 1) (hle : iFirst ≤ iLast) {top : Nat}
    (hfirst : iFirst = 0 ∨ below (n.elemt iFirst).m_pKeyValue = true)
    (hlast : iLast = top ∨ below (n.elemt iLast).m_pKeyValue = false) :
    ∃ i j, narrow n below rounds iFirst iLast = (i, j) ∧ i ≤ j ∧ j ≤ i + 1 ∧ j ≤ iLast ∧
      (iFirst < iLast → i < j) ∧ (i = 0 ∨ below (n.elemt i).m_pKeyValue = true) ∧
      (j = top ∨ below (n.elemt j).m_pKeyValue = false) := by
  induction rounds generalizing iFirst iLast with
  | zero => exact ⟨iFirst, iLast, rfl, hle, by omega, le_rfl, id, hfirst, hlast⟩
  | succ rounds ih =>
      rw [narrow]
      by_cases hgo : iLast - iFirst > 1
      · rw [if_pos hgo]
        have hmid : iFirst < iFirst + (iLast - iFirst) / 2 ∧
            iFirst + (iLast - iFirst) / 2 < iLast := by omega
        by_cases hkey : below (n.elemt (iFirst + (iLast - iFirst) / 2)).m_pKeyValue = true
        · rw [if_pos hkey]
          obtain ⟨i, j, hij, hle, hnext, hbelow, hlt, hi, hj⟩ :=
            ih _ _ (by omega) hmid.2.le (Or.inr hkey) hlast
          exact ⟨i, j, hij, hle, hnext, hbelow, fun _ => hlt hmid.2, hi, hj⟩
        · rw [if_neg hkey]
          obtain ⟨i, j, hij, hle, hnext, hbelow, hlt, hi, hj⟩ :=
            ih iFirst _ (by omega) hmid.1.le hfirst (Or.inr (Bool.eq_false_of_not_eq_true hkey))
          exact ⟨i, j, hij, hle, hnext, by omega, fun _ => hlt hmid.1, hi, hj⟩
      · rw [if_neg hgo]
        exact ⟨iFirst, iLast, rfl, hle, by omega, le_rfl, id, hfirst, hlast⟩

/-- The two neighbours, in a node with elements. -/
theorem Node.narrow_spec {n : Node Key} (hn : 0 < n.m_pCurrentNum) (below : Key → Bool) :
    ∃ i j, n.narrow below = (i, j) ∧ i ≤ j ∧ j ≤ i + 1 ∧ j < n.m_pCurrentNum ∧
      (1 < n.m_pCurrentNum → i < j) ∧ (i = 0 ∨ below (n.elemt i).m_pKeyValue = true) ∧
      (j + 1 = n.m_pCurrentNum ∨ below (n.elemt j).m_pKeyValue = false) := by
  obtain ⟨i, j, hij, hle, hnext, hlast, hlt, hi, hj⟩ :=
    BTree.narrow_spec n below n.m_pCurrentNum 0 (n.m_pCurrentNum - 1) (by omega) (by omega)
      (Or.inl rfl) (Or.inl rfl)
  refine ⟨i, j, hij, hle, hnext, by omega, fun h => hlt (by omega), hi, ?_⟩
  rcases hj with hj | hj
  · exact Or.inl (by omega)
  · exact Or.inr hj

/-- The way goes down through the last element that is below, or through the first one. -/
theorem Node.downElem_spec {n : Node Key} {es : List (Elem Key)} (hn : n.view.elems = es)
    (hne : es ≠ []) (below : Key → Bool) : ∃ left e right, es = left ++ e :: right ∧
      n.downElem below = left.length ∧ (left = [] ∨ below e.m_pKeyValue = true) ∧
      ∀ a ∈ right.head?, below a.m_pKeyValue = false := by
  subst hn
  have hnum := n.currentNum_eq
  have hpos : 0 < n.m_pCurrentNum := by
    rw [hnum]
    exact List.length_pos_iff.mpr hne
  obtain ⟨i, j, hij, hle, hnext, hlast, hlt, hi, hj⟩ := Node.narrow_spec hpos below
  have hsplit : ∀ k (hk : k < n.view.elems.length), n.view.elems =
      n.view.elems.take k ++ n.view.elems[k] :: n.view.elems.drop (k + 1) := by
    intro k hk
    rw [← List.drop_eq_getElem_cons hk, List.take_append_drop]
  have hlength : ∀ k, k < n.view.elems.length → (n.view.elems.take k).length = k := by
    intro k hk
    rw [List.length_take]
    omega
  have hhead : ∀ k, ∀ a ∈ (n.view.elems.drop (k + 1)).head?,
      a = n.elemt (k + 1) ∧ k + 1 < n.view.elems.length := by
    intro k a ha
    by_cases hk : k + 1 < n.view.elems.length
    · rw [List.drop_eq_getElem_cons hk, List.head?_cons, Option.mem_some_iff] at ha
      rw [n.elemt_eq hk]
      exact ⟨ha.symm, hk⟩
    · rw [List.drop_eq_nil_of_le (by omega)] at ha
      cases ha
  unfold Node.downElem
  rw [hij]
  dsimp only
  by_cases hkey : below (n.elemt j).m_pKeyValue = true
  · have hj' : j < n.view.elems.length := by omega
    rw [if_pos hkey]
    refine ⟨_, _, _, hsplit j hj', (hlength j hj').symm, Or.inr ?_, fun a ha => ?_⟩
    · rwa [← n.elemt_eq hj']
    · obtain ⟨-, hk⟩ := hhead j a ha
      rcases hj with hj | hj
      · omega
      · rw [hkey] at hj
        cases hj
  · have hi' : i < n.view.elems.length := by omega
    rw [if_neg hkey]
    refine ⟨_, _, _, hsplit i hi', (hlength i hi').symm, ?_, fun a ha => ?_⟩
    · rcases hi with hi | hi
      · left
        rw [hi, List.take_zero]
      · right
        rwa [← n.elemt_eq hi']
    · obtain ⟨rfl, hk⟩ := hhead i a ha
      have hij : j = i + 1 := by
        have hlt := hlt (by omega)
        omega
      rw [← hij]
      exact Bool.eq_false_of_not_eq_true hkey

/-! ## The way down -/

theorem Stored.suffix {v : ShmPosition → View Key} {M : Nat} {leaf : Bool}
    {lows ups : List (Level Key)} {l : Level Key} (h : Stored v M leaf (lows ++ l :: ups)) :
    Stored v M (leaf && lows.isEmpty) (l :: ups) := by
  induction lows generalizing leaf with
  | nil => simpa using h
  | cons low lows ih =>
      have hup : Stored v M false (lows ++ l :: ups) := by
        cases lows with
        | nil => exact h.2.2.2.2
        | cons _ _ => exact h.2.2.2.2
      simpa using ih hup

theorem Stored.ne_nil {v : ShmPosition → View Key} {M : Nat} {l : Level Key}
    {ups : List (Level Key)} (hM : 2 ≤ M) (h : Stored v M false (l :: ups)) :
    ∀ b ∈ l, b.elems ≠ [] := by
  intro b hb
  cases ups with
  | nil =>
      obtain ⟨-, c, rfl, -, hfilled⟩ := h
      obtain rfl := List.mem_singleton.mp hb
      exact hfilled rfl
  | cons _ _ =>
      have hhalf := h.2.1 b hb
      rw [← List.length_pos_iff]
      exact lt_of_lt_of_le (Nat.div_pos hM (by decide)) hhalf

/-- A block of the level below is addressed by an element of the one above. -/
theorem Stored.block_below {v : ShmPosition → View Key} {M : Nat} {leaf : Bool}
    {low up : Level Key} {ups : List (Level Key)} (h : Stored v M leaf (low :: up :: ups))
    {b : Block Key} (hb : b ∈ up) {e : Elem Key} (he : e ∈ b.elems) :
    ∃ before c after, low = before ++ c :: after ∧ e.m_pRecordAddrs = c.pos := by
  obtain ⟨c, hc, hpos⟩ := List.mem_map.mp (h.2.2.1.subset (mem_addresses hb he))
  obtain ⟨before, after, rfl⟩ := List.append_of_mem hc
  exact ⟨before, c, after, rfl, hpos.symm⟩

/-- **The way from a node goes down to a leaf.** -/
theorem wayDown_spec {s : State Key} {M : Nat} (hM : 2 ≤ M) (below : Key → Bool)
    {lows : List (Level Key)} {frames : List (Frame Key)} {before after : Level Key} {b : Block Key}
    (hstored : Stored s.view M true (lows ++ (before ++ b :: after) :: frames.map Frame.level))
    (hleads : Leads b.pos frames) (hrouted : Routed below frames) (rounds : Nat)
    (hrounds : lows.length < rounds) :
    ∃ frames' before' b' after', wayDown s below rounds b.pos (trail frames) =
        .ok (b'.pos, trail frames') ∧
      lows ++ (before ++ b :: after) :: frames.map Frame.level =
        (before' ++ b' :: after') :: frames'.map Frame.level ∧
      Leads b'.pos frames' ∧ Routed below frames' := by
  induction lows using List.reverseRecOn generalizing frames before b after rounds with
  | nil =>
      obtain ⟨k, rfl⟩ : ∃ k, rounds = k + 1 := ⟨rounds - 1, by simp at hrounds; omega⟩
      have hholds := hstored.holds b (by simp)
      have hleaf : (s.node b.pos).isLeafNode = true :=
        (isLeafNode_eq _).trans (decide_eq_true (hholds.leaf_iff.mp rfl))
      refine ⟨frames, before, b, after, ?_, rfl, hleads, hrouted⟩
      rw [wayDown]
      dsimp only
      rw [if_pos hleaf]
  | append_singleton lows low ih =>
      rw [List.length_append, List.length_singleton] at hrounds
      obtain ⟨k, rfl⟩ : ∃ k, rounds = k + 1 := ⟨rounds - 1, by omega⟩
      rw [List.append_assoc, List.singleton_append] at hstored ⊢
      have hpair := hstored.suffix
      have hcur : Stored s.view M false ((before ++ b :: after) :: frames.map Frame.level) :=
        hpair.2.2.2.2
      have hmem : b ∈ before ++ b :: after := by simp
      have hholds := hcur.holds b hmem
      have hne := hcur.ne_nil hM b hmem
      have hleaf : (s.node b.pos).isLeafNode = false := by
        rw [isLeafNode_eq, decide_eq_false_iff_not]
        exact fun hbrother => Bool.noConfusion (hholds.leaf_iff.mpr hbrother)
      have hnum : (s.node b.pos).m_pCurrentNum ≠ 0 := by
        rw [Node.currentNum_eq]
        change (s.view b.pos).elems.length ≠ 0
        rw [hholds.elems]
        exact List.length_pos_iff.mpr hne |>.ne'
      obtain ⟨left, e, right, hsplit, hdown, hleft, hright⟩ :=
        Node.downElem_spec (n := s.node b.pos) hholds.elems hne below
      obtain ⟨before', c, after', rfl, haddr⟩ := hpair.block_below hmem
        (show e ∈ b.elems by simp [hsplit])
      have helem : (s.node b.pos).elemt left.length = e := by
        have hlt : left.length < (s.node b.pos).view.elems.length := by
          change _ < (s.view b.pos).elems.length
          rw [hholds.elems, hsplit]
          simp
        rw [Node.elemt_eq _ hlt]
        have hget := List.getElem_of_eq (hholds.elems.trans hsplit) hlt
        refine hget.trans ?_
        simp
      obtain ⟨pos, elems⟩ := b
      dsimp only at hsplit
      subst hsplit
      have hgo := ih (show Stored s.view M true (lows ++ (before' ++ c :: after') ::
        (⟨before, pos, left, e, right, after⟩ :: frames).map Frame.level) from hstored)
        ⟨haddr, hleads⟩
        (fun f hf => by
          rcases List.mem_cons.mp hf with rfl | hf
          · exact ⟨hleft, hright⟩
          · exact hrouted f hf) k (by omega)
      obtain ⟨frames', before'', b', after'', hway, hlevels, hleads', hrouted'⟩ := hgo
      refine ⟨frames', before'', b', after'', ?_, hlevels, hleads', hrouted'⟩
      rw [wayDown]
      dsimp only
      rw [if_neg (Bool.eq_false_iff.mp hleaf), if_neg hnum, hdown, helem, haddr]
      have htrail : trail (⟨before, pos, left, e, right, after⟩ :: frames) =
          trail frames ++ [(pos, left.length)] := by
        simp [trail]
      rw [← htrail]
      exact hway

end BTree
