import Boss.LinkedChain

/-!
# Doubly linked lists in a memory

A second field `prev` runs through the positions of a chain from the last one to the
first.  Every statement about it is one about a chain of the reversed list, so both fields
obey the same two rules: `chain_unlink`, where a position leaves a chain, and `chain_link`,
where one enters it.  `DList` puts the two directions and the two ends together.
-/

namespace LinkedChain

variable {P : Type*} {next prev other other' : P → P} {null p q x fst lst : P} {l : List P}

/-- The first position of a list, null when it is empty. -/
def headOf (null : P) (l : List P) : P := l.head?.getD null

/-- The last position of a list, null when it is empty. -/
def lastOf (null : P) (l : List P) : P := l.getLast?.getD null

attribute [grind =] headOf lastOf

@[simp] theorem headOf_nil : headOf null ([] : List P) = null := rfl

@[simp] theorem headOf_cons : headOf null (x :: l) = x := rfl

@[simp] theorem lastOf_nil : lastOf null ([] : List P) = null := rfl

@[simp] theorem lastOf_concat : lastOf null (l ++ [x]) = x := by simp [lastOf]

@[simp] theorem lastOf_reverse : lastOf null l.reverse = headOf null l := by
  simp [lastOf, headOf]

@[simp] theorem headOf_reverse : headOf null l.reverse = lastOf null l := by
  simp [lastOf, headOf]

/-- Where the last position of a list is, unless there is none. -/
theorem lastOf_cases (null : P) (l : List P) : l = [] ∨ ∃ front, l = front ++ [lastOf null l] := by
  rcases List.eq_nil_or_concat l with rfl | ⟨front, y, rfl⟩
  · exact .inl rfl
  · exact .inr ⟨front, by simp⟩

/-- The last node of two lists is that of the second, if it has one. -/
theorem lastOf_append {l' : List P} (h : l' ≠ []) : lastOf null (l ++ l') = lastOf null l' := by
  obtain ⟨front, hfront⟩ := (lastOf_cases null l').resolve_left h
  rw [hfront, ← List.append_assoc, lastOf_concat, lastOf_concat]

/-- A last node that is not null is in the list. -/
theorem lastOf_mem (h : lastOf null l ≠ null) : lastOf null l ∈ l := by
  rcases lastOf_cases null l with rfl | ⟨front, hfront⟩
  · exact absurd rfl h
  · rw [hfront]
    simp

/-- A head that is not null is in the list. -/
theorem headOf_mem (h : headOf null l ≠ null) : headOf null l ∈ l := by
  cases l with
  | nil => exact absurd rfl h
  | cons y rest => simp

/-- A path begins at the head of its nodes. -/
theorem path_start (h : Path next null p l q) : p = headOf q l := by
  cases l with
  | nil => exact h
  | cons y rest => exact h.1

/-- What stays in the list when one position is taken out. -/
theorem mem_without_iff {pre post : List P} {y : P} (h : (pre ++ x :: post).Nodup) :
    y ∈ pre ++ post ↔ y ∈ pre ++ x :: post ∧ y ≠ x := by
  have hnot : x ∉ pre ++ post := (List.nodup_cons.mp (List.perm_middle.nodup_iff.mp h)).1
  rw [List.perm_middle.mem_iff, List.mem_cons]
  constructor
  · exact fun hy => ⟨Or.inr hy, fun heq => hnot (heq ▸ hy)⟩
  · exact fun hy => hy.1.resolve_left hy.2

/-- A list that is linked in both directions, with its two ends. -/
structure DList (next prev : P → P) (null first last : P) (l : List P) : Prop where
  forward : Chain next null first l
  backward : Chain prev null last l.reverse
  nodup : l.Nodup

theorem DList.nil : DList next prev null null null [] := ⟨rfl, rfl, List.nodup_nil⟩

theorem DList.first_eq (h : DList next prev null fst lst l) : fst = headOf null l :=
  path_start h.forward

/-- The last node that is kept is the last one. -/
theorem DList.last_eq (h : DList next prev null fst lst l) : lst = lastOf null l := by
  rw [path_start h.backward, headOf_reverse]

theorem DList.ne_null (h : DList next prev null fst lst l) (hx : x ∈ l) : x ≠ null :=
  ne_null_of_mem h.forward hx

/-- The links of a position in the middle. -/
theorem DList.links {pre post : List P} (h : DList next prev null fst lst (pre ++ x :: post)) :
    next x = headOf null post ∧ prev x = lastOf null pre := by
  obtain ⟨m, -, hm, -, hpost⟩ := path_append.mp h.forward
  have hback : Chain prev null lst (post.reverse ++ x :: pre.reverse) := by
    simpa using h.backward
  obtain ⟨m', -, hm', -, hpre⟩ := path_append.mp hback
  refine ⟨path_start hpost, ?_⟩
  rw [path_start hpre, headOf_reverse]

/-- The ends are the positions without a link. -/
theorem DList.ends {pre post : List P} (h : DList next prev null fst lst (pre ++ x :: post)) :
    (fst = x ↔ prev x = null) ∧ (lst = x ↔ next x = null) := by
  obtain ⟨hnext, hprev⟩ := h.links
  have hdisj := List.nodup_append.mp h.nodup
  constructor
  · rw [hprev, h.first_eq]
    cases pre with
    | nil => simp
    | cons y pre =>
        have hy : y ≠ x := hdisj.2.2 y (by simp) x (by simp)
        have hlast : lastOf null (y :: pre) ≠ null := by
          obtain ⟨front, hfront⟩ := (lastOf_cases null (y :: pre)).resolve_left (by simp)
          refine h.ne_null (List.mem_append_left _ ?_)
          rw [hfront]
          simp
        simp [hy, hlast]
  · rw [hnext, h.last_eq]
    cases post with
    | nil => simp
    | cons y post =>
        have hne : lastOf null (pre ++ x :: y :: post) ≠ x := by
          have hlast : lastOf null (pre ++ x :: y :: post) = lastOf null (y :: post) := by
            have hcons : pre ++ x :: y :: post = (pre ++ [x]) ++ y :: post := by simp
            rw [hcons, lastOf_append (by simp)]
          obtain ⟨front, hfront⟩ := (lastOf_cases null (y :: post)).resolve_left (by simp)
          have hmem : lastOf null (y :: post) ∈ y :: post := by
            rw [hfront]
            simp
          rw [hlast]
          intro heq
          exact (List.nodup_cons.mp hdisj.2.1).1 (heq ▸ hmem)
        have hy : y ≠ null := h.ne_null (by simp)
        simp [hne, hy]

/-- Only the links of the listed positions matter. -/
theorem DList.congr (h : DList next prev null fst lst l) (hnext : ∀ y ∈ l, other y = next y)
    (hprev : ∀ y ∈ l, other' y = prev y) : DList other other' null fst lst l :=
  ⟨(path_congr hnext).mpr h.forward,
    (path_congr fun y hy => hprev y (List.mem_reverse.mp hy)).mpr h.backward, h.nodup⟩

/-- Positions that are linked to their neighbours in a row form a list. -/
theorem dlist_range {n : Nat} (pos : Nat → P) (hpos : 0 < n) (hnull : ∀ k < n, pos k ≠ null)
    (hinj : ∀ j < n, ∀ k < n, pos j = pos k → j = k)
    (hnext : ∀ k < n, next (pos k) = if k = n - 1 then null else pos (k + 1))
    (hprev : ∀ k < n, prev (pos k) = if k = 0 then null else pos (k - 1)) :
    DList next prev null (pos 0) (pos (n - 1)) ((List.range n).map pos) := by
  refine ⟨?_, ?_, ?_⟩
  · have hchain := chain_range pos hnull
      (fun k hk => (hnext k (by omega)).trans (if_neg (by omega)))
      (fun k hk => (hnext k (by omega)).trans (if_pos (by omega)))
    rwa [if_neg (Nat.ne_of_gt hpos)] at hchain
  · have hback : ((List.range n).map pos).reverse = (List.range n).map fun k => pos (n - 1 - k) := by
      apply List.ext_getElem
      · simp
      · intro i _ _
        simp
    -- the way back, as a chain from the last position on
    have hlink : ∀ k, k + 1 < n → prev (pos (n - 1 - k)) = pos (n - 1 - (k + 1)) := by
      intro k hk
      rw [hprev (n - 1 - k) (by omega), if_neg (by omega)]
      rfl
    have hend : ∀ k, k + 1 = n → prev (pos (n - 1 - k)) = null := by
      intro k hk
      rw [hprev (n - 1 - k) (by omega), if_pos (by omega)]
    have hchain := chain_range (fun k => pos (n - 1 - k)) (fun k hk => hnull _ (by omega)) hlink hend
    rw [if_neg (Nat.ne_of_gt hpos)] at hchain
    rw [hback]
    exact hchain
  · refine List.Nodup.map_on ?_ List.nodup_range
    intro j hj k hk heq
    exact hinj j (List.mem_range.mp hj) k (List.mem_range.mp hk) heq

variable [DecidableEq P]

/-- The position in the middle of a chain leaves it: the one before is linked to the one
behind. -/
theorem chain_unlink {pre post : List P} {y : P} (h : Chain next null p (pre ++ x :: post))
    (hnodup : (pre ++ x :: post).Nodup) (hy : y = lastOf null pre) :
    Chain (if y = null then next else Function.update next y (next x)) null
      (if y = null then next x else p) (pre ++ post) := by
  subst hy
  obtain ⟨m, hpre, rfl, hx, hpost⟩ := path_append.mp h
  rcases lastOf_cases null pre with rfl | ⟨front, hfront⟩
  · simpa using hpost
  · generalize lastOf null pre = z at hfront
    subst hfront
    have hz : z ≠ null := ne_null_of_mem hpre (by simp)
    have hdisj := List.nodup_append.mp hnodup
    have hzfront : z ∉ front := fun hmem =>
      (List.nodup_append.mp hdisj.1).2.2 z hmem z (by simp) rfl
    have hzpost : z ∉ post := fun hmem => hdisj.2.2 z (by simp) z (by simp [hmem]) rfl
    rw [if_neg hz, if_neg hz]
    exact path_append.mpr ⟨next m, path_relink hpre hzfront, (path_update hzpost).mpr hpost⟩

/-- A new position in the middle of a chain: it is linked to the one behind and the one
before is linked to it. -/
theorem chain_link {pre post : List P} {y : P} (h : Chain next null p (pre ++ post))
    (hnodup : (pre ++ post).Nodup) (hx : x ≠ null) (hnew : x ∉ pre ++ post)
    (hnext : next x = headOf null post) (hy : y = lastOf null pre) :
    Chain (if y = null then next else Function.update next y x) null
      (if y = null then x else p) (pre ++ x :: post) := by
  subst hy
  obtain ⟨m, hpre, hpost⟩ := path_append.mp h
  have hm : next x = m := by rw [hnext, path_start hpost]
  rcases lastOf_cases null pre with rfl | ⟨front, hfront⟩
  · simpa [hx, hm] using hpost
  · generalize lastOf null pre = z at hfront
    subst hfront
    have hz : z ≠ null := ne_null_of_mem hpre (by simp)
    have hdisj := List.nodup_append.mp hnodup
    have hzfront : z ∉ front := fun hmem =>
      (List.nodup_append.mp hdisj.1).2.2 z hmem z (by simp) rfl
    have hzpost : z ∉ post := fun hmem => hdisj.2.2 z (by simp) z hmem rfl
    have hzx : x ≠ z := by
      intro heq
      exact hnew (by simp [heq])
    rw [if_neg hz, if_neg hz]
    refine path_append.mpr ⟨x, path_relink hpre hzfront, rfl, hx, ?_⟩
    rw [Function.update_of_ne hzx, hm]
    exact (path_update hzpost).mpr hpost

/-- **A position leaves the list.** -/
theorem DList.unlink {pre post : List P} (h : DList next prev null fst lst (pre ++ x :: post)) :
    DList (if prev x = null then next else Function.update next (prev x) (next x))
      (if next x = null then prev else Function.update prev (next x) (prev x)) null
      (if prev x = null then next x else fst) (if next x = null then prev x else lst)
      (pre ++ post) := by
  obtain ⟨hnext, hprev⟩ := h.links
  refine ⟨chain_unlink h.forward h.nodup hprev, ?_, ?_⟩
  · have hback : Chain prev null lst (post.reverse ++ x :: pre.reverse) := by
      simpa using h.backward
    have hnodup : (post.reverse ++ x :: pre.reverse).Nodup := by
      simpa using List.nodup_reverse.mpr h.nodup
    have hlink := chain_unlink hback hnodup (hnext.trans lastOf_reverse.symm)
    rwa [List.reverse_append]
  · exact h.nodup.sublist (List.Sublist.append (List.Sublist.refl pre) (List.sublist_cons_self x post))

/-- **A new position enters the list.** -/
theorem DList.link (pre post : List P) (h : DList next prev null fst lst (pre ++ post))
    (hx : x ≠ null) (hnew : x ∉ pre ++ post) (hnext : next x = headOf null post)
    (hprev : prev x = lastOf null pre) :
    DList (if prev x = null then next else Function.update next (prev x) x)
      (if next x = null then prev else Function.update prev (next x) x) null
      (if prev x = null then x else fst) (if next x = null then x else lst)
      (pre ++ x :: post) := by
  refine ⟨chain_link h.forward h.nodup hx hnew hnext hprev, ?_, ?_⟩
  · have hback : Chain prev null lst (post.reverse ++ pre.reverse) := by
      simpa using h.backward
    have hnodup : (post.reverse ++ pre.reverse).Nodup := by
      simpa using List.nodup_reverse.mpr h.nodup
    have hlink := chain_link hback hnodup hx (by simpa [or_comm] using hnew)
      (hprev.trans headOf_reverse.symm) (hnext.trans lastOf_reverse.symm)
    simpa using hlink
  · exact (List.perm_middle.nodup_iff).mpr (List.nodup_cons.mpr ⟨hnew, h.nodup⟩)

/-- A new position at the end. -/
theorem DList.push (h : DList next prev null fst lst l) (hx : x ≠ null) (hnew : x ∉ l)
    (hnext : next x = null) (hprev : prev x = lst) :
    DList (if lst = null then next else Function.update next lst x) prev null
      (if lst = null then x else fst) x (l ++ [x]) := by
  have hlink := DList.link l [] (by simpa using h) hx (by simpa using hnew)
    hnext (hprev.trans h.last_eq)
  simpa [hnext, hprev] using hlink

/-- The last position leaves the list. -/
theorem DList.pop_last {y : P} (h : DList next prev null fst lst (l ++ [x, y])) :
    DList (Function.update next x null) prev null fst x (l ++ [x]) := by
  have hassoc : l ++ [x, y] = (l ++ [x]) ++ [y] := by simp
  have hx : x ≠ null := h.ne_null (by simp)
  rw [hassoc] at h
  obtain ⟨hnext, hprev⟩ := h.links
  rw [lastOf_concat] at hprev
  have hlist := h.unlink
  simpa [hnext, hprev, hx] using hlist

/-! ## Families of lists

Several lists share the two fields when no position is in two of them.
-/

variable {I : Type*} {first last : I → P} {lists : I → List P} {i : I}

/-- A family of doubly linked lists without common positions. -/
structure DLists (next prev : P → P) (null : P) (first last : I → P) (lists : I → List P) :
    Prop where
  list : ∀ i, DList next prev null (first i) (last i) (lists i)
  disjoint : ∀ i j x, x ∈ lists i → x ∈ lists j → i = j

omit [DecidableEq P] in
theorem DLists.ne_null (h : DLists next prev null first last lists) (hx : x ∈ lists i) : x ≠ null :=
  (h.list i).ne_null hx

omit [DecidableEq P] in
/-- What a position of a list is linked to belongs to the list. -/
theorem DList.links_mem (h : DList next prev null fst lst l) (hx : x ∈ l) :
    (prev x ≠ null → prev x ∈ l) ∧ (next x ≠ null → next x ∈ l) := by
  obtain ⟨pre, post, rfl⟩ := List.append_of_mem hx
  obtain ⟨hnext, hprev⟩ := h.links
  rw [hnext, hprev]
  exact ⟨fun hne => List.mem_append_left _ (lastOf_mem hne),
    fun hne => List.mem_append_right _ (List.mem_cons_of_mem x (headOf_mem hne))⟩

/-- Taking a position off one list leaves a list without positions of this one. -/
theorem DList.unlink_apart (h : DList next prev null fst lst l) (hx : x ∈ l) {l' : List P}
    {fst' lst' : P} (h' : DList next prev null fst' lst' l') (hapart : ∀ y ∈ l', y ∉ l) :
    DList (if prev x = null then next else Function.update next (prev x) (next x))
      (if next x = null then prev else Function.update prev (next x) (prev x)) null
      fst' lst' l' := by
  obtain ⟨hprev, hnext⟩ := h.links_mem hx
  refine h'.congr (fun y hy => ?_) (fun y hy => ?_)
  · by_cases hnone : prev x = null
    · rw [if_pos hnone]
    · have hne : y ≠ prev x := fun heq => hapart y hy (heq ▸ hprev hnone)
      rw [if_neg hnone, Function.update_of_ne hne]
  · by_cases hnone : next x = null
    · rw [if_pos hnone]
    · have hne : y ≠ next x := fun heq => hapart y hy (heq ▸ hnext hnone)
      rw [if_neg hnone, Function.update_of_ne hne]

/-- A list without the position that enters another one behind `last`, and without `last`. -/
theorem DList.push_apart (h : DList next prev null fst lst l) {last : P} (hx : x ∉ l)
    (hlast : last ≠ null → last ∉ l) :
    DList (if last = null then Function.update next x null
        else Function.update (Function.update next x null) last x)
      (Function.update prev x last) null fst lst l := by
  have hne : ∀ y ∈ l, y ≠ x := fun y hy heq => hx (heq ▸ hy)
  refine h.congr (fun y hy => ?_) fun y hy => Function.update_of_ne (hne y hy) _ _
  by_cases hnone : last = null
  · rw [if_pos hnone, Function.update_of_ne (hne y hy)]
  · have hy' : y ≠ last := fun heq => hlast hnone (heq ▸ hy)
    rw [if_neg hnone, Function.update_of_ne hy', Function.update_of_ne (hne y hy)]

variable [DecidableEq I]

omit [DecidableEq P] in
/-- Exchanging one list for another one, with the same or with new positions. -/
theorem DLists.replace (h : DLists next prev null first last lists)
    (hothers : ∀ j, j ≠ i → DList other other' null (first j) (last j) (lists j))
    (hlist : DList other other' null fst lst l) (hfrom : ∀ y ∈ l, ∀ j, j ≠ i → y ∉ lists j) :
    DLists other other' null (Function.update first i fst) (Function.update last i lst)
      (Function.update lists i l) := by
  constructor
  · intro j
    by_cases hj : j = i
    · subst hj
      simpa using hlist
    · simpa [hj] using hothers j hj
  · intro j k y hj hk
    by_cases hji : j = i
    · by_cases hki : k = i
      · rw [hji, hki]
      · simp only [hji, Function.update_self, Function.update_of_ne hki] at hj hk
        exact absurd hk (hfrom y hj k hki)
    · by_cases hki : k = i
      · simp only [hki, Function.update_self, Function.update_of_ne hji] at hj hk
        exact absurd hj (hfrom y hk j hji)
      · simp only [Function.update_of_ne hji, Function.update_of_ne hki] at hj hk
        exact h.disjoint j k y hj hk

/-- **A position leaves its list.** -/
theorem DLists.unlink {pre post : List P} (h : DLists next prev null first last lists)
    (hi : lists i = pre ++ x :: post) :
    DLists (if prev x = null then next else Function.update next (prev x) (next x))
      (if next x = null then prev else Function.update prev (next x) (prev x)) null
      (Function.update first i (if prev x = null then next x else first i))
      (Function.update last i (if next x = null then prev x else last i))
      (Function.update lists i (pre ++ post)) := by
  have hlist := h.list i
  rw [hi] at hlist
  refine h.replace (fun j hj => ?_) hlist.unlink ?_
  · refine hlist.unlink_apart (by simp) (h.list j) fun y hy hmem => ?_
    rw [← hi] at hmem
    exact hj (h.disjoint j i y hy hmem)
  · intro y hy j hj hmem
    refine hj (h.disjoint j i y hmem ?_)
    rw [hi]
    simp only [List.mem_append, List.mem_cons] at hy ⊢
    tauto

/-- **A position that is in no list goes to the end of one.** -/
theorem DLists.push (h : DLists next prev null first last lists) (i : I) (hx : x ≠ null)
    (hnew : ∀ j, x ∉ lists j) :
    DLists (if last i = null then Function.update next x null
        else Function.update (Function.update next x null) (last i) x)
      (Function.update prev x (last i)) null
      (Function.update first i (if last i = null then x else first i))
      (Function.update last i x) (Function.update lists i (lists i ++ [x])) := by
  have hne : ∀ j, ∀ y ∈ lists j, y ≠ x := fun j y hy heq => hnew j (heq ▸ hy)
  have hlast : last i ≠ null → last i ∈ lists i := by
    rw [(h.list i).last_eq]
    exact lastOf_mem
  have hwrite : DList (Function.update next x null) (Function.update prev x (last i)) null
      (first i) (last i) (lists i) :=
    (h.list i).congr (fun y hy => Function.update_of_ne (hne i y hy) _ _)
      (fun y hy => Function.update_of_ne (hne i y hy) _ _)
  refine h.replace (fun j hj => ?_) (hwrite.push hx (hnew i) (by simp) (by simp)) ?_
  · exact (h.list j).push_apart (hnew j) fun hnone hmem => hj (h.disjoint j i _ hmem (hlast hnone))
  · intro y hy j hj hmem
    rcases List.mem_append.mp hy with hy | hy
    · exact hj (h.disjoint j i y hmem hy)
    · exact hnew j (List.mem_singleton.mp hy ▸ hmem)

end LinkedChain
