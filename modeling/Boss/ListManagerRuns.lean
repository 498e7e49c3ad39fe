import Boss.ListManager
import Boss.DoublyLinked
import Boss.Runs
import Mathlib.Data.List.Perm.Basic
import Mathlib.Order.Nat

/-!
# The control-area lists stay in order

`Managed` is the invariant: the nodes are divided among three doubly linked lists, and the
index holds the used nodes in the order of their elements.  Every operation moves one node
from the end or the middle of a list to the end of another one, so the lists follow from
the two rules of `DLists`; the index follows from what the two shifting loops do to its
slice and from binary search.

An element may be added again while an equal one is used: the manager does not look, its
callers do.  Then the index has equal neighbours, and `getElement` finds one of them.  In
a run that never does this the index ascends strictly.

Main results: `Managed.addElement` and its like for one call, `managed_run` for runs.
-/

namespace ListManager

open LinkedChain SortedSlice Runs

variable {T K : Type} [LinearOrder K] {key : T → K} {cfg : Config T} {s t : State T}
  {lists : T_MEMUSEDFLAG → List Nat} {l : T_MEMUSEDFLAG} {pre post : List Nat} {p : Nat}

/-! ## Moving nodes -/

/-- The lists of a state. -/
abbrev InLists (s : State T) (lists : T_MEMUSEDFLAG → List Nat) : Prop :=
  DLists s.next s.prev noNode s.first s.last lists

/-- Neither the elements nor the index change. -/
structure SameContent (s t : State T) : Prop where
  pos : t.pos = s.pos
  element : t.element = s.element
  index : t.m_pIndexInfo = s.m_pIndexInfo
  nodeNum : t.m_nodeNum = s.m_nodeNum

/-- **A node leaves its list.** -/
theorem remove_spec (h : InLists s lists) (hl : lists l = pre ++ p :: post) (hpos : s.pos p = p) :
    InLists (remove s l p) (Function.update lists l (pre ++ post)) ∧
    SameContent s (remove s l p) ∧ (remove s l p).m_idleNum = s.m_idleNum := by
  have hlist := h.list l
  rw [hl] at hlist
  obtain ⟨hfirst, hlast⟩ := hlist.ends
  have hfields : (s.node p).m_pos = p ∧ (s.node p).m_next = s.next p ∧
    (s.node p).m_prev = s.prev p := ⟨hpos, rfl, rfl⟩
  have hmoved := h.unlink hl
  unfold remove
  simp only [hfields, hfirst]
  by_cases hprev : s.prev p = noNode <;> by_cases hnext : s.next p = noNode
  all_goals
    simp only [hprev, hnext, if_true, if_false, State.setFirst_fields, hlast, ne_eq,
      not_true_eq_false, not_false_eq_true, Function.update_eq_self] at hmoved ⊢
    refine ⟨?_, ⟨by simp, by simp, rfl, rfl⟩, rfl⟩
    unfold InLists
    simpa using hmoved

/-- **A node goes to the end of a list.** -/
theorem append_spec (h : InLists s lists) (l : T_MEMUSEDFLAG) (hp : p ≠ noNode)
    (hnew : ∀ l, p ∉ lists l) (hpos : s.pos p = p) :
    InLists (append s l p) (Function.update lists l (lists l ++ [p])) ∧
    SameContent s (append s l p) ∧ (append s l p).m_idleNum = s.m_idleNum := by
  have hmoved := h.push l hp hnew
  have hkeep : (((s.setNext p noNode).setPrev p (s.last l)).setUseFlag p l).last l = s.last l := rfl
  unfold append
  simp only [hkeep]
  by_cases hlast : s.last l = noNode
  · simp only [hlast, if_true] at hmoved ⊢
    refine ⟨?_, ⟨by simp, by simp, rfl, rfl⟩, rfl⟩
    unfold InLists
    simpa [hpos] using hmoved
  · simp only [hlast, if_false, Function.update_eq_self] at hmoved ⊢
    refine ⟨?_, ⟨by simp, by simp, rfl, rfl⟩, rfl⟩
    unfold InLists
    simpa [hpos] using hmoved

/-- The first idle node leaves its list. -/
theorem takeIdle_spec {rest : List Nat} (h : InLists s lists) (hl : lists .idle = p :: rest) :
    s.first .idle = p ∧ InLists (takeIdle s) (Function.update lists .idle rest) ∧
    SameContent s (takeIdle s) ∧ (takeIdle s).m_idleNum = s.m_idleNum - 1 := by
  have hl' : lists .idle = [] ++ p :: rest := hl
  have hlist := h.list .idle
  rw [hl'] at hlist
  have hfirst : s.first .idle = p := hlist.first_eq
  have hprev : s.prev p = noNode := hlist.links.2
  have hlast : p = s.last .idle ↔ s.next p = noNode := eq_comm.trans hlist.ends.2
  have hmoved := h.unlink hl'
  refine ⟨hfirst, ?_⟩
  unfold takeIdle
  simp only [hfirst, hlast]
  simp only [hprev, if_true] at hmoved
  by_cases hnext : s.next p = noNode
  · simp only [hnext, if_true] at hmoved ⊢
    refine ⟨?_, ⟨rfl, rfl, rfl, rfl⟩, rfl⟩
    exact hmoved
  · simp only [hnext, if_false, Function.update_eq_self] at hmoved ⊢
    refine ⟨?_, ⟨by simp, by simp, rfl, rfl⟩, rfl⟩
    unfold InLists
    simpa using hmoved

/-! ## The invariant -/

/-- The offsets of all nodes. -/
def allNodes (cfg : Config T) : List Nat := (List.range cfg.m_maxNum).map cfg.node

/-- The index, as far as it is used. -/
abbrev State.index (s : State T) : List Nat := slice s.m_pIndexInfo s.m_nodeNum

/-- **The invariant of the manager.** -/
structure Managed (key : T → K) (cfg : Config T) (s : State T)
    (lists : T_MEMUSEDFLAG → List Nat) : Prop where
  inLists : InLists s lists
  nodes : (lists .used ++ (lists .idle ++ lists .usedIdle)).Perm (allNodes cfg)
  pos : ∀ l, ∀ p ∈ lists l, s.pos p = p
  idleNum : s.m_idleNum = (lists .idle).length
  index : s.index.Perm (lists .used)
  sorted : s.index.Pairwise fun p q => key (s.element p) ≤ key (s.element q)

theorem Managed.nodeNum (h : Managed key cfg s lists) : s.m_nodeNum = (lists .used).length := by
  have hlength := h.index.length_eq
  rwa [slice_length] at hlength

/-- An index entry is a used node. -/
theorem Managed.entry (h : Managed key cfg s lists) {i : Nat} (hi : i < s.m_nodeNum) :
    s.m_pIndexInfo i ∈ lists .used :=
  h.index.mem_iff.mp (mem_slice.mpr ⟨i, hi, rfl⟩)

/-- **`lowerBound`**: the entries before it are less, those from it on are not. -/
theorem lowerBound_spec (key : T → K) (e : T)
    (hsorted : s.index.Pairwise fun p q => key (s.element p) ≤ key (s.element q)) :
    lowerBound key s e ≤ s.m_nodeNum ∧
    (∀ i < lowerBound key s e, key (s.element (s.m_pIndexInfo i)) < key e) ∧
    ∀ i, lowerBound key s e ≤ i → i < s.m_nodeNum →
      key e ≤ key (s.element (s.m_pIndexInfo i)) := by
  have hle : ∀ i j, i ≤ j → j < s.m_nodeNum →
      key (s.element (s.m_pIndexInfo i)) ≤ key (s.element (s.m_pIndexInfo j)) := by
    intro i j hij hj
    rcases Nat.lt_or_eq_of_le hij with hlt | rfl
    · have hpair := List.pairwise_iff_getElem.mp hsorted i j (by simp; omega) (by simpa using hj) hlt
      simpa using hpair
    · exact le_refl _
  obtain ⟨t, ht, hbound, hbelow, habove⟩ := bisect_spec
    (fun i => key (s.element (s.m_pIndexInfo i)) < key e) s.m_nodeNum
    (fun i j hij hj hless => by
      simp only [decide_eq_true_eq] at hless ⊢
      exact lt_of_le_of_lt (hle i j hij hj) hless)
    (s.m_nodeNum + 1) (-1) s.m_nodeNum (by omega) (by omega) (by omega)
    (by push_cast; omega) (by intro i hi; omega) (by intro i hi hin; omega)
  have hlower : lowerBound key s e = t := by
    unfold lowerBound
    rw [ht]
    rfl
  rw [hlower]
  refine ⟨hbound, fun i hi => of_decide_eq_true (hbelow i hi), fun i hi hin => ?_⟩
  exact not_lt.mp (of_decide_eq_false (habove i hi hin))

/-- **`getNodeIndexPos` finds an equal used element**, if there is one. -/
theorem Managed.getNodeIndexPos_spec (h : Managed key cfg s lists) (e : T) :
    (∀ t p, getNodeIndexPos key s e = some (t, p) →
      t < s.m_nodeNum ∧ s.m_pIndexInfo t = p ∧ p ∈ lists .used ∧ key (s.element p) = key e) ∧
    (getNodeIndexPos key s e = none → ∀ p ∈ lists .used, key (s.element p) ≠ key e) := by
  obtain ⟨hle, hbelow, habove⟩ := lowerBound_spec key e h.sorted
  unfold getNodeIndexPos
  generalize lowerBound key s e = t₀ at *
  constructor
  · intro t p hsome
    by_cases hend : t₀ = s.m_nodeNum
    · simp [hend] at hsome
    · by_cases hkey : key (s.element (s.m_pIndexInfo t₀)) = key e
      · simp only [hend, hkey, if_true, if_false, Option.some.injEq, Prod.mk.injEq] at hsome
        obtain ⟨rfl, rfl⟩ := hsome
        have ht : t₀ < s.m_nodeNum := by omega
        exact ⟨ht, rfl, h.entry ht, hkey⟩
      · simp [hend, hkey] at hsome
  · intro hnone p hp heq
    obtain ⟨i, hi, rfl⟩ := mem_slice.mp (h.index.mem_iff.mpr hp)
    have hi₀ : t₀ ≤ i := by
      by_contra hlt
      exact absurd heq (ne_of_lt (hbelow i (by omega)))
    -- the entry at the place is not less and not greater than the element
    have hplace : key (s.element (s.m_pIndexInfo t₀)) = key e := by
      refine le_antisymm ?_ (habove t₀ (Nat.le_refl _) (by omega))
      rcases Nat.lt_or_eq_of_le hi₀ with hlt | rfl
      · have hpair := List.pairwise_iff_getElem.mp h.sorted t₀ i (by simp; omega) (by simpa using hi)
          hlt
        rw [← heq]
        simpa using hpair
      · exact le_of_eq heq
    simp [hplace, show t₀ ≠ s.m_nodeNum by omega] at hnone

/-- A node on its way to the used ones. -/
structure Loose (key : T → K) (cfg : Config T) (s : State T) (lists : T_MEMUSEDFLAG → List Nat)
    (p : Nat) : Prop where
  inLists : InLists s lists
  nodes : (p :: (lists .used ++ (lists .idle ++ lists .usedIdle))).Perm (allNodes cfg)
  pos : ∀ l, ∀ q ∈ lists l, s.pos q = q
  here : s.pos p = p
  idleNum : s.m_idleNum = (lists .idle).length
  index : s.index.Perm (lists .used)
  sorted : s.index.Pairwise fun p q => key (s.element p) ≤ key (s.element q)

/-- No node has the offset -1, and no offset is that of two nodes. -/
theorem allNodes_spec (cfg : Config T) : (allNodes cfg).Nodup ∧ ∀ p ∈ allNodes cfg, p ≠ noNode := by
  have hfits := cfg.fits
  have hsize := cfg.size_pos
  constructor
  · refine List.Nodup.map ?_ List.nodup_range
    intro i j hij
    unfold Config.node at hij
    exact Nat.eq_of_mul_eq_mul_right hsize (by omega)
  · intro p hp
    obtain ⟨i, hi, rfl⟩ := List.mem_map.mp hp
    have hlt : i + 1 ≤ cfg.m_maxNum := List.mem_range.mp hi
    have hmul := Nat.mul_le_mul_right cfg.sizeofNode hlt
    rw [Nat.add_mul] at hmul
    unfold Config.node noNode
    omega

/-- The loose node is in no list. -/
theorem Loose.not_mem (h : Loose key cfg s lists p) : ∀ l, p ∉ lists l := by
  have hnodup := h.nodes.nodup_iff.mpr (allNodes_spec cfg).1
  have hp := (List.nodup_cons.mp hnodup).1
  simp only [List.mem_append, not_or] at hp
  intro l
  cases l with
  | idle => exact hp.2.1
  | used => exact hp.1
  | usedIdle => exact hp.2.2

theorem Loose.ne_noNode (h : Loose key cfg s lists p) : p ≠ noNode :=
  (allNodes_spec cfg).2 p (h.nodes.mem_iff.mp List.mem_cons_self)

/-- The index depends on its entries and on the elements of its nodes only. -/
theorem sorted_congr (hindex : t.index = s.index)
    (helement : ∀ p ∈ s.index, t.element p = s.element p)
    (h : s.index.Pairwise fun p q => key (s.element p) ≤ key (s.element q)) :
    t.index.Pairwise fun p q => key (t.element p) ≤ key (t.element q) := by
  rw [hindex]
  refine h.imp_of_mem ?_
  intro p q hp hq hle
  rwa [helement p hp, helement q hq]

theorem SameContent.index_eq (h : SameContent s t) : t.index = s.index := by
  unfold State.index
  rw [h.index, h.nodeNum]

/-- A node that left a list other than the used one. -/
theorem Managed.loosen (h : Managed key cfg s lists) (hl : lists l = pre ++ p :: post)
    (hne : l ≠ .used) (hlists : InLists t (Function.update lists l (pre ++ post)))
    (hsame : SameContent s t)
    (hnum : t.m_idleNum = ((Function.update lists l (pre ++ post)) .idle).length) :
    Loose key cfg t (Function.update lists l (pre ++ post)) p := by
  have hused : Function.update lists l (pre ++ post) .used = lists .used :=
    Function.update_of_ne hne.symm _ _
  refine ⟨hlists, ?_, ?_, ?_, hnum, ?_, ?_⟩
  · refine List.Perm.trans ?_ h.nodes
    rw [hused, List.perm_iff_count]
    intro q
    cases l with
    | used => exact absurd rfl hne
    | idle =>
        simp only [Function.update_self, hl, List.count_append, List.count_cons, ne_eq,
          reduceCtorEq, not_false_eq_true, Function.update_of_ne]
        omega
    | usedIdle =>
        simp only [Function.update_self, hl, List.count_append, List.count_cons, ne_eq,
          reduceCtorEq, not_false_eq_true, Function.update_of_ne]
        omega
  · intro l' q hq
    rw [hsame.pos]
    by_cases hl' : l' = l
    · subst hl'
      rw [Function.update_self] at hq
      refine h.pos l' q ?_
      rw [hl]
      simp only [List.mem_append, List.mem_cons] at hq ⊢
      tauto
    · rw [Function.update_of_ne hl'] at hq
      exact h.pos l' q hq
  · rw [hsame.pos]
    exact h.pos l p (by simp [hl])
  · rw [hused, hsame.index_eq]
    exact h.index
  · exact sorted_congr hsame.index_eq (fun q _ => by rw [hsame.element]) h.sorted

/-- A deleted node is used again. -/
theorem Managed.reuse (h : Managed key cfg s lists) (hp : p ∈ lists .usedIdle) :
    ∃ lists', Loose key cfg (remove s .usedIdle p) lists' p ∧ lists' .used = lists .used ∧
      (remove s .usedIdle p).element = s.element := by
  obtain ⟨pre, post, hl⟩ := List.append_of_mem hp
  obtain ⟨hlists, hsame, hnum⟩ := remove_spec h.inLists hl (h.pos _ p hp)
  refine ⟨_, h.loosen hl (by simp) hlists hsame ?_, by simp, hsame.element⟩
  rw [hnum, h.idleNum]
  simp

/-- The first idle node is taken. -/
theorem Managed.take {rest : List Nat} (h : Managed key cfg s lists) (hl : lists .idle = p :: rest) :
    s.first .idle = p ∧
    ∃ lists', Loose key cfg (takeIdle s) lists' p ∧ lists' .used = lists .used ∧
      (takeIdle s).element = s.element := by
  obtain ⟨hfirst, hlists, hsame, hnum⟩ := takeIdle_spec h.inLists hl
  have hl' : lists .idle = [] ++ p :: rest := hl
  refine ⟨hfirst, _, h.loosen hl' (by simp) hlists hsame ?_, by simp, hsame.element⟩
  rw [hnum, h.idleNum]
  simp [hl]

/-- **A node with its element goes to the used ones and to its place in the index.** -/
theorem Loose.enterUsed (h : Loose key cfg s lists p) (e : T) :
    Managed key cfg (enterUsed key s p e) (Function.update lists .used (lists .used ++ [p])) ∧
    (enterUsed key s p e).element p = e ∧
    ∀ q ∈ lists .used, (enterUsed key s p e).element q = s.element q := by
  have hnew := h.not_mem
  have hvalue : InLists (s.setVaue p e) lists := by
    unfold InLists
    simpa using h.inLists
  obtain ⟨hlists, hsame, hnum⟩ := append_spec hvalue .used h.ne_noNode hnew (by simpa using h.here)
  have helement : (append (s.setVaue p e) .used p).element = Function.update s.element p e := by
    rw [hsame.element]
    simp
  have hpos : (append (s.setVaue p e) .used p).pos = s.pos := by
    rw [hsame.pos]
    simp
  have hindex : (append (s.setVaue p e) .used p).index = s.index := hsame.index_eq
  have hkeep : ∀ q ∈ s.index, (append (s.setVaue p e) .used p).element q = s.element q := by
    intro q hq
    have hne : q ≠ p := fun heq => hnew .used (heq ▸ h.index.mem_iff.mp hq)
    rw [helement, Function.update_of_ne hne]
  have hsorted := sorted_congr hindex hkeep h.sorted
  obtain ⟨hle, hbelow, habove⟩ := lowerBound_spec key e hsorted
  unfold ListManager.enterUsed
  dsimp only
  generalize append (s.setVaue p e) .used p = t at *
  have hhere : t.pos p = p := by rw [hpos, h.here]
  rw [hhere]
  generalize lowerBound key t e = t₀ at *
  have hslice : slice (Function.update (shiftUp t₀ t.m_nodeNum t.m_pIndexInfo) t₀ p)
      (t.m_nodeNum + 1) = t.index.take t₀ ++ p :: t.index.drop t₀ := slice_insert hle
  have hbefore : ∀ q ∈ t.index.take t₀, key (t.element q) ≤ key e := by
    intro q hq
    obtain ⟨i, hi, rfl⟩ := List.mem_take_iff_getElem.mp hq
    rw [getElem_slice]
    exact le_of_lt (hbelow i (by omega))
  have hbehind : ∀ q ∈ t.index.drop t₀, key e ≤ key (t.element q) := by
    intro q hq
    obtain ⟨i, hi, rfl⟩ := List.mem_drop_iff_getElem.mp hq
    rw [getElem_slice]
    rw [slice_length] at hi
    exact habove (t₀ + i) (by omega) (by omega)
  have hplace : t.element p = e := by rw [helement, Function.update_self]
  refine ⟨⟨hlists, ?_, ?_, ?_, ?_, ?_⟩, hplace, ?_⟩
  · refine List.Perm.trans ?_ h.nodes
    rw [List.perm_iff_count]
    intro q
    simp only [Function.update_self, List.count_append, List.count_cons, ne_eq, reduceCtorEq,
      not_false_eq_true, Function.update_of_ne, List.count_nil]
    omega
  · intro l q hq
    have hq' : q = p ∨ q ∈ lists l := by
      by_cases hl : l = .used
      · subst hl
        rw [Function.update_self, List.mem_append, List.mem_singleton] at hq
        exact hq.symm
      · rw [Function.update_of_ne hl] at hq
        exact .inr hq
    have hat : t.pos q = q := by
      rcases hq' with rfl | hq'
      · exact hhere
      · rw [hpos]
        exact h.pos l q hq'
    exact hat
  · have hidle : t.m_idleNum = (lists .idle).length := hnum.trans h.idleNum
    simpa using hidle
  · unfold State.index
    dsimp only
    rw [hslice, Function.update_self]
    refine List.perm_middle.trans ((List.Perm.cons p ?_).trans (List.perm_append_singleton p _).symm)
    rw [List.take_append_drop, hindex]
    exact h.index
  · have hordered : (t.index.take t₀ ++ p :: t.index.drop t₀).Pairwise
        fun p q => key (t.element p) ≤ key (t.element q) := by
      have hsplit := hsorted
      rw [← List.take_append_drop t₀ t.index, List.pairwise_append] at hsplit
      refine List.pairwise_append.mpr ⟨hsplit.1, List.pairwise_cons.mpr ⟨?_, hsplit.2.1⟩, ?_⟩
      · intro q hq
        rw [hplace]
        exact hbehind q hq
      · intro q hq r hr
        rcases List.mem_cons.mp hr with rfl | hr
        · rw [hplace]
          exact hbefore q hq
        · exact hsplit.2.2 q hq r hr
    rw [← hslice] at hordered
    exact hordered
  · intro q hq
    exact hkeep q (h.index.mem_iff.mpr hq)

/-! ## The operations -/

/-- A walk visits the nodes of its list. -/
theorem Managed.nodesOf (h : Managed key cfg s lists) (l : T_MEMUSEDFLAG) :
    nodesOf cfg s l = lists l := by
  have hwalk : ∀ (list : List Nat) (fuel p : Nat), Chain s.next noNode p list → list ≠ [] →
      list.length ≤ fuel → walk s fuel p = list := by
    intro list
    induction list with
    | nil =>
        intro fuel p _ hne
        exact absurd rfl hne
    | cons x rest ih =>
        intro fuel p hchain _ hfuel
        obtain ⟨rfl, hx, hrest⟩ := hchain
        cases fuel with
        | zero => simp at hfuel
        | succ fuel =>
            rw [walk]
            cases rest with
            | nil =>
                have hend : s.next p = noNode := hrest
                rw [if_pos hend]
            | cons y rest =>
                have hgo : s.next p ≠ noNode := by
                  rw [hrest.1]
                  exact hrest.2.1
                rw [if_neg hgo, ih fuel _ hrest (by simp) (by simpa using hfuel)]
  have hlength : (lists l).length ≤ cfg.m_maxNum := by
    have hall := h.nodes.length_eq
    simp only [List.length_append, allNodes, List.length_map, List.length_range] at hall
    cases l <;> omega
  unfold ListManager.nodesOf
  have hlist := h.inLists.list l
  by_cases hfirst : s.first l = noNode
  · rw [if_pos hfirst]
    rw [hfirst] at hlist
    exact (chain_null hlist.forward).symm
  · rw [if_neg hfirst]
    refine hwalk _ _ _ hlist.forward ?_ hlength
    intro hempty
    rw [hempty] at hlist
    exact hfirst hlist.first_eq

/-- No node can be had for an element. -/
def NoNode (key : T → K) (s : State T) (lists : T_MEMUSEDFLAG → List Nat) (e : T)
    (flag : Bool) : Prop :=
  lists .idle = [] ∧ (flag = true → ∀ p ∈ lists .usedIdle, key (s.element p) ≠ key e)

/-- The element is in one more used node. -/
def Added (key : T → K) (cfg : Config T) (s : State T) (lists : T_MEMUSEDFLAG → List Nat) (e : T)
    (t : State T) (p : Nat) : Prop :=
  ∃ lists', Managed key cfg t lists' ∧ lists' .used = lists .used ++ [p] ∧ t.element p = e ∧
    ∀ q ∈ lists .used, t.element q = s.element q

theorem Loose.added {s' : State T} {lists' : T_MEMUSEDFLAG → List Nat}
    (h : Loose key cfg s' lists' p) (hused : lists' .used = lists .used)
    (helement : s'.element = s.element) (e : T) :
    Added key cfg s lists e (ListManager.enterUsed key s' p e) p := by
  obtain ⟨hmanaged, hplace, hkeep⟩ := h.enterUsed e
  refine ⟨_, hmanaged, by rw [Function.update_self, hused], hplace, ?_⟩
  intro q hq
  rw [hkeep q (hused ▸ hq), helement]

/-- **`addElement`** fails exactly when no node can be had, and then changes nothing;
otherwise the element is used. -/
theorem Managed.addElement (h : Managed key cfg s lists) (e : T) (flag : Bool) :
    (NoNode key s lists e flag ∧ addElement key cfg s e flag = (s, none)) ∨
    (¬ NoNode key s lists e flag ∧ ∃ t p, addElement key cfg s e flag = (t, some p) ∧
      Added key cfg s lists e t p) := by
  have hidle := h.inLists.list .idle
  unfold ListManager.addElement findReused
  rw [h.nodesOf]
  cases hfind : if flag = true then
      (lists .usedIdle).find? fun p => decide (key (s.element p) = key e) else none with
  | some p =>
      by_cases hflag : flag = true
      · rw [if_pos hflag] at hfind
        have hp := List.mem_of_find?_eq_some hfind
        have htest := List.find?_some hfind
        obtain ⟨lists', hloose, hused, helement⟩ := h.reuse hp
        refine .inr ⟨fun hno => ?_, _, p, rfl, hloose.added hused helement e⟩
        exact hno.2 hflag p hp (of_decide_eq_true htest)
      · simp [hflag] at hfind
  | none =>
      have hreuse : flag = true → ∀ p ∈ lists .usedIdle, key (s.element p) ≠ key e := by
        intro hflag p hp
        rw [if_pos hflag] at hfind
        simpa using List.find?_eq_none.mp hfind p hp
      cases hl : lists .idle with
      | nil =>
          rw [hl] at hidle
          have hfirst : s.first .idle = noNode := hidle.first_eq
          exact .inl ⟨⟨hl, hreuse⟩, if_pos hfirst⟩
      | cons p rest =>
          obtain ⟨hfirst, lists', hloose, hused, helement⟩ := h.take hl
          have hp : p ≠ noNode := hloose.ne_noNode
          refine .inr ⟨fun hno => ?_, _, p, ?_, hloose.added hused helement e⟩
          · rw [hno.1] at hl
            cases hl
          · dsimp only
            rw [hfirst, if_neg hp]

/-- The lists after a used node went to the end of another list. -/
def retired (lists : T_MEMUSEDFLAG → List Nat) (rest : List Nat) (l : T_MEMUSEDFLAG) (p : Nat) :
    T_MEMUSEDFLAG → List Nat :=
  Function.update (Function.update lists .used rest) l (lists l ++ [p])

/-- A used node that went to another list leaves the index. -/
theorem Managed.retire {t₀ : Nat} (h : Managed key cfg s lists)
    (hl : lists .used = pre ++ p :: post) (hne : l ≠ .used) (ht : t₀ < s.m_nodeNum)
    (hentry : s.m_pIndexInfo t₀ = p) (hsame : SameContent s t)
    (hlists : InLists t (retired lists (pre ++ post) l p))
    (hnum : t.m_idleNum = (retired lists (pre ++ post) l p .idle).length) :
    Managed key cfg { t with
      m_pIndexInfo := shiftDown (t.m_nodeNum - t₀) t₀ t.m_pIndexInfo
      m_nodeNum := t.m_nodeNum - 1 } (retired lists (pre ++ post) l p) := by
  have hused : retired lists (pre ++ post) l p .used = pre ++ post := by
    simp [retired, Function.update_of_ne hne.symm]
  have hslice : slice (shiftDown (s.m_nodeNum - t₀) t₀ s.m_pIndexInfo) (s.m_nodeNum - 1) =
      s.index.eraseIdx t₀ := slice_erase ht
  refine ⟨hlists, ?_, ?_, hnum, ?_, ?_⟩
  · refine List.Perm.trans ?_ h.nodes
    rw [hused, List.perm_iff_count]
    intro q
    cases l with
    | used => exact absurd rfl hne
    | idle =>
        simp only [retired, Function.update_self, hl, List.count_append, List.count_cons, ne_eq,
          reduceCtorEq, not_false_eq_true, Function.update_of_ne, List.count_nil]
        omega
    | usedIdle =>
        simp only [retired, Function.update_self, hl, List.count_append, List.count_cons, ne_eq,
          reduceCtorEq, not_false_eq_true, Function.update_of_ne, List.count_nil]
        omega
  · intro l' q hq
    have hat : s.pos q = q := by
      by_cases hl' : l' = l
      · subst hl'
        rw [retired, Function.update_self, List.mem_append, List.mem_singleton] at hq
        rcases hq with hq | rfl
        · exact h.pos l' q hq
        · exact h.pos .used q (by simp [hl])
      · rw [retired, Function.update_of_ne hl'] at hq
        by_cases hu : l' = .used
        · subst hu
          rw [Function.update_self] at hq
          refine h.pos .used q ?_
          rw [hl]
          simp only [List.mem_append, List.mem_cons] at hq ⊢
          tauto
        · rw [Function.update_of_ne hu] at hq
          exact h.pos l' q hq
    exact (congrFun hsame.pos q).trans hat
  · unfold State.index
    dsimp only
    rw [hused, hsame.index, hsame.nodeNum, hslice]
    have hlt : t₀ < s.index.length := by simpa using ht
    have hat : s.index[t₀] = p := by rw [getElem_slice, hentry]
    have hperm := List.getElem_cons_eraseIdx_perm hlt
    rw [hat] at hperm
    refine (List.perm_cons p).mp (hperm.trans (h.index.trans ?_))
    rw [hl]
    exact List.perm_middle
  · have hordered : (s.index.eraseIdx t₀).Pairwise
        fun p q => key (t.element p) ≤ key (t.element q) := by
      rw [hsame.element]
      exact h.sorted.sublist (List.eraseIdx_sublist _ t₀)
    rw [← hslice, ← hsame.index, ← hsame.nodeNum] at hordered
    exact hordered

/-- **`deleteElement`** fails exactly when no equal element is used, and then changes
nothing; otherwise one node with an equal element is not used any more. -/
theorem Managed.deleteElement (h : Managed key cfg s lists) (e : T) (flag : Bool) :
    ((∀ p ∈ lists .used, key (s.element p) ≠ key e) ∧ deleteElement key s e flag = (s, false)) ∨
    ∃ t lists' pre p post, deleteElement key s e flag = (t, true) ∧ Managed key cfg t lists' ∧
      lists .used = pre ++ p :: post ∧ lists' .used = pre ++ post ∧ key (s.element p) = key e ∧
      t.element = s.element := by
  obtain ⟨hfound, hmissing⟩ := h.getNodeIndexPos_spec e
  unfold ListManager.deleteElement
  cases hget : getNodeIndexPos key s e with
  | none => exact .inl ⟨hmissing hget, rfl⟩
  | some x =>
      obtain ⟨t₀, p⟩ := x
      obtain ⟨ht, hentry, hp, hkey⟩ := hfound t₀ p hget
      obtain ⟨pre, post, hl⟩ := List.append_of_mem hp
      have hnodup := h.nodes.nodup_iff.mpr (allNodes_spec cfg).1
      have hnode : p ≠ noNode := h.inLists.ne_null hp
      obtain ⟨hlists, hsame, hnum⟩ := remove_spec h.inLists hl (h.pos .used p hp)
      have hhere : (remove s .used p).pos p = p := by
        rw [hsame.pos]
        exact h.pos .used p hp
      have hnew : ∀ l, p ∉ Function.update lists .used (pre ++ post) l := by
        intro l hmem
        by_cases hlu : l = .used
        · subst hlu
          rw [Function.update_self] at hmem
          have hlist := (h.inLists.list .used).nodup
          rw [hl] at hlist
          exact (List.nodup_cons.mp (List.nodup_middle.mp hlist)).1 hmem
        · rw [Function.update_of_ne hlu] at hmem
          exact hlu (h.inLists.disjoint l .used p hmem hp)
      right
      cases flag with
      | true =>
          obtain ⟨hlists', hsame', hnum'⟩ := append_spec hlists .usedIdle hnode hnew hhere
          have hretired := h.retire (l := .usedIdle) hl (by simp) ht hentry
            ⟨hsame'.pos.trans hsame.pos, hsame'.element.trans hsame.element,
              hsame'.index.trans hsame.index, hsame'.nodeNum.trans hsame.nodeNum⟩ hlists'
            (by rw [hnum', hnum, h.idleNum]; simp [retired])
          refine ⟨_, _, pre, p, post, rfl, hretired, hl, by simp [retired], hkey, ?_⟩
          exact hsame'.element.trans hsame.element
      | false =>
          obtain ⟨hlists', hsame', hnum'⟩ := append_spec hlists .idle hnode hnew hhere
          have hretired := h.retire (l := .idle)
            (t := (append (remove s .used p) .idle p).setIdleNum ((remove s .used p).m_idleNum + 1))
            hl (by simp) ht hentry
            ⟨hsame'.pos.trans hsame.pos, hsame'.element.trans hsame.element,
              hsame'.index.trans hsame.index, hsame'.nodeNum.trans hsame.nodeNum⟩ hlists'
            (by simp [State.setIdleNum, hnum, h.idleNum, retired])
          refine ⟨_, _, pre, p, post, rfl, hretired, hl, by simp [retired], hkey, ?_⟩
          exact hsame'.element.trans hsame.element

/-- An element is written through the address of its node, and keeps its key. -/
theorem Managed.setVaue (h : Managed key cfg s lists) {e : T} (hkey : key e = key (s.element p)) :
    Managed key cfg (s.setVaue p e) lists ∧
    ∀ q, key ((s.setVaue p e).element q) = key (s.element q) := by
  have hkeys : ∀ q, key ((s.setVaue p e).element q) = key (s.element q) := by
    intro q
    by_cases hq : q = p
    · subst hq
      simp [hkey]
    · simp [hq]
  refine ⟨⟨?_, h.nodes, ?_, h.idleNum, h.index, ?_⟩, hkeys⟩
  · unfold InLists
    simpa using h.inLists
  · simpa using h.pos
  · refine h.sorted.imp ?_
    intro a b hle
    rwa [hkeys, hkeys]

/-- **`updateElement`** replaces an equal element, if one is used. -/
theorem Managed.updateElement (h : Managed key cfg s lists) (e : T) :
    Managed key cfg (updateElement key s e).1 lists ∧
    ∀ p ∈ lists .used, key ((updateElement key s e).1.element p) = key (s.element p) := by
  obtain ⟨hfound, -⟩ := h.getNodeIndexPos_spec e
  unfold ListManager.updateElement
  cases hget : getNodeIndexPos key s e with
  | none => exact ⟨h, fun _ _ => rfl⟩
  | some x =>
      obtain ⟨t₀, p⟩ := x
      obtain ⟨-, -, -, hkey⟩ := hfound t₀ p hget
      obtain ⟨hmanaged, hkeys⟩ := h.setVaue hkey.symm
      exact ⟨hmanaged, fun q _ => hkeys q⟩

/-! ## Runs -/

/-- No two used elements are equal. -/
def Distinct (key : T → K) (s : State T) (lists : T_MEMUSEDFLAG → List Nat) : Prop :=
  (lists .used).Pairwise fun p q => key (s.element p) ≠ key (s.element q)

/-- The index of distinct elements ascends strictly. -/
theorem Managed.strict (h : Managed key cfg s lists) (hdistinct : Distinct key s lists) :
    s.index.Pairwise fun p q => key (s.element p) < key (s.element q) := by
  have hne : s.index.Pairwise fun p q => key (s.element p) ≠ key (s.element q) :=
    (h.index.pairwise_iff fun hne => hne.symm).mpr hdistinct
  refine (h.sorted.and hne).imp ?_
  rintro p q ⟨hle, hne⟩
  exact lt_of_le_of_ne hle hne

/-- A deletion keeps the invariant, and distinct elements stay distinct. -/
theorem Managed.deleteElement_keeps (h : Managed key cfg s lists) (e : T) (flag : Bool) :
    ∃ lists', Managed key cfg (ListManager.deleteElement key s e flag).1 lists' ∧
      (Distinct key s lists → Distinct key (ListManager.deleteElement key s e flag).1 lists') := by
  rcases h.deleteElement e flag with ⟨-, heq⟩ |
    ⟨t, lists', pre, p, post, heq, hmanaged, hused, hused', -, helement⟩
  · rw [heq]
    exact ⟨lists, h, fun hdistinct => hdistinct⟩
  · rw [heq]
    refine ⟨lists', hmanaged, fun hdistinct => ?_⟩
    unfold Distinct at hdistinct ⊢
    rw [hused] at hdistinct
    rw [hused', helement]
    exact hdistinct.sublist
      (List.Sublist.append (List.Sublist.refl pre) (List.sublist_cons_self p post))

theorem Managed.clear_keeps (h : Managed key cfg s lists) (flag : Bool) :
    ∃ lists', Managed key cfg (clear key cfg s flag) lists' ∧
      (Distinct key s lists → Distinct key (clear key cfg s flag) lists') := by
  unfold ListManager.clear
  generalize getElements cfg s = elements
  induction elements generalizing s lists with
  | nil => exact ⟨lists, h, fun hdistinct => hdistinct⟩
  | cons e rest ih =>
      obtain ⟨lists₁, h₁, hdistinct₁⟩ := h.deleteElement_keeps e flag
      obtain ⟨lists₂, h₂, hdistinct₂⟩ := ih h₁
      exact ⟨lists₂, h₂, fun hdistinct => hdistinct₂ (hdistinct₁ hdistinct)⟩

inductive Call (T : Type) where
  | addElement (r_element : T) (r_flag : Bool)
  | deleteElement (r_element : T) (r_flag : Bool)
  | updateElement (r_element : T)
  | clear (t_flag : Bool)

/-- One call. -/
def step (key : T → K) (cfg : Config T) (s : State T) : Call T → Option (State T)
  | .addElement e flag => some (addElement key cfg s e flag).1
  | .deleteElement e flag => some (deleteElement key s e flag).1
  | .updateElement e => some (updateElement key s e).1
  | .clear flag => some (clear key cfg s flag)

/-- The call does not add an element that is used already. -/
def AddsNew (key : T → K) (s : State T) : Call T → Prop
  | .addElement e _ => getElement key s e = none
  | _ => True

instance decidableAddsNew (key : T → K) (s : State T) :
    (call : Call T) → Decidable (AddsNew key s call)
  | .addElement e _ => inferInstanceAs (Decidable (getElement key s e = none))
  | .deleteElement _ _ => isTrue trivial
  | .updateElement _ => isTrue trivial
  | .clear _ => isTrue trivial

/-- **`getElement` succeeds exactly when an equal element is used.** -/
theorem Managed.getElement_iff (h : Managed key cfg s lists) (e : T) :
    (getElement key s e).isSome = true ↔ ∃ p ∈ lists .used, key (s.element p) = key e := by
  obtain ⟨hfound, hmissing⟩ := h.getNodeIndexPos_spec e
  unfold getElement
  cases hget : getNodeIndexPos key s e with
  | none =>
      simp only [Option.map_none, Option.isSome_none, Bool.false_eq_true, false_iff, not_exists,
        not_and]
      exact hmissing hget
  | some x =>
      obtain ⟨-, -, hp, hkey⟩ := hfound x.1 x.2 hget
      simp only [Option.map_some, Option.isSome_some, true_iff]
      exact ⟨x.2, hp, hkey⟩

/-- **Every call keeps the invariant.** -/
theorem Managed.step (h : Managed key cfg s lists) (call : Call T)
    (hstep : step key cfg s call = some t) :
    ∃ lists', Managed key cfg t lists' ∧
      (Distinct key s lists → AddsNew key s call → Distinct key t lists') := by
  cases call with
  | addElement e flag =>
      obtain rfl := Option.some.inj hstep
      rcases h.addElement e flag with ⟨-, heq⟩ |
        ⟨-, t, p, heq, lists', hmanaged, hused, hplace, hkeep⟩
      · rw [heq]
        exact ⟨lists, h, fun hdistinct _ => hdistinct⟩
      · rw [heq]
        refine ⟨lists', hmanaged, fun hdistinct hadds => ?_⟩
        have hno : ¬ ∃ q ∈ lists .used, key (s.element q) = key e := by
          rw [← h.getElement_iff e]
          have hnone : getElement key s e = none := hadds
          simp [hnone]
        unfold Distinct at hdistinct ⊢
        rw [hused]
        refine List.pairwise_append.mpr ⟨?_, List.pairwise_singleton _ p, ?_⟩
        · refine hdistinct.imp_of_mem ?_
          intro a b ha hb hne
          rwa [hkeep a ha, hkeep b hb]
        · intro a ha b hb
          rw [List.mem_singleton.mp hb, hkeep a ha, hplace]
          exact fun heq => hno ⟨a, ha, heq⟩
  | deleteElement e flag =>
      obtain rfl := Option.some.inj hstep
      obtain ⟨lists', hmanaged, hdistinct⟩ := h.deleteElement_keeps e flag
      exact ⟨lists', hmanaged, fun hd _ => hdistinct hd⟩
  | updateElement e =>
      obtain rfl := Option.some.inj hstep
      obtain ⟨hmanaged, hkeys⟩ := h.updateElement e
      refine ⟨lists, hmanaged, fun hdistinct _ => ?_⟩
      refine List.Pairwise.imp_of_mem ?_ hdistinct
      intro a b ha hb hne
      rwa [hkeys a ha, hkeys b hb]
  | clear flag =>
      obtain rfl := Option.some.inj hstep
      obtain ⟨lists', hmanaged, hdistinct⟩ := h.clear_keeps flag
      exact ⟨lists', hmanaged, fun hd _ => hdistinct hd⟩

/-- Writes to different places, one after the other. -/
theorem foldl_write {α : Type} (place : Nat → Nat) (value : Nat → α) (f : Nat → α) (n : Nat)
    (hinj : ∀ j < n, ∀ k < n, place j = place k → j = k) :
    ∀ k < n, (List.range n).foldl (fun f i => Function.update f (place i) (value i)) f (place k) =
      value k := by
  induction n with
  | zero =>
      intro k hk
      omega
  | succ n ih =>
      intro k hk
      rw [List.range_succ, List.foldl_append, List.foldl_cons, List.foldl_nil]
      by_cases hkn : k = n
      · rw [hkn, Function.update_self]
      · have hne : place k ≠ place n := fun heq => hkn (hinj k hk n (by omega) heq)
        rw [Function.update_of_ne hne]
        exact ih (fun i hi j hj => hinj i (by omega) j (by omega)) k (by omega)

theorem Config.node_inj (cfg : Config T) {i j : Nat} (h : cfg.node i = cfg.node j) : i = j := by
  unfold Config.node at h
  exact Nat.eq_of_mul_eq_mul_right cfg.size_pos (by omega)

/-- **The new manager**: all nodes are idle. -/
theorem managed_initElements (key : T → K) (cfg : Config T) (s₀ : State T) :
    Managed key cfg (initElements cfg s₀) fun l => if l = .idle then allNodes cfg else [] := by
  have hmax := cfg.max_pos
  have hnode := foldl_write cfg.node (fun i => ({
      m_pos := cfg.node i
      m_prev := if i = 0 then noNode else cfg.node i - cfg.sizeofNode
      m_next := if i = cfg.m_maxNum - 1 then noNode else cfg.node i + cfg.sizeofNode
      m_useFlag := .idle
      m_element := cfg.zero } : NodeTmpt T)) s₀.node cfg.m_maxNum
    (fun i _ j _ heq => cfg.node_inj heq)
  have hnext : ∀ k < cfg.m_maxNum, (initElements cfg s₀).next (cfg.node k) =
      if k = cfg.m_maxNum - 1 then noNode else cfg.node (k + 1) := by
    intro k hk
    have hsucc : cfg.node k + cfg.sizeofNode = cfg.node (k + 1) := by
      unfold Config.node
      rw [Nat.add_mul]
      omega
    rw [← hsucc]
    exact congrArg NodeTmpt.m_next (hnode k hk)
  have hprev : ∀ k < cfg.m_maxNum, (initElements cfg s₀).prev (cfg.node k) =
      if k = 0 then noNode else cfg.node (k - 1) := by
    intro k hk
    have hfield : (initElements cfg s₀).prev (cfg.node k) =
        if k = 0 then noNode else cfg.node k - cfg.sizeofNode :=
      congrArg NodeTmpt.m_prev (hnode k hk)
    rw [hfield]
    cases k with
    | zero => rfl
    | succ k =>
        unfold Config.node
        rw [Nat.add_mul]
        simp only [Nat.add_one_sub_one]
        congr 1
        omega
  have hidle : DList (initElements cfg s₀).next (initElements cfg s₀).prev noNode (cfg.node 0)
      (cfg.node (cfg.m_maxNum - 1)) (allNodes cfg) :=
    dlist_range cfg.node hmax
      (fun k hk => (allNodes_spec cfg).2 _ (List.mem_map.mpr ⟨k, List.mem_range.mpr hk, rfl⟩))
      (fun i _ j _ heq => cfg.node_inj heq) hnext hprev
  refine ⟨⟨?_, ?_⟩, ?_, ?_, ?_, ?_, ?_⟩
  · intro l
    by_cases hl : l = .idle
    · subst hl
      exact hidle
    · simp only [initElements, hl, if_false]
      exact DList.nil
  · intro i j x hi hj
    simp only [List.mem_ite_nil_right] at hi hj
    rw [hi.1, hj.1]
  · simp
  · intro l p hp
    simp only [List.mem_ite_nil_right] at hp
    obtain ⟨k, hk, rfl⟩ := List.mem_map.mp hp.2
    exact congrArg NodeTmpt.m_pos (hnode k (List.mem_range.mp hk))
  · simp [initElements, allNodes]
  · simp [State.index, initElements, slice]
  · simp [State.index, initElements, slice]

/-- In a run that adds only what is new, the elements stay distinct. -/
theorem distinct_run {s₀ : State T} {calls : List (Call T)}
    (hmeets : Meets (step key cfg) (AddsNew key) (initElements cfg s₀) calls)
    (hrun : run (step key cfg) (initElements cfg s₀) calls = some s) :
    ∃ lists, Managed key cfg s lists ∧ Distinct key s lists := by
  refine run_invariant_of_meets (I := fun s => ∃ lists, Managed key cfg s lists ∧
    Distinct key s lists) ?_ ⟨_, managed_initElements key cfg s₀, by simp [Distinct]⟩ hmeets hrun
  rintro s call t ⟨lists, h, hdistinct⟩ hadds hstep
  obtain ⟨lists', h', hdistinct'⟩ := h.step call hstep
  exact ⟨lists', h', hdistinct' hdistinct hadds⟩

/-- **The lists of the control area.**  After any calls the nodes are divided among the
three lists and the index holds the used ones in order; it ascends strictly when no call
added an element that was used already.  `getElement` finds what is used, and `addElement`
fails exactly when no node can be had, without a change. -/
theorem managed_run (key : T → K) (cfg : Config T) (s₀ : State T) (calls : List (Call T))
    (hrun : run (step key cfg) (initElements cfg s₀) calls = some s) :
    ∃ lists, Managed key cfg s lists ∧
      (Meets (step key cfg) (AddsNew key) (initElements cfg s₀) calls →
        s.index.Pairwise fun p q => key (s.element p) < key (s.element q)) ∧
      (∀ e, (getElement key s e).isSome = true ↔ ∃ p ∈ lists .used, key (s.element p) = key e) ∧
      ∀ e flag, ((addElement key cfg s e flag).2 = none ↔ NoNode key s lists e flag) ∧
        ((addElement key cfg s e flag).2 = none → (addElement key cfg s e flag).1 = s) := by
  have hinit := managed_initElements key cfg s₀
  have hlists : ∃ lists, Managed key cfg s lists ∧
      (Meets (step key cfg) (AddsNew key) (initElements cfg s₀) calls → Distinct key s lists) := by
    by_cases hmeets : Meets (step key cfg) (AddsNew key) (initElements cfg s₀) calls
    · obtain ⟨lists, h, hdistinct⟩ := distinct_run hmeets hrun
      exact ⟨lists, h, fun _ => hdistinct⟩
    · have hinv : ∃ lists, Managed key cfg s lists := by
        refine run_invariant (I := fun s => ∃ lists, Managed key cfg s lists) ?_ ⟨_, hinit⟩ hrun
        rintro s call t ⟨lists, h⟩ hstep
        obtain ⟨lists', h', -⟩ := h.step call hstep
        exact ⟨lists', h'⟩
      obtain ⟨lists, h⟩ := hinv
      exact ⟨lists, h, fun hyes => absurd hyes hmeets⟩
  obtain ⟨lists, h, hdistinct⟩ := hlists
  refine ⟨lists, h, fun hmeets => h.strict (hdistinct hmeets), h.getElement_iff, ?_⟩
  intro e flag
  rcases h.addElement e flag with ⟨hno, heq⟩ | ⟨hnode, t, p, heq, -⟩
  · simp [heq, hno]
  · simp [heq, hnode]

/-- Two nodes for numbers. -/
def twoNodes : Config Nat where
  m_sOffSet := 0
  m_maxNum := 2
  sizeofNode := 40
  zero := 0
  max_pos := Nat.succ_pos 1
  size_pos := Nat.succ_pos 39
  fits := by decide

/-- Memory of zero bytes. -/
def zeroState : State Nat where
  m_nodeNum := 0
  m_idleNum := 0
  first _ := 0
  last _ := 0
  node _ := ⟨0, 0, 0, .idle, 0⟩
  m_pIndexInfo _ := 0

theorem managed_run_addTwo :
    ∃ s, run (step id twoNodes) (initElements twoNodes zeroState)
        [.addElement 5 false, .addElement 3 true] = some s ∧
      s.index.Pairwise fun p q => id (s.element p) < id (s.element q) := by
  refine ⟨_, rfl, ?_⟩
  obtain ⟨-, -, hstrict, -⟩ := managed_run id twoNodes zeroState
    [.addElement 5 false, .addElement 3 true] rfl
  apply hstrict
  refine meets_cons rfl ?_ (meets_cons rfl ?_ trivial)
  · rfl
  · rfl

/-- An element that is used can be added once more, and the index has equal neighbours. -/
theorem addElement_equal :
    ∃ s, run (step id twoNodes) (initElements twoNodes zeroState) [.addElement 5 false] = some s ∧
      (getElement id s 5).isSome = true ∧ (addElement id twoNodes s 5 false).2 ≠ none ∧
      ¬ (addElement id twoNodes s 5 false).1.index.Pairwise fun p q =>
        id ((addElement id twoNodes s 5 false).1.element p) <
          id ((addElement id twoNodes s 5 false).1.element q) := by
  refine ⟨_, rfl, ?_⟩
  decide +kernel

end ListManager
