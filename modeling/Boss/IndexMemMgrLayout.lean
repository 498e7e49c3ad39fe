import Boss.IndexMemMgr
import Boss.DoublyLinked
import Boss.Tiling

/-!
# What the segments of an index space look like

`Layout` is the segment invariant: the segments tile the space, the used ones and the idle
ones form two doubly linked lists, the idle list ascends and no two idle segments touch.
The rest of the module is about the links alone: a walk through a list finds the first
segment that passes a test, a segment leaves a list and its neighbours are linked to each
other, and a segment goes to the end of a list.

Main results: `Lists.removeIdle`, `Lists.removeUsed` and `Lists.addUsed`.
-/

namespace IndexMemMgr

open LinkedChain Tiling

variable {sp : SpaceInfo} {s t : State} {layout used idle pre post : List Nat} {p q : Nat}

/-! ## What the memory looks like -/

/-- The segments tile the space, and each one has its header. -/
structure Tiled (sp : SpaceInfo) (s : State) (layout : List Nat) : Prop where
  tiles : Tiles s.size firstSeg layout sp.m_size
  header : ∀ p, s.m_header p = true ↔ p ∈ layout
  offSet : ∀ p ∈ layout, s.offSet p = p
  minSize : ∀ p ∈ layout, sizeofHashIndexSeg ≤ s.size p

/-- The two lists, without a common segment. -/
structure Lists (s : State) (used idle : List Nat) : Prop where
  usedList : DList s.next s.prev noSeg s.m_fUsedSeg s.m_lUsedSeg used
  idleList : DList s.next s.prev noSeg s.m_fIdleSeg s.m_lIdleSeg idle
  disjoint : ∀ p ∈ used, p ∉ idle

/-- **The segment invariant.** -/
structure Layout (sp : SpaceInfo) (s : State) (layout used idle : List Nat) : Prop where
  tiled : Tiled sp s layout
  lists : Lists s used idle
  parts : layout.Perm (used ++ idle)
  sorted : idle.Pairwise (· < ·)
  apart : ∀ a ∈ idle, ∀ b ∈ idle, a + s.size a ≠ b

/-- Only links change. -/
structure SameSegs (s t : State) : Prop where
  size : t.size = s.size
  offSet : t.offSet = s.offSet
  header : t.m_header = s.m_header

theorem SameSegs.refl (s : State) : SameSegs s s := ⟨rfl, rfl, rfl⟩

theorem SameSegs.trans {r : State} (h : SameSegs s t) (h' : SameSegs t r) : SameSegs s r :=
  ⟨h'.size.trans h.size, h'.offSet.trans h.offSet, h'.header.trans h.header⟩

/-- The layout stays when no segment changes its offset, its size or its header. -/
theorem Tiled.of_same (h : Tiled sp s layout) (hsame : SameSegs s t) : Tiled sp t layout := by
  obtain ⟨hsize, hoffSet, hheader⟩ := hsame
  exact ⟨by rw [hsize]; exact h.tiles, by rw [hheader]; exact h.header,
    by rw [hoffSet]; exact h.offSet, by rw [hsize]; exact h.minSize⟩

/-- The end of a segment is an offset. -/
theorem Tiled.bounds (h : Tiled sp s layout) (hp : p ∈ layout) :
    firstSeg ≤ p ∧ p + s.size p ≤ sp.m_size ∧ p + s.size p < 2 ^ 64 := by
  obtain ⟨hlow, -, hhigh⟩ := tiles_bounds h.tiles hp
  have := sp.size_lt
  exact ⟨hlow, hhigh, by omega⟩

/-- A segment of the layout is not the null segment. -/
theorem Tiled.ne_noSeg (h : Tiled sp s layout) (hp : p ∈ layout) : p ≠ noSeg := by
  have hbounds := h.bounds hp
  have hmin := h.minSize p hp
  unfold sizeofHashIndexSeg at hmin
  unfold noSeg
  omega

/-- A segment of the layout is found at its place. -/
theorem Tiled.getSeg (h : Tiled sp s layout) (hp : p ∈ layout) : s.getSeg p = .ok (s.seg p) := by
  unfold State.getSeg
  rw [if_pos ((h.header p).mpr hp)]

theorem sizeT_of_lt {n : Nat} (h : n < 2 ^ 64) : sizeT n = n := Nat.mod_eq_of_lt h

/-- What `adjacent` tests. -/
theorem Tiled.adjacent_iff (h : Tiled sp s layout) (hp : p ∈ layout) (hq : q ∈ layout) :
    adjacent s p q = true ↔ p + s.size p = q := by
  unfold adjacent
  rw [h.offSet p hp, h.offSet q hq, sizeT_of_lt (h.bounds hp).2.2, beq_iff_eq]

theorem Layout.used_mem (h : Layout sp s layout used idle) (hp : p ∈ used) : p ∈ layout :=
  h.parts.mem_iff.mpr (List.mem_append_left idle hp)

theorem Layout.idle_mem (h : Layout sp s layout used idle) (hp : p ∈ idle) : p ∈ layout :=
  h.parts.mem_iff.mpr (List.mem_append_right used hp)

/-! ## Walks -/

/-- A walk through a list finds the first segment that passes the test. -/
theorem findSeg_spec (test : HashIndexSeg → Bool) {l : List Nat} {fuel : Nat}
    (hchain : Chain s.next noSeg p l) (hne : l ≠ []) (hseg : ∀ q ∈ l, s.getSeg q = .ok (s.seg q))
    (hfuel : l.length ≤ fuel) :
    findSeg s test fuel p = .ok (l.find? fun q => test (s.seg q)) := by
  induction l generalizing p fuel with
  | nil => exact absurd rfl hne
  | cons x rest ih =>
      obtain ⟨rfl, hx, hrest⟩ := hchain
      obtain ⟨fuel, rfl⟩ : ∃ n, fuel = n + 1 := ⟨fuel - 1, by simp at hfuel; omega⟩
      have hhere := hseg p List.mem_cons_self
      simp only [findSeg, hhere, List.find?_cons]
      cases htest : test (s.seg p) with
      | true => simp [htest]
      | false =>
          have hnext : (s.seg p).m_next = headOf noSeg rest := path_start hrest
          cases rest with
          | nil =>
              rw [headOf_nil] at hnext
              simp [hnext, htest]
          | cons y rest =>
              have hy : y ≠ noSeg := hrest.2.1
              rw [headOf_cons] at hnext
              have hwalk := ih hrest (List.cons_ne_nil y rest)
                (fun q hq => hseg q (List.mem_cons_of_mem p hq)) (by simpa using hfuel)
              have hstart : s.next p = y := hrest.1
              rw [hstart] at hwalk
              simpa [hnext, hy, htest] using hwalk

/-- A list of segments is not longer than the space. -/
theorem Tiled.length_le (h : Tiled sp s layout) : layout.length ≤ sp.m_size := by
  have hcount : ∀ {l : List Nat} {a b : Nat}, Tiles s.size a l b → a + l.length ≤ b := by
    intro l
    induction l with
    | nil =>
        intro a b h
        exact Nat.le_of_eq h
    | cons x l ih =>
        intro a b h
        obtain ⟨rfl, hsize, hrest⟩ := h
        have := ih hrest
        simp only [List.length_cons]
        omega
  have := hcount h.tiles
  omega

/-! ## Leaving and entering a list -/

/-- The neighbours of a segment are linked to each other. -/
def unlinkSeg (s : State) (p : Nat) : State :=
  let s' := if s.prev p = noSeg then s else s.setNext (s.prev p) (s.next p)
  if s.next p = noSeg then s' else s'.setPrev (s.next p) (s.prev p)

/-- Taking a segment out links the one before it to the one behind it. -/
theorem unlinkSeg_next (s : State) (p : Nat) : (unlinkSeg s p).next =
    if s.prev p = noSeg then s.next else Function.update s.next (s.prev p) (s.next p) := by
  unfold unlinkSeg
  by_cases hprev : s.prev p = noSeg <;> by_cases hnext : s.next p = noSeg <;> simp [hprev, hnext]

/-- Taking a segment out links the one behind it back to the one before it. -/
theorem unlinkSeg_prev (s : State) (p : Nat) : (unlinkSeg s p).prev =
    if s.next p = noSeg then s.prev else Function.update s.prev (s.next p) (s.prev p) := by
  unfold unlinkSeg
  by_cases hprev : s.prev p = noSeg <;> by_cases hnext : s.next p = noSeg <;> simp [hprev, hnext]

/-- Taking a segment out of its list leaves the segments. -/
theorem unlinkSeg_same (s : State) (p : Nat) : SameSegs s (unlinkSeg s p) := by
  unfold unlinkSeg
  by_cases hprev : s.prev p = noSeg <;> by_cases hnext : s.next p = noSeg <;>
    constructor <;> simp [hprev, hnext] <;> rfl

/-- Taking a segment out of its list leaves the ends of both lists. -/
theorem unlinkSeg_ends (s : State) (p : Nat) :
    (unlinkSeg s p).m_fUsedSeg = s.m_fUsedSeg ∧ (unlinkSeg s p).m_lUsedSeg = s.m_lUsedSeg ∧
    (unlinkSeg s p).m_fIdleSeg = s.m_fIdleSeg ∧ (unlinkSeg s p).m_lIdleSeg = s.m_lIdleSeg := by
  unfold unlinkSeg
  by_cases hprev : s.prev p = noSeg <;> by_cases hnext : s.next p = noSeg <;>
    simp [hprev, hnext, State.setNext, State.setPrev]

/-- A list that has none of the written positions. -/
theorem unlinkSeg_other {l l' : List Nat} {fst lst fst' lst' : Nat}
    (h : DList s.next s.prev noSeg fst lst l) (h' : DList s.next s.prev noSeg fst' lst' l')
    (hdisj : ∀ q ∈ l', q ∉ l) (hp : p ∈ l) :
    DList (unlinkSeg s p).next (unlinkSeg s p).prev noSeg fst' lst' l' := by
  rw [unlinkSeg_next, unlinkSeg_prev]
  exact h.unlink_apart hp h' hdisj

/-- A segment that has its header is found. -/
theorem getSeg_ok (h : s.m_header p = true) : s.getSeg p = .ok (s.seg p) := by
  unfold State.getSeg
  rw [if_pos h]

/-- **A segment leaves the idle list.** -/
theorem Lists.removeIdle (h : Lists s used (pre ++ p :: post))
    (hseg : ∀ q ∈ pre ++ p :: post, s.m_header q = true) :
    ∃ t, removeIdle s p = .ok t ∧ SameSegs s t ∧ Lists t used (pre ++ post) := by
  have hp : p ∈ pre ++ p :: post := by simp
  obtain ⟨hprev, hnext⟩ := h.idleList.links_mem hp
  obtain ⟨hsize, hoffSet, hheader⟩ := unlinkSeg_same s p
  obtain ⟨hfUsed, hlUsed, -, -⟩ := unlinkSeg_ends s p
  refine ⟨{ unlinkSeg s p with
    m_fIdleSeg := if s.prev p = noSeg then s.next p else s.m_fIdleSeg
    m_lIdleSeg := if s.next p = noSeg then s.prev p else s.m_lIdleSeg }, ?_,
    ⟨hsize, hoffSet, hheader⟩, ?_, ?_, ?_⟩
  · have hgp : s.getSeg p = .ok (s.seg p) := getSeg_ok (hseg p hp)
    have hfields : (s.seg p).m_prev = s.prev p ∧ (s.seg p).m_next = s.next p := ⟨rfl, rfl⟩
    unfold IndexMemMgr.removeIdle unlinkSeg
    simp only [hgp, ok_bind, hfields]
    by_cases hfirst : s.prev p = noSeg
    · by_cases hlast : s.next p = noSeg
      · simp [hfirst, hlast]
      · have hgn : s.getSeg (s.next p) = .ok (s.seg (s.next p)) := getSeg_ok (hseg _ (hnext hlast))
        have hsame : State.getSeg { s with m_fIdleSeg := s.next p } (s.next p) =
          .ok (s.seg (s.next p)) := hgn
        simp [hfirst, hlast, hsame]
        rfl
    · have hgr : s.getSeg (s.prev p) = .ok (s.seg (s.prev p)) := getSeg_ok (hseg _ (hprev hfirst))
      by_cases hlast : s.next p = noSeg
      · simp [hfirst, hlast, hgr]
        rfl
      · have hgn : (s.setNext (s.prev p) (s.next p)).getSeg (s.next p) =
            .ok ((s.setNext (s.prev p) (s.next p)).seg (s.next p)) :=
          getSeg_ok (hseg _ (hnext hlast))
        simp [hfirst, hlast, hgr, hgn]
        rfl
  · have hother := unlinkSeg_other h.idleList h.usedList h.disjoint hp
    rw [← hfUsed, ← hlUsed] at hother
    exact hother
  · have hlist := h.idleList.unlink
    rw [← unlinkSeg_next, ← unlinkSeg_prev] at hlist
    exact hlist
  · intro q hq hmem
    apply h.disjoint q hq
    simp only [List.mem_append, List.mem_cons] at hmem ⊢
    tauto

/-- **A segment leaves the used list.**  Its own link stays. -/
theorem Lists.removeUsed (h : Lists s (pre ++ p :: post) idle) (hoff : s.offSet p = p)
    (hseg : ∀ q ∈ pre ++ p :: post, s.m_header q = true) :
    ∃ t, removeUsed s p = .ok t ∧ SameSegs s t ∧ Lists t (pre ++ post) idle ∧
      t.next p = s.next p := by
  have hp : p ∈ pre ++ p :: post := by simp
  obtain ⟨hprev, hnext⟩ := h.usedList.links_mem hp
  obtain ⟨hfirst, hlast⟩ := h.usedList.ends
  obtain ⟨hsize, hoffSet, hheader⟩ := unlinkSeg_same s p
  obtain ⟨-, -, hfIdle, hlIdle⟩ := unlinkSeg_ends s p
  refine ⟨{ unlinkSeg s p with
    m_fUsedSeg := if s.prev p = noSeg then s.next p else s.m_fUsedSeg
    m_lUsedSeg := if s.next p = noSeg then s.prev p else s.m_lUsedSeg }, ?_,
    ⟨hsize, hoffSet, hheader⟩, ⟨?_, ?_, ?_⟩, ?_⟩
  · have hgp : s.getSeg p = .ok (s.seg p) := getSeg_ok (hseg p hp)
    have hfields : (s.seg p).m_prev = s.prev p ∧ (s.seg p).m_next = s.next p ∧
        (s.seg p).m_sOffSet = p := ⟨rfl, rfl, hoff⟩
    have hfirst' : p = s.m_fUsedSeg ↔ s.prev p = noSeg := eq_comm.trans hfirst
    have hlast' : p = s.m_lUsedSeg ↔ s.next p = noSeg := eq_comm.trans hlast
    unfold IndexMemMgr.removeUsed unlinkSeg
    simp only [hgp, ok_bind, hfields, hfirst']
    by_cases hnone : s.prev p = noSeg
    · simp only [hnone, if_true, pure_eq_ok, ok_bind, hlast']
      by_cases hend : s.next p = noSeg
      · simp [hend]
      · have hgn : State.getSeg { s with m_fUsedSeg := s.next p } (s.next p) =
            .ok (s.seg (s.next p)) := getSeg_ok (hseg _ (hnext hend))
        simp [hend, hgn]
        rfl
    · have hgr : s.getSeg (s.prev p) = .ok (s.seg (s.prev p)) := getSeg_ok (hseg _ (hprev hnone))
      have hsame : p = (s.setNext (s.prev p) (s.next p)).m_lUsedSeg ↔ s.next p = noSeg := hlast'
      simp only [hnone, if_false, pure_eq_ok, ok_bind, hgr, hsame]
      by_cases hend : s.next p = noSeg
      · simp [hend]
        rfl
      · have hgn : (s.setNext (s.prev p) (s.next p)).getSeg (s.next p) =
            .ok ((s.setNext (s.prev p) (s.next p)).seg (s.next p)) :=
          getSeg_ok (hseg _ (hnext hend))
        simp [hend, hgn]
        rfl
  · have hlist := h.usedList.unlink
    rw [← unlinkSeg_next, ← unlinkSeg_prev] at hlist
    exact hlist
  · have hother := unlinkSeg_other h.usedList h.idleList
      (fun q hq hmem => h.disjoint q hmem hq) hp
    rw [← hfIdle, ← hlIdle] at hother
    exact hother
  · intro q hq
    apply h.disjoint q
    simp only [List.mem_append, List.mem_cons] at hq ⊢
    tauto
  · have hkeep : (unlinkSeg s p).next p = s.next p := by
      rw [unlinkSeg_next]
      by_cases hnone : s.prev p = noSeg
      · rw [if_pos hnone]
      · rw [if_neg hnone, Function.update_of_ne]
        intro heq
        obtain ⟨-, hlink⟩ := h.usedList.links
        have hmem := hprev hnone
        have hpre : s.prev p ∈ pre := by
          rw [hlink] at hnone ⊢
          exact lastOf_mem hnone
        exact (List.nodup_append.mp h.usedList.nodup).2.2 _ (heq ▸ hpre) p (by simp) rfl
    exact hkeep

/-- A segment is linked behind the last one of a list. -/
def pushSeg (s : State) (last p : Nat) : State :=
  let s' := (s.setPrev p last).setNext p noSeg
  if last = noSeg then s' else s'.setNext last p

/-- A segment at the end is linked back to the one that was last. -/
theorem pushSeg_prev (s : State) (last p : Nat) :
    (pushSeg s last p).prev = Function.update s.prev p last := by
  unfold pushSeg
  by_cases hlast : last = noSeg <;> simp [hlast]

/-- The one that was last is linked to the segment at the end, which is linked to none. -/
theorem pushSeg_next (s : State) (last p : Nat) : (pushSeg s last p).next =
    if last = noSeg then Function.update s.next p noSeg
    else Function.update (Function.update s.next p noSeg) last p := by
  unfold pushSeg
  by_cases hlast : last = noSeg <;> simp [hlast]

/-- Putting a segment at the end of a list leaves the segments. -/
theorem pushSeg_same (s : State) (last p : Nat) : SameSegs s (pushSeg s last p) := by
  unfold pushSeg
  by_cases hlast : last = noSeg <;> constructor <;> simp [hlast] <;> rfl

/-- Putting a segment behind the last one leaves the ends of both lists as they are kept. -/
theorem pushSeg_ends (s : State) (last p : Nat) :
    (pushSeg s last p).m_fUsedSeg = s.m_fUsedSeg ∧ (pushSeg s last p).m_lUsedSeg = s.m_lUsedSeg ∧
    (pushSeg s last p).m_fIdleSeg = s.m_fIdleSeg ∧ (pushSeg s last p).m_lIdleSeg = s.m_lIdleSeg := by
  unfold pushSeg
  by_cases hlast : last = noSeg <;> simp [hlast, State.setNext, State.setPrev]

/-- Putting a segment at the end of a list leaves its hash size. -/
theorem pushSeg_hashSize (s : State) (last p : Nat) :
    ((pushSeg s last p).seg p).m_hashSize = (s.seg p).m_hashSize := by
  unfold pushSeg
  by_cases hlast : last = noSeg
  · simp [hlast, State.setNext, State.setPrev]
  · by_cases hp : p = last
    · simp [hlast, hp, State.setNext, State.setPrev]
    · simp [hlast, hp, State.setNext, State.setPrev]

/-- The list gets longer by the segment. -/
theorem pushSeg_list {l : List Nat} {fst lst : Nat} (h : DList s.next s.prev noSeg fst lst l)
    (hp : p ≠ noSeg) (hnew : p ∉ l) :
    DList (pushSeg s lst p).next (pushSeg s lst p).prev noSeg
      (if lst = noSeg then p else fst) p (l ++ [p]) := by
  have hne : ∀ y ∈ l, y ≠ p := fun y hy heq => hnew (heq ▸ hy)
  have hwrite : DList (Function.update s.next p noSeg) (Function.update s.prev p lst) noSeg
      fst lst l := by
    refine h.congr (fun y hy => ?_) (fun y hy => ?_)
    · exact Function.update_of_ne (hne y hy) _ _
    · exact Function.update_of_ne (hne y hy) _ _
  have hpush := hwrite.push hp hnew (by simp) (by simp)
  rwa [pushSeg_next, pushSeg_prev]

/-- A list without the two written segments. -/
theorem pushSeg_other {l : List Nat} {fst lst : Nat} (last : Nat)
    (h : DList s.next s.prev noSeg fst lst l) (hp : p ∉ l) (hlast : last ≠ noSeg → last ∉ l) :
    DList (pushSeg s last p).next (pushSeg s last p).prev noSeg fst lst l := by
  rw [pushSeg_next, pushSeg_prev]
  exact h.push_apart hp hlast

/-- **A segment goes to the end of the used list.** -/
theorem Lists.addUsed (h : Lists s used idle) (hused : p ∉ used) (hidle : p ∉ idle)
    (hp : p ≠ noSeg) (hoff : s.offSet p = p) (hseg : ∀ q ∈ used, s.m_header q = true)
    (idx : IndexDef) :
    ∃ t, addUsed s p idx = .ok t ∧ SameSegs s t ∧ Lists t (used ++ [p]) idle ∧
      (t.seg p).m_hashSize = idx.m_hashSize := by
  have hlists : Lists (s.setIndex p idx) used idle := by
    refine ⟨?_, ?_, h.disjoint⟩
    · rw [State.setIndex_next, State.setIndex_prev]
      exact h.usedList
    · rw [State.setIndex_next, State.setIndex_prev]
      exact h.idleList
  have hsame : SameSegs s (s.setIndex p idx) := ⟨by simp, by simp, rfl⟩
  have hindex : ((s.setIndex p idx).seg p).m_hashSize = idx.m_hashSize := by
    simp [State.setIndex]
  have hends : (s.setIndex p idx).m_lUsedSeg = s.m_lUsedSeg ∧
      (s.setIndex p idx).m_fUsedSeg = s.m_fUsedSeg := ⟨rfl, rfl⟩
  have hoff' : (s.setIndex p idx).offSet p = p := by simpa using hoff
  have hheader : ∀ q ∈ used, (s.setIndex p idx).m_header q = true := hseg
  unfold IndexMemMgr.addUsed
  generalize s.setIndex p idx = s' at *
  have hlast : s'.m_lUsedSeg ≠ noSeg → s'.m_lUsedSeg ∈ used := by
    rw [hlists.usedList.last_eq]
    exact lastOf_mem
  have hpushed := pushSeg_list hlists.usedList hp hused
  have hother := pushSeg_other s'.m_lUsedSeg hlists.idleList hidle
    fun hne => hlists.disjoint _ (hlast hne)
  obtain ⟨hsize, hoffSet, hheader'⟩ := hsame.trans (pushSeg_same s' s'.m_lUsedSeg p)
  obtain ⟨-, -, hfIdle, hlIdle⟩ := pushSeg_ends s' s'.m_lUsedSeg p
  refine ⟨{ pushSeg s' s'.m_lUsedSeg p with
    m_fUsedSeg := if s'.m_lUsedSeg = noSeg then p else s'.m_fUsedSeg
    m_lUsedSeg := p }, ?_, ⟨hsize, hoffSet, hheader'⟩, ⟨hpushed, ?_, ?_⟩,
    (pushSeg_hashSize s' _ p).trans hindex⟩
  · unfold pushSeg
    by_cases hnone : s'.m_lUsedSeg = noSeg
    · simp [hnone, hoff']
    · have hkeep : ((s'.setPrev p s'.m_lUsedSeg).setNext p noSeg).m_lUsedSeg = s'.m_lUsedSeg := rfl
      have hget : ((s'.setPrev p s'.m_lUsedSeg).setNext p noSeg).getSeg s'.m_lUsedSeg =
          .ok (((s'.setPrev p s'.m_lUsedSeg).setNext p noSeg).seg s'.m_lUsedSeg) :=
        getSeg_ok (hheader _ (hlast hnone))
      simp [hnone, hkeep, hget, hoff']
      rfl
  · rw [← hfIdle, ← hlIdle] at hother
    exact hother
  · intro q hq
    rcases List.mem_append.mp hq with hq | hq
    · exact h.disjoint q hq
    · rwa [List.mem_singleton.mp hq]

end IndexMemMgr
