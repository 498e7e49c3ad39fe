import Boss.IndexMemMgrCreate

/-!
# When `dropHashIdex` keeps the layout

`dropHashIdex` keeps the layout on some ways through its last step only.  A segment below
all idle ones is linked behind the segment before the first one, which does not exist.
When a segment is joined with its neighbours, the link back to it is corrected on no way,
so the join must not have a segment behind it; and a join with the last idle segment takes
over the link of the used list.  `DropSafe` says that none of this happens.
-/

namespace IndexMemMgr

open LinkedChain Tiling

variable {sp : SpaceInfo} {s t : State} {layout used idle pre post : List Nat} {p q : Nat}

section Merge

variable (s : State) (p q : Nat)

theorem merge_size : (merge s p q).size = Function.update s.size p (sizeT (s.size p + s.size q)) :=
  (State.setNext_size _ p _).trans (State.setSize_size s p _)

theorem merge_offSet : (merge s p q).offSet = s.offSet :=
  (State.setNext_offSet _ p _).trans (State.setSize_offSet s p _)

theorem merge_next : (merge s p q).next = Function.update s.next p (s.next q) :=
  (State.setNext_next _ p _).trans (by rw [State.setSize_next])

theorem merge_prev : (merge s p q).prev = s.prev :=
  (State.setNext_prev _ p _).trans (State.setSize_prev s p _)

theorem merge_ends : (merge s p q).m_fIdleSeg = s.m_fIdleSeg ∧
    (merge s p q).m_fUsedSeg = s.m_fUsedSeg ∧ (merge s p q).m_lUsedSeg = s.m_lUsedSeg :=
  ⟨rfl, rfl, rfl⟩

end Merge

/-- **Two neighbours become one segment.** -/
theorem Tiled.merge (h : Tiled sp s layout) (hp : p ∈ layout) (hq : q ∈ layout)
    (hadj : p + s.size p = q) :
    ∃ layout', Tiled sp (merge s p q) layout' ∧ layout.Perm (q :: layout') ∧
      (IndexMemMgr.merge s p q).size p = s.size p + s.size q := by
  obtain ⟨lpre, post, rfl⟩ := List.append_of_mem hp
  obtain ⟨lpost, rfl⟩ := tiles_next h.tiles hq hadj
  have hqb := h.bounds hq
  have hsize : (IndexMemMgr.merge s p q).size =
      Function.update s.size p (s.size p + s.size q) := by
    rw [merge_size, sizeT_of_lt (by omega)]
  have hheader : (IndexMemMgr.merge s p q).m_header = Function.update s.m_header q false := rfl
  have hnodup := tiles_nodup h.tiles
  have hperm : (lpre ++ p :: q :: lpost).Perm (q :: (lpre ++ p :: lpost)) := by
    have hcons : lpre ++ p :: q :: lpost = (lpre ++ [p]) ++ q :: lpost := by simp
    rw [hcons]
    refine List.perm_middle.trans ?_
    simp
  have hq' : q ∉ lpre ++ p :: lpost := (List.nodup_cons.mp (hperm.nodup_iff.mp hnodup)).1
  refine ⟨lpre ++ p :: lpost, ⟨?_, ?_, ?_, ?_⟩, hperm, by rw [hsize, Function.update_self]⟩
  · refine tiles_merge h.tiles (by rw [hsize, Function.update_self]) ?_
    intro z hz
    rw [hsize, Function.update_of_ne]
    rintro rfl
    have hsmall : (lpre ++ z :: lpost).Nodup := (List.nodup_cons.mp (hperm.nodup_iff.mp hnodup)).2
    exact (List.nodup_cons.mp (List.nodup_middle.mp hsmall)).1 hz
  · intro z
    rw [hheader]
    by_cases hz : z = q
    · subst hz
      simp only [Function.update_self, Bool.false_eq_true, false_iff]
      exact hq'
    · rw [Function.update_of_ne hz, h.header, hperm.mem_iff, List.mem_cons]
      simp [hz]
  · intro z hz
    rw [merge_offSet]
    exact h.offSet z (hperm.mem_iff.mpr (List.mem_cons_of_mem q hz))
  · intro z hz
    have hmin := h.minSize z (hperm.mem_iff.mpr (List.mem_cons_of_mem q hz))
    rw [hsize]
    by_cases hzp : z = p
    · subst hzp
      rw [Function.update_self]
      omega
    · rwa [Function.update_of_ne hzp]

/-- Only the next idle segment below touches a segment. -/
theorem Tiled.touches (h : Tiled sp s layout) {a c : Nat} (ha : a ∈ layout) (hc : c ∈ layout)
    (hadj : a + s.size a = p) (hlt : c < p) : c ≤ a := by
  by_contra hgt
  have := tiles_apart h.tiles ha hc (by omega)
  omega

/-- A used segment leaves its list. -/
theorem Layout.removeUsed (h : Layout sp s layout used idle) (hp : p ∈ used) :
    ∃ t rest, removeUsed s p = .ok t ∧ SameSegs s t ∧ Loose sp t layout rest idle p ∧
      (∀ q, q ∈ rest ↔ q ∈ used ∧ q ≠ p) ∧ t.next p = s.next p := by
  obtain ⟨pre, post, rfl⟩ := List.append_of_mem hp
  have hnot : p ∉ pre ++ post := (List.nodup_middle.mp h.lists.usedList.nodup).notMem
  obtain ⟨t, ht, hsame, hlists, hnext⟩ := h.lists.removeUsed
    (h.tiled.offSet p (h.used_mem hp)) fun q hq => (h.tiled.header q).mpr (h.used_mem hq)
  refine ⟨t, pre ++ post, ht, hsame, ⟨h.tiled.of_same hsame, hlists, ?_, h.sorted, ?_⟩, ?_, hnext⟩
  · refine h.parts.trans ?_
    rw [List.append_assoc, List.append_assoc]
    exact List.perm_middle
  · rw [hsame.size]
    exact h.apart
  · intro q
    simp only [List.mem_append, List.mem_cons] at hnot ⊢
    constructor
    · intro hq
      exact ⟨by tauto, fun heq => hnot (heq ▸ hq)⟩
    · rintro ⟨hq, hne⟩
      tauto

/-- The state after a segment was linked behind the last idle one. -/
def pushIdle (s : State) (p : Nat) : State :=
  { pushSeg s s.m_lIdleSeg p with
    m_fIdleSeg := if s.m_lIdleSeg = noSeg then p else s.m_fIdleSeg
    m_lIdleSeg := p }

/-- A segment above all idle ones that touches none of them. -/
theorem Loose.push (h : Loose sp s layout used idle p) (habove : ∀ q ∈ idle, q < p)
    (htouch : ∀ q ∈ idle, q + s.size q ≠ p) :
    Layout sp (pushIdle s p) layout used (idle ++ [p]) := by
  obtain ⟨hused, hidle⟩ := h.not_mem
  obtain ⟨hsize, hoffSet, hheader⟩ := pushSeg_same s s.m_lIdleSeg p
  obtain ⟨hfUsed, hlUsed, -, -⟩ := pushSeg_ends s s.m_lIdleSeg p
  have hmin := h.tiled.minSize p h.mem
  unfold sizeofHashIndexSeg at hmin
  have hsame : SameSegs s (pushIdle s p) := ⟨hsize, hoffSet, hheader⟩
  refine ⟨h.tiled.of_same hsame, ⟨?_, ?_, ?_⟩, ?_, ?_, ?_⟩
  · have hother := pushSeg_other s.m_lIdleSeg h.lists.usedList hused fun hne hmem =>
      h.lists.disjoint _ hmem (by
        rw [h.lists.idleList.last_eq] at hne ⊢
        exact lastOf_mem hne)
    rw [← hfUsed, ← hlUsed] at hother
    exact hother
  · exact pushSeg_list h.lists.idleList (h.tiled.ne_noSeg h.mem) hidle
  · intro q hq hmem
    rcases List.mem_append.mp hmem with hmem | hmem
    · exact h.lists.disjoint q hq hmem
    · exact hused (List.mem_singleton.mp hmem ▸ hq)
  · refine h.parts.trans ?_
    rw [← List.append_assoc]
    exact (List.perm_append_singleton p (used ++ idle)).symm
  · refine List.pairwise_append.mpr ⟨h.sorted, List.pairwise_singleton _ p, ?_⟩
    intro q hq r hr
    rw [List.mem_singleton.mp hr]
    exact habove q hq
  · rw [hsame.size]
    intro a ha b hb
    rcases List.mem_append.mp ha with ha | ha
    · rcases List.mem_append.mp hb with hb | hb
      · exact h.apart a ha b hb
      · rw [List.mem_singleton.mp hb]
        exact htouch a ha
    · have hb' : b ≤ p := by
        rcases List.mem_append.mp hb with hb | hb
        · exact Nat.le_of_lt (habove b hb)
        · exact Nat.le_of_eq (List.mem_singleton.mp hb)
      rw [List.mem_singleton.mp ha]
      omega

/-- Behind the last idle segment, without or with a join.  With one, the segment brings
its own link along. -/
theorem Loose.appendIdle (h : Loose sp s layout used idle p) (hne : idle ≠ [])
    (habove : ∀ q ∈ idle, q < p) (hlink : (∃ q ∈ idle, q + s.size q = p) → s.next p = noSeg) :
    ∃ t layout' idle', appendIdle s p = .ok t ∧ Layout sp t layout' used idle' := by
  have hlast : s.m_lIdleSeg = lastOf noSeg idle := h.lists.idleList.last_eq
  obtain ⟨front, hfront⟩ := (lastOf_cases noSeg idle).resolve_left hne
  rw [← hlast] at hfront
  generalize hl : s.m_lIdleSeg = l at *
  have hmem : l ∈ idle := by
    rw [hfront]
    simp
  have hlay := h.idle_mem hmem
  have hmax : ∀ q ∈ idle, q ≤ l := by
    intro q hq
    have hsorted := h.sorted
    rw [hfront] at hq hsorted
    rcases List.mem_append.mp hq with hq | hq
    · exact Nat.le_of_lt ((List.pairwise_append.mp hsorted).2.2 q hq l (by simp))
    · exact Nat.le_of_eq (List.mem_singleton.mp hq)
  have hadj := h.tiled.adjacent_iff hlay h.mem
  unfold IndexMemMgr.appendIdle
  simp only [hl, h.tiled.getSeg hlay, ok_bind, pure_eq_ok]
  by_cases htouch : l + s.size l = p
  · rw [if_pos (hadj.mpr htouch)]
    obtain ⟨layout', htiled, hperm, hsize⟩ := h.tiled.merge hlay h.mem htouch
    refine ⟨_, layout', idle, rfl, htiled, ⟨?_, ?_, h.lists.disjoint⟩, ?_, h.sorted, ?_⟩
    · rw [merge_next, merge_prev]
      refine h.lists.usedList.congr (fun y hy => Function.update_of_ne ?_ _ _) (fun _ _ => rfl)
      rintro rfl
      exact h.lists.disjoint y hy hmem
    · -- the last idle segment has no successor, and neither has the joined one
      have hend : s.next l = noSeg := by
        have hlist := h.lists.idleList
        rw [hfront] at hlist
        exact hlist.links.1
      have hsame : Function.update s.next l (s.next p) = s.next := by
        rw [hlink ⟨l, hmem, htouch⟩, ← hend]
        exact Function.update_eq_self l s.next
      rw [merge_next, merge_prev, hsame]
      exact h.lists.idleList
    · exact (List.perm_cons p).mp (hperm.symm.trans h.parts)
    · intro a ha b hb
      have hb' := habove b hb
      by_cases hal : a = l
      · rw [hal, hsize]
        omega
      · rw [merge_size, Function.update_of_ne hal]
        exact h.apart a ha b hb
  · rw [if_neg (fun heq => htouch (hadj.mp heq))]
    refine ⟨pushIdle s p, layout, idle ++ [p], ?_, h.push habove ?_⟩
    · have hnone : l ≠ noSeg := h.lists.idleList.ne_null hmem
      have hkeep : ((s.setPrev p l).setNext p noSeg).m_lIdleSeg = l := hl
      simp [pushIdle, pushSeg, hl, hkeep, hnone, h.tiled.offSet p h.mem]
      rfl
    · intro q hq hq'
      have := h.tiled.touches (h.idle_mem hq) hlay hq' (habove l hmem)
      have := hmax q hq
      exact htouch (by rwa [show l = q by omega])

/-- The state after a segment was linked before another one. -/
def linkIdle (s : State) (r p q : Nat) : State :=
  (((s.setNext r p).setPrev p r).setNext p q).setPrev q p

/-- Linking between two idle segments. -/
theorem Loose.link {r : Nat} (h : Loose sp s layout used (pre ++ r :: q :: post) p) :
    Lists (linkIdle s r p q) used (pre ++ r :: p :: q :: post) := by
  obtain ⟨hused, hidle⟩ := h.not_mem
  have hr : r ∈ pre ++ r :: q :: post := by simp
  have hq : q ∈ pre ++ r :: q :: post := by simp
  have hne : ∀ {l : List Nat} {y : Nat}, p ∉ l → y ∈ l → y ≠ p := fun hp hy heq => hp (heq ▸ hy)
  have hnext : (linkIdle s r p q).next = Function.update (Function.update s.next p q) r p := by
    rw [Function.update_comm (hne hidle hr).symm]
    simp [linkIdle]
  have hprev : (linkIdle s r p q).prev = Function.update (Function.update s.prev p r) q p := by
    simp [linkIdle]
  refine ⟨?_, ?_, ?_⟩
  · rw [hnext, hprev]
    refine h.lists.usedList.congr (fun y hy => ?_) (fun y hy => ?_)
    · have hyr : y ≠ r := fun heq => h.lists.disjoint y hy (heq ▸ hr)
      rw [Function.update_of_ne hyr, Function.update_of_ne (hne hused hy)]
    · have hyq : y ≠ q := fun heq => h.lists.disjoint y hy (heq ▸ hq)
      rw [Function.update_of_ne hyq, Function.update_of_ne (hne hused hy)]
  · have hlist : DList (Function.update s.next p q) (Function.update s.prev p r) noSeg
        s.m_fIdleSeg s.m_lIdleSeg ((pre ++ [r]) ++ q :: post) := by
      have hassoc : (pre ++ [r]) ++ q :: post = pre ++ r :: q :: post := by simp
      rw [hassoc]
      exact h.lists.idleList.congr (fun y hy => Function.update_of_ne (hne hidle hy) _ _)
        (fun y hy => Function.update_of_ne (hne hidle hy) _ _)
    have hlinked := hlist.link (pre ++ [r]) (q :: post) (h.tiled.ne_noSeg h.mem)
      (by simpa using hidle) (by simp) (by simp)
    have hrn := h.lists.idleList.ne_null hr
    have hqn := h.lists.idleList.ne_null hq
    simp only [Function.update_self, hrn, hqn, if_false] at hlinked
    have hassoc : (pre ++ [r]) ++ p :: q :: post = pre ++ r :: p :: q :: post := by simp
    rw [hassoc] at hlinked
    rw [hnext, hprev]
    exact hlinked
  · intro y hy hmem
    have hmem' : y ∈ pre ++ r :: q :: post ∨ y = p := by
      simp only [List.mem_append, List.mem_cons] at hmem ⊢
      tauto
    rcases hmem' with hmem' | rfl
    · exact h.lists.disjoint y hy hmem'
    · exact hused hy

theorem linkIdle_same (s : State) (r p q : Nat) : SameSegs s (linkIdle s r p q) := by
  constructor
  · simp [linkIdle]
  · simp [linkIdle]
  · rfl

/-- Where the segment goes: behind `r`, before `q`. -/
theorem Loose.between (h : Loose sp s layout used (pre ++ q :: post) p)
    (hpre : ∀ y ∈ pre, y < p) (hq : p < q) (hne : pre ≠ []) :
    ∃ front r, pre = front ++ [r] ∧ r < p ∧
      (∀ y ∈ front ++ r :: q :: post, y + s.size y = p → y = r) ∧
      ∀ y ∈ front ++ r :: q :: post, p + s.size p = y → y = q := by
  obtain ⟨front, hfront⟩ := (lastOf_cases noSeg pre).resolve_left hne
  generalize lastOf noSeg pre = r at hfront
  subst hfront
  have hassoc : front ++ r :: q :: post = (front ++ [r]) ++ q :: post := by simp
  have hsorted := h.sorted
  rw [List.pairwise_append] at hsorted
  have hmem : ∀ y ∈ (front ++ [r]) ++ q :: post, y ∈ layout := fun y hy => h.idle_mem hy
  refine ⟨front, r, rfl, hpre r (by simp), ?_, ?_⟩
  · intro y hy hadj
    rw [hassoc] at hy
    have hlow := h.tiled.touches (hmem y hy) (hmem r (by simp)) hadj (hpre r (by simp))
    rcases List.mem_append.mp hy with hy | hy
    · rcases List.mem_append.mp hy with hy | hy
      · have := (List.pairwise_append.mp hsorted.1).2.2 y hy r (by simp)
        omega
      · exact List.mem_singleton.mp hy
    · have hyq : q ≤ y := by
        rcases List.mem_cons.mp hy with rfl | hy
        · exact Nat.le_refl y
        · exact Nat.le_of_lt ((List.pairwise_cons.mp hsorted.2.1).1 y hy)
      omega
  · intro y hy hadj
    rw [hassoc] at hy
    have hmin := h.tiled.minSize p h.mem
    unfold sizeofHashIndexSeg at hmin
    have hend := tiles_apart h.tiled.tiles h.mem (hmem q (by simp)) hq
    rcases List.mem_append.mp hy with hy | hy
    · have := hpre y hy
      omega
    · rcases List.mem_cons.mp hy with rfl | hy
      · rfl
      · have := (List.pairwise_cons.mp hsorted.2.1).1 y hy
        omega

/-- The ways through `insertIdle`, once the segment is linked. -/
theorem Loose.insertIdle_eq {r : Nat} (h : Loose sp s layout used (pre ++ r :: q :: post) p) :
    insertIdle s p q =
      let s' := linkIdle s r p q
      let x := if adjacent s' r p then (merge s' r p, r) else (s', p)
      if adjacent x.1 x.2 q then
        let s'' := merge x.1 x.2 q
        .ok (if s''.next x.2 = noSeg then { s'' with m_lIdleSeg := s''.offSet x.2 } else s'')
      else .ok x.1 := by
  have hr : r ∈ pre ++ r :: q :: post := by simp
  have hq : q ∈ pre ++ r :: q :: post := by simp
  have hlist := h.lists.idleList
  have hassoc : pre ++ r :: q :: post = (pre ++ [r]) ++ q :: post := by simp
  rw [hassoc] at hlist
  have hprev : s.prev q = r := hlist.links.2.trans lastOf_concat
  have hlink : linkIdle s r p q = (((s.setNext r (s.offSet p)).setPrev p (s.offSet r)).setNext p
      (s.offSet q)).setPrev q (s.offSet p) := by
    rw [h.tiled.offSet p h.mem, h.tiled.offSet q (h.idle_mem hq), h.tiled.offSet r (h.idle_mem hr)]
    rfl
  unfold insertIdle
  simp only [hprev, h.tiled.getSeg (h.idle_mem hr), ok_bind, State.setNext_offSet,
    State.setPrev_offSet, pure_eq_ok, hlink]

/-- The links after the last idle segment was joined with the one before it. -/
theorem Lists.dropLast {r : Nat} (h : Lists s used (pre ++ [r, q])) (hend : t.m_lIdleSeg = r)
    (hfirst : t.m_fIdleSeg = s.m_fIdleSeg)
    (hused : t.m_fUsedSeg = s.m_fUsedSeg ∧ t.m_lUsedSeg = s.m_lUsedSeg)
    (hnext : ∀ y ∈ used ++ (pre ++ [r]), t.next y = Function.update s.next r noSeg y)
    (hprev : ∀ y ∈ used ++ (pre ++ [r]), t.prev y = s.prev y) :
    Lists t used (pre ++ [r]) := by
  refine ⟨?_, ?_, ?_⟩
  · rw [hused.1, hused.2]
    refine h.usedList.congr (fun y hy => ?_) (fun y hy => hprev y (List.mem_append_left _ hy))
    rw [hnext y (List.mem_append_left _ hy), Function.update_of_ne]
    rintro rfl
    exact h.disjoint y hy (by simp)
  · rw [hend, hfirst]
    exact h.idleList.pop_last.congr (fun y hy => hnext y (List.mem_append_right _ hy))
      (fun y hy => hprev y (List.mem_append_right _ hy))
  · intro y hy hmem
    apply h.disjoint y hy
    simp only [List.mem_append, List.mem_cons] at hmem ⊢
    tauto

/-- What two joins of one segment leave as it was. -/
theorem merge_twice (s : State) (r p q : Nat) :
    (∀ y, y ≠ r → (merge (merge s r p) r q).next y = s.next y) ∧
      (∀ y, (merge (merge s r p) r q).prev y = s.prev y) ∧
      (∀ y, y ≠ r → (merge (merge s r p) r q).size y = s.size y) ∧
      (merge (merge s r p) r q).m_fIdleSeg = s.m_fIdleSeg ∧
      (merge (merge s r p) r q).m_fUsedSeg = s.m_fUsedSeg ∧
      (merge (merge s r p) r q).m_lUsedSeg = s.m_lUsedSeg := by
  obtain ⟨hfIdle₁, hfUsed₁, hlUsed₁⟩ := merge_ends s r p
  obtain ⟨hfIdle₂, hfUsed₂, hlUsed₂⟩ := merge_ends (merge s r p) r q
  refine ⟨?_, ?_, ?_, hfIdle₂.trans hfIdle₁, hfUsed₂.trans hfUsed₁, hlUsed₂.trans hlUsed₁⟩
  · intro y hy
    rw [merge_next, Function.update_of_ne hy, merge_next, Function.update_of_ne hy]
  · intro y
    rw [merge_prev, merge_prev]
  · intro y hy
    rw [merge_size, Function.update_of_ne hy, merge_size, Function.update_of_ne hy]

/-- The segment that is freed and the last idle one are none of the others. -/
theorem Loose.ne_of_listed {r y : Nat} (h : Loose sp s layout used (pre ++ [r, q]) p)
    (hy : y ∈ used ++ (pre ++ [r])) : y ≠ p ∧ y ≠ q := by
  obtain ⟨hused, hidle⟩ := h.not_mem
  have hnodup := h.lists.idleList.nodup
  have hassoc : pre ++ [r, q] = (pre ++ [r]) ++ [q] := by simp
  rw [hassoc] at hnodup hidle
  rcases List.mem_append.mp hy with hy | hy
  · exact ⟨fun heq => hused (heq ▸ hy), fun heq => h.lists.disjoint y hy (by simp [heq])⟩
  · exact ⟨fun heq => hidle (heq ▸ List.mem_append_left _ hy),
      (List.nodup_append.mp hnodup).2.2 y hy q (by simp)⟩

/-- Joined with the idle segments on both sides, of which the upper one is the last. -/
theorem Loose.insertIdle_both {r : Nat} (h : Loose sp s layout used (pre ++ [r, q]) p)
    (hleft : r + s.size r = p) (hright : p + s.size p = q) :
    ∃ t layout', insertIdle s p q = .ok t ∧ Layout sp t layout' used (pre ++ [r]) := by
  have hrl : r ∈ layout := h.idle_mem (by simp)
  have hql : q ∈ layout := h.idle_mem (by simp)
  have hsame := linkIdle_same s r p q
  have htiled := h.tiled.of_same hsame
  have hminp := h.tiled.minSize p h.mem
  have hminr := h.tiled.minSize r hrl
  have hminq := h.tiled.minSize q hql
  unfold sizeofHashIndexSeg at hminp hminr hminq
  have hlast : s.next q = noSeg := by
    have hlist := h.lists.idleList
    have hassoc : pre ++ [r, q] = (pre ++ [r]) ++ [q] := by simp
    rw [hassoc] at hlist
    exact hlist.links.1
  have hlinkNext : ∀ y, y ≠ r → y ≠ p → (linkIdle s r p q).next y = s.next y := by
    intro y hyr hyp
    simp [linkIdle, hyr, hyp]
  have hlinkPrev : ∀ y, y ≠ q → y ≠ p → (linkIdle s r p q).prev y = s.prev y := by
    intro y hyq hyp
    simp [linkIdle, hyq, hyp]
  have hends : (linkIdle s r p q).m_fIdleSeg = s.m_fIdleSeg ∧
      (linkIdle s r p q).m_fUsedSeg = s.m_fUsedSeg ∧
      (linkIdle s r p q).m_lUsedSeg = s.m_lUsedSeg := ⟨rfl, rfl, rfl⟩
  rw [h.insertIdle_eq]
  generalize linkIdle s r p q = s₁ at *
  -- first with the segment below, then with the one above
  have hadj₁ : adjacent s₁ r p = true :=
    (htiled.adjacent_iff hrl h.mem).mpr (by rw [hsame.size]; exact hleft)
  obtain ⟨layout₁, htiled₁, hperm₁, hsize₁⟩ :=
    htiled.merge hrl h.mem (by rw [hsame.size]; exact hleft)
  rw [hsame.size] at hsize₁
  have hr₁ : r ∈ layout₁ := (List.mem_cons.mp (hperm₁.mem_iff.mp hrl)).resolve_left (by omega)
  have hq₁ : q ∈ layout₁ := (List.mem_cons.mp (hperm₁.mem_iff.mp hql)).resolve_left (by omega)
  have htouch₁ : r + (merge s₁ r p).size r = q := by omega
  have hadj₂ : adjacent (merge s₁ r p) r q = true := (htiled₁.adjacent_iff hr₁ hq₁).mpr htouch₁
  obtain ⟨layout₂, htiled₂, hperm₂, hsize₂⟩ := htiled₁.merge hr₁ hq₁ htouch₁
  have hend : (merge (merge s₁ r p) r q).next r = noSeg := by
    rw [merge_next, Function.update_self, merge_next, Function.update_of_ne (by omega),
      hlinkNext q (by omega) (by omega), hlast]
  have hoff : (merge (merge s₁ r p) r q).offSet r = r := by
    rw [merge_offSet, merge_offSet, hsame.offSet, h.tiled.offSet r hrl]
  obtain ⟨hnext, hprev, hsize, hfIdle, hfUsed, hlUsed⟩ := merge_twice s₁ r p q
  simp only [hadj₁, if_true, hadj₂, hend, hoff]
  generalize merge (merge s₁ r p) r q = s₂ at *
  have hlists : Lists { s₂ with m_lIdleSeg := r } used (pre ++ [r]) := by
    apply h.lists.dropLast
    · rfl
    · exact hfIdle.trans hends.1
    · exact ⟨hfUsed.trans hends.2.1, hlUsed.trans hends.2.2⟩
    · intro y hy
      by_cases hyr : y = r
      · subst hyr
        rw [Function.update_self]
        exact hend
      · rw [Function.update_of_ne hyr, ← hlinkNext y hyr (h.ne_of_listed hy).1]
        exact hnext y hyr
    · intro y hy
      obtain ⟨hyp, hyq⟩ := h.ne_of_listed hy
      exact (hprev y).trans (hlinkPrev y hyq hyp)
  refine ⟨{ s₂ with m_lIdleSeg := r }, layout₂, rfl,
    ⟨htiled₂.tiles, htiled₂.header, htiled₂.offSet, htiled₂.minSize⟩, hlists, ?_, ?_, ?_⟩
  · have hparts : layout₁.Perm (used ++ (pre ++ [r, q])) :=
      (List.perm_cons p).mp (hperm₁.symm.trans h.parts)
    refine (List.perm_cons q).mp (hperm₂.symm.trans (hparts.trans ?_))
    have hassoc : used ++ (pre ++ [r, q]) = (used ++ (pre ++ [r])) ++ [q] := by simp
    rw [hassoc]
    exact List.perm_append_singleton q _
  · exact h.sorted.sublist (by simp)
  · intro a ha b hb
    have hsorted := h.sorted
    have hassoc : pre ++ [r, q] = (pre ++ [r]) ++ [q] := by simp
    rw [hassoc] at hsorted
    have hbq := (List.pairwise_append.mp hsorted).2.2 b hb q (by simp)
    have happly : a + s₂.size a ≠ b := by
      by_cases har : a = r
      · subst har
        rw [hsize₂]
        omega
      · rw [hsize a har, hsame.size]
        exact h.apart a (hassoc ▸ List.mem_append_left _ ha) b
          (hassoc ▸ List.mem_append_left _ hb)
    exact happly

/-- The idle list with the linked segment ascends. -/
theorem Loose.sorted_link {r : Nat} (h : Loose sp s layout used (pre ++ r :: q :: post) p)
    (hr : r < p) (hpq : p < q) : (pre ++ r :: p :: q :: post).Pairwise (· < ·) := by
  have hsorted := h.sorted
  simp only [List.pairwise_append, List.pairwise_cons, List.mem_cons] at hsorted ⊢
  obtain ⟨hpre, ⟨hrest, hq, hpost⟩, hcross⟩ := hsorted
  refine ⟨hpre, ⟨?_, ?_, hq, hpost⟩, ?_⟩
  · grind
  · grind
  · intro a ha b hb
    have har := hcross a ha r (.inl rfl)
    rcases hb with rfl | rfl | hb
    · exact har
    · omega
    · exact hcross a ha b (.inr hb)

/-- Joined with the idle segment above, which is the last. -/
theorem Loose.insertIdle_above {r : Nat} (h : Loose sp s layout used (pre ++ [r, q]) p)
    (hr : r < p) (hpq : p < q) (hleft : r + s.size r ≠ p) (hright : p + s.size p = q)
    (honly : ∀ y ∈ pre ++ [r, q], y + s.size y = p → y = r) :
    ∃ t layout', insertIdle s p q = .ok t ∧ Layout sp t layout' used (pre ++ [r, p]) := by
  have hrl : r ∈ layout := h.idle_mem (by simp)
  have hql : q ∈ layout := h.idle_mem (by simp)
  obtain ⟨hused, hidle⟩ := h.not_mem
  have hsame := linkIdle_same s r p q
  have htiled := h.tiled.of_same hsame
  have hlists := h.link
  have hsorted := h.sorted_link hr hpq
  have hminq := h.tiled.minSize q hql
  unfold sizeofHashIndexSeg at hminq
  rw [h.insertIdle_eq]
  generalize linkIdle s r p q = s₁ at *
  have hassoc : pre ++ [r, p, q] = (pre ++ [r]) ++ [p, q] := by simp
  have hassoc' : pre ++ [r, p] = (pre ++ [r]) ++ [p] := by simp
  rw [hassoc] at hlists
  have hadj₁ : adjacent s₁ r p ≠ true := fun hadj =>
    hleft (by simpa [hsame.size] using (htiled.adjacent_iff hrl h.mem).mp hadj)
  have htouch : p + s₁.size p = q := by rw [hsame.size]; exact hright
  have hadj₂ : adjacent s₁ p q = true := (htiled.adjacent_iff h.mem hql).mpr htouch
  obtain ⟨layout', htiled', hperm, hsize⟩ := htiled.merge h.mem hql htouch
  have hend : (merge s₁ p q).next p = noSeg := by
    have hlist := hlists.idleList
    have hfront : (pre ++ [r]) ++ [p, q] = (pre ++ [r, p]) ++ [q] := by simp
    rw [hfront] at hlist
    rw [merge_next, Function.update_self]
    exact hlist.links.1
  have hoff : (merge s₁ p q).offSet p = p := by
    rw [merge_offSet, hsame.offSet, h.tiled.offSet p h.mem]
  have hnext : ∀ y, (merge s₁ p q).next y = Function.update s₁.next p noSeg y := by
    intro y
    rw [← hend, merge_next, Function.update_self]
  have hkeep : ∀ y, y ≠ p → (merge s₁ p q).size y = s.size y := by
    intro y hy
    rw [merge_size, Function.update_of_ne hy, hsame.size]
  have hprev := merge_prev s₁ p q
  have hends := merge_ends s₁ p q
  simp only [hadj₁, if_false, Bool.false_eq_true, hadj₂, if_true, hend, hoff]
  generalize merge s₁ p q = s₂ at *
  rw [hassoc']
  have hlists' : Lists { s₂ with m_lIdleSeg := p } used ((pre ++ [r]) ++ [p]) := by
    apply hlists.dropLast
    · rfl
    · exact hends.1
    · exact hends.2
    · exact fun y _ => hnext y
    · exact fun y _ => congrFun hprev y
  refine ⟨{ s₂ with m_lIdleSeg := p }, layout', rfl,
    ⟨htiled'.tiles, htiled'.header, htiled'.offSet, htiled'.minSize⟩, hlists', ?_, ?_, ?_⟩
  · refine (List.perm_cons q).mp (hperm.symm.trans (h.parts.trans ?_))
    rw [List.perm_iff_count]
    intro y
    simp only [List.count_append, List.count_cons, List.count_nil]
    omega
  · refine hsorted.sublist ?_
    rw [hassoc]
    simp
  · intro a ha b hb
    have hble : b ≤ p := by
      rcases List.mem_append.mp hb with hb | hb
      · rw [hassoc] at hsorted
        exact Nat.le_of_lt ((List.pairwise_append.mp hsorted).2.2 b hb p (by simp))
      · exact Nat.le_of_eq (List.mem_singleton.mp hb)
    have happly : a + s₂.size a ≠ b := by
      by_cases hap : a = p
      · subst hap
        rw [hsize, hsame.size]
        omega
      · have ha' : a ∈ pre ++ [r, q] := by
          simp only [List.mem_append, List.mem_cons] at ha ⊢
          tauto
        rw [hkeep a hap]
        by_cases hbp : b = p
        · subst hbp
          intro heq
          exact hleft (honly a ha' heq ▸ heq)
        · refine h.apart a ha' b ?_
          simp only [List.mem_append, List.mem_cons] at hb ⊢
          tauto
    exact happly

/-- Between two idle segments that it does not touch. -/
theorem Loose.insertIdle_none {r : Nat} (h : Loose sp s layout used (pre ++ r :: q :: post) p)
    (hr : r < p) (hpq : p < q) (hleft : ∀ y ∈ pre ++ r :: q :: post, y + s.size y ≠ p)
    (hright : ∀ y ∈ pre ++ r :: q :: post, p + s.size p ≠ y) :
    ∃ t, insertIdle s p q = .ok t ∧ Layout sp t layout used (pre ++ r :: p :: q :: post) := by
  have hrl : r ∈ layout := h.idle_mem (by simp)
  have hql : q ∈ layout := h.idle_mem (by simp)
  have hsame := linkIdle_same s r p q
  have htiled := h.tiled.of_same hsame
  have hlists := h.link
  have hmin := h.tiled.minSize p h.mem
  unfold sizeofHashIndexSeg at hmin
  rw [h.insertIdle_eq]
  generalize linkIdle s r p q = s₁ at *
  have hadj₁ : adjacent s₁ r p ≠ true := fun hadj =>
    hleft r (by simp) (by simpa [hsame.size] using (htiled.adjacent_iff hrl h.mem).mp hadj)
  have hadj₂ : adjacent s₁ p q ≠ true := fun hadj =>
    hright q (by simp) (by simpa [hsame.size] using (htiled.adjacent_iff h.mem hql).mp hadj)
  simp only [hadj₁, hadj₂, if_false, Bool.false_eq_true]
  refine ⟨s₁, rfl, htiled, hlists, ?_, h.sorted_link hr hpq, ?_⟩
  · refine h.parts.trans ?_
    rw [List.perm_iff_count]
    intro y
    simp only [List.count_append, List.count_cons]
    omega
  · rw [hsame.size]
    have hmem : ∀ y ∈ pre ++ r :: p :: q :: post, y = p ∨ y ∈ pre ++ r :: q :: post := by
      intro y hy
      simp only [List.mem_append, List.mem_cons] at hy ⊢
      tauto
    intro a ha b hb
    rcases hmem a ha with rfl | ha'
    · rcases hmem b hb with rfl | hb'
      · omega
      · exact hright b hb'
    · rcases hmem b hb with rfl | hb'
      · exact hleft a ha'
      · exact h.apart a ha' b hb'

/-- **No way through `dropHashIdex` that breaks the lists is taken.**  If an idle segment
lies above the dropped one, one lies below as well.  A join with the segment below takes
over a link: either it is the last idle segment and the dropped one is the last used one,
or the segment above is joined, too.  A segment above that is joined is the last idle
one. -/
structure DropSafe (s : State) (idle : List Nat) (p : Nat) : Prop where
  below : (∃ q ∈ idle, p < q) → ∃ r ∈ idle, r < p
  last : (∀ q ∈ idle, q < p) → (∃ r ∈ idle, adjacent s r p = true) → s.next p = noSeg
  left : (∃ q ∈ idle, p < q) → (∃ r ∈ idle, adjacent s r p = true) →
    ∃ q ∈ idle, adjacent s p q = true
  right : ∀ q ∈ idle, adjacent s p q = true → ∀ q' ∈ idle, q' ≤ q

instance (s : State) (idle : List Nat) (p : Nat) : Decidable (DropSafe s idle p) :=
  decidable_of_iff
    (((∃ q ∈ idle, p < q) → ∃ r ∈ idle, r < p) ∧
      ((∀ q ∈ idle, q < p) → (∃ r ∈ idle, adjacent s r p = true) → s.next p = noSeg) ∧
      ((∃ q ∈ idle, p < q) → (∃ r ∈ idle, adjacent s r p = true) →
        ∃ q ∈ idle, adjacent s p q = true) ∧
      ∀ q ∈ idle, adjacent s p q = true → ∀ q' ∈ idle, q' ≤ q)
    ⟨fun h => ⟨h.1, h.2.1, h.2.2.1, h.2.2.2⟩, fun h => ⟨h.below, h.last, h.left, h.right⟩⟩

/-- The place of a segment among the idle ones is found. -/
theorem Loose.findNext (h : Loose sp s layout used idle p) (hnone : s.m_fIdleSeg ≠ noSeg) :
    idle ≠ [] ∧ findNext sp s (s.offSet p) =
      .ok (idle.find? fun q => decide (s.offSet p < (s.seg q).m_sOffSet)) := by
  have hne : idle ≠ [] := by
    rintro rfl
    exact hnone h.lists.idleList.first_eq
  refine ⟨hne, ?_⟩
  refine findSeg_spec _ h.lists.idleList.forward hne (fun q hq => h.tiled.getSeg (h.idle_mem hq)) ?_
  have := h.tiled.length_le
  have hlength := h.parts.length_eq
  simp only [List.length_cons, List.length_append] at hlength
  omega

/-- **The dropped segment goes to the idle ones.** -/
theorem Loose.addIdle (h : Loose sp s layout used idle p) (hsafe : DropSafe s idle p) :
    ∃ t layout' idle', addIdle sp s p = .ok t ∧ Layout sp t layout' used idle' := by
  obtain ⟨hused, hidle⟩ := h.not_mem
  have hoff := h.tiled.offSet p h.mem
  unfold IndexMemMgr.addIdle
  by_cases hnone : s.m_fIdleSeg = noSeg
  · -- the first idle segment
    have hempty : idle = [] := chain_null (hnone ▸ h.lists.idleList.forward)
    subst hempty
    have hlast : s.m_lIdleSeg = noSeg := h.lists.idleList.last_eq
    refine ⟨pushIdle s p, layout, [p], ?_, h.push (by simp) (by simp)⟩
    simp [hnone, hlast, pushIdle, pushSeg, hoff]
  rw [if_neg hnone]
  obtain ⟨hne, hfind⟩ := h.findNext hnone
  have htest : ∀ q ∈ idle, (s.seg q).m_sOffSet = q := fun q hq => h.tiled.offSet q (h.idle_mem hq)
  rw [hfind, hoff]
  cases hq : idle.find? fun q => decide (p < (s.seg q).m_sOffSet) with
  | none =>
      have habove : ∀ q ∈ idle, q < p := by
        intro q hmem
        have hle := List.find?_eq_none.mp hq q hmem
        rw [htest q hmem, decide_eq_true_eq] at hle
        have hqp : q ≠ p := fun heq => hidle (heq ▸ hmem)
        omega
      obtain ⟨t, layout', idle', ht, hlayout⟩ := h.appendIdle hne habove (by
        rintro ⟨q, hmem, hadj⟩
        exact hsafe.last habove ⟨q, hmem, (h.tiled.adjacent_iff (h.idle_mem hmem) h.mem).mpr hadj⟩)
      exact ⟨t, layout', idle', ht, hlayout⟩
  | some q =>
      obtain ⟨hpq, pre, post, rfl, hpre⟩ := List.find?_eq_some_iff_append.mp hq
      rw [htest q (by simp), decide_eq_true_eq] at hpq
      have hbefore : ∀ y ∈ pre, y < p := by
        intro y hy
        have hle := hpre y hy
        rw [htest y (by simp [hy]), Bool.not_eq_true', decide_eq_false_iff_not] at hle
        have hyp : y ≠ p := fun heq => hidle (heq ▸ by simp [hy])
        omega
      have habove : ∃ q' ∈ pre ++ q :: post, p < q' := ⟨q, by simp, hpq⟩
      have hprene : pre ≠ [] := by
        rintro rfl
        obtain ⟨r, hr, hrp⟩ := hsafe.below habove
        have hsorted := h.sorted
        rcases List.mem_cons.mp hr with rfl | hr
        · omega
        · have := (List.pairwise_cons.mp hsorted).1 r hr
          omega
      obtain ⟨front, r, rfl, hr, honly, honly'⟩ := h.between hbefore hpq hprene
      have hassoc : (front ++ [r]) ++ q :: post = front ++ r :: q :: post := by simp
      rw [hassoc] at h hsafe habove
      have hadjp : ∀ y ∈ front ++ r :: q :: post, adjacent s y p = true ↔ y + s.size y = p :=
        fun y hy => h.tiled.adjacent_iff (h.idle_mem hy) h.mem
      have hadjq : ∀ y ∈ front ++ r :: q :: post, adjacent s p y = true ↔ p + s.size p = y :=
        fun y hy => h.tiled.adjacent_iff h.mem (h.idle_mem hy)
      have hr' : r ∈ front ++ r :: q :: post := by simp
      have hq' : q ∈ front ++ r :: q :: post := by simp
      by_cases hright : p + s.size p = q
      · -- the joined segment above is the last one
        have hpost : post = [] := by
          have hmax := hsafe.right q hq' ((hadjq q hq').mpr hright)
          cases post with
          | nil => rfl
          | cons y rest =>
              have hle := hmax y (by simp)
              have hsorted := h.sorted
              simp only [List.pairwise_append, List.pairwise_cons] at hsorted
              have := hsorted.2.1.2.1 y List.mem_cons_self
              omega
        subst hpost
        by_cases hleft : r + s.size r = p
        · obtain ⟨t, layout', ht, hlayout⟩ := h.insertIdle_both hleft hright
          exact ⟨t, layout', _, ht, hlayout⟩
        · obtain ⟨t, layout', ht, hlayout⟩ := h.insertIdle_above hr hpq hleft hright honly
          exact ⟨t, layout', _, ht, hlayout⟩
      · have hleft : ∀ y ∈ front ++ r :: q :: post, y + s.size y ≠ p := by
          intro y hy hadj
          obtain ⟨z, hz, hadjz⟩ := hsafe.left habove ⟨y, hy, (hadjp y hy).mpr hadj⟩
          have hzq := honly' z hz ((hadjq z hz).mp hadjz)
          exact hright (hzq ▸ (hadjq z hz).mp hadjz)
        obtain ⟨t, ht, hlayout⟩ := h.insertIdle_none hr hpq hleft
          (fun y hy hadj => hright (honly' y hy hadj ▸ hadj))
        exact ⟨t, layout, _, ht, hlayout⟩

/-- The offset of the segment that a position belongs to. -/
theorem Layout.segOffSet (h : Layout sp s layout used idle) {pos : ShmPosition} (hp : p ∈ layout)
    (hpos : pos.m_offSet = p + sizeofHashIndexSeg) :
    sizeT (pos.m_offSet + (2 ^ 64 - sizeofHashIndexSeg)) = p := by
  have hbounds := h.tiled.bounds hp
  have hmin := h.tiled.minSize p hp
  rw [hpos]
  unfold sizeT
  unfold sizeofHashIndexSeg at hmin ⊢
  omega

/-- **`dropHashIdex` finds a used segment**, takes it out of the used list and puts it into
the idle one, if its way is a safe one. -/
theorem Layout.release (h : Layout sp s layout used idle) {pos : ShmPosition} (hp : p ∈ used)
    (hpos : pos.m_offSet = p + sizeofHashIndexSeg) (hsafe : DropSafe s idle p) :
    ∃ t t' layout' used' idle', IndexMemMgr.removeUsed s p = .ok t ∧
      Loose sp t layout used' idle p ∧ IndexMemMgr.addIdle sp t p = .ok t' ∧
      IndexMemMgr.dropHashIdex sp s true pos = .ok (t', true) ∧
      Layout sp t' layout' used' idle' ∧ ∀ q, q ∈ used' ↔ q ∈ used ∧ q ≠ p := by
  have hpl := h.used_mem hp
  have hne : used ≠ [] := List.ne_nil_of_mem hp
  have hfirst : s.m_fUsedSeg ≠ noSeg := fun hnone =>
    hne (chain_null (hnone ▸ h.lists.usedList.forward))
  have hfind : findUsed sp s p =
      .ok (used.find? fun q => decide ((s.seg q).m_sOffSet = p)) := by
    refine findSeg_spec _ h.lists.usedList.forward hne (fun q hq => h.tiled.getSeg (h.used_mem hq)) ?_
    have := h.tiled.length_le
    have hlength := h.parts.length_eq
    simp only [List.length_append] at hlength
    omega
  have hfound : (used.find? fun q => decide ((s.seg q).m_sOffSet = p)) = some p := by
    cases hq : used.find? fun q => decide ((s.seg q).m_sOffSet = p) with
    | none =>
        have hnot := List.find?_eq_none.mp hq p hp
        exact absurd (decide_eq_true (h.tiled.offSet p hpl)) hnot
    | some q =>
        have htest := List.find?_some hq
        have hqp : s.offSet q = p := of_decide_eq_true htest
        rw [h.tiled.offSet q (h.used_mem (List.mem_of_find?_eq_some hq))] at hqp
        rw [hqp]
  obtain ⟨t, rest, ht, hsame, hloose, hrest, hnext⟩ := h.removeUsed hp
  have hadjacent : ∀ a b, adjacent t a b = adjacent s a b := by
    intro a b
    unfold adjacent
    rw [hsame.offSet, hsame.size]
  have hsafe' : DropSafe t idle p := by
    refine ⟨hsafe.below, ?_, ?_, ?_⟩
    · simp only [hadjacent, hnext]
      exact hsafe.last
    · simp only [hadjacent]
      exact hsafe.left
    · simp only [hadjacent]
      exact hsafe.right
  obtain ⟨t', layout', idle', ht', hlayout⟩ := hloose.addIdle hsafe'
  refine ⟨t, t', layout', rest, idle', ht, hloose, ht', ?_, hlayout, hrest⟩
  unfold IndexMemMgr.dropHashIdex
  dsimp only
  rw [h.segOffSet hpl hpos, if_neg hfirst, hfind, hfound]
  simp [ht, ht']

/-- **`dropHashIdex` of a used segment keeps the layout**, if its way is a safe one. -/
theorem Layout.dropHashIdex (h : Layout sp s layout used idle) (lock : Bool) {pos : ShmPosition}
    (hp : p ∈ used) (hpos : pos.m_offSet = p + sizeofHashIndexSeg) (hsafe : DropSafe s idle p) :
    ∃ t b layout' used' idle', dropHashIdex sp s lock pos = .ok (t, b) ∧
      Layout sp t layout' used' idle' ∧ (∀ q ∈ used, q ≠ p → q ∈ used') ∧
      (b = false → ∀ q ∈ used, q ∈ used') := by
  cases lock with
  | false =>
      exact ⟨s, false, layout, used, idle, by simp [IndexMemMgr.dropHashIdex], h,
        fun _ hq _ => hq, fun _ _ hq => hq⟩
  | true =>
      obtain ⟨-, t, layout', used', idle', -, -, -, ht, hlayout, hused⟩ := h.release hp hpos hsafe
      exact ⟨t, true, layout', used', idle', ht, hlayout,
        fun q hq hne => (hused q).mpr ⟨hq, hne⟩, by simp⟩

end IndexMemMgr
