import Boss.IndexMemMgrLayout

/-!
# `createHashIndex` keeps the layout

A created index gets a whole idle segment or the upper part of one.  Between the idle and
the used list the segment is `Loose`: it belongs to the space but to neither list.
`createHashIndex` keeps the layout whenever the size of the new segment does not wrap
around.
-/

namespace IndexMemMgr

open LinkedChain Tiling

variable {sp : SpaceInfo} {s t : State} {layout used idle pre post : List Nat} {p q : Nat}

/-- A segment on its way from one list to the other. -/
structure Loose (sp : SpaceInfo) (s : State) (layout used idle : List Nat) (p : Nat) : Prop where
  tiled : Tiled sp s layout
  lists : Lists s used idle
  parts : layout.Perm (p :: (used ++ idle))
  sorted : idle.Pairwise (· < ·)
  apart : ∀ a ∈ idle, ∀ b ∈ idle, a + s.size a ≠ b

theorem Loose.mem (h : Loose sp s layout used idle p) : p ∈ layout :=
  h.parts.mem_iff.mpr List.mem_cons_self

theorem Loose.not_mem (h : Loose sp s layout used idle p) : p ∉ used ∧ p ∉ idle := by
  have hnodup := h.parts.nodup_iff.mp (tiles_nodup h.tiled.tiles)
  have hp := (List.nodup_cons.mp hnodup).1
  rw [List.mem_append, not_or] at hp
  exact hp

theorem Loose.used_mem (h : Loose sp s layout used idle p) (hq : q ∈ used) : q ∈ layout :=
  h.parts.mem_iff.mpr (List.mem_cons_of_mem p (List.mem_append_left idle hq))

theorem Loose.idle_mem (h : Loose sp s layout used idle p) (hq : q ∈ idle) : q ∈ layout :=
  h.parts.mem_iff.mpr (List.mem_cons_of_mem p (List.mem_append_right used hq))

/-- An idle segment leaves its list. -/
theorem Layout.removeIdle (h : Layout sp s layout used idle) (hp : p ∈ idle) :
    ∃ t rest, removeIdle s p = .ok t ∧ SameSegs s t ∧ Loose sp t layout used rest p := by
  obtain ⟨pre, post, rfl⟩ := List.append_of_mem hp
  obtain ⟨t, ht, hsame, hlists⟩ := h.lists.removeIdle fun q hq =>
    (h.tiled.header q).mpr (h.idle_mem hq)
  have hsub : ∀ {q}, q ∈ pre ++ post → q ∈ pre ++ p :: post := by
    intro q hq
    simp only [List.mem_append, List.mem_cons] at hq ⊢
    tauto
  refine ⟨t, pre ++ post, ht, hsame, h.tiled.of_same hsame, hlists, ?_, ?_, ?_⟩
  · refine h.parts.trans ?_
    rw [← List.append_assoc, ← List.append_assoc]
    exact List.perm_middle
  · exact h.sorted.sublist
      (List.Sublist.append (List.Sublist.refl pre) (List.sublist_cons_self p post))
  · intro a ha b hb
    rw [hsame.size]
    exact h.apart a (hsub ha) b (hsub hb)

section Split

variable (s : State) (p n : Nat)

theorem splitSeg_size : (splitSeg s p n).1.size =
    Function.update (Function.update s.size p (s.size p - n)) (p + (s.size p - n)) n := by
  refine (State.field_update _ HashIndexSeg.m_segSize _ _).trans ?_
  exact congrArg (fun f => Function.update f _ n) (State.setSize_size s p (s.size p - n))

theorem splitSeg_offSet : (splitSeg s p n).1.offSet =
    Function.update s.offSet (p + (s.size p - n)) (sizeT (s.offSet p + (s.size p - n))) := by
  refine (State.field_update _ HashIndexSeg.m_sOffSet _ _).trans ?_
  have hold := State.setSize_offSet s p (s.size p - n)
  have hsize := State.setSize_size s p (s.size p - n)
  simp only [hold, hsize, Function.update_self]
  exact congrArg (fun f => Function.update f _ _) hold

theorem splitSeg_next : (splitSeg s p n).1.next = s.next :=
  (State.field_update _ HashIndexSeg.m_next _ _).trans
    ((Function.update_eq_self _ _).trans (State.setSize_next s p _))

theorem splitSeg_prev : (splitSeg s p n).1.prev = s.prev :=
  (State.field_update _ HashIndexSeg.m_prev _ _).trans
    ((Function.update_eq_self _ _).trans (State.setSize_prev s p _))

end Split

/-- An idle segment is divided; its upper part is in no list. -/
theorem Layout.split {n : Nat} (h : Layout sp s layout used idle) (hp : p ∈ idle)
    (hn : sizeofHashIndexSeg ≤ n) (hfit : n + 2 * sizeofHashIndexSeg ≤ s.size p) :
    ∃ layout', Loose sp (splitSeg s p n).1 layout' used idle (splitSeg s p n).2 ∧
      (splitSeg s p n).1.size (splitSeg s p n).2 = n := by
  have hpl := h.idle_mem hp
  obtain ⟨lpre, lpost, rfl⟩ := List.append_of_mem hpl
  obtain ⟨hlow, hhigh, hlt⟩ := h.tiled.bounds hpl
  unfold sizeofHashIndexSeg at hn hfit
  -- the new offset lies inside of the divided segment
  have hnew : p + (s.size p - n) ∉ lpre ++ p :: lpost := by
    intro hmem
    have := tiles_apart h.tiled.tiles hpl hmem (by omega)
    omega
  have hpq : p ≠ p + (s.size p - n) := by omega
  have hsize := splitSeg_size s p n
  have hoffSet := splitSeg_offSet s p n
  rw [h.tiled.offSet p hpl, sizeT_of_lt (by omega)] at hoffSet
  have hend : (splitSeg s p n).2 = p + (s.size p - n) := rfl
  have hheader : (splitSeg s p n).1.m_header =
    Function.update s.m_header (p + (s.size p - n)) true := rfl
  have htiles : Tiles (splitSeg s p n).1.size firstSeg
      (lpre ++ p :: (p + (s.size p - n)) :: lpost) sp.m_size := by
    refine tiles_split h.tiled.tiles (by omega) (by omega) ?_ ?_ ?_
    · rw [hsize, Function.update_of_ne hpq, Function.update_self]
    · rw [hsize, Function.update_self]
    · intro y hy
      have hnodup := tiles_nodup h.tiled.tiles
      have hyp : y ≠ p := by
        rintro rfl
        exact (List.nodup_middle.mp hnodup |> List.nodup_cons.mp).1 hy
      have hyq : y ≠ p + (s.size p - n) := by
        rintro rfl
        apply hnew
        simp only [List.mem_append, List.mem_cons] at hy ⊢
        tauto
      rw [hsize, Function.update_of_ne hyq, Function.update_of_ne hyp]
  generalize hq : p + (s.size p - n) = q at *
  have hmem : ∀ y, y ∈ lpre ++ p :: q :: lpost ↔ y ∈ lpre ++ p :: lpost ∨ y = q := by
    intro y
    simp only [List.mem_append, List.mem_cons]
    tauto
  refine ⟨_, ⟨⟨htiles, ?_, ?_, ?_⟩, ⟨?_, ?_, h.lists.disjoint⟩, ?_, h.sorted, ?_⟩, ?_⟩
  · intro y
    rw [hmem, hheader]
    by_cases hy : y = q
    · simp [hy]
    · simp [hy, h.tiled.header y]
  · intro y hy
    rw [hoffSet]
    by_cases hyq : y = q
    · simp [hyq]
    · rw [Function.update_of_ne hyq]
      exact h.tiled.offSet y (((hmem y).mp hy).resolve_right hyq)
  · intro y hy
    rw [hsize]
    unfold sizeofHashIndexSeg
    by_cases hyq : y = q
    · simpa [hyq] using hn
    · by_cases hyp : y = p
      · rw [hyp, Function.update_of_ne hpq, Function.update_self]
        omega
      · rw [Function.update_of_ne hyq, Function.update_of_ne hyp]
        exact h.tiled.minSize y (((hmem y).mp hy).resolve_right hyq)
  · rw [splitSeg_next, splitSeg_prev]
    exact h.lists.usedList
  · rw [splitSeg_next, splitSeg_prev]
    exact h.lists.idleList
  · rw [hend]
    have hcons : lpre ++ p :: q :: lpost = (lpre ++ [p]) ++ q :: lpost := by simp
    rw [hcons]
    refine List.perm_middle.trans (List.Perm.cons q ?_)
    simpa using h.parts
  · intro a ha b hb
    have haq : a ≠ q := fun heq => hnew (heq ▸ h.idle_mem ha)
    rw [hsize, Function.update_of_ne haq]
    by_cases hap : a = p
    · rw [hap, Function.update_self, hq]
      exact fun heq => hnew (heq ▸ h.idle_mem hb)
    · rw [Function.update_of_ne hap]
      exact h.apart a ha b hb
  · rw [hend, hsize, Function.update_self]

/-- **A segment of the asked size is taken out of the idle ones.** -/
theorem Layout.take {n : Nat} (h : Layout sp s layout used idle) (hp : p ∈ idle)
    (hn : sizeofHashIndexSeg ≤ n) (hfit : n ≤ s.size p) :
    ∃ t q layout' idle', takeSeg s p n = .ok (t, q) ∧ Loose sp t layout' used idle' q ∧
      n ≤ t.size q := by
  obtain ⟨hlow, -, hlt⟩ := h.tiled.bounds (h.idle_mem hp)
  have hwrap : sizeT (n + 2 * sizeofHashIndexSeg) = n + 2 * sizeofHashIndexSeg := by
    apply sizeT_of_lt
    unfold firstSeg sizeofSpaceInfo sizeofIndexSegInfo at hlow
    unfold sizeofHashIndexSeg
    omega
  unfold takeSeg
  rw [hwrap]
  by_cases hsmall : s.size p < n + 2 * sizeofHashIndexSeg
  · obtain ⟨t, rest, ht, hsame, hloose⟩ := h.removeIdle hp
    refine ⟨t, p, layout, rest, ?_, hloose, ?_⟩
    · simp [hsmall, ht]
    · rw [hsame.size]
      exact hfit
  · obtain ⟨layout', hloose, hsize⟩ := h.split hp hn (by omega)
    refine ⟨_, _, layout', idle, ?_, hloose, Nat.le_of_eq hsize.symm⟩
    simp [hsmall]

/-- The loose segment becomes a used one. -/
theorem Loose.addUsed (h : Loose sp s layout used idle p) (idx : IndexDef) :
    ∃ t, addUsed s p idx = .ok t ∧ SameSegs s t ∧ Layout sp t layout (used ++ [p]) idle ∧
      (t.seg p).m_hashSize = idx.m_hashSize := by
  obtain ⟨hused, hidle⟩ := h.not_mem
  obtain ⟨t, ht, hsame, hlists, hhash⟩ := h.lists.addUsed hused hidle (h.tiled.ne_noSeg h.mem)
    (h.tiled.offSet p h.mem) (fun q hq => (h.tiled.header q).mpr (h.used_mem hq)) idx
  refine ⟨t, ht, hsame, ⟨h.tiled.of_same hsame, hlists, ?_, h.sorted, ?_⟩, hhash⟩
  · refine h.parts.trans ?_
    rw [List.append_assoc]
    exact List.perm_middle.symm
  · rw [hsame.size]
    exact h.apart

/-- The `memset` stays inside of its segment. -/
theorem Layout.initHash (h : Layout sp s layout used idle) (hp : p ∈ layout)
    (hfit : sizeofHashIndexSeg + sizeT ((s.seg p).m_hashSize * sizeofShmPosition) ≤ s.size p) :
    Layout sp (initHash s p) layout used idle := by
  have hheader : ∀ q, (IndexMemMgr.initHash s p).m_header q = true ↔ q ∈ layout := by
    intro q
    rw [← h.tiled.header q]
    unfold IndexMemMgr.initHash
    dsimp only
    rw [Bool.and_eq_true, Bool.not_eq_true', decide_eq_false_iff_not]
    refine ⟨fun hq => hq.1, fun hq => ⟨hq, ?_⟩⟩
    rintro ⟨-, hlt, hover⟩
    have := tiles_apart h.tiled.tiles hp ((h.tiled.header q).mp hq) hlt
    omega
  exact ⟨⟨h.tiled.tiles, hheader, h.tiled.offSet, h.tiled.minSize⟩,
    ⟨h.lists.usedList, h.lists.idleList, h.lists.disjoint⟩, h.parts, h.sorted, h.apart⟩

/-- **`createHashIndex` keeps the layout.**  A new position belongs to a new used
segment. -/
theorem Layout.createHashIndex (h : Layout sp s layout used idle) (lock : Bool) {idx : IndexDef}
    (hneed : sizeofHashIndexSeg ≤ needSize idx) :
    ∃ t r layout' used' idle', createHashIndex sp s lock idx = .ok (t, r) ∧
      Layout sp t layout' used' idle' ∧ (∀ p ∈ used, p ∈ used') ∧
      ∀ pos, r = some pos →
        ∃ p ∈ used', p ∉ used ∧ pos = ⟨sp.m_spaceCode, p + sizeofHashIndexSeg⟩ := by
  unfold IndexMemMgr.createHashIndex
  by_cases hlock : lock = false
  · exact ⟨s, none, layout, used, idle, by simp [hlock], h, fun _ hp => hp, by simp⟩
  rw [if_neg hlock]
  by_cases hidle : s.m_fIdleSeg = noSeg
  · exact ⟨s, none, layout, used, idle, by simp [hidle], h, fun _ hp => hp, by simp⟩
  rw [if_neg hidle]
  have hne : idle ≠ [] := by
    rintro rfl
    exact hidle h.lists.idleList.first_eq
  have hfind : findIdle sp s (needSize idx) =
      .ok (idle.find? fun q => decide (needSize idx ≤ (s.seg q).m_segSize)) := by
    refine findSeg_spec _ h.lists.idleList.forward hne (fun q hq => h.tiled.getSeg (h.idle_mem hq)) ?_
    have := h.tiled.length_le
    have hlength := h.parts.length_eq
    simp only [List.length_append] at hlength
    omega
  rw [hfind]
  cases hp : idle.find? fun q => decide (needSize idx ≤ (s.seg q).m_segSize) with
  | none => exact ⟨s, none, layout, used, idle, by simp, h, fun _ hp => hp, by simp⟩
  | some p =>
      have htest := List.find?_some hp
      have hfit : needSize idx ≤ s.size p := of_decide_eq_true htest
      obtain ⟨t, q, layout', idle', htake, hloose, hsize⟩ :=
        h.take (List.mem_of_find?_eq_some hp) hneed hfit
      obtain ⟨t', ht', hsame, hlayout, hhash⟩ := hloose.addUsed idx
      have hoff : t'.offSet q = q := hlayout.tiled.offSet q hloose.mem
      simp only [ok_bind, htake, ht', hoff, pure_eq_ok]
      by_cases hpos : sp.m_spaceCode > 256 ∨ 256 ^ 5 ≤ q + sizeofHashIndexSeg
      · rw [if_pos hpos]
        exact ⟨t', none, layout', used ++ [q], idle', rfl, hlayout,
          fun _ hp => List.mem_append_left _ hp, by simp⟩
      · rw [if_neg hpos]
        refine ⟨_, _, layout', used ++ [q], idle', rfl, hlayout.initHash hloose.mem ?_,
          fun _ hp => List.mem_append_left _ hp, ?_⟩
        · -- the size did not wrap around, so it is the header and the hash table
          rw [hhash, hsame.size]
          unfold needSize sizeT at hneed hsize
          unfold sizeT
          unfold sizeofHashIndexSeg at hneed hsize ⊢
          omega
        · intro pos hsome
          exact ⟨q, by simp, hloose.not_mem.1, (Option.some.inj hsome).symm⟩

end IndexMemMgr
