import Boss.IndexMemMgrRuns

/-!
# Giving segments back

A table that is dropped gives the segments of its hash indexes back one after the other.
The sizes of the other used segments do not change on the way, so the `memset` of a hash
table stays inside of its segment, and in the end the place of every segment that is not
used any more lies in one idle segment.

Main results: `Layout.release_sizes` and `Layout.initHashSeg`.
-/

namespace IndexMemMgr

open LinkedChain Tiling Runs

variable {sp : SpaceInfo} {s t : State} {layout used idle layout' used' idle' : List Nat}
  {p q x v : Nat}

/-! ## What a drop leaves alone -/

/-- The sizes in a header: of the segment and of its hash table. -/
def sizes (s : State) (x : Nat) : Nat × Nat := ((s.seg x).m_segSize, (s.seg x).m_hashSize)

theorem setNext_sizes (s : State) (p v x : Nat) : sizes (s.setNext p v) x = sizes s x := by
  unfold sizes State.setNext
  by_cases hx : x = p
  · subst hx
    simp
  · simp [hx]

theorem setPrev_sizes (s : State) (p v x : Nat) : sizes (s.setPrev p v) x = sizes s x := by
  unfold sizes State.setPrev
  by_cases hx : x = p
  · subst hx
    simp
  · simp [hx]

/-- Joining two segments writes the size of the lower one. -/
theorem merge_sizes (s : State) (p q : Nat) (hx : x ≠ p) : sizes (merge s p q) x = sizes s x := by
  have hnext := setNext_sizes (s.setSize p (sizeT (s.size p + s.size q))) p (s.next q) x
  refine hnext.trans ?_
  simp [sizes, State.setSize, hx]

/-- What a sequence of two accesses ended with. -/
theorem bind_eq_ok {α β : Type} {r : Except Fault α} {f : α → Except Fault β} {b : β} :
    (r >>= f) = .ok b ↔ ∃ a, r = .ok a ∧ f a = .ok b := by
  cases r with
  | error e => exact iff_of_false (fun h => by cases h) (fun ⟨_, h, _⟩ => by cases h)
  | ok a => simp

theorem removeUsed_sizes (h : removeUsed s p = .ok t) (x : Nat) : sizes t x = sizes s x := by
  unfold removeUsed at h
  simp only [bind_eq_ok, pure_eq_ok] at h
  obtain ⟨g, -, h⟩ := h
  split at h
  · rw [ok_bind] at h
    split at h
    · cases h
      rfl
    · obtain ⟨-, -, h⟩ := bind_eq_ok.mp h
      cases h
      exact setPrev_sizes _ _ _ x
  · obtain ⟨-, -, h⟩ := bind_eq_ok.mp h
    rw [ok_bind] at h
    split at h
    · cases h
      exact setNext_sizes _ _ _ x
    · obtain ⟨-, -, h⟩ := bind_eq_ok.mp h
      cases h
      exact (setPrev_sizes _ _ _ x).trans (setNext_sizes _ _ _ x)

/-- A segment that goes to the idle ones is only joined with idle ones. -/
theorem Loose.addIdle_sizes (h : Loose sp s layout used idle p)
    (hadd : IndexMemMgr.addIdle sp s p = .ok t) (hx : x ∈ used) : sizes t x = sizes s x := by
  have hnot : ∀ y ∈ idle, x ≠ y := fun y hy heq => h.lists.disjoint x hx (heq ▸ hy)
  have hxp : x ≠ p := fun heq => h.not_mem.1 (heq ▸ hx)
  unfold IndexMemMgr.addIdle at hadd
  split at hadd
  · cases hadd
    exact (setNext_sizes _ _ _ x).trans (setPrev_sizes _ _ _ x)
  · rename_i hsome
    obtain ⟨hne, hfind⟩ := h.findNext hsome
    rw [hfind, ok_bind] at hadd
    cases hq : idle.find? fun q => decide (s.offSet p < (s.seg q).m_sOffSet) with
    | none =>
        have hlast : x ≠ s.m_lIdleSeg := by
          rw [h.lists.idleList.last_eq]
          obtain ⟨front, hfront⟩ := (lastOf_cases noSeg idle).resolve_left hne
          exact hnot _ (by rw [hfront]; simp)
        simp only [hq, IndexMemMgr.appendIdle] at hadd
        obtain ⟨-, -, hadd⟩ := bind_eq_ok.mp hadd
        split at hadd
        · cases hadd
          exact merge_sizes s _ p hlast
        · cases hadd
          exact (setNext_sizes _ _ _ x).trans
            ((setNext_sizes _ _ _ x).trans (setPrev_sizes _ _ _ x))
    | some q =>
        have hmem := List.mem_of_find?_eq_some hq
        obtain ⟨pre, post, rfl⟩ := List.append_of_mem hmem
        rcases lastOf_cases noSeg pre with rfl | ⟨front, hfront⟩
        · -- before the first idle segment there is no header
          have hprev : s.prev q = noSeg := h.lists.idleList.links.2
          have hgone : s.getSeg noSeg = .error (.notSegment noSeg) := by
            unfold State.getSeg
            rw [if_neg fun hheader => h.tiled.ne_noSeg ((h.tiled.header noSeg).mp hheader) rfl]
          simp only [hq, IndexMemMgr.insertIdle, hprev, hgone] at hadd
          cases hadd
        · generalize lastOf noSeg pre = r at hfront
          subst hfront
          have hassoc : (front ++ [r]) ++ q :: post = front ++ r :: q :: post := by simp
          rw [hassoc] at h hnot
          have hr : x ≠ r := hnot r (by simp)
          have hlinked : sizes (linkIdle s r p q) x = sizes s x := by
            unfold linkIdle
            rw [setPrev_sizes, setNext_sizes, setPrev_sizes, setNext_sizes]
          simp only [hq, h.insertIdle_eq] at hadd
          have hleft : ∀ y, y = (if adjacent (linkIdle s r p q) r p = true then
              (merge (linkIdle s r p q) r p, r) else (linkIdle s r p q, p)) →
              sizes y.1 x = sizes s x ∧ x ≠ y.2 := by
            rintro y rfl
            split
            · exact ⟨(merge_sizes _ r p hr).trans hlinked, hr⟩
            · exact ⟨hlinked, hxp⟩
          generalize (if adjacent (linkIdle s r p q) r p = true then
            (merge (linkIdle s r p q) r p, r) else (linkIdle s r p q, p)) = y at hadd hleft
          obtain ⟨hy, hne⟩ := hleft y rfl
          split at hadd
          · cases hadd
            have hmerged := (merge_sizes y.1 y.2 q hne).trans hy
            split
            · exact hmerged
            · exact hmerged
          · cases hadd
            exact hy

/-- **A drop does not change the sizes of the other used segments.** -/
theorem Layout.release_sizes (h : Layout sp s layout used idle) {pos : ShmPosition} (hp : p ∈ used)
    (hpos : pos.m_offSet = p + sizeofHashIndexSeg) (hsafe : DropSafe s idle p) :
    ∃ t layout' used' idle', IndexMemMgr.dropHashIdex sp s true pos = .ok (t, true) ∧
      Layout sp t layout' used' idle' ∧ (∀ q, q ∈ used' ↔ q ∈ used ∧ q ≠ p) ∧
      ∀ q ∈ used', sizes t q = sizes s q := by
  obtain ⟨m, t, layout', used', idle', hremove, hloose, hadd, hdrop, hlayout, hused⟩ :=
    h.release hp hpos hsafe
  refine ⟨t, layout', used', idle', hdrop, hlayout, hused, fun q hq => ?_⟩
  exact (hloose.addIdle_sizes hadd hq).trans (removeUsed_sizes hremove q)

/-! ## Hash tables -/

/-- A hash table fits into its segment. -/
def HashFits (s : State) (p : Nat) : Prop :=
  sizeofHashIndexSeg + sizeT ((s.seg p).m_hashSize * sizeofShmPosition) ≤ s.size p

theorem HashFits.congr (h : HashFits s p) (hsizes : sizes t p = sizes s p) : HashFits t p := by
  obtain ⟨hsize, hhash⟩ := Prod.mk.inj hsizes
  unfold HashFits State.size at h ⊢
  rwa [hsize, hhash]

/-- **Clearing a hash table** does not touch the segments. -/
theorem Layout.initHashSeg (h : Layout sp s layout used idle) {pos : ShmPosition} (hp : p ∈ layout)
    (hpos : pos.m_offSet = p + sizeofHashIndexSeg) (hfit : HashFits s p) :
    IndexMemMgr.initHashSeg s pos = .ok s := by
  have hsame : IndexMemMgr.initHash s p = s := by
    have hheader : (IndexMemMgr.initHash s p).m_header = s.m_header := by
      funext q
      rw [Bool.eq_iff_iff, (h.initHash hp hfit).tiled.header q, h.tiled.header q]
    exact congrArg (fun header => { s with m_header := header }) hheader
  unfold IndexMemMgr.initHashSeg
  dsimp only
  rw [h.segOffSet hp hpos, h.tiled.getSeg hp, ok_bind, hsame]
  rfl

/-! ## The place of a segment that was given back -/

/-- The place from `p` on, of `n` bytes, is idle. -/
def Idle (sp : SpaceInfo) (s : State) (p n : Nat) : Prop :=
  ∃ q ∈ idleSegs s sp.m_size s.m_fIdleSeg, q ≤ p ∧ p + n ≤ q + s.size q

/-- **What is not used is idle**: when the used segments are some of those there were, with
the sizes they had, the place of another one lies in one idle segment. -/
theorem Layout.idle_of_not_used (h : Layout sp s layout used idle)
    (h' : Layout sp t layout' used' idle') (hsub : ∀ q ∈ used', q ∈ used)
    (hsizes : ∀ q ∈ used', sizes t q = sizes s q) (hp : p ∈ used) (hnot : p ∉ used') :
    Idle sp t p (s.size p) := by
  have hbounds := h.tiled.bounds (h.used_mem hp)
  have hmin := h.tiled.minSize p (h.used_mem hp)
  unfold sizeofHashIndexSeg at hmin
  -- a segment that reaches into the place is idle
  have hidle : ∀ q ∈ layout', q < p + s.size p → p < q + t.size q → q ∈ idle' := by
    intro q hq hlow hhigh
    rcases List.mem_append.mp (h'.parts.mem_iff.mp hq) with hused | hidle
    · have hsize : t.size q = s.size q := congrArg Prod.fst (hsizes q hused)
      have hqp : q ≠ p := fun heq => hnot (heq ▸ hused)
      have hqu := h.used_mem (hsub q hused)
      rcases Nat.lt_or_gt_of_ne hqp with hlt | hgt
      · have := tiles_apart h.tiled.tiles hqu (h.used_mem hp) hlt
        omega
      · have := tiles_apart h.tiled.tiles (h.used_mem hp) hqu hgt
        omega
    · exact hidle
  obtain ⟨q, hq, hqp, hpq⟩ := tiles_cover h'.tiled.tiles hbounds.1 (by omega : p < sp.m_size)
  have hqidle := hidle q hq (by omega) hpq
  rw [Idle, h'.idleSegs_eq]
  refine ⟨q, hqidle, hqp, ?_⟩
  by_contra hend
  -- the segment behind `q` would be idle, too
  obtain ⟨r, hr, hrlow, hrhigh⟩ :=
    tiles_cover h'.tiled.tiles (by omega) (by omega : q + t.size q < sp.m_size)
  have hrq : q < r := by
    by_contra hle
    rcases Nat.lt_or_eq_of_le (Nat.le_of_not_lt hle) with hlt | rfl
    · have := tiles_apart h'.tiled.tiles hr hq hlt
      omega
    · omega
  have hafter := tiles_apart h'.tiled.tiles hq hr hrq
  have hridle := hidle r hr (by omega) (by omega)
  exact h'.apart q hqidle r hridle (by omega)

end IndexMemMgr
