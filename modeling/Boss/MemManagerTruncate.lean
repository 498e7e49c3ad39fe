import Boss.MemManagerRuns

/-!
# Truncation gives the pages back

`truncateTable` and `truncateIndex` walk along the pages of a descriptor and give every
page back to its space; the link to the next page is read before the page is linked to
the free ones.  Afterwards the descriptor has no pages.

For the proof the descriptor is emptied first: its pages become a batch, and the pages of
a batch go back one by one (`Sound.freePage`).  The loop of the source does the same,
because `freePage` neither reads nor writes descriptors, and because it redirects only
the page that goes back and a page that is free already.

Main results: `Sound.truncatePages`, and `history_inv` for runs with truncations.
-/

namespace MemManager

open PageInfo LinkedChain Runs

variable {D : Type*} [DecidableEq D] {cfg : Config D} {p q x : ShmPosition} {sp : TableSpace}
  {s t : State D} {L L' : Layout D} {d : D}

/-- The exceptions of the loop that gives pages back, with their texts. -/
inductive FreeError where
  /-- 根据偏移量取物理地址失败! -/
  | badAddress
  /-- 释放PAGE失败! -/
  | notFreed
  deriving DecidableEq, Repr

/-- The answer of `TableMemMgr::freePage`. -/
def freePageAnswer (cfg : Config D) (s : State D) (r_pagePos : ShmPosition) : Bool :=
  match spaceByCode cfg r_pagePos.m_spaceCode with
  | none => false
  | some _ => decide ((s.page r_pagePos).m_pos = r_pagePos.m_offSet)

/-- The loop of `truncateTable` and of `truncateIndex` over the pages. -/
def truncateLoop (cfg : Config D) :
    Nat → State D → ShmPosition → Option (State D × Option FreeError)
  | rounds, s, t_pagePos =>
    if t_pagePos = nullShmPos then some (s, none)
    else
      match rounds with
      | 0 => none
      | rounds + 1 =>
        if attached cfg t_pagePos = false then some (s, some .badAddress)
        else
          let t_nextPagePos := (s.page t_pagePos).m_next
          if freePageAnswer cfg s t_pagePos = false then some (s, some .notFreed)
          else truncateLoop cfg rounds (freePage cfg s t_pagePos) t_nextPagePos

/-- What `truncateTable` and `truncateIndex` do with the pages of their descriptor. -/
def truncatePages (cfg : Config D) (rounds : Nat) (s : State D) (d : D) :
    Option (State D × Option FreeError) :=
  match truncateLoop cfg rounds s (s.desc d).m_firstPage with
  | none => none
  | some (s, some e) => some (s, some e)
  | some (s, none) => some (s.setDesc d initPos, none)

/-! ## Emptying the descriptor first -/

/-- The pages of `d` become a batch. -/
def Layout.detach (L : Layout D) (d : D) : Layout D :=
  { L with
    owner := fun p => if L.owner p = .desc d then .batch d else L.owner p
    lines := Function.update L.lines (.desc d) []
    notFull := Function.update L.notFull d [] }

theorem detach_owner_desc {e : D} :
    (L.detach d).owner p = .desc e ↔ L.owner p = .desc e ∧ e ≠ d := by
  unfold Layout.detach
  dsimp only
  by_cases hp : L.owner p = .desc d
  · rw [if_pos hp]
    simp only [hp, reduceCtorEq, false_iff, not_and, Owner.desc.injEq, not_not]
    exact fun heq => heq.symm
  · rw [if_neg hp]
    exact ⟨fun he => ⟨he, fun heq => hp (heq ▸ he)⟩, fun he => he.1⟩

theorem detach_owner_free : (L.detach d).owner p = .free ↔ L.owner p = .free := by
  unfold Layout.detach
  dsimp only
  by_cases hp : L.owner p = .desc d
  · simp [hp]
  · rw [if_neg hp]

theorem usedBy_detach {e : D} (h : UsedBy (L.detach d) p e) : UsedBy L p e := by
  unfold UsedBy Layout.detach at h
  dsimp only at h
  by_cases hp : L.owner p = .desc d
  · rw [if_pos hp] at h
    rcases h with h | h
    · cases h
    · cases h
      exact .inl hp
  · rwa [if_neg hp] at h

theorem Own.detach (h : Own cfg L) (d : D) : Own cfg (L.detach d) where
  isPage := by
    intro p hp
    apply h.isPage p
    intro heq
    simp [Layout.detach, heq] at hp
  desc_iff := by
    intro e p
    rw [detach_owner_desc, ← h.desc_iff e p]
    by_cases hed : e = d
    · simp [Layout.detach, hed]
    · simp [Layout.detach, hed]
  free_iff := by
    intro code p
    rw [detach_owner_free, ← h.free_iff code p]
    simp [Layout.detach]
  notFull_owner := by
    intro e p hp
    by_cases hed : e = d
    · simp [Layout.detach, hed] at hp
    · have hmem : p ∈ L.notFull e := by simpa [Layout.detach, hed] using hp
      exact detach_owner_desc.mpr ⟨h.notFull_owner e p hmem, hed⟩

theorem Sound.detach (h : Sound cfg s L) (hnone : ∀ p, L.owner p ≠ .batch d) :
    Sound cfg (s.setDesc d initPos) (L.detach d) ∧ Listed (L.detach d) d (L.lines (.desc d)) := by
  have hlines : Queues s.next nullShmPos (Function.update s.firstPage (.desc d) nullShmPos)
      (Function.update s.lastPage (.desc d) nullShmPos)
      (Function.update L.lines (.desc d) []) :=
    h.inv.lines.replace (fun _ _ _ _ => rfl) (by simp) List.nodup_nil (by simp)
  have hnotFull : Queues s.nextNotFull nullShmPos (Function.update s.firstNotFull d nullShmPos)
      (Function.update s.lastNotFull d nullShmPos) (Function.update L.notFull d []) :=
    h.inv.notFull.replace (fun _ _ _ _ => rfl) (by simp) List.nodup_nil (by simp)
  refine ⟨⟨⟨h.inv.own.detach d, h.inv.headers, ?_, ?_, ?_, ?_⟩, ?_, ?_⟩, h.inv.lines.nodup _, ?_⟩
  · rw [firstPage_setDesc, lastPage_setDesc]
    exact hlines
  · intro code
    simpa [Layout.detach] using h.inv.freeNum code
  · rw [firstNotFull_setDesc, lastNotFull_setDesc]
    exact hnotFull
  · intro p e sp hp hused
    exact h.inv.slots p e sp hp (usedBy_detach hused)
  · intro e p hp
    obtain ⟨howner, hed⟩ := detach_owner_desc.mp hp
    simpa [Layout.detach, hed] using h.balanced.mem_iff e p howner
  · intro e p hp hempty
    exact h.balanced.full e p (detach_owner_desc.mp hp).1 hempty
  · intro p
    rw [h.inv.own.desc_iff]
    unfold Layout.detach
    dsimp only
    by_cases hp : L.owner p = .desc d
    · simp [hp]
    · rw [if_neg hp]
      exact iff_of_false hp (hnone p)

/-- Detaching the pages of `d` leaves what the other descriptors hold. -/
theorem held_detach {e : D} (hed : e ≠ d) :
    Held cfg (L.detach d) (.desc e) x ↔ Held cfg L (.desc e) x := by
  constructor
  · rintro ⟨c, p, sp, huser, hp, hin, hnot⟩
    exact ⟨c, p, sp, huser, (detach_owner_desc.mp hp).1, hin, hnot⟩
  · rintro ⟨c, p, sp, huser, hp, hin, hnot⟩
    exact ⟨c, p, sp, huser, detach_owner_desc.mpr ⟨hp, hed⟩, hin, hnot⟩

/-! ## The loop -/

/-- `freePage` neither reads nor writes descriptors. -/
theorem freePage_setDesc (s : State D) (d : D) (v : DescPageInfo) (p : ShmPosition) :
    freePage cfg (s.setDesc d v) p = (freePage cfg s p).setDesc d v := by
  unfold freePage
  cases spaceByCode cfg p.m_spaceCode with
  | none => rfl
  | some sp =>
      dsimp only
      rw [setDesc_page, setDesc_header]
      by_cases hpos : (s.page p).m_pos ≠ p.m_offSet
      · rw [if_pos hpos, if_pos hpos]
      · rw [if_neg hpos, if_neg hpos]
        by_cases hempty : (s.m_pHeader sp.m_spaceCode).m_lIdlePage = nullPos
        · rw [if_pos hempty, if_pos hempty]
          rfl
        · rw [if_neg hempty, if_neg hempty]
          rfl

omit [DecidableEq D] in
theorem freePage_desc (s : State D) (p : ShmPosition) : (freePage cfg s p).desc = s.desc := by
  unfold freePage
  cases spaceByCode cfg p.m_spaceCode with
  | none => rfl
  | some sp =>
      dsimp only
      split
      · rfl
      · split <;> rfl

omit [DecidableEq D] in
theorem freePages_desc (pages : List ShmPosition) (s : State D) :
    (pages.foldl (freePage cfg) s).desc = s.desc := by
  induction pages generalizing s with
  | nil => rfl
  | cons p rest ih => rw [List.foldl_cons, ih, freePage_desc]

theorem freePages_setDesc (pages : List ShmPosition) (s : State D) (d : D) (v : DescPageInfo) :
    pages.foldl (freePage cfg) (s.setDesc d v) = (pages.foldl (freePage cfg) s).setDesc d v := by
  induction pages generalizing s with
  | nil => rfl
  | cons p rest ih => rw [List.foldl_cons, List.foldl_cons, freePage_setDesc, ih]

omit [DecidableEq D] in
/-- `freePage` redirects the page and a free page, no other. -/
theorem Inv.next_freePage (h : Inv cfg s L) (hp : IsPage cfg p sp) (hqp : q ≠ p)
    (hq : L.owner q ≠ .free) : (MemManager.freePage cfg s p).next q = s.next q := by
  have hcode := hp.code
  unfold MemManager.freePage
  rw [hp.1]
  dsimp only
  rw [hcode]
  split
  · rfl
  · by_cases hempty : (s.m_pHeader p.m_spaceCode).m_lIdlePage = nullPos
    · rw [if_pos hempty]
      exact (congrFun (next_setPage s p _) q).trans (Function.update_of_ne hqp _ _)
    · rw [if_neg hempty]
      have hlast : s.lastPage (.free p.m_spaceCode) =
          ⟨p.m_spaceCode, (s.m_pHeader p.m_spaceCode).m_lIdlePage⟩ := by
        simp [State.lastPage, headPos, hempty]
      have hne : q ≠ ⟨p.m_spaceCode, (s.m_pHeader p.m_spaceCode).m_lIdlePage⟩ := by
        intro heq
        have hcpos : 0 < p.m_spaceCode := hcode ▸ sp.code_pos
        have hnot : s.lastPage (.free p.m_spaceCode) ≠ nullShmPos := by
          rw [hlast]
          intro hnull
          have := congrArg ShmPosition.m_spaceCode hnull
          simp only [nullShmPos] at this
          omega
        obtain ⟨front, hfront⟩ := queue_last (h.lines.queue (.free p.m_spaceCode)) hnot
        have hmem : q ∈ L.lines (.free p.m_spaceCode) := by simp [hfront, hlast, heq]
        exact hq ((h.own.free_iff _ q).mp hmem).1
      refine (congrFun (next_setPage _ p _) q).trans ?_
      rw [Function.update_of_ne hqp, next_setPage, Function.update_of_ne hne]

/-- **The loop gives back every page of the chain**, each once.  The induction is on the
pages that are left, which are those of the batch. -/
theorem Sound.truncateLoop {rounds : Nat} {pages : List ShmPosition}
    (h : Sound cfg (s.setDesc d initPos) L) (hlisted : Listed L d pages)
    (hchain : Chain s.next nullShmPos p pages) (hrounds : pages.length ≤ rounds) :
    MemManager.truncateLoop cfg rounds s p =
      some (pages.foldl (MemManager.freePage cfg) s, none) := by
  induction pages generalizing s L p rounds with
  | nil =>
      have hnull : p = nullShmPos := hchain
      unfold MemManager.truncateLoop
      rw [if_pos hnull]
      rfl
  | cons q rest ih =>
      obtain ⟨rfl, hnull, hrest⟩ := hchain
      have hbatch : L.owner p = .batch d := (hlisted.2 p).mp List.mem_cons_self
      obtain ⟨sp, hp⟩ := h.inv.own.isPage p (by simp [hbatch])
      cases rounds with
      | zero => simp at hrounds
      | succ rounds =>
          have hanswer : freePageAnswer cfg s p = true := by
            have hpos := (h.inv.headers p sp hp).pos
            simp only [setDesc_page] at hpos
            simp [freePageAnswer, hp.1, hpos]
          unfold MemManager.truncateLoop
          simp only [hnull, if_false, hp.attached, Bool.true_eq_false, hanswer]
          rw [List.foldl_cons]
          have hsound := (h.freePage hbatch).1
          rw [freePage_setDesc] at hsound
          refine ih hsound hlisted.giveBack ?_ (by simpa using hrounds)
          -- the pages that are left are in the batch, so they are not redirected
          refine (path_congr fun y hy => ?_).mpr hrest
          have hyp : y ≠ p := fun heq => (List.nodup_cons.mp hlisted.1).1 (heq ▸ hy)
          have hyfree : L.owner y ≠ .free := by
            rw [(hlisted.2 y).mp (List.mem_cons_of_mem p hy)]
            simp
          have hnext := h.inv.next_freePage hp hyp hyfree
          rw [freePage_setDesc] at hnext
          exact hnext

/-- **Truncation** returns when its loop has enough rounds.  The pages of the descriptor
are free, its queues are empty, and the other descriptors hold what they held. -/
theorem Sound.truncatePages (h : Sound cfg s L) (hnone : ∀ p e, L.owner p ≠ .batch e) (d : D)
    {rounds : Nat} (hrounds : (L.lines (.desc d)).length ≤ rounds) :
    ∃ t L', MemManager.truncatePages cfg rounds s d = some (t, none) ∧ Sound cfg t L' ∧
      (∀ p, L'.owner p = if L.owner p = .desc d then .free else L.owner p) ∧
      (∀ e x, e ≠ d → (Held cfg L' (.desc e) x ↔ Held cfg L (.desc e) x)) ∧
      t.desc = Function.update s.desc d initPos := by
  obtain ⟨hsound, hlisted⟩ := h.detach (d := d) fun p => hnone p d
  have hloop := hsound.truncateLoop hlisted (h.inv.lines.queue (.desc d)).1 hrounds
  obtain ⟨L', hsound', howner, hheld⟩ := hsound.freePages hlisted
  rw [freePages_setDesc] at hsound'
  refine ⟨_, L', ?_, hsound', fun p => ?_, fun e x hed => ?_, ?_⟩
  · have hfirst : (s.desc d).m_firstPage = s.firstPage (.desc d) := rfl
    rw [MemManager.truncatePages, hfirst, hloop]
  · rw [howner p]
    by_cases hp : L.owner p = .desc d
    · rw [if_pos ((h.inv.own.desc_iff d p).mpr hp), if_pos hp]
    · rw [if_neg fun hmem => hp ((h.inv.own.desc_iff d p).mp hmem), if_neg hp]
      exact if_neg hp
  · exact (hheld (.desc e) x (by simp)).trans (held_detach hed)
  · exact congrArg (fun desc => Function.update desc d initPos) (freePages_desc _ s)

/-! ## Runs with truncations -/

/-- What happens to the memory: a call of `allocateMem` or `freeMem`, a write into a live
slot, or a truncation, whose loop ends within `rounds`.  A table or an index that is
dropped is truncated as well, and a new one has no pages. -/
inductive Event (D : Type*) where
  | call (a : Label D)
  | truncate (d : D) (rounds : Nat)

/-- Slots are only asked for by descriptors whose slots fit. -/
def Event.Fits (cfg : Config D) : Event D → Prop
  | .call a => a.Fits cfg
  | .truncate _ _ => True

instance (cfg : Config D) : (a : Event D) → Decidable (a.Fits cfg)
  | .call a => inferInstanceAs (Decidable (a.Fits cfg))
  | .truncate _ _ => .isTrue trivial

/-- After a truncation no slot of the descriptor is live. -/
def happen (cfg : Config D) (sys : System D) : Event D → Option (System D)
  | .call a => step cfg sys a
  | .truncate d rounds =>
    match truncatePages cfg rounds sys.memory d with
    | none => none
    | some (s, some _) => some ⟨s, sys.live⟩
    | some (s, none) => some ⟨s, Function.update sys.live d []⟩

omit [DecidableEq D] in
/-- With more rounds the loop ends as well, and in the same state. -/
theorem truncateLoop_mono {rounds more : Nat} {r : State D × Option FreeError}
    (h : truncateLoop cfg rounds s p = some r) (hle : rounds ≤ more) :
    truncateLoop cfg more s p = some r := by
  induction rounds generalizing s p more with
  | zero =>
      unfold truncateLoop at h ⊢
      by_cases hnull : p = nullShmPos
      · rwa [if_pos hnull] at h ⊢
      · simp [hnull] at h
  | succ rounds ih =>
      obtain ⟨more, rfl⟩ : ∃ m, more = m + 1 := ⟨more - 1, by omega⟩
      unfold truncateLoop at h ⊢
      by_cases hnull : p = nullShmPos
      · rwa [if_pos hnull] at h ⊢
      · rw [if_neg hnull] at h ⊢
        dsimp only at h ⊢
        split at h
        · rename_i hattached
          rwa [if_pos hattached]
        · rename_i hattached
          rw [if_neg hattached]
          split at h
          · rename_i hanswer
            rwa [if_pos hanswer]
          · rename_i hanswer
            rw [if_neg hanswer]
            exact ih h (by omega)

/-- A truncation that ends does so without an exception, as `Sound.truncatePages` says. -/
theorem Sound.truncatePages_some (h : Sound cfg s L) (hnone : ∀ p e, L.owner p ≠ .batch e)
    {rounds : Nat} {r : State D × Option FreeError}
    (htruncate : MemManager.truncatePages cfg rounds s d = some r) :
    r.2 = none ∧ ∃ L', Sound cfg r.1 L' ∧
      (∀ p, L'.owner p = if L.owner p = .desc d then .free else L.owner p) ∧
      ∀ e x, e ≠ d → (Held cfg L' (.desc e) x ↔ Held cfg L (.desc e) x) := by
  obtain ⟨t, L', henough, hsound, howner, hheld, -⟩ :=
    h.truncatePages hnone d (Nat.le_max_right rounds (L.lines (.desc d)).length)
  -- with more rounds the answer is the same
  have hsame : MemManager.truncatePages cfg (max rounds (L.lines (.desc d)).length) s d = some r := by
    unfold MemManager.truncatePages at htruncate ⊢
    cases hloop : MemManager.truncateLoop cfg rounds s (s.desc d).m_firstPage with
    | none =>
        rw [hloop] at htruncate
        cases htruncate
    | some r' =>
        rw [hloop] at htruncate
        rw [truncateLoop_mono hloop (Nat.le_max_left _ _)]
        exact htruncate
  rw [hsame] at henough
  obtain rfl := Option.some.inj henough
  exact ⟨rfl, L', hsound, howner, hheld⟩

theorem happen_inv {sys sys' : System D} {a : Event D} (h : SysInv cfg sys) (ha : a.Fits cfg)
    (hstep : happen cfg sys a = some sys') : SysInv cfg sys' := by
  cases a with
  | call a => exact step_inv h ha hstep
  | truncate d rounds =>
      obtain ⟨L, hsound, hnone, hlive⟩ := h
      unfold happen at hstep
      dsimp only at hstep
      cases htruncate : truncatePages cfg rounds sys.memory d with
      | none =>
          rw [htruncate] at hstep
          cases hstep
      | some r =>
          obtain ⟨t, error⟩ := r
          obtain ⟨herror, L', hsound', howner, hheld⟩ := hsound.truncatePages_some hnone htruncate
          dsimp only at herror hsound'
          subst herror
          rw [htruncate] at hstep
          obtain rfl := Option.some.inj hstep
          refine ⟨L', hsound', fun p e hp => ?_, fun e => ?_⟩
          · rw [howner] at hp
            split at hp
            · cases hp
            · exact hnone p e hp
          · by_cases hed : e = d
            · subst hed
              simp only [Function.update_self]
              refine ⟨List.nodup_nil, fun x => iff_of_false (by simp) ?_⟩
              rintro ⟨c, p, sp, -, hp, -⟩
              rw [howner] at hp
              split at hp
              · cases hp
              · rename_i hnot
                exact hnot hp
            · simp only [Function.update_of_ne hed]
              refine ⟨(hlive e).1, fun x => ?_⟩
              rw [(hlive e).2 x, hheld e x hed]

/-- Every state that a run with truncations reaches meets the invariant. -/
theorem history_inv {garbage : State D} {events : List (Event D)} {sys : System D}
    (hfits : ∀ a ∈ events, a.Fits cfg)
    (hrun : run (happen cfg) (start cfg garbage) events = some sys) : SysInv cfg sys :=
  run_invariant_of_meets (fun _ _ _ h ha hstep => happen_inv h ha hstep) (start_inv cfg garbage)
    (meets_of_forall hfits _) hrun

end MemManager
