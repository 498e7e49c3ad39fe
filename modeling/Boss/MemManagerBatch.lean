import Boss.MemManagerAlloc

/-!
# A whole batch allocation

The loops of `allocateMem` by induction on their rounds: the loop over the not-full
pages grants slots to the descriptor, the loops over new pages grant slots to the
batch.  A batch that is served is adopted by the descriptor page by page; one that is
not gives back its old slots and its new pages.  Either way no page is left in a batch.
-/

namespace MemManager

open PageInfo LinkedChain

variable {D : Type*} [DecidableEq D] {cfg : Config D} {p q x : ShmPosition} {sp sp' : TableSpace}
  {s t : State D} {L L' L'' : Layout D} {d : D} {o : Owner D} {got : List ShmPosition}

/-- Pages that `d` does not have keep their number of idle slots. -/
def OthersIdle (L : Layout D) (d : D) (s t : State D) : Prop :=
  ∀ q, L.owner q ≠ .desc d → (t.page q).m_idleNum = (s.page q).m_idleNum

/-- **The loop over the not-full pages** ends within the rounds it has. -/
theorem Sound.allocateNotFull (rounds need : Nat) (slots : List ShmPosition)
    (h : Sound cfg s L) (hfirst : need ≠ 0 → p = s.firstNotFull d ∧ p ≠ nullShmPos)
    (hrounds : need ≤ rounds) :
    ∃ r L' got, allocateNotFull cfg d rounds s slots need p = some r ∧ r.error = none ∧
      Sound cfg r.state L' ∧ L'.owner = L.owner ∧ OthersIdle L d s r.state ∧
      r.slots = slots ++ got ∧ Grant cfg L L' (.desc d) got ∧ r.t_needNum + got.length = need := by
  induction rounds generalizing s L slots need p with
  | zero =>
      have hneed : need = 0 := by omega
      refine ⟨⟨s, slots, 0, none⟩, L, [], ?_, rfl, h, rfl, fun _ _ => rfl, by simp, Grant.refl,
        by simp [hneed]⟩
      simp [MemManager.allocateNotFull, hneed]
  | succ rounds ih =>
      by_cases hneed : need = 0
      · refine ⟨⟨s, slots, 0, none⟩, L, [], ?_, rfl, h, rfl, fun _ _ => rfl, by simp, Grant.refl,
          by simp [hneed]⟩
        simp [MemManager.allocateNotFull, hneed]
      · obtain ⟨hpfirst, hpnull⟩ := hfirst hneed
        obtain ⟨rest, hlist⟩ : ∃ rest, L.notFull d = p :: rest := by
          obtain ⟨rest, hrest, -⟩ := chain_ne_null (h.inv.notFull.queue d).1 (hpfirst ▸ hpnull)
          exact ⟨rest, by rw [hrest, ← hpfirst]⟩
        obtain ⟨hatt, hpos, hle, hnext, hmore, hfull⟩ := h.allocateRound hlist hneed
        have hother : ∀ q, L.owner q ≠ .desc d → q ≠ p := fun q hq heq =>
          hq (h.inv.own.notFull_owner d q (by simp [heq, hlist]))
        unfold MemManager.allocateNotFull
        simp only [hneed, if_false, hatt, Bool.true_eq_false]
        by_cases hzero : ((s.page p).allocateNode s.mem p need).1.m_idleNum = 0
        · obtain ⟨L₁, hsound, howner, hgrant⟩ := hfull hzero
          rw [if_pos hzero, hnext]
          by_cases hend : s.nextNotFull p = nullShmPos
          · rw [if_pos hend]
            refine ⟨_, L₁, _, rfl, rfl, ?_, howner, fun q hq => ?_, rfl, hgrant,
              by simp only; omega⟩
            · simpa [hend, State.setDesc] using hsound
            · simp [hother q hq]
          · rw [if_neg hend]
            simp only [hend, if_false] at hsound
            obtain ⟨r, L', more, hr, herr, hsound', howner', hidle', hslots, hgrant', hcount⟩ :=
              ih (need - ((s.page p).allocateNode s.mem p need).2.length)
                (slots ++ ((s.page p).allocateNode s.mem p need).2) hsound
                (p := s.nextNotFull p)
                (fun _ => ⟨by simp [State.firstNotFull, State.setDesc], hend⟩) (by omega)
            refine ⟨r, L', _, hr, herr, hsound', howner'.trans howner, fun q hq => ?_, ?_,
              hgrant.trans hgrant', ?_⟩
            · rw [hidle' q (howner ▸ hq)]
              simp [hother q hq]
            · rw [hslots, List.append_assoc]
            · rw [List.length_append]
              omega
        · obtain ⟨hall, L₁, hsound, howner, hgrant⟩ := hmore hzero
          rw [if_neg hzero]
          obtain ⟨r, L', more, hr, herr, hsound', howner', hidle', hslots, hgrant', hcount⟩ :=
            ih (need - ((s.page p).allocateNode s.mem p need).2.length)
              (slots ++ ((s.page p).allocateNode s.mem p need).2) hsound
              (p := ((s.page p).allocateNode s.mem p need).1.m_nextNotNullPage)
              (fun hpositive => absurd (by omega) hpositive) (by omega)
          refine ⟨r, L', _, hr, herr, hsound', howner'.trans howner, fun q hq => ?_, ?_,
            hgrant.trans hgrant', ?_⟩
          · rw [hidle' q (howner ▸ hq)]
            simp [hother q hq]
          · rw [hslots, List.append_assoc]
          · rw [List.length_append]
            omega

/-! ## New pages -/

/-- The pages of the batch of `d` are listed, each once. -/
def Listed (L : Layout D) (d : D) (t_pageList : List ShmPosition) : Prop :=
  t_pageList.Nodup ∧ ∀ p, p ∈ t_pageList ↔ L.owner p = .batch d

/-- Pages are neither taken from a descriptor nor given to one, and other batches do
not grow. -/
def KeepsOthers (L L' : Layout D) (d : D) : Prop :=
  ∀ p e, e ≠ d → L'.owner p = .batch e → L.owner p = .batch e

/-- Free pages have come into the batch of `d`, and no other page has changed hands. -/
structure Took (L L' : Layout D) (d : D) (taken : List ShmPosition) : Prop where
  owner : ∀ p, L'.owner p = if p ∈ taken then .batch d else L.owner p
  free : ∀ p ∈ taken, L.owner p = .free

section

omit [DecidableEq D]

theorem Took.refl (L : Layout D) (d : D) : Took L L d [] := ⟨fun p => by simp, by simp⟩

theorem Took.trans {taken more : List ShmPosition} (h : Took L L' d taken)
    (h' : Took L' L'' d more) : Took L L'' d (taken ++ more) where
  owner := by
    intro p
    rw [h'.owner p, h.owner p]
    by_cases hp : p ∈ taken <;> by_cases hp' : p ∈ more <;> simp [hp, hp']
  free := by
    intro p hp
    rcases List.mem_append.mp hp with hp | hp
    · exact h.free p hp
    · have hfree := h'.free p hp
      rw [h.owner] at hfree
      split at hfree
      · cases hfree
      · exact hfree

theorem Took.keepsOthers {taken : List ShmPosition} (h : Took L L' d taken) :
    KeepsOthers L L' d := by
  intro p e he hp
  rw [h.owner] at hp
  split at hp
  · cases hp
    exact absurd rfl he
  · exact hp

end

/-- The idle slots of all pages but these are as many as before. -/
def SameIdle (s t : State D) (pages : List ShmPosition) : Prop :=
  ∀ p, p ∉ pages → (t.page p).m_idleNum = (s.page p).m_idleNum

omit [DecidableEq D] in
theorem SameIdle.trans {u : State D} {pages more : List ShmPosition} (h : SameIdle s t pages)
    (h' : SameIdle t u more) : SameIdle s u (pages ++ more) := by
  intro p hp
  rw [List.mem_append, not_or] at hp
  rw [h' p hp.2, h p hp.1]

omit [DecidableEq D] in
/-- A page becomes one of the batch with all its slots idle, and then the first of them are taken. -/
theorem grant_fresh (hfree : (L.owner p).user = none) (hp : IsPage cfg p sp) {all : List Nat}
    (hnodup : all.Nodup)
    (hall : ∀ off, off ∈ all ↔ IsSlot sp.m_pageSize (cfg.m_slotSize d) p off) (need : Nat) :
    Grant cfg L
      { L with
        owner := Function.update L.owner p (.batch d)
        idle := Function.update L.idle p (all.drop need) }
      (.batch d) ((all.take need).map fun off => ⟨p.m_spaceCode, off⟩) := by
  have hidlePage : Grant cfg L
      { L with owner := Function.update L.owner p (.batch d), idle := Function.update L.idle p all }
      (.batch d) [] := by
    refine grant_idlePage hfree hp (fun q hq => by simp [hq]) (fun q hq => by simp [hq]) ?_
    intro e he off hslot
    have hed : e = d := by simpa [Owner.user] using he.symm
    subst hed
    simpa using (hall off).mpr hslot
  have htake := grant_take (n := need) (L := { L with
      owner := Function.update L.owner p (.batch d), idle := Function.update L.idle p all })
    { L with
      owner := Function.update L.owner p (.batch d)
      idle := Function.update L.idle p (all.drop need) } hp
    (rfl : (Owner.batch d).user = some d) (by simp) rfl (by simp)
    (by simpa using hnodup) (by simpa using fun off hoff => (hall off).mp hoff)
  have hboth := hidlePage.trans htake
  simpa only [Function.update_self, List.nil_append] using hboth

/-- One new page: it joins the batch and serves at least one slot. -/
theorem Sound.allocateFresh (h : Sound cfg s L) (hd : Fits cfg d) {name : Name} {need : Nat}
    {t_pageList : List ShmPosition} (hname : name ∈ cfg.m_spaceList d) (hneed : need ≠ 0)
    (hlisted : Listed L d t_pageList) (halloc : allocatePage cfg s name = some (p, t)) :
    let fresh := (t.page p).initSlotList t.mem p (cfg.m_slotSize d)
    let r := fresh.1.allocateNode fresh.2 p need
    0 < r.2.length ∧ r.2.length ≤ need ∧
    ∃ L', Sound cfg { t.setPage p r.1 with mem := fresh.2 } L' ∧
      Listed L' d (t_pageList ++ [p]) ∧ Took L L' d [p] ∧
      SameIdle s { t.setPage p r.1 with mem := fresh.2 } [p] ∧ Grant cfg L L' (.batch d) r.2 := by
  obtain ⟨sp, rest, hsp, hp, howner, hinv, hpage, hmem, -⟩ := h.inv.allocatePage halloc
  have hfits : FitsIn cfg d sp :=
    hd name hname sp (spaceByName_some hsp).1 (spaceByName_some hsp).2
  have hplaced := hinv.placed hp hfits
  obtain ⟨hfields, hidle, hsame⟩ := initSlotList_spec t.mem hplaced
  generalize hfresh : (t.page p).initSlotList t.mem p (cfg.m_slotSize d) = fresh at *
  have hplaced' : Placed fresh.1 p sp.m_pageSize (cfg.m_slotSize d) := by
    rw [hfields]
    exact ⟨hplaced.code, hplaced.pos, hplaced.size, hplaced.bound, hplaced.link, hplaced.fits⟩
  obtain ⟨fIdle, lIdle, hr, hidle'⟩ := allocateNode_spec hplaced' hidle need
  generalize hall : (List.range ((sp.m_pageSize - sizeofPageInfo) / cfg.m_slotSize d)).map
    (slotPos p (cfg.m_slotSize d)) = all at *
  have hmemAll : ∀ off, IsSlot sp.m_pageSize (cfg.m_slotSize d) p off → off ∈ all := by
    rintro off ⟨k, hk, rfl⟩
    rw [← hall]
    exact List.mem_map.mpr ⟨k, List.mem_range.mpr hk, rfl⟩
  have hpos : 0 < all.length := by
    obtain ⟨hmin, hmax⟩ := hfits
    rw [← hall, List.length_map, List.length_range]
    exact Nat.div_pos (by omega) (by omega)
  simp only [hr]
  refine ⟨by simp; omega, by simp, ?_⟩
  -- the layout: the page leaves the free pages, gets its slots and joins the batch
  have hset := hinv.setSlots hp
    { fresh.1 with
      m_fIdleSlot := fIdle, m_lIdleSlot := lIdle, m_idleNum := (all.drop need).length }
    fresh.2 (all.drop need) (by rw [hfields]) (by rw [hfields]) (by rw [hfields])
    (by rw [hfields]) (by rw [hfields]) hsame
    (fun e hused => by rcases hused with he | he <;> simp at he)
  have hjoin := hset.joinBatch (d := d) hp (.inl (by simp)) hfits
    (by simpa using hidle')
  have hnext : ({ t.setPage p { fresh.1 with
      m_fIdleSlot := fIdle, m_lIdleSlot := lIdle, m_idleNum := (all.drop need).length } with
      mem := fresh.2 } : State D).nextNotFull = s.nextNotFull := by
    have hlink := nextNotFull_setPage t p { fresh.1 with
      m_fIdleSlot := fIdle, m_lIdleSlot := lIdle, m_idleNum := (all.drop need).length }
    have hold : fresh.1.m_nextNotNullPage = t.nextNotFull p := by
      rw [hfields]
      rfl
    refine Eq.trans hlink ?_
    dsimp only
    rw [hold, Function.update_eq_self]
    unfold State.nextNotFull
    rw [hpage]
  have hother : ∀ q, q ≠ p → ∀ o, Function.update (Function.update L.owner p .other) p o q =
      L.owner q := by
    intro q hq o
    simp [hq]
  refine ⟨_, ⟨hjoin, ?_, ?_⟩, ⟨?_, ?_⟩, ⟨?_, ?_⟩, ?_, ?_⟩
  · intro e q hq
    have hqp : q ≠ p := fun heq => by simp [heq] at hq
    simpa [hqp] using h.balanced.mem_iff e q (by simpa [hqp] using hq)
  · intro e q hq hempty
    have hqp : q ≠ p := fun heq => by simp [heq] at hq
    rw [hnext]
    exact h.balanced.full e q (by simpa [hqp] using hq) (by simpa [hqp] using hempty)
  · refine List.nodup_append.mpr ⟨hlisted.1, List.nodup_singleton p, ?_⟩
    intro q hq y hy heq
    rw [List.mem_singleton] at hy
    have hbatch := (hlisted.2 q).mp hq
    rw [heq, hy, howner] at hbatch
    cases hbatch
  · intro q
    by_cases hqp : q = p
    · simp [hqp]
    · simpa [hqp] using hlisted.2 q
  · intro q
    by_cases hqp : q = p <;> simp [hqp]
  · intro q hq
    rw [List.mem_singleton.mp hq, howner]
  · intro q hq
    rw [List.mem_singleton] at hq
    change ((t.setPage p _).page q).m_idleNum = _
    rw [setPage_of_ne _ _ hq, hpage]
  · have hboth := grant_fresh (d := d) (by rw [howner]; rfl) hp hidle.nodup
      (fun off => ⟨hidle.slot off, hmemAll off⟩) need
    refine ⟨hboth.nodup, hboth.fresh, ?_⟩
    intro o' x
    rw [← hboth.held o' x]
    simp only [Held, Function.update_idem]

/-- **The loop over the new pages of one space** ends within the rounds it has. -/
theorem Sound.allocateNewPages (rounds need : Nat) (slots t_pageList : List ShmPosition)
    {name : Name} (h : Sound cfg s L) (hd : Fits cfg d) (hname : name ∈ cfg.m_spaceList d)
    (hlisted : Listed L d t_pageList) (hrounds : need ≤ rounds) :
    ∃ r pl L' got, allocateNewPages cfg d name rounds s slots t_pageList need = some (r, pl) ∧
      Sound cfg r.state L' ∧ Listed L' d pl ∧
      (∃ taken, Took L L' d taken ∧ SameIdle s r.state taken) ∧ r.slots = slots ++ got ∧
      Grant cfg L L' (.batch d) got ∧ r.t_needNum + got.length = need := by
  induction rounds generalizing s L slots t_pageList need with
  | zero =>
      have hneed : need = 0 := by omega
      refine ⟨⟨s, slots, 0, none⟩, t_pageList, L, [], ?_, h, hlisted,
        ⟨[], Took.refl L d, fun _ _ => rfl⟩, by simp, Grant.refl, by simp [hneed]⟩
      simp [MemManager.allocateNewPages, hneed]
  | succ rounds ih =>
      by_cases hneed : need = 0
      · refine ⟨⟨s, slots, 0, none⟩, t_pageList, L, [], ?_, h, hlisted,
          ⟨[], Took.refl L d, fun _ _ => rfl⟩, by simp, Grant.refl, by simp [hneed]⟩
        simp [MemManager.allocateNewPages, hneed]
      · unfold MemManager.allocateNewPages
        rw [if_neg hneed]
        cases halloc : allocatePage cfg s name with
        | none =>
            exact ⟨⟨s, slots, need, none⟩, t_pageList, L, [], rfl, h, hlisted,
              ⟨[], Took.refl L d, fun _ _ => rfl⟩, by simp, Grant.refl, by simp⟩
        | some found =>
            obtain ⟨p, t⟩ := found
            obtain ⟨hpos, hle, L₁, hsound, hlisted₁, htook, hidle, hgrant⟩ :=
              h.allocateFresh hd hname hneed hlisted halloc
            obtain ⟨r, pl, L', more, hr, hsound', hlisted', ⟨taken, htook', hidle'⟩, hslots, hgrant',
              hcount⟩ :=
              ih (need - (((t.page p).initSlotList t.mem p (cfg.m_slotSize d)).1.allocateNode
                  ((t.page p).initSlotList t.mem p (cfg.m_slotSize d)).2 p need).2.length)
                (slots ++ _) (t_pageList ++ [p]) hsound hlisted₁ (by omega)
            refine ⟨r, pl, L', _, hr, hsound', hlisted',
              ⟨_, htook.trans htook', hidle.trans hidle'⟩, ?_, hgrant.trans hgrant', ?_⟩
            · rw [hslots, List.append_assoc]
            · rw [List.length_append]
              omega

/-- The loop over the table spaces of the descriptor. -/
theorem Sound.allocateFromSpaces (names : List Name) (need : Nat)
    (slots t_pageList : List ShmPosition) (h : Sound cfg s L) (hd : Fits cfg d)
    (hnames : ∀ name ∈ names, name ∈ cfg.m_spaceList d)
    (hlisted : Listed L d t_pageList) :
    ∃ r pl L' got, allocateFromSpaces cfg d names s slots t_pageList need = some (r, pl) ∧
      Sound cfg r.state L' ∧ Listed L' d pl ∧
      (∃ taken, Took L L' d taken ∧ SameIdle s r.state taken) ∧ r.slots = slots ++ got ∧
      Grant cfg L L' (.batch d) got ∧ r.t_needNum + got.length = need := by
  induction names generalizing s L slots t_pageList need with
  | nil =>
      exact ⟨⟨s, slots, need, none⟩, t_pageList, L, [], rfl, h, hlisted,
        ⟨[], Took.refl L d, fun _ _ => rfl⟩, by simp, Grant.refl, by simp⟩
  | cons name names ih =>
      by_cases hneed : need = 0
      · refine ⟨⟨s, slots, 0, none⟩, t_pageList, L, [], ?_, h, hlisted,
          ⟨[], Took.refl L d, fun _ _ => rfl⟩, by simp, Grant.refl, by simp [hneed]⟩
        simp [MemManager.allocateFromSpaces, hneed]
      · obtain ⟨r₁, pl₁, L₁, got, hr₁, hsound, hlisted₁, ⟨taken, htook, hidle⟩, hslots₁, hgrant,
            hcount₁⟩ :=
          h.allocateNewPages need need slots t_pageList hd (hnames name List.mem_cons_self) hlisted
            le_rfl
        obtain ⟨r, pl, L', more, hr, hsound', hlisted', ⟨taken', htook', hidle'⟩, hslots, hgrant',
            hcount⟩ :=
          ih r₁.t_needNum r₁.slots pl₁ hsound
            (fun other hother => hnames other (List.mem_cons_of_mem name hother)) hlisted₁
        refine ⟨r, pl, L', got ++ more, ?_, hsound', hlisted',
          ⟨_, htook.trans htook', hidle.trans hidle'⟩, ?_, hgrant.trans hgrant', ?_⟩
        · rw [MemManager.allocateFromSpaces, if_neg hneed, hr₁]
          exact hr
        · rw [hslots, hslots₁, List.append_assoc]
        · rw [List.length_append]
          omega

/-! ## The end of a batch -/

/-- What a page of the batch holds, the descriptor holds after the page is adopted. -/
theorem held_adopt (hbatch : L.owner p = .batch d) (o : Owner D) (x : ShmPosition) :
    (Held cfg (L.adopt p d) (.desc d) x ∨ Held cfg (L.adopt p d) (.batch d) x ↔
      Held cfg L (.desc d) x ∨ Held cfg L (.batch d) x) ∧
    (o ≠ .desc d → o ≠ .batch d → (Held cfg (L.adopt p d) o x ↔ Held cfg L o x)) := by
  have howner : ∀ q, (L.adopt p d).owner q = if q = p then .desc d else L.owner q := by
    intro q
    simp [Layout.adopt, Layout.link, Function.update_apply]
  have hidle : (L.adopt p d).idle = L.idle := rfl
  constructor
  · constructor
    · rintro (⟨e, q, sp, huser, hq, hin, hnot⟩ | ⟨e, q, sp, huser, hq, hin, hnot⟩)
      · obtain rfl : d = e := by simpa [Owner.user] using huser
        by_cases hqp : q = p
        · exact .inr ⟨d, q, sp, rfl, hqp ▸ hbatch, hin, hnot⟩
        · exact .inl ⟨d, q, sp, rfl, by simpa [howner, hqp] using hq, hin, hnot⟩
      · by_cases hqp : q = p
        · simp [howner, hqp] at hq
        · exact .inr ⟨e, q, sp, huser, by simpa [howner, hqp] using hq, hin, hnot⟩
    · rintro (⟨e, q, sp, huser, hq, hin, hnot⟩ | ⟨e, q, sp, huser, hq, hin, hnot⟩)
      · have hqp : q ≠ p := fun heq => by simp [heq, hbatch] at hq
        exact .inl ⟨e, q, sp, huser, by simpa [howner, hqp] using hq, hin, hnot⟩
      · by_cases hqp : q = p
        · exact .inl ⟨e, q, sp, huser, by simp [howner, hqp], hin, hnot⟩
        · exact .inr ⟨e, q, sp, huser, by simpa [howner, hqp] using hq, hin, hnot⟩
  · intro hdesc hbatch'
    constructor
    · rintro ⟨e, q, sp, huser, hq, hin, hnot⟩
      have hqp : q ≠ p := fun heq => hdesc (by simpa [howner, heq] using hq.symm)
      exact ⟨e, q, sp, huser, by simpa [howner, hqp] using hq, hin, hnot⟩
    · rintro ⟨e, q, sp, huser, hq, hin, hnot⟩
      have hqp : q ≠ p := fun heq => hbatch' (by rw [← hq, heq, hbatch])
      exact ⟨e, q, sp, huser, by simpa [howner, hqp] using hq, hin, hnot⟩

/-- **`addNewPageToDesc`**: the descriptor adopts its batch. -/
theorem Sound.addNewPages {t_pageList : List ShmPosition} (h : Sound cfg s L)
    (hlisted : Listed L d t_pageList) :
    ∃ L', Sound cfg (t_pageList.foldl (addNewPage d) s) L' ∧ KeepsOthers L L' d ∧
      (∀ p, L'.owner p ≠ .batch d) ∧
      (∀ x, Held cfg L' (.desc d) x ↔ Held cfg L (.desc d) x ∨ Held cfg L (.batch d) x) ∧
      ∀ o x, o ≠ .desc d → o ≠ .batch d → (Held cfg L' o x ↔ Held cfg L o x) := by
  induction t_pageList generalizing s L with
  | nil =>
      have hnone : ∀ p, L.owner p ≠ .batch d := fun p hp => by simpa using (hlisted.2 p).mpr hp
      refine ⟨L, h, fun p e _ hp => hp, hnone, ?_, fun o x _ _ => Iff.rfl⟩
      intro x
      refine ⟨.inl, fun hx => hx.resolve_right ?_⟩
      rintro ⟨e, q, sp, -, hq, -⟩
      exact hnone q hq
  | cons p rest ih =>
      have hbatch : L.owner p = .batch d := (hlisted.2 p).mp List.mem_cons_self
      obtain ⟨hnew, hnodup⟩ := List.nodup_cons.mp hlisted.1
      obtain ⟨hinv, hbal⟩ := h.inv.addNewPage h.balanced hbatch
      have howner : ∀ q, (L.adopt p d).owner q = if q = p then .desc d else L.owner q := by
        intro q
        simp [Layout.adopt, Layout.link, Function.update_apply]
      have hlisted' : Listed (L.adopt p d) d rest := by
        refine ⟨hnodup, fun q => ?_⟩
        have hq := hlisted.2 q
        by_cases hqp : q = p
        · simp [howner, hqp, hnew]
        · simpa [howner, hqp] using hq
      obtain ⟨L', hsound, hkeeps, hnone, hdesc, hother⟩ := ih ⟨hinv, hbal⟩ hlisted'
      refine ⟨L', hsound, ?_, hnone, ?_, ?_⟩
      · intro q e he hq
        have hq' := hkeeps q e he hq
        by_cases hqp : q = p
        · simp [howner, hqp] at hq'
        · simpa [howner, hqp] using hq'
      · intro x
        rw [hdesc x]
        exact (held_adopt hbatch (.desc d) x).1
      · intro o x hod hob
        rw [hother o x hod hob]
        exact (held_adopt hbatch o x).2 hod hob

/-- A page goes back to its space. -/
def Layout.giveBack (L : Layout D) (p : ShmPosition) : Layout D :=
  { L with
    owner := Function.update L.owner p .free
    lines := Function.update L.lines (.free p.m_spaceCode) (L.lines (.free p.m_spaceCode) ++ [p]) }

/-- A page of a batch goes back to its space, and nobody holds more or less. -/
theorem Sound.freePage (h : Sound cfg s L) (hbatch : L.owner p = .batch d) :
    Sound cfg (freePage cfg s p) (L.giveBack p) ∧
      ∀ o x, o ≠ .batch d → (Held cfg (L.giveBack p) o x ↔ Held cfg L o x) := by
  obtain ⟨sp, hp⟩ := h.inv.own.isPage p (by simp [hbatch])
  obtain ⟨hfree, hlinks⟩ := (h.inv.leaveBatch hp (.inr ⟨d, hbatch⟩)).freePage hp (by simp)
  simp only [Function.update_idem] at hfree
  have howner : ∀ q, (L.giveBack p).owner q = if q = p then .free else L.owner q := by
    intro q
    simp [Layout.giveBack, Function.update_apply]
  refine ⟨⟨hfree, ?_, ?_⟩, ?_⟩
  · intro e q hq
    have hqp : q ≠ p := fun heq => by simp [howner, heq] at hq
    exact h.balanced.mem_iff e q (by simpa [howner, hqp] using hq)
  · intro e q hq hempty
    have hqp : q ≠ p := fun heq => by simp [howner, heq] at hq
    rw [hlinks]
    exact h.balanced.full e q (by simpa [howner, hqp] using hq) hempty
  · intro o x ho
    constructor
    · rintro ⟨e, q, spq, huser, hq, hin, hnot⟩
      by_cases hqp : q = p
      · have hfreeOwner : o = .free := by simpa [howner, hqp] using hq.symm
        simp [hfreeOwner, Owner.user] at huser
      · exact ⟨e, q, spq, huser, by simpa [howner, hqp] using hq, hin, hnot⟩
    · rintro ⟨e, q, spq, huser, hq, hin, hnot⟩
      have hqp : q ≠ p := fun heq => ho (by rw [← hq, heq, hbatch])
      exact ⟨e, q, spq, huser, by simpa [howner, hqp] using hq, hin, hnot⟩

theorem Listed.giveBack {rest : List ShmPosition} (h : Listed L d (p :: rest)) :
    Listed (L.giveBack p) d rest := by
  obtain ⟨hnew, hnodup⟩ := List.nodup_cons.mp h.1
  refine ⟨hnodup, fun q => ?_⟩
  have hq := h.2 q
  by_cases hqp : q = p
  · simp [Layout.giveBack, hqp, hnew]
  · simpa [Layout.giveBack, hqp] using hq

/-- **The pages of a batch go back to their spaces.** -/
theorem Sound.freePages {t_pageList : List ShmPosition} (h : Sound cfg s L)
    (hlisted : Listed L d t_pageList) :
    ∃ L', Sound cfg (t_pageList.foldl (MemManager.freePage cfg) s) L' ∧
      (∀ p, L'.owner p = if p ∈ t_pageList then .free else L.owner p) ∧
      ∀ o x, o ≠ .batch d → (Held cfg L' o x ↔ Held cfg L o x) := by
  induction t_pageList generalizing s L with
  | nil => exact ⟨L, h, fun p => by simp, fun o x _ => Iff.rfl⟩
  | cons p rest ih =>
      obtain ⟨hsound, hheld⟩ := h.freePage ((hlisted.2 p).mp List.mem_cons_self)
      obtain ⟨L', hsound', howner, hheld'⟩ := ih hsound hlisted.giveBack
      refine ⟨L', hsound', fun q => ?_, fun o x ho => (hheld' o x ho).trans (hheld o x ho)⟩
      rw [howner q]
      by_cases hqp : q = p
      · simp [Layout.giveBack, hqp]
      · simp [Layout.giveBack, hqp]

/-! ## `allocateMem` -/

section

omit [DecidableEq D]

/-- A slot has one holder. -/
theorem held_unique {o' : Owner D} (h : Held cfg L o x) (h' : Held cfg L o' x) : o = o' := by
  obtain ⟨d, p, sp, -, howner, hin, -⟩ := h
  obtain ⟨e, q, sp', -, howner', hin', -⟩ := h'
  obtain rfl := hin.page_unique hin'
  exact howner.symm.trans howner'

theorem not_held_batch (h : ∀ p, L.owner p ≠ .batch d) : ¬ Held cfg L (.batch d) x := by
  rintro ⟨e, p, sp, -, howner, -⟩
  exact h p howner

theorem Inv.attached_lastPage (h : Inv cfg s L) (d : D) :
    attached cfg (s.desc d).m_lastPage = true := by
  by_cases hlast : s.lastPage (.desc d) = nullShmPos
  · have hnull : (s.desc d).m_lastPage = nullShmPos := hlast
    simp [attached, hnull]
  · obtain ⟨front, hfront⟩ := queue_last (h.lines.queue (.desc d)) hlast
    have howner := (h.own.desc_iff d (s.lastPage (.desc d))).mp (by simp [hfront])
    obtain ⟨sp, hp⟩ := h.own.isPage _ (by rw [howner]; simp)
    exact hp.attached

end

/-- The first part of `allocateMem`: slots of pages that the descriptor has. -/
theorem Sound.allocateOld (h : Sound cfg s L) (d : D) (need : Nat) :
    ∃ r L' got, allocateOld cfg s d need = some r ∧ r.error = none ∧
      Sound cfg r.state L' ∧ L'.owner = L.owner ∧ OthersIdle L d s r.state ∧ r.slots = got ∧
      Grant cfg L L' (.desc d) got ∧ r.t_needNum + got.length = need := by
  unfold MemManager.allocateOld
  dsimp only
  by_cases hfirst : (s.desc d).m_firstNotFullPage = nullShmPos
  · rw [if_pos hfirst]
    exact ⟨_, L, [], rfl, rfl, h, rfl, fun _ _ => rfl, rfl, Grant.refl, rfl⟩
  · rw [if_neg hfirst]
    obtain ⟨r, L', got, hr, herr, hsound, howner, hidle, hslots, hgrant, hcount⟩ :=
      h.allocateNotFull need need [] (fun _ => ⟨rfl, hfirst⟩) le_rfl
    exact ⟨r, L', got, hr, herr, hsound, howner, hidle, by simpa using hslots, hgrant, hcount⟩

/-- A request has been undone: everybody holds what he held, every page has the owner it
had, and as many idle slots unless it is a free page that the request had taken. -/
structure Undone (cfg : Config D) (s t : State D) (L L' : Layout D) : Prop where
  held : ∀ o x, Held cfg L' o x ↔ Held cfg L o x
  owner : ∀ p, L'.owner p = L.owner p
  idle : ∃ taken, (∀ p ∈ taken, L.owner p = .free) ∧ SameIdle s t taken

omit [DecidableEq D] in
theorem freePages_idleNum (pages : List ShmPosition) (s : State D) (q : ShmPosition) :
    ((pages.foldl (freePage cfg) s).page q).m_idleNum = (s.page q).m_idleNum := by
  induction pages generalizing s with
  | nil => rfl
  | cons p rest ih => rw [List.foldl_cons, ih, ((onlyNext_freePage s p).slotFields q).1]

/-- A failed batch is undone: the old slots are freed and the new pages given back. -/
theorem Sound.rollback {t_pageList old new taken : List ShmPosition} (h : Sound cfg s L)
    (h' : Sound cfg t L'') (hgrant : Grant cfg L L' (.desc d) old)
    (hnew : Grant cfg L' L'' (.batch d) new) (hlisted : Listed L'' d t_pageList)
    (hnone : ∀ p e, L.owner p ≠ .batch e) (htook : Took L L'' d taken)
    (hidle : ∀ q, q ∉ taken → L.owner q ≠ .desc d → (t.page q).m_idleNum = (s.page q).m_idleNum)
    (e : MemError) :
    ∃ r L₃, MemManager.rollback cfg t d old t_pageList e = (r, .error e) ∧ Sound cfg r L₃ ∧
      Undone cfg s r L L₃ := by
  have hheld : ∀ x ∈ old, Held cfg L'' (.desc d) x := fun x hx =>
    (hnew.held _ x).mpr (.inl ((hgrant.held _ x).mpr (.inr ⟨rfl, hx⟩)))
  obtain ⟨t₁, L₁, hfree, hsound₁, howner₁, hset₁⟩ := h'.freeMems hgrant.nodup hheld
  have hlisted₁ : Listed L₁ d t_pageList := by
    unfold Listed
    rw [howner₁]
    exact hlisted
  obtain ⟨L₃, hsound₃, howner₃, hset₃⟩ := hsound₁.freePages hlisted₁
  have howner : ∀ p, L₃.owner p = L.owner p := by
    intro p
    have hbatch := hlisted.2 p
    rw [howner₃ p, howner₁]
    rw [htook.owner p] at hbatch ⊢
    by_cases hp : p ∈ taken
    · rw [if_pos hp] at hbatch
      rw [if_pos (hbatch.mpr rfl), htook.free p hp]
    · rw [if_neg hp] at hbatch ⊢
      rw [if_neg fun hmem => hnone p d (hbatch.mp hmem)]
  have hheld₃ : ∀ o x, Held cfg L₃ o x ↔ Held cfg L o x := by
    intro o x
    by_cases ho : o = .batch d
    · subst ho
      exact iff_of_false (not_held_batch fun p => by rw [howner]; exact hnone p d)
        (not_held_batch fun p => hnone p d)
    · rw [hset₃ o x ho, hset₁ o x, hnew.held o x, hgrant.held o x]
      constructor
      · rintro ⟨(hx | ⟨-, hx⟩) | ⟨hbatch, -⟩, hnot⟩
        · exact hx
        · exact absurd hx hnot
        · exact absurd hbatch ho
      · intro hx
        refine ⟨.inl (.inl hx), fun hold => ?_⟩
        have hod : o = .desc d :=
          held_unique ((hgrant.held o x).mpr (.inl hx)) ((hgrant.held _ x).mpr (.inr ⟨rfl, hold⟩))
        exact hgrant.fresh x hold (hod ▸ hx)
  refine ⟨_, L₃, by rw [MemManager.rollback, hfree], hsound₃, hheld₃, howner, taken, htook.free, ?_⟩
  intro q hq
  by_cases hdesc : L.owner q = .desc d
  · exact h.idleNum_eq hsound₃ hdesc ((howner q).trans hdesc) (hheld₃ _)
  · -- no slot of the page is freed, and giving pages back only writes `m_next`
    have hslot : ∀ x ∈ old, getPageBySlot cfg x ≠ some q := by
      intro x hx heq
      obtain ⟨c, p, sp, -, hp, hin, -⟩ := hheld x hx
      rw [hin.getPageBySlot] at heq
      obtain rfl := Option.some.inj heq
      rw [htook.owner p, if_neg hq] at hp
      exact hdesc hp
    have hfreed := freeMems_idleNum (s := t) (d := d) hslot
    rw [hfree] at hfreed
    rw [freePages_idleNum, hfreed, hidle q hq hdesc]

/-- **`allocateMem` returns.**  Either the descriptor gets as many slots as it asked
for, or the request is undone. -/
theorem Sound.allocateMem (h : Sound cfg s L) (hnone : ∀ p e, L.owner p ≠ .batch e)
    (hd : Fits cfg d) (r_num : Int) :
    ∃ t res L', allocateMem cfg s d r_num = some (t, res) ∧ Sound cfg t L' ∧
      (∀ p e, L'.owner p ≠ .batch e) ∧
      ((∃ got, res = .ok got ∧ got.length = r_num.toNat ∧ Grant cfg L L' (.desc d) got) ∨
        (res = .error .noSpace ∧ Undone cfg s t L L')) := by
  obtain ⟨old, L₁, got, hold, herr, hsound₁, howner₁, hidle₁, hslots₁, hgrant₁, hcount₁⟩ :=
    h.allocateOld d r_num.toNat
  unfold MemManager.allocateMem
  rw [hold]
  dsimp only
  rw [herr]
  dsimp only
  by_cases hdone : old.t_needNum = 0
  · rw [if_pos hdone]
    refine ⟨_, _, L₁, rfl, hsound₁, by rwa [howner₁], .inl ⟨got, by rw [hslots₁], ?_, hgrant₁⟩⟩
    omega
  · rw [if_neg hdone]
    have hlisted : Listed L₁ d [] := by
      refine ⟨List.nodup_nil, fun p => ?_⟩
      simpa [howner₁] using hnone p d
    obtain ⟨new, pl, L₂, more, hnew, hsound₂, hlisted₂, ⟨taken, htook₁, hidle₂⟩, hslots₂, hgrant₂,
        hcount₂⟩ :=
      hsound₁.allocateFromSpaces (cfg.m_spaceList d) old.t_needNum old.slots [] hd
        (fun name hname => hname) hlisted
    have htook : Took L L₂ d taken := ⟨howner₁ ▸ htook₁.owner, howner₁ ▸ htook₁.free⟩
    unfold MemManager.allocateNew
    rw [hnew]
    dsimp only
    by_cases hneed : new.t_needNum > 0
    · rw [if_pos hneed, hslots₁]
      obtain ⟨t, L₃, hroll, hsound₃, hundone⟩ :=
        h.rollback hsound₂ hgrant₁ hgrant₂ hlisted₂ hnone htook
          (fun q hq hdesc => (hidle₂ q hq).trans (hidle₁ q hdesc)) .noSpace
      exact ⟨t, _, L₃, by rw [hroll], hsound₃, fun p c => by rw [hundone.owner]; exact hnone p c,
        .inr ⟨rfl, hundone⟩⟩
    · rw [if_neg hneed]
      have hadd : addNewPageToDesc cfg new.state d pl =
          some (pl.foldl (addNewPage d) new.state) := by
        simp [addNewPageToDesc, hsound₂.inv.attached_lastPage d,
          hsound₂.inv.attached_lastNotFull d]
      rw [hadd]
      obtain ⟨L₃, hsound₃, hkeeps₃, hnone₃, hdesc, hother⟩ := hsound₂.addNewPages hlisted₂
      have hbatch₁ : ∀ x, ¬ Held cfg L₁ (.batch d) x := fun x =>
        not_held_batch fun p => by rw [howner₁]; exact hnone p d
      -- what is granted from old and from new pages, as seen before the pages are adopted
      have hold₂ : ∀ x ∈ got, Held cfg L₂ (.desc d) x := fun x hx =>
        (hgrant₂.held _ x).mpr (.inl ((hgrant₁.held _ x).mpr (.inr ⟨rfl, hx⟩)))
      have hnew₂ : ∀ x ∈ more, Held cfg L₂ (.batch d) x := fun x hx =>
        (hgrant₂.held _ x).mpr (.inr ⟨rfl, hx⟩)
      have hnone' : ∀ p c, L₃.owner p ≠ .batch c := by
        intro p c hp
        by_cases hc : c = d
        · exact hnone₃ p (hc ▸ hp)
        · exact hnone p c (htook.keepsOthers p c hc (hkeeps₃ p c hc hp))
      refine ⟨_, _, L₃, rfl, hsound₃, hnone', .inl ⟨got ++ more, ?_, ?_, ⟨?_, ?_, ?_⟩⟩⟩
      · rw [hslots₂, hslots₁]
      · rw [List.length_append]
        omega
      · refine List.nodup_append.mpr ⟨hgrant₁.nodup, hgrant₂.nodup, ?_⟩
        intro x hx y hy heq
        subst heq
        cases held_unique (hold₂ x hx) (hnew₂ x hy)
      · intro x hx hheld
        rcases List.mem_append.mp hx with hx | hx
        · exact hgrant₁.fresh x hx hheld
        · have hdesc₂ : Held cfg L₂ (.desc d) x :=
            (hgrant₂.held _ x).mpr (.inl ((hgrant₁.held _ x).mpr (.inl hheld)))
          cases held_unique hdesc₂ (hnew₂ x hx)
      · intro o x
        by_cases hod : o = .desc d
        · subst hod
          have hno := hbatch₁ x
          rw [hdesc x, hgrant₂.held, hgrant₂.held, hgrant₁.held, List.mem_append]
          simp only [reduceCtorEq, false_and, or_false, true_and]
          tauto
        · by_cases hob : o = .batch d
          · subst hob
            refine iff_of_false (not_held_batch hnone₃) ?_
            rintro (hx | ⟨hx, -⟩)
            · exact not_held_batch (fun p => hnone p d) hx
            · cases hx
          · rw [hother o x hod hob, hgrant₂.held, hgrant₁.held]
            simp [hod, hob]

end MemManager
