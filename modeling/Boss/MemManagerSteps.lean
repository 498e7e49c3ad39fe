import Boss.MemManagerLayout

/-!
# What each operation does to the layout

One lemma for each operation on pages: from a memory that represents a layout it leads
to a memory that represents the layout with that page moved, or with that page's idle
slots changed.

Main results: `Inv.allocatePage`, `Inv.freePage` and `Inv.addNewPage`.
-/

namespace MemManager

open PageInfo LinkedChain

variable {D : Type*} [DecidableEq D] {cfg : Config D} {p q x : ShmPosition} {sp sp' : TableSpace}
  {s t : State D} {L L' : Layout D} {d : D}

/-! ## Slots of one page -/

section

omit [DecidableEq D]

/-- `allocateNode` on a page in use takes its first idle slots. -/
theorem Inv.allocateNode (h : Inv cfg s L) (hp : IsPage cfg p sp) (hused : UsedBy L p d)
    (n : Nat) :
    let r := (s.page p).allocateNode s.mem p n
    Inv cfg (s.setPage p r.1)
      { L with idle := Function.update L.idle p ((L.idle p).drop n) } ∧
    r.2 = ((L.idle p).take n).map (fun off => ⟨p.m_spaceCode, off⟩) ∧
    r.1.m_nextNotNullPage = s.nextNotFull p ∧ r.1.m_idleNum = ((L.idle p).drop n).length := by
  obtain ⟨hfits, hslots⟩ := h.slots p d sp hp hused
  obtain ⟨fIdle, lIdle, hr, hidle⟩ := allocateNode_spec (h.placed hp hfits) hslots n
  simp only [hr]
  refine ⟨?_, trivial, rfl, trivial⟩
  refine h.setSlots hp _ s.mem _ rfl rfl rfl rfl rfl SameOutside.refl ?_
  intro e hused'
  -- the owner of a page in use is unique, so `e` is `d`
  have hed : e = d := by
    rcases hused with hd | hd <;> rcases hused' with he | he <;> simp_all
  rw [hed]
  exact ⟨hfits, hidle⟩

/-- `freeNode` on a page in use queues the slot. -/
theorem Inv.freeNode (h : Inv cfg s L) (hp : IsPage cfg p sp) (hused : UsedBy L p d) {off : Nat}
    (hslot : IsSlot sp.m_pageSize (cfg.m_slotSize d) p off) (hnew : off ∉ L.idle p) :
    let r := (s.page p).freeNode s.mem p off
    Inv cfg { s.setPage p r.1 with mem := r.2 }
      { L with idle := Function.update L.idle p (L.idle p ++ [off]) } ∧
    r.1.m_nextNotNullPage = s.nextNotFull p := by
  obtain ⟨hfits, hslots⟩ := h.slots p d sp hp hused
  obtain ⟨fIdle, hr, hidle, hsame⟩ := freeNode_spec (h.placed hp hfits) hslots hslot hnew
  refine ⟨?_, by rw [hr]; rfl⟩
  apply h.setSlots hp _ _ _ (by rw [hr]) (by rw [hr]) (by rw [hr]) (by rw [hr]) (by rw [hr]) hsame
  intro e hused'
  have hed : e = d := by
    rcases hused with hd | hd <;> rcases hused' with he | he <;> simp_all
  rw [hed]
  exact ⟨hfits, hidle⟩

/-- A loose page becomes part of the batch once its slots are linked. -/
theorem Inv.joinBatch (h : Inv cfg s L) (hp : IsPage cfg p sp) (hloose : Loose L p)
    (hfits : FitsIn cfg d sp)
    (hidle : IdleSlots s.mem (s.page p) p sp.m_pageSize (cfg.m_slotSize d) (L.idle p)) :
    Inv cfg s { L with owner := Function.update L.owner p (.batch d) } where
  own := h.own.setLoose hp hloose (.inr ⟨d, rfl⟩)
  headers := h.headers
  lines := h.lines
  freeNum := h.freeNum
  notFull := h.notFull
  slots := by
    refine h.slots.step hp (fun q hq => Function.update_of_ne hq _ _) (fun q _ => rfl)
      (fun q _ => ⟨rfl, rfl, rfl⟩) SameOutside.refl ?_
    intro e hused
    have hed : e = d := by
      rcases hused with he | he
      · simp at he
      · exact (by simpa using he : d = e).symm
    rw [hed]
    exact ⟨hfits, hidle⟩

/-- A page of the batch is given up. -/
theorem Inv.leaveBatch (h : Inv cfg s L) (hp : IsPage cfg p sp) (hloose : Loose L p) :
    Inv cfg s { L with owner := Function.update L.owner p .other } where
  own := h.own.setLoose hp hloose (.inl rfl)
  headers := h.headers
  lines := h.lines
  freeNum := h.freeNum
  notFull := h.notFull
  slots := by
    refine h.slots.step hp (fun q hq => Function.update_of_ne hq _ _) (fun q _ => rfl)
      (fun q _ => ⟨rfl, rfl, rfl⟩) SameOutside.refl ?_
    intro e hused
    rcases hused with he | he <;> simp at he

end

/-! ## The not-full queue -/

/-- The first not-full page leaves the queue. -/
theorem Inv.popNotFull (h : Inv cfg s L) {rest : List ShmPosition}
    (hlist : L.notFull d = p :: rest) :
    Inv cfg
      ((s.setPage p { s.page p with m_nextNotNullPage := nullShmPos }).setDesc d
        { s.desc d with
          m_firstNotFullPage := s.nextNotFull p
          m_lastNotFullPage := if s.nextNotFull p = nullShmPos then nullShmPos
            else (s.desc d).m_lastNotFullPage })
      { L with notFull := Function.update L.notFull d rest } where
  own := by
    refine ⟨h.own.isPage, h.own.desc_iff, h.own.free_iff, ?_⟩
    intro e q hq
    by_cases hed : e = d
    · subst hed
      have hq' : q ∈ rest := by simpa using hq
      exact h.own.notFull_owner e q (by simp [hlist, hq'])
    · exact h.own.notFull_owner e q (by simpa [hed] using hq)
  headers := headers_setPage h rfl rfl rfl
  lines := by
    convert h.lines using 1
    · exact (next_setPage s p _).trans (Function.update_eq_self p s.next)
    · exact (firstPage_setDesc _ d _).trans (Function.update_eq_self _ s.firstPage)
    · exact (lastPage_setDesc _ d _).trans (Function.update_eq_self _ s.lastPage)
  freeNum := h.freeNum
  notFull := by
    have hpop := h.notFull.pop hlist
    have hfresh : ∀ e, p ∉ Function.update L.notFull d rest e := by
      intro e hmem
      by_cases hed : e = d
      · subst hed
        have hnodup := hlist ▸ h.notFull.nodup e
        exact (List.nodup_cons.mp hnodup).1 (by simpa using hmem)
      · exact hed (h.notFull.disjoint e d p (by simpa [hed] using hmem) (by simp [hlist]))
    have hwrite := hpop.write hfresh nullShmPos
    convert hwrite using 1
    · exact nextNotFull_setPage s p _
    · exact firstNotFull_setDesc _ d _
    · exact lastNotFull_setDesc _ d _
  slots := by
    refine slots_congr h.slots _ _ rfl rfl rfl ?_
    intro q
    by_cases hq : q = p
    · subst hq
      simp
    · simp [hq]

/-- A page of the descriptor enters the not-full queue. -/
theorem Inv.addNotFull (h : Inv cfg s L) (howner : L.owner p = .desc d) (hnew : p ∉ L.notFull d)
    (hnull : s.nextNotFull p = nullShmPos) :
    Inv cfg (addNotFull s d p)
      { L with notFull := Function.update L.notFull d (L.notFull d ++ [p]) } ∧
    ∀ q, q ∉ L.notFull d → (addNotFull s d p).nextNotFull q = s.nextNotFull q := by
  obtain ⟨sp, hp⟩ := h.own.isPage p (by simp [howner])
  have hfresh : ∀ e, p ∉ L.notFull e := by
    intro e hmem
    have hown := h.own.notFull_owner e p hmem
    have hed : d = e := by simpa [howner] using hown
    exact hnew (hed ▸ hmem)
  have hpush := h.notFull.push d hp.ne_null hfresh hnull
  have hown : Own cfg { L with notFull := Function.update L.notFull d (L.notFull d ++ [p]) } := by
    refine ⟨h.own.isPage, h.own.desc_iff, h.own.free_iff, ?_⟩
    intro e q hq
    by_cases hed : e = d
    · subst hed
      have hq' : q ∈ L.notFull e ∨ q = p := by simpa using hq
      rcases hq' with hq' | rfl
      · exact h.own.notFull_owner e q hq'
      · exact howner
    · exact h.own.notFull_owner e q (by simpa [hed] using hq)
  by_cases hlast : (s.desc d).m_lastNotFullPage = nullShmPos
  · have hlast' : s.lastNotFull d = nullShmPos := hlast
    simp only [hlast', if_true] at hpush
    have hstate : MemManager.addNotFull s d p = s.setDesc d { s.desc d with
        m_firstNotFullPage := p, m_lastNotFullPage := p } := if_pos hlast
    rw [hstate]
    refine ⟨⟨hown, h.headers, ?_, h.freeNum, ?_, ?_⟩, fun q _ => rfl⟩
    · convert h.lines using 1
      · rfl
      · exact (firstPage_setDesc _ d _).trans (Function.update_eq_self _ s.firstPage)
      · exact (lastPage_setDesc _ d _).trans (Function.update_eq_self _ s.lastPage)
    · convert hpush using 1
      · rfl
      · exact firstNotFull_setDesc _ d _
      · exact lastNotFull_setDesc _ d _
    · exact slots_congr h.slots _ _ rfl rfl rfl fun q => ⟨rfl, rfl, rfl⟩
  · have hlast' : s.lastNotFull d ≠ nullShmPos := hlast
    simp only [hlast', if_false] at hpush
    have hstate : MemManager.addNotFull s d p =
        (s.setPage (s.lastNotFull d) { s.page (s.lastNotFull d) with m_nextNotNullPage := p }).setDesc
          d { s.desc d with m_lastNotFullPage := p } := if_neg hlast
    rw [hstate]
    refine ⟨⟨hown, headers_setPage h rfl rfl rfl, ?_, h.freeNum, ?_, ?_⟩, ?_⟩
    · convert h.lines using 1
      · exact (next_setPage s _ _).trans (Function.update_eq_self _ s.next)
      · exact (firstPage_setDesc _ d _).trans (Function.update_eq_self _ s.firstPage)
      · exact (lastPage_setDesc _ d _).trans (Function.update_eq_self _ s.lastPage)
    · convert hpush using 1
      · exact nextNotFull_setPage s _ _
      · exact firstNotFull_setDesc _ d _
      · exact lastNotFull_setDesc _ d _
    · refine slots_congr h.slots _ _ rfl rfl rfl ?_
      intro q
      by_cases hq : q = s.lastNotFull d <;> simp [hq]
    · intro q hq
      obtain ⟨front, hfront⟩ := queue_last (h.notFull.queue d) hlast'
      have hne : q ≠ s.lastNotFull d := fun heq => hq (by simp [hfront, heq])
      have hnext := nextNotFull_setPage s (s.lastNotFull d)
        { s.page (s.lastNotFull d) with m_nextNotNullPage := p }
      exact (congrFun hnext q).trans (Function.update_of_ne hne _ _)

/-! ## Pages of a space -/

theorem headPos_ne_null {code off : Nat} (h : headPos code off ≠ nullShmPos) :
    off ≠ nullPos ∧ headPos code off = ⟨code, off⟩ := by
  unfold headPos at h ⊢
  by_cases hoff : off = nullPos
  · simp [hoff] at h
  · simp [hoff]

omit [DecidableEq D] in
theorem headPos_page (h : IsPage cfg p sp) : headPos p.m_spaceCode p.m_offSet = p := by
  simp [headPos, h.off_lt.ne]

/-- **`allocatePage` takes the first free page of the space.** -/
theorem Inv.allocatePage (h : Inv cfg s L) {name : Name}
    (halloc : allocatePage cfg s name = some (p, t)) :
    ∃ sp rest, spaceByName cfg name = some sp ∧ IsPage cfg p sp ∧ L.owner p = .free ∧
      Inv cfg t { L with
        owner := Function.update L.owner p .other
        lines := Function.update L.lines (.free p.m_spaceCode) rest } ∧
      t.page = s.page ∧ t.mem = s.mem ∧ t.desc = s.desc := by
  unfold MemManager.allocatePage at halloc
  cases hsp : spaceByName cfg name with
  | none => simp [hsp] at halloc
  | some sp =>
      rw [hsp] at halloc
      dsimp only at halloc
      have hnum := h.freeNum sp.m_spaceCode
      by_cases hzero : (s.m_pHeader sp.m_spaceCode).m_idleNum = 0
      · simp [hzero] at halloc
      · rw [if_neg hzero] at halloc
        obtain ⟨f, rest, hline⟩ : ∃ f rest, L.lines (.free sp.m_spaceCode) = f :: rest :=
          List.exists_cons_of_length_pos (by omega)
        obtain ⟨hfirst, hne, hqueue⟩ := queue_pop (hline ▸ h.lines.queue (.free sp.m_spaceCode))
        obtain ⟨howner, hcode⟩ := (h.own.free_iff sp.m_spaceCode f).mp (by simp [hline])
        obtain ⟨sp', hf⟩ := h.own.isPage f (by simp [howner])
        have hsame : sp' = sp := by
          have hfound := spaceByCode_of_mem (spaceByName_some hsp).1
          have hspace := hf.1
          rw [hcode, hfound] at hspace
          exact (Option.some.inj hspace).symm
        subst hsame
        -- the page that the header names is the first of the line
        have hhead : (⟨sp'.m_spaceCode, (s.m_pHeader sp'.m_spaceCode).m_fIdlePage⟩ : ShmPosition)
            = f := by
          have hfirst' : headPos sp'.m_spaceCode (s.m_pHeader sp'.m_spaceCode).m_fIdlePage = f :=
            hfirst
          have hnot := headPos_ne_null (hfirst' ▸ hne)
          exact hnot.2.symm.trans hfirst'
        rw [hhead] at halloc
        have hpop := h.lines.pop hline
        have hnodup := hline ▸ h.lines.nodup (.free sp'.m_spaceCode)
        have hleave := h.own.leave hline hnodup
        have hrest : (s.m_pHeader sp'.m_spaceCode).m_idleNum - 1 = rest.length := by
          rw [hnum, hline]
          simp
        have hslots : Slots cfg s.mem s.page { L with
            owner := Function.update L.owner f .other
            lines := Function.update L.lines (.free f.m_spaceCode) rest } := by
          refine h.slots.step hf (fun q hq => Function.update_of_ne hq _ _) (fun q _ => rfl)
            (fun q _ => ⟨rfl, rfl, rfl⟩) SameOutside.refl ?_
          intro e hused
          rcases hused with he | he <;> simp at he
        have hlast : s.lastPage (.free sp'.m_spaceCode) =
            headPos sp'.m_spaceCode (s.m_pHeader sp'.m_spaceCode).m_lIdlePage := rfl
        by_cases hnext : (s.page f).m_next = nullShmPos
        · rw [if_pos hnext] at halloc
          obtain ⟨rfl, rfl⟩ := Prod.mk.inj (Option.some.inj halloc)
          refine ⟨sp', rest, rfl, hf, howner, ?_, rfl, rfl, rfl⟩
          refine ⟨hcode ▸ hleave, h.headers, ?_, ?_, h.notFull, hslots⟩
          · have hnext' : s.next f = nullShmPos := hnext
            simp only [hnext', if_true] at hpop
            convert hpop using 1
            · rfl
            · exact (firstPage_setHeader s _ _).trans (by simp [headPos])
            · exact (lastPage_setHeader s _ _).trans (by simp [headPos])
            · simp only [hcode]
          · intro code
            by_cases hc : code = sp'.m_spaceCode
            · simp [hc, State.setHeader, hcode, hrest]
            · simpa [hc, State.setHeader, hcode] using h.freeNum code
        · rw [if_neg hnext] at halloc
          obtain ⟨rfl, rfl⟩ := Prod.mk.inj (Option.some.inj halloc)
          refine ⟨sp', rest, rfl, hf, howner, ?_, rfl, rfl, rfl⟩
          refine ⟨hcode ▸ hleave, h.headers, ?_, ?_, h.notFull, hslots⟩
          · have hnext' : s.next f ≠ nullShmPos := hnext
            simp only [hnext', if_false] at hpop
            -- the next free page is of the same space
            obtain ⟨g, rest', rfl⟩ : ∃ g rest', rest = g :: rest' := by
              cases rest with
              | nil => exact absurd hqueue.1 hnext'
              | cons g rest' => exact ⟨g, rest', rfl⟩
            have hg : s.next f = g := hqueue.1.1
            obtain ⟨hgowner, hgcode⟩ := (h.own.free_iff sp'.m_spaceCode g).mp (by simp [hline])
            obtain ⟨spg, hgpage⟩ := h.own.isPage g (by simp [hgowner])
            have hghead : headPos sp'.m_spaceCode (s.next f).m_offSet = s.next f := by
              rw [hg, ← hgcode]
              exact headPos_page hgpage
            convert hpop using 1
            · rfl
            · refine (firstPage_setHeader s _ _).trans ?_
              exact congrArg _ hghead
            · exact (lastPage_setHeader s _ _).trans (by rw [hlast])
            · simp only [hcode]
          · intro code
            by_cases hc : code = sp'.m_spaceCode
            · simp [hc, State.setHeader, hcode, hrest]
            · simpa [hc, State.setHeader, hcode] using h.freeNum code

theorem headPos_eq_null {code off : Nat} (hcode : 0 < code) :
    headPos code off = nullShmPos ↔ off = nullPos := by
  unfold headPos
  by_cases hoff : off = nullPos
  · simp [hoff]
  · have hne : code ≠ 0 := by omega
    simp [hoff, nullShmPos, hne]

/-- A loose page linked behind the last one of a list, its own link cleared before or
after. -/
theorem Inv.pushLine (h : Inv cfg s L) (hp : IsPage cfg p sp) (hloose : Loose L p)
    (line : Line D) :
    Queues
      (if s.lastPage line = nullShmPos then Function.update s.next p nullShmPos
        else Function.update (Function.update s.next p nullShmPos) (s.lastPage line) p)
      nullShmPos
      (Function.update s.firstPage line
        (if s.lastPage line = nullShmPos then p else s.firstPage line))
      (Function.update s.lastPage line p) (Function.update L.lines line (L.lines line ++ [p])) ∧
    (s.lastPage line ≠ nullShmPos → s.lastPage line ≠ p) := by
  have hfresh : ∀ other, p ∉ L.lines other := fun other => hloose.not_mem h.own other
  have hwrite := h.lines.write hfresh nullShmPos
  refine ⟨hwrite.push line hp.ne_null hfresh (Function.update_self _ _ _), ?_⟩
  intro hlast heq
  obtain ⟨front, hfront⟩ := queue_last (h.lines.queue line) hlast
  exact hfresh line (by simp [hfront, heq])

/-- `t` differs from `s` in `m_next` links and queue heads only. -/
def OnlyNext (s t : State D) : Prop :=
  t.mem = s.mem ∧ ∀ q, t.page q = { s.page q with m_next := (t.page q).m_next }

section

omit [DecidableEq D]

theorem onlyNext_setPage (s : State D) (q : ShmPosition) (v : ShmPosition) :
    OnlyNext s (s.setPage q { s.page q with m_next := v }) := by
  refine ⟨rfl, fun r => ?_⟩
  by_cases hr : r = q
  · subst hr
    simp
  · simp [hr]

theorem OnlyNext.trans {r : State D} (h : OnlyNext s t) (h' : OnlyNext t r) : OnlyNext s r := by
  refine ⟨h'.1.trans h.1, fun q => ?_⟩
  rw [h'.2 q, h.2 q]

theorem OnlyNext.nextNotFull (h : OnlyNext s t) : t.nextNotFull = s.nextNotFull := by
  funext q
  unfold State.nextNotFull
  rw [h.2 q]

theorem OnlyNext.headers (h : OnlyNext s t) (hinv : Inv cfg s L) :
    ∀ q sp, IsPage cfg q sp → HeaderOk (t.page q) q sp := by
  intro q sp hq
  have hheader := hinv.headers q sp hq
  rw [h.2 q]
  exact ⟨hheader.code, hheader.pos, hheader.size⟩

theorem OnlyNext.slotFields (h : OnlyNext s t) (q : ShmPosition) :
    (t.page q).m_idleNum = (s.page q).m_idleNum ∧
      (t.page q).m_fIdleSlot = (s.page q).m_fIdleSlot ∧
      (t.page q).m_lIdleSlot = (s.page q).m_lIdleSlot := by
  rw [h.2 q]
  exact ⟨rfl, rfl, rfl⟩

theorem onlyNext_freePage (s : State D) (p : ShmPosition) : OnlyNext s (freePage cfg s p) := by
  unfold freePage
  cases spaceByCode cfg p.m_spaceCode with
  | none => exact ⟨rfl, fun _ => rfl⟩
  | some sp =>
      dsimp only
      split
      · exact ⟨rfl, fun _ => rfl⟩
      · split
        · exact onlyNext_setPage s p nullShmPos
        · have honly := (onlyNext_setPage s
            ⟨sp.m_spaceCode, (s.m_pHeader sp.m_spaceCode).m_lIdlePage⟩ p).trans
            (onlyNext_setPage _ p nullShmPos)
          exact ⟨honly.1, honly.2⟩

end

/-- **`freePage` queues the page behind the free pages of its space.** -/
theorem Inv.freePage (h : Inv cfg s L) (hp : IsPage cfg p sp) (hother : L.owner p = .other) :
    Inv cfg (freePage cfg s p) { L with
      owner := Function.update L.owner p .free
      lines := Function.update L.lines (.free p.m_spaceCode)
        (L.lines (.free p.m_spaceCode) ++ [p]) } ∧
    (MemManager.freePage cfg s p).nextNotFull = s.nextNotFull := by
  have hloose : Loose L p := .inl hother
  have hcode := hp.code
  have hcpos : 0 < p.m_spaceCode := hcode ▸ sp.code_pos
  have hown := h.own.enter hp hloose (.free p.m_spaceCode) (fun code heq => by injection heq)
  obtain ⟨hpush, hlastne⟩ := h.pushLine hp hloose (.free p.m_spaceCode)
  have hheader : (s.page p).m_pos = p.m_offSet := (h.headers p sp hp).pos
  have hlast : s.lastPage (.free p.m_spaceCode) =
      headPos p.m_spaceCode (s.m_pHeader p.m_spaceCode).m_lIdlePage := rfl
  have hfirst : s.firstPage (.free p.m_spaceCode) =
      headPos p.m_spaceCode (s.m_pHeader p.m_spaceCode).m_fIdlePage := rfl
  have hnum : ∀ code, (Function.update s.m_pHeader p.m_spaceCode
        { (s.m_pHeader p.m_spaceCode) with
          m_idleNum := (s.m_pHeader p.m_spaceCode).m_idleNum + 1 } code).m_idleNum =
      (Function.update L.lines (.free p.m_spaceCode)
        (L.lines (.free p.m_spaceCode) ++ [p]) (.free code)).length := by
    intro code
    by_cases hc : code = p.m_spaceCode
    · simp [hc, h.freeNum]
    · simp [hc, h.freeNum]
  have hslots : ∀ t : State D, OnlyNext s t → Slots cfg t.mem t.page { L with
      owner := Function.update L.owner p .free
      lines := Function.update L.lines (.free p.m_spaceCode)
        (L.lines (.free p.m_spaceCode) ++ [p]) } := by
    intro t ht
    refine h.slots.step hp (fun q hq => Function.update_of_ne hq _ _) (fun q _ => rfl)
      (fun q _ => ht.slotFields q) (ht.1 ▸ SameOutside.refl) ?_
    intro e hused
    rcases hused with he | he <;> simp at he
  unfold MemManager.freePage
  rw [hp.1]
  dsimp only
  rw [hcode, if_neg (by simp [hheader])]
  by_cases hempty : (s.m_pHeader p.m_spaceCode).m_lIdlePage = nullPos
  · rw [if_pos hempty]
    have hnull : s.lastPage (.free p.m_spaceCode) = nullShmPos := by
      rw [hlast, headPos_eq_null hcpos, hempty]
    simp only [hnull, if_true] at hpush
    have honly := onlyNext_setPage s p nullShmPos
    refine ⟨⟨hown, honly.headers h, ?_, ?_, ?_, hslots _ honly⟩, honly.nextNotFull⟩
    · convert hpush using 1
      · exact next_setPage s p _
      · exact (firstPage_setHeader _ _ _).trans (by simp only [headPos_page hp]; rfl)
      · exact (lastPage_setHeader _ _ _).trans (by simp only [headPos_page hp]; rfl)
    · intro code
      rw [← hnum code]
      by_cases hc : code = p.m_spaceCode <;> simp [State.setHeader, hc]
    · have hnotFull := h.notFull
      rw [← honly.nextNotFull] at hnotFull
      exact hnotFull
  · rw [if_neg hempty]
    have hnot : s.lastPage (.free p.m_spaceCode) ≠ nullShmPos := by
      rwa [hlast, Ne, headPos_eq_null hcpos]
    have hprev : (⟨p.m_spaceCode, (s.m_pHeader p.m_spaceCode).m_lIdlePage⟩ : ShmPosition) =
        s.lastPage (.free p.m_spaceCode) := by
      simp [hlast, headPos, hempty]
    have hne := hlastne hnot
    simp only [hnot, if_false] at hpush
    rw [hprev]
    have honly := (onlyNext_setPage s (s.lastPage (.free p.m_spaceCode)) p).trans
      (onlyNext_setPage _ p nullShmPos)
    refine ⟨⟨hown, honly.headers h, ?_, ?_, ?_, hslots _ honly⟩, honly.nextNotFull⟩
    · convert hpush using 1
      · refine (next_setPage _ p _).trans ?_
        rw [next_setPage]
        exact Function.update_comm hne _ _ _
      · refine (firstPage_setHeader _ _ _).trans ?_
        exact congrArg _ hfirst.symm
      · exact (lastPage_setHeader _ _ _).trans (by simp only [headPos_page hp]; rfl)
    · intro code
      rw [← hnum code]
      by_cases hc : code = p.m_spaceCode <;> simp [State.setHeader, hc]
    · have hnotFull := h.notFull
      rw [← honly.nextNotFull] at hnotFull
      exact hnotFull

/-! ## New pages of a descriptor -/

/-- A page of the batch becomes a page of the descriptor. -/
def Layout.link (L : Layout D) (p : ShmPosition) (d : D) : Layout D :=
  { L with
    owner := Function.update L.owner p (.desc d)
    lines := Function.update L.lines (.desc d) (L.lines (.desc d) ++ [p]) }

/-- The same, with its place in the not-full queue. -/
def Layout.adopt (L : Layout D) (p : ShmPosition) (d : D) : Layout D :=
  { L.link p d with
    notFull := if L.idle p = [] then L.notFull
      else Function.update L.notFull d (L.notFull d ++ [p]) }

theorem Inv.linkPage (h : Inv cfg s L) (hbatch : L.owner p = .batch d) :
    Inv cfg (linkPage s d p) (L.link p d) ∧ OnlyNext s (MemManager.linkPage s d p) := by
  obtain ⟨sp, hp⟩ := h.own.isPage p (by simp [hbatch])
  have hloose : Loose L p := .inr ⟨d, hbatch⟩
  have hown := h.own.enter hp hloose (.desc d) (fun code heq => by cases heq)
  obtain ⟨hpush, hlastne⟩ := h.pushLine hp hloose (.desc d)
  have hslots : ∀ t : State D, OnlyNext s t → Slots cfg t.mem t.page (L.link p d) := by
    intro t ht
    refine h.slots.step hp (fun q hq => Function.update_of_ne hq _ _) (fun q _ => rfl)
      (fun q _ => ht.slotFields q) (ht.1 ▸ SameOutside.refl) ?_
    intro e hused
    have hed : e = d := by
      rcases hused with he | he
      · exact (by simpa [Layout.link] using he : d = e).symm
      · simp [Layout.link] at he
    subst hed
    obtain ⟨hfits, hidle⟩ := h.slots p e sp hp (.inr hbatch)
    obtain ⟨hnum, hf, hl⟩ := ht.slotFields p
    exact ⟨hfits, hidle.frame hfits.1 hp.size (fun x _ _ => by rw [ht.1]) hnum hf hl⟩
  have hfree : ∀ code, (s.m_pHeader code).m_idleNum =
      ((L.link p d).lines (.free code)).length := by
    intro code
    simpa [Layout.link] using h.freeNum code
  by_cases hempty : (s.desc d).m_lastPage = nullShmPos
  · have hnull : s.lastPage (.desc d) = nullShmPos := hempty
    simp only [hnull, if_true] at hpush
    have honly := onlyNext_setPage s p nullShmPos
    have hstate : MemManager.linkPage s d p =
        (s.setPage p { s.page p with m_next := nullShmPos }).setDesc d
          { s.desc d with m_firstPage := p, m_lastPage := p } := if_pos hempty
    rw [hstate]
    refine ⟨⟨hown, honly.headers h, ?_, hfree, ?_, hslots _ honly⟩, honly⟩
    · convert hpush using 1
      · exact next_setPage s p _
      · exact firstPage_setDesc _ d _
      · exact lastPage_setDesc _ d _
      · rfl
    · convert h.notFull using 1
      · exact honly.nextNotFull
      · exact (firstNotFull_setDesc _ d _).trans (Function.update_eq_self _ s.firstNotFull)
      · exact (lastNotFull_setDesc _ d _).trans (Function.update_eq_self _ s.lastNotFull)
      · rfl
  · have hnot : s.lastPage (.desc d) ≠ nullShmPos := hempty
    have hne := hlastne hnot
    simp only [hnot, if_false] at hpush
    have honly := (onlyNext_setPage s p nullShmPos).trans
      (onlyNext_setPage _ (s.lastPage (.desc d)) p)
    have hstate : MemManager.linkPage s d p =
        ((s.setPage p { s.page p with m_next := nullShmPos }).setPage (s.lastPage (.desc d))
          { (s.setPage p { s.page p with m_next := nullShmPos }).page (s.lastPage (.desc d)) with
            m_next := p }).setDesc d { s.desc d with m_lastPage := p } := if_neg hempty
    rw [hstate]
    refine ⟨⟨hown, honly.headers h, ?_, hfree, ?_, hslots _ honly⟩, honly⟩
    · convert hpush using 1
      · refine (next_setPage _ (s.lastPage (.desc d)) _).trans ?_
        rw [next_setPage]
      · exact firstPage_setDesc _ d _
      · exact lastPage_setDesc _ d _
      · rfl
    · convert h.notFull using 1
      · exact honly.nextNotFull
      · exact (firstNotFull_setDesc _ d _).trans (Function.update_eq_self _ s.firstNotFull)
      · exact (lastNotFull_setDesc _ d _).trans (Function.update_eq_self _ s.lastNotFull)
      · rfl

omit [DecidableEq D] in
/-- The not-full link of a page that is not queued is free to be cleared. -/
theorem Inv.clearNotFull (h : Inv cfg s L) (hnew : ∀ d, p ∉ L.notFull d) :
    Inv cfg (s.setPage p { s.page p with m_nextNotNullPage := nullShmPos }) L where
  own := h.own
  headers := headers_setPage h rfl rfl rfl
  lines := by
    convert h.lines using 1
    · exact (next_setPage s p _).trans (Function.update_eq_self p s.next)
    · rfl
    · rfl
  freeNum := h.freeNum
  notFull := by
    convert h.notFull.write hnew nullShmPos using 1
    · exact nextNotFull_setPage s p _
    · rfl
    · rfl
  slots := by
    refine slots_congr h.slots _ _ rfl rfl rfl ?_
    intro q
    by_cases hq : q = p
    · subst hq
      simp
    · simp [hq]

/-- **One round of `addNewPageToDesc`.** -/
theorem Inv.addNewPage (h : Inv cfg s L) (hbal : Balanced s L) (hbatch : L.owner p = .batch d) :
    Inv cfg (addNewPage d s p) (L.adopt p d) ∧ Balanced (addNewPage d s p) (L.adopt p d) := by
  obtain ⟨sp, hp⟩ := h.own.isPage p (by simp [hbatch])
  have hloose : Loose L p := .inr ⟨d, hbatch⟩
  have hnew : ∀ e, p ∉ L.notFull e := fun e => hloose.not_mem_notFull h.own e
  obtain ⟨hlink, honly⟩ := h.linkPage hbatch
  have hclear := hlink.clearNotFull (p := p) hnew
  have hnum : (s.page p).m_idleNum = (L.idle p).length :=
    (h.slots p d sp hp (.inr hbatch)).2.num
  have hlinks : ∀ q, ((MemManager.linkPage s d p).setPage p
      { (MemManager.linkPage s d p).page p with m_nextNotNullPage := nullShmPos }).nextNotFull q =
      if q = p then nullShmPos else s.nextNotFull q := by
    intro q
    rw [nextNotFull_setPage, honly.nextNotFull]
    exact Function.update_apply _ _ _ q
  have hnum' : (((MemManager.linkPage s d p).setPage p
      { (MemManager.linkPage s d p).page p with m_nextNotNullPage := nullShmPos }).page p).m_idleNum
      = (L.idle p).length := by
    rw [setPage_self, ← hnum]
    exact (honly.slotFields p).1
  unfold MemManager.addNewPage
  dsimp only
  rw [hnum']
  by_cases hfull : L.idle p = []
  · have hadopt : L.adopt p d = L.link p d := by simp [Layout.adopt, Layout.link, hfull]
    rw [if_pos (by simp [hfull]), hadopt]
    refine ⟨hclear, ?_, ?_⟩
    · intro e q howner
      by_cases hq : q = p
      · subst hq
        simp [Layout.link, hfull, hnew e]
      · exact hbal.mem_iff e q (by simpa [Layout.link, hq] using howner)
    · intro e q howner hidle
      rw [hlinks q]
      by_cases hq : q = p
      · rw [if_pos hq]
      · rw [if_neg hq]
        exact hbal.full e q (by simpa [Layout.link, hq] using howner) hidle
  · rw [if_neg (by simpa using hfull)]
    have howner : (L.link p d).owner p = .desc d := by simp [Layout.link]
    obtain ⟨hadd, hsame⟩ := hclear.addNotFull howner (hnew d) (by rw [hlinks p, if_pos rfl])
    have hadopt : L.adopt p d = { L.link p d with
        notFull := Function.update L.notFull d (L.notFull d ++ [p]) } := by
      simp [Layout.adopt, hfull]
    rw [hadopt]
    refine ⟨hadd, ?_, ?_⟩
    · intro e q hq
      by_cases hqp : q = p
      · subst hqp
        have hed : d = e := by simpa [Layout.link] using hq
        subst hed
        simp [Layout.link, hfull]
      · have hmem := hbal.mem_iff e q (by simpa [Layout.link, hqp] using hq)
        by_cases hed : e = d
        · subst hed
          simpa [Layout.link, hqp] using hmem
        · simpa [Layout.link, hed] using hmem
    · intro e q hq hidle
      have hqp : q ≠ p := fun heq => hfull (by simpa [heq, Layout.link] using hidle)
      have hqown : L.owner q = .desc e := by simpa [Layout.link, hqp] using hq
      have hqnot : q ∉ L.notFull d := by
        intro hmem
        have hed : L.owner q = .desc d := h.own.notFull_owner d q hmem
        exact (hbal.mem_iff d q hed).mp hmem hidle
      rw [hsame q hqnot, hlinks q, if_neg hqp]
      exact hbal.full e q hqown hidle

end MemManager
