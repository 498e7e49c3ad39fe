import Boss.MemManager

/-!
# Who owns which page

`Layout` is what the links in memory stand for: the owner of every page, the pages of
every line (the page list of a descriptor or the free pages of a space), the not-full
pages of every descriptor and the idle slots of every page in use.  `Inv` says that the
memory represents a layout.  It has one part for each kind of link, and each part only
reads the field that holds these links, so that an operation keeps the parts whose
field it does not write.

While `allocateMem` works, the new pages of the batch belong to nobody's list: their
owner is `batch d`.

Main results: `Inv.placed`, `Own.enter` and `Own.leave`.
-/

namespace MemManager

open PageInfo LinkedChain

variable {D : Type*} [DecidableEq D]

/-- Who has a page. -/
inductive Owner (D : Type*) where
  | desc (d : D)
  | batch (d : D)
  | free
  | other
  deriving DecidableEq

/-- The lists that are linked by `m_next`. -/
inductive Line (D : Type*) where
  | desc (d : D)
  | free (code : Nat)
  deriving DecidableEq

structure Layout (D : Type*) where
  owner : ShmPosition → Owner D
  lines : Line D → List ShmPosition
  notFull : D → List ShmPosition
  idle : ShmPosition → List Nat

/-- The position that an offset in a `PageListInfo` stands for. -/
def headPos (code off : Nat) : ShmPosition :=
  if off = nullPos then nullShmPos else ⟨code, off⟩

namespace State

variable (s : State D)

def next (p : ShmPosition) : ShmPosition := (s.page p).m_next
def nextNotFull (p : ShmPosition) : ShmPosition := (s.page p).m_nextNotNullPage
def firstNotFull (d : D) : ShmPosition := (s.desc d).m_firstNotFullPage
def lastNotFull (d : D) : ShmPosition := (s.desc d).m_lastNotFullPage

def firstPage : Line D → ShmPosition
  | .desc d => (s.desc d).m_firstPage
  | .free code => headPos code (s.m_pHeader code).m_fIdlePage

def lastPage : Line D → ShmPosition
  | .desc d => (s.desc d).m_lastPage
  | .free code => headPos code (s.m_pHeader code).m_lIdlePage

end State

/-! ## The geometry of pages and slots -/

variable {cfg : Config D} {p q x : ShmPosition} {sp sp' : TableSpace}

/-- `p` is the position of a page of the attached space `sp`. -/
def IsPage (cfg : Config D) (p : ShmPosition) (sp : TableSpace) : Prop :=
  spaceByCode cfg p.m_spaceCode = some sp ∧ ∃ k < sp.pageNum, p.m_offSet = sp.pageOffSet k

section

omit [DecidableEq D]

/-- A table space that is found by its code is configured and has the code. -/
theorem spaceByCode_some {code : Nat} (h : spaceByCode cfg code = some sp) :
    sp ∈ cfg.m_tableSpaceMgrList ∧ sp.m_spaceCode = code := by
  have hprop := List.find?_some h
  exact ⟨List.mem_of_find?_eq_some h, by simpa using hprop⟩

/-- A configured table space is found by its code. -/
theorem spaceByCode_of_mem (h : sp ∈ cfg.m_tableSpaceMgrList) :
    spaceByCode cfg sp.m_spaceCode = some sp := by
  have hsome : (spaceByCode cfg sp.m_spaceCode).isSome := by
    rw [spaceByCode, List.find?_isSome]
    exact ⟨sp, h, by simp⟩
  obtain ⟨sp', hsp'⟩ := Option.isSome_iff_exists.mp hsome
  obtain ⟨hmem, hcode⟩ := spaceByCode_some hsp'
  rw [hsp', List.inj_on_of_nodup_map cfg.codes_nodup hmem h hcode]

/-- A table space that is found by its name is configured and has the name. -/
theorem spaceByName_some {name : Name} (h : spaceByName cfg name = some sp) :
    sp ∈ cfg.m_tableSpaceMgrList ∧ strcasecmp sp.m_spaceName name = true := by
  have hprop := List.find?_some h
  exact ⟨List.mem_of_find?_eq_some h, by simpa using hprop⟩

/-- A page has the code of its table space. -/
theorem IsPage.code (h : IsPage cfg p sp) : sp.m_spaceCode = p.m_spaceCode :=
  (spaceByCode_some h.1).2

/-- Pages of one code are pages of one table space. -/
theorem IsPage.space_unique (h : IsPage cfg p sp) (h' : IsPage cfg q sp')
    (hcode : q.m_spaceCode = p.m_spaceCode) : sp' = sp := by
  have hsame := h'.1
  rw [hcode, h.1] at hsame
  exact (Option.some.inj hsame).symm

/-- A page is not at the null position. -/
theorem IsPage.ne_null (h : IsPage cfg p sp) : p ≠ nullShmPos := by
  intro heq
  have hcode := h.code
  have hpos := sp.code_pos
  rw [heq] at hcode
  exact absurd hcode (by simp only [nullShmPos]; omega)

/-- The space of a page is attached. -/
theorem IsPage.attached (h : IsPage cfg p sp) : attached cfg p = true := by
  simp [MemManager.attached, h.1]

/-- A page ends inside of its space. -/
theorem IsPage.bound (h : IsPage cfg p sp) : p.m_offSet + sp.m_pageSize ≤ sp.m_size := by
  obtain ⟨-, k, hk, hoff⟩ := h
  have hfit : (k + 1) * sp.m_pageSize ≤ sp.m_size - sp.m_sOffSet - TableSpace.sizeofPageListInfo :=
    (Nat.mul_le_mul_right _ hk).trans (Nat.div_mul_le_self _ _)
  have hheader := sp.header_le
  rw [Nat.succ_mul] at hfit
  unfold TableSpace.pageOffSet at hoff
  unfold TableSpace.sizeofPageListInfo at *
  have hpage := sp.page_pos
  omega

/-- A page has room for its header. -/
theorem IsPage.size (_ : IsPage cfg p sp) : sizeofPageInfo ≤ sp.m_pageSize := sp.page_pos.le

/-- A page does not begin at the null offset or behind it. -/
theorem IsPage.off_lt (h : IsPage cfg p sp) : p.m_offSet < nullPos := by
  have hbound := h.bound
  have hsize := sp.size_le
  have hpage := sp.page_pos
  unfold nullPos
  omega

/-- **Division finds the page of an address.** -/
theorem getPageBySlot_eq (h : IsPage cfg p sp) (hcode : x.m_spaceCode = p.m_spaceCode)
    (hlow : p.m_offSet ≤ x.m_offSet) (hhigh : x.m_offSet < p.m_offSet + sp.m_pageSize) :
    getPageBySlot cfg x = some p := by
  have hbound := h.bound
  have hspace := h.code
  obtain ⟨hsp, k, -, hoff⟩ := h
  have hdiv : (x.m_offSet - sp.m_sOffSet - TableSpace.sizeofPageListInfo) / sp.m_pageSize = k := by
    rw [Nat.div_eq_iff (by have := sp.page_pos; omega)]
    unfold TableSpace.pageOffSet at hoff
    omega
  unfold getPageBySlot
  rw [hcode, hsp]
  simp only [hdiv, ← hoff, hspace]
  rw [if_neg (by omega)]

/-- Different pages do not overlap. -/
theorem IsPage.apart (h : IsPage cfg p sp) (h' : IsPage cfg q sp')
    (hne : q ≠ p) (hcode : q.m_spaceCode = p.m_spaceCode) (off : Nat)
    (hlow : q.m_offSet ≤ off) (hhigh : off < q.m_offSet + sp'.m_pageSize) :
    off < p.m_offSet ∨ p.m_offSet + sp.m_pageSize ≤ off := by
  by_contra hin
  have hp := getPageBySlot_eq (x := ⟨p.m_spaceCode, off⟩) h rfl (by simp only; omega)
    (by simp only; omega)
  have hq := getPageBySlot_eq (x := ⟨p.m_spaceCode, off⟩) h' hcode.symm hlow hhigh
  rw [hp] at hq
  exact hne (Option.some.inj hq).symm

end

/-! ## The parts of the invariant -/

/-- The header of a page says where the page is. -/
structure HeaderOk (page : PageInfo) (p : ShmPosition) (sp : TableSpace) : Prop where
  code : page.m_spaceCode = p.m_spaceCode
  pos : page.m_pos = p.m_offSet
  size : page.m_pageSize = sp.m_pageSize

/-- The lists agree with the owners. -/
structure Own (cfg : Config D) (L : Layout D) : Prop where
  isPage : ∀ p, L.owner p ≠ .other → ∃ sp, IsPage cfg p sp
  desc_iff : ∀ d p, p ∈ L.lines (.desc d) ↔ L.owner p = .desc d
  free_iff : ∀ code p, p ∈ L.lines (.free code) ↔ L.owner p = .free ∧ p.m_spaceCode = code
  notFull_owner : ∀ d, ∀ p ∈ L.notFull d, L.owner p = .desc d

/-- A slot of `d` has room for a link, and a page of the space has room for a slot. -/
def FitsIn (cfg : Config D) (d : D) (sp : TableSpace) : Prop :=
  8 ≤ cfg.m_slotSize d ∧ cfg.m_slotSize d + sizeofPageInfo ≤ sp.m_pageSize

/-- So it is with the pages of every space that the slots of `d` may come from. -/
def Fits (cfg : Config D) (d : D) : Prop :=
  ∀ name ∈ cfg.m_spaceList d, ∀ sp ∈ cfg.m_tableSpaceMgrList,
    strcasecmp sp.m_spaceName name = true → FitsIn cfg d sp

instance (cfg : Config D) (d : D) (sp : TableSpace) : Decidable (FitsIn cfg d sp) :=
  inferInstanceAs (Decidable (_ ∧ _))

instance (cfg : Config D) (d : D) : Decidable (Fits cfg d) :=
  inferInstanceAs (Decidable (∀ name ∈ cfg.m_spaceList d, _))

/-- A page in use by `d` has slots of the length that `d` needs. -/
def UsedBy (L : Layout D) (p : ShmPosition) (d : D) : Prop :=
  L.owner p = .desc d ∨ L.owner p = .batch d

/-- The idle slots of the pages in use. -/
def Slots (cfg : Config D) (mem : Mem) (page : ShmPosition → PageInfo) (L : Layout D) : Prop :=
  ∀ p d sp, IsPage cfg p sp → UsedBy L p d →
    FitsIn cfg d sp ∧
      IdleSlots mem (page p) p sp.m_pageSize (cfg.m_slotSize d) (L.idle p)

/-- **The memory represents the layout.** -/
structure Inv (cfg : Config D) (s : State D) (L : Layout D) : Prop where
  own : Own cfg L
  headers : ∀ p sp, IsPage cfg p sp → HeaderOk (s.page p) p sp
  lines : Queues s.next nullShmPos s.firstPage s.lastPage L.lines
  freeNum : ∀ code, (s.m_pHeader code).m_idleNum = (L.lines (.free code)).length
  notFull : Queues s.nextNotFull nullShmPos s.firstNotFull s.lastNotFull L.notFull
  slots : Slots cfg s.mem s.page L

/-- The not-full pages are those with an idle slot, and full pages link to none. -/
structure Balanced (s : State D) (L : Layout D) : Prop where
  mem_iff : ∀ d p, L.owner p = .desc d → (p ∈ L.notFull d ↔ L.idle p ≠ [])
  full : ∀ d p, L.owner p = .desc d → L.idle p = [] → s.nextNotFull p = nullShmPos

variable {s t : State D} {L L' : Layout D} {d : D}

omit [DecidableEq D] in
/-- The slots of a page lie in the page, if they fit into the pages of its space. -/
theorem Inv.placed (h : Inv cfg s L) (hp : IsPage cfg p sp)
    (hfits : FitsIn cfg d sp) :
    Placed (s.page p) p sp.m_pageSize (cfg.m_slotSize d) := by
  have hheader := h.headers p sp hp
  exact ⟨hheader.code, hheader.pos, hheader.size, hp.bound.trans sp.size_le, hfits.1, hfits.2⟩

omit [DecidableEq D] in
/-- What happens to the slots of one page leaves the slots of the others. -/
theorem Slots.step {mem mem' : Mem} {page page' : ShmPosition → PageInfo}
    (h : Slots cfg mem page L) (hp : IsPage cfg p sp)
    (howner : ∀ q, q ≠ p → L'.owner q = L.owner q) (hidle : ∀ q, q ≠ p → L'.idle q = L.idle q)
    (hpage : ∀ q, q ≠ p → (page' q).m_idleNum = (page q).m_idleNum ∧
      (page' q).m_fIdleSlot = (page q).m_fIdleSlot ∧ (page' q).m_lIdleSlot = (page q).m_lIdleSlot)
    (hmem : SameOutside mem mem' p sp.m_pageSize)
    (hself : ∀ d, UsedBy L' p d → FitsIn cfg d sp ∧
      IdleSlots mem' (page' p) p sp.m_pageSize (cfg.m_slotSize d) (L'.idle p)) :
    Slots cfg mem' page' L' := by
  intro q d sp' hq hused
  by_cases hqp : q = p
  · subst hqp
    obtain rfl := hq.space_unique hp rfl
    exact hself d hused
  · have hused' : UsedBy L q d := by
      unfold UsedBy at hused ⊢
      rwa [howner q hqp] at hused
    obtain ⟨hfits, hslots⟩ := h q d sp' hq hused'
    obtain ⟨hnum, hf, hl⟩ := hpage q hqp
    rw [hidle q hqp]
    refine ⟨hfits, hslots.frame hfits.1 hq.size ?_ hnum hf hl⟩
    intro off hlow hhigh
    apply hmem
    intro hcode
    have hapart := hp.apart hq hqp hcode off hlow hhigh
    omega

/-! ## Single writes -/

section

omit [DecidableEq D]

/-- The header that is written to a page is the one that is read. -/
@[simp] theorem setPage_self (s : State D) (p : ShmPosition) (v : PageInfo) :
    (s.setPage p v).page p = v := by
  simp [State.setPage]

/-- Writing the header of a page leaves those of the others. -/
@[simp] theorem setPage_of_ne (s : State D) {p q : ShmPosition} (v : PageInfo) (h : q ≠ p) :
    (s.setPage p v).page q = s.page q := by
  simp [State.setPage, h]

/-- Writing the header of a page leaves the slots. -/
@[simp] theorem setPage_mem (s : State D) (p : ShmPosition) (v : PageInfo) :
    (s.setPage p v).mem = s.mem := rfl

/-- Writing the header of a page leaves the descriptors. -/
@[simp] theorem setPage_desc (s : State D) (p : ShmPosition) (v : PageInfo) :
    (s.setPage p v).desc = s.desc := rfl

/-- Writing the header of a page leaves the lists of idle pages. -/
@[simp] theorem setPage_header (s : State D) (p : ShmPosition) (v : PageInfo) :
    (s.setPage p v).m_pHeader = s.m_pHeader := rfl

end

/-- Writing a descriptor leaves the pages. -/
@[simp] theorem setDesc_page (s : State D) (d : D) (v : DescPageInfo) :
    (s.setDesc d v).page = s.page := rfl

/-- Writing a descriptor leaves the lists of idle pages. -/
@[simp] theorem setDesc_header (s : State D) (d : D) (v : DescPageInfo) :
    (s.setDesc d v).m_pHeader = s.m_pHeader := rfl

omit [DecidableEq D] in
/-- The next page is the one of the header that was written. -/
theorem next_setPage (s : State D) (p : ShmPosition) (v : PageInfo) :
    (s.setPage p v).next = Function.update s.next p v.m_next := by
  funext q
  by_cases hq : q = p
  · subst hq
    simp [State.next]
  · simp [State.next, hq]

omit [DecidableEq D] in
/-- The next page with room is the one of the header that was written. -/
theorem nextNotFull_setPage (s : State D) (p : ShmPosition) (v : PageInfo) :
    (s.setPage p v).nextNotFull = Function.update s.nextNotFull p v.m_nextNotNullPage := by
  funext q
  by_cases hq : q = p
  · subst hq
    simp [State.nextNotFull]
  · simp [State.nextNotFull, hq]

/-- The first page of a descriptor is the one that was written. -/
theorem firstPage_setDesc (s : State D) (d : D) (v : DescPageInfo) :
    (s.setDesc d v).firstPage = Function.update s.firstPage (.desc d) v.m_firstPage := by
  funext line
  cases line with
  | desc e => by_cases he : e = d <;> simp [State.firstPage, State.setDesc, he]
  | free code => simp [State.firstPage, State.setDesc]

/-- The last page of a descriptor is the one that was written. -/
theorem lastPage_setDesc (s : State D) (d : D) (v : DescPageInfo) :
    (s.setDesc d v).lastPage = Function.update s.lastPage (.desc d) v.m_lastPage := by
  funext line
  cases line with
  | desc e => by_cases he : e = d <;> simp [State.lastPage, State.setDesc, he]
  | free code => simp [State.lastPage, State.setDesc]

/-- The first idle page of a space is the one that was written. -/
theorem firstPage_setHeader (s : State D) (code : Nat) (v : PageListInfo) :
    (s.setHeader code v).firstPage =
      Function.update s.firstPage (.free code) (headPos code v.m_fIdlePage) := by
  funext line
  cases line with
  | desc e => simp [State.firstPage, State.setHeader]
  | free c => by_cases hc : c = code <;> simp [State.firstPage, State.setHeader, hc]

/-- The last idle page of a space is the one that was written. -/
theorem lastPage_setHeader (s : State D) (code : Nat) (v : PageListInfo) :
    (s.setHeader code v).lastPage =
      Function.update s.lastPage (.free code) (headPos code v.m_lIdlePage) := by
  funext line
  cases line with
  | desc e => simp [State.lastPage, State.setHeader]
  | free c => by_cases hc : c = code <;> simp [State.lastPage, State.setHeader, hc]

/-- The first page with room of a descriptor is the one that was written. -/
theorem firstNotFull_setDesc (s : State D) (d : D) (v : DescPageInfo) :
    (s.setDesc d v).firstNotFull = Function.update s.firstNotFull d v.m_firstNotFullPage := by
  funext e
  by_cases he : e = d <;> simp [State.firstNotFull, State.setDesc, he]

/-- The last page with room of a descriptor is the one that was written. -/
theorem lastNotFull_setDesc (s : State D) (d : D) (v : DescPageInfo) :
    (s.setDesc d v).lastNotFull = Function.update s.lastNotFull d v.m_lastNotFullPage := by
  funext e
  by_cases he : e = d <;> simp [State.lastNotFull, State.setDesc, he]

section

omit [DecidableEq D]

/-- Only the header fields that never change and the links of a page matter outside of
its slots: a write that keeps them keeps every other part. -/
theorem headers_setPage (h : Inv cfg s L) {v : PageInfo}
    (hcode : v.m_spaceCode = (s.page p).m_spaceCode) (hpos : v.m_pos = (s.page p).m_pos)
    (hsize : v.m_pageSize = (s.page p).m_pageSize) :
    ∀ q sp, IsPage cfg q sp → HeaderOk ((s.setPage p v).page q) q sp := by
  intro q sp hq
  have hheader := h.headers q sp hq
  by_cases hqp : q = p
  · subst hqp
    rw [setPage_self]
    exact ⟨hcode.trans hheader.code, hpos.trans hheader.pos, hsize.trans hheader.size⟩
  · rwa [setPage_of_ne _ _ hqp]

/-- **New idle slots for one page.** -/
theorem Inv.setSlots (h : Inv cfg s L) (hp : IsPage cfg p sp) (v : PageInfo) (mem : Mem)
    (l : List Nat) (hcode : v.m_spaceCode = (s.page p).m_spaceCode)
    (hpos : v.m_pos = (s.page p).m_pos) (hsize : v.m_pageSize = (s.page p).m_pageSize)
    (hnext : v.m_next = (s.page p).m_next)
    (hnotFull : v.m_nextNotNullPage = (s.page p).m_nextNotNullPage)
    (hmem : SameOutside s.mem mem p sp.m_pageSize)
    (hself : ∀ d, UsedBy L p d → FitsIn cfg d sp ∧
      IdleSlots mem v p sp.m_pageSize (cfg.m_slotSize d) l) :
    Inv cfg { s.setPage p v with mem := mem } { L with idle := Function.update L.idle p l } where
  own := ⟨h.own.isPage, h.own.desc_iff, h.own.free_iff, h.own.notFull_owner⟩
  headers := headers_setPage h hcode hpos hsize
  lines := by
    have hsame : (s.setPage p v).next = s.next := by
      rw [next_setPage, hnext]
      exact Function.update_eq_self p s.next
    exact hsame ▸ h.lines
  freeNum := h.freeNum
  notFull := by
    have hsame : (s.setPage p v).nextNotFull = s.nextNotFull := by
      rw [nextNotFull_setPage, hnotFull]
      exact Function.update_eq_self p s.nextNotFull
    exact hsame ▸ h.notFull
  slots := by
    refine h.slots.step hp (fun q _ => rfl) (fun q hq => Function.update_of_ne hq _ _) ?_ hmem ?_
    · intro q hq
      have hsame : ({ s.setPage p v with mem := mem } : State D).page q = s.page q :=
        setPage_of_ne s v hq
      rw [hsame]
      exact ⟨rfl, rfl, rfl⟩
    · intro d hused
      have hpage : ({ s.setPage p v with mem := mem } : State D).page p = v := setPage_self s p v
      rw [hpage]
      simpa using hself d hused

/-- The slots are not touched when no slot field is written. -/
theorem slots_congr (h : Slots cfg s.mem s.page L) (t : State D) (L' : Layout D)
    (howner : L'.owner = L.owner) (hidle : L'.idle = L.idle) (hmem : t.mem = s.mem)
    (hpage : ∀ q, (t.page q).m_idleNum = (s.page q).m_idleNum ∧
      (t.page q).m_fIdleSlot = (s.page q).m_fIdleSlot ∧
      (t.page q).m_lIdleSlot = (s.page q).m_lIdleSlot) : Slots cfg t.mem t.page L' := by
  intro q d sp hq hused
  unfold UsedBy at hused
  rw [howner] at hused
  obtain ⟨hfits, hslots⟩ := h q d sp hq hused
  obtain ⟨hnum, hf, hl⟩ := hpage q
  rw [hidle]
  refine ⟨hfits, hslots.frame hfits.1 hq.size ?_ hnum hf hl⟩
  intro off _ _
  rw [hmem]

end

/-! ## Lists of pages -/

def Line.owner : Line D → Owner D
  | .desc d => .desc d
  | .free _ => .free

/-- A page that is in no list. -/
def Loose (L : Layout D) (p : ShmPosition) : Prop := L.owner p = .other ∨ ∃ d, L.owner p = .batch d

section

omit [DecidableEq D]

/-- A loose page is in no list. -/
theorem Loose.not_mem (h : Loose L p) (hown : Own cfg L) (line : Line D) : p ∉ L.lines line := by
  intro hmem
  cases line with
  | desc d =>
      have howner := (hown.desc_iff d p).mp hmem
      rcases h with h | ⟨e, h⟩ <;> simp [howner] at h
  | free code =>
      have howner := ((hown.free_iff code p).mp hmem).1
      rcases h with h | ⟨e, h⟩ <;> simp [howner] at h

/-- A loose page is in no list of pages with room. -/
theorem Loose.not_mem_notFull (h : Loose L p) (hown : Own cfg L) (d : D) : p ∉ L.notFull d := by
  intro hmem
  have howner := hown.notFull_owner d p hmem
  rcases h with h | ⟨e, h⟩ <;> simp [howner] at h

/-- A loose page changes its owner and stays loose. -/
theorem Own.setLoose (h : Own cfg L) (hp : IsPage cfg p sp) (hloose : Loose L p) {o : Owner D}
    (ho : o = .other ∨ ∃ d, o = .batch d) :
    Own cfg { L with owner := Function.update L.owner p o } where
  isPage := by
    intro q hq
    by_cases hqp : q = p
    · exact ⟨sp, hqp ▸ hp⟩
    · exact h.isPage q (by simpa [hqp] using hq)
  desc_iff := by
    intro d q
    have hmem := h.desc_iff d q
    by_cases hqp : q = p
    · have hnot := hloose.not_mem h (.desc d)
      subst hqp
      rcases ho with rfl | ⟨e, rfl⟩ <;> simpa using hnot
    · simpa [hqp] using hmem
  free_iff := by
    intro code q
    have hmem := h.free_iff code q
    by_cases hqp : q = p
    · have hnot := hloose.not_mem h (.free code)
      subst hqp
      rcases ho with rfl | ⟨e, rfl⟩ <;> simpa using hnot
    · simpa [hqp] using hmem
  notFull_owner := by
    intro d q hq
    have hqp : q ≠ p := fun heq => hloose.not_mem_notFull h d (heq ▸ hq)
    simpa [hqp] using h.notFull_owner d q hq

end

/-- A loose page enters a list. -/
theorem Own.enter (h : Own cfg L) (hp : IsPage cfg p sp) (hloose : Loose L p) (line : Line D)
    (hline : ∀ code, line = .free code → p.m_spaceCode = code) :
    Own cfg { L with
      owner := Function.update L.owner p line.owner
      lines := Function.update L.lines line (L.lines line ++ [p]) } where
  isPage := by
    intro q hq
    by_cases hqp : q = p
    · exact ⟨sp, hqp ▸ hp⟩
    · exact h.isPage q (by simpa [hqp] using hq)
  desc_iff := by
    intro d q
    have hmem := h.desc_iff d q
    have hnot := hloose.not_mem h (.desc d)
    by_cases hqp : q = p
    · subst hqp
      cases line with
      | desc e =>
          by_cases hde : d = e
          · simp [hde, Line.owner]
          · have hed : e ≠ d := fun heq => hde heq.symm
            simp [Line.owner, hde, hed, hnot]
      | free code => simp [Line.owner, hnot]
    · by_cases hline' : line = .desc d
      · simp [hline', hqp, hmem]
      · have hne : Line.desc d ≠ line := fun heq => hline' heq.symm
        simp [Function.update_of_ne hne, hqp, hmem]
  free_iff := by
    intro code q
    have hmem := h.free_iff code q
    have hnot := hloose.not_mem h (.free code)
    by_cases hqp : q = p
    · subst hqp
      cases line with
      | desc e => simp [Line.owner, hnot]
      | free c =>
          have hcode := hline c rfl
          by_cases hc : code = c
          · simp [hc, Line.owner, hcode]
          · have hcc : c ≠ code := fun heq => hc heq.symm
            simp [Line.owner, hc, hnot, hcode, hcc]
    · by_cases hline' : line = .free code
      · simp [hline', hqp, hmem]
      · have hne : Line.free code ≠ line := fun heq => hline' heq.symm
        simp [Function.update_of_ne hne, hqp, hmem]
  notFull_owner := by
    intro d q hq
    have hqp : q ≠ p := fun heq => hloose.not_mem_notFull h d (heq ▸ hq)
    simpa [hqp] using h.notFull_owner d q hq

/-- The first page of a space leaves its free pages and is loose. -/
theorem Own.leave (h : Own cfg L) {code : Nat} {rest : List ShmPosition}
    (hline : L.lines (.free code) = p :: rest) (hnodup : (p :: rest).Nodup) :
    Own cfg { L with
      owner := Function.update L.owner p .other
      lines := Function.update L.lines (.free code) rest } where
  isPage := by
    intro q hq
    by_cases hqp : q = p
    · simp [hqp] at hq
    · exact h.isPage q (by simpa [hqp] using hq)
  desc_iff := by
    intro d q
    have hmem := h.desc_iff d q
    have hfree := (h.free_iff code p).mp (by simp [hline])
    by_cases hqp : q = p
    · subst hqp
      simp [hmem, hfree.1]
    · simp [hqp, hmem]
  free_iff := by
    intro c q
    have hmem := h.free_iff c q
    have hfree := (h.free_iff code p).mp (by simp [hline])
    have hnot := (List.nodup_cons.mp hnodup).1
    by_cases hqp : q = p
    · subst hqp
      by_cases hc : c = code
      · simp [hc, hnot]
      · have hcc : code ≠ c := fun heq => hc heq.symm
        simp [hc, hmem, hfree.2, hcc]
    · by_cases hc : c = code
      · subst hc
        rw [hline] at hmem
        simpa [hqp] using hmem
      · simpa [hc, hqp] using hmem
  notFull_owner := by
    intro d q hq
    have howner := h.notFull_owner d q hq
    have hfree := (h.free_iff code p).mp (by simp [hline])
    have hqp : q ≠ p := fun heq => by simp [heq, hfree.1] at howner
    simpa [hqp] using howner

end MemManager
