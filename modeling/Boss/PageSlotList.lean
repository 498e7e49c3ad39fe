import Boss.MemManagerRuns
import Boss.PageSlots

/-!
# The idle list of a page over a run

A page of a table space that `PageMemMgr::f_init` has laid out is cut into slots, and slots are
taken and given back in any order.  `SlotList` says what the header of the page then tells about
its slots: the idle ones are linked from the first to the last, as many as are counted, and with
the ones that are handed out they are the slots that the page was cut into.  `freeMem` finds the
page of a slot by division, and that is always the page it was cut from.

`slotList_of_run` has this for every slot size from the eight bytes of a link to what the page has
behind its header.
-/

namespace PageSlots

open PageInfo Runs MemManager

/-- `PageMemMgr::getPagePosBySlotPos`; the differences of a `size_t` wrap around. -/
def getPagePosBySlotPos (sp : TableSpace) (r_slotPos : Nat) : Nat :=
  let t_offSet :=
    (r_slotPos + (2 ^ 64 - sp.m_sOffSet) + (2 ^ 64 - TableSpace.sizeofPageListInfo)) % 2 ^ 64
  let t_num := t_offSet / sp.m_pageSize
  (sp.m_sOffSet + TableSpace.sizeofPageListInfo + t_num * sp.m_pageSize) % 2 ^ 64

/-- The idle slots in the order `l`, and the slots that the page at `p` was cut into. -/
structure SlotList (sp : TableSpace) (p : ShmPosition) (slotSize : Nat) (s : State)
    (l : List Nat) : Prop where
  links : LinkedChain.Chain (slotNext s.mem p.m_spaceCode) nullPos s.page.m_fIdleSlot l
  last : s.page.m_lIdleSlot = l.getLast?.getD nullPos
  num : s.page.m_idleNum = l.length
  nodup : l.Nodup
  slots : s.page.m_slotNum = (sp.m_pageSize - sizeofPageInfo) / slotSize
  partition : (l ++ s.allocated).Perm ((List.range s.page.m_slotNum).map (slotPos p slotSize))
  cut : ∀ off ∈ l ++ s.allocated, getPagePosBySlotPos sp off = p.m_offSet

variable {sp : TableSpace} {p : ShmPosition} {slotSize off k : Nat} {s t : State}
  {l : List Nat}

/-- A page ends inside of its space. -/
theorem pageOffSet_bound (hk : k < sp.pageNum) : sp.pageOffSet k + sp.m_pageSize ≤ 2 ^ 40 := by
  have hfit : (k + 1) * sp.m_pageSize ≤
      sp.m_size - sp.m_sOffSet - TableSpace.sizeofPageListInfo :=
    (Nat.mul_le_mul_right _ hk).trans (Nat.div_mul_le_self _ _)
  have hheader := sp.header_le
  have hsize := sp.size_le
  rw [Nat.succ_mul] at hfit
  unfold TableSpace.pageOffSet
  unfold TableSpace.sizeofPageListInfo at *
  omega

/-- **Division finds the page of every offset in it.** -/
theorem getPagePosBySlotPos_eq (hk : k < sp.pageNum) (hlow : sp.pageOffSet k ≤ off)
    (hhigh : off < sp.pageOffSet k + sp.m_pageSize) :
    getPagePosBySlotPos sp off = sp.pageOffSet k := by
  have hbound := pageOffSet_bound hk
  have hpage := sp.page_pos
  unfold TableSpace.pageOffSet at hlow hhigh hbound ⊢
  have hdiff : (off + (2 ^ 64 - sp.m_sOffSet) + (2 ^ 64 - TableSpace.sizeofPageListInfo)) %
      2 ^ 64 = off - (sp.m_sOffSet + TableSpace.sizeofPageListInfo) := by
    unfold TableSpace.sizeofPageListInfo at *
    omega
  have hnum : (off - (sp.m_sOffSet + TableSpace.sizeofPageListInfo)) / sp.m_pageSize = k := by
    rw [Nat.div_eq_iff (by omega)]
    omega
  unfold getPagePosBySlotPos
  dsimp only
  rw [hdiff, hnum, Nat.mod_eq_of_lt (by omega)]

/-- What `f_init` writes into the header of a page is enough to cut it. -/
theorem placed_f_init {D : Type*} [DecidableEq D] (s₀ : MemManager.State D) (hk : k < sp.pageNum)
    (hlink : 8 ≤ slotSize) (hfits : slotSize + sizeofPageInfo ≤ sp.m_pageSize) :
    Placed ((f_init s₀ sp).page (pagePos sp k)) (pagePos sp k) sp.m_pageSize slotSize := by
  have hheader := (f_init_ready s₀ sp).header k hk
  exact ⟨hheader.code, hheader.pos, hheader.size, pageOffSet_bound hk, hlink, hfits⟩

/-- The number of slots that the header of a new page has. -/
theorem create_slotNum {page : PageInfo} {mem : Mem} {pageSize : Nat}
    (hp : Placed page p pageSize slotSize) :
    (create page mem p slotSize).page.m_slotNum = (pageSize - sizeofPageInfo) / slotSize := by
  have hheader := hp.header
  have hbound := hp.bound
  change (2 ^ 64 - sizeofPageInfo + page.m_pageSize) % 2 ^ 64 / slotSize = _
  rw [hp.size]
  congr 1
  unfold sizeofPageInfo at hheader ⊢
  omega

/-- All slots of a page are found in it. -/
theorem Sound.slotList (h : Sound (pagePos sp k) sp.m_pageSize slotSize s l) (hk : k < sp.pageNum)
    (hslots : s.page.m_slotNum = (sp.m_pageSize - sizeofPageInfo) / slotSize)
    (hperm : (l ++ s.allocated).Perm
      ((List.range s.page.m_slotNum).map (slotPos (pagePos sp k) slotSize))) :
    SlotList sp (pagePos sp k) slotSize s l := by
  refine ⟨h.idle.queue.1, h.idle.queue.2, h.idle.num, h.idle.nodup, hslots, hperm, ?_⟩
  intro off hoff
  have hslot : IsSlot sp.m_pageSize slotSize (pagePos sp k) off := by
    rcases List.mem_append.mp hoff with hidle | hout
    · exact h.idle.slot off hidle
    · exact h.slot off hout
  obtain ⟨hlow, hhigh⟩ := hslot.range h.placed.header
  have hlink := h.placed.link
  have hstart : (pagePos sp k).m_offSet = sp.pageOffSet k := rfl
  rw [hstart] at hlow hhigh ⊢
  exact getPagePosBySlotPos_eq hk (by omega) (by omega)

/-- **After every run on a page that `f_init` and `initSlotList` have set up, its idle list is
what its header says, and the idle slots and those handed out are the slots of the page.** -/
theorem slotList_of_run {D : Type*} [DecidableEq D] (s₀ : MemManager.State D) (mem : Mem)
    (hk : k < sp.pageNum) (hlink : 8 ≤ slotSize)
    (hfits : slotSize + sizeofPageInfo ≤ sp.m_pageSize) (labels : List Label)
    (hrun : run (step (pagePos sp k) slotSize)
      (create ((f_init s₀ sp).page (pagePos sp k)) mem (pagePos sp k) slotSize) labels = some t) :
    ∃ l, SlotList sp (pagePos sp k) slotSize t l := by
  have hp := placed_f_init s₀ hk hlink hfits
  have hinv := run_invariant
    (I := fun s => ∃ l, Sound (pagePos sp k) sp.m_pageSize slotSize s l ∧
      s.page.m_slotNum = (sp.m_pageSize - sizeofPageInfo) / slotSize ∧
      (l ++ s.allocated).Perm
        ((List.range s.page.m_slotNum).map (slotPos (pagePos sp k) slotSize)))
    (fun s a t hs hstep => by
      obtain ⟨l, h, hslots, hperm⟩ := hs
      obtain ⟨l', h', hsame, hnum⟩ := h.step hstep
      exact ⟨l', h', hnum.trans hslots, by rw [hnum]; exact hsame.trans hperm⟩)
    ⟨_, create_sound hp, create_slotNum hp, by rw [create_slotNum hp, create, List.append_nil]⟩
    hrun
  obtain ⟨l, h, hslots, hperm⟩ := hinv
  exact ⟨l, h.slotList hk hslots hperm⟩

theorem twoPages_pageSize_pos : sizeofPageInfo < 104 := by decide

/-- A space of two pages with three slots of eight bytes each. -/
def twoPages : TableSpace where
  m_spaceName := ['t']
  m_spaceCode := 1
  m_sOffSet := 0
  m_size := 248
  m_pageSize := 104
  code_pos := by decide
  code_lt := by decide
  header_le := by decide
  size_le := by decide
  page_pos := twoPages_pageSize_pos

/-- All slots of the second page are taken, the first two come back, and one is taken again. -/
theorem slotList_twoPages :
    ∃ t, run (step (pagePos twoPages 1) 8)
        (create ((f_init (D := Unit) ⟨fun p => blank p 0, fun _ _ => 0, fun _ => ⟨0, 0, 0⟩,
            fun _ => initPos⟩ twoPages).page (pagePos twoPages 1)) (fun _ _ => 0)
          (pagePos twoPages 1) 8) [.allocate 5, .free 232, .free 224, .allocate 1] = some t ∧
      t.allocated = [240, 232] ∧ ∃ l, SlotList twoPages (pagePos twoPages 1) 8 t l := by
  have hrun : ((run (step (pagePos twoPages 1) 8)
      (create ((f_init (D := Unit) ⟨fun p => blank p 0, fun _ _ => 0, fun _ => ⟨0, 0, 0⟩,
          fun _ => initPos⟩ twoPages).page (pagePos twoPages 1)) (fun _ _ => 0)
        (pagePos twoPages 1) 8) [.allocate 5, .free 232, .free 224, .allocate 1]).map
          (·.allocated)) = some [240, 232] := by
    decide +kernel
  obtain ⟨t, ht, hallocated⟩ := Option.map_eq_some_iff.mp hrun
  exact ⟨t, ht, hallocated,
    slotList_of_run _ _ (by decide) (by decide) (by decide) _ ht⟩

end PageSlots
