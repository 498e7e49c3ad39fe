import Boss.ByteMemory
import Boss.LinkedChain
import Boss.MdbConstDef
import Mathlib.Data.List.Perm.Subperm

/-!
# Pages and their idle slots

A page starts with a `PageInfo` and is cut into slots of one size.  The idle slots
of a page form a queue inside the page: the first eight bytes of an idle slot hold
the offset of the next one, so the link of a slot is overwritten as soon as the
slot is handed out.  `allocateNode` takes slots off the front, `freeNode` links one
behind the last, and `initSlotList` links all of them in order.

`IdleSlots` says which offsets are queued.  Slots are at least as long as a link,
so writing one link leaves the others as they are.

Main results: `initSlotList_spec`, `allocateNode_spec` and `freeNode_spec`.
-/

open LinkedChain

/-- `PageInfo`, the header of a page. -/
structure PageInfo where
  m_spaceCode : Nat
  m_pos : Nat
  m_next : ShmPosition
  m_nextNotNullPage : ShmPosition
  m_pageSize : Nat
  m_slotSize : Nat
  m_slotNum : Nat
  m_idleNum : Nat
  m_fIdleSlot : Nat
  m_lIdleSlot : Nat
  deriving DecidableEq, Repr

namespace PageInfo

/-- `sizeof(PageInfo)`. -/
def sizeofPageInfo : Nat := 80

/-- `size_t(-1)`, the offset that stands for no slot or page. -/
def nullPos : Nat := 2 ^ 64 - 1

/-- The bytes of the table spaces, by space code and offset. -/
abbrev Mem := Nat → Nat → UInt8

/-- `IdleSlot::m_next` of the slot at an address of a space. -/
def slotNext (mem : Mem) (code addr : Nat) : Nat := ByteMemory.load (mem code) addr 8

/-- `memcpy(&(t_pSlot->m_next),&v,sizeof(size_t))`. -/
def setSlotNext (mem : Mem) (code addr v : Nat) : Mem :=
  Function.update mem code (ByteMemory.store (mem code) addr 8 v)

/-- The loop of `allocateNode`, `r_num - r_newNum` rounds at most; `t_pageAddr` is
where the page lies. -/
def allocateLoop (mem : Mem) (t_pageAddr : ShmPosition) :
    Nat → PageInfo → PageInfo × List ShmPosition
  | 0, page => (page, [])
  | n + 1, page =>
    if page.m_fIdleSlot = nullPos then (page, [])
    else
      let t_addr := t_pageAddr.m_offSet + (page.m_fIdleSlot - page.m_pos)
      let r := allocateLoop mem t_pageAddr n
        { page with
          m_fIdleSlot := slotNext mem t_pageAddr.m_spaceCode t_addr
          m_idleNum := (2 ^ 64 - 1 + page.m_idleNum) % 2 ^ 64 }
      (r.1, ⟨page.m_spaceCode, page.m_fIdleSlot⟩ :: r.2)

/-- `PageInfo::allocateNode`: the page afterwards and the slots handed out. -/
def allocateNode (page : PageInfo) (mem : Mem) (t_pageAddr : ShmPosition) (r_num : Nat) :
    PageInfo × List ShmPosition :=
  if page.m_fIdleSlot = nullPos then (page, [])
  else if page.m_fIdleSlot > page.m_pageSize + page.m_pos then
    ({ page with m_idleNum := 0, m_fIdleSlot := nullPos }, [])
  else
    let r := allocateLoop mem t_pageAddr r_num page
    if r.1.m_idleNum = 0 then
      ({ r.1 with m_fIdleSlot := nullPos, m_lIdleSlot := nullPos }, r.2)
    else r

/-- The loop of `initSlotList` over the remaining slots. -/
def linkSlots (code slotSize : Nat) : Nat → Mem → Nat → Nat → Mem
  | 0, mem, _, _ => mem
  | 1, mem, t_pSlot, _ => setSlotNext mem code t_pSlot nullPos
  | n + 2, mem, t_pSlot, t_offSet =>
    linkSlots code slotSize (n + 1) (setSlotNext mem code t_pSlot (t_offSet + slotSize))
      (t_pSlot + slotSize) (t_offSet + slotSize)

/-- `PageInfo::initSlotList`; the differences of a `size_t` wrap around. -/
def initSlotList (page : PageInfo) (mem : Mem) (t_pageAddr : ShmPosition) (r_slotSize : Nat) :
    PageInfo × Mem :=
  let slotNum := (2 ^ 64 - sizeofPageInfo + page.m_pageSize) % 2 ^ 64 / r_slotSize
  let fIdle := page.m_pos + sizeofPageInfo
  ({ page with
      m_slotSize := r_slotSize
      m_slotNum := slotNum
      m_idleNum := slotNum
      m_fIdleSlot := fIdle
      m_lIdleSlot := (fIdle + (2 ^ 64 - 1 + slotNum) * r_slotSize) % 2 ^ 64 },
    linkSlots t_pageAddr.m_spaceCode r_slotSize slotNum mem
      (t_pageAddr.m_offSet + sizeofPageInfo) fIdle)

/-- `PageInfo::freeNode`. -/
def freeNode (page : PageInfo) (mem : Mem) (t_pageAddr : ShmPosition) (r_slotPos : Nat) :
    PageInfo × Mem :=
  let code := t_pageAddr.m_spaceCode
  let mem := setSlotNext mem code (t_pageAddr.m_offSet + r_slotPos - page.m_pos) nullPos
  if page.m_lIdleSlot = nullPos then
    ({ page with
        m_fIdleSlot := r_slotPos, m_lIdleSlot := r_slotPos
        m_idleNum := (page.m_idleNum + 1) % 2 ^ 64 },
      mem)
  else
    ({ page with m_lIdleSlot := r_slotPos, m_idleNum := (page.m_idleNum + 1) % 2 ^ 64 },
      setSlotNext mem code (t_pageAddr.m_offSet + page.m_lIdleSlot - page.m_pos) r_slotPos)

/-! ## The slots of a page -/

variable {mem other : Mem} {page page' : PageInfo} {p : ShmPosition}
  {pageSize slotSize off off' code addr v : Nat} {l : List Nat}

/-- The offset of the `k`-th slot of the page at `p`. -/
def slotPos (p : ShmPosition) (slotSize k : Nat) : Nat :=
  p.m_offSet + sizeofPageInfo + k * slotSize

/-- `off` is the offset of a slot of the page at `p`. -/
def IsSlot (pageSize slotSize : Nat) (p : ShmPosition) (off : Nat) : Prop :=
  ∃ k < (pageSize - sizeofPageInfo) / slotSize, off = slotPos p slotSize k

/-- A slot lies in the page, behind its header. -/
theorem IsSlot.range (h : IsSlot pageSize slotSize p off) (hpage : sizeofPageInfo ≤ pageSize) :
    p.m_offSet + sizeofPageInfo ≤ off ∧ off + slotSize ≤ p.m_offSet + pageSize := by
  obtain ⟨k, hk, rfl⟩ := h
  have hfit : (k + 1) * slotSize ≤ pageSize - sizeofPageInfo :=
    (Nat.mul_le_mul_right slotSize hk).trans (Nat.div_mul_le_self _ _)
  rw [Nat.succ_mul] at hfit
  unfold slotPos
  omega

/-- A page has no slots of no length. -/
theorem IsSlot.pos (h : IsSlot pageSize slotSize p off) : 0 < slotSize := by
  obtain ⟨k, hk, -⟩ := h
  apply Nat.pos_of_ne_zero
  rintro rfl
  rw [Nat.div_zero] at hk
  exact absurd hk (Nat.not_lt_zero k)

/-- Two slots of a page do not overlap. -/
theorem IsSlot.apart (h : IsSlot pageSize slotSize p off) (h' : IsSlot pageSize slotSize p off')
    (hne : off ≠ off') : off + slotSize ≤ off' ∨ off' + slotSize ≤ off := by
  obtain ⟨j, -, rfl⟩ := h
  obtain ⟨k, -, rfl⟩ := h'
  unfold slotPos at hne ⊢
  rcases Nat.lt_trichotomy j k with hlt | heq | hgt
  · have hmul := Nat.mul_le_mul_right slotSize hlt
    rw [Nat.succ_mul] at hmul
    omega
  · exact absurd (by rw [heq]) hne
  · have hmul := Nat.mul_le_mul_right slotSize hgt
    rw [Nat.succ_mul] at hmul
    omega

/-- The header says where the page lies and how long it is, the page ends below the
largest offset that a position can hold, and a slot holds at least a link. -/
structure Placed (page : PageInfo) (p : ShmPosition) (pageSize slotSize : Nat) : Prop where
  code : page.m_spaceCode = p.m_spaceCode
  pos : page.m_pos = p.m_offSet
  size : page.m_pageSize = pageSize
  bound : p.m_offSet + pageSize ≤ 2 ^ 40
  link : 8 ≤ slotSize
  fits : slotSize + sizeofPageInfo ≤ pageSize

theorem Placed.header (hp : Placed page p pageSize slotSize) : sizeofPageInfo ≤ pageSize :=
  (Nat.le_add_left _ _).trans hp.fits

theorem Placed.slot_lt (hp : Placed page p pageSize slotSize)
    (h : IsSlot pageSize slotSize p off) : off < nullPos ∧ p.m_offSet ≤ off := by
  have hrange := h.range hp.header
  have hbound := hp.bound
  have hlink := hp.link
  unfold nullPos
  omega

/-- The idle slots of a page are queued in the order `l`. -/
structure IdleSlots (mem : Mem) (page : PageInfo) (p : ShmPosition) (pageSize slotSize : Nat)
    (l : List Nat) : Prop where
  queue : Queue (slotNext mem p.m_spaceCode) nullPos page.m_fIdleSlot page.m_lIdleSlot l
  num : page.m_idleNum = l.length
  nodup : l.Nodup
  slot : ∀ off ∈ l, IsSlot pageSize slotSize p off

/-- The memory outside of the slots of the page is the same. -/
def SameOutside (mem other : Mem) (p : ShmPosition) (pageSize : Nat) : Prop :=
  ∀ code x, (code = p.m_spaceCode → x < p.m_offSet + sizeofPageInfo ∨ p.m_offSet + pageSize ≤ x) →
    other code x = mem code x

theorem SameOutside.refl : SameOutside mem mem p pageSize := fun _ _ _ => rfl

theorem SameOutside.trans {third : Mem} (h : SameOutside mem other p pageSize)
    (h' : SameOutside other third p pageSize) : SameOutside mem third p pageSize :=
  fun code x hx => (h' code x hx).trans (h code x hx)

/-- Writing a link of a slot stays inside of the slots of the page. -/
theorem sameOutside_setSlotNext (hp : Placed page p pageSize slotSize)
    (h : IsSlot pageSize slotSize p off) :
    SameOutside mem (setSlotNext mem p.m_spaceCode off v) p pageSize := by
  intro code x hx
  by_cases hcode : code = p.m_spaceCode
  · have hrange := h.range hp.header
    have hlink := hp.link
    have hout := hx hcode
    subst hcode
    rw [setSlotNext, Function.update_self]
    exact ByteMemory.store_outside (by omega)
  · rw [setSlotNext, Function.update_of_ne hcode]

/-- What a written link does to the links of the slots of its page. -/
theorem slotNext_setSlotNext (hp : Placed page p pageSize slotSize)
    (h : IsSlot pageSize slotSize p off) (h' : IsSlot pageSize slotSize p off')
    (hv : v ≤ nullPos) :
    slotNext (setSlotNext mem p.m_spaceCode off v) p.m_spaceCode off' =
      Function.update (slotNext mem p.m_spaceCode) off v off' := by
  by_cases heq : off' = off
  · have hfit : v < 256 ^ 8 := by
      unfold nullPos at hv
      omega
    rw [heq, Function.update_self, slotNext, setSlotNext, Function.update_self,
      ByteMemory.load_store hfit]
  · have hlink := hp.link
    have hapart := h'.apart h heq
    rw [Function.update_of_ne heq, slotNext, setSlotNext, Function.update_self]
    exact ByteMemory.load_store_apart (by omega)

/-- Idle slots survive whatever happens outside of their page. -/
theorem IdleSlots.frame (h : IdleSlots mem page p pageSize slotSize l)
    (hlink : 8 ≤ slotSize) (hsize : sizeofPageInfo ≤ pageSize)
    (hmem : ∀ x, p.m_offSet ≤ x → x < p.m_offSet + pageSize →
      other p.m_spaceCode x = mem p.m_spaceCode x)
    (hnum : page'.m_idleNum = page.m_idleNum) (hf : page'.m_fIdleSlot = page.m_fIdleSlot)
    (hl : page'.m_lIdleSlot = page.m_lIdleSlot) :
    IdleSlots other page' p pageSize slotSize l := by
  refine ⟨?_, hnum.trans h.num, h.nodup, h.slot⟩
  rw [hf, hl]
  refine (queue_congr ?_).mpr h.queue
  intro off hoff
  have hrange := (h.slot off hoff).range hsize
  apply ByteMemory.load_congr
  intro x hlow hhigh
  exact hmem x (by omega) (by omega)

/-- A page has fewer slots than a `size_t` can count. -/
theorem Placed.num_lt (hp : Placed page p pageSize slotSize) :
    (pageSize - sizeofPageInfo) / slotSize < 2 ^ 40 := by
  have hbound := hp.bound
  have hdiv := Nat.div_le_self (pageSize - sizeofPageInfo) slotSize
  unfold sizeofPageInfo at hdiv ⊢
  have := hp.header
  unfold sizeofPageInfo at this
  omega

/-- No more slots are idle than the page has. -/
theorem IdleSlots.length_lt (h : IdleSlots mem page p pageSize slotSize l)
    (hp : Placed page p pageSize slotSize) : l.length < 2 ^ 40 := by
  have hsub : l ⊆ (List.range ((pageSize - sizeofPageInfo) / slotSize)).map
      (slotPos p slotSize) := by
    intro off hoff
    obtain ⟨k, hk, rfl⟩ := h.slot off hoff
    exact List.mem_map_of_mem (List.mem_range.mpr hk)
  have hlen := (h.nodup.subperm hsub).length_le
  rw [List.length_map, List.length_range] at hlen
  exact hlen.trans_lt hp.num_lt

/-! ## The three operations -/

/-- The loop takes slots off the front. -/
theorem allocateLoop_spec (n : Nat) (hcode : page.m_spaceCode = p.m_spaceCode)
    (hpos : page.m_pos = p.m_offSet)
    (hchain : Chain (slotNext mem p.m_spaceCode) nullPos page.m_fIdleSlot l)
    (hnum : page.m_idleNum = l.length) (hlt : l.length < 2 ^ 64)
    (hlow : ∀ off ∈ l, p.m_offSet ≤ off) :
    ∃ fIdle,
      allocateLoop mem p n page =
        ({ page with m_fIdleSlot := fIdle, m_idleNum := (l.drop n).length },
          (l.take n).map fun off => ⟨p.m_spaceCode, off⟩) ∧
      Chain (slotNext mem p.m_spaceCode) nullPos fIdle (l.drop n) := by
  induction n generalizing page l with
  | zero => exact ⟨page.m_fIdleSlot, by simp [allocateLoop, ← hnum], by simpa using hchain⟩
  | succ n ih =>
      cases l with
      | nil =>
          have hfirst : page.m_fIdleSlot = nullPos := hchain
          have hnum' : page.m_idleNum = 0 := by simpa using hnum
          have hsame : { page with m_fIdleSlot := nullPos, m_idleNum := 0 } = page := by
            simp [← hfirst, ← hnum']
          exact ⟨nullPos, by simp [allocateLoop, hfirst, hsame], by simp⟩
      | cons off l =>
          obtain ⟨hfirst, hne, hrest⟩ := hchain
          have haddr : p.m_offSet + (off - page.m_pos) = off := by
            have := hlow off List.mem_cons_self
            omega
          have hlt' : l.length < 2 ^ 64 := (Nat.lt_succ_self _).trans hlt
          have hnum' : (2 ^ 64 - 1 + page.m_idleNum) % 2 ^ 64 = l.length := by
            rw [hnum, List.length_cons]
            omega
          obtain ⟨fIdle, hloop, hchain'⟩ := @ih
            { page with
              m_fIdleSlot := slotNext mem p.m_spaceCode off
              m_idleNum := (2 ^ 64 - 1 + page.m_idleNum) % 2 ^ 64 }
            l hcode hpos hrest hnum' hlt'
            (fun off' hoff' => hlow off' (List.mem_cons_of_mem _ hoff'))
          refine ⟨fIdle, ?_, by simpa using hchain'⟩
          rw [allocateLoop, if_neg (by rwa [hfirst]), hfirst, haddr]
          dsimp only
          rw [hloop]
          simp [hcode]

/-- **`allocateNode` hands out the first idle slots**, as many as are asked for and
there are, and the others stay queued. -/
theorem allocateNode_spec (hp : Placed page p pageSize slotSize)
    (h : IdleSlots mem page p pageSize slotSize l) (n : Nat) :
    ∃ fIdle lIdle,
      allocateNode page mem p n =
        ({ page with
            m_fIdleSlot := fIdle, m_lIdleSlot := lIdle, m_idleNum := (l.drop n).length },
          (l.take n).map fun off => ⟨p.m_spaceCode, off⟩) ∧
      IdleSlots mem { page with
          m_fIdleSlot := fIdle, m_lIdleSlot := lIdle, m_idleNum := (l.drop n).length }
        p pageSize slotSize (l.drop n) := by
  have hidle : ∀ fIdle lIdle, Queue (slotNext mem p.m_spaceCode) nullPos fIdle lIdle (l.drop n) →
      IdleSlots mem { page with
          m_fIdleSlot := fIdle, m_lIdleSlot := lIdle, m_idleNum := (l.drop n).length }
        p pageSize slotSize (l.drop n) := fun fIdle lIdle hqueue =>
    ⟨hqueue, rfl, h.nodup.sublist (List.drop_sublist n l),
      fun off hoff => h.slot off (List.mem_of_mem_drop hoff)⟩
  cases l with
  | nil =>
      obtain ⟨hf, hl⟩ := queue_nil.mp h.queue
      have hnum : page.m_idleNum = 0 := by simpa using h.num
      have hsame : { page with m_fIdleSlot := nullPos, m_lIdleSlot := nullPos, m_idleNum := 0 } =
          page := by
        cases page
        simp_all
      exact ⟨nullPos, nullPos, by simp [allocateNode, hf, hsame], hidle _ _ (by simp)⟩
  | cons off rest =>
      -- the first idle slot lies in the page, so the check against damaged links passes
      have hfirst : page.m_fIdleSlot = off := h.queue.1.1
      have hslot := hp.slot_lt (h.slot off List.mem_cons_self)
      have hrange := (h.slot off List.mem_cons_self).range hp.header
      have hin : ¬ off > page.m_pageSize + page.m_pos := by
        rw [hp.size, hp.pos]
        omega
      have hlt : (off :: rest).length < 2 ^ 64 := (h.length_lt hp).trans (by decide)
      obtain ⟨fIdle, hloop, hchain⟩ := allocateLoop_spec n hp.code hp.pos h.queue.1 h.num hlt
        fun off' hoff' => (hp.slot_lt (h.slot off' hoff')).2
      unfold allocateNode
      rw [if_neg (by omega), if_neg (by rwa [hfirst]), hloop]
      by_cases hall : ((off :: rest).drop n).length = 0
      · rw [if_pos hall]
        exact ⟨nullPos, nullPos, rfl, hidle _ _ (by simp [List.eq_nil_of_length_eq_zero hall])⟩
      · rw [if_neg hall]
        refine ⟨fIdle, page.m_lIdleSlot, rfl, hidle _ _ ⟨hchain, ?_⟩⟩
        rw [List.length_drop] at hall
        rw [h.queue.2, List.getLast?_drop, if_neg (by omega)]

/-- **`freeNode` queues the slot behind the last idle one.** -/
theorem freeNode_spec (hp : Placed page p pageSize slotSize)
    (h : IdleSlots mem page p pageSize slotSize l)
    (hslot : IsSlot pageSize slotSize p off) (hnew : off ∉ l) :
    ∃ fIdle,
      (freeNode page mem p off).1 =
        { page with
          m_fIdleSlot := fIdle, m_lIdleSlot := off, m_idleNum := page.m_idleNum + 1 } ∧
      IdleSlots (freeNode page mem p off).2 (freeNode page mem p off).1 p pageSize slotSize
        (l ++ [off]) ∧
      SameOutside mem (freeNode page mem p off).2 p pageSize := by
  have hoff := hp.slot_lt hslot
  have haddr : p.m_offSet + off - page.m_pos = off := by
    have := hp.pos
    omega
  have hnodup : (l ++ [off]).Nodup := by
    simpa [List.nodup_append] using ⟨h.nodup, fun a ha heq => hnew (heq ▸ ha)⟩
  have hslots : ∀ y ∈ l ++ [off], IsSlot pageSize slotSize p y := by
    intro y hy
    rcases List.mem_append.mp hy with hy | hy
    · exact h.slot y hy
    · rwa [List.mem_singleton.mp hy]
  have hnum : (page.m_idleNum + 1) % 2 ^ 64 = page.m_idleNum + 1 := by
    have hlen := h.length_lt hp
    have := h.num
    omega
  -- the link of the freed slot itself
  let mem₁ := setSlotNext mem p.m_spaceCode off nullPos
  have hlink₁ : ∀ y ∈ l ++ [off], slotNext mem₁ p.m_spaceCode y =
      Function.update (slotNext mem p.m_spaceCode) off nullPos y := fun y hy =>
    slotNext_setSlotNext hp hslot (hslots y hy) le_rfl
  by_cases hlast : page.m_lIdleSlot = nullPos
  · obtain rfl : l = [] := queue_empty (hlast ▸ h.queue)
    have hfree : freeNode page mem p off =
        ({ page with
            m_fIdleSlot := off, m_lIdleSlot := off, m_idleNum := page.m_idleNum + 1 }, mem₁) := by
      simp only [freeNode, hlast, haddr, hnum, mem₁, if_true]
    rw [hfree]
    refine ⟨off, rfl, ⟨queue_push_first hoff.1.ne ?_, by simp [h.num], hnodup, hslots⟩,
      sameOutside_setSlotNext hp hslot⟩
    rw [hlink₁ off (by simp), Function.update_self]
  · -- the link of the slot that was last
    obtain ⟨front, hfront⟩ := queue_last h.queue hlast
    have hlslot : IsSlot pageSize slotSize p page.m_lIdleSlot := h.slot _ (by simp [hfront])
    have hladdr : p.m_offSet + page.m_lIdleSlot - page.m_pos = page.m_lIdleSlot := by
      have := hp.pos
      omega
    let mem₂ := setSlotNext mem₁ p.m_spaceCode page.m_lIdleSlot off
    have hfree : freeNode page mem p off =
        ({ page with m_lIdleSlot := off, m_idleNum := page.m_idleNum + 1 }, mem₂) := by
      simp only [freeNode, hlast, haddr, hladdr, hnum, mem₁, mem₂, if_false]
    rw [hfree]
    refine ⟨page.m_fIdleSlot, rfl, ⟨?_, by simp [h.num], hnodup, hslots⟩,
      (sameOutside_setSlotNext hp hslot).trans (sameOutside_setSlotNext hp hlslot)⟩
    have hqueue₁ : Queue (slotNext mem₁ p.m_spaceCode) nullPos page.m_fIdleSlot
        page.m_lIdleSlot l := by
      refine (queue_congr ?_).mpr h.queue
      intro y hy
      have hne : y ≠ off := fun heq => hnew (heq ▸ hy)
      rw [hlink₁ y (by simp [hy]), Function.update_of_ne hne]
    have hnull : slotNext mem₁ p.m_spaceCode off = nullPos := by
      rw [hlink₁ off (by simp), Function.update_self]
    refine (queue_congr ?_).mpr (queue_push hqueue₁ hlast h.nodup hoff.1.ne hnew hnull)
    intro y hy
    exact slotNext_setSlotNext hp hlslot (hslots y hy) hoff.1.le

theorem slotPos_inj {j k : Nat} (hlink : 8 ≤ slotSize) :
    slotPos p slotSize j = slotPos p slotSize k ↔ j = k := by
  unfold slotPos
  constructor
  · intro heq
    exact Nat.eq_of_mul_eq_mul_right (by omega : 0 < slotSize) (by omega)
  · intro heq
    rw [heq]

theorem slotPos_succ (k : Nat) :
    slotPos p slotSize k + slotSize = slotPos p slotSize (k + 1) := by
  unfold slotPos
  rw [Nat.succ_mul]
  omega

/-- The loop of `initSlotList` links the remaining slots in order and does not touch
the links before. -/
theorem linkSlots_spec (mem : Mem) (hp : Placed page p pageSize slotSize) (n k : Nat)
    (hn : k + n = (pageSize - sizeofPageInfo) / slotSize) :
    let after := linkSlots p.m_spaceCode slotSize n mem (slotPos p slotSize k)
      (slotPos p slotSize k)
    (∀ i < k, slotNext after p.m_spaceCode (slotPos p slotSize i) =
      slotNext mem p.m_spaceCode (slotPos p slotSize i)) ∧
    (∀ i, k ≤ i → i < k + n → slotNext after p.m_spaceCode (slotPos p slotSize i) =
      if i + 1 = k + n then nullPos else slotPos p slotSize (i + 1)) ∧
    SameOutside mem after p pageSize := by
  have hslot : ∀ i < k + n, IsSlot pageSize slotSize p (slotPos p slotSize i) :=
    fun i hi => ⟨i, hn ▸ hi, rfl⟩
  induction n using Nat.twoStepInduction generalizing mem k with
  | zero => exact ⟨fun _ _ => rfl, fun i _ _ => by omega, SameOutside.refl⟩
  | one =>
      refine ⟨fun i hi => ?_, fun i hlow hhigh => ?_, sameOutside_setSlotNext hp (hslot k (by omega))⟩
      · have hne : slotPos p slotSize i ≠ slotPos p slotSize k := by
          rw [Ne, slotPos_inj hp.link]
          omega
        rw [linkSlots, slotNext_setSlotNext hp (hslot k (by omega)) (hslot i (by omega)) le_rfl,
          Function.update_of_ne hne]
      · obtain rfl : i = k := by omega
        rw [linkSlots, slotNext_setSlotNext hp (hslot i (by omega)) (hslot i (by omega)) le_rfl,
          Function.update_self, if_pos rfl]
  | more n _ ih =>
      have hk := hslot k (by omega)
      have hnext := hp.slot_lt (hslot (k + 1) (by omega))
      let mem₁ := setSlotNext mem p.m_spaceCode (slotPos p slotSize k) (slotPos p slotSize (k + 1))
      have hlink : ∀ i < k + (n + 2), slotNext mem₁ p.m_spaceCode (slotPos p slotSize i) =
          Function.update (slotNext mem p.m_spaceCode) (slotPos p slotSize k)
            (slotPos p slotSize (k + 1)) (slotPos p slotSize i) := fun i hi =>
        slotNext_setSlotNext hp hk (hslot i hi) hnext.1.le
      obtain ⟨hbefore, hafter, hsame⟩ := ih mem₁ (k + 1) (by omega)
        (fun i hi => hslot i (by omega))
      simp only [linkSlots, slotPos_succ]
      refine ⟨fun i hi => ?_, fun i hlow hhigh => ?_,
        (sameOutside_setSlotNext hp hk).trans hsame⟩
      · have hne : slotPos p slotSize i ≠ slotPos p slotSize k := by
          rw [Ne, slotPos_inj hp.link]
          omega
        rw [hbefore i (by omega), hlink i (by omega), Function.update_of_ne hne]
      · rcases Nat.eq_or_lt_of_le hlow with heq | hlt
        · subst heq
          rw [hbefore k (by omega), hlink k (by omega), Function.update_self, if_neg (by omega)]
        · rw [hafter i hlt (by omega)]
          simp only [show k + 1 + (n + 1) = k + (n + 2) by omega]

/-- Where a slot fits, nothing wraps around. -/
theorem initSlotList_eq (mem : Mem) (hp : Placed page p pageSize slotSize) {n : Nat}
    (hn : (pageSize - sizeofPageInfo) / slotSize = n + 1) :
    initSlotList page mem p slotSize =
      ({ page with
          m_slotSize := slotSize, m_slotNum := n + 1, m_idleNum := n + 1
          m_fIdleSlot := slotPos p slotSize 0, m_lIdleSlot := slotPos p slotSize n },
        linkSlots p.m_spaceCode slotSize (n + 1) mem (slotPos p slotSize 0)
          (slotPos p slotSize 0)) := by
  have hheader := hp.header
  have hbound := hp.bound
  have hstart : p.m_offSet + sizeofPageInfo = slotPos p slotSize 0 := by
    unfold slotPos
    omega
  have hroom : (2 ^ 64 - sizeofPageInfo + page.m_pageSize) % 2 ^ 64 =
      pageSize - sizeofPageInfo := by
    rw [hp.size]
    unfold sizeofPageInfo at hheader ⊢
    omega
  have hlast : (slotPos p slotSize 0 + (2 ^ 64 - 1 + (n + 1)) * slotSize) % 2 ^ 64 =
      slotPos p slotSize n := by
    have hplace : IsSlot pageSize slotSize p (slotPos p slotSize n) := ⟨n, by omega, rfl⟩
    have hslot := (hp.slot_lt hplace).1
    have hcycle : slotPos p slotSize 0 + (2 ^ 64 - 1 + (n + 1)) * slotSize =
        slotPos p slotSize n + 2 ^ 64 * slotSize := by
      rw [show 2 ^ 64 - 1 + (n + 1) = n + 2 ^ 64 by omega, Nat.add_mul]
      unfold slotPos
      omega
    rw [hcycle, Nat.add_mul_mod_self_left, Nat.mod_eq_of_lt (by unfold nullPos at hslot; omega)]
  unfold initSlotList
  simp only [hroom, hn, hp.pos, hstart, hlast]

/-- **`initSlotList` makes every slot of the page idle.** -/
theorem initSlotList_spec (mem : Mem) (hp : Placed page p pageSize slotSize) :
    let after := initSlotList page mem p slotSize
    after.1 = { page with
      m_slotSize := after.1.m_slotSize, m_slotNum := after.1.m_slotNum
      m_idleNum := after.1.m_idleNum, m_fIdleSlot := after.1.m_fIdleSlot
      m_lIdleSlot := after.1.m_lIdleSlot } ∧
    IdleSlots after.2 after.1 p pageSize slotSize
      ((List.range ((pageSize - sizeofPageInfo) / slotSize)).map (slotPos p slotSize)) ∧
    SameOutside mem after.2 p pageSize := by
  obtain ⟨n, hn⟩ : ∃ n, (pageSize - sizeofPageInfo) / slotSize = n + 1 := by
    have hlink := hp.link
    have hfits := hp.fits
    exact ⟨_, (Nat.succ_pred_eq_of_pos (Nat.div_pos (by omega) (by omega))).symm⟩
  have hslot : ∀ i < n + 1, IsSlot pageSize slotSize p (slotPos p slotSize i) :=
    fun i hi => ⟨i, hn ▸ hi, rfl⟩
  obtain ⟨-, hlinks, hsame⟩ := linkSlots_spec mem hp (n + 1) 0 (by omega)
  simp only [Nat.zero_add, Nat.zero_le, true_implies] at hlinks
  dsimp only
  rw [initSlotList_eq mem hp hn, hn]
  refine ⟨rfl, ⟨⟨?_, ?_⟩, ?_, ?_, ?_⟩, hsame⟩
  · have hnull : ∀ k < n + 1, slotPos p slotSize k ≠ nullPos :=
      fun k hk => (hp.slot_lt (hslot k hk)).1.ne
    have hchain := chain_range (slotPos p slotSize) hnull
      (fun k hk => (hlinks k (by omega)).trans (if_neg (by omega)))
      (fun k hk => (hlinks k (by omega)).trans (if_pos hk))
    rwa [if_neg (Nat.succ_ne_zero n)] at hchain
  · simp [List.range_succ]
  · simp
  · apply List.Nodup.map _ List.nodup_range
    intro j k heq
    exact (slotPos_inj hp.link).mp heq
  · intro off hoff
    obtain ⟨k, hk, rfl⟩ := List.mem_map.mp hoff
    exact hslot k (List.mem_range.mp hk)

end PageInfo
