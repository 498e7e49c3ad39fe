import Boss.PageInfo
import Boss.RecordConvert
import Boss.Runs

/-!
# The slots of a page over a run

A page of a table is initialised once for the slot size of the table, and then slots are taken
from it and given back, with records written into the ones that are taken.  An idle slot holds
the eight bytes of a link, but the slot size is only compared with the six bytes of a position,
and with the length of the page not at all.

So the links stay in the idle slots, and the slots in the page, exactly for the tables whose
columns take at least eight bytes and no more than the page has behind its header
(`slotsKept_iff`).  With one slot of six bytes behind another, the second link is written over
the end of the first (`not_slotsKept_numberTable`).
-/

namespace PageSlots

open PageInfo Runs RecordConvert

/-! ## Pages and runs -/

/-- A page that `PageMemMgr::init` has set up, which refuses pages without room behind the
header; a position holds offsets below 2^40. -/
structure OnPage (page : PageInfo) (p : ShmPosition) (pageSize : Nat) : Prop where
  code : page.m_spaceCode = p.m_spaceCode
  pos : page.m_pos = p.m_offSet
  size : page.m_pageSize = pageSize

/-- A page between two calls, the bytes of the spaces, and the slots that are handed out. -/
structure State where
  page : PageInfo
  mem : Mem
  allocated : List Nat

inductive Label
  | allocate (r_num : Nat)
  | free (r_slotPos : Nat)
  /-- A byte of a record is written into its slot. -/
  | write (slot i : Nat) (byte : UInt8)

/-- The page when it has been initialised. -/
def create (page : PageInfo) (mem : Mem) (p : ShmPosition) (slotSize : Nat) : State :=
  let r := initSlotList page mem p slotSize
  ⟨r.1, r.2, []⟩

/-- One call; only slots that are handed out are freed or written. -/
def step (p : ShmPosition) (slotSize : Nat) (s : State) : Label → Option State
  | .allocate r_num =>
      let r := allocateNode s.page s.mem p r_num
      some ⟨r.1, s.mem, s.allocated ++ r.2.map (·.m_offSet)⟩
  | .free r_slotPos =>
      if r_slotPos ∈ s.allocated then
        let r := freeNode s.page s.mem p r_slotPos
        some ⟨r.1, r.2, s.allocated.erase r_slotPos⟩
      else none
  | .write slot i byte =>
      if slot ∈ s.allocated ∧ i < slotSize then
        let bytes := Function.update (s.mem p.m_spaceCode) (slot + i) byte
        some { s with mem := Function.update s.mem p.m_spaceCode bytes }
      else none

/-- A byte of the header of the page, or of a slot of the page that is not handed out. -/
def IdleByte (p : ShmPosition) (pageSize slotSize : Nat) (allocated : List Nat) (x : Nat) : Prop :=
  (p.m_offSet ≤ x ∧ x < p.m_offSet + sizeofPageInfo) ∨
    ∃ off, IsSlot pageSize slotSize p off ∧ off ∉ allocated ∧ off ≤ x ∧ x < off + slotSize

/-- Only the header and idle slots change, and the slots that are handed out do not. -/
structure Keeps (p : ShmPosition) (pageSize slotSize : Nat) (allocated : List Nat)
    (mem mem' : Mem) : Prop where
  idle : ∀ code x, mem' code x ≠ mem code x →
    code = p.m_spaceCode ∧ IdleByte p pageSize slotSize allocated x
  allocated : ∀ off ∈ allocated, ∀ x, off ≤ x → x < off + slotSize →
    mem' p.m_spaceCode x = mem p.m_spaceCode x

/-- The slot lies in the page at `p`. -/
def Inside (p : ShmPosition) (pageSize slotSize : Nat) (slot : ShmPosition) : Prop :=
  slot.m_spaceCode = p.m_spaceCode ∧ p.m_offSet ≤ slot.m_offSet ∧
    slot.m_offSet + slotSize ≤ p.m_offSet + pageSize

/-- What a call has to keep to: slots that are handed out lie in the page, and a slot that is
freed leaves the others alone. -/
def StepKeeps (p : ShmPosition) (pageSize slotSize : Nat) (s : State) : Label → Prop
  | .allocate r_num =>
      ∀ slot ∈ (allocateNode s.page s.mem p r_num).2, Inside p pageSize slotSize slot
  | .free r_slotPos => r_slotPos ∈ s.allocated →
      Keeps p pageSize slotSize (s.allocated.erase r_slotPos) s.mem
        (freeNode s.page s.mem p r_slotPos).2
  | .write .. => True

/-- Initialising the page keeps to its slots, and so does every call of every run. -/
def SlotsKept (p : ShmPosition) (pageSize slotSize : Nat) : Prop :=
  ∀ page mem, OnPage page p pageSize →
    Keeps p pageSize slotSize [] mem (create page mem p slotSize).mem ∧
    ∀ labels, Meets (step p slotSize) (StepKeeps p pageSize slotSize)
      (create page mem p slotSize) labels

variable {page : PageInfo} {mem : Mem} {p : ShmPosition} {pageSize slotSize off : Nat}
  {s t : State} {l : List Nat}

/-! ## Which bytes a call writes -/

/-- A link is eight bytes long. -/
theorem setSlotNext_changed {code addr v c x : Nat}
    (h : setSlotNext mem code addr v c x ≠ mem c x) : c = code ∧ addr ≤ x ∧ x < addr + 8 := by
  by_cases hcode : c = code
  · subst hcode
    refine ⟨rfl, ?_⟩
    by_contra hout
    apply h
    rw [setSlotNext, Function.update_self]
    exact ByteMemory.store_outside (by omega)
  · rw [setSlotNext, Function.update_of_ne hcode] at h
    exact absurd rfl h

/-- The loop of `initSlotList` writes one link after another. -/
theorem linkSlots_changed {code c x : Nat} (n : Nat) (mem : Mem) (t_pSlot t_offSet : Nat)
    (h : linkSlots code slotSize n mem t_pSlot t_offSet c x ≠ mem c x) :
    c = code ∧ ∃ i < n, t_pSlot + i * slotSize ≤ x ∧ x < t_pSlot + i * slotSize + 8 := by
  induction n using Nat.twoStepInduction generalizing mem t_pSlot t_offSet with
  | zero => exact absurd rfl h
  | one =>
      obtain ⟨hcode, hrange⟩ := setSlotNext_changed h
      exact ⟨hcode, 0, Nat.one_pos, by simpa using hrange⟩
  | more n _ ih =>
      rw [linkSlots] at h
      by_cases hfirst : setSlotNext mem code t_pSlot (t_offSet + slotSize) c x = mem c x
      · obtain ⟨hcode, i, hi, hrange⟩ := ih _ _ _ (fun heq => h (heq.trans hfirst))
        refine ⟨hcode, i + 1, Nat.succ_lt_succ hi, ?_⟩
        rw [Nat.succ_mul]
        omega
      · obtain ⟨hcode, hrange⟩ := setSlotNext_changed hfirst
        exact ⟨hcode, 0, Nat.succ_pos _, by simpa using hrange⟩

/-- `freeNode` writes the link of the slot and of the one that was last. -/
theorem freeNode_changed {c x : Nat} (hpos : page.m_pos = p.m_offSet)
    (h : (freeNode page mem p off).2 c x ≠ mem c x) :
    c = p.m_spaceCode ∧ ((off ≤ x ∧ x < off + 8) ∨
      page.m_lIdleSlot ≠ nullPos ∧ page.m_lIdleSlot ≤ x ∧ x < page.m_lIdleSlot + 8) := by
  have haddr : ∀ y, p.m_offSet + y - page.m_pos = y := fun y => by omega
  by_cases hlast : page.m_lIdleSlot = nullPos
  · simp only [freeNode, haddr, hlast, if_true] at h
    obtain ⟨hcode, hrange⟩ := setSlotNext_changed h
    exact ⟨hcode, .inl hrange⟩
  · simp only [freeNode, haddr, hlast, if_false] at h
    by_cases hfirst : setSlotNext mem p.m_spaceCode off nullPos c x = mem c x
    · obtain ⟨hcode, hrange⟩ := setSlotNext_changed (fun heq => h (heq.trans hfirst))
      exact ⟨hcode, .inr ⟨hlast, hrange⟩⟩
    · obtain ⟨hcode, hrange⟩ := setSlotNext_changed hfirst
      exact ⟨hcode, .inl hrange⟩

/-! ## Slots that hold a link -/

/-- The idle slots are queued, the others are handed out, and none is both. -/
structure Sound (p : ShmPosition) (pageSize slotSize : Nat) (s : State) (l : List Nat) : Prop where
  placed : Placed s.page p pageSize slotSize
  idle : IdleSlots s.mem s.page p pageSize slotSize l
  slot : ∀ off ∈ s.allocated, IsSlot pageSize slotSize p off
  nodup : (l ++ s.allocated).Nodup

/-- The links of a page that has been initialised lie in its slots. -/
theorem create_keeps (hp : Placed page p pageSize slotSize) :
    Keeps p pageSize slotSize [] mem (create page mem p slotSize).mem := by
  obtain ⟨n, hn⟩ : ∃ n, (pageSize - sizeofPageInfo) / slotSize = n + 1 := by
    have hlink := hp.link
    have hfits := hp.fits
    exact ⟨_, (Nat.succ_pred_eq_of_pos (Nat.div_pos (by omega) (by omega))).symm⟩
  refine ⟨fun code x hx => ?_, fun off hoff => absurd hoff List.not_mem_nil⟩
  rw [create, initSlotList_eq mem hp hn] at hx
  obtain ⟨hcode, i, hi, hlow, hhigh⟩ := linkSlots_changed _ _ _ _ hx
  have hslot : slotPos p slotSize 0 + i * slotSize = slotPos p slotSize i := by
    unfold slotPos
    omega
  have hlink := hp.link
  exact ⟨hcode, .inr ⟨slotPos p slotSize i, ⟨i, hn ▸ hi, rfl⟩, List.not_mem_nil, by omega,
    by omega⟩⟩

/-- At first every slot is idle. -/
theorem create_sound (hp : Placed page p pageSize slotSize) :
    Sound p pageSize slotSize (create page mem p slotSize)
      ((List.range ((pageSize - sizeofPageInfo) / slotSize)).map (slotPos p slotSize)) := by
  obtain ⟨hfields, hidle, -⟩ := initSlotList_spec mem hp
  refine ⟨?_, hidle, fun off hoff => absurd hoff List.not_mem_nil, ?_⟩
  · rw [create, hfields]
    exact ⟨hp.code, hp.pos, hp.size, hp.bound, hp.link, hp.fits⟩
  · rw [create, List.append_nil]
    exact hidle.nodup

namespace Sound

/-- The slots that are handed out are idle ones of the page. -/
theorem allocate_keeps (h : Sound p pageSize slotSize s l) (n : Nat) :
    StepKeeps p pageSize slotSize s (.allocate n) := by
  obtain ⟨fIdle, lIdle, hr, -⟩ := allocateNode_spec h.placed h.idle n
  intro slot hslot
  rw [hr] at hslot
  obtain ⟨off, hoff, rfl⟩ := List.mem_map.mp hslot
  have hrange := (h.idle.slot off (List.mem_of_mem_take hoff)).range h.placed.header
  exact ⟨rfl, by dsimp only; omega, hrange.2⟩

/-- A slot that is handed out does not overlap with a slot that is not. -/
theorem apart {x : Nat} (h : Sound p pageSize slotSize s l) {allocated : List Nat}
    (hsub : ∀ y ∈ allocated, y ∈ s.allocated) (hbyte : IdleByte p pageSize slotSize allocated x)
    (hoff : off ∈ allocated) : x < off ∨ off + slotSize ≤ x := by
  have hslot := h.slot off (hsub off hoff)
  rcases hbyte with hheader | ⟨other, hother, hnot, hlow, hhigh⟩
  · have hrange := hslot.range h.placed.header
    omega
  · have hne : off ≠ other := fun heq => hnot (heq ▸ hoff)
    have hapart := hslot.apart hother hne
    omega

/-- The links that `freeNode` writes lie in idle slots. -/
theorem free_keeps (h : Sound p pageSize slotSize s l) (off : Nat) :
    StepKeeps p pageSize slotSize s (.free off) := by
  intro hoff
  have hslot := h.slot off hoff
  have hlink := h.placed.link
  have hidle : ∀ code x, (freeNode s.page s.mem p off).2 code x ≠ s.mem code x →
      code = p.m_spaceCode ∧ IdleByte p pageSize slotSize (s.allocated.erase off) x := by
    intro code x hx
    obtain ⟨hcode, hfreed | ⟨hlast, hlow, hhigh⟩⟩ := freeNode_changed h.placed.pos hx
    · have hnot : off ∉ s.allocated.erase off := (List.nodup_append.mp h.nodup).2.1.not_mem_erase
      exact ⟨hcode, .inr ⟨off, hslot, hnot, hfreed.1, by omega⟩⟩
    · -- the slot that was last is in the queue, so it is not handed out
      obtain ⟨front, hfront⟩ := LinkedChain.queue_last h.idle.queue hlast
      have hmem : s.page.m_lIdleSlot ∈ l := by simp [hfront]
      have hnot : s.page.m_lIdleSlot ∉ s.allocated.erase off := fun hin =>
        List.disjoint_of_nodup_append h.nodup hmem (List.mem_of_mem_erase hin)
      exact ⟨hcode, .inr ⟨_, h.idle.slot _ hmem, hnot, hlow, by omega⟩⟩
  refine ⟨hidle, fun other hother x hlow hhigh => ?_⟩
  by_contra hne
  have hapart := h.apart (fun y => List.mem_of_mem_erase) (hidle _ x hne).2 hother
  omega

theorem stepKeeps (h : Sound p pageSize slotSize s l) (a : Label) :
    StepKeeps p pageSize slotSize s a := by
  cases a with
  | allocate n => exact h.allocate_keeps n
  | free off => exact h.free_keeps off
  | write slot i byte => trivial

/-- **A call leaves the idle slots queued and the others handed out**, and no slot is lost or
gained. -/
theorem step (h : Sound p pageSize slotSize s l) {a : Label}
    (hstep : PageSlots.step p slotSize s a = some t) :
    ∃ l', Sound p pageSize slotSize t l' ∧ (l' ++ t.allocated).Perm (l ++ s.allocated) ∧
      t.page.m_slotNum = s.page.m_slotNum := by
  cases a with
  | allocate n =>
      obtain ⟨fIdle, lIdle, hr, hidle⟩ := allocateNode_spec h.placed h.idle n
      simp only [PageSlots.step, hr, Option.some.injEq, List.map_map, Function.comp_def,
        List.map_id'] at hstep
      subst hstep
      have hperm : (l.drop n ++ (s.allocated ++ l.take n)).Perm (l ++ s.allocated) := by
        have htake : (l.drop n ++ l.take n).Perm l := by
          simpa using @List.perm_append_comm _ (l.drop n) (l.take n)
        exact (List.perm_append_comm.append_left _).trans
          ((List.append_assoc _ _ _).symm ▸ htake.append_right _)
      refine ⟨l.drop n, ⟨⟨h.placed.code, h.placed.pos, h.placed.size, h.placed.bound,
        h.placed.link, h.placed.fits⟩, hidle, fun off hoff => ?_, hperm.nodup_iff.mpr h.nodup⟩,
        hperm, rfl⟩
      rcases List.mem_append.mp hoff with hoff | hoff
      · exact h.slot off hoff
      · exact h.idle.slot off (List.mem_of_mem_take hoff)
  | free off =>
      rw [PageSlots.step] at hstep
      by_cases hoff : off ∈ s.allocated
      · rw [if_pos hoff, Option.some.injEq] at hstep
        have hnew : off ∉ l := fun hin => List.disjoint_of_nodup_append h.nodup hin hoff
        obtain ⟨fIdle, hpage, hidle, -⟩ := freeNode_spec h.placed h.idle (h.slot off hoff) hnew
        subst hstep
        have hperm : (l ++ [off] ++ s.allocated.erase off).Perm (l ++ s.allocated) := by
          rw [List.append_assoc]
          exact ((List.perm_cons_erase hoff).append_left l).symm
        refine ⟨l ++ [off], ⟨?_, hidle, fun y hy => h.slot y (List.mem_of_mem_erase hy),
          hperm.nodup_iff.mpr h.nodup⟩, hperm, ?_⟩
        · dsimp only
          rw [hpage]
          exact ⟨h.placed.code, h.placed.pos, h.placed.size, h.placed.bound, h.placed.link,
            h.placed.fits⟩
        · dsimp only
          rw [hpage]
      · rw [if_neg hoff] at hstep
        cases hstep
  | write slot i byte =>
      rw [PageSlots.step] at hstep
      by_cases hin : slot ∈ s.allocated ∧ i < slotSize
      · rw [if_pos hin, Option.some.injEq] at hstep
        subst hstep
        refine ⟨l, ⟨h.placed, ⟨?_, h.idle.num, h.idle.nodup, h.idle.slot⟩, h.slot, h.nodup⟩,
          List.Perm.refl _, rfl⟩
        refine (LinkedChain.queue_congr fun off hoff => ?_).mpr h.idle.queue
        have hne : off ≠ slot := fun heq =>
          List.disjoint_of_nodup_append h.nodup (heq ▸ hoff) hin.1
        have hapart := (h.idle.slot off hoff).apart (h.slot slot hin.1) hne
        have hlink := h.placed.link
        refine ByteMemory.load_congr fun y hlow hhigh => ?_
        dsimp only
        rw [Function.update_self, Function.update_of_ne (by omega)]
      · rw [if_neg hin] at hstep
        cases hstep

end Sound

/-- **Where a slot holds a link and fits, every run keeps to the idle slots.** -/
theorem slotsKept_of_link (hbound : p.m_offSet + pageSize ≤ 2 ^ 40) (hlink : 8 ≤ slotSize)
    (hfits : slotSize + sizeofPageInfo ≤ pageSize) : SlotsKept p pageSize slotSize := by
  intro page mem hpage
  have hp : Placed page p pageSize slotSize :=
    ⟨hpage.code, hpage.pos, hpage.size, hbound, hlink, hfits⟩
  refine ⟨create_keeps hp, fun labels => ?_⟩
  apply meets_of_invariant (I := fun s => ∃ l, Sound p pageSize slotSize s l)
  · intro s a t hs hstep
    obtain ⟨l, h⟩ := hs
    obtain ⟨l', h', -⟩ := h.step hstep
    exact ⟨l', h'⟩
  · intro s a hs
    obtain ⟨l, h⟩ := hs
    exact h.stepKeeps a
  · exact ⟨_, create_sound hp⟩

/-! ## Slots that do not -/

/-- A page as `PageMemMgr::init` leaves it. -/
def blank (p : ShmPosition) (pageSize : Nat) : PageInfo :=
  ⟨p.m_spaceCode, p.m_offSet, p, p, pageSize, 0, 0, 0, 0, 0⟩

theorem onPage_blank : OnPage (blank p pageSize) p pageSize := ⟨rfl, rfl, rfl⟩

/-- Every byte of the last link is set. -/
theorem linkSlots_last {code : Nat} (hshort : slotSize < 8) (n : Nat) (mem : Mem)
    (t_pSlot t_offSet : Nat) :
    linkSlots code slotSize (n + 1) mem t_pSlot t_offSet code
      (t_pSlot + (n + 1) * slotSize) = 255 := by
  induction n generalizing mem t_pSlot t_offSet with
  | zero =>
      rw [linkSlots, setSlotNext, Function.update_self, ByteMemory.store, if_pos (by omega),
        Nat.zero_add, Nat.one_mul, Nat.add_sub_cancel_left]
      have hset : ∀ i < 8, UInt8.ofNat (nullPos / 256 ^ i) = 255 := by decide
      exact hset slotSize hshort
  | succ n ih =>
      have hnext : t_pSlot + (n + 1 + 1) * slotSize = t_pSlot + slotSize + (n + 1) * slotSize := by
        rw [Nat.succ_mul]
        omega
      rw [linkSlots, hnext]
      exact ih _ _ _

theorem create_mem : (create page mem p slotSize).mem =
    linkSlots p.m_spaceCode slotSize
      ((2 ^ 64 - sizeofPageInfo + page.m_pageSize) % 2 ^ 64 / slotSize) mem
      (p.m_offSet + sizeofPageInfo) (page.m_pos + sizeofPageInfo) := rfl

/-- How many slots `initSlotList` finds room for. -/
theorem slotNum_eq (hheader : sizeofPageInfo < pageSize) (hbound : p.m_offSet + pageSize ≤ 2 ^ 40) :
    (2 ^ 64 - sizeofPageInfo + pageSize) % 2 ^ 64 = pageSize - sizeofPageInfo := by
  unfold sizeofPageInfo at hheader ⊢
  omega

/-- The first slot of a new page is handed out, and then whatever its bytes are as a link. -/
theorem create_allocate (hpage : OnPage page p pageSize) (hheader : sizeofPageInfo < pageSize)
    (hbound : p.m_offSet + pageSize ≤ 2 ^ 40) (n : Nat) :
    let s := create page mem p slotSize
    ∃ page', page'.m_spaceCode = p.m_spaceCode ∧
      page'.m_fIdleSlot = slotNext s.mem p.m_spaceCode (p.m_offSet + sizeofPageInfo) ∧
      (allocateNode s.page s.mem p (n + 1)).2 =
        ⟨p.m_spaceCode, p.m_offSet + sizeofPageInfo⟩ :: (allocateLoop s.mem p n page').2 := by
  intro s
  have hfirst : s.page.m_fIdleSlot = p.m_offSet + sizeofPageInfo := by
    rw [← hpage.pos]
    rfl
  have hpos : s.page.m_pos = p.m_offSet := hpage.pos
  have hsize : s.page.m_pageSize = pageSize := hpage.size
  have hcode : s.page.m_spaceCode = p.m_spaceCode := hpage.code
  have hnull : ¬ s.page.m_fIdleSlot = nullPos := by
    rw [hfirst]
    unfold nullPos
    omega
  have haddr : p.m_offSet + (s.page.m_fIdleSlot - s.page.m_pos) = p.m_offSet + sizeofPageInfo := by
    omega
  refine ⟨{ s.page with
    m_fIdleSlot := slotNext s.mem p.m_spaceCode (p.m_offSet + sizeofPageInfo)
    m_idleNum := (2 ^ 64 - 1 + s.page.m_idleNum) % 2 ^ 64 }, hcode, rfl, ?_⟩
  rw [allocateNode, if_neg hnull, if_neg (by omega), allocateLoop, if_neg hnull, haddr, ← hfirst,
    ← hcode]
  dsimp only
  split <;> rfl

/-- **The last link of slots that are too short goes beyond them.** -/
theorem not_slotsKept_of_short (hheader : sizeofPageInfo < pageSize)
    (hbound : p.m_offSet + pageSize ≤ 2 ^ 40) (hpos : 0 < slotSize) (hshort : slotSize < 8)
    (hfits : slotSize + sizeofPageInfo ≤ pageSize) : ¬ SlotsKept p pageSize slotSize := by
  intro hkept
  obtain ⟨n, hn⟩ : ∃ n, (pageSize - sizeofPageInfo) / slotSize = n + 1 :=
    ⟨_, (Nat.succ_pred_eq_of_pos (Nat.div_pos (by omega) hpos)).symm⟩
  have hkeeps := (hkept _ (fun _ _ => 0) onPage_blank).1
  have hbyte : (create (blank p pageSize) (fun _ _ => 0) p slotSize).mem p.m_spaceCode
      (p.m_offSet + sizeofPageInfo + (n + 1) * slotSize) = 255 := by
    rw [create_mem, blank, slotNum_eq hheader hbound, hn]
    exact linkSlots_last hshort n _ _ _
  obtain ⟨-, hidle⟩ := hkeeps.idle p.m_spaceCode _ (by rw [hbyte]; decide)
  rcases hidle with hin | ⟨off, ⟨k, hk, rfl⟩, -, -, hhigh⟩
  · omega
  · rw [hn] at hk
    have hmul := Nat.mul_le_mul_right slotSize hk
    rw [Nat.succ_mul] at hmul
    unfold slotPos at hhigh
    omega

/-- **A slot that does not fit into its page is handed out all the same.** -/
theorem not_slotsKept_of_long (hheader : sizeofPageInfo < pageSize)
    (hbound : p.m_offSet + pageSize ≤ 2 ^ 40) (hlong : pageSize < slotSize + sizeofPageInfo) :
    ¬ SlotsKept p pageSize slotSize := by
  intro hkept
  have hmeets := ((hkept _ (fun _ _ => 0) onPage_blank).2 [.allocate 1]).1
  obtain ⟨page', -, -, hfirst⟩ := create_allocate onPage_blank hheader hbound 0
  have hinside := hmeets _ (hfirst ▸ List.mem_cons_self)
  have hend := hinside.2.2
  dsimp only at hend
  omega

/-! ## Slots of a table -/

/-- An `int` as a `size_t`. -/
def sizeT (n : Int) : Nat := (if n < 0 then 2 ^ 64 + n else n).toNat

/-- The slot size that a page of the table is initialised with. -/
def slotSizeOf (t : TableDef) : Nat := sizeT (initByTableDef t).m_slotSize

theorem slotSizeOf_supported {t : TableDef} (h : t.Supported) :
    slotSizeOf t = t.width + (6 - t.width) := by
  obtain ⟨-, hsize, hrecord, -⟩ := initByTableDef_spec h
  rw [slotSizeOf, hsize, sizeT, if_neg (Int.not_lt.mpr (Int.natCast_nonneg _)), Int.toNat_natCast]
  exact hrecord

/-- A column of a type that is not known ends `getSlotSize` with -1. -/
theorem placeColumns_unknown {cs : List ColumnDef} (h : ∃ c ∈ cs, c.m_type = .UNKNOW) (a : Nat) :
    (placeColumns a cs).2 = -1 := by
  induction cs generalizing a with
  | nil =>
      obtain ⟨c, hc, -⟩ := h
      exact absurd hc List.not_mem_nil
  | cons c cs ih =>
      rw [placeColumns]
      cases hlen : c.slotLen with
      | none => rfl
      | some n =>
          obtain ⟨d, hd, htype⟩ := h
          rcases List.mem_cons.mp hd with rfl | hd
          · rw [ColumnDef.slotLen, htype] at hlen
            cases hlen
          · exact ih ⟨d, hd, htype⟩ _

/-- As a size it is larger than every page. -/
theorem slotSizeOf_unknown {t : TableDef} (h : ¬ t.Supported) : slotSizeOf t = 2 ^ 64 - 1 := by
  unfold TableDef.Supported at h
  push Not at h
  have hsize := placeColumns_unknown h 0
  rw [slotSizeOf, initByTableDef, TableDef.getSlotSize]
  dsimp only
  rw [hsize]
  rfl

/-- **The free list keeps to the idle slots of a page, and the slots to the page, exactly when the
columns of the table have known types and take at least the eight bytes of a link and at most
what the page has behind its header.** -/
theorem slotsKept_iff {t : TableDef} (hheader : sizeofPageInfo < pageSize)
    (hbound : p.m_offSet + pageSize ≤ 2 ^ 40) :
    SlotsKept p pageSize (slotSizeOf t) ↔
      t.Supported ∧ 8 ≤ t.width ∧ t.width + sizeofPageInfo ≤ pageSize := by
  constructor
  · intro hkept
    have hfits : slotSizeOf t + sizeofPageInfo ≤ pageSize := by
      by_contra hlong
      exact not_slotsKept_of_long hheader hbound (by omega) hkept
    have hsupported : t.Supported := by
      by_contra hunknown
      rw [slotSizeOf_unknown hunknown] at hfits
      omega
    have hsize := slotSizeOf_supported hsupported
    have hlink : 8 ≤ slotSizeOf t := by
      by_contra hshort
      exact not_slotsKept_of_short hheader hbound (by omega) (by omega) hfits hkept
    exact ⟨hsupported, by omega, by omega⟩
  · intro h
    obtain ⟨hsupported, hlink, hfits⟩ := h
    have hsize := slotSizeOf_supported hsupported
    exact slotsKept_of_link hbound (by omega) (by omega)

/-- A table with one number of eight bytes. -/
def longTable : TableDef := ⟨[⟨['i', 'd'], .LONG, 8, 0⟩]⟩

theorem slotsKept_longTable : longTable.Supported ∧ SlotsKept ⟨0, 1000⟩ (2 ^ 20)
    (slotSizeOf longTable) := by
  have hsupported : longTable.Supported := by
    intro c hc
    rw [longTable, List.mem_singleton] at hc
    subst hc
    decide
  exact ⟨hsupported,
    (slotsKept_iff (by decide) (by decide)).mpr ⟨hsupported, by decide, by decide⟩⟩

/-- A table with one number of four bytes. -/
def numberTable : TableDef := ⟨[⟨['i', 'd'], .INT, 4, 0⟩]⟩

/-- The bytes of two links, the second over the end of the first, and what they are read as. -/
theorem load_overlap (m : Nat → UInt8) :
    ByteMemory.load (ByteMemory.store (ByteMemory.store m 1080 8 1086) 1086 8 1092) 1080 8 =
      1086 + 1092 * 2 ^ 48 := by
  simp [ByteMemory.load, ByteMemory.store]

/-- The first two links of three or more slots of six bytes. -/
theorem linkSlots_two (mem : Mem) (n x : Nat) (hx : x < 1092) :
    linkSlots 0 6 (n + 3) mem 1080 1080 0 x =
      ByteMemory.store (ByteMemory.store (mem 0) 1080 8 1086) 1086 8 1092 x := by
  rw [linkSlots, linkSlots]
  generalize hwritten : setSlotNext (setSlotNext mem 0 1080 (1080 + 6)) 0 (1080 + 6)
    (1080 + 6 + 6) = written
  have hrest : linkSlots 0 6 (n + 1) written (1080 + 6 + 6) (1080 + 6 + 6) 0 x = written 0 x := by
    by_contra hne
    obtain ⟨-, i, -, hlow, -⟩ := linkSlots_changed _ _ _ _ hne
    omega
  rw [hrest, ← hwritten, setSlotNext, setSlotNext, Function.update_self, Function.update_self]

/-- A new page of a megabyte with slots of six bytes. -/
def shortSlots : State :=
  create (blank ⟨0, 1000⟩ (2 ^ 20)) (fun _ _ => 0) ⟨0, 1000⟩ 6

/-- Of two slots that are taken from it, the second one lies far behind the page: the last two
bytes of the link to it have been written over by the next link. -/
theorem shortSlots_allocate :
    (allocateNode shortSlots.page shortSlots.mem ⟨0, 1000⟩ 2).2 =
      [⟨0, 1080⟩, ⟨0, 1086 + 1092 * 2 ^ 48⟩] := by
  have hslots : (2 ^ 64 - sizeofPageInfo + 2 ^ 20) % 2 ^ 64 / 6 = 174746 + 3 := by decide
  have hstart : 1000 + sizeofPageInfo = 1080 := by decide
  have hmem : shortSlots.mem =
      linkSlots 0 6 ((2 ^ 64 - sizeofPageInfo + 2 ^ 20) % 2 ^ 64 / 6) (fun _ _ => 0)
        (1000 + sizeofPageInfo) (1000 + sizeofPageInfo) := create_mem
  rw [hslots, hstart] at hmem
  have hlink : slotNext shortSlots.mem 0 1080 = 1086 + 1092 * 2 ^ 48 := by
    rw [slotNext, ← load_overlap fun _ => 0]
    refine ByteMemory.load_congr fun x _ hhigh => ?_
    rw [hmem]
    exact linkSlots_two _ _ _ (by omega)
  have hpage : OnPage (blank ⟨0, 1000⟩ (2 ^ 20)) ⟨0, 1000⟩ (2 ^ 20) := onPage_blank
  obtain ⟨page', hcode, hfirst, hr⟩ : ∃ page' : PageInfo, page'.m_spaceCode = 0 ∧
      page'.m_fIdleSlot = slotNext shortSlots.mem 0 1080 ∧
      (allocateNode shortSlots.page shortSlots.mem ⟨0, 1000⟩ (1 + 1)).2 =
        ⟨0, 1080⟩ :: (allocateLoop shortSlots.mem ⟨0, 1000⟩ 1 page').2 :=
    create_allocate hpage (by decide) (by decide) 1
  have hnull : ¬ page'.m_fIdleSlot = nullPos := by
    rw [hfirst, hlink]
    decide
  rw [hr, allocateLoop, if_neg hnull, hcode, hfirst, hlink]
  rfl

/-- **A number of four bytes is not enough**: of two records the second one lies nowhere in the
page. -/
theorem not_slotsKept_numberTable :
    slotSizeOf numberTable = 6 ∧
    (∃ slot ∈ (allocateNode shortSlots.page shortSlots.mem ⟨0, 1000⟩ 2).2,
      ¬ Inside ⟨0, 1000⟩ (2 ^ 20) 6 slot) ∧
    ¬ SlotsKept ⟨0, 1000⟩ (2 ^ 20) (slotSizeOf numberTable) := by
  have hsize : slotSizeOf numberTable = 6 := rfl
  have houtside : ∃ slot ∈ (allocateNode shortSlots.page shortSlots.mem ⟨0, 1000⟩ 2).2,
      ¬ Inside ⟨0, 1000⟩ (2 ^ 20) 6 slot := by
    rw [shortSlots_allocate]
    refine ⟨⟨0, 1086 + 1092 * 2 ^ 48⟩, by simp, fun hinside => ?_⟩
    exact absurd hinside.2.2 (by decide)
  refine ⟨hsize, houtside, fun hkept => ?_⟩
  obtain ⟨slot, hslot, hnot⟩ := houtside
  rw [hsize] at hkept
  have hmeets := ((hkept _ (fun _ _ => 0) onPage_blank).2 [.allocate 2]).1
  exact hnot (hmeets slot hslot)

end PageSlots
