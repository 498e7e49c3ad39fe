import Boss.MemManagerBatch
import Boss.Runs
import Mathlib.Data.Set.Lattice
import Mathlib.Order.CompletePartialOrder

/-!
# Runs of the memory manager

Tables and indexes allocate and free slots in any order, any number at a time, and
write what they want into the slots they have.  Whatever the run, the not-full queue of
a descriptor consists of its pages with an idle slot, no page serves two descriptors,
and no two live slots overlap.

The slots that are live are those that `allocateMem` returned and `freeMem` did not get
back yet; `freeMem` is only called for a live slot.

Main results: `step_inv` for one call, `descriptor_invariant` for runs.
-/

namespace MemManager

open PageInfo LinkedChain Runs

variable {D : Type*} [DecidableEq D] {cfg : Config D} {p q x : ShmPosition} {sp sp' : TableSpace}
  {s t : State D} {L L' : Layout D} {d : D}

/-! ## The initial state -/

theorem pageOffSet_inj {j k : Nat} : sp.pageOffSet j = sp.pageOffSet k ↔ j = k := by
  have hpage := sp.page_pos
  unfold TableSpace.pageOffSet
  constructor
  · intro heq
    exact Nat.eq_of_mul_eq_mul_right (by omega : 0 < sp.m_pageSize) (by omega)
  · intro heq
    rw [heq]

/-- The position of the `k`-th page of a space. -/
def pagePos (sp : TableSpace) (k : Nat) : ShmPosition := ⟨sp.m_spaceCode, sp.pageOffSet k⟩

/-- What `f_init` leaves for one space. -/
structure SpaceReady (s : State D) (sp : TableSpace) : Prop where
  num : (s.m_pHeader sp.m_spaceCode).m_idleNum = sp.pageNum
  first : (s.m_pHeader sp.m_spaceCode).m_fIdlePage =
    if sp.pageNum = 0 then nullPos else sp.pageOffSet 0
  last : (s.m_pHeader sp.m_spaceCode).m_lIdlePage =
    if sp.pageNum = 0 then nullPos else sp.pageOffSet 0 + (sp.pageNum - 1) * sp.m_pageSize
  header : ∀ k < sp.pageNum, HeaderOk (s.page (pagePos sp k)) (pagePos sp k) sp
  next : ∀ k < sp.pageNum, (s.page (pagePos sp k)).m_next =
    if k + 1 = sp.pageNum then nullShmPos else pagePos sp (k + 1)

/-- The loop over the pages prepares the first `n` of them and no other page. -/
theorem initPages_spec (sp : TableSpace) (page : ShmPosition → PageInfo) (n : Nat) :
    let after := (List.range n).foldl (initPage sp) page
    (∀ k < n, HeaderOk (after (pagePos sp k)) (pagePos sp k) sp ∧
      (after (pagePos sp k)).m_next =
        if k + 1 = sp.pageNum then nullShmPos else pagePos sp (k + 1)) ∧
    ∀ p, (∀ k < n, p ≠ pagePos sp k) → after p = page p := by
  induction n with
  | zero => exact ⟨fun k hk => absurd hk (by omega), fun p _ => rfl⟩
  | succ n ih =>
      obtain ⟨hdone, hother⟩ := ih
      simp only [List.range_succ, List.foldl_append, List.foldl_cons, List.foldl_nil]
      refine ⟨fun k hk => ?_, fun p hp => ?_⟩
      · by_cases hkn : k = n
        · subst hkn
          have hself : (⟨sp.m_spaceCode, sp.pageOffSet k⟩ : ShmPosition) = pagePos sp k := rfl
          have hnext : sp.pageOffSet k + sp.m_pageSize = sp.pageOffSet (k + 1) := by
            unfold TableSpace.pageOffSet
            rw [Nat.succ_mul]
            omega
          simp only [initPage, hself, Function.update_self, hnext]
          exact ⟨⟨rfl, rfl, rfl⟩, rfl⟩
        · have hne : pagePos sp k ≠ ⟨sp.m_spaceCode, sp.pageOffSet n⟩ := by
            intro heq
            exact hkn (pageOffSet_inj.mp (congrArg ShmPosition.m_offSet heq))
          simp only [initPage, Function.update_of_ne hne]
          exact hdone k (by omega)
      · have hne : p ≠ ⟨sp.m_spaceCode, sp.pageOffSet n⟩ := hp n (by omega)
        simp only [initPage, Function.update_of_ne hne]
        exact hother p fun k hk => hp k (by omega)

section

omit [DecidableEq D]

theorem f_init_ready (s : State D) (sp : TableSpace) : SpaceReady (f_init s sp) sp := by
  obtain ⟨hdone, -⟩ := initPages_spec sp s.page sp.pageNum
  exact ⟨by simp [f_init], by simp [f_init], by simp [f_init], fun k hk => (hdone k hk).1,
    fun k hk => (hdone k hk).2⟩

/-- Initialising one space leaves the others. -/
theorem f_init_other (h : SpaceReady s sp) (hne : sp.m_spaceCode ≠ sp'.m_spaceCode) :
    SpaceReady (f_init s sp') sp := by
  obtain ⟨-, hother⟩ := initPages_spec sp' s.page sp'.pageNum
  have hpage : ∀ k, (f_init s sp').page (pagePos sp k) = s.page (pagePos sp k) := fun k =>
    hother _ fun j _ heq => hne (congrArg ShmPosition.m_spaceCode heq)
  have hheader : (f_init s sp').m_pHeader sp.m_spaceCode = s.m_pHeader sp.m_spaceCode :=
    Function.update_of_ne hne _ _
  refine ⟨by rw [hheader]; exact h.num, by rw [hheader]; exact h.first,
    by rw [hheader]; exact h.last, fun k hk => ?_, fun k hk => ?_⟩
  · rw [hpage k]
    exact h.header k hk
  · rw [hpage k]
    exact h.next k hk

/-- All spaces of the list are ready, and the rest of the state is as before. -/
theorem f_init_all (spaces : List TableSpace) (s : State D)
    (hnodup : (spaces.map TableSpace.m_spaceCode).Nodup) :
    (∀ sp ∈ spaces, SpaceReady (spaces.foldl f_init s) sp) ∧
    (∀ sp, SpaceReady s sp → sp.m_spaceCode ∉ spaces.map TableSpace.m_spaceCode →
      SpaceReady (spaces.foldl f_init s) sp) ∧
    (∀ code, code ∉ spaces.map TableSpace.m_spaceCode →
      (spaces.foldl f_init s).m_pHeader code = s.m_pHeader code) ∧
    (spaces.foldl f_init s).desc = s.desc := by
  induction spaces generalizing s with
  | nil => exact ⟨by simp, fun sp h _ => h, fun code _ => rfl, rfl⟩
  | cons sp rest ih =>
      obtain ⟨hnot, hrest⟩ := List.nodup_cons.mp hnodup
      obtain ⟨hall, hkeep, hheader, hdesc⟩ := ih (f_init s sp) hrest
      simp only [List.foldl_cons]
      refine ⟨?_, ?_, ?_, hdesc⟩
      · intro sp' hsp'
        rcases List.mem_cons.mp hsp' with rfl | hsp'
        · exact hkeep sp' (f_init_ready s sp') hnot
        · exact hall sp' hsp'
      · intro sp' hready hcode
        rw [List.map_cons, List.mem_cons, not_or] at hcode
        exact hkeep sp' (f_init_other hready hcode.1) hcode.2
      · intro code hcode
        rw [List.map_cons, List.mem_cons, not_or] at hcode
        rw [hheader code hcode.2]
        exact Function.update_of_ne hcode.1 _ _

end

open Classical in
/-- All pages are free. -/
noncomputable def freshLayout (cfg : Config D) : Layout D where
  owner p := if ∃ sp, IsPage cfg p sp then .free else .other
  lines
    | .desc _ => []
    | .free code =>
      match spaceByCode cfg code with
      | none => []
      | some sp => (List.range sp.pageNum).map (pagePos sp)
  notFull _ := []
  idle _ := []

section

omit [DecidableEq D]

theorem mem_freshLines {code : Nat} :
    p ∈ (freshLayout cfg).lines (.free code) ↔ (∃ sp, IsPage cfg p sp) ∧ p.m_spaceCode = code := by
  unfold freshLayout
  dsimp only
  cases hsp : spaceByCode cfg code with
  | none =>
      simp only [List.not_mem_nil, false_iff, not_and]
      rintro ⟨sp, hp⟩ hcode
      rw [← hcode, hp.1] at hsp
      cases hsp
  | some sp =>
      have hcode := (spaceByCode_some hsp).2
      simp only [List.mem_map, List.mem_range]
      constructor
      · rintro ⟨k, hk, rfl⟩
        exact ⟨⟨sp, by rw [pagePos, hcode]; exact hsp, k, hk, rfl⟩, hcode⟩
      · rintro ⟨⟨sp', hspace, k, hk, hoff⟩, hpcode⟩
        rw [hpcode, hsp] at hspace
        obtain rfl := Option.some.inj hspace
        refine ⟨k, hk, ?_⟩
        cases p
        simp_all [pagePos]

theorem freshLayout_owner (cfg : Config D) (p : ShmPosition) :
    ((freshLayout cfg).owner p = .free ∧ ∃ sp, IsPage cfg p sp) ∨
      ((freshLayout cfg).owner p = .other ∧ ¬ ∃ sp, IsPage cfg p sp) := by
  unfold freshLayout
  by_cases hp : ∃ sp, IsPage cfg p sp <;> simp [hp]

theorem freshLayout_not_used (cfg : Config D) (p : ShmPosition) (d : D) :
    (freshLayout cfg).owner p ≠ .desc d ∧ (freshLayout cfg).owner p ≠ .batch d := by
  rcases freshLayout_owner cfg p with ⟨h, -⟩ | ⟨h, -⟩ <;> simp [h]

theorem freshLayout_own (cfg : Config D) : Own cfg (freshLayout cfg) where
  isPage := by
    intro p hp
    rcases freshLayout_owner cfg p with ⟨-, hpage⟩ | ⟨hother, -⟩
    · exact hpage
    · exact absurd hother hp
  desc_iff := by
    intro d p
    exact iff_of_false (by simp [freshLayout]) (freshLayout_not_used cfg p d).1
  free_iff := by
    intro code p
    rw [mem_freshLines]
    rcases freshLayout_owner cfg p with ⟨hfree, hpage⟩ | ⟨hother, hpage⟩
    · simp [hfree, hpage]
    · simp [hother, hpage]
  notFull_owner := by
    intro d p hp
    simp [freshLayout] at hp

theorem freshLayout_free {code : Nat} (h : spaceByCode cfg code = some sp) :
    (freshLayout cfg).lines (.free code) = (List.range sp.pageNum).map (pagePos sp) := by
  simp [freshLayout, h]

/-- The free pages of a space are queued after `f_init`. -/
theorem freshLayout_queue {code : Nat} (hsp : spaceByCode cfg code = some sp)
    (hready : SpaceReady s sp) :
    Queue s.next nullShmPos (s.firstPage (.free code)) (s.lastPage (.free code))
      ((List.range sp.pageNum).map (pagePos sp)) := by
  have hcode := (spaceByCode_some hsp).2
  have hpage : ∀ k < sp.pageNum, IsPage cfg (pagePos sp k) sp := fun k hk =>
    ⟨by rw [pagePos, hcode]; exact hsp, k, hk, rfl⟩
  have hnext : ∀ k < sp.pageNum, s.next (pagePos sp k) =
      if k + 1 = sp.pageNum then nullShmPos else pagePos sp (k + 1) := hready.next
  have hchain := chain_range (pagePos sp) (fun k hk => (hpage k hk).ne_null)
    (fun k hk => (hnext k (by omega)).trans (if_neg (by omega)))
    (fun k hk => (hnext k (by omega)).trans (if_pos hk))
  have hfirst := hready.first
  have hlast := hready.last
  by_cases hzero : sp.pageNum = 0
  · rw [if_pos hzero, hcode] at hfirst hlast
    simp [hzero, State.firstPage, State.lastPage, hfirst, hlast, headPos]
  · rw [if_neg hzero, hcode] at hfirst hlast
    rw [if_neg hzero] at hchain
    have hhead : ∀ k < sp.pageNum, headPos code (sp.pageOffSet k) = pagePos sp k := by
      intro k hk
      rw [← hcode]
      exact headPos_page (hpage k hk)
    obtain ⟨last, hnum⟩ := Nat.exists_eq_succ_of_ne_zero hzero
    have hlastOff : sp.pageOffSet 0 + (sp.pageNum - 1) * sp.m_pageSize = sp.pageOffSet last := by
      rw [hnum]
      simp [TableSpace.pageOffSet]
    refine ⟨?_, ?_⟩
    · simp only [State.firstPage, hfirst, hhead 0 (by omega)]
      exact hchain
    · simp only [State.lastPage, hlast, hlastOff]
      rw [hhead last (by omega), hnum, List.range_succ, List.map_append]
      simp

/-- **The initial memory represents the layout in which all pages are free.** -/
theorem create_sound (cfg : Config D) (garbage : State D) :
    Sound cfg (create cfg garbage) (freshLayout cfg) := by
  obtain ⟨hready, -, hheader, hdesc⟩ := f_init_all cfg.m_tableSpaceMgrList
    ({ garbage with desc := fun _ => initPos, m_pHeader := fun _ => ⟨0, nullPos, nullPos⟩ } :
      State D) cfg.codes_nodup
  have hspace : ∀ code sp, spaceByCode cfg code = some sp → SpaceReady (create cfg garbage) sp :=
    fun code sp hsp => hready sp (spaceByCode_some hsp).1
  have hnoSpace : ∀ code, spaceByCode cfg code = none →
      (create cfg garbage).m_pHeader code = ⟨0, nullPos, nullPos⟩ := by
    intro code hnone
    apply hheader
    intro hmem
    obtain ⟨sp, hsp, hcode⟩ := List.mem_map.mp hmem
    have hfound := spaceByCode_of_mem hsp
    rw [hcode, hnone] at hfound
    cases hfound
  have hinit : ∀ d, (create cfg garbage).desc d = initPos := fun d => congrFun hdesc d
  refine ⟨⟨freshLayout_own cfg, ?_, ⟨?_, ?_, ?_⟩, ?_, ⟨?_, ?_, ?_⟩, ?_⟩, ?_, ?_⟩
  · rintro p sp ⟨hsp, k, hk, hoff⟩
    have hcode := (spaceByCode_some hsp).2
    have hpos : p = pagePos sp k := by
      cases p
      simp_all [pagePos]
    rw [hpos]
    exact (hspace _ sp hsp).header k hk
  · intro line
    cases line with
    | desc d => simp [freshLayout, State.firstPage, State.lastPage, hinit, initPos]
    | free code =>
        cases hsp : spaceByCode cfg code with
        | none =>
            simp [freshLayout, hsp, State.firstPage, State.lastPage, hnoSpace code hsp, headPos]
        | some sp =>
            rw [freshLayout_free hsp]
            exact freshLayout_queue hsp (hspace code sp hsp)
  · intro line
    cases line with
    | desc d => simp [freshLayout]
    | free code =>
        cases hsp : spaceByCode cfg code with
        | none => simp [freshLayout, hsp]
        | some sp =>
            rw [freshLayout_free hsp]
            apply List.Nodup.map _ List.nodup_range
            intro j k heq
            exact pageOffSet_inj.mp (congrArg ShmPosition.m_offSet heq)
  · intro line line' p hp hp'
    cases line with
    | desc d => simp [freshLayout] at hp
    | free code =>
        cases line' with
        | desc d => simp [freshLayout] at hp'
        | free code' => rw [← (mem_freshLines.mp hp).2, (mem_freshLines.mp hp').2]
  · intro code
    cases hsp : spaceByCode cfg code with
    | none => simp [freshLayout, hsp, hnoSpace code hsp]
    | some sp =>
        have hnum := (hspace code sp hsp).num
        rw [(spaceByCode_some hsp).2] at hnum
        simp [freshLayout, hsp, hnum]
  · intro d
    simp [freshLayout, State.firstNotFull, State.lastNotFull, hinit, initPos]
  · intro d
    simp [freshLayout]
  · intro d e p hp
    simp [freshLayout] at hp
  · intro p d sp _ hused
    have hnot := freshLayout_not_used cfg p d
    exact absurd hused (not_or.mpr hnot)
  · intro d p hp
    exact absurd hp (freshLayout_not_used cfg p d).1
  · intro d p hp
    exact absurd hp (freshLayout_not_used cfg p d).1

end

/-! ## The system -/

/-- The shared memory and, for every descriptor, the slots it got and did not give
back. -/
structure System (D : Type*) where
  memory : State D
  live : D → List ShmPosition

inductive Label (D : Type*) where
  | allocateMem (d : D) (r_num : Int)
  | freeMem (d : D) (r_addr : ShmPosition)
  /-- The user of a live slot writes its `i`-th byte. -/
  | write (d : D) (slot : ShmPosition) (i : Nat) (byte : UInt8)

/-- One call, or one write into a live slot. -/
def step (cfg : Config D) (sys : System D) : Label D → Option (System D)
  | .allocateMem d r_num =>
    match allocateMem cfg sys.memory d r_num with
    | none => none
    | some (s, .ok slots) => some ⟨s, Function.update sys.live d (sys.live d ++ slots)⟩
    | some (s, .error _) => some ⟨s, sys.live⟩
  | .freeMem d r_addr =>
    if r_addr ∈ sys.live d then
      some ⟨(freeMem cfg sys.memory d r_addr).1,
        Function.update sys.live d ((sys.live d).erase r_addr)⟩
    else none
  | .write d slot i byte =>
    if slot ∈ sys.live d ∧ i < cfg.m_slotSize d then
      some ⟨{ sys.memory with
        mem := Function.update sys.memory.mem slot.m_spaceCode
          (Function.update (sys.memory.mem slot.m_spaceCode) (slot.m_offSet + i) byte) }, sys.live⟩
    else none

/-- Slots are only asked for by descriptors whose slots fit. -/
def Label.Fits (cfg : Config D) : Label D → Prop
  | .allocateMem d _ => MemManager.Fits cfg d
  | _ => True

instance (cfg : Config D) : (a : Label D) → Decidable (a.Fits cfg)
  | .allocateMem d _ => inferInstanceAs (Decidable (MemManager.Fits cfg d))
  | .freeMem _ _ => .isTrue trivial
  | .write _ _ _ _ => .isTrue trivial

/-- The memory after `create`, before any call. -/
def start (cfg : Config D) (garbage : State D) : System D := ⟨create cfg garbage, fun _ => []⟩

/-- The live slots are the held ones. -/
def SysInv (cfg : Config D) (sys : System D) : Prop :=
  ∃ L, Sound cfg sys.memory L ∧ (∀ p e, L.owner p ≠ .batch e) ∧
    ∀ d, (sys.live d).Nodup ∧ ∀ x, x ∈ sys.live d ↔ Held cfg L (.desc d) x

omit [DecidableEq D] in
theorem start_inv (cfg : Config D) (garbage : State D) : SysInv cfg (start cfg garbage) := by
  refine ⟨freshLayout cfg, create_sound cfg garbage, fun p e => (freshLayout_not_used cfg p e).2, ?_⟩
  intro d
  refine ⟨List.nodup_nil, fun x => iff_of_false (by simp [start]) ?_⟩
  rintro ⟨e, p, sp, -, howner, -⟩
  exact (freshLayout_not_used cfg p d).1 howner

omit [DecidableEq D] in
/-- Writing into a live slot does not touch the links of idle slots. -/
theorem Sound.write (h : Sound cfg s L) (hheld : Held cfg L (.desc d) x) {i : Nat}
    (hi : i < cfg.m_slotSize d) (byte : UInt8) :
    Sound cfg { s with
      mem := Function.update s.mem x.m_spaceCode
        (Function.update (s.mem x.m_spaceCode) (x.m_offSet + i) byte) } L := by
  obtain ⟨c, p, sp, huser, howner, hin, hnot⟩ := hheld
  obtain rfl : d = c := by simpa [Owner.user] using huser
  have hrange := hin.slot.range hin.isPage.size
  refine ⟨⟨h.inv.own, h.inv.headers, h.inv.lines, h.inv.freeNum, h.inv.notFull, ?_⟩,
    ⟨h.balanced.mem_iff, h.balanced.full⟩⟩
  intro q e spq hq hused
  obtain ⟨hfits, hslots⟩ := h.inv.slots q e spq hq hused
  have hmin := hfits.1
  refine ⟨hfits, (queue_congr ?_).mpr hslots.queue, hslots.num, hslots.nodup, hslots.slot⟩
  intro off hoff
  apply ByteMemory.load_congr
  intro y hlow hhigh
  -- the written byte is not one of the eight bytes of the link
  have hslot := hslots.slot off hoff
  have hqrange := hslot.range hq.size
  by_cases hcode : q.m_spaceCode = x.m_spaceCode
  · have hne : y ≠ x.m_offSet + i := by
      by_cases hqp : q = p
      · subst hqp
        have hed : e = d := by
          rcases hused with he | he
          · simpa [howner] using he.symm
          · simp [howner] at he
        subst hed
        obtain rfl := hq.space_unique hin.isPage rfl
        have hoffne : off ≠ x.m_offSet := fun heq => hnot (heq ▸ hoff)
        have hapart := hslot.apart hin.slot hoffne
        omega
      · have hapart := hin.isPage.apart hq hqp (hcode.trans hin.code) y
          (by omega) (by omega)
        omega
    simp only [hcode, Function.update_self, Function.update_of_ne hne]
  · simp only [Function.update_of_ne hcode]

/-- **One step keeps the invariant.** -/
theorem step_inv {sys sys' : System D} {a : Label D} (h : SysInv cfg sys) (ha : a.Fits cfg)
    (hstep : step cfg sys a = some sys') : SysInv cfg sys' := by
  obtain ⟨L, hsound, hnone, hlive⟩ := h
  cases a with
  | allocateMem d r_num =>
      obtain ⟨t, res, L', halloc, hsound', hnone', hres⟩ := hsound.allocateMem hnone ha r_num
      simp only [step, halloc] at hstep
      rcases hres with ⟨got, rfl, -, hgrant⟩ | ⟨rfl, hundone⟩
      · obtain rfl := Option.some.inj hstep
        refine ⟨L', hsound', hnone', fun e => ?_⟩
        obtain ⟨hnodup, hmem⟩ := hlive e
        by_cases hed : e = d
        · subst hed
          simp only [Function.update_self]
          refine ⟨List.nodup_append.mpr ⟨hnodup, hgrant.nodup, ?_⟩, fun x => ?_⟩
          · intro x hx y hy heq
            subst heq
            exact hgrant.fresh x hy ((hmem x).mp hx)
          · rw [List.mem_append, hmem x, hgrant.held]
            simp
        · simp only [Function.update_of_ne hed]
          refine ⟨hnodup, fun x => ?_⟩
          rw [hmem x, hgrant.held]
          simp [hed]
      · obtain rfl := Option.some.inj hstep
        refine ⟨L', hsound', hnone', fun e => ⟨(hlive e).1, fun x => ?_⟩⟩
        rw [(hlive e).2 x, hundone.held]
  | freeMem d x =>
      by_cases hx : x ∈ sys.live d
      · simp only [step, hx, if_true] at hstep
        obtain ⟨t, L', hfree, hsound', howner, hset⟩ := hsound.freeMem (((hlive d).2 x).mp hx)
        rw [hfree] at hstep
        obtain rfl := Option.some.inj hstep
        refine ⟨L', hsound', by rwa [howner], fun e => ?_⟩
        obtain ⟨hnodup, hmem⟩ := hlive e
        by_cases hed : e = d
        · subst hed
          simp only [Function.update_self]
          refine ⟨hnodup.erase x, fun y => ?_⟩
          rw [hnodup.mem_erase_iff, hmem y, hset]
          exact and_comm
        · simp only [Function.update_of_ne hed]
          refine ⟨hnodup, fun y => ?_⟩
          rw [hmem y, hset]
          refine ⟨fun hy => ⟨hy, fun heq => ?_⟩, fun hy => hy.1⟩
          have hsame := held_unique hy (heq ▸ ((hlive d).2 x).mp hx)
          exact hed (by simpa using hsame)
      · simp [step, hx] at hstep
  | write d x i byte =>
      by_cases hx : x ∈ sys.live d ∧ i < cfg.m_slotSize d
      · simp only [step, hx, and_self, if_true] at hstep
        obtain rfl := Option.some.inj hstep
        exact ⟨L, hsound.write (((hlive d).2 x).mp hx.1) hx.2 byte, hnone, hlive⟩
      · simp [step, hx] at hstep

/-- Every state that a run reaches meets the invariant. -/
theorem run_inv (hfits : ∀ d, Fits cfg d) {garbage : State D} {labels : List (Label D)}
    {sys : System D} (hrun : run (step cfg) (start cfg garbage) labels = some sys) :
    SysInv cfg sys := by
  refine run_invariant (fun s a t h hstep => step_inv h ?_ hstep) (start_inv cfg garbage) hrun
  cases a with
  | allocateMem d r_num => exact hfits d
  | freeMem d r_addr => trivial
  | write d slot i byte => trivial

/-- In every reachable state a request returns: with as many slots as were asked for,
or with the exception that the table spaces are full. -/
theorem allocateMem_returns (hfits : ∀ d, Fits cfg d) {garbage : State D}
    {labels : List (Label D)} {sys : System D}
    (hrun : run (step cfg) (start cfg garbage) labels = some sys) (d : D) (r_num : Int) :
    ∃ s, (∃ got, allocateMem cfg sys.memory d r_num = some (s, .ok got) ∧
        got.length = r_num.toNat) ∨
      allocateMem cfg sys.memory d r_num = some (s, .error .noSpace) := by
  obtain ⟨L, hsound, hnone, -⟩ := run_inv hfits hrun
  obtain ⟨t, res, L', halloc, -, -, hres⟩ := hsound.allocateMem hnone (hfits d) r_num
  rcases hres with ⟨got, rfl, hlen, -⟩ | ⟨rfl, -⟩
  · exact ⟨t, .inl ⟨got, halloc, hlen⟩⟩
  · exact ⟨t, .inr halloc⟩

/-! ## The descriptor invariant -/

/-- The bytes of a slot of `d`, as pairs of space code and offset. -/
def slotBytes (cfg : Config D) (d : D) (x : ShmPosition) : Set (Nat × Nat) :=
  { a | a.1 = x.m_spaceCode ∧ x.m_offSet ≤ a.2 ∧ a.2 < x.m_offSet + cfg.m_slotSize d }

/-- The payload of the page at `p`: the bytes behind its header. -/
def payload (p : ShmPosition) (sp : TableSpace) : Set (Nat × Nat) :=
  { a | a.1 = p.m_spaceCode ∧ p.m_offSet + sizeofPageInfo ≤ a.2 ∧
    a.2 < p.m_offSet + sp.m_pageSize }

/-- The page of `d` at `p` has a slot that is not live. -/
def HasIdleSlot (cfg : Config D) (sys : System D) (d : D) (p : ShmPosition) : Prop :=
  ∃ sp off, IsPage cfg p sp ∧ IsSlot sp.m_pageSize (cfg.m_slotSize d) p off ∧
    ⟨p.m_spaceCode, off⟩ ∉ sys.live d

omit [DecidableEq D] in
/-- Held slots of pages do not overlap. -/
theorem held_disjoint {e : D} {y : ShmPosition} (hx : Held cfg L (.desc d) x)
    (hy : Held cfg L (.desc e) y) (hne : d ≠ e ∨ x ≠ y) :
    Disjoint (slotBytes cfg d x) (slotBytes cfg e y) := by
  have hxy : x ≠ y := by
    rcases hne with hne | hne
    · rintro rfl
      have hsame := held_unique hx hy
      exact hne (by simpa using hsame)
    · exact hne
  obtain ⟨d', p, sp, huser, howner, hin, -⟩ := hx
  obtain ⟨e', q, sp', huser', howner', hin', -⟩ := hy
  obtain rfl : d = d' := by simpa [Owner.user] using huser
  obtain rfl : e = e' := by simpa [Owner.user] using huser'
  have hrange := hin.slot.range hin.isPage.size
  have hrange' := hin'.slot.range hin'.isPage.size
  rw [Set.disjoint_left]
  rintro ⟨code, off⟩ ⟨hcode, hlow, hhigh⟩ ⟨hcode', hlow', hhigh'⟩
  dsimp only at hcode hlow hhigh hcode' hlow' hhigh'
  have hcodes : q.m_spaceCode = p.m_spaceCode := by
    rw [← hin.code, ← hin'.code, ← hcode, ← hcode']
  by_cases hqp : q = p
  · subst hqp
    have hde : d = e := by
      rw [howner] at howner'
      simpa using howner'
    subst hde
    obtain rfl := hin.isPage.space_unique hin'.isPage rfl
    have hoffs : x.m_offSet ≠ y.m_offSet := by
      intro heq
      have hcodeq : x.m_spaceCode = y.m_spaceCode := hin.code.trans hin'.code.symm
      cases x
      cases y
      simp_all
    have hapart := hin.slot.apart hin'.slot hoffs
    omega
  · have hapart := hin.isPage.apart hin'.isPage hqp hcodes off (by omega) (by omega)
    omega

/-- **The descriptor invariant.**  When slots have room for a link and pages for a slot, then in
every state that a run of `allocateMem`, `freeMem` and writes into live slots reaches, the pages of every descriptor and its not-full pages
are linked from the first to the last; the not-full ones are exactly the pages with a
slot that is not live, each once, and their counter says so; no page belongs to two
descriptors; and the live slots are disjoint ranges of bytes, each inside of the payload
of a page of its descriptor. -/
theorem descriptor_invariant (cfg : Config D) (hfits : ∀ d, Fits cfg d) (garbage : State D)
    (labels : List (Label D)) (sys : System D)
    (hrun : run (step cfg) (start cfg garbage) labels = some sys) :
    ∃ pages notFull : D → List ShmPosition,
      (∀ d, Queue sys.memory.next nullShmPos (sys.memory.desc d).m_firstPage
        (sys.memory.desc d).m_lastPage (pages d) ∧ (pages d).Nodup) ∧
      (∀ d, Queue sys.memory.nextNotFull nullShmPos (sys.memory.desc d).m_firstNotFullPage
        (sys.memory.desc d).m_lastNotFullPage (notFull d) ∧ (notFull d).Nodup) ∧
      (∀ d p, p ∈ notFull d ↔ p ∈ pages d ∧ HasIdleSlot cfg sys d p) ∧
      (∀ d, ∀ p ∈ pages d, 0 < (sys.memory.page p).m_idleNum ↔ HasIdleSlot cfg sys d p) ∧
      (∀ d e p, p ∈ pages d → p ∈ pages e → d = e) ∧
      (∀ d, (sys.live d).Nodup) ∧
      (∀ d, ∀ x ∈ sys.live d, ∃ p ∈ pages d, ∃ sp, IsPage cfg p sp ∧
        slotBytes cfg d x ⊆ payload p sp) ∧
      ∀ d e x y, x ∈ sys.live d → y ∈ sys.live e → d ≠ e ∨ x ≠ y →
        Disjoint (slotBytes cfg d x) (slotBytes cfg e y) := by
  obtain ⟨L, hsound, -, hlive⟩ := run_inv hfits hrun
  have hinv := hsound.inv
  -- a page has an idle slot exactly when its queue of idle slots is not empty
  have hidle : ∀ d p, p ∈ L.lines (.desc d) → (L.idle p ≠ [] ↔ HasIdleSlot cfg sys d p) := by
    intro d p hp
    have howner := (hinv.own.desc_iff d p).mp hp
    obtain ⟨sp, hpage⟩ := hinv.own.isPage p (by simp [howner])
    constructor
    · intro hne
      obtain ⟨off, hoff⟩ := List.exists_mem_of_ne_nil _ hne
      obtain ⟨hslot, hfree⟩ := (hsound.mem_idle howner hpage off).mp hoff
      exact ⟨sp, off, hpage, hslot, fun hmem => hfree (((hlive d).2 _).mp hmem)⟩
    · rintro ⟨sp', off, hpage', hslot, hnot⟩
      have hoff := (hsound.mem_idle howner hpage' off).mpr
        ⟨hslot, fun hheld => hnot (((hlive d).2 _).mpr hheld)⟩
      exact List.ne_nil_of_mem hoff
  refine ⟨fun d => L.lines (.desc d), L.notFull, ?_, ?_, ?_, ?_, ?_, ?_, ?_, ?_⟩
  · intro d
    exact ⟨hinv.lines.queue (.desc d), hinv.lines.nodup (.desc d)⟩
  · intro d
    exact ⟨hinv.notFull.queue d, hinv.notFull.nodup d⟩
  · intro d p
    constructor
    · intro hp
      have howner := hinv.own.notFull_owner d p hp
      have hmem := (hinv.own.desc_iff d p).mpr howner
      exact ⟨hmem, (hidle d p hmem).mp ((hsound.balanced.mem_iff d p howner).mp hp)⟩
    · rintro ⟨hmem, hhas⟩
      have howner := (hinv.own.desc_iff d p).mp hmem
      exact (hsound.balanced.mem_iff d p howner).mpr ((hidle d p hmem).mpr hhas)
  · intro d p hp
    have howner := (hinv.own.desc_iff d p).mp hp
    obtain ⟨sp, hpage⟩ := hinv.own.isPage p (by simp [howner])
    have hnum := (hinv.slots p d sp hpage (.inl howner)).2.num
    rw [← hidle d p hp, hnum, List.length_pos_iff]
  · intro d e p hp hp'
    have hsame := hinv.lines.disjoint (.desc d) (.desc e) p hp hp'
    simpa using hsame
  · exact fun d => (hlive d).1
  · intro d x hx
    obtain ⟨e, p, sp, huser, howner, hin, -⟩ := ((hlive d).2 x).mp hx
    obtain rfl : d = e := by simpa [Owner.user] using huser
    refine ⟨p, (hinv.own.desc_iff d p).mpr howner, sp, hin.isPage, ?_⟩
    rintro ⟨code, off⟩ ⟨hcode, hlow, hhigh⟩
    dsimp only at hcode hlow hhigh
    have hrange := hin.slot.range hin.isPage.size
    exact ⟨hcode.trans hin.code, by dsimp only; omega, by dsimp only; omega⟩
  · intro d e x y hx hy hne
    exact held_disjoint (((hlive d).2 x).mp hx) (((hlive e).2 y).mp hy) hne

/-- A table and an index share a space of two pages. -/
def twoPages : Config Bool where
  m_tableSpaceMgrList :=
    [⟨['T', 'S'], 2, 8, 256, 104, by decide, by decide, by decide, by decide, by decide⟩]
  m_slotSize d := if d then 8 else 12
  m_spaceList _ := [['t', 's']]
  codes_nodup := by decide

/-- A memory full of zeros. -/
def zeros : State Bool :=
  ⟨fun _ => ⟨0, 0, nullShmPos, nullShmPos, 0, 0, 0, 0, 0, 0⟩, fun _ _ => 0, fun _ => ⟨0, 0, 0⟩,
    fun _ => initPos⟩

/-- The table fills its page and frees a slot, the index gets the other page, and a
request for more than is left is undone. -/
theorem descriptor_invariant_sharedSpace :
    ∃ sys, run (step twoPages) (start twoPages zeros)
      [.allocateMem false 2, .write false ⟨2, 128⟩ 3 255, .allocateMem true 1,
        .freeMem false ⟨2, 128⟩, .allocateMem false 4, .allocateMem true 2] = some sys ∧
      sys.live true = [⟨2, 232⟩, ⟨2, 240⟩, ⟨2, 248⟩] ∧
      ∀ d e x y, x ∈ sys.live d → y ∈ sys.live e → d ≠ e ∨ x ≠ y →
        Disjoint (slotBytes twoPages d x) (slotBytes twoPages e y) := by
  have hlive : (run (step twoPages) (start twoPages zeros)
      [.allocateMem false 2, .write false ⟨2, 128⟩ 3 255, .allocateMem true 1,
        .freeMem false ⟨2, 128⟩, .allocateMem false 4, .allocateMem true 2]).map
        (fun sys => sys.live true) = some [⟨2, 232⟩, ⟨2, 240⟩, ⟨2, 248⟩] := by
    decide +kernel
  obtain ⟨sys, hrun, htrue⟩ := Option.map_eq_some_iff.mp hlive
  obtain ⟨pages, notFull, -, -, -, -, -, -, -, hdisjoint⟩ :=
    descriptor_invariant twoPages (by decide) zeros _ sys hrun
  exact ⟨sys, hrun, htrue, hdisjoint⟩

end MemManager
