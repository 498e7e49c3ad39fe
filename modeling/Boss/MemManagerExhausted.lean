import Boss.MemManagerTruncate

/-!
# Requests that find the spaces exhausted

`allocateMem` returns the slots in the list `r_slotAddrList` of its caller, which is
cleared at the start and grows while the request is served.  Here the list is seen
whatever way the call ends.  When the spaces are exhausted, the call has taken back
everything: what is allocated is read off the memory, by following the pages of a
descriptor and the idle slots of a page, and it is what it was before.

Main results: `allocateMemOut_slots`, `allocateMem_atomic` and `allocateMem_not_atomic`.
-/

namespace MemManager

open PageInfo LinkedChain Runs

variable {D : Type*} [DecidableEq D] {cfg : Config D} {p q x : ShmPosition} {sp : TableSpace}
  {s t : State D} {L L' : Layout D} {d : D}

/-! ## The list of the caller -/

/-- The second `catch` block, with `r_slotAddrList`.  An exception of `freeMem` leaves the
block before the list is cleared. -/
def rollbackOut (cfg : Config D) (s : State D) (d : D)
    (oldSlots r_slotAddrList t_pageList : List ShmPosition) (e : MemError) :
    State D × List ShmPosition × Option MemError :=
  match freeMems cfg d s oldSlots with
  | (s, some e') => (s, r_slotAddrList, some e')
  | (s, none) => (t_pageList.foldl (freePage cfg) s, [], some e)

/-- The second part of `allocateMem`, with `r_slotAddrList`. -/
def allocateNewOut (cfg : Config D) (old : Progress D) (d : D) :
    Option (State D × List ShmPosition × Option MemError) :=
  match allocateFromSpaces cfg d (cfg.m_spaceList d) old.state old.slots [] old.t_needNum with
  | none => none
  | some (new, t_pageList) =>
    if new.t_needNum > 0 then
      some (rollbackOut cfg new.state d old.slots new.slots t_pageList .noSpace)
    else
      match addNewPageToDesc cfg new.state d t_pageList with
      | none => some (rollbackOut cfg new.state d old.slots new.slots t_pageList .badAddress)
      | some s => some (s, new.slots, none)

/-- `MemManager::allocateMem`: the state, `r_slotAddrList` and the exception, if any, when
the call ends. -/
def allocateMemOut (cfg : Config D) (s : State D) (d : D) (r_num : Int) :
    Option (State D × List ShmPosition × Option MemError) :=
  match allocateOld cfg s d r_num.toNat with
  | none => none
  | some old =>
    match old.error with
    | some e =>
      match freeMems cfg d old.state old.slots with
      | (s, some e') => some (s, old.slots, some e')
      | (s, none) => some (s, [], some e)
    | none =>
      if old.t_needNum = 0 then some (old.state, old.slots, none) else allocateNewOut cfg old d

/-- What a caller sees of an ended call: the exception, or else the list. -/
def outcome (r : State D × List ShmPosition × Option MemError) :
    State D × Except MemError (List ShmPosition) :=
  match r with
  | (s, _, some e) => (s, .error e)
  | (s, slots, none) => (s, .ok slots)

theorem outcome_rollbackOut (s : State D) (old slots pages : List ShmPosition) (e : MemError) :
    outcome (rollbackOut cfg s d old slots pages e) = rollback cfg s d old pages e := by
  unfold rollbackOut rollback
  rcases freeMems cfg d s old with ⟨t, _ | e'⟩ <;> rfl

theorem allocateNewOut_map (old : Progress D) :
    (allocateNewOut cfg old d).map outcome = allocateNew cfg old d := by
  unfold allocateNewOut allocateNew
  cases allocateFromSpaces cfg d (cfg.m_spaceList d) old.state old.slots [] old.t_needNum with
  | none => rfl
  | some new =>
      dsimp only
      by_cases hneed : new.1.t_needNum > 0
      · rw [if_pos hneed, if_pos hneed, Option.map_some, outcome_rollbackOut]
      · rw [if_neg hneed, if_neg hneed]
        cases addNewPageToDesc cfg new.1.state d new.2 with
        | none => rw [Option.map_some, outcome_rollbackOut]
        | some t => rfl

/-- **The list is what `allocateMem` returns**, when it returns. -/
theorem allocateMemOut_map (s : State D) (d : D) (r_num : Int) :
    (allocateMemOut cfg s d r_num).map outcome = allocateMem cfg s d r_num := by
  unfold allocateMemOut allocateMem
  cases allocateOld cfg s d r_num.toNat with
  | none => rfl
  | some old =>
      dsimp only
      cases old.error with
      | some e => rcases freeMems cfg d old.state old.slots with ⟨t, _ | e'⟩ <;> rfl
      | none =>
          dsimp only
          by_cases hneed : old.t_needNum = 0
          · rw [if_pos hneed, if_pos hneed]
            rfl
          · rw [if_neg hneed, if_neg hneed, allocateNewOut_map]

/-! ## The list is cleared -/

theorem freeMem_ne_noSpace : (freeMem cfg s d x).2 ≠ some .noSpace := by
  unfold freeMem
  cases getPageBySlot cfg x with
  | none => simp
  | some p =>
      dsimp only
      split
      · simp
      · split <;> simp

theorem freeMems_ne_noSpace (xs : List ShmPosition) (s : State D) :
    (freeMems cfg d s xs).2 ≠ some .noSpace := by
  induction xs generalizing s with
  | nil => simp [freeMems]
  | cons x xs ih =>
      have hone : (freeMem cfg s d x).2 ≠ some .noSpace := freeMem_ne_noSpace
      unfold freeMems
      rcases hfree : freeMem cfg s d x with ⟨t, _ | e⟩
      · exact ih t
      · rwa [hfree] at hone

theorem rollbackOut_slots {old slots pages : List ShmPosition} {e : MemError}
    (h : (rollbackOut cfg s d old slots pages e).2.2 = some .noSpace) :
    (rollbackOut cfg s d old slots pages e).2.1 = [] := by
  have hfree : (freeMems cfg d s old).2 ≠ some .noSpace := freeMems_ne_noSpace old s
  unfold rollbackOut at h ⊢
  rcases hfrees : freeMems cfg d s old with ⟨t, _ | e'⟩
  · rfl
  · rw [hfrees] at h hfree
    exact absurd h hfree

/-- **The list is empty after the no-space exception.** -/
theorem allocateMemOut_slots {r_num : Int} {slots : List ShmPosition}
    (h : allocateMemOut cfg s d r_num = some (t, slots, some .noSpace)) : slots = [] := by
  unfold allocateMemOut at h
  cases hold : allocateOld cfg s d r_num.toNat with
  | none =>
      rw [hold] at h
      cases h
  | some old =>
      rw [hold] at h
      dsimp only at h
      cases herror : old.error with
      | some e =>
          rw [herror] at h
          dsimp only at h
          have hfree : (freeMems cfg d old.state old.slots).2 ≠ some .noSpace :=
            freeMems_ne_noSpace old.slots old.state
          rcases hfrees : freeMems cfg d old.state old.slots with ⟨u, _ | e'⟩
          · rw [hfrees] at h
            cases h
            rfl
          · rw [hfrees] at h hfree
            cases h
            exact absurd rfl hfree
      | none =>
          rw [herror] at h
          dsimp only at h
          split at h
          · cases h
          · unfold allocateNewOut at h
            cases hnew : allocateFromSpaces cfg d (cfg.m_spaceList d) old.state old.slots []
                old.t_needNum with
            | none =>
                rw [hnew] at h
                cases h
            | some new =>
                rw [hnew] at h
                dsimp only at h
                split at h
                · have hroll := Option.some.inj h
                  have hslots := rollbackOut_slots (congrArg (fun r => r.2.2) hroll)
                  rw [hroll] at hslots
                  exact hslots
                · cases hadd : addNewPageToDesc cfg new.1.state d new.2 with
                  | none =>
                      rw [hadd] at h
                      have hroll := Option.some.inj h
                      have hslots := rollbackOut_slots (congrArg (fun r => r.2.2) hroll)
                      rw [hroll] at hslots
                      exact hslots
                  | some u =>
                      rw [hadd] at h
                      cases h

/-! ## What is allocated, read off the memory -/

/-- Following `m_next` from the first page of the list comes by `p`. -/
def OnLine (s : State D) (line : Line D) (p : ShmPosition) : Prop :=
  ∃ pages, Queue s.next nullShmPos (s.firstPage line) (s.lastPage line) pages ∧ p ∈ pages

/-- The slot lies in a page of `d` and is not among the idle slots of the page. -/
def Allocated (cfg : Config D) (s : State D) (d : D) (x : ShmPosition) : Prop :=
  ∃ p sp idle, OnLine s (.desc d) p ∧ SlotIn cfg d p sp x ∧
    Queue (slotNext s.mem p.m_spaceCode) nullPos (s.page p).m_fIdleSlot (s.page p).m_lIdleSlot
      idle ∧ x.m_offSet ∉ idle

omit [DecidableEq D] in
theorem Inv.onLine_iff (h : Inv cfg s L) (line : Line D) : OnLine s line p ↔ p ∈ L.lines line := by
  have hqueue := h.lines.queue line
  constructor
  · rintro ⟨pages, hpages, hp⟩
    rwa [chain_unique hqueue.1 hpages.1] at hp
  · exact fun hp => ⟨L.lines line, hqueue, hp⟩

omit [DecidableEq D] in
theorem Sound.allocated_iff (h : Sound cfg s L) :
    Allocated cfg s d x ↔ Held cfg L (.desc d) x := by
  constructor
  · rintro ⟨p, sp, idle, hp, hin, hidle, hnot⟩
    have howner := (h.inv.own.desc_iff d p).mp ((h.inv.onLine_iff _).mp hp)
    have hslots := (h.inv.slots p d sp hin.isPage (.inl howner)).2
    rw [chain_unique hslots.queue.1 hidle.1] at hnot
    exact ⟨d, p, sp, rfl, howner, hin, hnot⟩
  · rintro ⟨e, p, sp, huser, howner, hin, hnot⟩
    obtain rfl : d = e := by simpa [Owner.user] using huser
    have hslots := (h.inv.slots p d sp hin.isPage (.inl howner)).2
    exact ⟨p, sp, L.idle p, (h.inv.onLine_iff _).mpr ((h.inv.own.desc_iff d p).mpr howner), hin,
      hslots.queue, hnot⟩

/-- A request that ended in the state `t` with the list `slots` has changed nothing.  Every
descriptor has the slots and the pages that it had in the state `s`; every page has as many idle
slots as before, but for pages that the request took from the free ones and gave back to them; and
the list is empty. -/
structure Atomic (cfg : Config D) (s t : State D) (slots : List ShmPosition) : Prop where
  allocated : ∀ e x, Allocated cfg t e x ↔ Allocated cfg s e x
  pages : ∀ e p, OnLine t (.desc e) p ↔ OnLine s (.desc e) p
  idleNum : ∃ taken : List ShmPosition,
    (∀ p ∈ taken, OnLine s (.free p.m_spaceCode) p ∧ OnLine t (.free p.m_spaceCode) p) ∧
      ∀ p, p ∉ taken → (t.page p).m_idleNum = (s.page p).m_idleNum
  slots : slots = []

/-- **A request is atomic when the spaces are exhausted.**  Let any run of requests, frees, writes
into live slots and truncations, in which only descriptors ask whose slots fit, reach a state, and
let `allocateMem` raise the no-space exception there for such a descriptor. -/
theorem allocateMem_atomic (cfg : Config D) (garbage : State D) (events : List (Event D))
    (hfits : ∀ a ∈ events, a.Fits cfg) (sys : System D)
    (hrun : run (happen cfg) (start cfg garbage) events = some sys) (d : D) (hd : Fits cfg d)
    (r_num : Int) (t : State D) (slots : List ShmPosition)
    (hraise : allocateMemOut cfg sys.memory d r_num = some (t, slots, some .noSpace)) :
    Atomic cfg sys.memory t slots := by
  obtain ⟨L, hsound, hnone, -⟩ := history_inv hfits hrun
  obtain ⟨u, res, L', halloc, hsound', -, hres⟩ := hsound.allocateMem hnone hd r_num
  rw [← allocateMemOut_map, hraise] at halloc
  cases halloc
  obtain ⟨got, hgot, -⟩ | ⟨-, hundone⟩ := hres
  · cases hgot
  obtain ⟨taken, hfree, hidle⟩ := hundone.idle
  refine ⟨fun e x => ?_, fun e p => ?_, ⟨taken, fun p hp => ⟨?_, ?_⟩, hidle⟩,
    allocateMemOut_slots hraise⟩
  · rw [hsound.allocated_iff, hsound'.allocated_iff, hundone.held]
  · rw [hsound.inv.onLine_iff, hsound'.inv.onLine_iff, hsound.inv.own.desc_iff,
      hsound'.inv.own.desc_iff, hundone.owner]
  · rw [hsound.inv.onLine_iff, hsound.inv.own.free_iff]
    exact ⟨hfree p hp, rfl⟩
  · rw [hsound'.inv.onLine_iff, hsound'.inv.own.free_iff, hundone.owner]
    exact ⟨hfree p hp, rfl⟩

/-- The table has one of the two slots of its page and asks for four more: the page has
one, the other page of the space has two, and the request is undone. -/
theorem allocateMem_atomic_twoPages :
    ∃ sys t slots, run (happen twoPages) (start twoPages zeros)
      [.call (.allocateMem true 1), .truncate true 1, .call (.allocateMem false 1)] = some sys ∧
      allocateMemOut twoPages sys.memory false 4 = some (t, slots, some .noSpace) ∧
      Atomic twoPages sys.memory t slots := by
  have hraise : ((run (happen twoPages) (start twoPages zeros)
      [.call (.allocateMem true 1), .truncate true 1, .call (.allocateMem false 1)]).bind
        fun sys => allocateMemOut twoPages sys.memory false 4).map (fun r => r.2.2) =
      some (some .noSpace) := by
    decide +kernel
  obtain ⟨⟨t, slots, error⟩, hbind, herror⟩ := Option.map_eq_some_iff.mp hraise
  obtain ⟨sys, hrun, hout⟩ := Option.bind_eq_some_iff.mp hbind
  dsimp only at herror
  rw [herror] at hout
  exact ⟨sys, t, slots, hrun, hout, allocateMem_atomic twoPages zeros _ (by decide) sys hrun false
    (by decide) 4 t slots hout⟩

/-! ## Slots shorter than a link -/

omit [DecidableEq D] in
theorem onLine_null {s : State D} {line : Line D} (h : s.firstPage line = nullShmPos) :
    ¬ OnLine s line p := by
  rintro ⟨pages, ⟨hchain, -⟩, hp⟩
  rw [h] at hchain
  cases pages with
  | nil => cases hp
  | cons q rest => exact hchain.2.1 hchain.1.symm

/-- The code of the space is one byte without the sign. -/
theorem shortSlots_code_lt : 2 < 128 := by decide

/-- A page of the space has room behind its header. -/
theorem shortSlots_page_pos : sizeofPageInfo < 104 := by decide

/-- The records of a table are as long as a position, as one `int` is shorter, and its space has one
page. -/
def shortSlots : Config Bool where
  m_tableSpaceMgrList :=
    [⟨['T', 'S'], 2, 8, 152, 104, Nat.two_pos, shortSlots_code_lt, by decide, by decide,
      shortSlots_page_pos⟩]
  m_slotSize _ := 6
  m_spaceList _ := [['t', 's']]
  codes_nodup := by decide

/-- The link of the first slot is overwritten by that of the second.  Behind the first request the
page seems to be damaged, so the second one finds the spaces exhausted, and the three idle slots of
the page are lost. -/
theorem allocateMem_not_atomic :
    ¬ ∀ (events : List (Event Bool)) (sys : System Bool),
      run (happen shortSlots) (start shortSlots zeros) events = some sys →
      ∀ (d : Bool) (r_num : Int) (t : State Bool) (slots : List ShmPosition),
        allocateMemOut shortSlots sys.memory d r_num = some (t, slots, some .noSpace) →
        Atomic shortSlots sys.memory t slots := by
  intro hclaim
  have hraise : ((run (happen shortSlots) (start shortSlots zeros)
      [.call (.allocateMem false 1)]).bind fun sys =>
        (allocateMemOut shortSlots sys.memory false 1).map fun r => (sys.memory, r)).map
      (fun r => (r.1.firstPage (.free 2), (r.1.page ⟨2, 48⟩).m_idleNum,
        (r.2.1.page ⟨2, 48⟩).m_idleNum, r.2.2.2)) =
      some (nullShmPos, 3, 0, some .noSpace) := by
    decide +kernel
  obtain ⟨⟨s, t, slots, error⟩, hbind, hvalues⟩ := Option.map_eq_some_iff.mp hraise
  obtain ⟨sys, hrun, hout⟩ := Option.bind_eq_some_iff.mp hbind
  obtain ⟨r, hr, hpair⟩ := Option.map_eq_some_iff.mp hout
  obtain ⟨rfl, rfl⟩ := Prod.mk.inj hpair
  obtain ⟨hfirst, hvalues⟩ := Prod.mk.inj hvalues
  obtain ⟨hbefore, hvalues⟩ := Prod.mk.inj hvalues
  obtain ⟨hafter, herror⟩ := Prod.mk.inj hvalues
  dsimp only at hfirst hbefore hafter herror
  rw [herror] at hr
  obtain ⟨taken, hfree, hidle⟩ := (hclaim _ sys hrun false 1 t slots hr).idleNum
  have hnot : (⟨2, 48⟩ : ShmPosition) ∉ taken := fun hp => onLine_null hfirst (hfree _ hp).1
  have hsame := hidle _ hnot
  rw [hbefore, hafter] at hsame
  cases hsame

end MemManager
