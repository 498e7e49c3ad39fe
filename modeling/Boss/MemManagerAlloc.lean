import Boss.MemManagerSteps

/-!
# Handing out slots and taking them back

A slot is held when it lies in a page in use and is not idle.  `Grant` is the change of
a layout that hands out a list of slots: they were not held before, they are held
afterwards, and nothing else changes hands.  Grants compose, so what a batch allocation
hands out is what its rounds hand out one after the other.

Main results: `Sound.allocateRound` and `Sound.freeMem`.
-/

namespace MemManager

open PageInfo LinkedChain

variable {D : Type*} [DecidableEq D] {cfg : Config D} {p q x : ShmPosition} {sp sp' : TableSpace}
  {s t : State D} {L L' L'' : Layout D} {d : D} {o : Owner D} {got : List ShmPosition}

/-- The descriptor whose slots the pages of an owner are cut into. -/
def Owner.user : Owner D → Option D
  | .desc d => some d
  | .batch d => some d
  | _ => none

/-- The slot `x` lies in the page `p` of the space `sp`. -/
structure SlotIn (cfg : Config D) (d : D) (p : ShmPosition) (sp : TableSpace) (x : ShmPosition) :
    Prop where
  isPage : IsPage cfg p sp
  code : x.m_spaceCode = p.m_spaceCode
  slot : IsSlot sp.m_pageSize (cfg.m_slotSize d) p x.m_offSet

/-- The slot is not idle in a page of the owner. -/
def Held (cfg : Config D) (L : Layout D) (o : Owner D) (x : ShmPosition) : Prop :=
  ∃ d p sp, o.user = some d ∧ L.owner p = o ∧ SlotIn cfg d p sp x ∧ x.m_offSet ∉ L.idle p

omit [DecidableEq D] in
/-- Division finds the page of a slot. -/
theorem SlotIn.getPageBySlot (h : SlotIn cfg d p sp x) : getPageBySlot cfg x = some p := by
  have hin := h.slot.range h.isPage.size
  have hpos := h.slot.pos
  exact getPageBySlot_eq h.isPage h.code (by omega) (by omega)

omit [DecidableEq D] in
/-- A slot lies in one page only. -/
theorem SlotIn.page_unique {e : D} (h : SlotIn cfg d p sp x) (h' : SlotIn cfg e q sp' x) :
    q = p := by
  have hq := h'.getPageBySlot
  rw [h.getPageBySlot] at hq
  exact (Option.some.inj hq).symm

/-- From `L` to `L'` the owner `o` gets the slots `got`, and nothing else changes. -/
structure Grant (cfg : Config D) (L L' : Layout D) (o : Owner D) (got : List ShmPosition) :
    Prop where
  nodup : got.Nodup
  fresh : ∀ x ∈ got, ¬ Held cfg L o x
  held : ∀ o' x, Held cfg L' o' x ↔ Held cfg L o' x ∨ (o' = o ∧ x ∈ got)

section

omit [DecidableEq D]

theorem Grant.refl : Grant cfg L L o [] := ⟨List.nodup_nil, by simp, by simp⟩

/-- **Grants compose.** -/
theorem Grant.trans {more : List ShmPosition} (h : Grant cfg L L' o got)
    (h' : Grant cfg L' L'' o more) : Grant cfg L L'' o (got ++ more) where
  nodup := by
    refine List.nodup_append.mpr ⟨h.nodup, h'.nodup, ?_⟩
    intro x hx y hy heq
    subst heq
    exact h'.fresh x hy ((h.held o x).mpr (.inr ⟨rfl, hx⟩))
  fresh := by
    intro x hx hheld
    rcases List.mem_append.mp hx with hx | hx
    · exact h.fresh x hx hheld
    · exact h'.fresh x hx ((h.held o x).mpr (.inl hheld))
  held := by
    intro o' x
    rw [h'.held o' x, h.held o' x, List.mem_append]
    tauto

/-- Taking the first idle slots of one page. -/
theorem grant_take (L' : Layout D) (hp : IsPage cfg p sp) (huser : o.user = some d)
    (howner : L.owner p = o)
    (hsame : L'.owner = L.owner) {n : Nat}
    (hidle : L'.idle = Function.update L.idle p ((L.idle p).drop n)) (hnodup : (L.idle p).Nodup)
    (hslot : ∀ off ∈ L.idle p, IsSlot sp.m_pageSize (cfg.m_slotSize d) p off) :
    Grant cfg L L' o (((L.idle p).take n).map fun off => ⟨p.m_spaceCode, off⟩) := by
  have hsplit : ∀ off, off ∈ L.idle p ↔ off ∈ (L.idle p).take n ∨ off ∈ (L.idle p).drop n := by
    intro off
    rw [← List.mem_append, List.take_append_drop]
  have hapart : ∀ off, off ∈ (L.idle p).take n → off ∉ (L.idle p).drop n := by
    intro off htake hdrop
    have hboth := hnodup
    rw [← List.take_append_drop n (L.idle p)] at hboth
    exact (List.nodup_append.mp hboth).2.2 off htake off hdrop rfl
  refine ⟨?_, ?_, ?_⟩
  · apply List.Nodup.map _ (hnodup.sublist (List.take_sublist n _))
    intro off off' heq
    exact congrArg ShmPosition.m_offSet heq
  · intro x hx hheld
    obtain ⟨off, hoff, rfl⟩ := List.mem_map.mp hx
    obtain ⟨e, q, spq, -, -, hin, hnot⟩ := hheld
    have hself : SlotIn cfg d p sp ⟨p.m_spaceCode, off⟩ :=
      ⟨hp, rfl, hslot off (List.mem_of_mem_take hoff)⟩
    obtain rfl := hself.page_unique hin
    exact hnot (List.mem_of_mem_take hoff)
  · intro o' x
    constructor
    · rintro ⟨e, q, spq, huser', howner', hin, hnot⟩
      rw [hsame] at howner'
      by_cases hqp : q = p
      · subst hqp
        rw [hidle, Function.update_self] at hnot
        by_cases hmem : x.m_offSet ∈ L.idle q
        · have htake : x.m_offSet ∈ (L.idle q).take n :=
            ((hsplit _).mp hmem).resolve_right hnot
          refine .inr ⟨howner'.symm.trans howner, List.mem_map.mpr ⟨_, htake, ?_⟩⟩
          rw [← hin.code]
        · exact .inl ⟨e, q, spq, huser', howner', hin, hmem⟩
      · rw [hidle, Function.update_of_ne hqp] at hnot
        exact .inl ⟨e, q, spq, huser', howner', hin, hnot⟩
    · rintro (⟨e, q, spq, huser', howner', hin, hnot⟩ | ⟨rfl, hx⟩)
      · refine ⟨e, q, spq, huser', hsame ▸ howner', hin, ?_⟩
        by_cases hqp : q = p
        · subst hqp
          rw [hidle, Function.update_self]
          exact fun hdrop => hnot (List.mem_of_mem_drop hdrop)
        · rwa [hidle, Function.update_of_ne hqp]
      · obtain ⟨off, hoff, rfl⟩ := List.mem_map.mp hx
        refine ⟨d, p, sp, huser, hsame ▸ howner,
          ⟨hp, rfl, hslot off (List.mem_of_mem_take hoff)⟩, ?_⟩
        rw [hidle, Function.update_self]
        exact hapart off hoff

/-- A page all of whose slots are idle holds nothing, whoever gets it. -/
theorem grant_idlePage (hfree : (L.owner p).user = none) (hp : IsPage cfg p sp)
    (howner : ∀ q, q ≠ p → L'.owner q = L.owner q) (hidle : ∀ q, q ≠ p → L'.idle q = L.idle q)
    (hself : ∀ d, (L'.owner p).user = some d →
      ∀ off, IsSlot sp.m_pageSize (cfg.m_slotSize d) p off → off ∈ L'.idle p) :
    Grant cfg L L' o [] := by
  refine ⟨List.nodup_nil, by simp, ?_⟩
  intro o' x
  simp only [List.not_mem_nil, and_false, or_false]
  constructor
  · rintro ⟨e, q, spq, huser, howner', hin, hnot⟩
    by_cases hqp : q = p
    · subst hqp
      obtain rfl := hp.space_unique hin.isPage rfl
      exact absurd (hself e (howner' ▸ huser) _ hin.slot) hnot
    · exact ⟨e, q, spq, huser, (howner q hqp) ▸ howner', hin, (hidle q hqp) ▸ hnot⟩
  · rintro ⟨e, q, spq, huser, howner', hin, hnot⟩
    have hqp : q ≠ p := by
      rintro rfl
      rw [← howner', hfree] at huser
      cases huser
    exact ⟨e, q, spq, huser, (howner q hqp).trans howner', hin, (hidle q hqp).symm ▸ hnot⟩

end

/-! ## Freeing -/

/-- The memory represents a layout whose not-full queues are right. -/
structure Sound (cfg : Config D) (s : State D) (L : Layout D) : Prop where
  inv : Inv cfg s L
  balanced : Balanced s L

omit [DecidableEq D] in
/-- The last page of the not-full queue is found. -/
theorem Inv.attached_lastNotFull (h : Inv cfg s L) (d : D) :
    attached cfg (s.desc d).m_lastNotFullPage = true := by
  by_cases hlast : s.lastNotFull d = nullShmPos
  · have hnull : (s.desc d).m_lastNotFullPage = nullShmPos := hlast
    simp [attached, hnull]
  · obtain ⟨front, hfront⟩ := queue_last (h.notFull.queue d) hlast
    have howner := h.own.notFull_owner d (s.lastNotFull d) (by simp [hfront])
    obtain ⟨sp, hp⟩ := h.own.isPage _ (by rw [howner]; simp)
    exact hp.attached

/-- **`freeMem` of a held slot** returns, and takes this slot and no other. -/
theorem Sound.freeMem (h : Sound cfg s L) (hheld : Held cfg L (.desc d) x) :
    ∃ t L', freeMem cfg s d x = (t, none) ∧ Sound cfg t L' ∧ L'.owner = L.owner ∧
      ∀ o y, Held cfg L' o y ↔ Held cfg L o y ∧ y ≠ x := by
  obtain ⟨e, p, sp, huser, howner, hin, hnot⟩ := hheld
  obtain rfl : d = e := by simpa [Owner.user] using huser
  have hpage := hin.getPageBySlot
  have hused : UsedBy L p d := .inl howner
  have hnum : (s.page p).m_idleNum = (L.idle p).length :=
    (h.inv.slots p d sp hin.isPage hused).2.num
  obtain ⟨hfree, hlink⟩ := h.inv.freeNode hin.isPage hused hin.slot hnot
  -- who holds what once the slot is idle
  have hsets : ∀ L' : Layout D, L'.owner = L.owner →
      L'.idle = Function.update L.idle p (L.idle p ++ [x.m_offSet]) →
      ∀ o y, Held cfg L' o y ↔ Held cfg L o y ∧ y ≠ x := by
    intro L' hsame hidle o y
    constructor
    · rintro ⟨e, q, spq, huser', howner', hin', hnot'⟩
      rw [hsame] at howner'
      by_cases hqp : q = p
      · subst hqp
        rw [hidle, Function.update_self, List.mem_append, List.mem_singleton, not_or] at hnot'
        exact ⟨⟨e, q, spq, huser', howner', hin', hnot'.1⟩, fun heq => hnot'.2 (by rw [heq])⟩
      · rw [hidle, Function.update_of_ne hqp] at hnot'
        exact ⟨⟨e, q, spq, huser', howner', hin', hnot'⟩,
          fun heq => hqp (hin.page_unique (heq ▸ hin'))⟩
    · rintro ⟨⟨e, q, spq, huser', howner', hin', hnot'⟩, hne⟩
      refine ⟨e, q, spq, huser', hsame ▸ howner', hin', ?_⟩
      by_cases hqp : q = p
      · subst hqp
        rw [hidle, Function.update_self, List.mem_append, List.mem_singleton, not_or]
        refine ⟨hnot', fun heq => hne ?_⟩
        have hcode : y.m_spaceCode = x.m_spaceCode := hin'.code.trans hin.code.symm
        cases x
        cases y
        simp_all
      · rwa [hidle, Function.update_of_ne hqp]
  have hlinks : ∀ q, ({ s.setPage p ((s.page p).freeNode s.mem p x.m_offSet).1 with
      mem := ((s.page p).freeNode s.mem p x.m_offSet).2 } : State D).nextNotFull q =
      s.nextNotFull q := by
    intro q
    have hset := nextNotFull_setPage s p ((s.page p).freeNode s.mem p x.m_offSet).1
    rw [hlink, Function.update_eq_self] at hset
    exact congrFun hset q
  unfold MemManager.freeMem
  rw [hpage]
  dsimp only
  by_cases hidle : L.idle p = []
  · -- the page was full and enters the queue
    have hnotMem : p ∉ L.notFull d := fun hmem =>
      (h.balanced.mem_iff d p howner).mp hmem hidle
    have hnull := h.balanced.full d p howner hidle
    obtain ⟨hadd, hsame⟩ := hfree.addNotFull howner hnotMem ((hlinks p).trans hnull)
    rw [if_neg (by simp [hnum, hidle]), setPage_desc, if_pos (h.inv.attached_lastNotFull d)]
    refine ⟨_, _, rfl, ⟨hadd, ?_, ?_⟩, rfl, hsets _ rfl rfl⟩
    · intro e q hq
      have hmem := h.balanced.mem_iff e q hq
      by_cases hqp : q = p
      · subst hqp
        have hed : d = e := by simpa [howner] using hq
        subst hed
        simp
      · by_cases hed : e = d
        · subst hed
          simpa [hqp] using hmem
        · simpa [hqp, hed] using hmem
    · intro e q hq hempty
      have hqp : q ≠ p := fun heq => by simp [heq] at hempty
      have hempty' : L.idle q = [] := by simpa [hqp] using hempty
      have hqnot : q ∉ L.notFull d := fun hmem =>
        (h.balanced.mem_iff d q (h.inv.own.notFull_owner d q hmem)).mp hmem hempty'
      exact (hsame q hqnot).trans ((hlinks q).trans (h.balanced.full e q hq hempty'))
  · rw [if_pos (by rw [hnum]; exact List.length_pos_iff.mpr hidle)]
    refine ⟨_, _, rfl, ⟨hfree, ?_, ?_⟩, rfl, hsets _ rfl rfl⟩
    · intro e q hq
      have hmem := h.balanced.mem_iff e q hq
      by_cases hqp : q = p
      · subst hqp
        simpa [hidle] using hmem
      · simpa [hqp] using hmem
    · intro e q hq hempty
      have hqp : q ≠ p := fun heq => by simp [heq] at hempty
      exact (hlinks q).trans (h.balanced.full e q hq (by simpa [hqp] using hempty))

/-- Freeing held slots one after the other. -/
theorem Sound.freeMems (h : Sound cfg s L) {xs : List ShmPosition} (hnodup : xs.Nodup)
    (hheld : ∀ x ∈ xs, Held cfg L (.desc d) x) :
    ∃ t L', freeMems cfg d s xs = (t, none) ∧ Sound cfg t L' ∧ L'.owner = L.owner ∧
      ∀ o y, Held cfg L' o y ↔ Held cfg L o y ∧ y ∉ xs := by
  induction xs generalizing s L with
  | nil => exact ⟨s, L, rfl, h, rfl, by simp⟩
  | cons x xs ih =>
      obtain ⟨hx, hxs⟩ := List.nodup_cons.mp hnodup
      obtain ⟨s₁, L₁, hfree, hsound, howner, hset⟩ := h.freeMem (hheld x List.mem_cons_self)
      have hheld₁ : ∀ y ∈ xs, Held cfg L₁ (.desc d) y := by
        intro y hy
        rw [hset]
        exact ⟨hheld y (List.mem_cons_of_mem x hy), fun heq => hx (heq ▸ hy)⟩
      obtain ⟨t, L', hrest, hsound', howner', hset'⟩ := ih hsound hxs hheld₁
      refine ⟨t, L', ?_, hsound', howner'.trans howner, ?_⟩
      · rw [MemManager.freeMems, hfree]
        exact hrest
      · intro o y
        rw [hset', hset, List.mem_cons, not_or, and_assoc]

theorem addNotFull_idleNum (s : State D) (d : D) (p q : ShmPosition) :
    ((addNotFull s d p).page q).m_idleNum = (s.page q).m_idleNum := by
  unfold addNotFull
  dsimp only
  by_cases hlast : (s.desc d).m_lastNotFullPage = nullShmPos
  · rw [if_pos hlast]
    rfl
  · rw [if_neg hlast, setDesc_page]
    by_cases hq : q = (s.desc d).m_lastNotFullPage
    · rw [hq, setPage_self]
    · rw [setPage_of_ne _ _ hq]

/-- Only the page of the slot gets an idle slot more. -/
theorem freeMem_idleNum (hq : getPageBySlot cfg x ≠ some q) :
    ((freeMem cfg s d x).1.page q).m_idleNum = (s.page q).m_idleNum := by
  unfold MemManager.freeMem
  cases hpage : getPageBySlot cfg x with
  | none => rfl
  | some p =>
      have hqp : q ≠ p := fun heq => hq (by rw [hpage, heq])
      dsimp only
      by_cases hidle : (s.page p).m_idleNum > 0
      · rw [if_pos hidle]
        simp [hqp]
      · rw [if_neg hidle]
        split
        · rw [addNotFull_idleNum]
          simp [hqp]
        · simp [hqp]

theorem freeMems_idleNum {xs : List ShmPosition}
    (hq : ∀ x ∈ xs, getPageBySlot cfg x ≠ some q) :
    ((freeMems cfg d s xs).1.page q).m_idleNum = (s.page q).m_idleNum := by
  induction xs generalizing s with
  | nil => rfl
  | cons x xs ih =>
      have hone := freeMem_idleNum (s := s) (d := d) (hq x List.mem_cons_self)
      unfold MemManager.freeMems
      rcases hfree : MemManager.freeMem cfg s d x with ⟨t, _ | e⟩
      · rw [hfree] at hone
        exact (ih fun y hy => hq y (List.mem_cons_of_mem x hy)).trans hone
      · rw [hfree] at hone
        exact hone

omit [DecidableEq D] in
/-- The slots that are idle are those nobody holds. -/
theorem Sound.mem_idle (h : Sound cfg s L) (howner : L.owner p = .desc d) (hp : IsPage cfg p sp)
    (off : Nat) :
    off ∈ L.idle p ↔ IsSlot sp.m_pageSize (cfg.m_slotSize d) p off ∧
      ¬ Held cfg L (.desc d) ⟨p.m_spaceCode, off⟩ := by
  have hslots := (h.inv.slots p d sp hp (.inl howner)).2
  constructor
  · intro hoff
    refine ⟨hslots.slot off hoff, ?_⟩
    rintro ⟨e, q, spq, -, -, hin, hnot⟩
    have hself : SlotIn cfg d p sp ⟨p.m_spaceCode, off⟩ := ⟨hp, rfl, hslots.slot off hoff⟩
    obtain rfl := hself.page_unique hin
    exact hnot hoff
  · rintro ⟨hslot, hfree⟩
    by_contra hnot
    exact hfree ⟨d, p, sp, rfl, howner, ⟨hp, rfl, hslot⟩, hnot⟩

omit [DecidableEq D] in
/-- A page has as many idle slots as before when the same slots are held. -/
theorem Sound.idleNum_eq (h : Sound cfg s L) (h' : Sound cfg t L')
    (howner : L.owner p = .desc d) (howner' : L'.owner p = .desc d)
    (hheld : ∀ x, Held cfg L' (.desc d) x ↔ Held cfg L (.desc d) x) :
    (t.page p).m_idleNum = (s.page p).m_idleNum := by
  obtain ⟨sp, hp⟩ := h.inv.own.isPage p (by simp [howner])
  have hslots := (h.inv.slots p d sp hp (.inl howner)).2
  have hslots' := (h'.inv.slots p d sp hp (.inl howner')).2
  rw [hslots'.num, hslots.num]
  refine ((List.perm_ext_iff_of_nodup hslots'.nodup hslots.nodup).mpr fun off => ?_).length_eq
  rw [h'.mem_idle howner' hp, h.mem_idle howner hp, hheld]

/-! ## The not-full pages -/

/-- One round over the not-full pages takes at least one slot. -/
theorem Sound.allocateRound (h : Sound cfg s L) {rest : List ShmPosition} {need : Nat}
    (hlist : L.notFull d = p :: rest) (hneed : need ≠ 0) :
    let r := (s.page p).allocateNode s.mem p need
    attached cfg p = true ∧ 0 < r.2.length ∧ r.2.length ≤ need ∧
    r.1.m_nextNotNullPage = s.nextNotFull p ∧
    (r.1.m_idleNum ≠ 0 → need ≤ r.2.length ∧
      ∃ L', Sound cfg (s.setPage p r.1) L' ∧ L'.owner = L.owner ∧ Grant cfg L L' (.desc d) r.2) ∧
    (r.1.m_idleNum = 0 →
      ∃ L', Sound cfg ((s.setPage p { r.1 with m_nextNotNullPage := nullShmPos }).setDesc d
          { s.desc d with
            m_firstNotFullPage := s.nextNotFull p
            m_lastNotFullPage := if s.nextNotFull p = nullShmPos then nullShmPos
              else (s.desc d).m_lastNotFullPage }) L' ∧
        L'.owner = L.owner ∧ Grant cfg L L' (.desc d) r.2) := by
  have howner : L.owner p = .desc d := h.inv.own.notFull_owner d p (by simp [hlist])
  obtain ⟨sp, hp⟩ := h.inv.own.isPage p (by simp [howner])
  have hused : UsedBy L p d := .inl howner
  have hidle : L.idle p ≠ [] := (h.balanced.mem_iff d p howner).mp (by simp [hlist])
  have hslots := (h.inv.slots p d sp hp hused).2
  obtain ⟨htake, hgot, hnext, hnum⟩ := h.inv.allocateNode hp hused need
  have hgrant := grant_take
    { L with idle := Function.update L.idle p ((L.idle p).drop need) } hp
    (rfl : (Owner.desc d).user = some d) howner rfl rfl hslots.nodup hslots.slot
  have hlen : ((s.page p).allocateNode s.mem p need).2.length =
      min need (L.idle p).length := by
    rw [hgot]
    simp
  have hpos : 0 < (L.idle p).length := List.length_pos_iff.mpr hidle
  rw [← hgot] at hgrant
  refine ⟨hp.attached, by omega, by omega, hnext, ?_, ?_⟩
  · intro hmore
    rw [hnum, List.length_drop] at hmore
    have hlinks : (s.setPage p ((s.page p).allocateNode s.mem p need).1).nextNotFull =
        s.nextNotFull := by
      rw [nextNotFull_setPage, hnext, Function.update_eq_self]
    refine ⟨by omega, _, ⟨htake, ?_, ?_⟩, rfl, hgrant⟩
    · intro e q hq
      have hmem := h.balanced.mem_iff e q hq
      by_cases hqp : q = p
      · subst hqp
        have hleft : (L.idle q).drop need ≠ [] := by
          intro hnil
          have := congrArg List.length hnil
          rw [List.length_drop, List.length_nil] at this
          omega
        dsimp only
        rw [Function.update_self, hmem]
        exact ⟨fun _ => hleft, fun _ => hidle⟩
      · dsimp only
        rwa [Function.update_of_ne hqp]
    · intro e q hq hempty
      rw [hlinks]
      apply h.balanced.full e q hq
      by_cases hqp : q = p
      · subst hqp
        have hnil : (L.idle q).drop need = [] := by simpa using hempty
        have := congrArg List.length hnil
        rw [List.length_drop, List.length_nil] at this
        omega
      · simpa [hqp] using hempty
  · intro hzero
    rw [hnum] at hzero
    have hnil : (L.idle p).drop need = [] := List.eq_nil_of_length_eq_zero hzero
    have hpop := htake.popNotFull (d := d) (p := p) hlist
    have hnext' : (s.setPage p ((s.page p).allocateNode s.mem p need).1).nextNotFull p =
        s.nextNotFull p := by
      rw [nextNotFull_setPage, Function.update_self, hnext]
    rw [hnext'] at hpop
    simp only [setPage_self, setPage_desc] at hpop
    have hstate : (s.setPage p ((s.page p).allocateNode s.mem p need).1).setPage p
        { ((s.page p).allocateNode s.mem p need).1 with m_nextNotNullPage := nullShmPos } =
        s.setPage p
          { ((s.page p).allocateNode s.mem p need).1 with m_nextNotNullPage := nullShmPos } := by
      simp [State.setPage]
    rw [hstate] at hpop
    have hnodup := hlist ▸ h.inv.notFull.nodup d
    have hpnot : p ∉ rest := (List.nodup_cons.mp hnodup).1
    refine ⟨_, ⟨hpop, ?_, ?_⟩, rfl, ?_⟩
    · intro e q hq
      have hmem := h.balanced.mem_iff e q hq
      by_cases hqp : q = p
      · subst hqp
        have hed : d = e := by simpa [howner] using hq
        subst hed
        simp [hnil, hpnot]
      · by_cases hed : e = d
        · subst hed
          rw [hlist] at hmem
          simpa [hqp] using hmem
        · simpa [hqp, hed] using hmem
    · intro e q hq hempty
      have hset := nextNotFull_setPage s p
        { ((s.page p).allocateNode s.mem p need).1 with m_nextNotNullPage := nullShmPos }
      refine (congrFun hset q).trans ?_
      by_cases hqp : q = p
      · subst hqp
        simp
      · rw [Function.update_of_ne hqp]
        exact h.balanced.full e q hq (by simpa [hqp] using hempty)
    · exact ⟨hgrant.nodup, hgrant.fresh, hgrant.held⟩

end MemManager
