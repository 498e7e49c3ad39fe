import Boss.PageInfo
import Mathlib.Data.List.Basic

/-!
# The memory manager of table spaces

Tables and indexes get their slots from pages, and their pages from table spaces.
A descriptor keeps two queues of its pages: all of them, linked by `m_next`, and
those with an idle slot, linked by `m_nextNotNullPage`.  A table space keeps the
queue of its free pages, linked by `m_next` as well.  `allocateMem` serves a request
from the not-full pages first and takes new pages for the rest; when the spaces are
exhausted it gives everything back.  `freeMem` finds the page of a slot by division.

The functions below follow `MemManager`, `TableMemMgr` and `PageMemMgr`.  The locks
of the table spaces are always granted here: one caller runs at a time.  A loop that
is only bounded by the state takes a bound on its rounds and gives `none` when that is
too small.
-/

namespace MemManager

open PageInfo

/-- `T_NAMEDEF`, the characters of a name. -/
abbrev Name := List Char

/-- `strcasecmp(a,b)==0`. -/
def strcasecmp (a b : Name) : Bool := decide (a.map Char.toLower = b.map Char.toLower)

/-- A table space after `f_init`: its name and number, where its page list starts, how
long it and its pages are.  `f_init` refuses pages no longer than their header and
offsets that do not fit in a position. -/
structure TableSpace where
  m_spaceName : Name
  m_spaceCode : Nat
  m_sOffSet : Nat
  m_size : Nat
  m_pageSize : Nat
  code_pos : 0 < m_spaceCode
  code_lt : m_spaceCode < 128
  header_le : m_sOffSet + 40 ≤ m_size
  size_le : m_size ≤ 2 ^ 40
  page_pos : sizeofPageInfo < m_pageSize

namespace TableSpace

/-- `sizeof(PageListInfo)`. -/
def sizeofPageListInfo : Nat := 40

def pageNum (sp : TableSpace) : Nat :=
  (sp.m_size - sp.m_sOffSet - sizeofPageListInfo) / sp.m_pageSize

/-- The offset of the `k`-th page. -/
def pageOffSet (sp : TableSpace) (k : Nat) : Nat :=
  sp.m_sOffSet + sizeofPageListInfo + k * sp.m_pageSize

end TableSpace

/-- The table spaces that are attached and, for every table and index descriptor, the
length of its slots and the names of its table spaces. -/
structure Config (D : Type*) where
  m_tableSpaceMgrList : List TableSpace
  m_slotSize : D → Nat
  m_spaceList : D → List Name
  codes_nodup : (m_tableSpaceMgrList.map TableSpace.m_spaceCode).Nodup

/-- `PageListInfo`, the head of the free pages of a space. -/
structure PageListInfo where
  m_idleNum : Nat
  m_fIdlePage : Nat
  m_lIdlePage : Nat
  deriving DecidableEq, Repr

/-- `DescPageInfo`; its slot length is in the configuration. -/
structure DescPageInfo where
  m_firstPage : ShmPosition
  m_lastPage : ShmPosition
  m_firstNotFullPage : ShmPosition
  m_lastNotFullPage : ShmPosition
  deriving DecidableEq, Repr

/-- `DescPageInfo::initPos`. -/
def initPos : DescPageInfo := ⟨nullShmPos, nullShmPos, nullShmPos, nullShmPos⟩

/-- The exceptions, with their texts. -/
inductive MemError where
  /-- 根据偏移量取物理地址失败! -/
  | badAddress
  /-- 根据页面位置取页面失败! -/
  | badPage
  /-- 没有足够的表空间分配! -/
  | noSpace
  deriving DecidableEq, Repr

/-- Shared memory: page headers, slot bytes, the free pages of every space and the pages
of every descriptor. -/
structure State (D : Type*) where
  page : ShmPosition → PageInfo
  mem : Mem
  m_pHeader : Nat → PageListInfo
  desc : D → DescPageInfo

variable {D : Type*} [DecidableEq D]

namespace State

def setPage (s : State D) (p : ShmPosition) (v : PageInfo) : State D :=
  { s with page := Function.update s.page p v }

def setDesc (s : State D) (d : D) (v : DescPageInfo) : State D :=
  { s with desc := Function.update s.desc d v }

def setHeader (s : State D) (code : Nat) (v : PageListInfo) : State D :=
  { s with m_pHeader := Function.update s.m_pHeader code v }

end State

variable (cfg : Config D)

/-- The search for a table space by its number. -/
def spaceByCode (code : Nat) : Option TableSpace :=
  cfg.m_tableSpaceMgrList.find? fun sp => sp.m_spaceCode = code

/-- The search for a table space by its name. -/
def spaceByName (name : Name) : Option TableSpace :=
  cfg.m_tableSpaceMgrList.find? fun sp => strcasecmp sp.m_spaceName name

/-- `getPageInfo` does not throw: the space of the position is attached. -/
def attached (p : ShmPosition) : Bool :=
  decide (p = nullShmPos) || (spaceByCode cfg p.m_spaceCode).isSome

/-! ## Table spaces -/

/-- One round of the loop of `f_init` that prepares the pages. -/
def initPage (sp : TableSpace) (page : ShmPosition → PageInfo) (i : Nat) :
    ShmPosition → PageInfo :=
  let pos : ShmPosition := ⟨sp.m_spaceCode, sp.pageOffSet i⟩
  Function.update page pos
    { page pos with
      m_spaceCode := sp.m_spaceCode
      m_pos := sp.pageOffSet i
      m_pageSize := sp.m_pageSize
      m_nextNotNullPage := nullShmPos
      m_next := if i + 1 = sp.pageNum then nullShmPos
        else ⟨sp.m_spaceCode, sp.pageOffSet i + sp.m_pageSize⟩ }

/-- `PageMemMgr::f_init` of one space, over whatever the memory held before. -/
def f_init (s : State D) (sp : TableSpace) : State D :=
  let pageNum := sp.pageNum
  { s with
    m_pHeader := Function.update s.m_pHeader sp.m_spaceCode
      { m_idleNum := pageNum
        m_fIdlePage := if pageNum = 0 then nullPos else sp.pageOffSet 0
        m_lIdlePage := if pageNum = 0 then nullPos
          else sp.pageOffSet 0 + (pageNum - 1) * sp.m_pageSize }
    page := (List.range pageNum).foldl (initPage sp) s.page }

/-- All table spaces are initialised and all descriptors are empty.  A space that is
not attached has no pages. -/
def create (garbage : State D) : State D :=
  cfg.m_tableSpaceMgrList.foldl f_init
    { garbage with desc := fun _ => initPos, m_pHeader := fun _ => ⟨0, nullPos, nullPos⟩ }

/-- `TableMemMgr::allocatePage`: the first free page of the named space. -/
def allocatePage (s : State D) (r_spaceName : Name) : Option (ShmPosition × State D) :=
  match spaceByName cfg r_spaceName with
  | none => none
  | some sp =>
    let header := s.m_pHeader sp.m_spaceCode
    if header.m_idleNum = 0 then none
    else
      let pos : ShmPosition := ⟨sp.m_spaceCode, header.m_fIdlePage⟩
      let next := (s.page pos).m_next
      if next = nullShmPos then
        some (pos, s.setHeader sp.m_spaceCode
          { header with
            m_fIdlePage := nullPos, m_lIdlePage := nullPos, m_idleNum := header.m_idleNum - 1 })
      else
        some (pos, s.setHeader sp.m_spaceCode
          { header with m_fIdlePage := next.m_offSet, m_idleNum := header.m_idleNum - 1 })

/-- `TableMemMgr::freePage`; every caller here ignores the answer `false`. -/
def freePage (s : State D) (r_pagePos : ShmPosition) : State D :=
  match spaceByCode cfg r_pagePos.m_spaceCode with
  | none => s
  | some sp =>
    let header := s.m_pHeader sp.m_spaceCode
    if (s.page r_pagePos).m_pos ≠ r_pagePos.m_offSet then s
    else if header.m_lIdlePage = nullPos then
      (s.setPage r_pagePos { s.page r_pagePos with m_next := nullShmPos }).setHeader sp.m_spaceCode
        { header with
          m_fIdlePage := r_pagePos.m_offSet
          m_lIdlePage := r_pagePos.m_offSet
          m_idleNum := header.m_idleNum + 1 }
    else
      let prev : ShmPosition := ⟨sp.m_spaceCode, header.m_lIdlePage⟩
      let s := s.setPage prev { s.page prev with m_next := r_pagePos }
      (s.setPage r_pagePos { s.page r_pagePos with m_next := nullShmPos }).setHeader sp.m_spaceCode
        { header with
          m_lIdlePage := r_pagePos.m_offSet
          m_idleNum := header.m_idleNum + 1 }

/-- `TableMemMgr::getPageBySlot`: the page that the offset of a slot falls into. -/
def getPageBySlot (r_slot : ShmPosition) : Option ShmPosition :=
  match spaceByCode cfg r_slot.m_spaceCode with
  | none => none
  | some sp =>
    if r_slot.m_offSet > sp.m_size then none
    else
      let t_offSet := r_slot.m_offSet - sp.m_sOffSet - TableSpace.sizeofPageListInfo
      some ⟨sp.m_spaceCode, sp.pageOffSet (t_offSet / sp.m_pageSize)⟩

/-! ## Slots of a descriptor -/

/-- A page becomes the last one of the not-full queue. -/
def addNotFull (s : State D) (d : D) (t_pagePos : ShmPosition) : State D :=
  let info := s.desc d
  let last := info.m_lastNotFullPage
  if last = nullShmPos then
    s.setDesc d { info with m_firstNotFullPage := t_pagePos, m_lastNotFullPage := t_pagePos }
  else
    (s.setPage last { s.page last with m_nextNotNullPage := t_pagePos }).setDesc d
      { info with m_lastNotFullPage := t_pagePos }

/-- `MemManager::freeMem`: the state afterwards, also when it throws. -/
def freeMem (s : State D) (d : D) (r_addr : ShmPosition) : State D × Option MemError :=
  match getPageBySlot cfg r_addr with
  | none => (s, some .badPage)
  | some t_pagePos =>
    let page := s.page t_pagePos
    let r := page.freeNode s.mem t_pagePos r_addr.m_offSet
    let s := { s.setPage t_pagePos r.1 with mem := r.2 }
    if page.m_idleNum > 0 then (s, none)
    else if attached cfg (s.desc d).m_lastNotFullPage then (addNotFull s d t_pagePos, none)
    else (s, some .badAddress)

/-- `freeMem` of one slot after the other. -/
def freeMems (d : D) : State D → List ShmPosition → State D × Option MemError
  | s, [] => (s, none)
  | s, slot :: rest =>
    match freeMem cfg s d slot with
    | (s, some e) => (s, some e)
    | (s, none) => freeMems d s rest

/-- What the two allocation loops leave: the state, the slots so far, the number still
needed, and for the first one the exception that ended it. -/
structure Progress (D : Type*) where
  state : State D
  slots : List ShmPosition
  t_needNum : Nat
  error : Option MemError := none

/-- The loop over the not-full pages. -/
def allocateNotFull (d : D) :
    Nat → State D → List ShmPosition → Nat → ShmPosition → Option (Progress D)
  | rounds, s, slots, t_needNum, t_pagePos =>
    if t_needNum = 0 then some ⟨s, slots, 0, none⟩
    else
      match rounds with
      | 0 => none
      | rounds + 1 =>
        if attached cfg t_pagePos = false then some ⟨s, slots, t_needNum, some .badAddress⟩
        else
          let r := (s.page t_pagePos).allocateNode s.mem t_pagePos t_needNum
          let t_needNum := t_needNum - r.2.length
          let next := r.1.m_nextNotNullPage
          if r.1.m_idleNum = 0 then
            let s := (s.setPage t_pagePos { r.1 with m_nextNotNullPage := nullShmPos }).setDesc d
              { s.desc d with m_firstNotFullPage := next }
            if next = nullShmPos then
              some ⟨s.setDesc d { s.desc d with m_lastNotFullPage := next }, slots ++ r.2,
                t_needNum, none⟩
            else allocateNotFull d rounds s (slots ++ r.2) t_needNum next
          else allocateNotFull d rounds (s.setPage t_pagePos r.1) (slots ++ r.2) t_needNum next

/-- The inner loop over new pages: pages of one space until it is full. -/
def allocateNewPages (d : D) (r_spaceName : Name) :
    Nat → State D → List ShmPosition → List ShmPosition → Nat →
      Option (Progress D × List ShmPosition)
  | rounds, s, slots, t_pageList, t_needNum =>
    if t_needNum = 0 then some (⟨s, slots, 0, none⟩, t_pageList)
    else
      match rounds with
      | 0 => none
      | rounds + 1 =>
        match allocatePage cfg s r_spaceName with
        | none => some (⟨s, slots, t_needNum, none⟩, t_pageList)
        | some (pos, s) =>
          let fresh := (s.page pos).initSlotList s.mem pos (cfg.m_slotSize d)
          let r := fresh.1.allocateNode fresh.2 pos t_needNum
          allocateNewPages d r_spaceName rounds { s.setPage pos r.1 with mem := fresh.2 }
            (slots ++ r.2) (t_pageList ++ [pos]) (t_needNum - r.2.length)

/-- The loop over the table spaces of the descriptor. -/
def allocateFromSpaces (d : D) :
    List Name → State D → List ShmPosition → List ShmPosition → Nat →
      Option (Progress D × List ShmPosition)
  | [], s, slots, t_pageList, t_needNum => some (⟨s, slots, t_needNum, none⟩, t_pageList)
  | name :: names, s, slots, t_pageList, t_needNum =>
    if t_needNum = 0 then some (⟨s, slots, 0, none⟩, t_pageList)
    else
      match allocateNewPages cfg d name t_needNum s slots t_pageList t_needNum with
      | none => none
      | some (r, t_pageList) =>
        allocateFromSpaces d names r.state r.slots t_pageList r.t_needNum

/-- A page becomes the last one of the pages of the descriptor. -/
def linkPage (s : State D) (d : D) (pos : ShmPosition) : State D :=
  let s := s.setPage pos { s.page pos with m_next := nullShmPos }
  let info := s.desc d
  let last := info.m_lastPage
  if last = nullShmPos then
    s.setDesc d { info with m_firstPage := pos, m_lastPage := pos }
  else
    (s.setPage last { s.page last with m_next := pos }).setDesc d { info with m_lastPage := pos }

/-- One round of the loop of `addNewPageToDesc`.  The pointers `t_pLastPage` and
`t_pLNotFullPage` always are to the pages at `m_lastPage` and `m_lastNotFullPage`. -/
def addNewPage (d : D) (s : State D) (pos : ShmPosition) : State D :=
  let s := linkPage s d pos
  let s := s.setPage pos { s.page pos with m_nextNotNullPage := nullShmPos }
  if (s.page pos).m_idleNum = 0 then s else addNotFull s d pos

/-- `MemManager::addNewPageToDesc`; `none` when `getPageInfo` throws. -/
def addNewPageToDesc (s : State D) (d : D) (t_innerPages : List ShmPosition) :
    Option (State D) :=
  if attached cfg (s.desc d).m_lastPage && attached cfg (s.desc d).m_lastNotFullPage then
    some (t_innerPages.foldl (addNewPage d) s)
  else none

/-- The second `catch` block: slots from old pages are freed one by one, new pages go
back to their spaces. -/
def rollback (s : State D) (d : D) (oldSlots t_pageList : List ShmPosition) (e : MemError) :
    State D × Except MemError (List ShmPosition) :=
  match freeMems cfg d s oldSlots with
  | (s, some e') => (s, .error e')
  | (s, none) => (t_pageList.foldl (freePage cfg) s, .error e)

/-- The first part of `allocateMem`: slots from not-full pages, if there are any. -/
def allocateOld (s : State D) (d : D) (t_needNum : Nat) : Option (Progress D) :=
  let first := (s.desc d).m_firstNotFullPage
  if first = nullShmPos then some ⟨s, [], t_needNum, none⟩
  else allocateNotFull cfg d t_needNum s [] t_needNum first

/-- The second part: slots from new pages, all of the rest or none. -/
def allocateNew (old : Progress D) (d : D) :
    Option (State D × Except MemError (List ShmPosition)) :=
  match allocateFromSpaces cfg d (cfg.m_spaceList d) old.state old.slots [] old.t_needNum with
  | none => none
  | some (new, t_pageList) =>
    if new.t_needNum > 0 then some (rollback cfg new.state d old.slots t_pageList .noSpace)
    else
      match addNewPageToDesc cfg new.state d t_pageList with
      | none => some (rollback cfg new.state d old.slots t_pageList .badAddress)
      | some s => some (s, .ok new.slots)

/-- `MemManager::allocateMem`: the state afterwards and the slots or the exception.
A number that is not positive asks for nothing. -/
def allocateMem (s : State D) (d : D) (r_num : Int) :
    Option (State D × Except MemError (List ShmPosition)) :=
  match allocateOld cfg s d r_num.toNat with
  | none => none
  | some old =>
    match old.error with
    | some e =>
      match freeMems cfg d old.state old.slots with
      | (s, some e') => some (s, .error e')
      | (s, none) => some (s, .error e)
    | none =>
      if old.t_needNum = 0 then some (old.state, .ok old.slots) else allocateNew cfg old d

end MemManager
