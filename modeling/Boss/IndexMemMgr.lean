import Boss.MdbConstDef
import Mathlib.Algebra.Group.Nat.Defs
import Mathlib.Logic.Function.Basic

/-!
# Segments of an index space

`IndexMemMgr` hands out the hash tables of indexes.  Its space is divided into segments;
every segment begins with a header, `HashIndexSeg`, and the headers are linked to two
lists, one of used and one of idle segments.  The idle list is kept in the order of the
offsets, so that a segment that is given back can be joined with its neighbours.

Offsets are `size_t` and the end of a list is `-1`.  A pointer into the space is only
dereferenced where a header is: `getSeg` fails elsewhere, and so does a walk through a
list that does not end.  When a segment is joined with the one below, its header is not
one any more.
-/

namespace IndexMemMgr

/-- `sizeof(SpaceInfo)`. -/
def sizeofSpaceInfo : Nat := 432

/-- `sizeof(IndexSegInfo)`. -/
def sizeofIndexSegInfo : Nat := 32

/-- `sizeof(HashIndexSeg)`. -/
def sizeofHashIndexSeg : Nat := 112

/-- `sizeof(ShmPosition)`. -/
def sizeofShmPosition : Nat := 6

/-- Arithmetic of `size_t`. -/
def sizeT (n : Nat) : Nat := n % 2 ^ 64

/-- `(size_t)-1`. -/
def noSeg : Nat := 2 ^ 64 - 1

/-- The offset of the first segment. -/
def firstSeg : Nat := sizeofSpaceInfo + sizeofIndexSegInfo

/-- What is used of `SpaceInfo`. -/
structure SpaceInfo where
  m_size : Nat
  m_spaceCode : Nat
  /-- It is a `size_t`. -/
  size_lt : m_size < 2 ^ 64

/-- What is used of `IndexDef`. -/
structure IndexDef where
  m_indexName : List Char
  m_hashSize : Nat
  deriving DecidableEq, Repr

structure HashIndexSeg where
  m_sOffSet : Nat
  m_segSize : Nat
  m_hashSize : Nat
  m_idxName : List Char
  m_prev : Nat
  m_next : Nat
  deriving DecidableEq, Repr

/-- The ends of the two lists, from `IndexSegInfo`, and the headers. -/
structure State where
  m_fIdleSeg : Nat
  m_lIdleSeg : Nat
  m_fUsedSeg : Nat
  m_lUsedSeg : Nat
  /-- Where a header is. -/
  m_header : Nat → Bool
  seg : Nat → HashIndexSeg

/-- What must not happen. -/
inductive Fault where
  /-- An offset without a header is dereferenced. -/
  | notSegment (offSet : Nat)
  /-- A walk does not end. -/
  | endless
  deriving DecidableEq, Repr

/-- A step that succeeds hands its value to the rest. -/
@[simp] theorem ok_bind {α β : Type} (a : α) (f : α → Except Fault β) :
    (Except.ok a >>= f) = f a := rfl

/-- `pure` is success. -/
@[simp] theorem pure_eq_ok {α : Type} (a : α) : (pure a : Except Fault α) = .ok a := rfl

namespace State

variable (s : State)

def offSet (p : Nat) : Nat := (s.seg p).m_sOffSet

def size (p : Nat) : Nat := (s.seg p).m_segSize

def next (p : Nat) : Nat := (s.seg p).m_next

def prev (p : Nat) : Nat := (s.seg p).m_prev

def setNext (p v : Nat) : State :=
  { s with seg := Function.update s.seg p { s.seg p with m_next := v } }

def setPrev (p v : Nat) : State :=
  { s with seg := Function.update s.seg p { s.seg p with m_prev := v } }

def setSize (p v : Nat) : State :=
  { s with seg := Function.update s.seg p { s.seg p with m_segSize := v } }

/-- The name and the hash size of the index that a segment is for. -/
def setIndex (p : Nat) (idx : IndexDef) : State :=
  { s with seg := Function.update s.seg p { s.seg p with
      m_hashSize := idx.m_hashSize
      m_idxName := idx.m_indexName } }

/-- A field of the headers after one of them is written. -/
theorem field_update (f : HashIndexSeg → Nat) (p : Nat) (g : HashIndexSeg) :
    (fun q => f (Function.update s.seg p g q)) =
      Function.update (fun q => f (s.seg q)) p (f g) := by
  funext q
  by_cases hq : q = p
  · subst hq
    simp
  · simp [hq]

/-- Writing a next link leaves the offset of every node. -/
@[simp] theorem setNext_offSet (p v : Nat) : (s.setNext p v).offSet = s.offSet :=
  (s.field_update HashIndexSeg.m_sOffSet p _).trans (Function.update_eq_self p s.offSet)

/-- Writing a next link leaves the size of every node. -/
@[simp] theorem setNext_size (p v : Nat) : (s.setNext p v).size = s.size :=
  (s.field_update HashIndexSeg.m_segSize p _).trans (Function.update_eq_self p s.size)

/-- The next link that is written is the one that is read. -/
@[simp] theorem setNext_next (p v : Nat) : (s.setNext p v).next = Function.update s.next p v :=
  s.field_update HashIndexSeg.m_next p _

/-- Writing a next link leaves the links back. -/
@[simp] theorem setNext_prev (p v : Nat) : (s.setNext p v).prev = s.prev :=
  (s.field_update HashIndexSeg.m_prev p _).trans (Function.update_eq_self p s.prev)

/-- Writing a link back leaves the offset of every node. -/
@[simp] theorem setPrev_offSet (p v : Nat) : (s.setPrev p v).offSet = s.offSet :=
  (s.field_update HashIndexSeg.m_sOffSet p _).trans (Function.update_eq_self p s.offSet)

/-- Writing a link back leaves the size of every node. -/
@[simp] theorem setPrev_size (p v : Nat) : (s.setPrev p v).size = s.size :=
  (s.field_update HashIndexSeg.m_segSize p _).trans (Function.update_eq_self p s.size)

/-- Writing a link back leaves the next links. -/
@[simp] theorem setPrev_next (p v : Nat) : (s.setPrev p v).next = s.next :=
  (s.field_update HashIndexSeg.m_next p _).trans (Function.update_eq_self p s.next)

/-- The link back that is written is the one that is read. -/
@[simp] theorem setPrev_prev (p v : Nat) : (s.setPrev p v).prev = Function.update s.prev p v :=
  s.field_update HashIndexSeg.m_prev p _

/-- Writing a size leaves the offset of every node. -/
@[simp] theorem setSize_offSet (p v : Nat) : (s.setSize p v).offSet = s.offSet :=
  (s.field_update HashIndexSeg.m_sOffSet p _).trans (Function.update_eq_self p s.offSet)

/-- The size that is written is the one that is read. -/
@[simp] theorem setSize_size (p v : Nat) : (s.setSize p v).size = Function.update s.size p v :=
  s.field_update HashIndexSeg.m_segSize p _

/-- Writing a size leaves the next links. -/
@[simp] theorem setSize_next (p v : Nat) : (s.setSize p v).next = s.next :=
  (s.field_update HashIndexSeg.m_next p _).trans (Function.update_eq_self p s.next)

/-- Writing a size leaves the links back. -/
@[simp] theorem setSize_prev (p v : Nat) : (s.setSize p v).prev = s.prev :=
  (s.field_update HashIndexSeg.m_prev p _).trans (Function.update_eq_self p s.prev)

/-- Naming the index of a node leaves the offset of every node. -/
@[simp] theorem setIndex_offSet (p : Nat) (idx : IndexDef) : (s.setIndex p idx).offSet = s.offSet :=
  (s.field_update HashIndexSeg.m_sOffSet p _).trans (Function.update_eq_self p s.offSet)

/-- Naming the index of a node leaves the size of every node. -/
@[simp] theorem setIndex_size (p : Nat) (idx : IndexDef) : (s.setIndex p idx).size = s.size :=
  (s.field_update HashIndexSeg.m_segSize p _).trans (Function.update_eq_self p s.size)

/-- Naming the index of a node leaves the next links. -/
@[simp] theorem setIndex_next (p : Nat) (idx : IndexDef) : (s.setIndex p idx).next = s.next :=
  (s.field_update HashIndexSeg.m_next p _).trans (Function.update_eq_self p s.next)

/-- Naming the index of a node leaves the links back. -/
@[simp] theorem setIndex_prev (p : Nat) (idx : IndexDef) : (s.setIndex p idx).prev = s.prev :=
  (s.field_update HashIndexSeg.m_prev p _).trans (Function.update_eq_self p s.prev)

/-- The header at an offset, if there is one. -/
def getSeg (p : Nat) : Except Fault HashIndexSeg :=
  if s.m_header p then .ok (s.seg p) else .error (.notSegment p)

end State

/-- `f_init`: one large idle segment; `none` when the space is too small. -/
def f_init (sp : SpaceInfo) (s : State) : Option State :=
  if sp.m_size < sizeofSpaceInfo + sizeofIndexSegInfo + sizeofHashIndexSeg then none
  else
    some {
      m_fIdleSeg := firstSeg
      m_lIdleSeg := firstSeg
      m_fUsedSeg := noSeg
      m_lUsedSeg := noSeg
      m_header := fun p => p == firstSeg
      seg := Function.update s.seg firstSeg { s.seg firstSeg with
        m_sOffSet := firstSeg
        m_segSize := sp.m_size - firstSeg
        m_prev := noSeg
        m_next := noSeg } }

/-- The loops of both functions: the first segment of a list, from the given one on, that
passes a test.  A space of `m_size` bytes has fewer segments than that, so a walk that
takes longer never ends. -/
def findSeg (s : State) (test : HashIndexSeg → Bool) : Nat → Nat → Except Fault (Option Nat)
  | 0, _ => .error .endless
  | fuel + 1, p => do
    let g ← s.getSeg p
    if test g then return some p
    if g.m_next = noSeg then return none
    findSeg s test fuel g.m_next

/-! ## `createHashIndex` -/

/-- The first idle segment that is large enough. -/
def findIdle (sp : SpaceInfo) (s : State) (t_needSize : Nat) : Except Fault (Option Nat) :=
  findSeg s (fun g => t_needSize ≤ g.m_segSize) sp.m_size s.m_fIdleSeg

/-- A segment leaves the idle list. -/
def removeIdle (s : State) (p : Nat) : Except Fault State := do
  let g ← s.getSeg p
  let s ← if g.m_prev = noSeg then pure { s with m_fIdleSeg := g.m_next } else do
    let _ ← s.getSeg g.m_prev
    pure (s.setNext g.m_prev g.m_next)
  if g.m_next = noSeg then pure { s with m_lIdleSeg := g.m_prev } else do
    let _ ← s.getSeg g.m_next
    pure (s.setPrev g.m_next g.m_prev)

/-- The upper part of a segment becomes a segment. -/
def splitSeg (s : State) (p t_needSize : Nat) : State × Nat :=
  let q := p + (s.size p - t_needSize)
  let s := s.setSize p (s.size p - t_needSize)
  ({ s with
      m_header := Function.update s.m_header q true
      seg := Function.update s.seg q { s.seg q with
        m_sOffSet := sizeT (s.offSet p + s.size p)
        m_segSize := t_needSize } }, q)

/-- The whole segment, or its upper part when much would be left over. -/
def takeSeg (s : State) (p t_needSize : Nat) : Except Fault (State × Nat) := do
  if s.size p < sizeT (t_needSize + 2 * sizeofHashIndexSeg) then do
    let s ← removeIdle s p
    return (s, p)
  else
    return splitSeg s p t_needSize

/-- A segment is entered for an index and goes to the end of the used list. -/
def addUsed (s : State) (p : Nat) (idx : IndexDef) : Except Fault State := do
  let s := s.setIndex p idx
  if s.m_lUsedSeg = noSeg then
    pure { (s.setPrev p noSeg).setNext p noSeg with
      m_lUsedSeg := s.offSet p
      m_fUsedSeg := s.offSet p }
  else do
    let s := (s.setPrev p s.m_lUsedSeg).setNext p noSeg
    let _ ← s.getSeg s.m_lUsedSeg
    pure { s.setNext s.m_lUsedSeg (s.offSet p) with m_lUsedSeg := s.offSet p }

/-- `HashIndexSeg::initHash`: a `memset` behind the header.  A header that it runs over
is gone. -/
def initHash (s : State) (p : Nat) : State :=
  let n := sizeT ((s.seg p).m_hashSize * sizeofShmPosition)
  { s with m_header := fun q =>
      s.m_header q && !decide (0 < n ∧ p < q ∧ q < p + sizeofHashIndexSeg + n) }

/-- `initHashSeg`: the hash table at a position is cleared. -/
def initHashSeg (s : State) (r_shmPos : ShmPosition) : Except Fault State := do
  let t_segOffSet := sizeT (r_shmPos.m_offSet + (2 ^ 64 - sizeofHashIndexSeg))
  let _ ← s.getSeg t_segOffSet
  return initHash s t_segOffSet

/-- `t_needSize`. -/
def needSize (idx : IndexDef) : Nat :=
  sizeT (sizeofHashIndexSeg + idx.m_hashSize * sizeofShmPosition)

/-- `createHashIndex`, with the answer of the lock.  The result is the position behind
the header, `none` when `false` is returned: a space code or an offset that does not fit
into a `ShmPosition` is found out last. -/
def createHashIndex (sp : SpaceInfo) (s : State) (lock : Bool) (idx : IndexDef) :
    Except Fault (State × Option ShmPosition) := do
  if lock = false then return (s, none)
  if s.m_fIdleSeg = noSeg then return (s, none)
  match ← findIdle sp s (needSize idx) with
  | none => return (s, none)
  | some p =>
    let (s, p) ← takeSeg s p (needSize idx)
    let s ← addUsed s p idx
    let pos := s.offSet p + sizeofHashIndexSeg
    if sp.m_spaceCode > 256 ∨ 256 ^ 5 ≤ pos then return (s, none)
    return (initHash s p, some ⟨sp.m_spaceCode, pos⟩)

/-! ## `dropHashIdex` -/

/-- The used segment with the given offset. -/
def findUsed (sp : SpaceInfo) (s : State) (t_segOffSet : Nat) : Except Fault (Option Nat) :=
  findSeg s (fun g => g.m_sOffSet = t_segOffSet) sp.m_size s.m_fUsedSeg

/-- A segment leaves the used list. -/
def removeUsed (s : State) (p : Nat) : Except Fault State := do
  let g ← s.getSeg p
  let s ← if g.m_sOffSet = s.m_fUsedSeg then pure { s with m_fUsedSeg := g.m_next } else do
    let _ ← s.getSeg g.m_prev
    pure (s.setNext g.m_prev g.m_next)
  if g.m_sOffSet = s.m_lUsedSeg then pure { s with m_lUsedSeg := g.m_prev } else do
    let _ ← s.getSeg g.m_next
    pure (s.setPrev g.m_next g.m_prev)

/-- The first idle segment with a larger offset. -/
def findNext (sp : SpaceInfo) (s : State) (offSet : Nat) : Except Fault (Option Nat) :=
  findSeg s (fun g => offSet < g.m_sOffSet) sp.m_size s.m_fIdleSeg

/-- One segment ends where another one begins. -/
def adjacent (s : State) (p q : Nat) : Bool := sizeT (s.offSet p + s.size p) == s.offSet q

/-- The lower segment takes over the size and the successor of the upper one. -/
def merge (s : State) (p q : Nat) : State :=
  let s := (s.setSize p (sizeT (s.size p + s.size q))).setNext p (s.next q)
  { s with m_header := Function.update s.m_header q false }

/-- Behind the last idle segment. -/
def appendIdle (s : State) (p : Nat) : Except Fault State := do
  let _ ← s.getSeg s.m_lIdleSeg
  if adjacent s s.m_lIdleSeg p then
    pure (merge s s.m_lIdleSeg p)
  else
    let s := (s.setPrev p s.m_lIdleSeg).setNext p noSeg
    pure { s.setNext s.m_lIdleSeg (s.offSet p) with m_lIdleSeg := s.offSet p }

/-- Before the idle segment `q`. -/
def insertIdle (s : State) (p q : Nat) : Except Fault State := do
  let r := s.prev q
  let _ ← s.getSeg r
  let s := s.setNext r (s.offSet p)
  let s := s.setPrev p (s.offSet r)
  let s := s.setNext p (s.offSet q)
  let s := s.setPrev q (s.offSet p)
  let (s, p) := if adjacent s r p then (merge s r p, r) else (s, p)
  if adjacent s p q then
    let s := merge s p q
    pure (if s.next p = noSeg then { s with m_lIdleSeg := s.offSet p } else s)
  else pure s

/-- A segment goes to its place in the idle list and is joined with its neighbours. -/
def addIdle (sp : SpaceInfo) (s : State) (p : Nat) : Except Fault State := do
  if s.m_fIdleSeg = noSeg then
    pure { (s.setPrev p noSeg).setNext p noSeg with
      m_lIdleSeg := s.offSet p
      m_fIdleSeg := s.offSet p }
  else
    match ← findNext sp s (s.offSet p) with
    | none => appendIdle s p
    | some q => insertIdle s p q

/-- `dropHashIdex`, with the answer of the lock. -/
def dropHashIdex (sp : SpaceInfo) (s : State) (lock : Bool) (r_shmPos : ShmPosition) :
    Except Fault (State × Bool) := do
  if lock = false then return (s, false)
  let t_segOffSet := sizeT (r_shmPos.m_offSet + (2 ^ 64 - sizeofHashIndexSeg))
  if s.m_fUsedSeg = noSeg then return (s, false)
  match ← findUsed sp s t_segOffSet with
  | none => return (s, false)
  | some p =>
    let s ← removeUsed s p
    let s ← addIdle sp s p
    return (s, true)

end IndexMemMgr
