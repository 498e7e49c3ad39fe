import Boss.SortedSlice
import Mathlib.Algebra.Group.Nat.Defs
import Mathlib.Order.Lattice

/-!
# The lists of the control area

`ListManager<T>` keeps the descriptors of the control area.  Its memory has a fixed number
of nodes, and every node is in one of three doubly linked lists: the used nodes, the idle
ones, and the nodes whose element was deleted but may come back (`MEMUSE_USEDIDLE`).  An
array beside the nodes holds the offsets of the used ones in the order of their elements.

Elements are compared by a key: all classes that are kept here define `==` and `<` by one
member, a name without regard to case or the number of a session.  Offsets are `size_t`
and the end of a list is `-1`.
-/

namespace ListManager

open SortedSlice

/-- `T_MEMUSEDFLAG`; it also names the three lists. -/
inductive T_MEMUSEDFLAG where
  | idle
  | used
  | usedIdle
  deriving DecidableEq, Repr

/-- `(size_t)-1`. -/
def noNode : Nat := 2 ^ 64 - 1

/-- `sizeof(NodeListInfo)`. -/
def sizeofNodeListInfo : Nat := 64

structure NodeTmpt (T : Type) where
  m_pos : Nat
  m_prev : Nat
  m_next : Nat
  m_useFlag : T_MEMUSEDFLAG
  m_element : T

/-- Where a list is and how many nodes it has.  The configuration is refused unless every
such number is positive, and the list lies in shared memory. -/
structure Config (T : Type) where
  m_sOffSet : Nat
  m_maxNum : Nat
  sizeofNode : Nat
  /-- An element of zero bytes. -/
  zero : T
  max_pos : 0 < m_maxNum
  size_pos : 0 < sizeofNode
  fits : m_sOffSet + sizeofNodeListInfo + m_maxNum * sizeofNode < 2 ^ 64

variable {T K : Type} [LinearOrder K]

/-- The offset of the `i`-th node. -/
def Config.node (cfg : Config T) (i : Nat) : Nat :=
  cfg.m_sOffSet + sizeofNodeListInfo + i * cfg.sizeofNode

/-- `NodeListInfo`, the nodes and the index.  `first` and `last` are `m_firstNode` and
`m_lastNode`, `m_fIdleNode` and `m_lIdleNode`, `m_fIdle2Node` and `m_lIdle2Node`. -/
structure State (T : Type) where
  m_nodeNum : Nat
  m_idleNum : Int
  first : T_MEMUSEDFLAG → Nat
  last : T_MEMUSEDFLAG → Nat
  node : Nat → NodeTmpt T
  m_pIndexInfo : Nat → Nat

namespace State

variable (s : State T)

def pos (p : Nat) : Nat := (s.node p).m_pos

def next (p : Nat) : Nat := (s.node p).m_next

def prev (p : Nat) : Nat := (s.node p).m_prev

def element (p : Nat) : T := (s.node p).m_element

def setNext (p v : Nat) : State T :=
  { s with node := Function.update s.node p { s.node p with m_next := v } }

def setPrev (p v : Nat) : State T :=
  { s with node := Function.update s.node p { s.node p with m_prev := v } }

/-- `setVaue`. -/
def setVaue (p : Nat) (e : T) : State T :=
  { s with node := Function.update s.node p { s.node p with m_element := e } }

def setUseFlag (p : Nat) (l : T_MEMUSEDFLAG) : State T :=
  { s with node := Function.update s.node p { s.node p with m_useFlag := l } }

def setFirst (l : T_MEMUSEDFLAG) (v : Nat) : State T :=
  { s with first := Function.update s.first l v }

def setLast (l : T_MEMUSEDFLAG) (v : Nat) : State T :=
  { s with last := Function.update s.last l v }

def setIdleNum (v : Int) : State T := { s with m_idleNum := v }

/-- A field of the nodes after one of them is written. -/
theorem field_update {α : Type} (f : NodeTmpt T → α) (p : Nat) (g : NodeTmpt T) :
    (fun q => f (Function.update s.node p g q)) =
      Function.update (fun q => f (s.node q)) p (f g) := by
  funext q
  by_cases hq : q = p
  · subst hq
    simp
  · simp [hq]

/-- A field that the write leaves alone. -/
theorem field_same {α : Type} (f : NodeTmpt T → α) {p : Nat} {g : NodeTmpt T}
    (h : f g = f (s.node p)) :
    (fun q => f (Function.update s.node p g q)) = fun q => f (s.node q) := by
  rw [field_update, h]
  exact Function.update_eq_self p _

@[simp] theorem setNext_fields (p v : Nat) :
    (s.setNext p v).next = Function.update s.next p v ∧ (s.setNext p v).prev = s.prev ∧
    (s.setNext p v).pos = s.pos ∧ (s.setNext p v).element = s.element ∧
    (s.setNext p v).first = s.first ∧ (s.setNext p v).last = s.last :=
  ⟨s.field_update NodeTmpt.m_next p _, s.field_same NodeTmpt.m_prev rfl,
    s.field_same NodeTmpt.m_pos rfl, s.field_same NodeTmpt.m_element rfl, rfl, rfl⟩

@[simp] theorem setPrev_fields (p v : Nat) :
    (s.setPrev p v).next = s.next ∧ (s.setPrev p v).prev = Function.update s.prev p v ∧
    (s.setPrev p v).pos = s.pos ∧ (s.setPrev p v).element = s.element ∧
    (s.setPrev p v).first = s.first ∧ (s.setPrev p v).last = s.last :=
  ⟨s.field_same NodeTmpt.m_next rfl, s.field_update NodeTmpt.m_prev p _,
    s.field_same NodeTmpt.m_pos rfl, s.field_same NodeTmpt.m_element rfl, rfl, rfl⟩

@[simp] theorem setVaue_fields (p : Nat) (e : T) :
    (s.setVaue p e).next = s.next ∧ (s.setVaue p e).prev = s.prev ∧
    (s.setVaue p e).pos = s.pos ∧ (s.setVaue p e).element = Function.update s.element p e ∧
    (s.setVaue p e).first = s.first ∧ (s.setVaue p e).last = s.last :=
  ⟨s.field_same NodeTmpt.m_next rfl, s.field_same NodeTmpt.m_prev rfl,
    s.field_same NodeTmpt.m_pos rfl, s.field_update NodeTmpt.m_element p _, rfl, rfl⟩

@[simp] theorem setUseFlag_fields (p : Nat) (l : T_MEMUSEDFLAG) :
    (s.setUseFlag p l).next = s.next ∧ (s.setUseFlag p l).prev = s.prev ∧
    (s.setUseFlag p l).pos = s.pos ∧ (s.setUseFlag p l).element = s.element ∧
    (s.setUseFlag p l).first = s.first ∧ (s.setUseFlag p l).last = s.last :=
  ⟨s.field_same NodeTmpt.m_next rfl, s.field_same NodeTmpt.m_prev rfl,
    s.field_same NodeTmpt.m_pos rfl, s.field_same NodeTmpt.m_element rfl, rfl, rfl⟩

@[simp] theorem setFirst_fields (l : T_MEMUSEDFLAG) (v : Nat) :
    (s.setFirst l v).next = s.next ∧ (s.setFirst l v).prev = s.prev ∧
    (s.setFirst l v).pos = s.pos ∧ (s.setFirst l v).element = s.element ∧
    (s.setFirst l v).first = Function.update s.first l v ∧ (s.setFirst l v).last = s.last :=
  ⟨rfl, rfl, rfl, rfl, rfl, rfl⟩

@[simp] theorem setLast_fields (l : T_MEMUSEDFLAG) (v : Nat) :
    (s.setLast l v).next = s.next ∧ (s.setLast l v).prev = s.prev ∧
    (s.setLast l v).pos = s.pos ∧ (s.setLast l v).element = s.element ∧
    (s.setLast l v).first = s.first ∧ (s.setLast l v).last = Function.update s.last l v :=
  ⟨rfl, rfl, rfl, rfl, rfl, rfl⟩

@[simp] theorem setIdleNum_fields (v : Int) :
    (s.setIdleNum v).next = s.next ∧ (s.setIdleNum v).prev = s.prev ∧
    (s.setIdleNum v).pos = s.pos ∧ (s.setIdleNum v).element = s.element ∧
    (s.setIdleNum v).first = s.first ∧ (s.setIdleNum v).last = s.last :=
  ⟨rfl, rfl, rfl, rfl, rfl, rfl⟩

end State

/-- `initElements`: all nodes are idle. -/
def initElements (cfg : Config T) (s : State T) : State T where
  m_nodeNum := 0
  m_idleNum := cfg.m_maxNum
  first l := if l = .idle then cfg.node 0 else noNode
  last l := if l = .idle then cfg.node (cfg.m_maxNum - 1) else noNode
  node := (List.range cfg.m_maxNum).foldl (fun node i =>
    Function.update node (cfg.node i) {
      m_pos := cfg.node i
      m_prev := if i = 0 then noNode else cfg.node i - cfg.sizeofNode
      m_next := if i = cfg.m_maxNum - 1 then noNode else cfg.node i + cfg.sizeofNode
      m_useFlag := .idle
      m_element := cfg.zero }) s.node
  m_pIndexInfo := s.m_pIndexInfo

section Operations

variable (key : T → K) (cfg : Config T)

/-- `lowerBound`: the first place of the index whose element is not less. -/
def lowerBound (s : State T) (r_element : T) : Nat :=
  (bisect (fun i => key (s.element (s.m_pIndexInfo i)) < key r_element)
    (s.m_nodeNum + 1) (-1) s.m_nodeNum).toNat

/-- `getNodeIndexPos`: the place in the index and the node of an element. -/
def getNodeIndexPos (s : State T) (r_element : T) : Option (Nat × Nat) :=
  let r_indexPos := lowerBound key s r_element
  let r_pNode := s.m_pIndexInfo r_indexPos
  if r_indexPos = s.m_nodeNum then none
  else if key (s.element r_pNode) = key r_element then some (r_indexPos, r_pNode)
  else none

/-- `getElement`. -/
def getElement (s : State T) (r_element : T) : Option Nat :=
  (getNodeIndexPos key s r_element).map Prod.snd

/-- Take a node out of a list. -/
def remove (s : State T) (l : T_MEMUSEDFLAG) (p : Nat) : State T :=
  let g := s.node p
  let s := if s.first l = g.m_pos then s.setFirst l g.m_next else s
  let s := if s.last l = g.m_pos then s.setLast l g.m_prev else s
  let s := if g.m_prev ≠ noNode then s.setNext g.m_prev g.m_next else s
  if g.m_next ≠ noNode then s.setPrev g.m_next g.m_prev else s

/-- Put a node at the end of a list. -/
def append (s : State T) (l : T_MEMUSEDFLAG) (p : Nat) : State T :=
  let s := ((s.setNext p noNode).setPrev p (s.last l)).setUseFlag p l
  if s.last l = noNode then (s.setFirst l (s.pos p)).setLast l (s.pos p)
  else (s.setNext (s.last l) (s.pos p)).setLast l (s.pos p)

/-- Take the first idle node. -/
def takeIdle (s : State T) : State T :=
  let p := s.first .idle
  let s := if s.first .idle = s.last .idle then (s.setFirst .idle noNode).setLast .idle noNode
    else (s.setFirst .idle (s.next p)).setPrev (s.next p) noNode
  s.setIdleNum (s.m_idleNum - 1)

/-- The walk through a list: the nodes from `p` on.  There are `m_maxNum` nodes, so a
longer walk never ends. -/
def walk (s : State T) : Nat → Nat → List Nat
  | 0, _ => []
  | fuel + 1, p => p :: if s.next p = noNode then [] else walk s fuel (s.next p)

/-- The nodes of a list. -/
def nodesOf (s : State T) (l : T_MEMUSEDFLAG) : List Nat :=
  if s.first l = noNode then [] else walk s cfg.m_maxNum (s.first l)

/-- The node that is used again: a deleted one with an equal element, if these are
distinguished. -/
def findReused (s : State T) (r_element : T) (r_flag : Bool) : Option Nat :=
  if r_flag then (nodesOf cfg s .usedIdle).find? fun p => key (s.element p) = key r_element
  else none

/-- The node gets its element, goes to the used ones and into the index. -/
def enterUsed (s : State T) (p : Nat) (r_element : T) : State T :=
  let s := append (s.setVaue p r_element) .used p
  let t_indexPos := lowerBound key s r_element
  { s with
    m_pIndexInfo := Function.update (shiftUp t_indexPos s.m_nodeNum s.m_pIndexInfo) t_indexPos
      (s.pos p)
    m_nodeNum := s.m_nodeNum + 1 }

/-- `addElement`, with the node that the element is in; `none` stands for `false`. -/
def addElement (s : State T) (r_element : T) (r_flag : Bool) : State T × Option Nat :=
  match findReused key cfg s r_element r_flag with
  | some p => (enterUsed key (remove s .usedIdle p) p r_element, some p)
  | none =>
    if s.first .idle = noNode then (s, none)
    else
      let p := s.first .idle
      (enterUsed key (takeIdle s) p r_element, some p)

/-- `deleteElement`. -/
def deleteElement (s : State T) (r_element : T) (r_flag : Bool) : State T × Bool :=
  match getNodeIndexPos key s r_element with
  | none => (s, false)
  | some (t_indexPos, p) =>
    let s := remove s .used p
    let s := if r_flag then append s .usedIdle p
      else (append s .idle p).setIdleNum (s.m_idleNum + 1)
    ({ s with
        m_pIndexInfo := shiftDown (s.m_nodeNum - t_indexPos) t_indexPos s.m_pIndexInfo
        m_nodeNum := s.m_nodeNum - 1 }, true)

/-- `updateElement`: the element is replaced by an equal one. -/
def updateElement (s : State T) (r_element : T) : State T × Bool :=
  match getNodeIndexPos key s r_element with
  | none => (s, false)
  | some (_, p) => (s.setVaue p r_element, true)

/-- `getElements`: the used elements, in the order of their list. -/
def getElements (s : State T) : List T := (nodesOf cfg s .used).map s.element

/-- `clear`. -/
def clear (s : State T) (t_flag : Bool) : State T :=
  (getElements cfg s).foldl (fun s e => (deleteElement key s e t_flag).1) s

end Operations

end ListManager
