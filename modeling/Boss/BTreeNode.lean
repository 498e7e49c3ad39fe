import Boss.MdbConstDef
import Boss.SortedSlice
import Mathlib.Algebra.Group.Nat.Defs
import Mathlib.Order.Lattice

/-!
# The nodes of a B-tree index

A node has slots for `m_iMaxNum` elements, of which the first `m_pCurrentNum` count.  An element
of a leaf has the key and the address of a record; an element of another node has the address of
a child and the key of the child's first element.  Leaves are told from other nodes by their
brother, which is never null; a node knows its parent.

A search goes down from the root and notes the position of every element it passes through.  An
insertion goes up from the leaf that the search has found, as long as nodes are full: a full node
keeps the first half of its elements, and its new brother is inserted into the parent.

An index is used through objects.  Each has its own pointer to the root; the descriptor has the
position that an object begins with.

Keys are compared by `memcmp`, which orders the keys of an index linearly.  Memory is a function
from positions to nodes; what a node has in it before it is initialised is whatever it is.
Recursions are given a number of rounds.
-/

namespace BTree

open SortedSlice

/-- `ShmPosition(-1,-1)`.  Its constructor refuses the space code, so that this byte is whatever it
is; what counts is that it is not null, and not the position of a node. -/
def noBrother : ShmPosition := ⟨2 ^ 8 - 1, 2 ^ 40 - 1⟩

structure Elem (Key : Type) where
  m_pRecordAddrs : ShmPosition
  m_pNext : ShmPosition
  m_pKeyValue : Key

structure ChainElem where
  m_record : ShmPosition
  m_next : ShmPosition

structure Node (Key : Type) where
  m_pBrotherNode : ShmPosition
  m_pParentNode : ShmPosition
  m_iMaxNum : Nat
  m_pCurrentNum : Nat
  elemt : Nat → Elem Key

/-- The index: its descriptor with the position of the root, the nodes and the chain elements, which
of them are in use, and the ones that the memory manager will hand out next. -/
structure State (Key : Type) where
  m_isUnique : Bool
  m_header : ShmPosition
  node : ShmPosition → Node Key
  chain : ShmPosition → ChainElem
  usedNodes : List ShmPosition
  usedChain : List ShmPosition
  freshNodes : List ShmPosition
  freshChain : List ShmPosition

/-- An `IndexBTree` object; a null pointer is the null position. -/
structure IndexBTree where
  m_pRootNode : ShmPosition
  deriving DecidableEq, Repr

/-- The slot in front of the first one, taken for an element.  It lies over the header of the node
and what is in front of it.  `records` are the records that it leads to, if the memory manager has
an address for every position on the way. -/
structure FrontSlot (Key : Type) where
  m_pKeyValue : Key
  records : Option (List ShmPosition)

/-- What is in the slot in front of the first one of a node. -/
abbrev Front (Key : Type) :=
  (ShmPosition → Node Key) → (ShmPosition → ChainElem) → ShmPosition → FrontSlot Key

/-- What ends a call: the exceptions, and two things that the code does not notice. -/
inductive Failure
  /-- `"CurrentNum:%d,MaxElemNum:%d"`. -/
  | currentNum
  /-- `"search path was not passed this Node's parent!"`. -/
  | searchPath
  /-- The key of a unique index is there already. -/
  | repeated
  /-- The memory manager has no memory. -/
  | noMemory
  /-- The memory manager knows no address for a position. -/
  | noAddress
  /-- The slot in front of the first one is written, or used as the way down. -/
  | stray
  /-- The rounds are used up. -/
  | rounds
  deriving DecidableEq, Repr

/-- A call may fail, and leaves a state even then. -/
abbrev Outcome (Key α : Type) := Except (Failure × State Key) α

/-- `elemPosiInNodes`; an entry that is there is not replaced. -/
abbrev Path := List (ShmPosition × Nat)

variable {Key : Type}

/-! ## Memory -/

def Elem.initial (e : Elem Key) : Elem Key :=
  { e with m_pRecordAddrs := nullShmPos, m_pNext := nullShmPos }

/-- `Node::initial`.  The bytes of the keys stay. -/
def Node.initial (n : Node Key) (iMaxNum : Nat) : Node Key where
  m_pBrotherNode := nullShmPos
  m_pParentNode := nullShmPos
  m_iMaxNum := iMaxNum
  m_pCurrentNum := 0
  elemt := fun i => if i < iMaxNum then (n.elemt i).initial else n.elemt i

def Node.isLeafNode (n : Node Key) : Bool :=
  n.m_pBrotherNode = noBrother || n.m_pBrotherNode ≠ nullShmPos

def Node.setElem (n : Node Key) (e : Elem Key) : Node Key :=
  { n with
    elemt := Function.update n.elemt n.m_pCurrentNum e
    m_pCurrentNum := n.m_pCurrentNum + 1 }

namespace State

variable (s : State Key)

def setNode (p : ShmPosition) (n : Node Key) : State Key :=
  { s with node := Function.update s.node p n }

def setBrotherNode (p q : ShmPosition) : State Key :=
  s.setNode p { s.node p with m_pBrotherNode := q }

def setNodeTypeLeaf (p : ShmPosition) : State Key := s.setBrotherNode p noBrother

def setParentNode (p q : ShmPosition) : State Key :=
  s.setNode p { s.node p with m_pParentNode := q }

/-- The key of the `i`-th element is written. -/
def setKey (p : ShmPosition) (i : Nat) (key : Key) : State Key :=
  s.setNode p { s.node p with
    elemt := Function.update (s.node p).elemt i { (s.node p).elemt i with m_pKeyValue := key } }

/-- `getElemt(i)->m_pKeyValue` of the node at `p`. -/
def keyOf (p : ShmPosition) (i : Nat) : Key := ((s.node p).elemt i).m_pKeyValue

/-- `allocateMem(MEM_TYPE_NODE)`. -/
def allocateNode : Outcome Key (ShmPosition × State Key) :=
  match s.freshNodes with
  | [] => .error (.noMemory, s)
  | p :: rest => .ok (p, { s with freshNodes := rest, usedNodes := p :: s.usedNodes })

/-- `allocateMem(MEM_TYPE_CHAIN_ELEM)`. -/
def allocateChain : Outcome Key (ShmPosition × State Key) :=
  match s.freshChain with
  | [] => .error (.noMemory, s)
  | p :: rest => .ok (p, { s with freshChain := rest, usedChain := p :: s.usedChain })

/-- `getElemPosiInNode(elemPosiInNodes, p)`. -/
def getElemPosiInNode (elemPosiInNodes : Path) (p : ShmPosition) : Outcome Key Nat :=
  match elemPosiInNodes.lookup p with
  | some i => .ok i
  | none => .error (.searchPath, s)

/-- Rounds for the way from the root to a leaf or back. -/
def depth : Nat := s.usedNodes.length + 1

end State

/-! ## search -/

variable [LinearOrder Key]

/-- The binary search of a node: `iFirst` and `iLast` after the loop, which goes on behind the
elements whose keys are `below`. -/
def narrow (n : Node Key) (below : Key → Bool) : Nat → Nat → Nat → Nat × Nat
  | 0, iFirst, iLast => (iFirst, iLast)
  | rounds + 1, iFirst, iLast =>
    if iLast - iFirst > 1 then
      let iMid := iFirst + (iLast - iFirst) / 2
      if below (n.elemt iMid).m_pKeyValue then narrow n below rounds iMid iLast
      else narrow n below rounds iFirst iMid
    else (iFirst, iLast)

def Node.narrow (n : Node Key) (below : Key → Bool) : Nat × Nat :=
  BTree.narrow n below n.m_pCurrentNum 0 (n.m_pCurrentNum - 1)

/-- The element through which a search goes down. -/
def Node.downElem (n : Node Key) (below : Key → Bool) : Nat :=
  if below (n.elemt (n.narrow below).2).m_pKeyValue then (n.narrow below).2 else (n.narrow below).1

/-- The way down from a node to a leaf, with what it notes; the part of `search`, `lower_bound` and
`upper_bound` for nodes that are not leaves. -/
def wayDown (s : State Key) (below : Key → Bool) :
    Nat → ShmPosition → Path → Except Failure (ShmPosition × Path)
  | 0, _, _ => .error .rounds
  | rounds + 1, p, path =>
    let n := s.node p
    if n.isLeafNode then .ok (p, path)
    else if n.m_pCurrentNum = 0 then .error .stray
    else
      let i := n.downElem below
      wayDown s below rounds (n.elemt i).m_pRecordAddrs (path ++ [(p, i)])

/-- The records of the chain elements from `p` on. -/
def chainRecords (s : State Key) : Nat → ShmPosition → List ShmPosition
  | 0, _ => []
  | rounds + 1, p =>
    if p = nullShmPos then []
    else (s.chain p).m_record :: chainRecords s rounds (s.chain p).m_next

/-- The records of one element. -/
def elemRecords (s : State Key) (e : Elem Key) : List ShmPosition :=
  e.m_pRecordAddrs :: chainRecords s (s.usedChain.length + 1) e.m_pNext

/-- What `search` returns and leaves in its arguments.  The position -1, which is the one of the
slot in front of the first one, is not in the path but in `inFront`. -/
structure Search where
  found : Bool
  results : List ShmPosition
  pLeafNode : ShmPosition
  elemPosiInNodes : Path
  inFront : Bool

/-- The part of `search` for a leaf.  In an empty node `iLast` is -1. -/
def searchLeaf (front : Front Key) (s : State Key) (key : Key) (p : ShmPosition) (path : Path) :
    Except Failure Search :=
  let n := s.node p
  let (iFirst, iLast) := n.narrow (· ≤ key)
  let hit := fun i => Search.mk true (elemRecords s (n.elemt i)) p (path ++ [(p, i)]) false
  let miss := Search.mk false [] p path false
  if key = (n.elemt iFirst).m_pKeyValue then .ok (hit iFirst)
  else if n.m_pCurrentNum = 0 then
    let slot := front s.node s.chain p
    if key = slot.m_pKeyValue then
      match slot.records with
      | none => .error .noAddress
      | some results => .ok ⟨true, results, p, path, true⟩
    else .ok miss
  else if key = (n.elemt iLast).m_pKeyValue then .ok (hit iLast)
  else .ok miss

/-- `Node::search` of the root that the object has. -/
def IndexBTree.search (front : Front Key) (o : IndexBTree) (s : State Key) (key : Key) :
    Except Failure Search := do
  let (pLeafNode, path) ← wayDown s (· ≤ key) s.depth o.m_pRootNode []
  searchLeaf front s key pLeafNode path

/-! ## insert -/

/-- Where the loop that moves greater elements stops. -/
def place (elemt : Nat → Elem Key) (key : Key) : Nat → Nat
  | 0 => 0
  | i + 1 => if key < (elemt i).m_pKeyValue then place elemt key i else i + 1

/-- The elements from the `i`-th on are moved up, and `e` takes its place. -/
def Node.putElem (n : Node Key) (i : Nat) (e : Elem Key) : Node Key :=
  { n with
    elemt := Function.update (shiftUp i n.m_pCurrentNum n.elemt) i e
    m_pCurrentNum := n.m_pCurrentNum + 1 }

/-- The part of `Node::insert` for a node with room.  A new first key is registered with the
parent. -/
def insertElem (s : State Key) (path : Path) (p : ShmPosition) (key : Key) (addr : ShmPosition) :
    Outcome Key (State Key) :=
  let n := s.node p
  let i := place n.elemt key n.m_pCurrentNum
  let t := s.setNode p (n.putElem i ⟨addr, nullShmPos, key⟩)
  if i = 0 ∧ n.m_pParentNode ≠ nullShmPos then do
    let iTmpPosi ← t.getElemPosiInNode path n.m_pParentNode
    pure (t.setKey n.m_pParentNode iTmpPosi key)
  else pure t

/-- The part of `Node::insert` for a key that is there. -/
def insertRepeated (s : State Key) (path : Path) (p addr : ShmPosition) :
    Outcome Key (State Key) := do
  let n := s.node p
  if n.m_iMaxNum < n.m_pCurrentNum ∨ n.m_iMaxNum = 0 then throw (.currentNum, s)
  let iTmpPosi ← s.getElemPosiInNode path p
  let (c, t) ← s.allocateChain
  let t := { t with chain := Function.update t.chain c ⟨addr, (n.elemt iTmpPosi).m_pNext⟩ }
  pure (t.setNode p { n with
    elemt := Function.update n.elemt iTmpPosi
      { n.elemt iTmpPosi with m_pNext := c, m_pRecordAddrs := c } })

/-- The first step of `splitNode`: the elements from the half on go to the new node. -/
def moveHalf (s : State Key) (p pNew : ShmPosition) : State Key :=
  let n := s.node p
  let half := n.m_iMaxNum / 2
  let new := (s.node pNew).initial n.m_iMaxNum
  (s.setNode pNew { new with
    elemt := fun i => if i < n.m_iMaxNum - half then n.elemt (half + i) else new.elemt i
    m_pCurrentNum := n.m_iMaxNum - half }).setNode p { n with
      elemt := fun i => if half ≤ i ∧ i < n.m_iMaxNum then (n.elemt i).initial else n.elemt i
      m_pCurrentNum := n.m_pCurrentNum - (n.m_iMaxNum - half) }

/-- `reg2child`. -/
def reg2child (s : State Key) (p : ShmPosition) : State Key :=
  (List.range (s.node p).m_pCurrentNum).foldl
    (fun t i => t.setParentNode ((t.node p).elemt i).m_pRecordAddrs p) s

/-- The third step of `splitNode`: the list of the leaves, or the parent of the children. -/
def registerNew (s : State Key) (p pNew : ShmPosition) : State Key :=
  if (s.node p).isLeafNode then
    (s.setBrotherNode pNew (s.node p).m_pBrotherNode).setBrotherNode p pNew
  else reg2child s pNew

/-- The second step of `splitNode`: the new element goes behind the last one of its half. -/
def insertHalf (s : State Key) (path : Path) (p pNew : ShmPosition) (key : Key)
    (addr : ShmPosition) : Outcome Key (State Key) :=
  if s.keyOf p ((s.node p).m_pCurrentNum - 1) < key then insertElem s path pNew key addr
  else insertElem s path p key addr

/-- The first three steps of `splitNode`.  After the first one both nodes have room. -/
def splitSteps (s : State Key) (path : Path) (p pNew : ShmPosition) (key : Key)
    (addr : ShmPosition) : Outcome Key (State Key) := do
  let t ← insertHalf (moveHalf s p pNew) path p pNew key addr
  pure (registerNew t p pNew)

/-- A root that was split gets a parent. -/
def newParent (s : State Key) (path : Path) (p : ShmPosition) :
    Outcome Key (State Key × Option ShmPosition) :=
  if (s.node p).m_pParentNode = nullShmPos then do
    let (r, t) ← s.allocateNode
    let t := t.setParentNode p r
    let t := t.setNode r ((t.node r).initial (t.node p).m_iMaxNum)
    let t ← insertElem t path r (t.keyOf p 0) p
    pure (t, some r)
  else pure (s, none)

/-- `Node::insert` for a key that is not there, with `splitNode`.  Returns the new root, if there is
one. -/
def nodeInsert (path : Path) : Nat → State Key → ShmPosition → Key → ShmPosition →
    Outcome Key (State Key × Option ShmPosition)
  | 0, s, _, _, _ => .error (.rounds, s)
  | rounds + 1, s, p, key, addr =>
    let n := s.node p
    if n.m_iMaxNum < n.m_pCurrentNum ∨ n.m_iMaxNum = 0 then .error (.currentNum, s)
    else if n.m_pCurrentNum < n.m_iMaxNum then do
      let t ← insertElem s path p key addr
      pure (t, none)
    else do
      let (pNew, t) ← s.allocateNode
      let t ← splitSteps t path p pNew key addr
      let (t, pNewParentNode1) ← newParent t path p
      let t := t.setParentNode pNew (t.node p).m_pParentNode
      let (t, pNewParentNode2) ← nodeInsert path rounds t (t.node p).m_pParentNode
        (t.keyOf pNew 0) pNew
      pure (t, pNewParentNode2.or pNewParentNode1)

/-- `IndexBTree::create`, in a memory where the index has nothing yet. -/
def create (s : State Key) (NODE_ELEM_NUM : Nat) : Outcome Key (State Key × IndexBTree) := do
  let (r, t) ← s.allocateNode
  let t := (t.setNode r ((t.node r).initial NODE_ELEM_NUM)).setNodeTypeLeaf r
  pure ({ t with m_header := r }, ⟨r⟩)

/-- `IndexBTree::initialization`.  `getPhAddr` makes a null pointer of the null position. -/
def initialization (s : State Key) : IndexBTree := ⟨s.m_header⟩

/-- `IndexBTree::insert`.  A new root is registered in the object and in the descriptor; other
objects are not told. -/
def IndexBTree.insert (front : Front Key) (o : IndexBTree) (s : State Key) (key : Key)
    (addr : ShmPosition) : Outcome Key (State Key × IndexBTree) := do
  let r ← (o.search front s key).mapError (·, s)
  if r.found then
    if s.m_isUnique then throw (.repeated, s)
    else if r.inFront then throw (.stray, s)
    else
      let t ← insertRepeated s r.elemPosiInNodes r.pLeafNode addr
      pure (t, o)
  else
    match ← nodeInsert r.elemPosiInNodes s.depth s r.pLeafNode key addr with
    | (t, none) => pure (t, o)
    | (t, some pNewParent) => pure ({ t with m_header := pNewParent }, ⟨pNewParent⟩)

end BTree
