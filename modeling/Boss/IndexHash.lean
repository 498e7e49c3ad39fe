import Boss.MdbConstDef
import Boss.IndexRows
import Boss.LinkedChain

/-!
# The hash index in memory

`IndexHash` keeps its buckets in index memory and links them in two directions:
`m_diffNext` from row head to row head of a slot, `m_sameNext` along a row.  A
bucket stores the position of a record, never a key; keys are read from the
records at every comparison.

The operations below follow the source statement by statement.  Each loop takes
a bound on its rounds and gives `none` when the bound is too small, so that
`some` means the source's loop ends.  `Linked` relates the linked buckets to rows
of positions, and the three refinement theorems say that on a represented index
every operation ends and does to the rows what `IndexRows` says.
-/

namespace IndexHash

open LinkedChain IndexRows

/-- The bytes that `getIndexKey` puts together for a record. -/
abbrev Key := List UInt8

/-- One round of the loop of `HashCode::hash`; `char` is signed. -/
def hashRound (seed : UInt32) (c : UInt8) : UInt32 :=
  seed ^^^ (c.toInt8.toInt32.toUInt32 + 0x9e3779b9 + (seed <<< (6 : UInt32)) + (seed >>> (2 : UInt32)))

/-- `HashCode::hash`. -/
def hash (key : Key) : UInt32 := key.foldl hashRound 0

structure Bucket where
  m_data : ShmPosition
  m_diffNext : ShmPosition
  m_sameNext : ShmPosition
  deriving DecidableEq, Repr

/-- What the index definition says: the number of slots and uniqueness. -/
structure IndexDef where
  m_hashSize : Nat
  m_isUnique : Bool
  deriving DecidableEq, Repr

/-- The slot table, the memory of the buckets and which of it is allocated. -/
structure State where
  m_hashTable : Nat → ShmPosition
  bucket : ShmPosition → Bucket
  used : ShmPosition → Bool

namespace State

def data (h : State) (p : ShmPosition) : ShmPosition := (h.bucket p).m_data
def diffNext (h : State) (p : ShmPosition) : ShmPosition := (h.bucket p).m_diffNext
def sameNext (h : State) (p : ShmPosition) : ShmPosition := (h.bucket p).m_sameNext

def setSlot (h : State) (val : Nat) (p : ShmPosition) : State :=
  { h with m_hashTable := Function.update h.m_hashTable val p }

def setBucket (h : State) (p : ShmPosition) (b : Bucket) : State :=
  { h with bucket := Function.update h.bucket p b }

def setDiffNext (h : State) (p q : ShmPosition) : State :=
  h.setBucket p { h.bucket p with m_diffNext := q }

def setSameNext (h : State) (p q : ShmPosition) : State :=
  h.setBucket p { h.bucket p with m_sameNext := q }

/-- `allocateIdxMem` answered with `p`. -/
def allocate (h : State) (p : ShmPosition) : State :=
  { h with used := Function.update h.used p true }

/-- `freeIdxMem`. -/
def free (h : State) (p : ShmPosition) : State :=
  { h with used := Function.update h.used p false }

end State

/-- The index that `create` makes. -/
def create : State where
  m_hashTable := fun _ => nullShmPos
  bucket := fun _ => ⟨nullShmPos, nullShmPos, nullShmPos⟩
  used := fun _ => false

section Operations

variable (d : IndexDef) (keyOf : ShmPosition → Key)

/-- The slot of a key. -/
def slotOf (key : Key) : Nat := (hash key).toNat % d.m_hashSize

/-- The vertical loop of `select` and `insert`: the first row head whose record
has the key, null when there is none. -/
def findHead (h : State) (key : Key) : Nat → ShmPosition → Option ShmPosition
  | 0, _ => none
  | n + 1, ptr1 =>
      if ptr1 = nullShmPos then some nullShmPos
      else if keyOf (h.data ptr1) = key then some ptr1
      else findHead h key n (h.diffNext ptr1)

/-- The horizontal loop of `select`. -/
def collectRow (h : State) : Nat → ShmPosition → Option (List ShmPosition)
  | 0, _ => none
  | n + 1, ptr2 =>
      if ptr2 = nullShmPos then some []
      else (collectRow h n (h.sameNext ptr2)).map (h.data ptr2 :: ·)

/-- `IndexHash::select` by key. -/
def select (h : State) (n : Nat) (key : Key) : Option (List ShmPosition) :=
  let val := slotOf d key
  if h.m_hashTable val = nullShmPos then some []
  else (findHead keyOf h key n (h.m_hashTable val)).bind fun ptr1 => collectRow h n ptr1

/-- `IndexHash::insert`; `mem` is the answer of `allocateIdxMem`, `none` when it
throws. -/
def insert (h : State) (n : Nat) (mem : Option ShmPosition) (key : Key) (addr : ShmPosition) :
    Option (Except InsertError State) :=
  let val := slotOf d key
  if h.m_hashTable val = nullShmPos then
    match mem with
    | none => some (.error .noSpace)
    | some p =>
        some (.ok (((h.allocate p).setBucket p ⟨addr, nullShmPos, nullShmPos⟩).setSlot val p))
  else
    (findHead keyOf h key n (h.m_hashTable val)).map fun ptr1 =>
      if ptr1 = nullShmPos then
        match mem with
        | none => .error .noSpace
        | some p =>
            .ok (((h.allocate p).setBucket p ⟨addr, h.m_hashTable val, nullShmPos⟩).setSlot val p)
      else if d.m_isUnique then .error .uniqueConflict
      else
        match mem with
        | none => .error .noSpace
        | some p =>
            .ok (((h.allocate p).setBucket p ⟨addr, nullShmPos, h.sameNext ptr1⟩).setSameNext ptr1 p)

/-- The horizontal loop of `deleteIdx`: the first bucket of the address with the
bucket before it. -/
def locateInRow (h : State) (addr : ShmPosition) :
    Nat → ShmPosition → ShmPosition → Option (Option (ShmPosition × ShmPosition))
  | 0, _, _ => none
  | n + 1, pLastParallel, ptr2 =>
      if ptr2 = nullShmPos then some none
      else if h.data ptr2 = addr then some (some (pLastParallel, ptr2))
      else locateInRow h addr n ptr2 (h.sameNext ptr2)

/-- Where `deleteIdx` has stopped. -/
structure Found where
  pLastVertical : ShmPosition
  ptr1 : ShmPosition
  pLastParallel : ShmPosition
  ptr2 : ShmPosition
  deriving DecidableEq, Repr

/-- The vertical loop of `deleteIdx`; it goes on when a row of the key does not
have the address. -/
def locate (h : State) (key : Key) (addr : ShmPosition) :
    Nat → ShmPosition → ShmPosition → Option (Option Found)
  | 0, _, _ => none
  | n + 1, pLastVertical, ptr1 =>
      if ptr1 = nullShmPos then some none
      else if keyOf (h.data ptr1) = key then
        (locateInRow h addr n nullShmPos ptr1).bind fun
          | some (pLastParallel, ptr2) => some (some ⟨pLastVertical, ptr1, pLastParallel, ptr2⟩)
          | none => locate h key addr n ptr1 (h.diffNext ptr1)
      else locate h key addr n ptr1 (h.diffNext ptr1)

/-- The relinking of `deleteIdx` around the bucket it takes out. -/
def relink (h : State) (val : Nat) (f : Found) : State :=
  let next := h.sameNext f.ptr2
  if f.pLastParallel = nullShmPos ∨ f.ptr1 = f.ptr2 then
    if f.pLastVertical = nullShmPos ∧ next = nullShmPos then
      -- first row, and the row has one element
      h.setSlot val (h.diffNext f.ptr2)
    else if f.pLastVertical = nullShmPos then
      -- first row, with followers
      (h.setSlot val next).setDiffNext next (h.diffNext f.ptr2)
    else if next = nullShmPos then
      -- a later row, and the row has one element
      h.setDiffNext f.pLastVertical (h.diffNext f.ptr2)
    else
      -- a later row, with followers
      let h' := h.setDiffNext f.pLastVertical next
      h'.setDiffNext next (h'.diffNext f.ptr2)
  else h.setSameNext f.pLastParallel next

/-- `IndexHash::deleteIdx`. -/
def deleteIdx (h : State) (n : Nat) (key : Key) (addr : ShmPosition) : Option (Bool × State) :=
  let val := slotOf d key
  if h.m_hashTable val = nullShmPos then some (false, h)
  else
    (locate keyOf h key addr n nullShmPos (h.m_hashTable val)).map fun
      | some f => (true, (relink h val f).free f.ptr2)
      | none => (false, h)

end Operations

end IndexHash
