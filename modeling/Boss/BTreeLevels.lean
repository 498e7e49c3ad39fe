import Boss.BTreeNode
import Mathlib.Data.List.DropRight

/-!
# The levels of a B-tree

Seen from the side a B-tree is a list of levels, the leaves first and the root last, and a level is a
list of blocks: positions of nodes with the elements in them.  The elements of a level, taken
together, address the blocks of the level below one after the other.

`InsertUp` is an insertion on levels: the search leaves a `Frame` on each level above the leaf, and an
insertion writes into a block, and as long as blocks are full into the blocks of the frames.
-/

namespace BTree

variable {Key : Type}

structure Block (Key : Type) where
  pos : ShmPosition
  elems : List (Elem Key)

abbrev Level (Key : Type) := List (Block Key)

/-- All elements of a level. -/
def flat (l : Level Key) : List (Elem Key) := l.flatMap Block.elems

@[simp] theorem flat_nil : flat ([] : Level Key) = [] := rfl

@[simp] theorem flat_cons (b : Block Key) (l : Level Key) : flat (b :: l) = b.elems ++ flat l := rfl

@[simp] theorem flat_append (l l' : Level Key) : flat (l ++ l') = flat l ++ flat l' :=
  List.flatMap_append

variable [LinearOrder Key]

/-! ## Putting an element in -/

/-- An element is put in behind the last one that is not greater. -/
def putIn (es : List (Elem Key)) (e : Elem Key) : List (Elem Key) :=
  es.rdropWhile (e.m_pKeyValue < ·.m_pKeyValue) ++
    e :: es.rtakeWhile (e.m_pKeyValue < ·.m_pKeyValue)

/-- The elements of a full node and a new one, for the node and its new brother. -/
def halves (M : Nat) (es : List (Elem Key)) (e : Elem Key) : List (Elem Key) × List (Elem Key) :=
  if (es.take (M / 2)).getLast?.any (·.m_pKeyValue < e.m_pKeyValue) then
    (es.take (M / 2), putIn (es.drop (M / 2)) e)
  else (putIn (es.take (M / 2)) e, es.drop (M / 2))

/-! ## Insertion -/

/-- A level with the element that a search went through. -/
structure Frame (Key : Type) where
  before : Level Key
  pos : ShmPosition
  left : List (Elem Key)
  elem : Elem Key
  right : List (Elem Key)
  after : Level Key

def Frame.block (f : Frame Key) : Block Key := ⟨f.pos, f.left ++ f.elem :: f.right⟩

def Frame.level (f : Frame Key) : Level Key := f.before ++ f.block :: f.after

/-- The elements of the frames address the blocks, from the one at `p` on. -/
def Leads : ShmPosition → List (Frame Key) → Prop
  | _, [] => True
  | p, f :: fs => f.elem.m_pRecordAddrs = p ∧ Leads f.pos fs

def Frame.setKey (f : Frame Key) (key : Key) : Frame Key :=
  { f with elem := { f.elem with m_pKeyValue := key } }

/-- An element that comes in front of a block gives its key to the parent. -/
def Frame.touch (f : Frame Key) (es : List (Elem Key)) (key : Key) : Frame Key :=
  if ∀ a ∈ es, key < a.m_pKeyValue then f.setKey key else f

/-- What a record or a node is entered with. -/
def entry (p : ShmPosition) (key : Key) : Elem Key := ⟨p, nullShmPos, key⟩

/-- **Insertion on levels**: into a block of the lowest one, and as long as blocks are full into the
blocks that the search went through. -/
inductive InsertUp (M : Nat) : List (Frame Key) → Level Key → Block Key → Level Key → Elem Key →
    List (Level Key) → Prop
  | roomTop {before b after e} : b.elems.length < M →
      InsertUp M [] before b after e [before ++ ⟨b.pos, putIn b.elems e⟩ :: after]
  | room {f fs before b after e} : b.elems.length < M →
      InsertUp M (f :: fs) before b after e ((before ++ ⟨b.pos, putIn b.elems e⟩ :: after) ::
        (f.touch b.elems e.m_pKeyValue).level :: fs.map Frame.level)
  | splitTop {before b after e} {q r : ShmPosition} {a l c h} : b.elems.length = M →
      halves M b.elems e = (a :: l, c :: h) →
      InsertUp M [] before b after e [before ++ ⟨b.pos, a :: l⟩ :: ⟨q, c :: h⟩ :: after,
        [⟨r, putIn [entry b.pos a.m_pKeyValue] (entry q c.m_pKeyValue)⟩]]
  | split {f fs before b after e} {q : ShmPosition} {l c h f' levels} : b.elems.length = M →
      halves M b.elems e = (l, c :: h) → f' = f.touch (b.elems.take (M / 2)) e.m_pKeyValue →
      InsertUp M fs f'.before f'.block f'.after (entry q c.m_pKeyValue) levels →
      InsertUp M (f :: fs) before b after e
        ((before ++ ⟨b.pos, l⟩ :: ⟨q, c :: h⟩ :: after) :: levels)

/-! ## Where a new element belongs -/

omit [LinearOrder Key] in
/-- The topmost level has nothing but the root. -/
theorem single_block {before after : Level Key} {b : Block Key}
    (h : ∃ b₀, before ++ b :: after = [b₀]) : before = [] ∧ after = [] := by
  obtain ⟨b₀, h⟩ := h
  rcases List.append_eq_singleton_iff.mp h with ⟨hbefore, hafter⟩ | ⟨-, hafter⟩
  · exact ⟨hbefore, (List.cons.inj hafter).2⟩
  · cases hafter

end BTree
