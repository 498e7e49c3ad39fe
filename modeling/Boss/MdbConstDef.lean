import Mathlib.Tactic.Common

/-!
# Positions in shared memory

Everything the database keeps in shared memory is addressed by a position: the
number of a table space and an offset in it.  Two positions are compared byte by
byte, so equality of the two numbers is equality of positions.
-/

/-- `ShmPosition`: one byte of space code and a five-byte offset, kept as the
numbers that `getSpaceCode` and `getOffSet` read. -/
structure ShmPosition where
  m_spaceCode : Nat
  m_offSet : Nat
  deriving DecidableEq, Repr

/-- `NULL_SHMPOS`, which no slot or page ever has: offset 0 of a space is its
header. -/
def nullShmPos : ShmPosition := ⟨0, 0⟩
