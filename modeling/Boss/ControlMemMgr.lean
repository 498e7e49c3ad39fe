import Boss.IndexMemMgr
import Boss.ListManager
import Mathlib.Algebra.GroupWithZero.Nat
import Mathlib.Algebra.Order.BigOperators.Group.List
import Mathlib.Algebra.Order.Group.Nat

/-!
# The layout of the control area

The control area starts with two records and has five lists behind them.  `firstCreator`
lays the lists out one behind the other, each with the array that `ListManager` sorts its
nodes in.  `checkSpaceSize` adds up what is needed beforehand, and leaves these arrays out.
So a size that lies between the two sums is accepted, and the last list ends outside of the
area (`checkSpaceSize_sufficient_iff`).

The sizes of the classes are those of a system with 64 bits.
-/

namespace ControlMemMgr

open IndexMemMgr (sizeT sizeofSpaceInfo)
open ListManager (sizeofNodeListInfo)

/-- What `getCtlInfo` reads from the configuration; a capacity that is not positive is
refused, and it is an `int`. -/
structure MdbCtlInfo where
  m_size : Nat
  m_gparamMaxSpNum : Nat
  m_gparamMaxNum : Nat
  m_tableMaxNum : Nat
  m_indexMaxNum : Nat
  m_sessionMaxNum : Nat
  size_lt : m_size < 2 ^ 64
  spNum : 0 < m_gparamMaxSpNum ∧ m_gparamMaxSpNum < 2 ^ 31
  paramNum : 0 < m_gparamMaxNum ∧ m_gparamMaxNum < 2 ^ 31
  tableNum : 0 < m_tableMaxNum ∧ m_tableMaxNum < 2 ^ 31
  indexNum : 0 < m_indexMaxNum ∧ m_indexMaxNum < 2 ^ 31
  sessionNum : 0 < m_sessionMaxNum ∧ m_sessionMaxNum < 2 ^ 31

/-- `sizeof(MDbGlobalInfo)`. -/
def sizeofMDbGlobalInfo : Nat := 10048

/-- `sizeof(GlobalParam)`. -/
def sizeofGlobalParam : Nat := 130

/-- `sizeof(TableDesc)`. -/
def sizeofTableDesc : Nat := 18480

/-- `sizeof(IndexDesc)`. -/
def sizeofIndexDesc : Nat := 2176

/-- `sizeof(SessionInfo)`. -/
def sizeofSessionInfo : Nat := 56

/-- `sizeof(NodeTmpt<T>)`: the element lies behind an `int` and is padded to eight bytes; an
element of characters follows the `int` at once. -/
def sizeofNodeTmpt (align sizeofElement : Nat) : Nat :=
  let offSet := (28 + align - 1) / align * align
  (offSet + sizeofElement + 7) / 8 * 8

/-- `ListManager::getSize`. -/
def getSize (m_maxNum sizeofNode : Nat) : Nat :=
  sizeT (sizeofNodeListInfo + m_maxNum * sizeofNode + m_maxNum * 8)

namespace MdbCtlInfo

variable (c : MdbCtlInfo)

/-- The five lists in their order: how many nodes a list has and how large they are. -/
def lists : List (Nat × Nat) :=
  [(c.m_gparamMaxSpNum, sizeofNodeTmpt 8 sizeofSpaceInfo),
    (c.m_gparamMaxNum, sizeofNodeTmpt 1 sizeofGlobalParam),
    (c.m_tableMaxNum, sizeofNodeTmpt 8 sizeofTableDesc),
    (c.m_indexMaxNum, sizeofNodeTmpt 8 sizeofIndexDesc),
    (c.m_sessionMaxNum, sizeofNodeTmpt 8 sizeofSessionInfo)]

/-- One list of `firstCreator`: `initElements` lays it out at the offset, and its size is
added to the offset. -/
def place (done : List Nat × Nat) (l : Nat × Nat) : List Nat × Nat :=
  (done.1 ++ [done.2], sizeT (done.2 + getSize l.1 l.2))

/-- `ControlMemMgr::firstCreator`: where the lists begin and what is left behind them. -/
def firstCreator : List Nat × Nat :=
  c.lists.foldl place ([], sizeofSpaceInfo + sizeofMDbGlobalInfo)

/-- The sum of `checkSpaceSize`. -/
def needSize : Nat :=
  c.lists.foldl (fun t_needSize l => sizeT (t_needSize + (sizeofNodeListInfo + l.1 * l.2)))
    (sizeofSpaceInfo + sizeofMDbGlobalInfo)

/-- `ControlMemMgr::checkSpaceSize`. -/
def checkSpaceSize : Bool := !decide (c.needSize > c.m_size)

/-- How many nodes all lists have. -/
def capacity : Nat := (c.lists.map Prod.fst).sum

/-- The bytes of the two records, of the heads of the lists and of their nodes. -/
def nodeBytes : Nat :=
  sizeofSpaceInfo + sizeofMDbGlobalInfo + (c.lists.map fun l => sizeofNodeListInfo + l.1 * l.2).sum

/-- What the configuration admits is far below what `size_t` holds. -/
theorem nodeBytes_lt : c.nodeBytes + 8 * c.capacity < 2 ^ 64 := by
  have hsp := c.spNum.2
  have hparam := c.paramNum.2
  have htable := c.tableNum.2
  have hindex := c.indexNum.2
  have hsession := c.sessionNum.2
  simp only [nodeBytes, capacity, lists, List.map_cons, List.map_nil, List.sum_cons, List.sum_nil,
    sizeofNodeTmpt, sizeofSpaceInfo, sizeofMDbGlobalInfo, sizeofGlobalParam, sizeofTableDesc,
    sizeofIndexDesc, sizeofSessionInfo, sizeofNodeListInfo]
  omega

/-- The sizes of the lists add up without a wrap. -/
theorem foldl_sizeT {A : Type} (f : A → Nat) (xs : List A) :
    ∀ n, n + (xs.map f).sum < 2 ^ 64 →
      xs.foldl (fun t x => sizeT (t + f x)) n = n + (xs.map f).sum := by
  induction xs with
  | nil => intro n _; rfl
  | cons x xs ih =>
      intro n hn
      simp only [List.map_cons, List.sum_cons] at hn ⊢
      have hx : sizeT (n + f x) = n + f x := Nat.mod_eq_of_lt (by omega)
      rw [List.foldl_cons, hx, ih (n + f x) (by omega)]
      omega

/-- The offset behind the lists is the sum of their sizes. -/
theorem foldl_place_snd (xs : List (Nat × Nat)) :
    ∀ done, (xs.foldl place done).2 =
      xs.foldl (fun t l => sizeT (t + getSize l.1 l.2)) done.2 := by
  induction xs with
  | nil => intro done; rfl
  | cons l xs ih =>
      intro done
      rw [List.foldl_cons, List.foldl_cons, ih (place done l)]
      rfl

theorem needSize_eq : c.needSize = c.nodeBytes := by
  have hlt := c.nodeBytes_lt
  have hsum := foldl_sizeT (fun l : Nat × Nat => sizeofNodeListInfo + l.1 * l.2) c.lists
    (sizeofSpaceInfo + sizeofMDbGlobalInfo) (by rw [nodeBytes] at hlt; omega)
  exact hsum

/-- Eight bytes for each node are in the size of a list only. -/
theorem getSize_eq {l : Nat × Nat} (hl : l ∈ c.lists) :
    getSize l.1 l.2 = sizeofNodeListInfo + l.1 * l.2 + l.1 * 8 := by
  have hlt := c.nodeBytes_lt
  have hnodes : sizeofNodeListInfo + l.1 * l.2 ≤
      (c.lists.map fun l => sizeofNodeListInfo + l.1 * l.2).sum :=
    List.single_le_sum (fun _ _ => Nat.zero_le _) _ (List.mem_map_of_mem hl)
  have hindex : l.1 ≤ c.capacity :=
    List.single_le_sum (fun _ _ => Nat.zero_le _) _ (List.mem_map_of_mem hl)
  rw [nodeBytes] at hlt
  exact Nat.mod_eq_of_lt (by omega)

theorem sum_getSize (xs : List (Nat × Nat)) :
    (xs.map fun l => sizeofNodeListInfo + l.1 * l.2 + l.1 * 8).sum =
      (xs.map fun l => sizeofNodeListInfo + l.1 * l.2).sum + 8 * (xs.map Prod.fst).sum := by
  induction xs with
  | nil => rfl
  | cons l xs ih =>
      simp only [List.map_cons, List.sum_cons]
      omega

/-- The last list ends behind the nodes and the arrays of all lists. -/
theorem firstCreator_snd : c.firstCreator.2 = c.nodeBytes + 8 * c.capacity := by
  have hlt := c.nodeBytes_lt
  have hsizes : (c.lists.map fun l => getSize l.1 l.2).sum =
      (c.lists.map fun l => sizeofNodeListInfo + l.1 * l.2).sum + 8 * c.capacity := by
    rw [capacity, ← sum_getSize]
    exact congrArg List.sum (List.map_congr_left fun l hl => c.getSize_eq hl)
  have hsum := foldl_sizeT (fun l : Nat × Nat => getSize l.1 l.2) c.lists
    (sizeofSpaceInfo + sizeofMDbGlobalInfo)
    (by rw [hsizes]; rw [nodeBytes] at hlt; omega)
  calc c.firstCreator.2
      = c.lists.foldl (fun t l => sizeT (t + getSize l.1 l.2))
          (sizeofSpaceInfo + sizeofMDbGlobalInfo) := foldl_place_snd c.lists _
    _ = c.nodeBytes + 8 * c.capacity := by
      rw [hsum, hsizes, nodeBytes]
      omega

theorem checkSpaceSize_iff : c.checkSpaceSize = true ↔ c.nodeBytes ≤ c.m_size := by
  rw [checkSpaceSize, needSize_eq]
  simp

/-- The check answers for the layout unless the size lies between the bytes of the nodes and
these with eight more for each node. -/
theorem checkSpaceSize_sufficient_iff :
    (c.checkSpaceSize = true → c.firstCreator.2 ≤ c.m_size) ↔
      (c.m_size < c.nodeBytes ∨ c.nodeBytes + 8 * c.capacity ≤ c.m_size) := by
  rw [c.checkSpaceSize_iff, c.firstCreator_snd]
  omega

/-- Two megabytes for 20 table spaces, 200 parameters, 50 tables, 500 indexes and 100
sessions. -/
def twoMegabytes : MdbCtlInfo where
  m_size := 2 * 1024 * 1024
  m_gparamMaxSpNum := 20
  m_gparamMaxNum := 200
  m_tableMaxNum := 50
  m_indexMaxNum := 500
  m_sessionMaxNum := 100
  size_lt := by decide
  spNum := by decide
  paramNum := by decide
  tableNum := by decide
  indexNum := by decide
  sessionNum := by decide

/-- That size is accepted, and the sessions end 288 bytes behind the area. -/
theorem checkSpaceSize_not_sufficient :
    ¬ ∀ c : MdbCtlInfo, c.checkSpaceSize = true → c.firstCreator.2 ≤ c.m_size := by
  intro h
  have hends := h twoMegabytes (by decide)
  revert hends
  decide

end MdbCtlInfo

end ControlMemMgr
