import Mathlib.Tactic.Common

/-!
# Rows of one width in a block

A block is a list of cells.  Row `i` of width `w` is what stands in the `w` cells from `i * w` on.
The rows of a block do not change when the block grows behind them; writing inside of a row changes
that row alone; and moving what is behind a row to where it begins leaves the rows without it.
-/

namespace FixedRows

variable {α : Type*}

def row (w : Nat) (block : List α) (i : Nat) : List α := (block.drop (i * w)).take w

def rows (w n : Nat) (block : List α) : List (List α) := (List.range n).map (row w block)

/-- Write `cells` from `a` on. -/
def overwrite (block : List α) (a : Nat) (cells : List α) : List α :=
  block.take a ++ cells ++ block.drop (a + cells.length)

/-- Write at `dest` what stands in the `size` cells from `src` on. -/
def move (block : List α) (dest src size : Nat) : List α :=
  overwrite block dest ((block.drop src).take size)

variable {w n i j a : Nat} {block other more cells : List α}

theorem length_overwrite (h : a + cells.length ≤ block.length) :
    (overwrite block a cells).length = block.length := by
  rw [overwrite, List.length_append, List.length_append, List.length_take, List.length_drop]
  omega

theorem getElem?_overwrite (h : a + cells.length ≤ block.length) (k : Nat) :
    (overwrite block a cells)[k]? =
      if a ≤ k ∧ k < a + cells.length then cells[k - a]? else block[k]? := by
  have hfront : (block.take a ++ cells).length = a + cells.length := by
    rw [List.length_append, List.length_take]
    omega
  unfold overwrite
  by_cases hlow : k < a
  · have hout : ¬ (a ≤ k ∧ k < a + cells.length) := by omega
    rw [if_neg hout, List.append_assoc, List.getElem?_append_left (by rw [List.length_take]; omega),
      List.getElem?_take_of_lt hlow]
  · by_cases hhigh : k < a + cells.length
    · rw [if_pos ⟨by omega, hhigh⟩, List.getElem?_append_left (by omega),
        List.getElem?_append_right (by rw [List.length_take]; omega), List.length_take,
        Nat.min_eq_left (by omega)]
    · have hout : ¬ (a ≤ k ∧ k < a + cells.length) := by omega
      rw [if_neg hout, List.getElem?_append_right (by omega), hfront, List.getElem?_drop,
        Nat.add_sub_cancel' (by omega)]

theorem getElem?_row (k : Nat) :
    (row w block i)[k]? = if k < w then block[i * w + k]? else none := by
  rw [row, List.getElem?_take, List.getElem?_drop]

/-- A row is what stands in its cells. -/
theorem row_congr (h : ∀ k < w, other[j * w + k]? = block[i * w + k]?) :
    row w other j = row w block i := by
  apply List.ext_getElem?
  intro k
  rw [getElem?_row, getElem?_row]
  by_cases hk : k < w
  · rw [if_pos hk, if_pos hk, h k hk]
  · rw [if_neg hk, if_neg hk]

@[simp] theorem length_rows : (rows w n block).length = n := by
  rw [rows, List.length_map, List.length_range]

theorem getElem?_rows (i : Nat) :
    (rows w n block)[i]? = if i < n then some (row w block i) else none := by
  rw [rows, List.getElem?_map]
  by_cases hi : i < n
  · rw [List.getElem?_range hi, if_pos hi]
    rfl
  · rw [List.getElem?_eq_none (by rw [List.length_range]; omega), if_neg hi]
    rfl

theorem rows_succ : rows w (n + 1) block = rows w n block ++ [row w block n] := by
  rw [rows, List.range_succ, List.map_append]
  rfl

theorem rows_pred : rows w (n - 1) block = (rows w n block).dropLast := by
  cases n with
  | zero => rfl
  | succ n => rw [rows_succ, List.dropLast_concat, Nat.add_sub_cancel]

/-- A row before row `n` ends where row `n` begins at the latest. -/
theorem row_end_le (hi : i < n) : i * w + w ≤ n * w := by
  rw [← Nat.succ_mul]
  exact Nat.mul_le_mul_right w hi

/-- Rows stay as they are when the block grows behind them. -/
theorem rows_append (h : n * w ≤ block.length) :
    rows w n (block ++ more) = rows w n block := by
  apply List.map_congr_left
  intro i hi
  apply row_congr
  intro k hk
  have hend := row_end_le (w := w) (List.mem_range.mp hi)
  exact List.getElem?_append_left (by omega)

/-- Writing inside of a row changes that row alone. -/
theorem rows_overwrite (hi : i < n) (hblock : n * w ≤ block.length) (hin : a + cells.length ≤ w) :
    rows w n (overwrite block (i * w + a) cells) =
      (rows w n block).modify i fun r => overwrite r a cells := by
  have hend := row_end_le (w := w) hi
  have hwrite : i * w + a + cells.length ≤ block.length := by omega
  apply List.ext_getElem?
  intro j
  rw [List.getElem?_modify, getElem?_rows, getElem?_rows]
  by_cases hj : j < n
  · rw [if_pos hj, if_pos hj]
    by_cases hij : i = j
    · subst hij
      have hlength : (row w block i).length = w := by
        rw [row, List.length_take, List.length_drop]
        omega
      rw [Option.map_eq_map, Option.map_some, if_pos rfl, Option.some.injEq]
      apply List.ext_getElem?
      intro k
      have hin' : a + cells.length ≤ (row w block i).length := by omega
      rw [getElem?_row, getElem?_overwrite hwrite, getElem?_overwrite hin', getElem?_row]
      by_cases hk : k < w
      · by_cases hcell : a ≤ k ∧ k < a + cells.length
        · rw [if_pos hk, if_pos (by omega), if_pos hcell]
          congr 1
          omega
        · rw [if_pos hk, if_neg (by omega), if_neg hcell, if_pos hk]
      · rw [if_neg hk, if_neg (by omega), if_neg hk]
    · rw [Option.map_eq_map, Option.map_some, if_neg hij, Option.some.injEq]
      apply row_congr
      intro k hk
      have hapart : ¬ (i * w + a ≤ j * w + k ∧ j * w + k < i * w + a + cells.length) := by
        rcases Nat.lt_or_gt_of_ne hij with hlt | hgt
        · have hbefore := row_end_le (w := w) hlt
          omega
        · have hbefore := row_end_le (w := w) hgt
          omega
      rw [getElem?_overwrite hwrite, if_neg hapart]
  · rw [if_neg hj, if_neg hj]
    rfl

/-- The cells from the row behind row `i` to row `n`. -/
theorem behind_row (hi : i < n) : (n - i - 1) * w + (i * w + w) = n * w := by
  rw [← Nat.succ_mul, ← Nat.add_mul]
  congr 1
  omega

theorem length_move (hi : i < n) (hblock : n * w ≤ block.length) :
    (move block (i * w) ((i + 1) * w) ((n - i - 1) * w)).length = block.length := by
  have hsize := behind_row (w := w) hi
  apply length_overwrite
  rw [List.length_take]
  omega

/-- Moving what is behind a row to where it begins leaves the rows without it. -/
theorem rows_move (hi : i < n) (hblock : n * w ≤ block.length) :
    rows w (n - 1) (move block (i * w) ((i + 1) * w) ((n - i - 1) * w)) =
      (rows w n block).eraseIdx i := by
  have hend := row_end_le (w := w) hi
  have hsrc : (i + 1) * w = i * w + w := Nat.succ_mul i w
  have hsize := behind_row (w := w) hi
  have hlength : ((block.drop ((i + 1) * w)).take ((n - i - 1) * w)).length = (n - i - 1) * w := by
    rw [List.length_take, List.length_drop]
    omega
  apply List.ext_getElem?
  intro j
  rw [List.getElem?_eraseIdx, getElem?_rows, getElem?_rows, getElem?_rows]
  by_cases hj : j < n - 1
  · have hlast := row_end_le (w := w) hj
    have hmove : ∀ k < w, (move block (i * w) ((i + 1) * w) ((n - i - 1) * w))[j * w + k]? =
        if i * w ≤ j * w + k then block[j * w + k + w]? else block[j * w + k]? := by
      intro k hk
      have hpred : (n - 1) * w + w = n * w := by
        rw [← Nat.succ_mul]
        congr 1
        omega
      unfold move
      rw [getElem?_overwrite (by omega), hlength]
      by_cases hlow : i * w ≤ j * w + k
      · rw [if_pos ⟨hlow, by omega⟩, if_pos hlow, List.getElem?_take_of_lt (by omega),
          List.getElem?_drop]
        congr 1
        omega
      · rw [if_neg (by omega), if_neg hlow]
    rw [if_pos hj]
    by_cases hij : j < i
    · have hbefore := row_end_le (w := w) hij
      rw [if_pos hij, if_pos (by omega), Option.some.injEq]
      apply row_congr
      intro k hk
      rw [hmove k hk, if_neg (by omega)]
    · have hle : i * w ≤ j * w := Nat.mul_le_mul_right w (by omega)
      rw [if_neg hij, if_pos (by omega), Option.some.injEq]
      apply row_congr
      intro k hk
      rw [hmove k hk, if_pos (by omega), Nat.succ_mul]
      congr 1
      omega
  · rw [if_neg hj]
    by_cases hij : j < i
    · omega
    · rw [if_neg hij, if_neg (by omega)]

/-- A row that was written over with one cell. -/
theorem row_eq_replicate_iff {z : α} (h : i * w + w ≤ block.length) :
    row w block i = List.replicate w z ↔ ∀ c ∈ row w block i, c = z := by
  have hlength : (row w block i).length = w := by
    rw [row, List.length_take, List.length_drop]
    omega
  rw [List.eq_replicate_iff, hlength]
  exact and_iff_right rfl

/-- What is appended in one cell does not spoil a row of this cell. -/
theorem forall_row_append_replicate_iff {z : α} {m : Nat} :
    (∀ c ∈ row w (block ++ List.replicate m z) i, c = z) ↔ ∀ c ∈ row w block i, c = z := by
  unfold row
  rw [List.drop_append, List.take_append]
  constructor
  · intro h c hc
    exact h c (List.mem_append_left _ hc)
  · intro h c hc
    rcases List.mem_append.mp hc with hold | hnew
    · exact h c hold
    · exact List.eq_of_mem_replicate (List.mem_of_mem_drop (List.mem_of_mem_take hnew))

end FixedRows
