import Mathlib.Algebra.Order.Ring.Int
import Mathlib.Tactic.Common

/-!
# Grids of instants

A grid cuts time into intervals that follow one another: `point n` is where interval `n` begins, and
`index t` is the interval in which `t` lies.  Taking `w` intervals of a grid together from one of
them on gives a grid again.
-/

structure Grid where
  point : Int → Int
  index : Int → Int
  point_lt : ∀ n, point n < point (n + 1)
  index_eq_iff : ∀ {t n}, index t = n ↔ point n ≤ t ∧ t < point (n + 1)

namespace Grid

variable (G : Grid) {t u m n : Int}

theorem point_le_index (t : Int) : G.point (G.index t) ≤ t ∧ t < G.point (G.index t + 1) :=
  G.index_eq_iff.mp rfl

theorem point_add_lt (m : Int) (k : Nat) : G.point m < G.point (m + (k + 1)) := by
  induction k with
  | zero => exact G.point_lt m
  | succ k ih =>
      have hnext := G.point_lt (m + (k + 1))
      rw [show m + (((k + 1 : Nat) : Int) + 1) = m + (k + 1) + 1 by omega]
      omega

theorem point_lt_point : G.point m < G.point n ↔ m < n := by
  have hmono : ∀ {m n : Int}, m < n → G.point m < G.point n := by
    intro m n hlt
    obtain ⟨k, hk⟩ := Int.le.dest (Int.add_one_le_of_lt hlt)
    have hadd := G.point_add_lt m k
    rwa [show m + ((k : Int) + 1) = n by omega] at hadd
  constructor
  · intro hlt
    by_contra hle
    rcases (not_lt.mp hle).lt_or_eq with hgt | heq
    · have hgt' := hmono hgt
      omega
    · rw [heq] at hlt
      omega
  · exact hmono

theorem point_le_point : G.point m ≤ G.point n ↔ m ≤ n := by
  have hlt := G.point_lt_point (m := n) (n := m)
  omega

/-- What begins an interval lies in it. -/
@[simp] theorem index_point (n : Int) : G.index (G.point n) = n :=
  G.index_eq_iff.mpr ⟨le_rfl, G.point_lt n⟩

theorem le_index_iff : n ≤ G.index t ↔ G.point n ≤ t := by
  obtain ⟨hlow, hhigh⟩ := G.point_le_index t
  constructor
  · intro hle
    exact (G.point_le_point.mpr hle).trans hlow
  · intro hle
    have hlt : G.point n < G.point (G.index t + 1) := by omega
    exact Int.le_of_lt_add_one (G.point_lt_point.mp hlt)

theorem index_mono (hle : t ≤ u) : G.index t ≤ G.index u :=
  G.le_index_iff.mpr ((G.point_le_index t).1.trans hle)

/-- Every instant is an interval of its own. -/
def seconds : Grid where
  point n := n
  index t := t
  point_lt n := by omega
  index_eq_iff {t n} := by omega

/-- `w` intervals at a time, from interval `b` on. -/
def coarsen (b w : Int) (hw : 0 < w) : Grid where
  point n := G.point (b + n * w)
  index t := (G.index t - b) / w
  point_lt n := by
    rw [point_lt_point, Int.add_mul]
    omega
  index_eq_iff {t n} := by
    rw [← le_index_iff, ← not_le (b := t), ← le_index_iff, Int.ediv_eq_iff_of_pos hw]
    constructor
    · rintro ⟨hlow, hhigh⟩
      rw [Int.add_mul]
      constructor <;> omega
    · rintro ⟨hlow, hhigh⟩
      rw [Int.add_mul] at hhigh
      constructor <;> omega

end Grid
