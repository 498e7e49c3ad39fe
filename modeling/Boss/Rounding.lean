import Mathlib.Algebra.Order.Round
import Mathlib.Tactic.FieldSimp
import Mathlib.Tactic.Linarith
import Mathlib.Tactic.Positivity

/-!
# Rounding to whole numbers

`trunc` drops the fraction of a number, as a conversion to a whole number does.
`HalfAway x r` says that `r` is `x` rounded to the nearest whole number and a half away from zero:
there is just one such `r`, and it is what is left when a half is added on the side of `x` and the
fraction is dropped.

Main results: `halfAway_trunc_add` and `halfAway_tdiv_add_half`.
-/

namespace Rounding

variable {K : Type*} [Field K] [LinearOrder K] [IsStrictOrderedRing K] {x : K} {r r' m n d : Int}

section Trunc

variable [FloorRing K]

/-- What is left without the fraction. -/
def trunc (x : K) : Int := if 0 ≤ x then ⌊x⌋ else ⌈x⌉

omit [IsStrictOrderedRing K] in
theorem trunc_of_nonneg (hx : 0 ≤ x) : trunc x = ⌊x⌋ := if_pos hx

theorem trunc_of_nonpos (hx : x ≤ 0) : trunc x = ⌈x⌉ := by
  rcases hx.lt_or_eq with hneg | rfl
  · exact if_neg (not_le.mpr hneg)
  · simp [trunc]

theorem trunc_neg (x : K) : trunc (-x) = -trunc x := by
  rcases le_total 0 x with hx | hx
  · rw [trunc_of_nonpos (neg_nonpos.mpr hx), trunc_of_nonneg hx, Int.ceil_neg]
  · rw [trunc_of_nonneg (neg_nonneg.mpr hx), trunc_of_nonpos hx, Int.floor_neg]

end Trunc

/-! ## To the nearest -/

/-- `r` is `x` rounded to the nearest, a half away from zero. -/
structure HalfAway (x : K) (r : Int) : Prop where
  nearest : |x - r| ≤ 1 / 2
  away : |x - r| = 1 / 2 → |x| < |(r : K)|

namespace HalfAway

omit [IsStrictOrderedRing K] in
theorem neg (h : HalfAway x r) : HalfAway (-x) (-r) := by
  have hdist : |-x - ((-r : Int) : K)| = |x - r| := by
    rw [Int.cast_neg, sub_neg_eq_add, neg_add_eq_sub, abs_sub_comm]
  refine ⟨hdist.trans_le h.nearest, fun hhalf => ?_⟩
  rw [Int.cast_neg, abs_neg, abs_neg]
  exact h.away (hdist.symm.trans hhalf)

/-- What is not below a whole number is not rounded below it. -/
theorem le_of_le (h : HalfAway x r) (hx : (m : K) ≤ x) : m ≤ r := by
  have hnear := (abs_le.mp h.nearest).2
  have hlt : (m : K) < (r + 1 : Int) := by
    rw [Int.cast_add, Int.cast_one]
    linarith
  exact Int.lt_add_one_iff.mp (Int.cast_lt.mp hlt)

theorem ge_of_ge (h : HalfAway x r) (hx : x ≤ m) : r ≤ m := by
  have hneg : ((-m : Int) : K) ≤ -x := by
    rw [Int.cast_neg]
    exact neg_le_neg hx
  exact neg_le_neg_iff.mp (h.neg.le_of_le hneg)

/-- No other whole number is above. -/
theorem not_lt (h : HalfAway x r) (h' : HalfAway x r') : ¬ r < r' := by
  intro hlt
  have hnext : (r : K) + 1 ≤ r' := by exact_mod_cast hlt
  have hlow := (abs_le.mp h.nearest).2
  have hhigh := (abs_le.mp h'.nearest).1
  -- both are a half away, one on either side
  have hx : x = r + 1 / 2 := by linarith
  have hr' : (r' : K) = r + 1 := by linarith
  have hdist : |x - r| = 1 / 2 := by
    rw [hx, add_sub_cancel_left, abs_of_pos (by norm_num)]
  have hdist' : |x - r'| = 1 / 2 := by
    rw [hx, hr', abs_sub_comm]
    norm_num
  have haway := h.away hdist
  have haway' := h'.away hdist'
  rcases le_or_gt 0 r with hr | hr
  · have hr0 : (0 : K) ≤ r := Int.cast_nonneg hr
    rw [hx, abs_of_nonneg hr0, abs_of_nonneg (by linarith)] at haway
    linarith
  · have hr0 : (r : K) + 1 ≤ 0 := by exact_mod_cast hr
    rw [hx, hr', abs_of_nonpos hr0, abs_of_nonpos (by linarith)] at haway'
    linarith

theorem unique (h : HalfAway x r) (h' : HalfAway x r') : r = r' :=
  le_antisymm (Int.not_lt.mp (h'.not_lt h)) (Int.not_lt.mp (h.not_lt h'))

end HalfAway

section Trunc

variable [FloorRing K]

/-- **A half more, without the fraction**, is the nearest. -/
theorem halfAway_trunc_add (hx : 0 ≤ x) : HalfAway x (trunc (x + 1 / 2)) := by
  rw [trunc_of_nonneg (by linarith)]
  have hlow := Int.floor_le (x + 1 / 2)
  have hhigh := Int.lt_floor_add_one (x + 1 / 2)
  refine ⟨abs_le.mpr ⟨by linarith, by linarith⟩, fun hhalf => ?_⟩
  rcases eq_or_eq_neg_of_abs_eq hhalf with hup | hdown
  · linarith
  · rw [abs_of_nonneg hx]
    refine lt_of_lt_of_le ?_ (le_abs_self _)
    linarith

theorem halfAway_trunc_sub (hx : x ≤ 0) : HalfAway x (trunc (x - 1 / 2)) := by
  have hneg := (halfAway_trunc_add (neg_nonneg.mpr hx)).neg
  rw [neg_neg, ← trunc_neg, neg_add, neg_neg, ← sub_eq_add_neg] at hneg
  exact hneg

/-- Nothing is rounded where there is no fraction. -/
theorem trunc_int_add_half (hm : 0 ≤ m) : trunc ((m : K) + 1 / 2) = m := by
  have hself : HalfAway (m : K) m := ⟨by simp, fun h => by norm_num at h⟩
  exact (halfAway_trunc_add (Int.cast_nonneg hm)).unique hself

theorem trunc_int_sub_half (hm : m ≤ 0) : trunc ((m : K) - 1 / 2) = m := by
  have hself : HalfAway (m : K) m := ⟨by simp, fun h => by norm_num at h⟩
  exact (halfAway_trunc_sub (Int.cast_nonpos.mpr hm)).unique hself

end Trunc

/-! ## Quotients -/

/-- Rounding a quotient, told by the remainder that is left. -/
theorem halfAway_div_iff (hd : 0 < d) :
    HalfAway ((n : K) / d) r ↔
      2 * |n - d * r| ≤ d ∧ (2 * |n - d * r| = d → |n| < d * |r|) := by
  have hd' : (0 : K) < d := Int.cast_pos.mpr hd
  have hdist : |(n : K) / d - r| * d = ((|n - d * r| : Int) : K) := by
    rw [Int.cast_abs, Int.cast_sub, Int.cast_mul, ← abs_of_pos hd', ← abs_mul, abs_of_pos hd', sub_mul,
      div_mul_cancel₀ _ hd'.ne', mul_comm (r : K)]
  have habs : |(n : K) / d| * d = ((|n| : Int) : K) := by
    rw [Int.cast_abs, ← abs_of_pos hd', ← abs_mul, abs_of_pos hd', div_mul_cancel₀ _ hd'.ne']
  have hnear : |(n : K) / d - r| ≤ 1 / 2 ↔ 2 * |n - d * r| ≤ d := by
    rw [← mul_le_mul_iff_left₀ hd', hdist, ← Int.cast_le (R := K), Int.cast_mul, Int.cast_ofNat]
    constructor <;> intro h <;> linarith
  have hhalf : |(n : K) / d - r| = 1 / 2 ↔ 2 * |n - d * r| = d := by
    rw [← mul_left_inj' hd'.ne', hdist, ← Int.cast_inj (α := K), Int.cast_mul, Int.cast_ofNat]
    constructor <;> intro h <;> linarith
  have haway : |(n : K) / d| < |(r : K)| ↔ |n| < d * |r| := by
    rw [← mul_lt_mul_iff_left₀ hd', habs, ← Int.cast_lt (R := K), Int.cast_mul, Int.cast_abs (a := r),
      mul_comm]
  rw [← hnear, ← hhalf, ← haway]
  exact ⟨fun h => ⟨h.nearest, h.away⟩, fun h => ⟨h.1, h.2⟩⟩

/-- When a quotient without its fraction is the nearest: less than half of the divisor is lost, or
just half of it towards the other side of what is added. -/
theorem halfAway_tdiv_add_iff (hd : 0 < d) :
    HalfAway ((n : K) / d + m) (n.tdiv d + m) ↔
      2 * |n.tmod d| < d ∨ 2 * |n.tmod d| = d ∧ n.tmod d * (n + d * m) < 0 := by
  have hsum : (n : K) / d + m = ((n + d * m : Int) : K) / d := by
    rw [Int.cast_add, Int.cast_mul, add_div, mul_div_cancel_left₀ _ (Int.cast_ne_zero.mpr hd.ne')]
  have hmod := Int.mul_tdiv_add_tmod n d
  have hrest : n + d * m - d * (n.tdiv d + m) = n.tmod d := by linarith
  have hwhole : n + d * m = d * (n.tdiv d + m) + n.tmod d := by linarith
  rw [hsum, halfAway_div_iff hd, hrest, hwhole]
  generalize n.tdiv d + m = r
  generalize n.tmod d = t
  have hpos : 0 < r → d ≤ d * r := fun hr => le_mul_of_one_le_right hd.le hr
  have hneg : r < 0 → d * r ≤ -d := fun hr => by nlinarith
  have hside : t * (d * r + t) < 0 ↔ 0 < t ∧ d * r + t < 0 ∨ t < 0 ∧ 0 < d * r + t := mul_neg_iff
  have habs : d * |r| = |d * r| := by rw [abs_mul, abs_of_pos hd]
  rw [hside, habs]
  clear hside habs hsum hmod hrest hwhole
  rcases lt_trichotomy (2 * |t|) d with hless | hhalf | hmore
  · exact iff_of_true ⟨hless.le, fun h => absurd h hless.ne⟩ (.inl hless)
  swap
  · exact iff_of_false (fun h => hmore.not_ge h.1) fun h => h.elim hmore.not_gt fun h => hmore.ne' h.1
  -- just half of the divisor is lost
  have hup := le_abs_self t
  have hdown := neg_abs_le t
  rcases lt_trichotomy r 0 with hr | rfl | hr
  · have hlow := hneg hr
    rw [abs_of_neg (show d * r < 0 by omega), abs_of_neg (show d * r + t < 0 by omega)]
    omega
  · rw [mul_zero, zero_add, abs_zero]
    omega
  · have hhigh := hpos hr
    rw [abs_of_pos (show 0 < d * r by omega), abs_of_pos (show 0 < d * r + t by omega)]
    omega

/-- Half of the divisor more, and then a quotient without its fraction. -/
theorem halfAway_tdiv_add_half (hn : 0 ≤ n) (hd : 0 < d) :
    HalfAway ((n : K) / d) ((n + d.tdiv 2).tdiv d) := by
  have hhalf : d.tdiv 2 = d / 2 := Int.tdiv_eq_ediv_of_nonneg hd.le
  rw [hhalf, Int.tdiv_eq_ediv_of_nonneg (by omega), halfAway_div_iff hd]
  have hmod := Int.mul_ediv_add_emod (n + d / 2) d
  have hlow := Int.emod_nonneg (n + d / 2) hd.ne'
  have hhigh := Int.emod_lt_of_pos (n + d / 2) hd
  have hquot : 0 ≤ (n + d / 2) / d := Int.ediv_nonneg (by omega) hd.le
  rw [abs_of_nonneg hn, abs_of_nonneg hquot]
  generalize (n + d / 2) / d = r at *
  generalize (n + d / 2) % d = t at *
  have hrest : n - d * r = t - d / 2 := by omega
  rw [hrest]
  rcases abs_cases (t - d / 2) with ⟨ht, _⟩ | ⟨ht, _⟩ <;> omega

theorem halfAway_tdiv_sub_half (hn : n ≤ 0) (hd : 0 < d) :
    HalfAway ((n : K) / d) ((n - d.tdiv 2).tdiv d) := by
  have hneg := (halfAway_tdiv_add_half (K := K) (neg_nonneg.mpr hn) hd).neg
  have hsum : -n + d.tdiv 2 = -(n - d.tdiv 2) := by omega
  rwa [hsum, Int.neg_tdiv, neg_neg, Int.cast_neg, neg_div, neg_neg] at hneg

end Rounding
