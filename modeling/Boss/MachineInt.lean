import Mathlib.Algebra.Order.Ring.Int
import Mathlib.Tactic.Common

/-!
# Integers of a machine

A `long` has 64 bits.  Where a sum or a product is not in its range, the language leaves the result
open; `toLong` is what a machine keeps that drops the upper bits.  So a computation has the value
that its formula says as long as every product in it is `InLong`, and for amounts that are not
negative this is a bound on the largest product (`inLong_mul`, `mul_lt_long`).  Where nothing is to
be said about what the machine keeps, `long` is a step that has no result beyond the range.
-/

namespace MachineInt

/-- The values of a `long`. -/
def InLong (x : Int) : Prop := -2 ^ 63 ≤ x ∧ x < 2 ^ 63

instance (x : Int) : Decidable (InLong x) := inferInstanceAs (Decidable (_ ∧ _))

/-- The low bits of a value, read as a `long`. -/
def toLong (x : Int) : Int := x.bmod (2 ^ 64)

/-- A step of a computation that has no result where its value is not a `long`. -/
def long (x : Int) : Option Int := if InLong x then some x else none

variable {x u v whole : Int}

theorem toLong_of_inLong (h : InLong x) : toLong x = x := by
  obtain ⟨hlow, hhigh⟩ := h
  apply Int.bmod_eq_of_le <;> omega

@[simp] theorem toLong_zero : toLong 0 = 0 := by simp [toLong]

theorem long_of_inLong (h : InLong x) : long x = some x := if_pos h

theorem long_bind_of_not {β : Type*} (h : ¬ InLong x) (f : Int → Option β) :
    (long x).bind f = none := by
  rw [long, if_neg h, Option.bind_none]

/-- A quotient is a `long` when what is divided is, and the divisor is positive. -/
theorem InLong.tdiv (h : InLong x) (hu : 0 < u) : InLong (x.tdiv u) := by
  have habs : (x.tdiv u).natAbs ≤ x.natAbs := Int.natAbs_tdiv_le_natAbs x u
  have hsign : x ≤ 0 → x.tdiv u ≤ 0 := fun hx => by
    have hneg : 0 ≤ (-x).tdiv u := Int.tdiv_nonneg (Int.neg_nonneg_of_nonpos hx) hu.le
    rw [Int.neg_tdiv] at hneg
    omega
  unfold InLong at *
  omega

/-- A product that is not negative only has to be small enough. -/
theorem inLong_mul (hwhole : 0 ≤ whole) (hu : 0 ≤ u) : InLong (u * whole) ↔ u * whole < 2 ^ 63 := by
  have hnonneg := Int.mul_nonneg hu hwhole
  unfold InLong
  omega

/-- A product below one that is small enough is small enough. -/
theorem mul_lt_long (hwhole : 0 ≤ whole) (huv : u ≤ v) (hv : v * whole < 2 ^ 63) :
    u * whole < 2 ^ 63 :=
  (Int.mul_le_mul_of_nonneg_right huv hwhole).trans_lt hv

end MachineInt
