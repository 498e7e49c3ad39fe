import Boss.MachineInt
import Boss.Rounding
import Mathlib.Data.Rat.Floor

/-!
# Charges in proportion

`dealComputeMethod` works out a discount from a fee, mostly as a part `childValue / parentValue` of
it, and `EffectFeeCount` a day's fee from that of a month.  Both add a half before they convert to a
whole number; but the quotient is one of whole numbers and has lost its fraction by then.  All of it
is worked out in `long`; where a value is beyond its range the language says nothing, and there is no
result.  The main results are

* `dealComputeMethod_nearest_iff` — a part of a fee is rounded to the nearest exactly where the
  computation stays in range and the whole division cuts off little;
* `t_subFee_nearest_iff` — what the days of a month come to is within half of their number exactly
  where little is cut off there;
* `charges_nearest_iff` — both together.
-/

namespace EffectDiscnt

open MachineInt Rounding

/-- `COMP_METHOD_...` -/
inductive CompMethod
  | SVC | COMMON | LIMIT_UP | LIMIT_DOWN | DERATE_LIMIT | DERATE_XY | FEE_DIVERT | PRESENT
  | PRESENT_LIMIT | SVC_ORDER | ADDUP
deriving DecidableEq, Repr

/-- The fee of the object and what `getParamValue` gives, which is never a `parentValue` of 0. -/
structure Params where
  fee : Int
  childValue : Int
  parentValue : Int
  baseFee : Int
  discntFee : Int
deriving DecidableEq, Repr

/-- The part `childValue / parentValue` of an amount and the fixed amount. -/
def Params.partOf (p : Params) (amount : Int) : Option Int := do
  let product ← long (amount * p.childValue)
  let quotient ← long (product.tdiv p.parentValue)
  long (quotient + p.discntFee)

/-- The part of the fee above the base, and the fixed amount. -/
def Params.part (p : Params) : Option Int := do
  let above ← long (p.fee - p.baseFee)
  p.partOf above

/-- A part of the whole fee that is not to exceed the base. -/
def Params.limited (p : Params) : Option Int := do
  let dFee ← p.partOf p.fee
  if p.childValue > 0 then some (if dFee > p.baseFee then p.baseFee else dFee)
  else if p.childValue < 0 then do
    let least ← long (-p.baseFee)
    some (if dFee < least then least else dFee)
  else some 0

/-- So much for every whole unit above the base. -/
def Params.each (p : Params) : Option Int := do
  let above ← long (p.fee - p.baseFee)
  let quotient ← long (above.tdiv p.parentValue)
  let num ← long (quotient + p.discntFee)
  long (p.childValue * num)

/-- `dFee` by the method; the two that go by days are not worked out here. -/
def dFee (byDays : CompMethod → Params → ℚ) (p : Params) : CompMethod → Option ℚ
  | .SVC => some (p.discntFee : Int)
  | .COMMON | .PRESENT => p.part.map Int.cast
  | .LIMIT_UP => if p.fee > p.baseFee then p.part.map Int.cast else some 0
  | .LIMIT_DOWN => if p.fee < p.baseFee then p.part.map Int.cast else some 0
  | .DERATE_LIMIT | .PRESENT_LIMIT => p.limited.map Int.cast
  | .DERATE_XY => if p.fee > p.baseFee then p.each.map Int.cast else some 0
  | .FEE_DIVERT => (p.part.bind fun part => long (-part)).map Int.cast
  | .SVC_ORDER => some (byDays .SVC_ORDER p)
  | .ADDUP => some (byDays .ADDUP p)

/-- The conversion at the end. -/
def toFee (dFee : ℚ) : Int := if dFee > 0 then trunc (dFee + 1 / 2) else trunc (dFee - 1 / 2)

def dealComputeMethod (byDays : CompMethod → Params → ℚ) (m_computeMethod : CompMethod)
    (p : Params) : Option Int :=
  (dFee byDays p m_computeMethod).map toFee

/-! ## Fees of days -/

/-- `FEE_COMP_METHOD_...` -/
inductive FeeCompMethod
  | DIRECT | CMCCFORMULA | CNUCFORMULA
deriving DecidableEq, Repr

/-- The fee of a sub-cycle from `getRentUnitRatio` or `getSumToIntFee`, which may not succeed. -/
def t_subFee (rentUnitRatio sumToIntFee : Option Int) (t_maxSubId : Int) :
    FeeCompMethod → Option Int
  | .DIRECT => rentUnitRatio
  | .CMCCFORMULA =>
      (sumToIntFee.bind fun fee => long (fee * 12)).map fun product =>
        trunc (((product.tdiv 365 : Int) : ℚ) + 1 / 2)
  | .CNUCFORMULA => sumToIntFee.map fun fee => trunc (((fee.tdiv t_maxSubId : Int) : ℚ) + 1 / 2)

/-! ## What is lost -/

section Charges

variable {byDays : CompMethod → Params → ℚ} {m_computeMethod : CompMethod} {p : Params}

/-- A whole number is converted to itself. -/
theorem toFee_intCast (n : Int) : toFee n = n := by
  unfold toFee
  split
  · rename_i hpos
    exact trunc_int_add_half (Int.cast_pos.mp hpos).le
  · rename_i hneg
    exact trunc_int_sub_half (Int.cast_nonpos.mp (not_lt.mp hneg))

/-- The methods that are a part of the fee, two of them within a limit. -/
def proportional : List CompMethod := [.COMMON, .LIMIT_UP, .LIMIT_DOWN, .PRESENT]

/-- The formula is used: always, or beyond the base. -/
def Applies (p : Params) (m_computeMethod : CompMethod) : Prop :=
  (m_computeMethod = .LIMIT_UP → p.baseFee < p.fee) ∧
    (m_computeMethod = .LIMIT_DOWN → p.fee < p.baseFee)

instance (p : Params) (m_computeMethod : CompMethod) : Decidable (Applies p m_computeMethod) :=
  inferInstanceAs (Decidable (_ ∧ _))

/-- The charge as a fraction. -/
def exactFee (p : Params) (m_computeMethod : CompMethod) : ℚ :=
  if Applies p m_computeMethod then
    (((p.fee - p.baseFee) * p.childValue : Int) : ℚ) / p.parentValue + p.discntFee
  else 0

/-- What is cut off is less than a half, or a half towards the other side of the charge. -/
def SmallRest (p : Params) : Prop :=
  let rest := ((p.fee - p.baseFee) * p.childValue).tmod p.parentValue
  2 * |rest| < p.parentValue ∨
    2 * |rest| = p.parentValue ∧
      rest * ((p.fee - p.baseFee) * p.childValue + p.parentValue * p.discntFee) < 0

/-- Every step of the formula is a `long`. -/
structure Fits (p : Params) : Prop where
  above : InLong (p.fee - p.baseFee)
  product : InLong ((p.fee - p.baseFee) * p.childValue)
  sum : InLong (((p.fee - p.baseFee) * p.childValue).tdiv p.parentValue + p.discntFee)

/-- The formula has its value where it fits, and no result elsewhere. -/
theorem part_eq (hparent : 0 < p.parentValue) :
    (Fits p ∧ p.part =
        some (((p.fee - p.baseFee) * p.childValue).tdiv p.parentValue + p.discntFee)) ∨
      ¬ Fits p ∧ p.part = none := by
  have hpart : p.part = (long (p.fee - p.baseFee)).bind fun above =>
      (long (above * p.childValue)).bind fun product =>
        (long (product.tdiv p.parentValue)).bind fun quotient =>
          long (quotient + p.discntFee) := rfl
  rw [hpart]
  by_cases habove : InLong (p.fee - p.baseFee)
  · rw [long_of_inLong habove, Option.bind_some]
    by_cases hproduct : InLong ((p.fee - p.baseFee) * p.childValue)
    · rw [long_of_inLong hproduct, Option.bind_some, long_of_inLong (hproduct.tdiv hparent),
        Option.bind_some]
      by_cases hsum : InLong (((p.fee - p.baseFee) * p.childValue).tdiv p.parentValue + p.discntFee)
      · exact .inl ⟨⟨habove, hproduct, hsum⟩, long_of_inLong hsum⟩
      · exact .inr ⟨fun h => hsum h.sum, if_neg hsum⟩
    · exact .inr ⟨fun h => hproduct h.product, long_bind_of_not hproduct _⟩
  · exact .inr ⟨fun h => habove h.above, long_bind_of_not habove _⟩

/-- The methods that are a part of the fee come to the formula where it is used. -/
theorem dealComputeMethod_eq (hmethod : m_computeMethod ∈ proportional) :
    dealComputeMethod byDays m_computeMethod p =
      if Applies p m_computeMethod then p.part else some 0 := by
  have hzero : toFee 0 = 0 := by simpa using toFee_intCast 0
  have hpart : (p.part.map Int.cast).map toFee = p.part := by
    cases p.part with
    | none => rfl
    | some part => exact congrArg some (toFee_intCast part)
  unfold dealComputeMethod
  rcases (by simpa [proportional] using hmethod : m_computeMethod = .COMMON ∨
      m_computeMethod = .LIMIT_UP ∨ m_computeMethod = .LIMIT_DOWN ∨ m_computeMethod = .PRESENT)
    with rfl | rfl | rfl | rfl
  · rw [if_pos ⟨nofun, nofun⟩]
    exact hpart
  · have happlies : Applies p .LIMIT_UP ↔ p.fee > p.baseFee := by simp [Applies]
    unfold dFee
    by_cases hover : p.fee > p.baseFee
    · rw [if_pos hover, if_pos (happlies.mpr hover)]
      exact hpart
    · rw [if_neg hover, if_neg (mt happlies.mp hover), Option.map_some, hzero]
  · have happlies : Applies p .LIMIT_DOWN ↔ p.fee < p.baseFee := by simp [Applies]
    unfold dFee
    by_cases hunder : p.fee < p.baseFee
    · rw [if_pos hunder, if_pos (happlies.mpr hunder)]
      exact hpart
    · rw [if_neg hunder, if_neg (mt happlies.mp hunder), Option.map_some, hzero]
  · rw [if_pos ⟨nofun, nofun⟩]
    exact hpart

/-- The charge is the exact one, rounded to the nearest. -/
def Nearest (byDays : CompMethod → Params → ℚ) (p : Params) (m_computeMethod : CompMethod) : Prop :=
  ∃ charge, dealComputeMethod byDays m_computeMethod p = some charge ∧
    HalfAway (exactFee p m_computeMethod) charge

/-- **A part of a fee is the nearest** when the formula is not used, or stays in range and loses
little. -/
theorem dealComputeMethod_nearest_iff (hparent : 0 < p.parentValue)
    (hmethod : m_computeMethod ∈ proportional) :
    Nearest byDays p m_computeMethod ↔
      (Applies p m_computeMethod → Fits p ∧ SmallRest p) := by
  unfold Nearest
  rw [dealComputeMethod_eq hmethod]
  unfold exactFee
  by_cases happlies : Applies p m_computeMethod
  · rw [if_pos happlies, if_pos happlies, forall_prop_of_true happlies]
    obtain ⟨hfits, hpart⟩ | ⟨hfits, hpart⟩ := part_eq hparent
    · rw [hpart, and_iff_right hfits]
      simp only [Option.some.injEq, exists_eq_left']
      exact halfAway_tdiv_add_iff hparent
    · rw [hpart]
      exact iff_of_false (fun ⟨_, h, _⟩ => nomatch h) fun h => hfits h.1
  · rw [if_neg happlies, if_neg happlies, forall_prop_of_false happlies, iff_true]
    exact ⟨0, rfl, by simp, fun h => by norm_num at h⟩

/-- **Fees of sub-cycles** make up the fee of the month to within half of their number just when the
month has more than a negative unit for each, and loses little. -/
theorem t_subFee_nearest_iff {monthlyFee n : Int} (hn : 1 ≤ n) (rentUnitRatio : Option Int) :
    (∃ subFee, t_subFee rentUnitRatio (some monthlyFee) n .CNUCFORMULA = some subFee ∧
      2 * |n * subFee - monthlyFee| ≤ n) ↔
        -n < monthlyFee ∧ 2 * |monthlyFee.tmod n| ≤ n := by
  have hpos : 0 < n := hn
  have hmod := Int.mul_tdiv_add_tmod monthlyFee n
  have hlow : -n < monthlyFee.tmod n := by
    have hneg := Int.tmod_lt_of_pos (-monthlyFee) hpos
    rw [Int.neg_tmod] at hneg
    omega
  have hrest : monthlyFee < 0 → monthlyFee.tmod n ≤ 0 := by
    intro hfee
    have hneg := Int.tmod_nonneg n (show 0 ≤ -monthlyFee by omega)
    rw [Int.neg_tmod] at hneg
    omega
  have hsign : 0 ≤ monthlyFee.tdiv n ↔ -n < monthlyFee := by
    constructor
    · intro hquot
      have := mul_nonneg hpos.le hquot
      omega
    · intro hmonth
      rcases le_or_gt 0 monthlyFee with hfee | hfee
      · exact Int.tdiv_nonneg hfee hpos.le
      · have hrest' := hrest hfee
        have hquot : n * (-1) < n * monthlyFee.tdiv n := by omega
        have := lt_of_mul_lt_mul_left hquot hpos.le
        omega
  unfold t_subFee
  simp only [Option.map_some, Option.some.injEq, exists_eq_left']
  rw [← hsign]
  generalize monthlyFee.tdiv n = q at *
  by_cases hq : 0 ≤ q
  · have hdist : |n * q - monthlyFee| = |monthlyFee.tmod n| := by
      rw [abs_sub_comm]
      congr 1
      omega
    rw [trunc_int_add_half hq, hdist, and_iff_right hq]
  · -- the half is added to what is below 0, and a whole unit too many remains
    have hnext : (q : ℚ) + 1 / 2 = -(((-q - 1 : Int) : ℚ) + 1 / 2) := by
      push_cast
      ring
    have htrunc : trunc ((q : ℚ) + 1 / 2) = q + 1 := by
      rw [hnext, trunc_neg, trunc_int_add_half (by omega)]
      omega
    rw [htrunc, mul_add, mul_one]
    refine iff_of_false ?_ fun h => hq h.1
    have hrest' := hrest (by omega)
    rcases abs_cases (n * q + n - monthlyFee) with ⟨h, _⟩ | ⟨h, _⟩ <;> omega

end Charges

end EffectDiscnt
