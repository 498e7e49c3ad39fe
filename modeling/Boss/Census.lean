import Mathlib.Data.Fintype.Card
import Mathlib.Algebra.BigOperators.Group.Finset.Basic
import Mathlib.Algebra.Order.BigOperators.Group.Finset
import Mathlib.Tactic.Common

/-!
# Counting the members of a finite population by their state

A shared counter is right when it equals the number of parties that are in the
state it counts.  `census f a` is that number for a finite population `ι` whose
members are in states `f : ι → α`.  The lemmas say how it moves when one member
changes state, which is all that a step of an interleaving can do to it.  `tally`
is the same for counters that a member can move by more than one.
-/

namespace Census

variable {ι α : Type*} [Fintype ι] [DecidableEq α]

/-- The number of members in state `a`. -/
def census (f : ι → α) (a : α) : Nat :=
  (Finset.univ.filter fun i => f i = a).card

/-- A member in the state makes the count positive. -/
theorem census_pos {f : ι → α} {i : ι} {a : α} (heq : f i = a) : 0 < census f a :=
  Finset.card_pos.mpr ⟨i, by simpa using heq⟩

/-- Two different members in the state make the count at least two. -/
theorem census_two {f : ι → α} {i j : ι} {a : α}
    (hi : f i = a) (hj : f j = a) (hne : i ≠ j) : 2 ≤ census f a := by
  have hone : 1 < (Finset.univ.filter fun k => f k = a).card :=
    Finset.one_lt_card.mpr ⟨i, by simpa using hi, j, by simpa using hj, hne⟩
  exact hone

/-- A population that is wholly in another state has count zero. -/
theorem census_const {a b : α} (hne : b ≠ a) : census (fun _ : ι => b) a = 0 := by
  simp [census, hne]

variable [DecidableEq ι]

/-- A member entering a state adds one to its count. -/
theorem census_enter {f : ι → α} {i : ι} {a : α} (hne : f i ≠ a) :
    census (Function.update f i a) a = census f a + 1 := by
  have hset : (Finset.univ.filter fun j => Function.update f i a j = a) =
      insert i (Finset.univ.filter fun j => f j = a) := by
    ext j
    by_cases hj : j = i
    · simp [hj]
    · simp [hj]
  unfold census
  rw [hset, Finset.card_insert_of_notMem (by simpa using hne)]

/-- A member leaving a state takes one off its count. -/
theorem census_leave {f : ι → α} {i : ι} {a b : α} (heq : f i = a) (hne : b ≠ a) :
    census (Function.update f i b) a + 1 = census f a := by
  have hback : Function.update (Function.update f i b) i a = f := by
    simp [← heq]
  have henter := census_enter (f := Function.update f i b) (i := i) (a := a) (by simpa using hne)
  rw [hback] at henter
  exact henter.symm

/-- Moves between two other states do not touch the count. -/
theorem census_other {f : ι → α} {i : ι} {a b : α} (hold : f i ≠ a) (hnew : b ≠ a) :
    census (Function.update f i b) a = census f a := by
  unfold census
  congr 1
  ext j
  by_cases hj : j = i
  · simp [hj, hold, hnew]
  · simp [Function.update_of_ne hj]

/-- How a count moves when one member changes state, as an integer. -/
theorem census_update (f : ι → α) (i : ι) (b c : α) :
    (census (Function.update f i b) c : Int) =
      census f c - (if f i = c then 1 else 0) + (if b = c then 1 else 0) := by
  by_cases hold : f i = c
  · by_cases hnew : b = c
    · have hsame : Function.update f i b = f := by simp [hnew, ← hold]
      rw [hsame, if_pos hold, if_pos hnew]
      omega
    · have hleave := census_leave hold hnew
      simp only [hold, hnew, if_true, if_false]
      omega
  · by_cases hnew : b = c
    · subst hnew
      have henter := census_enter hold
      simp only [hold, if_true, if_false]
      omega
    · simp [census_other hold hnew, hold, hnew]

/-- What the members hold together, when one in state `a` holds `w a`. -/
def tally (w : α → Nat) (f : ι → α) : Nat := ∑ i, w (f i)

omit [DecidableEq α] [DecidableEq ι] in
/-- A population of members that hold nothing. -/
theorem tally_const {w : α → Nat} {a : α} (hw : w a = 0) : tally w (fun _ : ι => a) = 0 := by
  simp [tally, hw]

omit [DecidableEq α] in
/-- How a tally moves when one member changes state. -/
theorem tally_update (w : α → Nat) (f : ι → α) (i : ι) (b : α) :
    tally w (Function.update f i b) + w (f i) = tally w f + w b := by
  unfold tally
  have hrest : ∀ g : ι → α, ∑ j, w (g j) = (∑ j ∈ Finset.univ.erase i, w (g j)) + w (g i) :=
    fun g => (Finset.sum_erase_add Finset.univ _ (Finset.mem_univ i)).symm
  have hsame : ∑ j ∈ Finset.univ.erase i, w (Function.update f i b j) =
      ∑ j ∈ Finset.univ.erase i, w (f j) := by
    refine Finset.sum_congr rfl ?_
    intro j hj
    rw [Function.update_of_ne (Finset.ne_of_mem_erase hj)]
  rw [hrest, hrest f, hsame, Function.update_self]
  omega

omit [DecidableEq α] [DecidableEq ι] in
/-- A member holds no more than all together. -/
theorem tally_one (w : α → Nat) (f : ι → α) (i : ι) : w (f i) ≤ tally w f :=
  Finset.single_le_sum (f := fun j => w (f j)) (fun _ _ => Nat.zero_le _) (Finset.mem_univ i)

omit [DecidableEq α] in
/-- Two members hold no more than all together. -/
theorem tally_two (w : α → Nat) (f : ι → α) {i j : ι} (hne : i ≠ j) :
    w (f i) + w (f j) ≤ tally w f := by
  have hsub := Finset.sum_le_sum_of_subset (f := fun k => w (f k)) (Finset.subset_univ {i, j})
  rwa [Finset.sum_pair hne] at hsub

end Census
