import Mathlib.Data.List.Basic
import Mathlib.Logic.Function.Basic
import Mathlib.Tactic.Common

/-!
# The first entries of an array

An array in memory is a function from indices to values, of which the first `n` entries
count; `slice f n` is the list of them.  A value enters the slice when the entries from its
place on are moved up by one, and it leaves when they are moved down: `slice_insert` and
`slice_erase` say what the two loops do to the list.  `bisect` is binary search with both
bounds outside of the searched range, from -1 on.
-/

namespace SortedSlice

variable {α : Type*} {f : Nat → α} {n t : Nat} {x : α}

/-- The first `n` entries. -/
def slice (f : Nat → α) (n : Nat) : List α := (List.range n).map f

@[simp] theorem slice_length : (slice f n).length = n := by simp [slice]

@[simp] theorem slice_zero : slice f 0 = [] := rfl

@[simp] theorem getElem_slice {i : Nat} (h : i < (slice f n).length) : (slice f n)[i] = f i := by
  simp [slice]

theorem mem_slice : x ∈ slice f n ↔ ∃ i < n, f i = x := by
  simp [slice]

/-- Move the entries `t, …, n - 1` up by one, the last one first. -/
def shiftUp (t : Nat) : Nat → (Nat → α) → Nat → α
  | 0, f => f
  | n + 1, f => if t < n + 1 then shiftUp t n (Function.update f (n + 1) (f n)) else f

/-- Move the entries behind `t` down by one, `m` of them, the first one first. -/
def shiftDown : Nat → Nat → (Nat → α) → Nat → α
  | 0, _, f => f
  | m + 1, t, f => shiftDown m (t + 1) (Function.update f t (f (t + 1)))

theorem shiftUp_apply (t n : Nat) (f : Nat → α) (j : Nat) :
    shiftUp t n f j = if t < j ∧ j ≤ n then f (j - 1) else f j := by
  induction n generalizing f with
  | zero =>
      have hnot : ¬ (t < j ∧ j ≤ 0) := by omega
      rw [if_neg hnot]
      rfl
  | succ n ih =>
      rw [shiftUp]
      by_cases ht : t < n + 1
      · rw [if_pos ht, ih]
        by_cases hj : j = n + 1
        · subst hj
          simp [ht]
        · have hpred : j - 1 ≠ n + 1 ∨ ¬ (t < j ∧ j ≤ n) := by omega
          have hiff : (t < j ∧ j ≤ n + 1) ↔ (t < j ∧ j ≤ n) := by omega
          by_cases hin : t < j ∧ j ≤ n
          · rw [if_pos hin, if_pos (hiff.mpr hin), Function.update_of_ne (by omega)]
          · rw [if_neg hin, if_neg (fun h => hin (hiff.mp h)), Function.update_of_ne hj]
      · have hnot : ¬ (t < j ∧ j ≤ n + 1) := by omega
        rw [if_neg ht, if_neg hnot]

theorem shiftDown_apply (m t : Nat) (f : Nat → α) (j : Nat) :
    shiftDown m t f j = if t ≤ j ∧ j < t + m then f (j + 1) else f j := by
  induction m generalizing t f with
  | zero =>
      have hnot : ¬ (t ≤ j ∧ j < t + 0) := by omega
      rw [if_neg hnot]
      rfl
  | succ m ih =>
      rw [shiftDown, ih]
      by_cases hj : j = t
      · subst hj
        have hnot : ¬ (j + 1 ≤ j ∧ j < j + 1 + m) := by omega
        rw [if_neg hnot, if_pos (by omega), Function.update_self]
      · by_cases hin : t + 1 ≤ j ∧ j < t + 1 + m
        · rw [if_pos hin, if_pos (by omega), Function.update_of_ne (by omega)]
        · rw [if_neg hin, if_neg (by omega), Function.update_of_ne hj]

/-- **A value enters the slice.** -/
theorem slice_insert (ht : t ≤ n) : slice (Function.update (shiftUp t n f) t x) (n + 1) =
    (slice f n).take t ++ x :: (slice f n).drop t := by
  apply List.ext_getElem
  · simp
    omega
  · intro i h₁ h₂
    rw [getElem_slice]
    rw [slice_length] at h₁
    by_cases hi : i < t
    · rw [List.getElem_append_left (by simp; omega), Function.update_of_ne (by omega),
        shiftUp_apply, if_neg (by omega)]
      simp
    · rw [List.getElem_append_right (by simp; omega)]
      by_cases heq : i = t
      · subst heq
        have hzero : i - ((slice f n).take i).length = 0 := by simp; omega
        simp only [hzero, List.getElem_cons_zero, Function.update_self]
      · obtain ⟨k, rfl⟩ : ∃ k, i = t + 1 + k := ⟨i - t - 1, by omega⟩
        have hplace : t + 1 + k - ((slice f n).take t).length = k + 1 := by simp; omega
        rw [Function.update_of_ne (by omega), shiftUp_apply, if_pos (by omega)]
        simp only [hplace, List.getElem_cons_succ, List.getElem_drop, getElem_slice]
        congr 1
        omega

/-- **A value leaves the slice**, when at least the entries behind it are moved down. -/
theorem slice_shiftDown {m : Nat} (ht : t < n) (hm : n ≤ t + m + 1) :
    slice (shiftDown m t f) (n - 1) = (slice f n).eraseIdx t := by
  apply List.ext_getElem
  · simp [List.length_eraseIdx, ht]
  · intro i h₁ h₂
    rw [slice_length] at h₁
    rw [getElem_slice, shiftDown_apply, List.getElem_eraseIdx]
    by_cases hi : i < t
    · rw [if_neg (by omega), dif_pos hi, getElem_slice]
    · rw [if_pos (by omega), dif_neg hi, getElem_slice]

theorem slice_erase (ht : t < n) :
    slice (shiftDown (n - t) t f) (n - 1) = (slice f n).eraseIdx t :=
  slice_shiftDown ht (by omega)

/-- Binary search: `low` is below and `high` above or at the result.  Every round halves
the range, so the number of entries is fuel enough. -/
def bisect (less : Nat → Bool) : Nat → Int → Int → Int
  | 0, _, high => high
  | fuel + 1, low, high =>
    if low < high - 1 then
      let mid := (low + high).tdiv 2
      if less mid.toNat then bisect less fuel mid high else bisect less fuel low mid
    else high

/-- **Binary search finds the first entry that is not less.** -/
theorem bisect_spec (less : Nat → Bool) (n : Nat)
    (hmono : ∀ i j, i ≤ j → j < n → less j → less i) (fuel : Nat) (low high : Int)
    (hlow : -1 ≤ low) (hlt : low < high) (hhigh : high ≤ n)
    (hfuel : high - low ≤ fuel) (hbelow : ∀ i : Nat, (i : Int) ≤ low → less i)
    (habove : ∀ i : Nat, high ≤ i → i < n → less i = false) :
    ∃ t : Nat, bisect less fuel low high = t ∧ t ≤ n ∧ (∀ i < t, less i) ∧
      ∀ i, t ≤ i → i < n → less i = false := by
  induction fuel generalizing low high with
  | zero => omega
  | succ fuel ih =>
      rw [bisect]
      by_cases hgo : low < high - 1
      · rw [if_pos hgo]
        have hmid : low < (low + high).tdiv 2 ∧ (low + high).tdiv 2 < high := by
          have hnonneg : 0 ≤ low + high := by omega
          rw [Int.tdiv_eq_ediv_of_nonneg hnonneg]
          omega
        generalize (low + high).tdiv 2 = mid at hmid
        obtain ⟨m, rfl⟩ : ∃ m : Nat, mid = m := ⟨mid.toNat, by omega⟩
        simp only [Int.toNat_natCast]
        by_cases hless : less m = true
        · rw [if_pos hless]
          refine ih m high (by omega) hmid.2 hhigh (by omega) ?_ habove
          intro i hi
          exact hmono i m (by omega) (by omega) hless
        · rw [if_neg hless]
          refine ih low m hlow hmid.1 (by omega) (by omega) hbelow ?_
          intro i hi hin
          by_contra hne
          exact hless (hmono m i (by omega) hin (by simpa using hne))
      · rw [if_neg hgo]
        obtain ⟨t, rfl⟩ : ∃ t : Nat, high = t := ⟨high.toNat, by omega⟩
        refine ⟨t, rfl, by omega, ?_, ?_⟩
        · intro i hi
          exact hbelow i (by omega)
        · intro i hi hin
          exact habove i (by omega) hin

end SortedSlice
