import Boss.SortedMap
import Mathlib.Algebra.BigOperators.Group.List.Basic
import Mathlib.Algebra.GroupWithZero.Nat
import Mathlib.Data.List.Count

/-!
# Histograms

A histogram says how often each value occurs in a row of values.  It is kept as a map from
the values to positive counts, in ascending order.  Its counts add up to the number of
values, and weighted by what a value is worth, to what all values together are worth.

Main results: `total_addAll` and `Counts.add`.
-/

namespace Histogram

variable {κ : Type*} [LinearOrder κ] {m : List (κ × Nat)} {k k' : κ} {c : Nat} {vs : List κ}

/-- One more occurrence of a value. -/
def add (k : κ) : List (κ × Nat) → List (κ × Nat)
  | [] => [(k, 1)]
  | e :: rest =>
      if k < e.1 then (k, 1) :: e :: rest
      else if k = e.1 then (e.1, e.2 + 1) :: rest
      else e :: add k rest

/-- Further occurrences of a row of values. -/
def addAll (vs : List κ) (m : List (κ × Nat)) : List (κ × Nat) := vs.foldl (fun m k => add k m) m

/-- What the counted values are worth together. -/
def weigh (w : κ → Nat) (m : List (κ × Nat)) : Nat := (m.map fun e => w e.1 * e.2).sum

theorem weigh_add (w : κ → Nat) (k : κ) (m : List (κ × Nat)) :
    weigh w (add k m) = weigh w m + w k := by
  induction m with
  | nil => simp [add, weigh]
  | cons e rest ih =>
      unfold weigh at ih ⊢
      unfold add
      split
      · simp only [List.map_cons, List.sum_cons]
        omega
      · split
        · rename_i hkey
          simp only [List.map_cons, List.sum_cons, hkey, Nat.mul_add]
          omega
        · simp only [List.map_cons, List.sum_cons, ih]
          omega

/-- **The weighted sum** grows by what the new values are worth. -/
theorem weigh_addAll (w : κ → Nat) (vs : List κ) (m : List (κ × Nat)) :
    weigh w (addAll vs m) = weigh w m + (vs.map w).sum := by
  induction vs generalizing m with
  | nil => simp [addAll]
  | cons k rest ih =>
      have hstep : addAll (k :: rest) m = addAll rest (add k m) := rfl
      rw [hstep, ih, weigh_add, List.map_cons, List.sum_cons]
      omega

/-- **The sum of the counts** grows by the number of the new values. -/
theorem total_addAll (vs : List κ) (m : List (κ × Nat)) :
    ((addAll vs m).map Prod.snd).sum = (m.map Prod.snd).sum + vs.length := by
  have hone : ∀ m : List (κ × Nat), (m.map Prod.snd).sum = weigh (fun _ => 1) m := by
    intro m
    simp [weigh]
  rw [hone, hone, weigh_addAll]
  simp

/-- The map has an entry for each value that occurs, in ascending order, with its count. -/
structure Counts (vs : List κ) (m : List (κ × Nat)) : Prop where
  ascending : SortedMap.Ascending Prod.fst m
  entry : ∀ k c, (k, c) ∈ m ↔ 0 < c ∧ vs.count k = c

theorem counts_nil : Counts ([] : List κ) [] where
  ascending := SortedMap.ascending_nil
  entry k c := by
    simp only [List.not_mem_nil, List.count_nil, false_iff]
    omega

/-- Every key of the new map is the new value or a key of the old one. -/
theorem key_of_mem_add {e : κ × Nat} (he : e ∈ add k m) : e.1 = k ∨ ∃ e' ∈ m, e'.1 = e.1 := by
  induction m with
  | nil => exact Or.inl (by simpa using congrArg Prod.fst (List.mem_singleton.mp he))
  | cons e' rest ih =>
      unfold add at he
      split at he
      · rcases List.mem_cons.mp he with rfl | he
        · exact Or.inl rfl
        · exact Or.inr ⟨e, he, rfl⟩
      · split at he
        · rename_i hkey
          rcases List.mem_cons.mp he with rfl | he
          · exact Or.inl hkey.symm
          · exact Or.inr ⟨e, List.mem_cons_of_mem e' he, rfl⟩
        · rcases List.mem_cons.mp he with rfl | he
          · exact Or.inr ⟨e, List.mem_cons_self, rfl⟩
          · rcases ih he with hkey | ⟨e'', hmem, hkey⟩
            · exact Or.inl hkey
            · exact Or.inr ⟨e'', List.mem_cons_of_mem e' hmem, hkey⟩

theorem ascending_add (h : SortedMap.Ascending Prod.fst m) (k : κ) :
    SortedMap.Ascending Prod.fst (add k m) := by
  induction m with
  | nil => exact List.pairwise_singleton _ _
  | cons e rest ih =>
      obtain ⟨hfirst, hrest⟩ := List.pairwise_cons.mp h
      unfold add
      split
      · rename_i hlt
        refine List.pairwise_cons.mpr ⟨fun e' he' => ?_, h⟩
        rcases List.mem_cons.mp he' with rfl | he'
        · exact hlt
        · exact hlt.trans (hfirst e' he')
      · rename_i hnlt
        split
        · exact List.pairwise_cons.mpr ⟨hfirst, hrest⟩
        · rename_i hne
          refine List.pairwise_cons.mpr ⟨fun e' he' => ?_, ih hrest⟩
          rcases key_of_mem_add he' with hkey | ⟨e'', hmem, hkey⟩
          · rw [hkey]
            exact lt_of_le_of_ne (not_lt.mp hnlt) (Ne.symm hne)
          · rw [← hkey]
            exact hfirst e'' hmem

/-- The entries of other values stay. -/
theorem mem_add_of_ne (hne : k' ≠ k) : (k', c) ∈ add k m ↔ (k', c) ∈ m := by
  induction m with
  | nil => simp [add, hne]
  | cons e rest ih =>
      unfold add
      split
      · simp [hne]
      · split
        · rename_i hkey
          have hother : ∀ x, (k', c) ≠ (e.1, x) := by
            intro x heq
            exact hne ((congrArg Prod.fst heq).trans hkey.symm)
          rw [List.mem_cons, List.mem_cons, or_iff_right (hother _), or_iff_right (hother e.2)]
        · rw [List.mem_cons, List.mem_cons, ih]

/-- The entry of the value itself. -/
theorem mem_add_self (h : Counts vs m) : (k, c) ∈ add k m ↔ c = vs.count k + 1 := by
  obtain ⟨hascending, hentry⟩ := h
  have hnone : (∀ c, (k, c) ∉ m) → vs.count k = 0 := by
    intro hno
    by_contra hpos
    exact hno _ ((hentry k _).mpr ⟨Nat.pos_of_ne_zero hpos, rfl⟩)
  have hcount : ∀ x, (k, x) ∈ m → vs.count k = x := fun x hx => ((hentry k x).mp hx).2
  clear hentry
  induction m with
  | nil => simp [add, hnone]
  | cons e rest ih =>
      obtain ⟨hfirst, hrest⟩ := List.pairwise_cons.mp hascending
      have hbehind : ∀ x, k ≤ e.1 → (k, x) ∉ rest := fun x hle hx =>
        absurd (hfirst _ hx) (not_lt.mpr hle)
      unfold add
      split
      · rename_i hlt
        have hfresh : ∀ x, (k, x) ∉ e :: rest := by
          intro x hx
          rcases List.mem_cons.mp hx with rfl | hx
          · exact lt_irrefl k hlt
          · exact hbehind x hlt.le hx
        rw [List.mem_cons, or_iff_left (hfresh c), hnone hfresh]
        simp
      · split
        · rename_i hkey
          have hold : vs.count k = e.2 := hcount e.2 (by rw [hkey]; exact List.mem_cons_self)
          rw [List.mem_cons, or_iff_left (hbehind c hkey.le), hold, ← hkey]
          simp
        · rename_i hne
          have hother : ∀ x, (k, x) ≠ e := fun x heq => hne (congrArg Prod.fst heq)
          rw [List.mem_cons, or_iff_right (hother c)]
          refine ih hrest (fun hno => hnone fun x hx => ?_)
            fun x hx => hcount x (List.mem_cons_of_mem e hx)
          exact hno x ((List.mem_cons.mp hx).resolve_left (hother x))

/-- **One more occurrence** is counted. -/
theorem Counts.add (h : Counts vs m) (k : κ) : Counts (vs ++ [k]) (add k m) where
  ascending := ascending_add h.ascending k
  entry k' c := by
    rw [List.count_append]
    by_cases hk : k' = k
    · rw [hk, mem_add_self h, List.count_singleton_self]
      omega
    · rw [mem_add_of_ne hk, h.entry, List.count_singleton]
      simp [Ne.symm hk]

/-- A row of values is counted. -/
theorem counts_addAll (h : Counts vs m) (ws : List κ) : Counts (vs ++ ws) (addAll ws m) := by
  induction ws generalizing vs m with
  | nil => simpa [addAll] using h
  | cons k rest ih =>
      have hrest := ih (h.add k)
      rw [List.append_assoc] at hrest
      exact hrest

end Histogram
