import Mathlib.Data.List.Pairwise
import Mathlib.Data.List.Nodup
import Mathlib.Logic.Function.Basic
import Mathlib.Tactic.Common

/-!
# Segments that tile a range

A range of a memory is divided into segments: each one has an offset and a size, and the
next one begins where it ends.  `Tiles size a l b` says that the segments at the offsets
of `l`, in this order, cover the range from `a` to `b` without overlap or gap.  A segment
is divided by giving its upper part an offset of its own (`tiles_split`), and two
neighbours become one when the lower one takes the size of both (`tiles_merge`).
-/

namespace Tiling

variable {size size' : Nat → Nat} {a b x y : Nat} {l pre post : List Nat}

/-- The segments at the offsets of `l` cover the range from `a` to `b`. -/
def Tiles (size : Nat → Nat) : Nat → List Nat → Nat → Prop
  | a, [], b => a = b
  | a, x :: l, b => x = a ∧ 0 < size x ∧ Tiles size (x + size x) l b

theorem tiles_append : Tiles size a (pre ++ post) b ↔
    ∃ m, Tiles size a pre m ∧ Tiles size m post b := by
  induction pre generalizing a with
  | nil => simp [Tiles]
  | cons x pre ih =>
      simp only [List.cons_append, Tiles, ih]
      constructor
      · rintro ⟨hx, hsize, m, hpre, hpost⟩
        exact ⟨m, ⟨hx, hsize, hpre⟩, hpost⟩
      · rintro ⟨m, ⟨hx, hsize, hpre⟩, hpost⟩
        exact ⟨hx, hsize, m, hpre, hpost⟩

/-- Only the sizes of the listed segments matter. -/
theorem tiles_congr (h : Tiles size a l b) (hsame : ∀ x ∈ l, size' x = size x) :
    Tiles size' a l b := by
  induction l generalizing a with
  | nil => exact h
  | cons x l ih =>
      obtain ⟨hx, hsize, hrest⟩ := h
      have hhere := hsame x List.mem_cons_self
      refine ⟨hx, by rwa [hhere], ?_⟩
      rw [hhere]
      exact ih hrest fun y hy => hsame y (List.mem_cons_of_mem x hy)

/-- A segment lies in the range. -/
theorem tiles_bounds (h : Tiles size a l b) (hx : x ∈ l) :
    a ≤ x ∧ 0 < size x ∧ x + size x ≤ b := by
  have hle : ∀ {l : List Nat} {a b : Nat}, Tiles size a l b → a ≤ b := by
    intro l
    induction l with
    | nil =>
        intro a b h
        exact Nat.le_of_eq h
    | cons y l ih =>
        intro a b h
        have := ih h.2.2
        have := h.1
        omega
  induction l generalizing a with
  | nil => cases hx
  | cons y l ih =>
      obtain ⟨rfl, hsize, hrest⟩ := h
      have hend := hle hrest
      rcases List.mem_cons.mp hx with rfl | hx
      · exact ⟨Nat.le_refl _, hsize, hend⟩
      · obtain ⟨hlow, hpos, hhigh⟩ := ih hrest hx
        exact ⟨by omega, hpos, hhigh⟩

/-- **No overlap.**  Each segment ends before the later ones begin. -/
theorem tiles_pairwise (h : Tiles size a l b) : l.Pairwise fun x y => x + size x ≤ y := by
  induction l generalizing a with
  | nil => exact List.Pairwise.nil
  | cons x l ih =>
      obtain ⟨rfl, hsize, hrest⟩ := h
      refine List.pairwise_cons.mpr ⟨fun y hy => ?_, ih hrest⟩
      exact (tiles_bounds hrest hy).1

/-- The offsets ascend. -/
theorem tiles_sorted (h : Tiles size a l b) : l.Pairwise (· < ·) := by
  refine (tiles_pairwise h).imp_of_mem ?_
  intro x y hx _ hle
  have := (tiles_bounds h hx).2.1
  omega

theorem tiles_nodup (h : Tiles size a l b) : l.Nodup :=
  (tiles_sorted h).imp fun hlt => Nat.ne_of_lt hlt

/-- Two segments do not overlap. -/
theorem tiles_apart (h : Tiles size a l b) (hx : x ∈ l) (hy : y ∈ l) (hlt : x < y) :
    x + size x ≤ y := by
  obtain ⟨pre, post, rfl⟩ := List.append_of_mem hx
  have hpair := tiles_pairwise h
  have hsorted := tiles_sorted h
  rw [List.pairwise_append] at hpair hsorted
  rcases List.mem_append.mp hy with hy | hy
  · have := hsorted.2.2 y hy x List.mem_cons_self
    omega
  · rcases List.mem_cons.mp hy with rfl | hy
    · omega
    · exact (List.pairwise_cons.mp hpair.2.1).1 y hy

/-- **No gap.**  Every place of the range is in a segment. -/
theorem tiles_cover (h : Tiles size a l b) (hlow : a ≤ y) (hhigh : y < b) :
    ∃ x ∈ l, x ≤ y ∧ y < x + size x := by
  induction l generalizing a with
  | nil =>
      have hend : a = b := h
      omega
  | cons x l ih =>
      obtain ⟨rfl, -, hrest⟩ := h
      by_cases hin : y < x + size x
      · exact ⟨x, List.mem_cons_self, hlow, hin⟩
      · obtain ⟨z, hz, hcover⟩ := ih hrest (by omega)
        exact ⟨z, List.mem_cons_of_mem x hz, hcover⟩

/-- **The segment behind another one.**  Where a segment ends, either the range ends or
the next segment begins. -/
theorem tiles_next (h : Tiles size a (pre ++ x :: post) b) (hy : y ∈ pre ++ x :: post)
    (hadj : x + size x = y) : ∃ rest, post = y :: rest := by
  have hbound := tiles_bounds h hy
  obtain ⟨m, -, rfl, -, hpost⟩ := tiles_append.mp h
  cases post with
  | nil =>
      have hend : x + size x = b := hpost
      omega
  | cons z rest => exact ⟨rest, by rw [hpost.1, hadj]⟩

/-- **Dividing a segment.** -/
theorem tiles_split {n : Nat} (h : Tiles size a (pre ++ x :: post) b) (hn : 0 < n)
    (hlt : n < size x) (hx : size' x = size x - n) (hnew : size' (x + (size x - n)) = n)
    (hsame : ∀ y ∈ pre ++ post, size' y = size y) :
    Tiles size' a (pre ++ x :: (x + (size x - n)) :: post) b := by
  obtain ⟨m, hpre, rfl, hsize, hpost⟩ := tiles_append.mp h
  have hpre' := tiles_congr hpre fun y hy => hsame y (List.mem_append_left post hy)
  have hpost' := tiles_congr hpost fun y hy => hsame y (List.mem_append_right pre hy)
  refine tiles_append.mpr ⟨x, hpre', rfl, by omega, by rw [hx], by omega, ?_⟩
  rw [hnew]
  have hend : x + (size x - n) + n = x + size x := by omega
  rwa [hend]

/-- **Two neighbours become one.** -/
theorem tiles_merge (h : Tiles size a (pre ++ x :: y :: post) b)
    (hx : size' x = size x + size y) (hsame : ∀ z ∈ pre ++ post, size' z = size z) :
    Tiles size' a (pre ++ x :: post) b := by
  obtain ⟨m, hpre, rfl, hsize, rfl, hsizey, hpost⟩ := tiles_append.mp h
  have hpre' := tiles_congr hpre fun z hz => hsame z (List.mem_append_left post hz)
  have hpost' := tiles_congr hpost fun z hz => hsame z (List.mem_append_right pre hz)
  refine tiles_append.mpr ⟨x, hpre', rfl, by omega, ?_⟩
  rw [hx, ← Nat.add_assoc]
  exact hpost'

end Tiling
