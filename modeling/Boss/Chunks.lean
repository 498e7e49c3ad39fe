import Mathlib.Data.List.Basic
import Mathlib.Tactic.Common

/-!
# Ranges cut from chunks

A store hands out ranges of cells from a chunk, one behind the other, until the next one does not fit
into the rest of the chunk; then it goes on in a new one.  The position behind the last range is kept
in a 16-bit number with a sign.

As long as the position is not negative when a range is taken, all ranges that were handed out lie in
their chunks and apart from each other (`take_sound`), so what is written into one is found there
whatever is written into others (`row_write_self`, `row_write_apart`).
-/

namespace Chunks

/-- A 16-bit number with a sign. -/
def short (x : Int) : Int := x.bmod 65536

/-- A cell of a chunk. -/
structure Place where
  block : Nat
  offset : Int
deriving DecidableEq, Repr

/-- The chunks that there are, the position in the last one, and all cells. -/
structure Store (β : Type*) where
  count : Nat
  position : Int
  cell : Nat → Int → β

structure Range where
  start : Place
  size : Nat
deriving DecidableEq, Repr

variable {β : Type*}

/-- Take a range of a chunk that has `unit` cells. -/
def take (unit : Int) (size : Nat) (s : Store β) : Place × Store β :=
  let t := if s.count = 0 ∨ (size : Int) > unit - s.position then
      { s with count := s.count + 1, position := 0 }
    else s
  (⟨t.count - 1, t.position⟩, { t with position := short (t.position + size) })

/-- Write a row of cells. -/
def write [Inhabited β] (s : Store β) (p : Place) (row : List β) : Store β :=
  { s with
    cell := fun b x =>
      if b = p.block ∧ p.offset ≤ x ∧ x < p.offset + row.length then
        row.getD (x - p.offset).toNat default
      else s.cell b x }

/-- The row of `n` cells from a place on. -/
def row (s : Store β) (p : Place) (n : Nat) : List β :=
  (List.range n).map fun k : Nat => s.cell p.block (p.offset + k)

/-- Two ranges have no cell in common. -/
def Range.Apart (r r' : Range) : Prop :=
  r.start.block = r'.start.block → r.start.offset + r.size ≤ r'.start.offset ∨
    r'.start.offset + r'.size ≤ r.start.offset

/-- A range lies in a chunk that there is. -/
def Range.Inside (unit : Int) (count : Nat) (r : Range) : Prop :=
  r.start.block < count ∧ 0 ≤ r.start.offset ∧ r.start.offset + r.size ≤ unit

/-- The ranges that were handed out, and the position behind them while it is not negative. -/
structure Sound (unit : Int) (s : Store β) (ranges : List Range) : Prop where
  inside : ∀ r ∈ ranges, r.Inside unit s.count
  apart : ranges.Pairwise Range.Apart
  behind : 0 ≤ s.position → ∀ r ∈ ranges, r.start.block + 1 = s.count →
    r.start.offset + r.size ≤ s.position
  position_le : s.position ≤ 32767

theorem Range.Apart.symm {r r' : Range} (h : r.Apart r') : r'.Apart r :=
  fun hblock => (h hblock.symm).symm

theorem short_le (x : Int) : short x ≤ 32767 := by
  unfold short Int.bmod
  dsimp only
  split_ifs <;> omega

/-- A number of at most 16 bits either stays as it is or gets negative. -/
theorem short_eq {x : Int} (hx : 0 ≤ x) (hlt : x < 65536) (h : 0 ≤ short x) : short x = x := by
  unfold short Int.bmod at *
  dsimp only at *
  split_ifs at * <;> omega

theorem short_of_le {x : Int} (hx : 0 ≤ x) (hle : x ≤ 32767) : short x = x := by
  unfold short Int.bmod
  dsimp only
  split_ifs <;> omega

section Take

variable {unit : Int} {size : Nat} {s : Store β} {ranges : List Range}

theorem sound_nil (hposition : s.position ≤ 32767) : Sound unit s [] :=
  ⟨by simp, List.Pairwise.nil, by simp, hposition⟩

theorem take_cell (unit : Int) (size : Nat) (s : Store β) : (take unit size s).2.cell = s.cell := by
  unfold take
  split_ifs <;> rfl

/-- A range that fits into a chunk is handed out in one, unless the position is negative. -/
theorem take_inside (hunit : (size : Int) ≤ unit) (hposition : s.count = 0 ∨ 0 ≤ s.position) :
    0 ≤ (take unit size s).1.offset ∧ (take unit size s).1.offset + size ≤ unit := by
  unfold take
  split_ifs with hfull
  · dsimp only
    omega
  · obtain ⟨hcount, hfits⟩ := not_or.mp hfull
    have hlow := hposition.resolve_left hcount
    dsimp only
    omega

/-- **A range is taken behind the others**, unless the position is negative. -/
theorem take_sound (h : Sound unit s ranges) (hunit : (size : Int) ≤ unit) (hsize : size ≤ 32768)
    (hposition : s.count = 0 ∨ 0 ≤ s.position) :
    Sound unit (take unit size s).2 (ranges ++ [⟨(take unit size s).1, size⟩]) := by
  have hlimit := h.position_le
  -- what is common to both cases: the new range and those from before
  have hnew (count : Nat) (position : Int) (hcount : s.count ≤ count) (hpos : 0 < count)
      (hlow : 0 ≤ position) (hhigh : position + size ≤ unit) (hle : position ≤ 32767)
      (hapart : ∀ r ∈ ranges, r.start.block = count - 1 → r.start.offset + r.size ≤ position) :
      Sound unit ⟨count, short (position + size), s.cell⟩
        (ranges ++ [⟨⟨count - 1, position⟩, size⟩]) := by
    refine ⟨fun r hr => ?_, ?_, fun hnonneg r hr hlast => ?_, short_le _⟩
    · rcases List.mem_append.mp hr with hr | hr
      · obtain ⟨hblock, hrest⟩ := h.inside r hr
        exact ⟨Nat.lt_of_lt_of_le hblock hcount, hrest⟩
      · obtain rfl := List.mem_singleton.mp hr
        exact ⟨Nat.sub_lt hpos Nat.one_pos, hlow, hhigh⟩
    · refine List.pairwise_append.mpr ⟨h.apart, List.pairwise_singleton _ _, ?_⟩
      intro r hr r' hr' hblock
      obtain rfl := List.mem_singleton.mp hr'
      exact .inl (hapart r hr hblock)
    · have hshort := short_eq (by omega) (by omega) hnonneg
      dsimp only at hlast ⊢
      rw [hshort]
      rcases List.mem_append.mp hr with hr | hr
      · have hbefore := hapart r hr (by omega)
        omega
      · obtain rfl := List.mem_singleton.mp hr
        exact Int.le_refl _
  unfold take
  by_cases hfull : s.count = 0 ∨ (size : Int) > unit - s.position
  · rw [if_pos hfull]
    refine hnew (s.count + 1) 0 (Nat.le_succ _) (Nat.succ_pos _) (Int.le_refl 0) (by omega)
      (by omega) fun r hr hblock => ?_
    have hlt := (h.inside r hr).1
    omega
  · rw [if_neg hfull]
    obtain ⟨hcount, hfits⟩ := not_or.mp hfull
    have hlow := hposition.resolve_left hcount
    exact hnew s.count s.position (Nat.le_refl _) (Nat.pos_of_ne_zero hcount) hlow (by omega) hlimit
      fun r hr hblock => h.behind hlow r hr (by omega)

/-- In chunks that are no longer than such a number counts, the position does not get negative. -/
theorem take_position (hunit : (size : Int) ≤ unit) (hshort : unit ≤ 32767)
    (hposition : s.count = 0 ∨ 0 ≤ s.position) : 0 ≤ (take unit size s).2.position := by
  unfold take
  split_ifs with hfull
  · dsimp only
    rw [short_of_le (by omega) (by omega)]
    omega
  · obtain ⟨hcount, hfits⟩ := not_or.mp hfull
    have hlow := hposition.resolve_left hcount
    dsimp only
    rw [short_of_le (by omega) (by omega)]
    omega

end Take

section Write

variable [Inhabited β] {s : Store β} {p p' : Place} {cells : List β} {n : Nat} {unit : Int}
  {ranges : List Range}

theorem Sound.write (h : Sound unit s ranges) (p : Place) (cells : List β) :
    Sound unit (write s p cells) ranges :=
  ⟨h.inside, h.apart, h.behind, h.position_le⟩

/-- **What is written is found there.** -/
theorem row_write_self : row (write s p cells) p cells.length = cells := by
  refine List.ext_getElem (by simp [row]) fun k hk hk' => ?_
  have hin : p.offset ≤ p.offset + k ∧ p.offset + (k : Int) < p.offset + cells.length := by omega
  have hk0 : (p.offset + k - p.offset).toNat = k := by omega
  have hcell : cells.getD (p.offset + k - p.offset).toNat default = cells[k] := by
    rw [hk0]
    simp [List.getD, hk']
  simp only [row, write, List.getElem_map, List.getElem_range, hin, and_self, if_true, hcell]

/-- **What is written elsewhere does not matter.** -/
theorem row_write_apart (h : Range.Apart ⟨p', n⟩ ⟨p, cells.length⟩) :
    row (write s p cells) p' n = row s p' n := by
  refine List.map_congr_left fun k hk => ?_
  have hlt := List.mem_range.mp hk
  have hout : ¬ (p'.block = p.block ∧ p.offset ≤ p'.offset + k ∧
      p'.offset + k < p.offset + cells.length) := by
    rintro ⟨hblock, hlow, hhigh⟩
    have hapart := h hblock
    dsimp only at hapart
    omega
  simp only [write]
  rw [if_neg hout]

end Write

/-- A part of a row is the row of its place. -/
theorem row_part (s : Store β) (p : Place) {k m n : Nat} (h : k + m ≤ n) :
    ((row s p n).drop k).take m = row s ⟨p.block, p.offset + k⟩ m := by
  refine List.ext_getElem (by simp [row]; omega) fun i hi hi' => ?_
  simp [row, Int.add_assoc]

/-- The first cells of a row. -/
theorem row_first (s : Store β) (p : Place) {m n : Nat} (h : m ≤ n) :
    (row s p n).take m = row s p m := by
  refine List.ext_getElem (by simp [row, h]) fun i hi hi' => ?_
  simp [row]

end Chunks
