import Mathlib.Data.List.GetD
import Mathlib.Tactic.Common
import Mathlib.Tactic.Ring

/-!
# Numbers stored in a memory of bytes

A memory is a function from addresses to bytes.  `store` writes the `n` low bytes
of a number at consecutive addresses, least significant byte first, and `load`
reads `n` bytes back.  A number that fits is read back as it was stored, and an
access only depends on the bytes in its own range.  `write` and `read` do the same with
a row of bytes.

Main results: `load_store` for numbers and `read_write` for texts.
-/

namespace ByteMemory

/-- Write the `n` low bytes of `v` from address `a` on. -/
def store (m : Nat → UInt8) (a n v : Nat) : Nat → UInt8 := fun x =>
  if a ≤ x ∧ x < a + n then UInt8.ofNat (v / 256 ^ (x - a)) else m x

/-- Read `n` bytes from address `a` on. -/
def load (m : Nat → UInt8) : Nat → Nat → Nat
  | _, 0 => 0
  | a, n + 1 => (m a).toNat + 256 * load m (a + 1) n

variable {m other : Nat → UInt8} {a b n k v x : Nat}

/-- A store leaves every byte outside of its range. -/
theorem store_outside (h : x < a ∨ a + n ≤ x) : store m a n v x = m x := by
  have hout : ¬ (a ≤ x ∧ x < a + n) := by omega
  simp [store, hout]

/-- Only the bytes in its range matter to a load. -/
theorem load_congr (h : ∀ y, a ≤ y → y < a + n → other y = m y) :
    load other a n = load m a n := by
  induction n generalizing a with
  | zero => rfl
  | succ n ih =>
      have hhead : other a = m a := h a (by omega) (by omega)
      have htail : load other (a + 1) n = load m (a + 1) n :=
        ih fun y hlow hhigh => h y (by omega) (by omega)
      simp only [load, hhead, htail]

/-- A load of a range apart from the stored one is unchanged. -/
theorem load_store_apart (h : a + n ≤ b ∨ b + k ≤ a) :
    load (store m b k v) a n = load m a n := by
  apply load_congr
  intro y hlow hhigh
  exact store_outside (by omega)

/-- The bytes of a number, read back. -/
theorem load_digits (h : ∀ i < n, m (a + i) = UInt8.ofNat (v / 256 ^ i)) :
    load m a n = v % 256 ^ n := by
  induction n generalizing a v with
  | zero => simp [load, Nat.mod_one]
  | succ n ih =>
      have hhead : m a = UInt8.ofNat v := by simpa using h 0 (by omega)
      have htail : load m (a + 1) n = (v / 256) % 256 ^ n := by
        apply ih
        intro i hi
        have hnext := h (i + 1) (by omega)
        rw [show a + 1 + i = a + (i + 1) by omega, hnext, Nat.div_div_eq_div_mul, pow_succ']
      rw [load, hhead, htail, pow_succ', Nat.mod_mul]
      simp

/-- **A number that fits is read back as it was stored.** -/
theorem load_store (h : v < 256 ^ n) : load (store m a n v) a n = v := by
  rw [load_digits (v := v), Nat.mod_eq_of_lt h]
  intro i hi
  have hin : a ≤ a + i ∧ a + i < a + n := by omega
  simp [store, hin]

/-! ## Rows of bytes -/

/-- Write a row of bytes from address `a` on. -/
def write (m : Nat → UInt8) (a : Nat) (bytes : List UInt8) : Nat → UInt8 := fun x =>
  if a ≤ x ∧ x < a + bytes.length then bytes.getD (x - a) 0 else m x

/-- Read a row of `n` bytes from address `a` on. -/
def read (m : Nat → UInt8) (a n : Nat) : List UInt8 := (List.range n).map fun i => m (a + i)

variable {bytes : List UInt8}

/-- A write leaves every byte outside of its range. -/
theorem write_outside (h : x < a ∨ a + bytes.length ≤ x) : write m a bytes x = m x := by
  have hout : ¬ (a ≤ x ∧ x < a + bytes.length) := by omega
  simp [write, hout]

theorem read_congr (h : ∀ y, a ≤ y → y < a + n → other y = m y) :
    read other a n = read m a n := by
  apply List.map_congr_left
  intro i hi
  exact h (a + i) (by omega) (by have := List.mem_range.mp hi; omega)

/-- A row that is read is known byte by byte. -/
theorem read_eq_iff : read m a n = bytes ↔
    bytes.length = n ∧ ∀ i < n, m (a + i) = bytes.getD i 0 := by
  constructor
  · rintro rfl
    refine ⟨by simp [read], fun i hi => ?_⟩
    simp [read, List.getD_eq_getElem?_getD, hi]
  · rintro ⟨hlen, hbytes⟩
    apply List.ext_getElem (by simp [read, hlen])
    intro i hi hi'
    have hbyte := hbytes i (by omega)
    rw [List.getD_eq_getElem _ _ hi'] at hbyte
    simpa [read] using hbyte

/-- **A row is read back as it was written**, with what is behind it. -/
theorem read_write (hlen : bytes.length ≤ n)
    (hbehind : ∀ x, a + bytes.length ≤ x → x < a + n → m x = 0) :
    read (write m a bytes) a n = bytes ++ List.replicate (n - bytes.length) 0 := by
  rw [read_eq_iff]
  refine ⟨by simp; omega, fun i hi => ?_⟩
  by_cases hin : i < bytes.length
  · have hrange : a ≤ a + i ∧ a + i < a + bytes.length := by omega
    rw [write, if_pos hrange, Nat.add_sub_cancel_left, List.getD_append _ _ _ _ hin]
  · rw [write_outside (by omega), hbehind _ (by omega) (by omega),
      List.getD_append_right _ _ _ _ (by omega), List.getD_replicate _ (by omega)]

end ByteMemory
