import Mathlib.Algebra.Group.Nat.Defs

/-!
# Reading behind a length

A reader takes a value off the front of a string and leaves the rest, or fails.  What a writer
puts out is read back when the reader finds the value whatever stands behind it
(`Reads`).  This goes through the composition of readers: the texts stand one after the
other, in the order in which the readers run.

Numbers are written in a fixed width, in either byte order, and a block of bytes is written
behind its length.

Main result: `Reads.many`.
-/

namespace LengthPrefix

variable {σ α β : Type}

/-- A reader of a string of `σ`s. -/
abbrev Reader (σ : Type) := StateT (List σ) Option

/-- `get` finds `a` in `text`, and nothing behind `text` matters. -/
def Reads (get : Reader σ α) (text : List σ) (a : α) : Prop :=
  ∀ rest, get (text ++ rest) = some (a, rest)

/-- The next `n` symbols. -/
def take (n : Nat) : Reader σ (List σ) := fun s =>
  if n ≤ s.length then some (s.take n, s.drop n) else none

/-- Passes over `n` symbols, which need not be there. -/
def skip (n : Nat) : Reader σ Unit := fun s => some ((), s.drop n)

/-- What `get` finds in the rest, which stays. -/
def peek (get : List σ → Option α) : Reader σ α := fun s => (get s).map fun a => (a, s)

/-- `n` times the same reader. -/
def many (get : Reader σ α) : Nat → Reader σ (List α)
  | 0 => pure []
  | n + 1 => do
    let a ← get
    let as ← many get n
    pure (a :: as)

/-! ## The rules -/

theorem Reads.run' {get : Reader σ α} {text : List σ} {a : α} (h : Reads get text a)
    (rest : List σ) : get.run' (text ++ rest) = some a := by
  show (fun p => p.1) <$> get (text ++ rest) = some a
  rw [h rest]
  rfl

theorem Reads.pure (a : α) : Reads (pure a : Reader σ α) [] a := fun _ => rfl

theorem Reads.bind {get : Reader σ α} {next : α → Reader σ β} {text text' : List σ} {a : α} {b : β}
    (hget : Reads get text a) (hnext : Reads (next a) text' b) :
    Reads (get >>= next) (text ++ text') b := by
  intro rest
  show (get (text ++ text' ++ rest)).bind (fun p => next p.1 p.2) = some (b, rest)
  rw [List.append_assoc, hget]
  exact hnext rest

/-- The last reader of a composition takes nothing. -/
theorem Reads.map {get : Reader σ α} {text : List σ} {a : α} (hget : Reads get text a)
    (f : α → β) : Reads (do let a ← get; Pure.pure (f a)) text (f a) := by
  have hbind : Reads (get >>= fun a => Pure.pure (f a)) (text ++ []) (f a) :=
    hget.bind (Reads.pure (f a))
  rwa [List.append_nil] at hbind

theorem Reads.take (text : List σ) : Reads (take text.length) text text := by
  intro rest
  simp [LengthPrefix.take]

theorem Reads.peek_skip {get : List σ → Option α} {text : List σ} {a : α}
    (hget : ∀ rest, get (text ++ rest) = some a) :
    Reads (do let a ← peek get; skip text.length; Pure.pure a) text a := by
  intro rest
  show ((peek get (text ++ rest)).bind fun p =>
    (skip text.length p.2).bind fun q => some (p.1, q.2)) = some (a, rest)
  rw [peek, hget rest]
  simp [skip]

/-- **A list of values, each of which is read back from its own text.** -/
theorem Reads.many {ι : Type} {get : Reader σ α} {text : ι → List σ} {value : ι → α} :
    ∀ {items : List ι}, (∀ i ∈ items, Reads get (text i) (value i)) →
      Reads (many get items.length) (items.flatMap text) (items.map value)
  | [], _ => Reads.pure []
  | i :: items, h => by
      have hrest : Reads (LengthPrefix.many get items.length) (items.flatMap text)
          (items.map value) := Reads.many fun j hj => h j (List.mem_cons_of_mem i hj)
      rw [List.flatMap_cons]
      exact (h i List.mem_cons_self).bind (hrest.map _)

/-! ## Numbers -/

/-- The `w` low bytes of a number, the lowest first. -/
def lowBytes : Nat → Nat → List UInt8
  | 0, _ => []
  | w + 1, n => UInt8.ofNat n :: lowBytes w (n / 256)

def ofLowBytes : List UInt8 → Nat
  | [] => 0
  | b :: bytes => b.toNat + 256 * ofLowBytes bytes

/-- The `w` low bytes of a number in the byte order of the machine. -/
def numeral (bigEndian : Bool) (w n : Nat) : List UInt8 :=
  if bigEndian then (lowBytes w n).reverse else lowBytes w n

def ofNumeral (bigEndian : Bool) (bytes : List UInt8) : Nat :=
  ofLowBytes (if bigEndian then bytes.reverse else bytes)

/-- A number of `w` bytes. -/
def number (bigEndian : Bool) (w : Nat) : Reader UInt8 Nat := do
  let bytes ← take w
  pure (ofNumeral bigEndian bytes)

theorem lowBytes_length (w n : Nat) : (lowBytes w n).length = w := by
  induction w generalizing n with
  | zero => rfl
  | succ w ih => rw [lowBytes, List.length_cons, ih]

@[simp]
theorem numeral_length (bigEndian : Bool) (w n : Nat) : (numeral bigEndian w n).length = w := by
  cases bigEndian <;> simp [numeral, lowBytes_length]

theorem ofLowBytes_lowBytes {w n : Nat} (h : n < 256 ^ w) : ofLowBytes (lowBytes w n) = n := by
  induction w generalizing n with
  | zero =>
      have hzero : n = 0 := by simpa using h
      rw [hzero]
      rfl
  | succ w ih =>
      have hhigh : n / 256 < 256 ^ w := by
        rw [Nat.div_lt_iff_lt_mul (by decide)]
        rwa [Nat.pow_succ] at h
      rw [lowBytes, ofLowBytes, ih hhigh, UInt8.toNat_ofNat']
      exact Nat.mod_add_div n 256

theorem ofNumeral_numeral {bigEndian : Bool} {w n : Nat} (h : n < 256 ^ w) :
    ofNumeral bigEndian (numeral bigEndian w n) = n := by
  cases bigEndian <;> simp [numeral, ofNumeral, ofLowBytes_lowBytes h]

theorem Reads.number {bigEndian : Bool} {w n : Nat} (h : n < 256 ^ w) :
    Reads (number bigEndian w) (numeral bigEndian w n) n := by
  have htake := (Reads.take (numeral bigEndian w n)).map (ofNumeral bigEndian)
  rwa [numeral_length, ofNumeral_numeral h] at htake

end LengthPrefix
