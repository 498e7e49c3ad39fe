import Boss.Decimal
import Boss.ParameterExp

/-!
# Answers to parameter queries

`QueryUseExpression::find` prints the records that were found behind a header with their number and
the number of fields, until the texts of the records together reach `m_bufferSize`.  Then it prints
the number of the records so far over the first five characters.

The total does not count the header.  The server sets `m_bufferSize` to the size of the buffer
itself, so that an answer whose records end in the last bytes before it is longer than the buffer.
`answers_iff` says for which records an answer is right.
-/

namespace ParameterAnswer

open Decimal
open Parameter (Table Bytes ParameterCdr)
open ParameterExp (format)

/-- `Session::getBufferSize`. -/
def getBufferSize : Nat := 1024 * 32

/-- `%05d`. -/
def number (n : Nat) : Bytes := List.replicate (5 - (digitText n).length) 48 ++ digitText n

/-- `%05d,%d,`. -/
def header (n size : Nat) : Bytes := number n ++ 44 :: (digitText size ++ [44])

variable (T : Table) (m_outFieldList : List Nat)

/-- The loop over the fields of an answer, into the 1024 bytes of `cdr`. -/
def recordFrom (r : ParameterCdr) : Bytes → List Nat → Option Bytes
  | cdr, [] => some cdr
  | cdr, j :: rest =>
    (format T j r).bind fun field =>
      let cdr := cdr ++ (field ++ [44])
      if cdr.length < 1024 then recordFrom r cdr rest else none

def record (r : ParameterCdr) : Option Bytes := recordFrom T r [] m_outFieldList

/-- The count is printed into the 6 bytes of `c1`, and five of them are copied. -/
def patch (result : Bytes) (i : Nat) : Option Bytes :=
  if (number i).length < 6 then some (number i ++ result.drop 5) else none

variable (m_bufferSize : Nat)

/-- The loop over the records. -/
def findFrom : Nat → Nat → Bytes → List ParameterCdr → Option (Nat × Bytes)
  | i, _, result, [] => some (i, result)
  | i, sum, result, r :: rest =>
    (record T m_outFieldList r).bind fun cdr =>
      let sum := sum + cdr.length
      if m_bufferSize ≤ sum then (patch result i).map fun result => (i, result)
      else findFrom (i + 1) sum (result ++ cdr) rest

/-- What `find` returns and writes when a table has answered with `resultCdr`. -/
def find (resultCdr : List ParameterCdr) : Option (Nat × Bytes) :=
  findFrom T m_outFieldList m_bufferSize 0 0 (header resultCdr.length m_outFieldList.length)
    resultCdr

/-- The texts of records. -/
def Texts (records : List ParameterCdr) (texts : List Bytes) : Prop :=
  List.Forall₂ (fun r t => record T m_outFieldList r = some t) records texts

/-- The answer fits into the buffer with its NUL, and its first field and `n` are the number of
records in it. -/
structure Answers (resultCdr : List ParameterCdr) (n : Nat) (text : Bytes) : Prop where
  fits : text.length + 1 ≤ m_bufferSize
  complete : n ≤ resultCdr.length ∧ ∃ count texts, Texts T m_outFieldList (resultCdr.take n) texts ∧
    text = count ++ 44 :: (digitText m_outFieldList.length ++ 44 :: texts.flatten) ∧
    (∀ c ∈ count, isDigit c = true) ∧ readDigits count = n

/-- The first `k` records have a total, added to `sum`, below `m_bufferSize`, and it is reached with
the next one. -/
structure Takes (sum : Nat) (resultCdr : List ParameterCdr) (k : Nat) (texts : List Bytes) :
    Prop where
  le : k ≤ resultCdr.length
  printed : Texts T m_outFieldList (resultCdr.take k) texts
  below : k = 0 ∨ sum + texts.flatten.length < m_bufferSize
  stops : k < resultCdr.length → ∃ r t, resultCdr[k]? = some r ∧
    record T m_outFieldList r = some t ∧ m_bufferSize ≤ sum + texts.flatten.length + t.length

variable {T m_outFieldList m_bufferSize} {resultCdr : List ParameterCdr} {texts : List Bytes}
  {i k n sum : Nat} {result text : Bytes} {r : ParameterCdr}

/-! ## Numbers -/

theorem number_digits (n : Nat) : ∀ c ∈ number n, isDigit c = true := by
  intro c hc
  rcases List.mem_append.mp hc with hc | hc
  · rw [List.eq_of_mem_replicate hc]
    decide
  · exact digitText_digits n c hc

theorem le_length_number (n : Nat) : 5 ≤ (number n).length := by
  rw [number, List.length_append, List.length_replicate]
  omega

theorem readDigits_zeros {rest : Bytes} (hrest : ∀ c ∈ rest, isDigit c = true) :
    readDigits rest = 0 ↔ ∀ c ∈ rest, c = 48 := by
  induction rest with
  | nil => exact iff_of_true rfl fun _ hc => absurd hc List.not_mem_nil
  | cons c rest ih =>
      obtain ⟨hc, hrest⟩ := List.forall_mem_cons.mp hrest
      have hone : readDigits [c] = c.toNat - 48 := by simp [readDigits, hc]
      have happend := @readDigits_append [c] rest (by simpa using hc) hrest
      have hpos : 0 < 10 ^ rest.length := Nat.pow_pos (by decide)
      have hzero : c.toNat - 48 = 0 ↔ c = 48 := by
        simp only [isDigit, Bool.and_eq_true, decide_eq_true_eq] at hc
        rw [← UInt8.toNat_inj]
        have h48 : (48 : UInt8).toNat = 48 := rfl
        omega
      rw [List.forall_mem_cons, ← ih hrest, ← hzero, ← List.singleton_append, happend, hone,
        Nat.add_eq_zero_iff, Nat.mul_eq_zero]
      simp only [hpos.ne', or_false]

theorem readDigits_number (n : Nat) : readDigits (number n) = n := by
  have hzeros : ∀ c ∈ List.replicate (5 - (digitText n).length) (48 : UInt8), isDigit c = true := by
    intro c hc
    rw [List.eq_of_mem_replicate hc]
    decide
  have hzero : readDigits (List.replicate (5 - (digitText n).length) 48) = 0 :=
    (readDigits_zeros hzeros).mpr fun c hc => List.eq_of_mem_replicate hc
  have htext := @readDigits_digitText n [] (by simp)
  rw [List.append_nil] at htext
  rw [number, readDigits_append hzeros (digitText_digits n), hzero, Nat.zero_mul, Nat.zero_add,
    htext]

/-- Five places hold the numbers below 100000. -/
theorem length_number_lt : (number n).length < 6 ↔ n < 100000 := by
  constructor
  · intro h
    have hlt := readDigits_lt (number_digits n)
    rw [readDigits_number] at hlt
    exact Nat.lt_of_lt_of_le hlt (Nat.pow_le_pow_right (by decide) (Nat.le_of_lt_succ h))
  · intro h
    have hle := digitText_length (by decide : 0 < 5) h
    rw [number, List.length_append, List.length_replicate]
    omega

/-! ## The loop over the records -/

/-- The first record that does not fit. -/
theorem takes_cut {t : Bytes} (ht : record T m_outFieldList r = some t)
    (hcut : m_bufferSize ≤ sum + t.length) :
    Takes T m_outFieldList m_bufferSize sum (r :: resultCdr) k texts ↔ k = 0 ∧ texts = [] := by
  constructor
  · rintro ⟨-, hprinted, hbelow, -⟩
    cases k with
    | zero => exact ⟨rfl, List.forall₂_nil_left_iff.mp hprinted⟩
    | succ k =>
        rw [List.take_succ_cons] at hprinted
        obtain ⟨t', texts, ht', -, rfl⟩ := List.forall₂_cons_left_iff.mp hprinted
        obtain rfl := Option.some.inj (ht.symm.trans ht')
        rw [List.flatten_cons, List.length_append] at hbelow
        omega
  · rintro ⟨rfl, rfl⟩
    exact ⟨Nat.zero_le _, .nil, .inl rfl, fun _ => ⟨r, t, rfl, ht, hcut⟩⟩

/-- A record that fits. -/
theorem takes_next {t : Bytes} (ht : record T m_outFieldList r = some t)
    (hfits : sum + t.length < m_bufferSize) :
    Takes T m_outFieldList m_bufferSize sum (r :: resultCdr) k texts ↔
      ∃ k' texts', Takes T m_outFieldList m_bufferSize (sum + t.length) resultCdr k' texts' ∧
        k = k' + 1 ∧ texts = t :: texts' := by
  constructor
  · rintro ⟨hle, hprinted, hbelow, hstops⟩
    cases k with
    | zero =>
        obtain ⟨r', t', hr, ht', hcut⟩ := hstops (Nat.zero_lt_succ _)
        obtain rfl := Option.some.inj hr
        obtain rfl := Option.some.inj (ht.symm.trans ht')
        obtain rfl := List.forall₂_nil_left_iff.mp hprinted
        rw [List.flatten_nil, List.length_nil] at hcut
        omega
    | succ k =>
        rw [List.take_succ_cons] at hprinted
        obtain ⟨t', texts', ht', hrest, rfl⟩ := List.forall₂_cons_left_iff.mp hprinted
        obtain rfl := Option.some.inj (ht.symm.trans ht')
        rw [List.flatten_cons, List.length_append] at hbelow hstops
        refine ⟨k, texts', ⟨Nat.le_of_succ_le_succ hle, hrest, .inr (by omega), fun hk => ?_⟩,
          rfl, rfl⟩
        obtain ⟨r', t', hr', ht', hcut⟩ := hstops (Nat.succ_lt_succ hk)
        exact ⟨r', t', hr', ht', by omega⟩
  · rintro ⟨k', texts', ⟨hle, hprinted, hbelow, hstops⟩, rfl, rfl⟩
    have hflatten : (t :: texts').flatten.length = t.length + texts'.flatten.length := by
      rw [List.flatten_cons, List.length_append]
    refine ⟨Nat.succ_le_succ hle, .cons ht hprinted, .inr ?_, fun hk => ?_⟩
    · rcases hbelow with rfl | hbelow
      · obtain rfl := List.forall₂_nil_left_iff.mp hprinted
        simpa using hfits
      · omega
    · obtain ⟨r', t', hr', ht', hcut⟩ := hstops (Nat.lt_of_succ_lt_succ hk)
      exact ⟨r', t', hr', ht', by omega⟩

theorem takes_undefined (hr : record T m_outFieldList r = none) :
    ¬ Takes T m_outFieldList m_bufferSize sum (r :: resultCdr) k texts := by
  rintro ⟨-, hprinted, -, hstops⟩
  cases k with
  | zero =>
      obtain ⟨r', t, hr', ht, -⟩ := hstops (Nat.zero_lt_succ _)
      obtain rfl := Option.some.inj hr'
      rw [hr] at ht
      cases ht
  | succ k =>
      rw [List.take_succ_cons] at hprinted
      obtain ⟨t, -, ht, -, -⟩ := List.forall₂_cons_left_iff.mp hprinted
      rw [hr] at ht
      cases ht

/-- **What the loop makes of its records**: the texts of those that fit, under the count when there
are more. -/
theorem findFrom_eq_some : findFrom T m_outFieldList m_bufferSize i sum result resultCdr =
      some (n, text) ↔
    ∃ k texts, Takes T m_outFieldList m_bufferSize sum resultCdr k texts ∧ n = i + k ∧
      (if k = resultCdr.length then some (result ++ texts.flatten)
        else patch (result ++ texts.flatten) n) = some text := by
  induction resultCdr generalizing i sum result with
  | nil =>
      constructor
      · intro h
        obtain ⟨rfl, rfl⟩ := Prod.mk.inj (Option.some.inj h)
        exact ⟨0, [], ⟨le_rfl, .nil, .inl rfl, fun h => absurd h (Nat.lt_irrefl 0)⟩, rfl, by simp⟩
      · rintro ⟨k, texts, ⟨hle, hprinted, -, -⟩, rfl, htext⟩
        obtain rfl := Nat.le_zero.mp hle
        obtain rfl := List.forall₂_nil_left_iff.mp hprinted
        rw [if_pos List.length_nil.symm, List.flatten_nil, List.append_nil] at htext
        obtain rfl := Option.some.inj htext
        rfl
  | cons r resultCdr ih =>
      rw [findFrom]
      cases hr : record T m_outFieldList r with
      | none =>
          constructor
          · intro h
            cases h
          · rintro ⟨k, texts, htakes, -⟩
            exact absurd htakes (takes_undefined hr)
      | some t =>
          rw [Option.bind_some]
          dsimp only
          by_cases hcut : m_bufferSize ≤ sum + t.length
          · rw [if_pos hcut]
            simp only [takes_cut hr hcut]
            constructor
            · intro h
              obtain ⟨patched, hpatch, heq⟩ := Option.map_eq_some_iff.mp h
              obtain ⟨rfl, rfl⟩ := Prod.mk.inj heq
              refine ⟨0, [], ⟨rfl, rfl⟩, rfl, ?_⟩
              rw [if_neg (by simp), List.flatten_nil, List.append_nil]
              exact hpatch
            · rintro ⟨k, texts, ⟨rfl, rfl⟩, rfl, htext⟩
              rw [if_neg (by simp), List.flatten_nil, List.append_nil] at htext
              rw [htext]
              rfl
          · rw [if_neg hcut, ih]
            simp only [takes_next hr (Nat.lt_of_not_le hcut)]
            constructor
            · rintro ⟨k, texts, htakes, rfl, htext⟩
              refine ⟨k + 1, t :: texts, ⟨k, texts, htakes, rfl, rfl⟩, by omega, ?_⟩
              simpa [List.append_assoc] using htext
            · rintro ⟨k, texts, ⟨k', texts', htakes, rfl, rfl⟩, rfl, htext⟩
              refine ⟨k', texts', htakes, by omega, ?_⟩
              simpa [List.append_assoc] using htext

/-! ## Right answers -/

/-- The count goes over the first five characters of the header. -/
theorem patch_eq_some {size : Nat} {rest : Bytes} :
    patch (header n size ++ rest) k = some text ↔ k < 100000 ∧
      text = (number k ++ (number n).drop 5) ++ 44 :: (digitText size ++ 44 :: rest) := by
  have hdrop : (header n size ++ rest).drop 5 =
      (number n).drop 5 ++ 44 :: (digitText size ++ 44 :: rest) := by
    rw [header, List.append_assoc, List.drop_append_of_le_length (le_length_number n)]
    simp
  unfold patch
  rw [hdrop, ← List.append_assoc]
  by_cases hk : k < 100000
  · rw [if_pos (length_number_lt.mpr hk)]
    exact ⟨fun h => ⟨hk, (Option.some.inj h).symm⟩, fun h => congrArg some h.2.symm⟩
  · rw [if_neg fun h => hk (length_number_lt.mp h)]
    exact ⟨fun h => absurd h.symm (Option.some_ne_none text), fun h => absurd h.1 hk⟩

/-- The digits in front of a comma are the count. -/
theorem count_unique {a b x y : Bytes} (ha : ∀ c ∈ a, isDigit c = true)
    (hb : ∀ c ∈ b, isDigit c = true) (h : a ++ 44 :: x = b ++ 44 :: y) : a = b := by
  have htake {a x : Bytes} (ha : ∀ c ∈ a, isDigit c = true) :
      (a ++ 44 :: x).takeWhile isDigit = a := by
    rw [List.takeWhile_append_of_pos ha, List.takeWhile_cons_of_neg (by decide), List.append_nil]
  rw [← htake ha, h, htake hb]

theorem patched_digits : ∀ c ∈ number k ++ (number n).drop 5, isDigit c = true :=
  List.forall_mem_append.mpr
    ⟨number_digits k, fun c hc => number_digits n c (List.mem_of_mem_drop hc)⟩

/-- The count takes the room of the characters that it goes over. -/
theorem length_patched (hk : k < 100000) :
    (number k ++ (number n).drop 5).length = (number n).length := by
  have hfive := length_number_lt.mpr hk
  have hle := le_length_number k
  have hle' := le_length_number n
  rw [List.length_append, List.length_drop]
  omega

/-- What is left of the number of all records behind five digits reads as the other count. -/
theorem readDigits_patched : readDigits (number k ++ (number n).drop 5) = k ↔
    n < 100000 ∨ (k = 0 ∧ ∀ c ∈ (number n).drop 5, c = 48) := by
  have hdigits : ∀ c ∈ (number n).drop 5, isDigit c = true :=
    fun c hc => number_digits n c (List.mem_of_mem_drop hc)
  rw [readDigits_append (number_digits k) hdigits, readDigits_number, ← readDigits_zeros hdigits,
    ← length_number_lt]
  by_cases hshort : (number n).length < 6
  · have hnil : (number n).drop 5 = [] := List.drop_eq_nil_of_le (Nat.le_of_lt_succ hshort)
    rw [hnil]
    exact iff_of_true (by simp [readDigits]) (.inl hshort)
  · have hten : 10 ≤ 10 ^ ((number n).drop 5).length := by
      have hpow : 10 ^ 1 ≤ 10 ^ ((number n).drop 5).length := by
        apply Nat.pow_le_pow_right (by decide)
        rw [List.length_drop]
        omega
      exact hpow
    constructor
    · intro h
      have hmul : k * 10 ≤ k * 10 ^ ((number n).drop 5).length := Nat.mul_le_mul_left k hten
      exact .inr ⟨by omega, by omega⟩
    · rintro (h | ⟨rfl, hzero⟩)
      · exact absurd h hshort
      · rw [hzero, Nat.zero_mul]

/-- **An answer is right** exactly when the texts of the records that are looked at fit into `cdr`,
the header finds room in front of those that the answer takes, and the count replaces the whole
number. -/
theorem answers_iff :
    (∃ n text, find T m_outFieldList m_bufferSize resultCdr = some (n, text) ∧
      Answers T m_outFieldList m_bufferSize resultCdr n text) ↔
    ∃ k texts, Takes T m_outFieldList m_bufferSize 0 resultCdr k texts ∧
      (header resultCdr.length m_outFieldList.length).length + texts.flatten.length + 1 ≤
        m_bufferSize ∧
      (k = resultCdr.length ∨ resultCdr.length < 100000 ∨
        (k = 0 ∧ ∀ c ∈ (number resultCdr.length).drop 5, c = 48)) := by
  have hsplit (texts : List Bytes) :
      header resultCdr.length m_outFieldList.length ++ texts.flatten =
        number resultCdr.length ++
          44 :: (digitText m_outFieldList.length ++ 44 :: texts.flatten) := by
    simp [header]
  constructor
  · rintro ⟨n, text, hfind, hfits, -, count, texts', -, htext', hdigits, hcount⟩
    obtain ⟨k, texts, htakes, rfl, htext⟩ := findFrom_eq_some.mp hfind
    rw [Nat.zero_add] at hcount htext
    refine ⟨k, texts, htakes, ?_⟩
    by_cases hall : k = resultCdr.length
    · rw [if_pos hall] at htext
      obtain rfl := Option.some.inj htext
      rw [List.length_append] at hfits
      exact ⟨hfits, .inl hall⟩
    · rw [if_neg hall, patch_eq_some] at htext
      obtain ⟨hk, htext⟩ := htext
      obtain rfl := count_unique hdigits patched_digits (htext'.symm.trans htext)
      refine ⟨?_, .inr (readDigits_patched.mp hcount)⟩
      rw [htext, List.length_append, length_patched hk, ← List.length_append, ← hsplit,
        List.length_append] at hfits
      exact hfits
  · rintro ⟨k, texts, htakes, hroom, hcount⟩
    by_cases hall : k = resultCdr.length
    · refine ⟨k, _, findFrom_eq_some.mpr ⟨k, texts, htakes, (Nat.zero_add k).symm, if_pos hall⟩, ?_⟩
      refine ⟨?_, htakes.le, number resultCdr.length, texts, htakes.printed, hsplit texts,
        number_digits _, ?_⟩
      · rw [List.length_append]
        exact hroom
      · rw [readDigits_number, hall]
    · have hle := htakes.le
      have hcount : resultCdr.length < 100000 ∨
          (k = 0 ∧ ∀ c ∈ (number resultCdr.length).drop 5, c = 48) :=
        hcount.resolve_left hall
      have hk : k < 100000 := by omega
      have hpatch : patch (header resultCdr.length m_outFieldList.length ++ texts.flatten) k =
          some ((number k ++ (number resultCdr.length).drop 5) ++
            44 :: (digitText m_outFieldList.length ++ 44 :: texts.flatten)) :=
        patch_eq_some.mpr ⟨hk, rfl⟩
      have hfind : find T m_outFieldList m_bufferSize resultCdr =
          some (k, (number k ++ (number resultCdr.length).drop 5) ++
            44 :: (digitText m_outFieldList.length ++ 44 :: texts.flatten)) :=
        findFrom_eq_some.mpr
          ⟨k, texts, htakes, (Nat.zero_add k).symm, (if_neg hall).trans hpatch⟩
      refine ⟨k, _, hfind, ?_, hle, _, texts, htakes.printed, rfl, patched_digits,
        readDigits_patched.mpr hcount⟩
      rw [List.length_append, length_patched hk, ← List.length_append, ← hsplit, List.length_append]
      exact hroom

/-! ## The last bytes of the buffer -/

/-- A record of one field. -/
def row : ParameterCdr := ⟨[0], List.replicate 77 65 ++ [0]⟩

theorem record_row : record Parameter.letters [0] row = some (List.replicate 77 65 ++ [44]) := by
  decide +kernel

theorem length_flatten_replicate (n : Nat) (t : Bytes) :
    (List.replicate n t).flatten.length = n * t.length := by
  rw [List.length_flatten, List.map_replicate, List.sum_replicate_nat]

theorem takes_replicate {t : Bytes} (ht : record T m_outFieldList r = some t)
    (hbelow : n * t.length < m_bufferSize) :
    Takes T m_outFieldList m_bufferSize 0 (List.replicate n r) n (List.replicate n t) where
  le := (List.length_replicate).ge
  printed := by
    rw [List.take_replicate, Nat.min_self]
    induction n with
    | zero => exact .nil
    | succ n ih => exact .cons ht (ih (by rw [Nat.succ_mul] at hbelow; omega))
  below := .inr (by rwa [length_flatten_replicate, Nat.zero_add])
  stops h := by
    rw [List.length_replicate] at h
    exact absurd h (Nat.lt_irrefl n)

/-- The texts of 420 records leave eight bytes, which the header takes, and none for the NUL. -/
theorem longer_than_buffer :
    (∃ text, find Parameter.letters [0] getBufferSize (List.replicate 420 row) = some (420, text) ∧
      text.length + 1 = getBufferSize + 1) ∧
    ¬ ∃ n text, find Parameter.letters [0] getBufferSize (List.replicate 420 row) = some (n, text) ∧
      Answers Parameter.letters [0] getBufferSize (List.replicate 420 row) n text := by
  have htakes : Takes Parameter.letters [0] getBufferSize 0 (List.replicate 420 row) 420
      (List.replicate 420 (List.replicate 77 65 ++ [44])) :=
    takes_replicate record_row (by decide)
  have hfind : find Parameter.letters [0] getBufferSize (List.replicate 420 row) =
      some (420, header (List.replicate 420 row).length 1 ++
        (List.replicate 420 (List.replicate 77 65 ++ [44])).flatten) :=
    findFrom_eq_some.mpr ⟨420, _, htakes, rfl, if_pos List.length_replicate.symm⟩
  have hlength : (header (List.replicate 420 row).length 1 ++
      (List.replicate 420 (List.replicate 77 (65 : UInt8) ++ [44])).flatten).length + 1 =
        getBufferSize + 1 := by
    rw [List.length_append, length_flatten_replicate, List.length_replicate]
    decide +kernel
  refine ⟨⟨_, hfind, hlength⟩, ?_⟩
  rintro ⟨n, text, hanswer, hfits, -⟩
  obtain ⟨rfl, rfl⟩ := Prod.mk.inj (Option.some.inj (hfind.symm.trans hanswer))
  rw [hlength] at hfits
  exact absurd hfits (Nat.not_succ_le_self _)

end ParameterAnswer
