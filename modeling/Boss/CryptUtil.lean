import Mathlib.Data.List.TakeWhile
import Mathlib.Tactic.IntervalCases

/-!
# The encryption of passwords

`CryptUtil::encrypt` writes every character as two hexadecimal digits, puts a tag behind them that
counts the characters up to 31 and starts again, and scatters the 24 bits over the three bytes.
`decrypt` gathers them, checks the tags and reads the digits.  The three upper bits of a tag are
set, and each of them becomes the first bit of a byte, so no byte of the text is zero.

`decrypt_encrypt` is the round trip for characters of seven bits.  Others have a negative code, for
which `INT2HCHAR` throws, and the upper digit is not read right from A on.
-/

namespace CryptUtil

abbrev Byte := UInt8

/-- The string that a `const char*` into this memory stands for. -/
def cstr (memory : List Byte) : List Byte := memory.takeWhile (· ≠ 0)

/-- A `char` as an `int`. -/
def charInt (c : Byte) : Int := if c < 128 then c.toNat else (c.toNat : Int) - 256

/-! ## `CryptHelper` -/

/-- `INT2HCHAR`, or the number that it throws. -/
def INT2HCHAR (n : Int) : Except Int Byte :=
  if 0 ≤ n ∧ n ≤ 9 then .ok ('0'.toUInt8 + UInt8.ofNat n.toNat)
  else if 10 ≤ n ∧ n ≤ 15 then .ok ('A'.toUInt8 + UInt8.ofNat (n - 10).toNat)
  else .error n

/-- `HCHAR2INT`; the upper digits from A on lack the 10. -/
def HCHAR2INT (chPart1 chPart2 : Byte) : Byte :=
  let digit (c : Byte) : Bool := '0'.toUInt8 ≤ c && c ≤ '9'.toUInt8
  let letter (c : Byte) : Bool := 'A'.toUInt8 ≤ c && c ≤ 'F'.toUInt8
  if (digit chPart1 || letter chPart1) && (digit chPart2 || letter chPart2) then
    let nPart0 := if digit chPart1 then chPart1 - '0'.toUInt8 else chPart1 - 'A'.toUInt8
    let nPart1 := if digit chPart2 then chPart2 - '0'.toUInt8 else chPart2 - 'A'.toUInt8 + 10
    nPart0 * 16 + nPart1
  else '0'.toUInt8

/-- `Str2Hstr`; the quotient and the remainder of a negative `int` are negative. -/
def Str2Hstr : List Byte → Except Int (List Byte)
  | [] => .ok []
  | c :: src => do
    let high ← INT2HCHAR ((charInt c).tdiv 16)
    let low ← INT2HCHAR ((charInt c).tmod 16)
    let dst ← Str2Hstr src
    return high :: low :: dst

/-- The loop of `Hstr2Str`. -/
def hstrLoop : List Byte → List Byte
  | chPart1 :: chPart2 :: src => HCHAR2INT chPart1 chPart2 :: hstrLoop src
  | _ => []

/-- `Hstr2Str`; `none` when it returns `false`. -/
def Hstr2Str (src : List Byte) : Option (List Byte) :=
  if src.length % 2 ≠ 0 then none else some (hstrLoop src)

/-- `moveBit`: the bit `i` to the place `j`, counted from 1 at the upper end. -/
def moveBit (chr : Byte) (i j : Nat) : Byte :=
  let maskchr : Byte := 1 <<< UInt8.ofNat (8 - i)
  ((maskchr &&& chr) >>> UInt8.ofNat (8 - i)) <<< UInt8.ofNat (8 - j)

/-- `mask`. -/
def mask (A B C : Byte) : Byte × Byte × Byte :=
  (moveBit C 1 1 ||| moveBit A 4 2 ||| moveBit B 1 3 ||| moveBit C 7 4 |||
      moveBit A 7 5 ||| moveBit C 4 6 ||| moveBit B 2 7 ||| moveBit B 7 8,
    moveBit C 2 1 ||| moveBit A 2 2 ||| moveBit C 8 3 ||| moveBit B 4 4 |||
      moveBit A 1 5 ||| moveBit B 5 6 ||| moveBit B 8 7 ||| moveBit B 3 8,
    moveBit C 3 1 ||| moveBit A 8 2 ||| moveBit B 6 3 ||| moveBit A 5 4 |||
      moveBit C 5 5 ||| moveBit A 6 6 ||| moveBit C 6 7 ||| moveBit A 3 8)

/-- `mask2`. -/
def mask2 (A B C : Byte) : Byte × Byte × Byte :=
  (moveBit B 5 1 ||| moveBit B 2 2 ||| moveBit C 8 3 ||| moveBit A 2 4 |||
      moveBit C 4 5 ||| moveBit C 6 6 ||| moveBit A 5 7 ||| moveBit C 2 8,
    moveBit A 3 1 ||| moveBit A 7 2 ||| moveBit B 8 3 ||| moveBit B 4 4 |||
      moveBit B 6 5 ||| moveBit C 3 6 ||| moveBit A 8 7 ||| moveBit B 7 8,
    moveBit A 1 1 ||| moveBit B 1 2 ||| moveBit C 1 3 ||| moveBit A 6 4 |||
      moveBit C 5 5 ||| moveBit C 7 6 ||| moveBit A 4 7 ||| moveBit B 3 8)

/-! ## `CryptUtil` -/

/-- The loop of `encrypt`, from the character `n` on. -/
def encryptLoop : Nat → List Byte → List Byte
  | n, A :: B :: data =>
    let char3 := mask A B (UInt8.ofNat (0xE0 ||| ((n + 1) &&& 0x1F)))
    char3.1 :: char3.2.1 :: char3.2.2 :: encryptLoop (n + 1) data
  | _, _ => []

/-- `CryptUtil::encrypt`: the text, `none` when it returns `false`, or the number that is
thrown. -/
def encrypt (src : List Byte) : Except Int (Option (List Byte)) := do
  let data ← Str2Hstr (cstr src)
  let data := cstr data
  if data.length % 2 ≠ 0 then return none
  return some (encryptLoop 0 data)

/-- The loop of `decrypt`, from the character `n` on; `none` when a tag does not match. -/
def decryptLoop : Nat → List Byte → Option (List Byte)
  | n, A :: B :: C :: data =>
    let char3 := mask2 A B C
    if (char3.2.2 &&& 0x1F).toNat ≠ (n + 1) &&& 0x1F then none
    else (decryptLoop (n + 1) data).map fun buffer => char3.1 :: char3.2.1 :: buffer
  | _, _ => some []

/-- `CryptUtil::decrypt`: the password, `none` when it returns `false`.  It does not look at what
`Hstr2Str` returns, and then the password is empty. -/
def decrypt (src : List Byte) : Option (List Byte) :=
  let data := cstr src
  if data.length % 3 ≠ 0 then none
  else (decryptLoop 0 data).map fun buffer => (Hstr2Str (cstr buffer)).getD []

/-! ## The bits -/

/-- A text without zeros is read up to the zero behind it. -/
theorem cstr_append {l behind : List Byte} (h : ∀ c ∈ l, c ≠ 0) : cstr (l ++ 0 :: behind) = l := by
  rw [cstr, List.takeWhile_append_of_pos fun c hc => decide_eq_true (h c hc)]
  simp

theorem cstr_eq {l : List Byte} (h : ∀ c ∈ l, c ≠ 0) : cstr l = l :=
  List.takeWhile_eq_self_iff.mpr fun c hc => decide_eq_true (h c hc)

/-- The bit at a place, counted like those of `moveBit`. -/
def bit (c : Byte) (k : Nat) : Bool := c.toBitVec.getLsbD (8 - k)

/-- The bits of a union are those of both. -/
theorem bit_or (a b : Byte) (k : Nat) : bit (a ||| b) k = (bit a k || bit b k) := by simp [bit]

/-- All of them. -/
def bits (c : Byte) : List Bool :=
  [bit c 1, bit c 2, bit c 3, bit c 4, bit c 5, bit c 6, bit c 7, bit c 8]

/-- A byte is known by its bits. -/
theorem bits_inj {a b : Byte} (h : bits a = bits b) : a = b := by
  apply UInt8.toBitVec_inj.mp
  apply BitVec.eq_of_getLsbD_eq
  intro n hn
  simp only [bits, bit, List.cons.injEq] at h
  obtain ⟨h₁, h₂, h₃, h₄, h₅, h₆, h₇, h₈, -⟩ := h
  interval_cases n <;> assumption

/-- Shifts by less than the width of a byte. -/
theorem toBitVec_shifts (c : Byte) {n : Nat} (hn : n < 8) :
    (c <<< UInt8.ofNat n).toBitVec = c.toBitVec <<< n ∧
    (c >>> UInt8.ofNat n).toBitVec = c.toBitVec >>> n := by
  have hamount : ((UInt8.ofNat n).toBitVec % 8).toNat = n := by
    simp only [UInt8.toBitVec_ofNat', BitVec.toNat_umod, BitVec.toNat_ofNat]
    change n % 2 ^ 8 % 8 = n
    omega
  rw [UInt8.toBitVec_shiftLeft, UInt8.toBitVec_shiftRight, BitVec.shiftLeft_eq',
    BitVec.ushiftRight_eq', hamount]
  exact ⟨rfl, rfl⟩

/-- The bit that is moved, and no other. -/
theorem bit_moveBit (chr : Byte) {i j k : Nat} (hi : 0 < i) (hj : 0 < j) (hj' : j ≤ 8)
    (hk : 0 < k) (hk' : k ≤ 8) : bit (moveBit chr i j) k = (decide (k = j) && bit chr i) := by
  have hmask : (1 : Byte).toBitVec = 1#8 := rfl
  rw [bit, moveBit, (toBitVec_shifts _ (by omega)).1, (toBitVec_shifts _ (by omega)).2,
    UInt8.toBitVec_and, (toBitVec_shifts _ (by omega)).1, hmask]
  by_cases hkj : k = j
  · have hzero : 8 - k - (8 - j) = 0 := by omega
    have hin : 8 - j < 8 := by omega
    have hin' : 8 - i < 8 := by omega
    simp [hkj, bit, hin, hin']
  · simp [hkj]
    omega

/-- A byte that is put together from eight bits. -/
theorem bits_eight (c₁ c₂ c₃ c₄ c₅ c₆ c₇ c₈ : Byte) {i₁ i₂ i₃ i₄ i₅ i₆ i₇ i₈ : Nat}
    (h : ∀ i ∈ [i₁, i₂, i₃, i₄, i₅, i₆, i₇, i₈], 0 < i) :
    bits (moveBit c₁ i₁ 1 ||| moveBit c₂ i₂ 2 ||| moveBit c₃ i₃ 3 ||| moveBit c₄ i₄ 4 |||
        moveBit c₅ i₅ 5 ||| moveBit c₆ i₆ 6 ||| moveBit c₇ i₇ 7 ||| moveBit c₈ i₈ 8) =
      [bit c₁ i₁, bit c₂ i₂, bit c₃ i₃, bit c₄ i₄, bit c₅ i₅, bit c₆ i₆, bit c₇ i₇, bit c₈ i₈] := by
  simp only [List.forall_mem_cons] at h
  obtain ⟨h₁, h₂, h₃, h₄, h₅, h₆, h₇, h₈, -⟩ := h
  have hplace : ∀ k, 0 < k → k ≤ 8 →
      bit (moveBit c₁ i₁ 1 ||| moveBit c₂ i₂ 2 ||| moveBit c₃ i₃ 3 ||| moveBit c₄ i₄ 4 |||
        moveBit c₅ i₅ 5 ||| moveBit c₆ i₆ 6 ||| moveBit c₇ i₇ 7 ||| moveBit c₈ i₈ 8) k =
      (decide (k = 1) && bit c₁ i₁ || decide (k = 2) && bit c₂ i₂ ||
        decide (k = 3) && bit c₃ i₃ || decide (k = 4) && bit c₄ i₄ ||
        decide (k = 5) && bit c₅ i₅ || decide (k = 6) && bit c₆ i₆ ||
        decide (k = 7) && bit c₇ i₇ || decide (k = 8) && bit c₈ i₈) := by
    intro k hk hk'
    simp only [bit_or]
    rw [bit_moveBit c₁ h₁, bit_moveBit c₂ h₂, bit_moveBit c₃ h₃, bit_moveBit c₄ h₄,
      bit_moveBit c₅ h₅, bit_moveBit c₆ h₆, bit_moveBit c₇ h₇, bit_moveBit c₈ h₈]
    all_goals omega
  unfold bits
  rw [hplace 1, hplace 2, hplace 3, hplace 4, hplace 5, hplace 6, hplace 7, hplace 8]
  · simp
  all_goals decide

/-- Where `mask` puts the bits. -/
theorem bits_mask (A B C : Byte) :
    bits (mask A B C).1 =
      [bit C 1, bit A 4, bit B 1, bit C 7, bit A 7, bit C 4, bit B 2, bit B 7] ∧
    bits (mask A B C).2.1 =
      [bit C 2, bit A 2, bit C 8, bit B 4, bit A 1, bit B 5, bit B 8, bit B 3] ∧
    bits (mask A B C).2.2 =
      [bit C 3, bit A 8, bit B 6, bit A 5, bit C 5, bit A 6, bit C 6, bit A 3] :=
  ⟨bits_eight _ _ _ _ _ _ _ _ (by decide), bits_eight _ _ _ _ _ _ _ _ (by decide),
    bits_eight _ _ _ _ _ _ _ _ (by decide)⟩

/-- **`mask2` undoes `mask`.** -/
theorem mask2_mask (A B C : Byte) :
    mask2 (mask A B C).1 (mask A B C).2.1 (mask A B C).2.2 = (A, B, C) := by
  obtain ⟨h₁, h₂, h₃⟩ := bits_mask A B C
  simp only [bits, List.cons.injEq, and_true] at h₁ h₂ h₃
  have hbits : bits (mask2 (mask A B C).1 (mask A B C).2.1 (mask A B C).2.2).1 = bits A ∧
      bits (mask2 (mask A B C).1 (mask A B C).2.1 (mask A B C).2.2).2.1 = bits B ∧
      bits (mask2 (mask A B C).1 (mask A B C).2.1 (mask A B C).2.2).2.2 = bits C := by
    unfold mask2
    dsimp only
    rw [bits_eight _ _ _ _ _ _ _ _ (by decide), bits_eight _ _ _ _ _ _ _ _ (by decide),
      bits_eight _ _ _ _ _ _ _ _ (by decide)]
    simp only [h₁, h₂, h₃, bits, and_self]
  exact Prod.ext (bits_inj hbits.1) (Prod.ext (bits_inj hbits.2.1) (bits_inj hbits.2.2))

/-! ## Tags -/

/-- The tag of the character `n`. -/
def tag (n : Nat) : Byte := UInt8.ofNat (0xE0 ||| ((n + 1) &&& 0x1F))

/-- Its upper bits are set, and the others are the count. -/
theorem tag_spec (n : Nat) : (bit (tag n) 1 = true ∧ bit (tag n) 2 = true ∧ bit (tag n) 3 = true) ∧
    (tag n &&& 0x1F).toNat = (n + 1) &&& 0x1F := by
  have hall : ∀ m < 32, (bit (UInt8.ofNat (0xE0 ||| m)) 1 = true ∧
      bit (UInt8.ofNat (0xE0 ||| m)) 2 = true ∧ bit (UInt8.ofNat (0xE0 ||| m)) 3 = true) ∧
      (UInt8.ofNat (0xE0 ||| m) &&& 0x1F).toNat = m := by
    decide +kernel
  have hlt : (n + 1) &&& 0x1F < 32 := Nat.lt_succ_of_le Nat.and_le_right
  exact hall _ hlt

/-- So each byte of the text has its first bit set. -/
theorem mask_ne_zero (A B : Byte) (n : Nat) :
    (mask A B (tag n)).1 ≠ 0 ∧ (mask A B (tag n)).2.1 ≠ 0 ∧ (mask A B (tag n)).2.2 ≠ 0 := by
  obtain ⟨⟨h₁, h₂, h₃⟩, -⟩ := tag_spec n
  obtain ⟨hA, hB, hC⟩ := bits_mask A B (tag n)
  have hzero : ∀ {c : Byte} {b : Bool} {l : List Bool}, bits c = b :: l → b = true → c ≠ 0 := by
    intro c b l hbits hb heq
    rw [heq] at hbits
    obtain ⟨hfirst, -⟩ := List.cons.inj hbits
    rw [← hfirst] at hb
    exact absurd hb (by decide)
  exact ⟨hzero hA h₁, hzero hB h₂, hzero hC h₃⟩

variable {s data : List Byte}

/-- Every pair of digits becomes three bytes. -/
theorem encryptLoop_cons (n : Nat) (A B : Byte) (data : List Byte) :
    encryptLoop n (A :: B :: data) =
      (mask A B (tag n)).1 :: (mask A B (tag n)).2.1 :: (mask A B (tag n)).2.2 ::
        encryptLoop (n + 1) data := rfl

/-- **The tags match, and the digits come back.** -/
theorem decryptLoop_encryptLoop (n : Nat) (heven : data.length % 2 = 0) :
    decryptLoop n (encryptLoop n data) = some data := by
  induction n, data using encryptLoop.induct with
  | case1 n A B data ih =>
      have htail := ih (by simp only [List.length_cons] at heven; omega)
      rw [encryptLoop_cons, decryptLoop, mask2_mask]
      dsimp only
      rw [if_neg (not_not.mpr (tag_spec n).2), htail]
      rfl
  | case2 data n hpair =>
      match data with
      | [] => rfl
      | [A] => simp at heven
      | A :: B :: data => exact (hpair A B data rfl).elim

/-- What is encrypted has no zeros. -/
theorem encryptLoop_ne_zero (n : Nat) (data : List Byte) : ∀ d ∈ encryptLoop n data, d ≠ 0 := by
  induction n, data using encryptLoop.induct with
  | case1 n A B data ih =>
      obtain ⟨hA, hB, hC⟩ := mask_ne_zero A B n
      rw [encryptLoop_cons]
      simpa using ⟨hA, hB, hC, ih⟩
  | case2 data n hpair =>
      match data with
      | [] => simp [encryptLoop]
      | [A] => simp [encryptLoop]
      | A :: B :: data => exact (hpair A B data rfl).elim

/-- Two characters are encrypted into three. -/
theorem encryptLoop_length (n : Nat) (heven : data.length % 2 = 0) :
    (encryptLoop n data).length = data.length / 2 * 3 := by
  induction n, data using encryptLoop.induct with
  | case1 n A B data ih =>
      have htail := ih (by simp only [List.length_cons] at heven; omega)
      simp only [encryptLoop_cons, List.length_cons, htail]
      omega
  | case2 data n hpair =>
      match data with
      | [] => rfl
      | [A] => simp at heven
      | A :: B :: data => exact (hpair A B data rfl).elim

/-! ## Digits -/

/-- The digit of a number below 16. -/
def hexDigit (n : Nat) : Byte :=
  if n ≤ 9 then '0'.toUInt8 + UInt8.ofNat n else 'A'.toUInt8 + UInt8.ofNat (n - 10)

/-- The digits of a string. -/
def hexed (s : List Byte) : List Byte :=
  s.flatMap fun c => [hexDigit (c.toNat / 16), hexDigit (c.toNat % 16)]

/-- The sixteen digits are written as characters that are not zero. -/
theorem hexDigit_spec : ∀ n : Nat, n < 16 → INT2HCHAR n = .ok (hexDigit n) ∧ hexDigit n ≠ 0 := by
  intro n hn
  have hne : ∀ n : Nat, n < 16 → hexDigit n ≠ 0 := by decide
  refine ⟨?_, hne n hn⟩
  unfold INT2HCHAR hexDigit
  by_cases hdigit : n ≤ 9
  · rw [if_pos (by omega), if_pos hdigit, Int.toNat_natCast]
  · rw [if_neg (by omega), if_pos (by omega), if_neg hdigit]
    congr
    omega

/-- **The digits of a character of seven bits are read as it.** -/
theorem HCHAR2INT_hexDigit {c : Byte} (hc : c < 128) :
    HCHAR2INT (hexDigit (c.toNat / 16)) (hexDigit (c.toNat % 16)) = c := by
  have hall : ∀ n < 128,
      HCHAR2INT (hexDigit (n / 16)) (hexDigit (n % 16)) = UInt8.ofNat n := by
    decide +kernel
  have h := hall c.toNat (UInt8.lt_iff_toNat_lt.mp hc)
  rwa [UInt8.ofNat_toNat] at h

/-- A text of seven bits is written in hexadecimal. -/
theorem Str2Hstr_eq (h : ∀ c ∈ s, c < 128) : Str2Hstr s = .ok (hexed s) := by
  induction s with
  | nil => rfl
  | cons c s ih =>
      have htail := ih fun d hd => h d (List.mem_cons_of_mem c hd)
      have hc := h c List.mem_cons_self
      have hlt := UInt8.lt_iff_toNat_lt.mp hc
      have hhigh : (charInt c).tdiv 16 = ((c.toNat / 16 : Nat) : Int) := by
        rw [charInt, if_pos hc]
        rfl
      have hlow : (charInt c).tmod 16 = ((c.toNat % 16 : Nat) : Int) := by
        rw [charInt, if_pos hc]
        rfl
      have hdiv : c.toNat / 16 < 16 := by
        have hbound : (128 : Byte).toNat = 128 := rfl
        omega
      rw [Str2Hstr, hhigh, hlow, (hexDigit_spec _ hdiv).1,
        (hexDigit_spec _ (Nat.mod_lt _ (by decide))).1, htail]
      rfl

/-- A character takes two digits. -/
theorem hexed_length (s : List Byte) : (hexed s).length = s.length * 2 := by
  induction s with
  | nil => rfl
  | cons c s ih =>
      simp only [hexed, List.flatMap_cons, List.length_append, List.length_cons] at ih ⊢
      rw [ih, List.length_nil]
      omega

/-- Hexadecimal digits are not zero. -/
theorem hexed_ne_zero (h : ∀ c ∈ s, c < 128) : ∀ d ∈ hexed s, d ≠ 0 := by
  intro d hd
  obtain ⟨c, hc, hd⟩ := List.mem_flatMap.mp hd
  have hlt := UInt8.lt_iff_toNat_lt.mp (h c hc)
  have hbound : (128 : Byte).toNat = 128 := rfl
  simp only [List.mem_cons, List.not_mem_nil, or_false] at hd
  rcases hd with rfl | rfl
  · exact (hexDigit_spec _ (by omega)).2
  · exact (hexDigit_spec _ (by omega)).2

/-- The digits are read back. -/
theorem Hstr2Str_hexed (h : ∀ c ∈ s, c < 128) : Hstr2Str (hexed s) = some s := by
  have hloop : hstrLoop (hexed s) = s := by
    induction s with
    | nil => rfl
    | cons c s ih =>
        have htail := ih fun d hd => h d (List.mem_cons_of_mem c hd)
        have hhead := HCHAR2INT_hexDigit (h c List.mem_cons_self)
        have hcons : hexed (c :: s) =
            hexDigit (c.toNat / 16) :: hexDigit (c.toNat % 16) :: hexed s := rfl
        rw [hcons, hstrLoop, hhead, htail]
  rw [Hstr2Str, hexed_length, if_neg (by omega), hloop]

/-! ## The round trip -/

/-- **A password of characters of seven bits is decrypted from its text**, which has three bytes
for each character and no zero. -/
theorem decrypt_encrypt (s behind behind' : List Byte) (h : ∀ c ∈ s, c ≠ 0 ∧ c < 128) :
    ∃ text, encrypt (s ++ 0 :: behind) = .ok (some text) ∧ text.length = s.length * 3 ∧
      (∀ d ∈ text, d ≠ 0) ∧ decrypt (text ++ 0 :: behind') = some s := by
  have hseven : ∀ c ∈ s, c < 128 := fun c hc => (h c hc).2
  have hsrc : cstr (s ++ 0 :: behind) = s := cstr_append fun c hc => (h c hc).1
  have hdata : cstr (hexed s) = hexed s := cstr_eq (hexed_ne_zero hseven)
  have heven : (hexed s).length % 2 = 0 := by
    rw [hexed_length]
    omega
  have htext := encryptLoop_ne_zero 0 (hexed s)
  have hlength : (encryptLoop 0 (hexed s)).length = s.length * 3 := by
    rw [encryptLoop_length 0 heven, hexed_length]
    omega
  refine ⟨encryptLoop 0 (hexed s), ?_, hlength, htext, ?_⟩
  · rw [encrypt, hsrc, Str2Hstr_eq hseven]
    dsimp only [bind, Except.bind]
    rw [hdata, if_neg (not_not.mpr heven)]
    rfl
  · rw [decrypt, cstr_append htext, hlength, if_neg (by omega),
      decryptLoop_encryptLoop 0 heven, Option.map_some, hdata, Hstr2Str_hexed hseven]
    rfl

/-- A password of 33 characters, with the last one that has seven bits. -/
def longPassword : List Byte := 127 :: List.replicate 32 'a'.toUInt8

/-- A password of 33 characters. -/
theorem decrypt_encrypt_longPassword : (∀ c ∈ longPassword, c ≠ 0 ∧ c < 128) ∧
    ∃ text, encrypt (longPassword ++ [0]) = .ok (some text) ∧ text.length = 99 ∧
      (∀ d ∈ text, d ≠ 0) ∧ decrypt (text ++ [0]) = some longPassword := by
  have hseven : ∀ c ∈ longPassword, c ≠ 0 ∧ c < 128 := by decide +kernel
  exact ⟨hseven, decrypt_encrypt longPassword [] [] hseven⟩

end CryptUtil
