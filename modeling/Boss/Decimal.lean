import Mathlib.Data.List.TakeWhile
import Mathlib.Data.Nat.Digits.Defs
import Mathlib.Data.Nat.Digits.Lemmas

/-!
# Decimal numbers as text

`sprintf` with `%ld` and `%10ld`, `atol`, and `sscanf` with `%10ld`, over bytes.  The digits are
those of `Nat.digits`, whose least significant digit comes first, so the text is the reversed list
and reading it from the left is a fold.

Main results:
* `atol_printLong`: `atol` reads what `sprintf` wrote;
* `scanLong_printWidth`: so does `sscanf` with a width, when the text is not longer than the width;
* `readDigits_append`, `readDigits_lt`: the value of digits side by side, and its bound.
-/

namespace Decimal

abbrev Byte := UInt8

/-- The digits of a number as text, `0` for zero. -/
def digitText (n : Nat) : List Byte :=
  if n = 0 then [48] else (Nat.digits 10 n).reverse.map fun d => UInt8.ofNat (48 + d)

/-- `sprintf(.., "%ld", z)`. -/
def printLong : Int → List Byte
  | .ofNat n => digitText n
  | .negSucc n => 45 :: digitText (n + 1)

def isDigit (c : Byte) : Bool := 48 ≤ c.toNat && c.toNat ≤ 57

/-- `isspace`. -/
def isSpace (c : Byte) : Bool := c.toNat = 32 || (9 ≤ c.toNat && c.toNat ≤ 13)

/-- The number that the leading digits of a text stand for. -/
def readDigits (text : List Byte) : Nat :=
  (text.takeWhile isDigit).foldl (fun acc c => acc * 10 + (c.toNat - 48)) 0

/-- `atol`. -/
def atol (text : List Byte) : Int :=
  match text.dropWhile isSpace with
  | [] => 0
  | c :: rest => if c = 45 then -readDigits rest else if c = 43 then readDigits rest
    else readDigits (c :: rest)

/-- `sprintf(.., "%10ld", z)` for a width of 10: at least so many characters. -/
def printWidth (width : Nat) (z : Int) : List Byte :=
  List.replicate (width - (printLong z).length) 32 ++ printLong z

/-- `sscanf(.., "%10ld", ..)` for a width of 10: a number of at most so many characters behind white
space, and what follows it; `none` if there is no number. -/
def scanLong (width : Nat) (text : List Byte) : Option (Int × List Byte) :=
  let s := text.dropWhile isSpace
  let sign := ((s.take width).takeWhile fun c => c = 45 || c = 43).take 1
  let digits := ((s.take width).drop sign.length).takeWhile isDigit
  if digits = [] then none
  else some (atol (sign ++ digits), s.drop (sign.length + digits.length))

theorem toNat_digit {d : Nat} (h : d < 10) : (UInt8.ofNat (48 + d)).toNat = 48 + d := by
  rw [UInt8.toNat_ofNat']
  omega

theorem digitText_digits (n : Nat) : ∀ c ∈ digitText n, isDigit c = true := by
  unfold digitText
  intro c hc
  by_cases hn : n = 0
  · simp only [hn, if_true, List.mem_singleton] at hc
    subst hc
    decide
  · simp only [hn, if_false, List.mem_map, List.mem_reverse] at hc
    obtain ⟨d, hd, rfl⟩ := hc
    have hlt : d < 10 := Nat.digits_lt_base (by omega) hd
    simp only [isDigit, toNat_digit hlt, Bool.and_eq_true, decide_eq_true_eq]
    omega

/-- **Reading the text of a number**, whatever follows its digits. -/
theorem readDigits_digitText (n : Nat) {rest : List Byte}
    (hrest : ∀ c ∈ rest.head?, isDigit c = false) :
    readDigits (digitText n ++ rest) = n := by
  have hstop : (digitText n ++ rest).takeWhile isDigit = digitText n := by
    rw [List.takeWhile_append_of_pos (digitText_digits n)]
    cases rest with
    | nil => simp
    | cons c rest => simp [hrest c (by simp)]
  unfold readDigits
  rw [hstop]
  unfold digitText
  by_cases hn : n = 0
  · simp only [hn, if_true]
    decide
  · simp only [hn, if_false]
    rw [List.foldl_map, List.foldl_reverse]
    have hfold : ∀ digits : List Nat, (∀ d ∈ digits, d < 10) →
        digits.foldr (fun d acc => acc * 10 + ((UInt8.ofNat (48 + d)).toNat - 48)) 0 =
          Nat.ofDigits 10 digits := by
      intro digits hdigits
      induction digits with
      | nil => rfl
      | cons d digits ih =>
          rw [List.foldr_cons, ih fun e he => hdigits e (List.mem_cons_of_mem d he),
            Nat.ofDigits_cons, toNat_digit (hdigits d List.mem_cons_self)]
          omega
    rw [hfold _ fun d hd => Nat.digits_lt_base (by omega) hd, Nat.ofDigits_digits]

theorem digitText_cons (n : Nat) : ∃ c text, digitText n = c :: text := by
  refine List.exists_cons_of_ne_nil ?_
  unfold digitText
  by_cases hn : n = 0
  · simp [hn]
  · simp [hn, Nat.digits_ne_nil_iff_ne_zero.mpr hn]

/-- Digits in front count for as many places as follow them. -/
theorem readDigits_append {text rest : List Byte} (htext : ∀ c ∈ text, isDigit c = true)
    (hrest : ∀ c ∈ rest, isDigit c = true) :
    readDigits (text ++ rest) = readDigits text * 10 ^ rest.length + readDigits rest := by
  have hfold : ∀ (rest : List Byte) (start : Nat),
      rest.foldl (fun acc c => acc * 10 + (c.toNat - 48)) start =
        start * 10 ^ rest.length + rest.foldl (fun acc c => acc * 10 + (c.toNat - 48)) 0 := by
    intro rest
    induction rest with
    | nil => simp
    | cons c rest ih =>
        intro start
        rw [List.foldl_cons, List.foldl_cons, ih, ih (0 * 10 + (c.toNat - 48)), List.length_cons]
        ring
  have hall : ∀ c ∈ text ++ rest, isDigit c = true := fun c hc =>
    (List.mem_append.mp hc).elim (htext c) (hrest c)
  unfold readDigits
  rw [List.takeWhile_eq_self_iff.mpr hall, List.takeWhile_eq_self_iff.mpr htext,
    List.takeWhile_eq_self_iff.mpr hrest, List.foldl_append, hfold]

theorem readDigits_lt {text : List Byte} (htext : ∀ c ∈ text, isDigit c = true) :
    readDigits text < 10 ^ text.length := by
  induction text with
  | nil => decide
  | cons c text ih =>
      have hc : isDigit c = true := htext c List.mem_cons_self
      have htail := ih fun d hd => htext d (List.mem_cons_of_mem c hd)
      have hone : readDigits [c] = c.toNat - 48 := by simp [readDigits, hc]
      have hdigit : c.toNat ≤ 57 := by
        simp only [isDigit, Bool.and_eq_true, decide_eq_true_eq] at hc
        exact hc.2
      have happend : readDigits (c :: text) =
          (c.toNat - 48) * 10 ^ text.length + readDigits text := by
        rw [← hone, ← List.singleton_append]
        exact readDigits_append (by simpa using hc) fun d hd => htext d (List.mem_cons_of_mem c hd)
      have hplace : (c.toNat - 48) * 10 ^ text.length ≤ 9 * 10 ^ text.length :=
        Nat.mul_le_mul_right _ (by omega)
      rw [happend, List.length_cons, Nat.pow_succ]
      omega

/-- A text of digits is read as it is. -/
theorem atol_digits {c : Byte} {text : List Byte} (hc : isDigit c = true) :
    atol (c :: text) = readDigits (c :: text) := by
  have hrange : 48 ≤ c.toNat ∧ c.toNat ≤ 57 := by simpa [isDigit] using hc
  have hspace : isSpace c = false := by
    simp only [isSpace, Bool.or_eq_false_iff, Bool.and_eq_false_iff, decide_eq_false_iff_not]
    omega
  have hminus : c ≠ 45 := by
    rintro rfl
    exact absurd hrange.1 (by decide)
  have hplus : c ≠ 43 := by
    rintro rfl
    exact absurd hrange.1 (by decide)
  simp [atol, hspace, hminus, hplus]

/-- **`atol` reads what `sprintf` wrote.** -/
theorem atol_printLong (z : Int) {rest : List Byte} (hrest : ∀ c ∈ rest.head?, isDigit c = false) :
    atol (printLong z ++ rest) = z := by
  cases z with
  | ofNat n =>
      obtain ⟨c, text, htext⟩ := digitText_cons n
      have hread := readDigits_digitText n hrest
      have hc : isDigit c = true := digitText_digits n c (by rw [htext]; simp)
      simp only [printLong]
      rw [htext, List.cons_append] at hread ⊢
      rw [atol_digits hc, hread]
      rfl
  | negSucc n =>
      have hread := readDigits_digitText (n + 1) hrest
      have hspace : isSpace 45 = false := by decide
      have hsign : atol (printLong (.negSucc n) ++ rest) =
          -readDigits (digitText (n + 1) ++ rest) := by
        simp [printLong, atol, hspace]
      rw [hsign, hread]
      rfl

/-- A number is its sign and its digits, at least one. -/
theorem printLong_eq (z : Int) : ∃ sign digits, printLong z = sign ++ digits ∧
    (sign = [] ∨ sign = [45]) ∧ digits ≠ [] ∧ ∀ c ∈ digits, isDigit c = true := by
  cases z with
  | ofNat n =>
      obtain ⟨c, text, htext⟩ := digitText_cons n
      exact ⟨[], digitText n, rfl, .inl rfl, by simp [htext], digitText_digits n⟩
  | negSucc n =>
      obtain ⟨c, text, htext⟩ := digitText_cons (n + 1)
      exact ⟨[45], digitText (n + 1), rfl, .inr rfl, by simp [htext], digitText_digits (n + 1)⟩

theorem isSpace_of_isDigit {c : Byte} (h : isDigit c = true) : isSpace c = false := by
  have hrange : 48 ≤ c.toNat ∧ c.toNat ≤ 57 := by simpa [isDigit] using h
  simp only [isSpace, Bool.or_eq_false_iff, Bool.and_eq_false_iff, decide_eq_false_iff_not]
  omega

/-- No number begins with white space, and only its sign is not a digit. -/
theorem scan_parts {sign digits rest : List Byte} {width : Nat} (hsign : sign = [] ∨ sign = [45])
    (hne : digits ≠ []) (hdigits : ∀ c ∈ digits, isDigit c = true)
    (hwidth : (sign ++ digits).length ≤ width) (hrest : ∀ c ∈ rest.head?, isDigit c = false) :
    (sign ++ digits ++ rest).dropWhile isSpace = sign ++ digits ++ rest ∧
      (((sign ++ digits ++ rest).take width).takeWhile fun c => c = 45 || c = 43).take 1 = sign ∧
      (((sign ++ digits ++ rest).take width).drop sign.length).takeWhile isDigit = digits := by
  obtain ⟨c, more, rfl⟩ := List.exists_cons_of_ne_nil hne
  have hc : isDigit c = true := hdigits c List.mem_cons_self
  have hspace := isSpace_of_isDigit hc
  have hnosign : (c = 45 || c = 43) = false := by
    have hrange : 48 ≤ c.toNat ∧ c.toNat ≤ 57 := by simpa [isDigit] using hc
    simp only [Bool.or_eq_false_iff, decide_eq_false_iff_not]
    constructor <;> rintro rfl <;> exact absurd hrange.1 (by decide)
  have htake : (sign ++ c :: more ++ rest).take width =
      sign ++ (c :: more ++ rest.take (width - (sign ++ c :: more).length)) := by
    rw [List.take_append, List.take_of_length_le hwidth, List.append_assoc]
  have hhead : ∀ d ∈ (rest.take (width - (sign ++ c :: more).length)).head?,
      isDigit d = false := by
    cases rest with
    | nil => simp
    | cons d rest =>
        cases width - (sign ++ c :: more).length with
        | zero => simp
        | succ n => simpa using hrest d rfl
  refine ⟨?_, ?_, ?_⟩
  · rcases hsign with rfl | rfl
    · simp [hspace]
    · simp [show isSpace 45 = false by decide]
  · rw [htake]
    rcases hsign with rfl | rfl
    · simp [hnosign]
    · simp
  · rw [htake, List.drop_left, List.takeWhile_append_of_pos hdigits]
    cases hmore : rest.take (width - (sign ++ c :: more).length) with
    | nil => simp
    | cons d rest' =>
        rw [hmore] at hhead
        simp [hhead d rfl]

/-- **`sscanf` with a width reads what `sprintf` with it wrote**, if it is not longer than the
width. -/
theorem scanLong_printWidth {width : Nat} {z : Int} {rest : List Byte}
    (hwidth : (printLong z).length ≤ width) (hrest : ∀ c ∈ rest.head?, isDigit c = false) :
    scanLong width (printWidth width z ++ rest) = some (z, rest) := by
  obtain ⟨sign, digits, htext, hsign, hne, hdigits⟩ := printLong_eq z
  have hread : atol (printLong z ++ []) = z := atol_printLong z (by simp)
  rw [List.append_nil, htext] at hread
  rw [htext] at hwidth
  obtain ⟨hspace, hfirst, hthen⟩ := scan_parts hsign hne hdigits hwidth hrest
  have hskip : (printWidth width z ++ rest).dropWhile isSpace = sign ++ digits ++ rest := by
    rw [printWidth, List.append_assoc, List.dropWhile_append_of_pos, htext, hspace]
    intro c hc
    obtain ⟨-, rfl⟩ := List.mem_replicate.mp hc
    decide
  unfold scanLong
  rw [hskip]
  dsimp only
  rw [hfirst, hthen, if_neg hne, hread, ← List.length_append, List.drop_left]

/-- No byte of the text ends it. -/
theorem printLong_ne_zero (z : Int) : ∀ c ∈ printLong z, c ≠ 0 := by
  have hdigits : ∀ n, ∀ c ∈ digitText n, c ≠ 0 := by
    rintro n c hc rfl
    exact absurd (digitText_digits n 0 hc) (by decide)
  cases z with
  | ofNat n => exact hdigits n
  | negSucc n =>
      intro c hc
      rcases List.mem_cons.mp hc with rfl | hc
      · decide
      · exact hdigits _ c hc

theorem digitText_length {n k : Nat} (hk : 0 < k) (hn : n < 10 ^ k) :
    (digitText n).length ≤ k := by
  unfold digitText
  by_cases hzero : n = 0
  · simp only [hzero, if_true, List.length_singleton]
    exact hk
  · simp only [hzero, if_false, List.length_map, List.length_reverse]
    exact (Nat.digits_length_le_iff (by omega) n).mpr hn

end Decimal
