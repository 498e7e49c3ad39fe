import Mathlib.Tactic.Common

/-!
# Packed telephone numbers

`EBCD_incode` packs the digits of a telephone number two to a byte.  No nibble may be zero, since
the packed number is a C string: `0` is written as A, `#` as B and `*` as C, and F fills up the
last byte of an odd number.  `EBCD_decode` looks the nibbles up in a table and stops at an F.

The codes of the special characters are or-ed onto what `SRC[i] - '0'` has left in the byte, and
that difference is negative for `#` and `*`.  In the high nibble this turns C into E, and in the
low nibble it sets the high one to F as well.  So a number survives exactly when it has no `*` and
each `#` comes first in its byte (`roundTrips_iff_packable`).
-/

namespace BCDUtil

abbrev Byte := UInt8

/-- What is checked of every character. -/
def isDialed (c : Byte) : Bool :=
  !((c < '0'.toUInt8 || c > '9'.toUInt8) && c != '#'.toUInt8 && c != '*'.toUInt8)

/-- `DST[j]` after the first character of a byte; a byte keeps the low bits of an `int`. -/
def packHigh (c : Byte) : Byte :=
  let d := (c - '0'.toUInt8) <<< 4
  let d := if c = '0'.toUInt8 then d ||| 0xA0 else d
  let d := if c = '#'.toUInt8 then d ||| 0xB0 else d
  if c = '*'.toUInt8 then d ||| 0xC0 else d

/-- `DST[j]` after the second one. -/
def packLow (d c : Byte) : Byte :=
  let d := d ||| (c - '0'.toUInt8)
  let d := if c = '0'.toUInt8 then d ||| 0x0A else d
  let d := if c = '#'.toUInt8 then d ||| 0x0B else d
  if c = '*'.toUInt8 then d ||| 0x0C else d

/-- The loop of `EBCD_incode`. -/
def incodeLoop : List Byte → Option (List Byte)
  | [] => some []
  | [a] => if isDialed a then some [packHigh a] else none
  | a :: b :: rest =>
    if isDialed a then
      if isDialed b then (incodeLoop rest).map (packLow (packHigh a) b :: ·) else none
    else none

/-- `EBCD_incode`: the length that it returns, and the bytes that it writes, the zero behind them
included; `none` stands for -1. -/
def EBCD_incode (SRC : List Byte) : Option (Nat × List Byte) :=
  let n := (SRC.length + 1) / 2
  (incodeLoop SRC).map fun DST =>
    let DST := if SRC.length % 2 ≠ 0 then DST.modify (n - 1) (· ||| 0x0F) else DST
    (n, DST ++ [0])

/-- The table of `EBCD_decode`. -/
def s : List Byte :=
  ['0', '1', '2', '3', '4', '5', '6', '7', '8', '9', '0', '#', '*', 'D', 'E', 'F'].map Char.toUInt8

/-- The character of a nibble. -/
def nibbleChar (d : Byte) : Byte := s.getD d.toNat 0

/-- The loop of `EBCD_decode`. -/
def decodeLoop : List Byte → List Byte
  | [] => []
  | d :: rest =>
    let a := nibbleChar ((d &&& 0xF0) >>> 4)
    if a = 'F'.toUInt8 then []
    else
      let b := nibbleChar (d &&& 0x0F)
      if b = 'F'.toUInt8 then [a] else a :: b :: decodeLoop rest

/-- `EBCD_decode` of the C string at the start of some memory; the text without its zero. -/
def EBCD_decode (SRC : List Byte) : List Byte := decodeLoop (SRC.takeWhile (· ≠ 0))

/-! ## One byte -/

/-- The characters of a telephone number. -/
def dialed : List Byte :=
  ['0', '1', '2', '3', '4', '5', '6', '7', '8', '9', '#', '*'].map Char.toUInt8

/-- `#` and `*`, which are less than `0`. -/
def isSpecial (c : Byte) : Bool := c = '#'.toUInt8 || c = '*'.toUInt8

/-- What the table has for the nibble that a character ends up as. -/
def readBack (c : Byte) : Byte := if c = '*'.toUInt8 then 'E'.toUInt8 else c

theorem isDialed_iff (c : Byte) : isDialed c = true ↔ c ∈ dialed := by
  have hcheck : isDialed c = !((c < 48 || c > 57) && c != 35 && c != 42) := rfl
  have hdialed : dialed = [48, 49, 50, 51, 52, 53, 54, 55, 56, 57, 35, 42] := rfl
  rw [hcheck, hdialed]
  simp only [UInt8.lt_iff_toNat_lt, UInt8.reduceToNat, gt_iff_lt, bne, Bool.not_and, Bool.not_or,
    Bool.not_not, Bool.or_eq_true, Bool.and_eq_true, Bool.not_eq_eq_eq_not, Bool.not_true,
    decide_eq_false_iff_not, Nat.not_lt, beq_iff_eq, ← UInt8.toNat_inj, List.mem_cons,
    List.not_mem_nil, or_false]
  omega

/-- A byte of two characters is not zero.  Its low nibble is the second character; its high one is
the first unless the second is less than `0`. -/
theorem packLow_nibbles : ∀ a ∈ dialed, ∀ b ∈ dialed,
    packLow (packHigh a) b ≠ 0 ∧
    nibbleChar ((packLow (packHigh a) b &&& 0xF0) >>> 4) =
      (if isSpecial b then 'F'.toUInt8 else readBack a) ∧
    nibbleChar (packLow (packHigh a) b &&& 0x0F) = readBack b := by
  -- checked along the list: over the type it would be all the 65536 pairs of bytes
  have hall : (dialed.all fun a => dialed.all fun b =>
      packLow (packHigh a) b ≠ 0 ∧
      nibbleChar ((packLow (packHigh a) b &&& 0xF0) >>> 4) =
        (if isSpecial b then 'F'.toUInt8 else readBack a) ∧
      nibbleChar (packLow (packHigh a) b &&& 0x0F) = readBack b) = true := by
    rfl
  simpa using hall

/-- The same of the last byte of an odd number. -/
theorem packHigh_nibbles : ∀ a ∈ dialed,
    packHigh a ||| 0x0F ≠ 0 ∧
    nibbleChar (((packHigh a ||| 0x0F) &&& 0xF0) >>> 4) = readBack a ∧
    nibbleChar ((packHigh a ||| 0x0F) &&& 0x0F) = 'F'.toUInt8 := by
  have hall : (dialed.all fun a =>
      packHigh a ||| 0x0F ≠ 0 ∧
      nibbleChar (((packHigh a ||| 0x0F) &&& 0xF0) >>> 4) = readBack a ∧
      nibbleChar ((packHigh a ||| 0x0F) &&& 0x0F) = 'F'.toUInt8) = true := by
    rfl
  simpa using hall

theorem readBack_ne : ∀ a ∈ dialed, readBack a ≠ 'F'.toUInt8 := by
  intro a ha
  unfold readBack
  split
  · decide
  · intro heq
    subst heq
    exact absurd ha (by decide)

theorem readBack_inj : ∀ a ∈ dialed, ∀ b ∈ dialed, readBack a = readBack b → a = b := by
  have hE : 'E'.toUInt8 ∉ dialed := by decide
  intro a ha b hb heq
  unfold readBack at heq
  split at heq
  · split at heq
    · simp [*]
    · exact absurd (heq ▸ hb) hE
  · split at heq
    · exact absurd (heq ▸ ha) hE
    · exact heq

theorem readBack_eq {c : Byte} : readBack c = c ↔ c ≠ '*'.toUInt8 := by
  unfold readBack
  by_cases hstar : c = '*'.toUInt8
  · rw [if_pos hstar, hstar]
    decide
  · simp [hstar]

/-! ## Whole numbers -/

variable {SRC other rest : List Byte} {a b : Byte}

/-- The bytes of a number. -/
def packed : List Byte → List Byte
  | [] => []
  | [a] => [packHigh a ||| 0x0F]
  | a :: b :: rest => packLow (packHigh a) b :: packed rest

theorem packed_length (SRC : List Byte) : (packed SRC).length = (SRC.length + 1) / 2 := by
  induction SRC using packed.induct with
  | case1 => rfl
  | case2 a => simp [packed]
  | case3 a b rest ih =>
      simp only [packed, List.length_cons, ih]
      omega

/-- The loop packs the pairs, and the filler goes into the last byte. -/
theorem incodeLoop_eq (h : ∀ c ∈ SRC, c ∈ dialed) :
    ∃ DST, incodeLoop SRC = some DST ∧
      (if SRC.length % 2 ≠ 0 then DST.modify ((SRC.length + 1) / 2 - 1) (· ||| 0x0F) else DST) =
        packed SRC := by
  induction SRC using packed.induct with
  | case1 => exact ⟨[], rfl, rfl⟩
  | case2 a =>
      have ha := (isDialed_iff a).mpr (h a (by simp))
      exact ⟨[packHigh a], by simp [incodeLoop, ha], by simp [packed]⟩
  | case3 a b rest ih =>
      have ha := (isDialed_iff a).mpr (h a (by simp))
      have hb := (isDialed_iff b).mpr (h b (by simp))
      obtain ⟨DST, hloop, hfill⟩ := ih fun c hc => h c (by simp [hc])
      refine ⟨packLow (packHigh a) b :: DST, by simp [incodeLoop, ha, hb, hloop], ?_⟩
      have hodd : (a :: b :: rest).length % 2 = rest.length % 2 := by
        simp only [List.length_cons]
        omega
      rw [hodd, packed, ← hfill]
      by_cases hrest : rest.length % 2 = 0
      · simp [hrest]
      · have hlast : ((a :: b :: rest).length + 1) / 2 - 1 = (rest.length + 1) / 2 - 1 + 1 := by
          simp only [List.length_cons]
          omega
        rw [if_pos hrest, if_pos hrest, hlast, List.modify_succ_cons]

/-- Every number is accepted. -/
theorem EBCD_incode_eq (h : ∀ c ∈ SRC, c ∈ dialed) :
    EBCD_incode SRC = some ((SRC.length + 1) / 2, packed SRC ++ [0]) := by
  obtain ⟨DST, hloop, hfill⟩ := incodeLoop_eq h
  unfold EBCD_incode
  rw [hloop, Option.map_some, hfill]

/-- No packed byte ends the C string. -/
theorem packed_ne_zero (h : ∀ c ∈ SRC, c ∈ dialed) : ∀ d ∈ packed SRC, d ≠ 0 := by
  induction SRC using packed.induct with
  | case1 => simp [packed]
  | case2 a =>
      have hbyte := (packHigh_nibbles a (h a (by simp))).1
      exact fun d hd => (List.mem_singleton.mp hd).symm ▸ hbyte
  | case3 a b rest ih =>
      have hpair := (packLow_nibbles a (h a (by simp)) b (h b (by simp))).1
      have hrest := ih fun c hc => h c (by simp [hc])
      simpa [packed] using ⟨hpair, hrest⟩

theorem EBCD_decode_packed (h : ∀ c ∈ SRC, c ∈ dialed) :
    EBCD_decode (packed SRC ++ [0]) = decodeLoop (packed SRC) := by
  have hcut : (packed SRC ++ [0]).takeWhile (· ≠ 0) = packed SRC := by
    rw [List.takeWhile_append_of_pos fun d hd => decide_eq_true (packed_ne_zero h d hd)]
    simp
  rw [EBCD_decode, hcut]

/-- What is read back of the last character of an odd number. -/
theorem decodeLoop_single (ha : a ∈ dialed) : decodeLoop (packed [a]) = [readBack a] := by
  obtain ⟨-, hhigh, hlow⟩ := packHigh_nibbles a ha
  simp only [packed, decodeLoop, hhigh, hlow, readBack_ne a ha, if_false, if_true]

/-- What is read back of two characters: nothing, and the rest is lost as well, if the second one
is less than `0`. -/
theorem decodeLoop_pair (ha : a ∈ dialed) (hb : b ∈ dialed) :
    decodeLoop (packed (a :: b :: rest)) =
      if isSpecial b then [] else readBack a :: readBack b :: decodeLoop (packed rest) := by
  obtain ⟨-, hhigh, hlow⟩ := packLow_nibbles a ha b hb
  by_cases hspecial : isSpecial b = true
  · rw [if_pos hspecial] at hhigh ⊢
    simp only [packed, decodeLoop, hhigh, if_true]
  · rw [if_neg hspecial] at hhigh ⊢
    simp only [packed, decodeLoop, hhigh, hlow, readBack_ne a ha, readBack_ne b hb, if_false]

/-- No `*`, and every `#` is the first character of its byte. -/
def Packable (SRC : List Byte) : Prop :=
  ∀ i, (h : i < SRC.length) → SRC[i] ≠ '*'.toUInt8 ∧ (SRC[i] = '#'.toUInt8 → i % 2 = 0)

theorem packable_nil : Packable [] := fun i hi => absurd hi (by simp)

theorem packable_single : Packable [a] ↔ a ≠ '*'.toUInt8 := by
  constructor
  · intro h
    exact (h 0 (by simp)).1
  · intro h i hi
    obtain rfl : i = 0 := by simpa using hi
    exact ⟨h, fun _ => rfl⟩

theorem packable_pair : Packable (a :: b :: rest) ↔
    a ≠ '*'.toUInt8 ∧ isSpecial b = false ∧ Packable rest := by
  have hspecial : isSpecial b = false ↔ b ≠ '#'.toUInt8 ∧ b ≠ '*'.toUInt8 := by
    simp [isSpecial]
  rw [hspecial]
  constructor
  · intro h
    have hsecond := h 1 (by simp)
    refine ⟨(h 0 (by simp)).1, ⟨fun heq => by simpa using hsecond.2 heq, hsecond.1⟩, ?_⟩
    intro i hi
    have hlater := h (i + 2) (by simpa using hi)
    exact ⟨hlater.1, fun heq => by simpa using hlater.2 heq⟩
  · intro h i hi
    obtain ⟨ha, hb, hrest⟩ := h
    match i with
    | 0 => exact ⟨ha, fun _ => rfl⟩
    | 1 => exact ⟨hb.2, fun heq => absurd heq hb.1⟩
    | i + 2 =>
        have hlater := hrest i (by simpa using hi)
        exact ⟨hlater.1, fun heq => by simpa using hlater.2 heq⟩

/-- A number is read back as it was exactly when it is packable. -/
theorem decodeLoop_packed_iff (h : ∀ c ∈ SRC, c ∈ dialed) :
    decodeLoop (packed SRC) = SRC ↔ Packable SRC := by
  induction SRC using packed.induct with
  | case1 => simpa [packed, decodeLoop] using packable_nil
  | case2 a =>
      rw [decodeLoop_single (h a (by simp)), packable_single, ← readBack_eq]
      simp
  | case3 a b rest ih =>
      have hrest := ih fun c hc => h c (by simp [hc])
      rw [decodeLoop_pair (h a (by simp)) (h b (by simp)), packable_pair, ← hrest]
      by_cases hspecial : isSpecial b = true
      · simp [hspecial]
      · have hb : readBack b = b := readBack_eq.mpr fun heq => hspecial (by simp [isSpecial, heq])
        simp [hspecial, hb, readBack_eq]

/-- The filler is no character. -/
theorem packHigh_ne_packLow {c : Byte} (hc : c ∈ dialed) (ha : a ∈ dialed) (hb : b ∈ dialed) :
    packHigh c ||| 0x0F ≠ packLow (packHigh a) b := by
  intro heq
  have hfiller := (packHigh_nibbles c hc).2.2
  rw [heq, (packLow_nibbles a ha b hb).2.2] at hfiller
  exact readBack_ne b hb hfiller

/-- A packable number has its bytes for itself. -/
theorem packed_inj (h : ∀ c ∈ SRC, c ∈ dialed) (hother : ∀ c ∈ other, c ∈ dialed)
    (hpack : Packable SRC) (heq : packed other = packed SRC) : other = SRC := by
  induction SRC using packed.induct generalizing other with
  | case1 =>
      have hlen := packed_length other
      rw [heq] at hlen
      apply List.eq_nil_of_length_eq_zero
      simp only [packed, List.length_nil] at hlen
      omega
  | case2 a =>
      have ha := h a (by simp)
      match other with
      | [] => simp [packed] at heq
      | [c] =>
          have hc := hother c (by simp)
          have hbyte : packHigh c ||| 0x0F = packHigh a ||| 0x0F := by simpa [packed] using heq
          have hhigh := (packHigh_nibbles c hc).2.1
          rw [hbyte, (packHigh_nibbles a ha).2.1] at hhigh
          rw [readBack_inj a ha c hc hhigh]
      | c :: d :: others =>
          have hbyte := (List.cons.inj heq).1
          exact absurd hbyte.symm
            (packHigh_ne_packLow ha (hother c (by simp)) (hother d (by simp)))
  | case3 a b rest ih =>
      have ha := h a (by simp)
      have hb := h b (by simp)
      obtain ⟨-, hplain, hrest⟩ := packable_pair.mp hpack
      match other with
      | [] => simp [packed] at heq
      | [c] =>
          have hbyte := (List.cons.inj heq).1
          exact absurd hbyte (packHigh_ne_packLow (hother c (by simp)) ha hb)
      | c :: d :: others =>
          have hc := hother c (by simp)
          have hd := hother d (by simp)
          obtain ⟨hbyte, hbytes⟩ := List.cons.inj heq
          obtain ⟨-, hhigh, hlow⟩ := packLow_nibbles c hc d hd
          obtain ⟨-, hhigh', hlow'⟩ := packLow_nibbles a ha b hb
          rw [hbyte] at hhigh hlow
          obtain rfl : d = b := readBack_inj d hd b hb (hlow.symm.trans hlow')
          rw [hhigh', hplain] at hhigh
          obtain rfl : a = c := readBack_inj a ha c hc hhigh
          have htail := ih (fun e he => h e (by simp [he])) (fun e he => hother e (by simp [he]))
            hrest hbytes
          rw [htail]

/-- The number is accepted, its bytes end where they should and are those of no other number, and
it is read back from them. -/
def RoundTrips (SRC : List Byte) : Prop :=
  ∃ n bytes, EBCD_incode SRC = some (n, bytes ++ [0]) ∧ bytes.length = n ∧
    (∀ d ∈ bytes, d ≠ 0) ∧ EBCD_decode (bytes ++ [0]) = SRC ∧
    ∀ other n', (∀ c ∈ other, c ∈ dialed) → EBCD_incode other = some (n', bytes ++ [0]) →
      other = SRC

/-- **A telephone number goes through packing exactly when it has no `*` and each `#` comes first
in its byte.** -/
theorem roundTrips_iff_packable (h : ∀ c ∈ SRC, c ∈ dialed) : RoundTrips SRC ↔ Packable SRC := by
  constructor
  · intro hround
    obtain ⟨n, bytes, hincode, -, -, hdecode, -⟩ := hround
    rw [EBCD_incode_eq h, Option.some.injEq, Prod.mk.injEq] at hincode
    rw [← hincode.2, EBCD_decode_packed h] at hdecode
    exact (decodeLoop_packed_iff h).mp hdecode
  · intro hpack
    refine ⟨_, packed SRC, EBCD_incode_eq h, packed_length SRC, packed_ne_zero h, ?_, ?_⟩
    · rw [EBCD_decode_packed h]
      exact (decodeLoop_packed_iff h).mpr hpack
    · intro other n' hother hincode
      rw [EBCD_incode_eq hother, Option.some.injEq, Prod.mk.injEq, List.append_left_inj] at hincode
      exact packed_inj h hother hpack hincode.2

/-- A number with a `#` in front. -/
def operatorCall : List Byte := ['#', '1', '0'].map Char.toUInt8

theorem roundTrips_operatorCall : (∀ c ∈ operatorCall, c ∈ dialed) ∧ RoundTrips operatorCall := by
  have hdialed : ∀ c ∈ operatorCall, c ∈ dialed := by decide +kernel
  have hpack : Packable operatorCall := by
    simp only [operatorCall, List.map_cons, List.map_nil, packable_pair, packable_single]
    decide
  exact ⟨hdialed, (roundTrips_iff_packable hdialed).mpr hpack⟩

/-- **`1#` is lost**: its only byte is FB, as that of `2#` is, and nothing is read back from it. -/
theorem not_roundTrips_hash :
    (∀ c ∈ ['1', '#'].map Char.toUInt8, c ∈ dialed) ∧
    EBCD_incode (['1', '#'].map Char.toUInt8) = some (1, [0xFB, 0]) ∧
    EBCD_incode (['2', '#'].map Char.toUInt8) = some (1, [0xFB, 0]) ∧
    EBCD_decode [0xFB, 0] = [] ∧
    ¬ RoundTrips (['1', '#'].map Char.toUInt8) := by
  have hincode : EBCD_incode (['1', '#'].map Char.toUInt8) = some (1, [0xFB, 0]) := by
    decide +kernel
  refine ⟨by decide +kernel, hincode, by decide +kernel, by decide +kernel, fun hround => ?_⟩
  obtain ⟨n, bytes, h, -, -, hdecode, -⟩ := hround
  rw [hincode, Option.some.injEq, Prod.mk.injEq] at h
  rw [← h.2] at hdecode
  exact absurd hdecode (by decide +kernel)

end BCDUtil
