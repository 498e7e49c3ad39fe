import Boss.Expression
import Boss.RecordConvert

/-!
# The order of number columns

A number is stored as its bytes, and the operators of a filter compare bytes: `memcmp` decides
by the first byte that differs, taken without a sign.  On a machine that stores the lowest
byte first that is the lowest byte in which the numbers differ, on one that stores the highest
byte first it is the byte with the sign.  So the operators follow the order of the numbers
just where that byte does (`operators_follow_iff`).
-/

namespace ColumnOrder

open Decimal Expression
open RecordConvert (COLUMN_VAR_TYPE)

/-! ## Bytes of numbers -/

/-- Which byte of a number has the lowest address. -/
inductive ByteOrder
  | little
  | big
  deriving DecidableEq

/-- A byte of a number in two's complement, the lowest one first. -/
def digit (z : Int) (k : Nat) : Nat := (z / (256 ^ k : Nat) % 256).toNat

/-- The byte of a number of `w` bytes that lies at the `i`-th address. -/
def ByteOrder.byteAt (order : ByteOrder) (w : Nat) (z : Int) (i : Nat) : Nat :=
  match order with
  | .little => digit z i
  | .big => digit z (w - 1 - i)

/-- The `w` bytes of a number in memory. -/
def numberBytes (order : ByteOrder) (w : Nat) (z : Int) : List Byte :=
  (List.range w).map fun i => UInt8.ofNat (order.byteAt w z i)

theorem byteAt_lt (order : ByteOrder) (w : Nat) (z : Int) (i : Nat) :
    order.byteAt w z i < 256 := by
  cases order <;> simp only [ByteOrder.byteAt, digit] <;> omega

@[simp] theorem length_numberBytes (order : ByteOrder) (w : Nat) (z : Int) :
    (numberBytes order w z).length = w := by
  simp [numberBytes]

theorem numberBytes_getElem {order : ByteOrder} {w : Nat} {z : Int} {i : Nat} (hi : i < w) :
    (numberBytes order w z)[i]? = some (UInt8.ofNat (order.byteAt w z i)) := by
  simp [numberBytes, hi]

/-- The bytes of two numbers, compared at one address. -/
theorem byte_inj {order : ByteOrder} {w i : Nat} {a b : Int} :
    UInt8.ofNat (order.byteAt w a i) = UInt8.ofNat (order.byteAt w b i) ↔
      order.byteAt w a i = order.byteAt w b i := by
  constructor
  · intro h
    have hnat := congrArg UInt8.toNat h
    rwa [UInt8.toNat_ofNat_of_lt' (byteAt_lt order w a i),
      UInt8.toNat_ofNat_of_lt' (byteAt_lt order w b i)] at hnat
  · intro h
    rw [h]

/-! ## `memcmp` -/

theorem memcmp_self (xs : List Byte) : memcmp xs xs = 0 := by
  induction xs with
  | nil => rfl
  | cons x xs ih => simp [memcmp, ih]

/-- Rows of one length are equal, or the first byte that differs decides. -/
theorem memcmp_cases {xs ys : List Byte} (hlen : xs.length = ys.length) :
    xs = ys ∨ ∃ i x y, xs.take i = ys.take i ∧ xs[i]? = some x ∧ ys[i]? = some y ∧ x ≠ y ∧
      memcmp xs ys = (x.toNat : Int) - y.toNat := by
  induction xs generalizing ys with
  | nil =>
      left
      exact (List.length_eq_zero_iff.mp hlen.symm).symm
  | cons x xs ih =>
      cases ys with
      | nil => simp at hlen
      | cons y ys =>
          by_cases hxy : x = y
          · subst hxy
            rcases ih (by simpa using hlen) with heq | ⟨i, u, v, htake, hu, hv, hne, hcmp⟩
            · exact Or.inl (by rw [heq])
            · refine Or.inr ⟨i + 1, u, v, ?_, hu, hv, hne, ?_⟩
              · rw [List.take_succ_cons, List.take_succ_cons, htake]
              · rw [memcmp, if_pos rfl, hcmp]
          · exact Or.inr ⟨0, x, y, rfl, rfl, rfl, hxy, by rw [memcmp, if_neg hxy]⟩

/-- At the first of `n` addresses where the bytes of the numbers differ, they are in the order of
the numbers. -/
def OrderedAlike (order : ByteOrder) (w n : Nat) (a b : Int) : Prop :=
  a = b ∨ ∃ i < n, (∀ j < i, order.byteAt w a j = order.byteAt w b j) ∧
    order.byteAt w a i ≠ order.byteAt w b i ∧
    (order.byteAt w a i < order.byteAt w b i ↔ a < b)

/-- `memcmp` over the first `n` bytes of two numbers. -/
def compared (order : ByteOrder) (w n : Nat) (a b : Int) : Int :=
  memcmp ((numberBytes order w a).take n) ((numberBytes order w b).take n)

/-- The first of the `n` bytes that differs gives the result of `memcmp`. -/
theorem memcmp_numberBytes {order : ByteOrder} {w n : Nat} (hn : n ≤ w) {a b : Int} {i : Nat}
    (hi : i < n) (hsame : ∀ j < i, order.byteAt w a j = order.byteAt w b j)
    (hne : order.byteAt w a i ≠ order.byteAt w b i) :
    compared order w n a b = (order.byteAt w a i : Int) - order.byteAt w b i := by
  unfold compared
  have hget : ∀ (z : Int) (j : Nat), j < n → ((numberBytes order w z).take n)[j]? =
      some (UInt8.ofNat (order.byteAt w z j)) := by
    intro z j hj
    rw [List.getElem?_take_of_lt hj, numberBytes_getElem (by omega)]
  have hlen : ((numberBytes order w a).take n).length = ((numberBytes order w b).take n).length := by
    simp
  rcases memcmp_cases hlen with heq | ⟨k, x, y, htake, hx, hy, hxy, hcmp⟩
  · have hbyte := hget a i hi
    rw [heq, hget b i hi, Option.some.injEq, byte_inj] at hbyte
    exact absurd hbyte.symm hne
  · have hk : k < n := by
      have := (List.getElem?_eq_some_iff.mp hx).1
      simp at this
      omega
    rw [hget a k hk, Option.some.injEq] at hx
    rw [hget b k hk, Option.some.injEq] at hy
    subst hx hy
    have hki : k = i := by
      rcases Nat.lt_trichotomy k i with hlt | heq | hgt
      · exact absurd (byte_inj.mpr (hsame k hlt)) hxy
      · exact heq
      · -- the rows agree up to `k`, and so at `i`
        have hat := congrArg (fun l : List Byte => l[i]?) htake
        simp only [List.getElem?_take_of_lt hgt, hget a i hi, hget b i hi, Option.some.injEq,
          byte_inj] at hat
        exact absurd hat hne
    subst hki
    rw [hcmp, UInt8.toNat_ofNat_of_lt' (byteAt_lt order w a k),
      UInt8.toNat_ofNat_of_lt' (byteAt_lt order w b k)]

/-- `memcmp` has the sign of the difference just for numbers that are ordered alike. -/
theorem sign_memcmp_iff {order : ByteOrder} {w n : Nat} (hn : n ≤ w) (a b : Int) :
    ((0 < compared order w n a b ↔ b < a) ∧ (compared order w n a b < 0 ↔ a < b)) ↔
      OrderedAlike order w n a b := by
  have hself : ∀ z, compared order w n z z = 0 := fun z => memcmp_self _
  constructor
  · intro hsign
    by_cases hab : a = b
    · exact Or.inl hab
    · right
      have hlen : ((numberBytes order w a).take n).length =
          ((numberBytes order w b).take n).length := by
        simp
      rcases memcmp_cases hlen with heq | ⟨i, x, y, htake, hx, hy, hxy, -⟩
      · rw [compared, heq, memcmp_self] at hsign
        omega
      · have hi : i < n := by
          have := (List.getElem?_eq_some_iff.mp hx).1
          simp at this
          omega
        rw [List.getElem?_take_of_lt hi, numberBytes_getElem (by omega), Option.some.injEq] at hx hy
        subst hx hy
        have hsame : ∀ j < i, order.byteAt w a j = order.byteAt w b j := by
          intro j hj
          have hat := congrArg (fun l : List Byte => l[j]?) htake
          simp only [List.getElem?_take_of_lt hj, List.getElem?_take_of_lt (hj.trans hi)] at hat
          rw [numberBytes_getElem (by omega), numberBytes_getElem (by omega), Option.some.injEq,
            byte_inj] at hat
          exact hat
        have hne : order.byteAt w a i ≠ order.byteAt w b i := fun h => hxy (byte_inj.mpr h)
        have hcmp := memcmp_numberBytes hn hi hsame hne
        refine ⟨i, hi, hsame, hne, ?_⟩
        rw [hcmp] at hsign
        omega
  · intro halike
    rcases halike with rfl | ⟨i, hi, hsame, hne, hlt⟩
    · rw [hself]
      omega
    · have hab : a ≠ b := by
        rintro rfl
        exact hne rfl
      rw [memcmp_numberBytes hn hi hsame hne]
      omega

/-! ## Columns of records -/

/-- The size of the types that hold an integer. -/
def integerSize : COLUMN_VAR_TYPE → Option Nat
  | .INT => some 4
  | .LONG => some 8
  | _ => none

/-- `memcpy` to a place in a record. -/
def overwrite (mem : List Byte) (offSet : Nat) (bytes : List Byte) : Option (List Byte) :=
  if offSet + bytes.length ≤ mem.length then
    some (mem.take offSet ++ bytes ++ mem.drop (offSet + bytes.length))
  else none

/-- `RecordConvert::setColumnValue`; `m_type` is the type that the table gives the column. -/
def setColumnValue (m_type : COLUMN_VAR_TYPE) (r : RecordConvert) (columnName value : List Byte) :
    Option RecordConvert :=
  match r.column columnName with
  | none => some r
  | some c =>
    if m_type = .NUMSTR ∨ m_type = .VSTR then
      ((overwrite r.m_value c.m_offSet (List.replicate c.m_len 0)).bind fun cleared =>
        overwrite cleared c.m_offSet (cString value)).map fun v => { r with m_value := v }
    else if c.m_len ≤ value.length then
      (overwrite r.m_value c.m_offSet (value.take c.m_len)).map fun v => { r with m_value := v }
    else none

/-- What is written to a place is read from it. -/
theorem overwrite_read {mem : List Byte} {offSet : Nat} {bytes : List Byte}
    (h : offSet + bytes.length ≤ mem.length) :
    ∃ v, overwrite mem offSet bytes = some v ∧ v.length = mem.length ∧
      (v.drop offSet).take bytes.length = bytes := by
  refine ⟨_, if_pos h, ?_, ?_⟩
  · simp
    omega
  · have hlen : (mem.take offSet).length = offSet := List.length_take_of_le (by omega)
    rw [List.append_assoc, List.drop_append_of_le_length hlen.ge, List.drop_of_length_le hlen.le,
      List.nil_append, List.take_left]

/-- A number that is set is what the column has afterwards. -/
theorem setColumnValue_spec {m_type : COLUMN_VAR_TYPE} {w : Nat} (hw : integerSize m_type = some w)
    {r : RecordConvert} {columnName : List Byte} {c : Expression.ColumnDef}
    (hc : r.column columnName = some c) (hlen : c.m_len ≤ w)
    (hin : c.m_offSet + c.m_len ≤ r.m_value.length) {value : List Byte} (hvalue : value.length = w) :
    ∃ r', setColumnValue m_type r columnName value = some r' ∧
      r'.getColumnValue columnName = some (value.take c.m_len) := by
  have hnumber : ¬ (m_type = .NUMSTR ∨ m_type = .VSTR) := by
    rintro (rfl | rfl) <;> cases hw
  have hsize : c.m_len ≤ 8 := by
    cases m_type <;> cases hw <;> omega
  have htake : (value.take c.m_len).length = c.m_len := List.length_take_of_le (by omega)
  have hfits : c.m_offSet + (value.take c.m_len).length ≤ r.m_value.length := by omega
  obtain ⟨v, hv, hvlen, hread⟩ := overwrite_read hfits
  refine ⟨{ r with m_value := v }, ?_, ?_⟩
  · unfold setColumnValue
    rw [hc]
    dsimp only
    rw [if_neg hnumber, if_pos (by omega), hv]
    rfl
  · have hcolumn : Expression.RecordConvert.column { r with m_value := v } columnName = some c := hc
    rw [Expression.RecordConvert.getColumnValue, hcolumn]
    rw [htake] at hread
    simp only [Option.bind_some]
    rw [if_pos ⟨by rw [MAX_COLUMN_LEN]; omega, by omega⟩, hread]

/-- The four operators on a column and a parameter. -/
structure Follows (r : RecordConvert) (pParameters : List (List Byte)) (columnName : List Byte)
    (num : Nat) (a b : Int) : Prop where
  gt : evaluate r pParameters (.comparison .gt columnName num) = some (decide (a > b))
  ge : evaluate r pParameters (.comparison .ge columnName num) = some (decide (a ≥ b))
  lt : evaluate r pParameters (.comparison .lt columnName num) = some (decide (a < b))
  le : evaluate r pParameters (.comparison .le columnName num) = some (decide (a ≤ b))

/-- The operators give what `memcmp` says of the bytes. -/
theorem evaluate_comparison {r : RecordConvert} {pParameters : List (List Byte)}
    {columnName value parameter : List Byte} {num : Nat}
    (hvalue : r.getColumnValue columnName = some value) (hparam : pParameters[num]? = some parameter)
    (hlen : value.length ≤ parameter.length) {operat : Comparison} (hop : operat ≠ .neq) :
    evaluate r pParameters (.comparison operat columnName num) =
      some (operat.test (memcmp value (parameter.take value.length))) := by
  rw [evaluate, hvalue, Option.bind_some, if_neg (by omega), Int.toNat_natCast, hparam,
    Option.bind_some, compareColumn, if_neg hop, if_pos hlen]

/-- **The operators and the order of integers.**  After a column of an integer type is set to
`a`, its four operators with the parameter `b` follow the order of the numbers just where
their first bytes that differ do. -/
theorem operators_follow_iff (order : ByteOrder) {m_type : COLUMN_VAR_TYPE} {w : Nat}
    (hw : integerSize m_type = some w) {r : RecordConvert} {columnName : List Byte}
    {c : Expression.ColumnDef} (hc : r.column columnName = some c) (hlen : c.m_len ≤ w)
    (hin : c.m_offSet + c.m_len ≤ r.m_value.length) (a b : Int)
    {pParameters : List (List Byte)} {num : Nat} {behind : List Byte}
    (hparam : pParameters[num]? = some (numberBytes order w b ++ behind)) :
    ∃ r', setColumnValue m_type r columnName (numberBytes order w a) = some r' ∧
      (Follows r' pParameters columnName num a b ↔ OrderedAlike order w c.m_len a b) := by
  obtain ⟨r', hset, hread⟩ :=
    setColumnValue_spec hw hc hlen hin (length_numberBytes order w a)
  refine ⟨r', hset, ?_⟩
  have hvalue : ((numberBytes order w a).take c.m_len).length = c.m_len := by
    simpa using hlen
  have hparameter : (numberBytes order w b ++ behind).take c.m_len =
      (numberBytes order w b).take c.m_len :=
    List.take_append_of_le_length (by simpa using hlen)
  have heval : ∀ operat : Comparison, operat ≠ .neq →
      evaluate r' pParameters (.comparison operat columnName num) =
        some (operat.test (compared order w c.m_len a b)) := by
    intro operat hop
    rw [evaluate_comparison hread hparam (by simp) hop, hvalue, hparameter, compared]
  rw [← sign_memcmp_iff hlen]
  constructor
  · intro h
    have hgt := (heval .gt (by decide)).symm.trans h.gt
    have hlt := (heval .lt (by decide)).symm.trans h.lt
    simp only [Comparison.test, Option.some.injEq, decide_eq_decide] at hgt hlt
    exact ⟨hgt, hlt⟩
  · intro h
    constructor
    all_goals
      rw [heval _ (by decide)]
      simp only [Comparison.test, Option.some.injEq, decide_eq_decide]
      omega

/-- A table with one column, and a record of it. -/
def oneColumn (m_len : Nat) : RecordConvert :=
  ⟨[⟨text ['n'], 0, m_len⟩], List.replicate 8 0⟩

theorem operators_follow_iff_long :
    ∃ r', setColumnValue .LONG (oneColumn 8) (text ['n']) (numberBytes .big 8 (-2)) = some r' ∧
      (Follows r' [numberBytes .big 8 (-1) ++ []] (text ['n']) 0 (-2) (-1) ↔
        OrderedAlike .big 8 8 (-2) (-1)) :=
  operators_follow_iff .big rfl (c := ⟨text ['n'], 0, 8⟩) rfl (by decide) (by decide)
    (-2) (-1) rfl

/-- The operators on a column of type `INT` follow the order of all numbers. -/
def FollowsAlways (order : ByteOrder) : Prop :=
  ∀ a b : Int, (-2 ^ 31 ≤ a ∧ a < 2 ^ 31) → (-2 ^ 31 ≤ b ∧ b < 2 ^ 31) →
    ∃ r', setColumnValue .INT (oneColumn 4) (text ['n']) (numberBytes order 4 a) = some r' ∧
      Follows r' [numberBytes order 4 b] (text ['n']) 0 a b

/-- With the lowest byte first 256 is not larger than 1, with the highest first -1 is not
smaller than 1. -/
theorem operators_not_follow : ¬ FollowsAlways .little ∧ ¬ FollowsAlways .big := by
  constructor
  · intro h
    obtain ⟨r', hset, hfollows⟩ := h 256 1 (by decide) (by decide)
    have hgt : (setColumnValue .INT (oneColumn 4) (text ['n']) (numberBytes .little 4 256)).bind
        (fun r => evaluate r [numberBytes .little 4 1] (.comparison .gt (text ['n']) 0)) =
          some false := by decide
    rw [hset, Option.bind_some, show (0 : Int) = ((0 : Nat) : Int) from rfl, hfollows.gt] at hgt
    revert hgt
    decide
  · intro h
    obtain ⟨r', hset, hfollows⟩ := h (-1) 1 (by decide) (by decide)
    have hlt : (setColumnValue .INT (oneColumn 4) (text ['n']) (numberBytes .big 4 (-1))).bind
        (fun r => evaluate r [numberBytes .big 4 1] (.comparison .lt (text ['n']) 0)) =
          some false := by decide
    rw [hset, Option.bind_some, show (0 : Int) = ((0 : Nat) : Int) from rfl, hfollows.lt] at hlt
    revert hlt
    decide

end ColumnOrder
