import Boss.ExpressionParse

/-!
# Filter expressions: what they mean

A comparison means that the bytes of a column stand in an order relation to the bytes of a
parameter, and `memcmp` over the length of the column decides that order (`memcmp_eq_zero`,
`memcmp_neg`).  Together with the parser, the text of a tree evaluates to the meaning of the
tree.

The columns must not have parentheses in their names: the pairs are counted in the text of
the whole expression.
-/

namespace Expression

open Decimal

/-! ## The order that `memcmp` decides -/

/-- The order of byte strings. -/
def before : List Byte → List Byte → Prop := List.Lex fun a b => a < b

theorem memcmp_eq_zero {a b : List Byte} (hlen : a.length = b.length) : memcmp a b = 0 ↔ a = b := by
  induction a generalizing b with
  | nil => simp [memcmp, List.length_eq_zero_iff.mp hlen.symm]
  | cons c a ih =>
      cases b with
      | nil => simp at hlen
      | cons d b =>
          unfold memcmp
          by_cases hc : c = d
          · rw [if_pos hc, ih (by simpa using hlen), hc]
            simp
          · have hnat : c.toNat ≠ d.toNat := fun h => hc (UInt8.toNat_inj.mp h)
            rw [if_neg hc]
            simp only [List.cons.injEq, hc, false_and, iff_false]
            omega

theorem memcmp_neg {a b : List Byte} (hlen : a.length = b.length) : memcmp a b < 0 ↔ before a b := by
  unfold before
  induction a generalizing b with
  | nil => simp [memcmp, List.length_eq_zero_iff.mp hlen.symm]
  | cons c a ih =>
      cases b with
      | nil => simp at hlen
      | cons d b =>
          unfold memcmp
          rw [List.cons_lex_cons_iff]
          by_cases hc : c = d
          · rw [if_pos hc, ih (by simpa using hlen)]
            simp [hc]
          · rw [if_neg hc]
            simp only [UInt8.lt_iff_toNat_lt, hc, false_and, or_false]
            omega

theorem memcmp_swap (a b : List Byte) : memcmp b a = -memcmp a b := by
  induction a generalizing b with
  | nil => cases b <;> rfl
  | cons c a ih =>
      cases b with
      | nil => rfl
      | cons d b =>
          unfold memcmp
          by_cases hc : c = d
          · rw [if_pos hc, if_pos hc.symm, ih]
          · rw [if_neg hc, if_neg (Ne.symm hc)]
            omega

theorem memcmp_pos {a b : List Byte} (hlen : a.length = b.length) : 0 < memcmp a b ↔ before b a := by
  rw [← memcmp_neg hlen.symm, memcmp_swap a b]
  omega

/-! ## Meaning -/

/-- What a comparison says about a column and a parameter.  All but `neq` look at as many bytes
as the column has. -/
def Comparison.compares : Comparison → List Byte → List Byte → Prop
  | .eq, column, parameter => column = parameter.take column.length
  | .ne, column, parameter => column ≠ parameter.take column.length
  | .lt, column, parameter => before column (parameter.take column.length)
  | .le, column, parameter => before column (parameter.take column.length) ∨
      column = parameter.take column.length
  | .gt, column, parameter => before (parameter.take column.length) column
  | .ge, column, parameter => before (parameter.take column.length) column ∨
      column = parameter.take column.length
  | .neq, column, parameter => cString column <+: cString parameter ∨
      cString parameter <+: cString column

/-- What a tree says about a record and a list of parameters. -/
def Meaning (r : RecordConvert) (pParameters : List (List Byte)) : Operator → Prop
  | .comparison operat name num => ∃ column parameter, r.getColumnValue name = some column ∧
      pParameters[num.toNat]? = some parameter ∧ operat.compares column parameter
  | .and left right => Meaning r pParameters left ∧ Meaning r pParameters right
  | .or left right => Meaning r pParameters left ∨ Meaning r pParameters right

/-- The record has the columns and the list has the parameters that a tree speaks of, each at
least as long as its column. -/
def Fits (r : RecordConvert) (pParameters : List (List Byte)) : Operator → Prop
  | .comparison operat name num => 0 ≤ num ∧ ∃ column parameter,
      r.getColumnValue name = some column ∧ pParameters[num.toNat]? = some parameter ∧
        (operat ≠ .neq → column.length ≤ parameter.length)
  | .and left right => Fits r pParameters left ∧ Fits r pParameters right
  | .or left right => Fits r pParameters left ∧ Fits r pParameters right

/-- Two strings agree as far as both go exactly if one is the beginning of the other. -/
theorem take_length_eq {a b : List Byte} :
    a.take b.length = b.take a.length ↔ a <+: b ∨ b <+: a := by
  rcases Nat.le_total a.length b.length with hle | hle
  · rw [List.take_of_length_le hle, ← List.prefix_iff_eq_take]
    refine ⟨.inl, ?_⟩
    rintro (h | h)
    · exact h
    · rw [h.eq_of_length (le_antisymm h.length_le hle)]
  · rw [List.take_of_length_le hle, eq_comm, ← List.prefix_iff_eq_take]
    refine ⟨.inr, ?_⟩
    rintro (h | h)
    · rw [h.eq_of_length (le_antisymm h.length_le hle)]
    · exact h

theorem compareColumn_spec {operat : Comparison} {column parameter : List Byte}
    (hlen : operat ≠ .neq → column.length ≤ parameter.length) :
    ∃ b, compareColumn operat column parameter = some b ∧
      (b = true ↔ operat.compares column parameter) := by
  by_cases hneq : operat = .neq
  · subst hneq
    have heq : ((cString column).take (cString parameter).length).length
        = ((cString parameter).take (cString column).length).length := by
      simp only [List.length_take]
      omega
    refine ⟨_, by rw [compareColumn, if_pos rfl], ?_⟩
    rw [Comparison.test, decide_eq_true_eq, memcmp_eq_zero heq, take_length_eq]
    rfl
  · have hle := hlen hneq
    have heq : column.length = (parameter.take column.length).length := by
      rw [List.length_take]
      omega
    refine ⟨_, by rw [compareColumn, if_neg hneq, if_pos hle], ?_⟩
    have hzero := memcmp_eq_zero heq
    have hneg := memcmp_neg heq
    have hpos := memcmp_pos heq
    cases operat with
    | neq => exact absurd rfl hneq
    | eq => simpa [Comparison.test, Comparison.compares] using hzero
    | ne => simpa [Comparison.test, Comparison.compares] using not_congr hzero
    | lt => simpa [Comparison.test, Comparison.compares] using hneg
    | gt => simpa [Comparison.test, Comparison.compares] using hpos
    | le =>
        rw [Comparison.test, Comparison.compares, decide_eq_true_eq, ← hneg, ← hzero]
        omega
    | ge =>
        rw [Comparison.test, Comparison.compares, decide_eq_true_eq, ← hpos, ← hzero]
        omega

/-- **Evaluation decides the meaning** of a tree. -/
theorem evaluate_spec {r : RecordConvert} {pParameters : List (List Byte)} {tree : Operator}
    (h : Fits r pParameters tree) :
    ∃ b, evaluate r pParameters tree = some b ∧ (b = true ↔ Meaning r pParameters tree) := by
  induction tree with
  | comparison operat name num =>
      obtain ⟨hnum, column, parameter, hcolumn, hparameter, hlen⟩ := h
      obtain ⟨b, hb, hspec⟩ := compareColumn_spec hlen
      refine ⟨b, ?_, ?_⟩
      · rw [evaluate, hcolumn, Option.bind_some, if_neg (by omega), hparameter, Option.bind_some, hb]
      · rw [hspec, Meaning, hcolumn, hparameter]
        simp
  | and left right ihleft ihright =>
      obtain ⟨b, hb, hleft⟩ := ihleft h.1
      obtain ⟨c, hc, hright⟩ := ihright h.2
      refine ⟨b && c, ?_, ?_⟩
      · rw [evaluate, hb, hc]
        cases b <;> rfl
      · rw [Meaning, ← hleft, ← hright, Bool.and_eq_true]
  | or left right ihleft ihright =>
      obtain ⟨b, hb, hleft⟩ := ihleft h.1
      obtain ⟨c, hc, hright⟩ := ihright h.2
      refine ⟨b || c, ?_, ?_⟩
      · rw [evaluate, hb, hc]
        cases b <;> rfl
      · rw [Meaning, ← hleft, ← hright, Bool.or_eq_true]

/-! ## From the text to the meaning -/

/-- A tree of comparisons other than `neq` of named columns with numbered parameters. -/
def OverColumns (named : List Byte → Prop) : Operator → Prop
  | .comparison operat name num => operat ≠ .neq ∧ named name ∧ 0 ≤ num ∧ num < 2 ^ 31
  | .and left right => OverColumns named left ∧ OverColumns named right
  | .or left right => OverColumns named left ∧ OverColumns named right

/-- The text of a tree, with blanks around `and` and `or` only. -/
def print : Operator → List Byte
  | .comparison operat name num => name ++ (operat.mark ++ parameter num.toNat)
  | .and left right => (lparen :: (print left ++ [rparen])) ++
      (text [' '] ++ (text ['a', 'n', 'd'] ++ (text [' '] ++ (lparen :: (print right ++ [rparen])))))
  | .or left right => (lparen :: (print left ++ [rparen])) ++
      (text [' '] ++ (text ['o', 'r'] ++ (text [' '] ++ (lparen :: (print right ++ [rparen])))))

theorem print_printed {tree : Operator} (h : OverColumns ColumnName tree) :
    Printed tree (print tree) := by
  have hnil : ∀ c ∈ ([] : List Byte), isBlank c = true := by simp
  have hblank : ∀ c ∈ text [' '], isBlank c = true := forall_mem_of_all (by decide)
  induction tree with
  | comparison operat name num =>
      obtain ⟨hoperat, hname, hnum, hbound⟩ := h
      have hprinted :=
        Printed.comparison (n := num.toNat) hoperat hname (by omega) hnil hnil hnil hnil
      rw [Int.toNat_of_nonneg hnum] at hprinted
      simpa [print] using hprinted
  | and left right ihleft ihright =>
      simpa [print] using Printed.and (ihleft h.1) (ihright h.2) hnil hblank hblank hnil
  | or left right ihleft ihright =>
      simpa [print] using Printed.or (ihleft h.1) (ihright h.2) hnil hblank hblank hnil

/-- **Texts mean what their trees mean.**  Every text of a tree over columns without reserved
bytes is parsed to that tree, and evaluating the tree decides its meaning. -/
theorem getOperator_evaluate {tree : Operator} (h : OverColumns ColumnName tree) :
    Printed tree (print tree) ∧
    (∀ w, Printed tree w → getOperator w = some tree) ∧
    ∀ r pParameters, Fits r pParameters tree →
      ∃ b, evaluate r pParameters tree = some b ∧ (b = true ↔ Meaning r pParameters tree) :=
  ⟨print_printed h, fun _ hw => hw.getOperator, fun _ _ hfits => evaluate_spec hfits⟩

/-- `(msisdn=:0) and (startTime<=:1)`. -/
def callFilter : Operator :=
  .and (.comparison .eq (text ['m', 's', 'i', 's', 'd', 'n']) 0)
    (.comparison .le (text ['s', 't', 'a', 'r', 't', 'T', 'i', 'm', 'e']) 1)

/-- A record of number `139` that started at `0825`. -/
def callRecord : RecordConvert where
  m_columnList := [⟨text ['m', 's', 'i', 's', 'd', 'n'], 0, 3⟩,
    ⟨text ['s', 't', 'a', 'r', 't', 'T', 'i', 'm', 'e'], 3, 4⟩]
  m_value := text ['1', '3', '9', '0', '8', '2', '5']

def callParameters : List (List Byte) := [text ['1', '3', '9'], text ['0', '9', '0', '0']]

theorem callFilter_overColumns : OverColumns ColumnName callFilter :=
  ⟨⟨by decide, ⟨forall_mem_of_all (by decide), rfl⟩, by decide⟩,
    by decide, ⟨forall_mem_of_all (by decide), rfl⟩, by decide⟩

theorem callFilter_fits : Fits callRecord callParameters callFilter :=
  ⟨⟨by decide, text ['1', '3', '9'], text ['1', '3', '9'], rfl, rfl, by decide⟩,
    by decide, text ['0', '8', '2', '5'], text ['0', '9', '0', '0'], rfl, rfl, by decide⟩

theorem getOperator_evaluate_callFilter :
    getOperator (print callFilter) = some callFilter ∧
      (evaluate callRecord callParameters callFilter = some true) ∧
      Meaning callRecord callParameters callFilter := by
  obtain ⟨hprinted, hparse, heval⟩ := getOperator_evaluate callFilter_overColumns
  obtain ⟨b, hb, hmeaning⟩ := heval callRecord callParameters callFilter_fits
  have htrue : evaluate callRecord callParameters callFilter = some true := by decide +kernel
  rw [htrue, Option.some.injEq] at hb
  exact ⟨hparse _ hprinted, htrue, hmeaning.mp hb.symm⟩

/-- Without operator characters and operator words. -/
def NoOperator (name : List Byte) : Prop :=
  (∀ c ∈ name, c ∉ text ['=', '!', '<', '>']) ∧ ¬ text ['a', 'n', 'd'] <:+: name ∧
    ¬ text ['o', 'r'] <:+: name ∧ ¬ text ['n', 'e', 'q'] <:+: name

/-- A parenthesis in the name of a column takes part in the count of the pairs:
`(a(b=:0) and (c=:1)`. -/
theorem getOperator_paren_in_name :
    ¬ ∀ tree, OverColumns NoOperator tree → getOperator (print tree) = some tree := by
  intro h
  have hparse := h (.and (.comparison .eq (text ['a', '(', 'b']) 0) (.comparison .eq (text ['c']) 1))
    (by unfold OverColumns OverColumns NoOperator; decide +kernel)
  exact absurd hparse (by decide +kernel)

end Expression
