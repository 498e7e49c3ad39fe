import Boss.ExpressionParse
import Boss.ParameterRefresh

/-!
# The expressions of parameter queries

`Exp::getExp` makes a tree out of a text such as `(imsi==imsi) and (time>=begin_datetime)`.  On the
left of a comparison stands a field of the query, on its right a column of the table; `evaluate`
compares the argument for the field with the decoded column of a record.

The parser is a relative of the one for filter expressions: the first pair of parentheses is the
left operand, the word behind it is the type and the rest is the right operand.  `lrtrim` is not
known; what is needed of it is `Strips`.

Main result: `Tree.evaluate_says`.
-/

namespace ParameterExp

open Expression (text find firstPair lparen)
open Parameter (Table Bytes ParameterCdr cstr key)

/-- The classes of comparisons. -/
inductive Comparison
  | ExpEq
  | ExpGe
  | ExpGt
  | ExpLt
  | ExpLe
  | ExpNe
  | ExpStrnEq
  deriving DecidableEq, Repr

def Comparison.m_token : Comparison → Bytes
  | .ExpEq => text ['=', '=']
  | .ExpGe => text ['>', '=']
  | .ExpGt => text ['>']
  | .ExpLt => text ['<']
  | .ExpLe => text ['<', '=']
  | .ExpNe => text ['!', '=']
  | .ExpStrnEq => text ['n', 'e', 'q']

inductive Connective
  | ExpAnd
  | ExpOr
  deriving DecidableEq, Repr

def Connective.m_token : Connective → Bytes
  | .ExpAnd => text ['a', 'n', 'd']
  | .ExpOr => text ['o', 'r']

inductive Exp
  | comparison (type : Comparison) (m_leftId m_rightId : Nat)
  | connective (type : Connective) (m_leftExp m_rightExp : Exp)
  deriving DecidableEq, Repr

/-! ## The parser -/

/-- The operators in the order in which they are looked for. -/
def operators : List Comparison := [.ExpGe, .ExpGt, .ExpEq, .ExpNe, .ExpLe, .ExpLt, .ExpStrnEq]

def getOperator (where_ : Bytes) : Bytes :=
  ((operators.map Comparison.m_token).find? fun token => (find token where_).isSome).getD []

/-- The names of the columns of the table, and those of the fields of the query. -/
structure Names where
  m_fieldsName : List Bytes
  inFields : List Bytes

/-- `Parameter::getFieldID`. -/
def Names.getFieldID (names : Names) (name : Bytes) : Option Nat :=
  names.m_fieldsName.findIdx? fun m => m = name

/-- The loop over the fields of the query goes on behind a field that fits. -/
def lastId (id : Bytes) : List Bytes → Option Nat
  | [] => none
  | name :: rest =>
    ((lastId id rest).map (· + 1)).or (if id = name then some 0 else none)

section

variable (lrtrim : Bytes → Bytes) (names : Names)

/-- Take off the parentheses. -/
def unwrap (where_ : Bytes) : Bytes :=
  if where_.length > 2 then lrtrim ((where_.drop 1).take (where_.length - 2)) else where_

/-- `getExpType`: the type and the texts to its left and right; without parentheses the left one is
the whole. -/
def getExpType (where_ : Bytes) : Option (Bytes × Bytes × Bytes) :=
  let w := lrtrim where_
  let (i, l_size) := firstPair w 0 0 0
  let i := i + 1
  if l_size = 0 then
    let leftWhere := lrtrim w
    some (lrtrim (getOperator leftWhere), leftWhere, [])
  else if w.length < i then none
  else
    let leftWhere := lrtrim (w.take i)
    let rightWhere := lrtrim (w.drop i)
    let expType := rightWhere.takeWhile (· ≠ lparen)
    let rightWhere := lrtrim (rightWhere.drop expType.length)
    let leftWhere := unwrap lrtrim leftWhere
    let rightWhere := unwrap lrtrim rightWhere
    let expType := if expType = [] then getOperator leftWhere else expType
    some (lrtrim expType, leftWhere, rightWhere)

/-- `initialize` of a comparison. -/
def initializeExp (type : Comparison) (where_ : Bytes) : Option Exp :=
  (find type.m_token where_).bind fun epos =>
    (lastId (lrtrim (where_.take epos)) names.inFields).bind fun m_rightId =>
      (names.getFieldID (lrtrim (where_.drop (epos + type.m_token.length)))).map fun m_leftId =>
        .comparison type m_leftId m_rightId

def comparisonOf (expType : Bytes) : Option Comparison :=
  operators.find? fun type => type.m_token = expType

def connectiveOf (expType : Bytes) : Option Connective :=
  [Connective.ExpAnd, .ExpOr].find? fun type => type.m_token = expType

/-- `getExp`; the texts of the operands are shorter, so that the length bounds the depth. -/
def getExpWithin : Nat → Bytes → Option Exp
  | 0, _ => none
  | depth + 1, where_ =>
    (getExpType lrtrim where_).bind fun (expType, leftWhere, rightWhere) =>
      match comparisonOf expType with
      | some type => initializeExp lrtrim names type leftWhere
      | none =>
        (connectiveOf expType).bind fun type =>
          (getExpWithin depth leftWhere).bind fun m_leftExp =>
            (getExpWithin depth rightWhere).map fun m_rightExp =>
              .connective type m_leftExp m_rightExp

def getExp (where_ : Bytes) : Option Exp :=
  getExpWithin lrtrim names (where_.length + 1) where_

end

/-! ## Evaluation -/

variable (T : Table)

/-- `format`: the decoded column of a record, which must fit into the 40 bytes of `tmp`. -/
def format (m_leftId : Nat) (cdr : ParameterCdr) : Option Bytes :=
  (T.fields[m_leftId]?).bind fun field => (cdr.at m_leftId).bind fun s =>
    if field.compress then
      if (T.codec.decode s).length < 40 then some (T.codec.decode s) else none
    else some s

/-- `strcmp` of an argument and a column, which ends where its string does. -/
def strcmp (r l : Bytes) : Ordering := compare (cstr r) l

/-- `strncmp(l,r,n) == 0` for the length of the shorter one. -/
def strnEq (r l : Bytes) : Bool :=
  let n := min r.length l.length
  l.take n = (cstr r).take n

/-- A column that starts with `*`. -/
def isStar (l : Bytes) : Bool := l.head? = some '*'.toUInt8

/-- What the comparisons ask of an argument and a column. -/
def Comparison.test : Comparison → Bytes → Bytes → Bool
  | .ExpEq, r, l => isStar l || strcmp r l = .eq
  | .ExpGe, r, l => (strcmp r l).isGE
  | .ExpGt, r, l => strcmp r l = .gt
  | .ExpLt, r, l => strcmp r l = .lt
  | .ExpLe, r, l => (strcmp r l).isLE
  | .ExpNe, r, l => strcmp r l ≠ .eq
  | .ExpStrnEq, r, l => strnEq r l

/-- `evaluate`, with the short cuts of `&&` and `||`. -/
def Exp.evaluate (right : List Bytes) (cdr : ParameterCdr) : Exp → Option Bool
  | .comparison type m_leftId m_rightId =>
    (format T m_leftId cdr).bind fun l => right[m_rightId]?.map fun r => type.test r l
  | .connective .ExpAnd m_leftExp m_rightExp =>
    (m_leftExp.evaluate right cdr).bind fun b =>
      if b then m_rightExp.evaluate right cdr else some false
  | .connective .ExpOr m_leftExp m_rightExp =>
    (m_leftExp.evaluate right cdr).bind fun b =>
      if b then some true else m_rightExp.evaluate right cdr

/-! ## What an expression says -/

/-- An expression by the names of its fields and columns. -/
inductive Tree
  | comparison (type : Comparison) (inField column : Bytes)
  | connective (type : Connective) (left right : Tree)

/-- What a comparison says about an argument and a column. -/
def Comparison.Says : Comparison → Bytes → Bytes → Prop
  | .ExpEq, argument, column => argument = column ∨ column.head? = some '*'.toUInt8
  | .ExpGe, argument, column => column ≤ argument
  | .ExpGt, argument, column => column < argument
  | .ExpLt, argument, column => argument < column
  | .ExpLe, argument, column => argument ≤ column
  | .ExpNe, argument, column => argument ≠ column
  | .ExpStrnEq, argument, column => argument <+: column ∨ column <+: argument

/-- What a tree says about the arguments and columns that the names stand for. -/
def Tree.Says (argument column : Bytes → Bytes) : Tree → Prop
  | .comparison type inField name => type.Says (argument inField) (column name)
  | .connective .ExpAnd left right => left.Says argument column ∧ right.Says argument column
  | .connective .ExpOr left right => left.Says argument column ∨ right.Says argument column

/-- The tree with positions in place of names. -/
def Tree.exp (names : Names) : Tree → Exp
  | .comparison type inField column =>
    .comparison type (names.m_fieldsName.idxOf column) (names.inFields.idxOf inField)
  | .connective type left right => .connective type (left.exp names) (right.exp names)

/-- The comparisons other than `neq` over the names of a query. -/
def Tree.Over (names : Names) : Tree → Prop
  | .comparison type inField column =>
    type ≠ .ExpStrnEq ∧ inField ∈ names.inFields ∧ column ∈ names.m_fieldsName
  | .connective _ left right => left.Over names ∧ right.Over names

/-- The argument for a field. -/
def argument (names : Names) (right : List Bytes) (inField : Bytes) : Bytes :=
  cstr (right[names.inFields.idxOf inField]?.getD [])

/-- The decoded column of a record. -/
def column (names : Names) (cdr : ParameterCdr) (name : Bytes) : Bytes :=
  (key T (names.m_fieldsName.idxOf name) cdr).getD []

/-- The columns of a record are there and decode to less than 40 characters. -/
def Short (cdr : ParameterCdr) : Prop :=
  ∀ i < T.fields.length, ∃ l, key T i cdr = some l ∧ l.length < 40

variable {T}

/-! ## Strings -/

theorem compare_eq_lt {a b : Bytes} : compare a b = .lt ↔ a < b := by
  induction a generalizing b with
  | nil => cases b <;> simp
  | cons c a ih =>
      cases b with
      | nil => simp
      | cons d b =>
          rw [List.compare_cons_cons, Ordering.then_eq_lt, Std.compare_eq_lt, ih,
            Std.compare_eq_iff_eq, List.cons_lt_cons_iff]

theorem compare_eq_gt {a b : Bytes} : compare a b = .gt ↔ b < a := by
  rw [Std.OrientedCmp.gt_iff_lt, compare_eq_lt]

theorem compare_isLE {a b : Bytes} : (compare a b).isLE ↔ a ≤ b := by
  rw [← Ordering.ne_gt_iff_isLE]
  exact compare_eq_gt.not

theorem compare_isGE {a b : Bytes} : (compare a b).isGE ↔ b ≤ a := by
  rw [← Ordering.ne_lt_iff_isGE]
  exact compare_eq_lt.not

/-- **A comparison says what it asks for.** -/
theorem Comparison.test_iff {type : Comparison} (htype : type ≠ .ExpStrnEq) (r l : Bytes) :
    type.test r l = true ↔ type.Says (cstr r) l := by
  cases type with
  | ExpStrnEq => exact absurd rfl htype
  | ExpEq =>
      simp only [Comparison.test, Comparison.Says, isStar, strcmp, Bool.or_eq_true,
        decide_eq_true_eq, Std.compare_eq_iff_eq]
      exact or_comm
  | ExpGe => exact compare_isGE
  | ExpGt => simp only [Comparison.test, Comparison.Says, strcmp, decide_eq_true_eq, compare_eq_gt]
  | ExpLt => simp only [Comparison.test, Comparison.Says, strcmp, decide_eq_true_eq, compare_eq_lt]
  | ExpLe => exact compare_isLE
  | ExpNe =>
      simp only [Comparison.test, Comparison.Says, strcmp, decide_eq_true_eq, Ne,
        Std.compare_eq_iff_eq]

/-! ## Evaluation -/

/-- What `format` gives of a column that is short enough. -/
theorem format_of_key {cdr : ParameterCdr} {i : Nat} {l : Bytes} (hkey : key T i cdr = some l)
    (hshort : l.length < 40) : format T i cdr = some l := by
  obtain ⟨s, hs, hmap⟩ := Option.bind_eq_some_iff.mp hkey
  obtain ⟨field, hfield, rfl⟩ := Option.map_eq_some_iff.mp hmap
  unfold format
  rw [hfield, Option.bind_some, hs, Option.bind_some]
  unfold Parameter.decoded at hshort ⊢
  cases hcompress : field.compress with
  | false => rfl
  | true =>
      rw [hcompress, if_pos rfl] at hshort
      rw [if_pos rfl, if_pos hshort, if_pos rfl]

/-- **A tree evaluates to what it says.** -/
theorem Tree.evaluate_says {names : Names} {right : List Bytes} {cdr : ParameterCdr} {tree : Tree}
    (hfields : names.m_fieldsName.length = T.fields.length)
    (hright : names.inFields.length ≤ right.length) (hshort : Short T cdr) (h : tree.Over names) :
    ∃ b, (tree.exp names).evaluate T right cdr = some b ∧
      (b = true ↔ tree.Says (argument names right) (column T names cdr)) := by
  induction tree with
  | comparison type inField name =>
      obtain ⟨htype, hinField, hname⟩ := h
      have hleft : names.m_fieldsName.idxOf name < T.fields.length :=
        hfields ▸ List.idxOf_lt_length_of_mem hname
      have hindex : names.inFields.idxOf inField < right.length :=
        Nat.lt_of_lt_of_le (List.idxOf_lt_length_of_mem hinField) hright
      obtain ⟨l, hkey, hl⟩ := hshort _ hleft
      refine ⟨type.test right[names.inFields.idxOf inField] l, ?_, ?_⟩
      · rw [Tree.exp, Exp.evaluate, format_of_key hkey hl, Option.bind_some,
          List.getElem?_eq_getElem hindex, Option.map_some]
      · rw [Comparison.test_iff htype, Tree.Says, argument, column, hkey,
          List.getElem?_eq_getElem hindex, Option.getD_some, Option.getD_some]
  | connective type left right ihleft ihright =>
      obtain ⟨a, ha, hasays⟩ := ihleft h.1
      obtain ⟨b, hb, hbsays⟩ := ihright h.2
      cases type with
      | ExpAnd =>
          refine ⟨a && b, ?_, ?_⟩
          · rw [Tree.exp, Exp.evaluate, ha, hb, Option.bind_some]
            cases a <;> rfl
          · rw [Tree.Says, Bool.and_eq_true, hasays, hbsays]
      | ExpOr =>
          refine ⟨a || b, ?_, ?_⟩
          · rw [Tree.exp, Exp.evaluate, ha, hb, Option.bind_some]
            cases a <;> rfl
          · rw [Tree.Says, Bool.or_eq_true, hasays, hbsays]

end ParameterExp
