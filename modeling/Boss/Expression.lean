import Boss.Decimal

/-!
# Filter expressions

`OperatorBase::getOperator` makes a tree of operators out of a text such as
`(msisdn=:0) and (startTime<=:1)`.  It finds the end of the first pair of parentheses: without
one the text is a comparison, otherwise the pair is the left operand, the word behind it is the
operator and the rest is the right operand.  `Expression::evaluate` runs the tree on a record
and a list of parameters; a comparison is a `memcmp` over the length of the column.

Texts are lists of bytes.  `none` stands for what the source answers with an exception or what
is undefined: a position outside of a string, a `memcmp` outside of a buffer.
-/

namespace Expression

open Decimal

/-! ## Strings -/

/-- A text given by its characters. -/
def text (cs : List Char) : List Byte := cs.map Char.toUInt8

def lparen : Byte := '('.toUInt8

def rparen : Byte := ')'.toUInt8

def isBlank (c : Byte) : Bool := c = ' '.toUInt8 || c = '\t'.toUInt8

/-- `StringUtil::ltrim`. -/
def ltrim (str : List Byte) : List Byte := str.dropWhile isBlank

/-- `StringUtil::rtrim`. -/
def rtrim (str : List Byte) : List Byte := (str.reverse.dropWhile isBlank).reverse

/-- `StringUtil::trim`. -/
def trim (str : List Byte) : List Byte := ltrim (rtrim str)

/-- A C string ends before its first zero byte. -/
def cString (bytes : List Byte) : List Byte := bytes.takeWhile (· ≠ 0)

/-- `string::find`. -/
def find (pattern : List Byte) : List Byte → Option Nat
  | [] => if pattern = [] then some 0 else none
  | c :: rest => if pattern.isPrefixOf (c :: rest) then some 0 else (find pattern rest).map (· + 1)

/-! ## The parser -/

/-- The comparisons; `neq` compares strings up to the shorter one. -/
inductive Comparison
  | eq
  | ge
  | gt
  | lt
  | le
  | ne
  | neq
  deriving DecidableEq, Repr

def Comparison.mark : Comparison → List Byte
  | .eq => text ['=']
  | .ge => text ['>', '=']
  | .gt => text ['>']
  | .lt => text ['<']
  | .le => text ['<', '=']
  | .ne => text ['!', '=']
  | .neq => text ['n', 'e', 'q']

/-- A tree of operators. -/
inductive Operator
  | comparison (operat : Comparison) (m_leftParamName : List Byte) (m_rightParamNum : Int)
  | and (m_leftOperator m_rightOperator : Operator)
  | or (m_leftOperator m_rightOperator : Operator)
  deriving DecidableEq, Repr

/-- `getOperatMark`: the marks in the order in which they are looked for. -/
def getOperatMark (expression : List Byte) : List Byte :=
  let marks := [text ['>', '='], text ['>'], text ['!', '='], text ['<', '='], text ['<'],
    text ['='], text ['n', 'e', 'q']]
  (marks.find? fun mark => (find mark expression).isSome).getD []

/-- The first loop of `getOperatType`: where as many parentheses are closed as opened, and how
many that are. -/
def firstPair : List Byte → Nat → Nat → Nat → Nat × Nat
  | [], i, _, l_size => (i, l_size)
  | c :: rest, i, r_size, l_size =>
    let r_size := if c = lparen then r_size + 1 else r_size
    let l_size := if c = rparen then l_size + 1 else l_size
    if r_size = l_size then (i, l_size) else firstPair rest (i + 1) r_size l_size

/-- Take off the parentheses. -/
def unwrap (str : List Byte) : List Byte :=
  if str.length > 2 then trim ((str.drop 1).take (str.length - 2)) else str

/-- `getOperatType`: the operator and the texts to its left and right. -/
def getOperatType (expression : List Byte) : Option (List Byte × List Byte × List Byte) :=
  let w := trim (cString expression)
  let (i, l_size) := firstPair w 0 0 0
  let i := i + 1
  if l_size = 0 then
    let operatType := getOperatMark w
    let pos := (find operatType w).getD w.length
    some (operatType, trim (w.take pos), trim (w.drop (pos + operatType.length)))
  else if w.length < i then none
  else
    let leftSubExpr := trim (w.take i)
    let rightSubExpr := trim (w.drop i)
    let operatType := rightSubExpr.takeWhile (· ≠ lparen)
    let rightSubExpr := trim (rightSubExpr.drop operatType.length)
    let leftSubExpr := unwrap leftSubExpr
    let operatType := if operatType = [] then getOperatMark leftSubExpr else operatType
    some (trim operatType, leftSubExpr, unwrap rightSubExpr)

/-- The comparison that a mark stands for. -/
def comparisonOf (operatType : List Byte) : Option Comparison :=
  [Comparison.eq, .ge, .gt, .lt, .le, .ne, .neq].find? fun operat => operat.mark = operatType

/-- `getOperator`.  The texts of the operands are shorter, so that the length bounds the
depth. -/
def getOperatorWithin : Nat → List Byte → Option Operator
  | 0, _ => none
  | depth + 1, expression =>
    match getOperatType expression with
    | none => none
    | some (operatType, leftSubExpr, rightSubExpr) =>
      match comparisonOf operatType with
      | some operat =>
        match rightSubExpr with
        | [] => none
        | _ :: digits => some (.comparison operat leftSubExpr (atol digits))
      | none =>
        if operatType = text ['a', 'n', 'd'] then
          (getOperatorWithin depth leftSubExpr).bind fun left =>
            (getOperatorWithin depth rightSubExpr).map fun right => .and left right
        else if operatType = text ['o', 'r'] then
          (getOperatorWithin depth leftSubExpr).bind fun left =>
            (getOperatorWithin depth rightSubExpr).map fun right => .or left right
        else none

def getOperator (expression : List Byte) : Option Operator :=
  getOperatorWithin (expression.length + 1) expression

/-! ## Evaluation -/

structure ColumnDef where
  m_name : List Byte
  m_offSet : Nat
  m_len : Nat

/-- `MAX_COLUMN_LEN`. -/
def MAX_COLUMN_LEN : Nat := 100

def toLower (c : Byte) : Byte := if 65 ≤ c.toNat ∧ c.toNat ≤ 90 then c + 32 else c

/-- `strcasecmp(..) == 0`. -/
def sameName (a b : List Byte) : Bool := a.map toLower = b.map toLower

/-- The columns of a table and the record that is looked at. -/
structure RecordConvert where
  m_columnList : List ColumnDef
  m_value : List Byte

/-- `m_columnPos.find`. -/
def RecordConvert.column (r : RecordConvert) (columnName : List Byte) : Option ColumnDef :=
  r.m_columnList.find? fun c => sameName c.m_name columnName

/-- `getColumnValue` into a buffer of `MAX_COLUMN_LEN` bytes. -/
def RecordConvert.getColumnValue (r : RecordConvert) (columnName : List Byte) : Option (List Byte) :=
  (r.column columnName).bind fun c =>
    if c.m_len ≤ MAX_COLUMN_LEN ∧ c.m_offSet + c.m_len ≤ r.m_value.length then
      some ((r.m_value.drop c.m_offSet).take c.m_len)
    else none

/-- `memcmp` on as many bytes as both have. -/
def memcmp : List Byte → List Byte → Int
  | a :: left, b :: right => if a = b then memcmp left right else (a.toNat : Int) - b.toNat
  | _, _ => 0

/-- What the comparisons ask of the result of `memcmp`. -/
def Comparison.test : Comparison → Int → Bool
  | .eq, z => z = 0
  | .ge, z => z ≥ 0
  | .gt, z => z > 0
  | .lt, z => z < 0
  | .le, z => z ≤ 0
  | .ne, z => z ≠ 0
  | .neq, z => z = 0

/-- `OperatEq::evaluate` and the like; `OperatStrnEq` has a length of its own. -/
def compareColumn (operat : Comparison) (value parameter : List Byte) : Option Bool :=
  if operat = .neq then
    let left := cString value
    let right := cString parameter
    some (operat.test (memcmp (left.take right.length) (right.take left.length)))
  else if value.length ≤ parameter.length then
    some (operat.test (memcmp value (parameter.take value.length)))
  else none

/-- `evaluate`, with the short cuts of `&&` and `||`. -/
def evaluate (r : RecordConvert) (pParameters : List (List Byte)) : Operator → Option Bool
  | .comparison operat name num =>
    (r.getColumnValue name).bind fun value =>
      if num < 0 then none
      else pParameters[num.toNat]?.bind fun parameter => compareColumn operat value parameter
  | .and left right =>
    (evaluate r pParameters left).bind fun b => if b then evaluate r pParameters right else some false
  | .or left right =>
    (evaluate r pParameters left).bind fun b => if b then some true else evaluate r pParameters right

end Expression
