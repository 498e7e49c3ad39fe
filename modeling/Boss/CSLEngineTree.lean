import Boss.CSLEngine

/-!
# Scripts as trees

A script is a tree: blocks of statements, conditions and integer expressions, each with its level in
the grammar so that brackets stand where the grammar wants them.  A tree has its symbols, it has a
meaning on the record and the local variables, and it has its code.

The code is a function of where it stands: `Prog.code` takes the address of its first instruction
and the number of constants before its own.  Shifting its jumps is the same as making it for an
address further on (`code_shift`), which is why the compiler can put the jumps of an `if` in when
the code of its parts is there already.
-/

namespace CSLEngine

open Decimal CSymbolParser

/-! ## Variables -/

/-- A declared variable. -/
inductive Ref
  | field (index : Nat)
  | localVar (index : Nat)
deriving DecidableEq, Repr

/-- A name is a field of the record, or else a local variable. -/
def Declared.resolve (D : Declared) (name : List Byte) : Option Ref :=
  match D.index name, D.localIndex name with
  | some index, _ => some (.field index)
  | none, some index => some (.localVar index)
  | none, none => none

def Ref.read (vars : Vars) : Ref → Int32
  | .field index => vars.cdr index
  | .localVar index => vars.locals index

def Ref.write (vars : Vars) (v : Int32) : Ref → Vars
  | .field index => { vars with cdr := Function.update vars.cdr index v }
  | .localVar index => { vars with locals := Function.update vars.locals index v }

def Ref.load : Ref → OperationCommand
  | .field index => ⟨.LOAD_VAR, index⟩
  | .localVar index => ⟨.LOAD_LOCAL_VAR, index⟩

def Ref.store : Ref → OperationCommand
  | .field index => ⟨.STOR, index⟩
  | .localVar index => ⟨.STOR_LOCAL_VAR, index⟩

/-! ## Expressions -/

inductive MulOp
  | times | over
deriving DecidableEq, Repr

inductive AddOp
  | plus | minus
deriving DecidableEq, Repr

def MulOp.symbol : MulOp → Symbol
  | .times => .keyword .SYMBOL_MULTI
  | .over => .keyword .SYMBOL_DIV

def AddOp.symbol : AddOp → Symbol
  | .plus => .keyword .SYMBOL_PLUS
  | .minus => .keyword .SYMBOL_SUB

def MulOp.oper : MulOp → Nat
  | .times => 4
  | .over => 5

def AddOp.oper : AddOp → Nat
  | .plus => 2
  | .minus => 3

def MulOp.eval (a b : Int32) : MulOp → Option Int32
  | .times => some (a * b)
  | .over => if b = 0 then none else some (a / b)

def AddOp.eval (a b : Int32) : AddOp → Int32
  | .plus => a + b
  | .minus => a - b

inductive Level
  | factor | term | expr

/-- Products and sums are grouped from the left. -/
inductive Expr : Level → Type
  | const (text : List Byte) : Expr .factor
  | var (name : List Byte) : Expr .factor
  | paren (e : Expr .expr) : Expr .factor
  | factor (f : Expr .factor) : Expr .term
  | mul (op : MulOp) (t : Expr .term) (f : Expr .factor) : Expr .term
  | term (t : Expr .term) : Expr .expr
  | add (op : AddOp) (e : Expr .expr) (t : Expr .term) : Expr .expr

namespace Expr

def symbols : {l : Level} → Expr l → List Symbol
  | _, const text => [.int text]
  | _, var name => [.ident name]
  | _, paren e => .keyword .SYMBOL_LBRACKET :: e.symbols ++ [.keyword .SYMBOL_RBRACKET]
  | _, factor f => f.symbols
  | _, mul op t f => t.symbols ++ op.symbol :: f.symbols
  | _, term t => t.symbols
  | _, add op e t => e.symbols ++ op.symbol :: t.symbols

/-- The variables are declared. -/
def Closed (D : Declared) : {l : Level} → Expr l → Prop
  | _, const _ => True
  | _, var name => (D.resolve name).isSome
  | _, paren e => e.Closed D
  | _, factor f => f.Closed D
  | _, mul _ t f => t.Closed D ∧ f.Closed D
  | _, term t => t.Closed D
  | _, add _ e t => e.Closed D ∧ t.Closed D

/-- The value; `none` when something is divided by zero. -/
def eval (D : Declared) (vars : Vars) : {l : Level} → Expr l → Option Int32
  | _, const text => some (atoi text)
  | _, var name => (D.resolve name).map (Ref.read vars)
  | _, paren e => e.eval D vars
  | _, factor f => f.eval D vars
  | _, mul op t f => (t.eval D vars).bind fun a => (f.eval D vars).bind fun b => op.eval a b
  | _, term t => t.eval D vars
  | _, add op e t => (e.eval D vars).bind fun a => (t.eval D vars).map fun b => op.eval a b

/-- The constants in the order in which they are loaded. -/
def consts : {l : Level} → Expr l → List CVar
  | _, const text => [.int (atoi text)]
  | _, var _ => []
  | _, paren e => e.consts
  | _, factor f => f.consts
  | _, mul _ t f => t.consts ++ f.consts
  | _, term t => t.consts
  | _, add _ e t => e.consts ++ t.consts

/-- The code behind `k` constants. -/
def code (D : Declared) : {l : Level} → (k : Nat) → Expr l → List OperationCommand
  | _, k, const _ => [⟨.LOAD_CONST, k⟩]
  | _, _, var name => (D.resolve name).toList.map Ref.load
  | _, k, paren e => e.code D k
  | _, k, factor f => f.code D k
  | _, k, mul op t f => t.code D k ++ f.code D (k + t.consts.length) ++ [⟨.OPER, op.oper⟩]
  | _, k, term t => t.code D k
  | _, k, add op e t => e.code D k ++ t.code D (k + e.consts.length) ++ [⟨.OPER, op.oper⟩]

/-- The first symbol is a bracket. -/
def startsParen {l : Level} (e : Expr l) : Bool :=
  e.symbols.head? = some (.keyword .SYMBOL_LBRACKET)

end Expr

/-! ## Conditions -/

inductive CompOp
  | like | eq | ee | note | lt | ge | gt | le
deriving DecidableEq, Repr

def CompOp.symbol : CompOp → Symbol
  | .like => .keyword .SYMBOL_LIKE
  | .eq => .keyword .SYMBOL_EQ
  | .ee => .keyword .SYMBOL_EE
  | .note => .keyword .SYMBOL_NOTE
  | .lt => .keyword .SYMBOL_LT
  | .ge => .keyword .SYMBOL_GE
  | .gt => .keyword .SYMBOL_GT
  | .le => .keyword .SYMBOL_LE

def CompOp.oper : CompOp → Nat
  | .like | .eq | .ee => 8
  | .note => 9
  | .lt => 10
  | .ge => 11
  | .gt => 12
  | .le => 13

def CompOp.eval (a b : Int32) : CompOp → Bool
  | .like | .eq | .ee => a = b
  | .note => a ≠ b
  | .lt => a < b
  | .ge => a ≥ b
  | .gt => a > b
  | .le => a ≤ b

inductive CondLevel
  | factor | all | any

/-- A comparison does not begin with a bracket: that would be a condition in brackets. -/
inductive Cond : CondLevel → Type
  | comp (op : CompOp) (a b : Expr .expr) (h : a.startsParen = false) : Cond .factor
  | not (c : Cond .factor) : Cond .factor
  | paren (c : Cond .any) : Cond .factor
  | factor (c : Cond .factor) : Cond .all
  | and (c : Cond .factor) (d : Cond .all) : Cond .all
  | all (c : Cond .all) : Cond .any
  | or (c : Cond .all) (d : Cond .any) : Cond .any

namespace Cond

def symbols : {l : CondLevel} → Cond l → List Symbol
  | _, comp op a b _ => a.symbols ++ op.symbol :: b.symbols
  | _, not c => .keyword .SYMBOL_NOT :: c.symbols
  | _, paren c => .keyword .SYMBOL_LBRACKET :: c.symbols ++ [.keyword .SYMBOL_RBRACKET]
  | _, factor c => c.symbols
  | _, and c d => c.symbols ++ .keyword .SYMBOL_AND :: d.symbols
  | _, all c => c.symbols
  | _, or c d => c.symbols ++ .keyword .SYMBOL_OR :: d.symbols

def Closed (D : Declared) : {l : CondLevel} → Cond l → Prop
  | _, comp _ a b _ => a.Closed D ∧ b.Closed D
  | _, not c => c.Closed D
  | _, paren c => c.Closed D
  | _, factor c => c.Closed D
  | _, and c d => c.Closed D ∧ d.Closed D
  | _, all c => c.Closed D
  | _, or c d => c.Closed D ∧ d.Closed D

/-- Both sides of `and` and `or` have a value. -/
def eval (D : Declared) (vars : Vars) : {l : CondLevel} → Cond l → Option Bool
  | _, comp op a b _ =>
      (a.eval D vars).bind fun v => (b.eval D vars).map fun w => op.eval v w
  | _, not c => (c.eval D vars).map fun v => !v
  | _, paren c => c.eval D vars
  | _, factor c => c.eval D vars
  | _, and c d => (c.eval D vars).bind fun v => (d.eval D vars).map fun w => v && w
  | _, all c => c.eval D vars
  | _, or c d => (c.eval D vars).bind fun v => (d.eval D vars).map fun w => v || w

def consts : {l : CondLevel} → Cond l → List CVar
  | _, comp _ a b _ => a.consts ++ b.consts
  | _, not c => c.consts
  | _, paren c => c.consts
  | _, factor c => c.consts
  | _, and c d => c.consts ++ d.consts
  | _, all c => c.consts
  | _, or c d => c.consts ++ d.consts

def code (D : Declared) : {l : CondLevel} → (k : Nat) → Cond l → List OperationCommand
  | _, k, comp op a b _ => a.code D k ++ b.code D (k + a.consts.length) ++ [⟨.OPER, op.oper⟩]
  | _, k, not c => c.code D k ++ [⟨.OPER, 6⟩]
  | _, k, paren c => c.code D k
  | _, k, factor c => c.code D k
  | _, k, and c d => c.code D k ++ d.code D (k + c.consts.length) ++ [⟨.OPER, 14⟩]
  | _, k, all c => c.code D k
  | _, k, or c d => c.code D k ++ d.code D (k + c.consts.length) ++ [⟨.OPER, 15⟩]

end Cond

/-! ## Statements -/

inductive ProgLevel
  | stmt | block

/-- A statement can be empty, so a block may be, and may end with `;`. -/
inductive Prog : ProgLevel → Type
  | empty : Prog .stmt
  | assign (name : List Byte) (e : Expr .expr) : Prog .stmt
  | ifThen (c : Cond .any) (b : Prog .block) : Prog .stmt
  | ifElse (c : Cond .any) (b d : Prog .block) : Prog .stmt
  | single (s : Prog .stmt) : Prog .block
  | seq (s : Prog .stmt) (b : Prog .block) : Prog .block

/-- Symbols in braces. -/
def inBraces (symbols : List Symbol) : List Symbol :=
  .keyword .SYMBOL_LCS :: symbols ++ [.keyword .SYMBOL_RCS]

/-- The `if` and its condition. -/
def ifSymbols (c : Cond .any) : List Symbol :=
  .keyword .SYMBOL_IF :: .keyword .SYMBOL_LBRACKET :: c.symbols ++ [.keyword .SYMBOL_RBRACKET]

namespace Prog

def symbols : {l : ProgLevel} → Prog l → List Symbol
  | _, empty => []
  | _, assign name e => .ident name :: .keyword .SYMBOL_EQ :: e.symbols
  | _, ifThen c b => ifSymbols c ++ inBraces b.symbols
  | _, ifElse c b d =>
      ifSymbols c ++ inBraces b.symbols ++ .keyword .SYMBOL_ELSE :: inBraces d.symbols
  | _, single s => s.symbols
  | _, seq s b => s.symbols ++ .keyword .SYMBOL_SEMICOLON :: b.symbols

def Closed (D : Declared) : {l : ProgLevel} → Prog l → Prop
  | _, empty => True
  | _, assign name e => (D.resolve name).isSome ∧ e.Closed D
  | _, ifThen c b => c.Closed D ∧ b.Closed D
  | _, ifElse c b d => c.Closed D ∧ b.Closed D ∧ d.Closed D
  | _, single s => s.Closed D
  | _, seq s b => s.Closed D ∧ b.Closed D

/-- The variables after the statements; `none` when something is divided by zero. -/
def eval (D : Declared) : {l : ProgLevel} → Prog l → Vars → Option Vars
  | _, empty, vars => some vars
  | _, assign name e, vars =>
      (e.eval D vars).bind fun v => (D.resolve name).map (Ref.write vars v)
  | _, ifThen c b, vars => (c.eval D vars).bind fun v => if v then b.eval D vars else some vars
  | _, ifElse c b d, vars =>
      (c.eval D vars).bind fun v => if v then b.eval D vars else d.eval D vars
  | _, single s, vars => s.eval D vars
  | _, seq s b, vars => (s.eval D vars).bind (b.eval D)

def consts : {l : ProgLevel} → Prog l → List CVar
  | _, empty => []
  | _, assign _ e => e.consts
  | _, ifThen c b => c.consts ++ b.consts
  | _, ifElse c b d => c.consts ++ b.consts ++ d.consts
  | _, single s => s.consts
  | _, seq s b => s.consts ++ b.consts

end Prog

/-- The code of an `if` at address `a` up to its `else`: the condition, two jumps and the block. -/
def thenCode (a : Nat) (c b : List OperationCommand) : List OperationCommand :=
  c ++ ⟨.JUMP_Y, a + c.length + 2⟩ :: ⟨.JUMP_N, a + c.length + 2 + b.length + 1⟩ :: b

/-- The code of an `if`; at the end of its block it jumps over the other block. -/
def ifCode (a : Nat) (c b d : List OperationCommand) : List OperationCommand :=
  thenCode a c b ++ ⟨.JUMP, a + c.length + 2 + b.length + 1 + d.length⟩ :: d

/-- The code at address `a`, behind `k` constants. -/
def Prog.code (D : Declared) : {l : ProgLevel} → (a k : Nat) → Prog l → List OperationCommand
  | _, _, _, .empty => []
  | _, _, k, .assign name e => e.code D k ++ (D.resolve name).toList.map Ref.store
  | _, a, k, .ifThen c b =>
      let cc := c.code D k
      ifCode a cc (b.code D (a + cc.length + 2) (k + c.consts.length)) []
  | _, a, k, .ifElse c b d =>
      let cc := c.code D k
      let bc := b.code D (a + cc.length + 2) (k + c.consts.length)
      ifCode a cc bc
        (d.code D (a + cc.length + 2 + bc.length + 1) (k + c.consts.length + b.consts.length))
  | _, a, k, .single s => s.code D a k
  | _, a, k, .seq s b =>
      let sc := s.code D a k
      sc ++ b.code D (a + sc.length) (k + s.consts.length)

/-! ## Moving code -/

@[simp] theorem Ref.load_shift (r : Ref) (n : Nat) : r.load.shift n = r.load := by
  cases r <;> rfl

@[simp] theorem Ref.store_shift (r : Ref) (n : Nat) : r.store.shift n = r.store := by
  cases r <;> rfl

@[simp] theorem OperationCommand.shift_oper (i n : Nat) :
    OperationCommand.shift n ⟨.OPER, i⟩ = ⟨.OPER, i⟩ := rfl

/-- Expressions have no jumps. -/
@[simp] theorem Expr.code_shift (D : Declared) (n : Nat) {l : Level} (e : Expr l) (k : Nat) :
    (e.code D k).map (·.shift n) = e.code D k := by
  induction e generalizing k with
  | const text => rfl
  | var name => cases h : D.resolve name <;> simp [Expr.code, h]
  | paren e ih => exact ih k
  | factor f ih => exact ih k
  | mul op t f iht ihf => simp [Expr.code, iht, ihf]
  | term t ih => exact ih k
  | add op e t ihe iht => simp [Expr.code, ihe, iht]

@[simp] theorem Cond.code_shift (D : Declared) (n : Nat) {l : CondLevel} (c : Cond l) (k : Nat) :
    (c.code D k).map (·.shift n) = c.code D k := by
  induction c generalizing k with
  | comp op a b h => simp [Cond.code]
  | not c ih => simp [Cond.code, ih]
  | paren c ih => exact ih k
  | factor c ih => exact ih k
  | and c d ihc ihd => simp [Cond.code, ihc, ihd]
  | all c ih => exact ih k
  | or c d ihc ihd => simp [Cond.code, ihc, ihd]

theorem length_thenCode (a : Nat) (c b : List OperationCommand) :
    (thenCode a c b).length = c.length + 2 + b.length := by
  simp [thenCode]
  omega

theorem ifCode_shift (a n : Nat) (c b d : List OperationCommand) :
    (ifCode a c b d).map (·.shift n) =
      ifCode (a + n) (c.map (·.shift n)) (b.map (·.shift n)) (d.map (·.shift n)) := by
  simp [ifCode, thenCode, OperationCommand.shift]
  omega

/-- **Moved code.**  With its jumps shifted, the code is the code for an address further on. -/
theorem Prog.code_shift (D : Declared) (n : Nat) {l : ProgLevel} (p : Prog l) (a k : Nat) :
    (p.code D a k).map (·.shift n) = p.code D (a + n) k := by
  induction p generalizing a k with
  | empty => rfl
  | assign name e => cases h : D.resolve name <;> simp [Prog.code, h]
  | ifThen c b ih =>
      simp only [Prog.code, ifCode_shift, ih, Cond.code_shift, List.map_nil]
      rw [show a + (c.code D k).length + 2 + n = a + n + (c.code D k).length + 2 by omega]
  | ifElse c b d ihb ihd =>
      have hb := ihb (a + (c.code D k).length + 2) (k + c.consts.length)
      have hlength := congrArg List.length hb
      rw [List.length_map] at hlength
      simp only [Prog.code, ifCode_shift, ihb, ihd, Cond.code_shift]
      have hmove : a + (c.code D k).length + 2 + n = a + n + (c.code D k).length + 2 := by omega
      rw [hmove] at hlength ⊢
      rw [hlength]
      congr 2
      omega
  | single s ih => exact ih a k
  | seq s b ihs ihb =>
      have hs := ihs a k
      have hlength := congrArg List.length hs
      rw [List.length_map] at hlength
      simp only [Prog.code, List.map_append, ihs, ihb, hlength]
      rw [show a + n + (s.code D (a + n) k).length = a + (s.code D (a + n) k).length + n by omega]

end CSLEngine
