import Boss.CSymbolParser

/-!
# The script engine

`compile` drops the comment lines of a script, cuts the rest into symbols and goes through them by
recursive descent, one function for each rule of the grammar; code for a stack machine comes out on
the way.  The jumps of an `if` are put in when its parts are there already: the instructions behind
them move, and every jump among these is told by how much.

`execute` runs the code.  It is modelled for integers; a function call, or a constant of another
kind, stops it.
-/

namespace CSLEngine

open Decimal CSymbolParser

/-! ## The code -/

inductive Func
  | LOAD_VAR | LOAD_LOCAL_VAR | LOAD_CONST | OPER | STOR | STOR_LOCAL_VAR | CALL | JUMP | JUMP_Y
  | JUMP_N
  deriving DecidableEq, Repr

structure OperationCommand where
  func : Func
  op_switch : Nat
deriving DecidableEq, Repr

/-- A constant; numbers with a point and strings are kept as they are written. -/
inductive CVar
  | int (value : Int32)
  | double (text : List Byte)
  | str (text : List Byte)
deriving DecidableEq, Repr

/-- `CVar(atoi(..))`. -/
def atoi (text : List Byte) : Int32 := Int32.ofInt (atol text)

/-- A message, with the name it is about in front. -/
structure ErrorMsg where
  name : List Byte
  text : String
deriving DecidableEq, Repr

/-- What is declared: the fields of a record, the functions and the local variables. -/
structure Declared where
  fields : List (List Byte)
  functions : List (List Byte)
  locals : List (List Byte)

/-- `__CdrType->index`. -/
def Declared.index (D : Declared) (name : List Byte) : Option Nat :=
  D.fields.findIdx? fun field => field = name

def Declared.localIndex (D : Declared) (name : List Byte) : Option Nat :=
  D.locals.findIdx? fun var => var = name

def Declared.functionIndex (D : Declared) (name : List Byte) : Option Nat :=
  D.functions.findIdx? fun function => function = name

/-- The symbols from the current one on, and what has come out so far. -/
structure State where
  symbols : List Symbol
  code : List OperationCommand
  consts : List CVar
  errors : List ErrorMsg
deriving DecidableEq, Repr

namespace State

/-- `__Symbol`. -/
def sym (s : State) : Symbol := s.symbols.headD .fin

/-- The current symbol is this keyword. -/
def atKeyword (s : State) (k : Keyword) : Bool := s.sym = .keyword k

def getsym (s : State) : State := { s with symbols := s.symbols.tail }

/-- `__Code.push_back`. -/
def push (s : State) (func : Func) (op_switch : Nat) : State :=
  { s with code := s.code ++ [⟨func, op_switch⟩] }

/-- A constant is kept and loaded. -/
def load (s : State) (value : CVar) : State :=
  { s with consts := s.consts ++ [value], code := s.code ++ [⟨.LOAD_CONST, s.consts.length⟩] }

def error (s : State) (text : String) : State := { s with errors := s.errors ++ [⟨[], text⟩] }

def nameError (s : State) (name : List Byte) (text : String) : State :=
  { s with errors := s.errors ++ [⟨name, text⟩] }

end State

/-- A jump by `n` further. -/
def OperationCommand.shift (n : Nat) (op : OperationCommand) : OperationCommand :=
  if op.func = .JUMP_Y ∨ op.func = .JUMP_N ∨ op.func = .JUMP then
    { op with op_switch := op.op_switch + n }
  else op

/-- The jumps from `insert_pos` on are shifted. -/
def State.shiftFrom (s : State) (insert_pos n : Nat) : State :=
  { s with code := s.code.take insert_pos ++ (s.code.drop insert_pos).map (·.shift n) }

/-- `__Code.insert`. -/
def State.insert (s : State) (pos : Nat) (func : Func) (op_switch : Nat) : State :=
  { s with code := s.code.insertIdx pos ⟨func, op_switch⟩ }

/-! ## The grammar -/

/-- A symbol up to `SYMBOL_IDENT`: a constant or a name. -/
def isOperand : Symbol → Bool
  | .int _ | .float _ | .str _ | .ident _ => true
  | _ => false

/-- The operation of a comparison. -/
def compareOper : Symbol → Option Nat
  | .keyword .SYMBOL_LIKE | .keyword .SYMBOL_EQ | .keyword .SYMBOL_EE => some 8
  | .keyword .SYMBOL_NOTE => some 9
  | .keyword .SYMBOL_LT => some 10
  | .keyword .SYMBOL_GE => some 11
  | .keyword .SYMBOL_GT => some 12
  | .keyword .SYMBOL_LE => some 13
  | _ => none

open Keyword

/-- What `group by` is followed by; behind a comma the loop ends with the next symbol. -/
def groupBy (s : State) : State :=
  let message := "group by 后面必须是常量或者是变量，或者是表达式."
  match s.sym with
  | .keyword _ => s.error message
  | _ =>
      let s := s.getsym
      if s.atKeyword SYMBOL_COMMA then
        let s := s.getsym
        if isOperand s.sym ∨ s.sym = .fin then s else s.error message
      else s

mutual

/-- `block`. -/
def block (D : Declared) : Nat → State → Option State
  | 0, _ => none
  | n + 1, s => (statement D n s).bind (blockRest D n)

/-- The loop of `block`. -/
def blockRest (D : Declared) : Nat → State → Option State
  | 0, _ => none
  | n + 1, s =>
      if s.atKeyword SYMBOL_SEMICOLON then (statement D n s.getsym).bind (blockRest D n) else some s

/-- `statement`. -/
def statement (D : Declared) : Nat → State → Option State
  | 0, _ => none
  | n + 1, s =>
      match s.sym with
      | .keyword SYMBOL_STAT => statClause D n s.getsym
      | .keyword SYMBOL_CALL => function D n s.getsym
      | .keyword SYMBOL_IF => ifStatement D n s.getsym
      | .ident name =>
          match D.index name, D.localIndex name with
          | some index, _ => assignment D .STOR index n s.getsym
          | none, some index => assignment D .STOR_LOCAL_VAR index n s.getsym
          | none, none => some (s.nameError name "是个未声明的变量.")
      | _ => some s

/-- An assignment behind its variable. -/
def assignment (D : Declared) (func : Func) (index : Nat) : Nat → State → Option State
  | 0, _ => none
  | n + 1, s =>
      if s.atKeyword SYMBOL_EQ then (expression D n s.getsym).map (·.push func index)
      else some (s.error "缺少等于号 = ")

/-- A block in braces, or an error. -/
def braces (D : Declared) (missing : String) : Nat → State → Option (State × Bool)
  | 0, _ => none
  | n + 1, s =>
      if s.atKeyword SYMBOL_LCS then
        (block D n s.getsym).map fun s =>
          if s.atKeyword SYMBOL_RCS then (s.getsym, true) else (s.error "缺少\x7d", false)
      else some (s.error missing, false)

/-- `if` behind the keyword. -/
def ifStatement (D : Declared) : Nat → State → Option State
  | 0, _ => none
  | n + 1, s =>
      if s.atKeyword SYMBOL_LBRACKET then
        (conditions D n s.getsym).bind fun s =>
          if s.atKeyword SYMBOL_RBRACKET then
            let insert_pos := s.code.length
            (braces D "if条件后，必须有大括号\x7b\x7d" n s.getsym).bind fun (s, ok) =>
              if ok then
                let s := s.shiftFrom insert_pos 2
                let s := s.insert insert_pos .JUMP_Y (insert_pos + 2)
                let s := s.insert (insert_pos + 1) .JUMP_N (s.code.length + 2)
                elsePart D s.code.length n s
              else some s
          else some (s.error "if后缺少)")
      else some (s.error "if后缺少(")

/-- The `else` of an `if`, if there is one. -/
def elsePart (D : Declared) (insert_pos : Nat) : Nat → State → Option State
  | 0, _ => none
  | n + 1, s =>
      (if s.atKeyword SYMBOL_ELSE then braces D "else条件后必须有\x7b\x7d" n s.getsym
        else some (s, true)).map fun (s, ok) =>
        if ok then
          let s := s.shiftFrom insert_pos 1
          s.insert insert_pos .JUMP (s.code.length + 1)
        else s

/-- `stat` behind the keyword. -/
def statClause (D : Declared) : Nat → State → Option State
  | 0, _ => none
  | n + 1, s =>
      ((expression D n s).bind (expressionList D n)).bind fun s =>
        (if s.atKeyword SYMBOL_WHERE then conditions D n s.getsym else some s).map fun s =>
          if s.atKeyword SYMBOL_GROUP then
            let s := s.getsym
            if s.atKeyword SYMBOL_BY then groupBy s.getsym else s.error "group 后面需要by."
          else s.error "必须有group by 子句."

/-- `function`. -/
def function (D : Declared) : Nat → State → Option State
  | 0, _ => none
  | n + 1, s =>
      match s.sym with
      | .ident name =>
          match D.functionIndex name with
          | none => some (s.nameError name "是个未知的函数.")
          | some index =>
              let s := s.getsym
              if s.atKeyword SYMBOL_LBRACKET then
                ((expression D n s.getsym).bind (expressionList D n)).map fun s =>
                  if s.atKeyword SYMBOL_RBRACKET then (s.push .CALL index).getsym
                  else s.error "函数必须以)结束."
              else some (s.error "函数后面必须是(.")
      | _ => some (s.error "不是一个函数或者过程标志符.")

/-- Further expressions behind commas. -/
def expressionList (D : Declared) : Nat → State → Option State
  | 0, _ => none
  | n + 1, s =>
      if s.atKeyword SYMBOL_COMMA then (expression D n s.getsym).bind (expressionList D n)
      else some s

/-- `conditions`. -/
def conditions (D : Declared) : Nat → State → Option State
  | 0, _ => none
  | n + 1, s =>
      (condition D n s).bind fun s =>
        if s.atKeyword SYMBOL_OR then (conditions D n s.getsym).map (·.push .OPER 15) else some s

/-- `condition`. -/
def condition (D : Declared) : Nat → State → Option State
  | 0, _ => none
  | n + 1, s =>
      (condfactor D n s).bind fun s =>
        if s.atKeyword SYMBOL_AND then (condition D n s.getsym).map (·.push .OPER 14) else some s

/-- `condfactor`. -/
def condfactor (D : Declared) : Nat → State → Option State
  | 0, _ => none
  | n + 1, s =>
      if s.atKeyword SYMBOL_LBRACKET then
        (conditions D n s.getsym).map fun s =>
          if s.atKeyword SYMBOL_RBRACKET then s.getsym else s.error "缺少)"
      else if s.atKeyword SYMBOL_NOT then (condfactor D n s.getsym).map (·.push .OPER 6)
      else comp_clause D n s

/-- `comp_clause`. -/
def comp_clause (D : Declared) : Nat → State → Option State
  | 0, _ => none
  | n + 1, s =>
      (expression D n s).bind fun s =>
        (expression D n s.getsym).map fun s' =>
          match compareOper s.sym with
          | some op => s'.push .OPER op
          | none => s'

/-- `expression`. -/
def expression (D : Declared) : Nat → State → Option State
  | 0, _ => none
  | n + 1, s =>
      (if s.atKeyword SYMBOL_SUB ∨ s.atKeyword SYMBOL_PLUS then
        (term D n s.getsym).map fun s => if s.atKeyword SYMBOL_SUB then s.push .OPER 1 else s
        else term D n s).bind (expressionRest D n)

/-- The loop of `expression`. -/
def expressionRest (D : Declared) : Nat → State → Option State
  | 0, _ => none
  | n + 1, s =>
      if s.atKeyword SYMBOL_SUB ∨ s.atKeyword SYMBOL_PLUS then
        (term D n s.getsym).bind fun s' =>
          expressionRest D n (s'.push .OPER (if s.atKeyword SYMBOL_PLUS then 2 else 3))
      else some s

/-- `term`. -/
def term (D : Declared) : Nat → State → Option State
  | 0, _ => none
  | n + 1, s => if s.sym = .fin then some s else (factor D n s).bind (termRest D n)

/-- The loop of `term`. -/
def termRest (D : Declared) : Nat → State → Option State
  | 0, _ => none
  | n + 1, s =>
      if s.atKeyword SYMBOL_MULTI ∨ s.atKeyword SYMBOL_DIV then
        (factor D n s.getsym).bind fun s' =>
          termRest D n (s'.push .OPER (if s.atKeyword SYMBOL_MULTI then 4 else 5))
      else some s

/-- `factor`, a loop: behind a constant or a bracket it looks for another factor, behind a name it
ends. -/
def factor (D : Declared) : Nat → State → Option State
  | 0, _ => none
  | n + 1, s =>
      match s.sym with
      | .ident name =>
          match D.index name, D.localIndex name with
          | some index, _ => some (s.push .LOAD_VAR index).getsym
          | none, some index => some (s.push .LOAD_LOCAL_VAR index).getsym
          | none, none => function D n s
      | .int text => factor D n (s.load (.int (atoi text))).getsym
      | .float text => factor D n (s.load (.double text)).getsym
      | .str text => factor D n (s.load (.str text)).getsym
      | .keyword SYMBOL_LBRACKET =>
          (expression D n s.getsym).bind fun s =>
            if s.atKeyword SYMBOL_RBRACKET then factor D n s.getsym else some (s.error "缺少右括号).")
      | _ => some s

end

/-! ## Compiling a script -/

/-- The lines of a text, without their newlines. -/
def lines : List Byte → List (List Byte)
  | [] => []
  | c :: rest =>
      if c = 10 then [] :: lines rest
      else
        match lines rest with
        | [] => [[c]]
        | line :: more => (c :: line) :: more

/-- The lines that `getline` returns: it fails at the first one that does not fit into its
buffer. -/
def readLines (text : List Byte) : List (List Byte) :=
  (lines text).takeWhile fun line => line.length < 1024 * 4

/-- The first characters of a line behind its space are `//`. -/
def isComment (line : List Byte) : Bool := [47, 47].isPrefixOf (line.dropWhile isSpace)

/-- The lines that are not comments, each with its newline. -/
def withoutComments (lines : List (List Byte)) : List Byte :=
  (lines.filter fun line => !isComment line).flatMap (· ++ [10])

structure Compiled where
  code : List OperationCommand
  consts : List CVar
  errors : List ErrorMsg
deriving DecidableEq, Repr

/-- `compile` on a new engine. -/
def compile (D : Declared) (fuel : Nat) (stat_rule : List Byte) : Option (Bool × Compiled) :=
  let StringBody := withoutComments (readLines stat_rule)
  (parseText fuel StringBody).bind fun
    | .error message => some (false, ⟨[], [], [⟨[], message⟩]⟩)
    | .ok symbols =>
        (block D fuel ⟨symbols, [], [], []⟩).map fun s =>
          (s.errors.isEmpty, ⟨s.code ++ [⟨.OPER, 0⟩], s.consts, s.errors⟩)

/-! ## Running the code -/

/-- The record and the local variables. -/
structure Vars where
  cdr : Nat → Int32
  locals : Nat → Int32

/-- The next instruction, the stack from its top on, and the variables. -/
structure Config where
  p : Nat
  stack : List Int32
  vars : Vars

/-- The operations on the two topmost values. -/
def binary (op_switch : Nat) (a b : Int32) : Option Int32 :=
  match op_switch with
  | 2 => some (a + b)
  | 3 => some (a - b)
  | 4 => some (a * b)
  | 5 => if b = 0 then none else some (a / b)
  | 8 => some (if a = b then 1 else 0)
  | 9 => some (if a = b then 0 else 1)
  | 10 => some (if a < b then 1 else 0)
  | 11 => some (if a ≥ b then 1 else 0)
  | 12 => some (if a > b then 1 else 0)
  | 13 => some (if a ≤ b then 1 else 0)
  | 14 => some (a &&& b)
  | 15 => some (a ||| b)
  | _ => none

/-- `OPER`: the end, the operations on one value, and those on two; there are no others. -/
def oper (op_switch : Nat) (c : Config) : Option Config :=
  match op_switch, c.stack with
  | 0, _ => some { c with p := 0 }
  | 1, a :: rest => some { c with stack := -a :: rest }
  | 6, a :: rest => some { c with stack := (if a = 0 then 1 else 0) :: rest }
  | op, b :: a :: rest =>
      if op = 7 ∨ 15 < op then some c
      else (binary op a b).map fun v => { c with stack := v :: rest }
  | _, _ => none

/-- One instruction; `none` for a division by zero, for a call and for a constant that is not an
integer. -/
def step (code : List OperationCommand) (consts : List CVar) (c : Config) : Option Config :=
  match code[c.p]? with
  | none => none
  | some op =>
      let next := { c with p := c.p + 1 }
      match op.func, c.stack with
      | .LOAD_VAR, stack => some { next with stack := c.vars.cdr op.op_switch :: stack }
      | .LOAD_LOCAL_VAR, stack => some { next with stack := c.vars.locals op.op_switch :: stack }
      | .LOAD_CONST, stack =>
          match consts[op.op_switch]? with
          | some (.int v) => some { next with stack := v :: stack }
          | _ => none
      | .STOR, v :: stack =>
          some ⟨c.p + 1, stack, { c.vars with cdr := Function.update c.vars.cdr op.op_switch v }⟩
      | .STOR_LOCAL_VAR, v :: stack =>
          some ⟨c.p + 1, stack,
            { c.vars with locals := Function.update c.vars.locals op.op_switch v }⟩
      | .JUMP, _ => some { c with p := op.op_switch }
      | .JUMP_Y, v :: _ => some (if v ≠ 0 then { c with p := op.op_switch } else next)
      | .JUMP_N, v :: _ => some (if v = 0 then { c with p := op.op_switch } else next)
      | .OPER, _ => oper op.op_switch next
      | _, _ => none

/-- `execute` from an instruction on: until the next one is 0. -/
def executeFrom (code : List OperationCommand) (consts : List CVar) : Nat → Config → Option Vars
  | 0, _ => none
  | n + 1, c =>
      match step code consts c with
      | none => none
      | some c => if c.p = 0 then some c.vars else executeFrom code consts n c

/-- `execute`. -/
def execute (program : Compiled) (fuel : Nat) (vars : Vars) : Option Vars :=
  executeFrom program.code program.consts fuel ⟨0, [], vars⟩

end CSLEngine
