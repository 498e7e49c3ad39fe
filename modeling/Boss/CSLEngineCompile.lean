import Boss.CSLEngineTree
import Boss.Fuel
import Boss.SortedMap

/-!
# Compiling a tree

On the symbols of a tree the compiler brings out the code of the tree, keeps its constants and stops
in front of what follows.  Products and sums are compiled by a loop that goes on behind a first
part, so for these the statement is about what the loop makes of the rest: what it comes to behind
the code of an expression, the whole rule comes to in front of its symbols.

For an `if` the code of a block comes out at an address that is too small by the jumps that are put
in before it; shifted it is the code of the block where it then stands.

Main result: `compile_settles`, the compiler ends with the code of the program.
-/

namespace CSLEngine

open Decimal CSymbolParser Keyword Fuel

/-! ## States -/

namespace State

variable (s : State) (code code' : List OperationCommand) (consts consts' : List CVar)
  (symbols : List Symbol) (x : Symbol)

/-- These symbols are still to be read. -/
def reading (symbols : List Symbol) : State := { s with symbols := symbols }

/-- This code and these constants have come out. -/
def emit (code : List OperationCommand) (consts : List CVar) : State :=
  { s with code := s.code ++ code, consts := s.consts ++ consts }

@[simp] theorem emit_reading :
    (s.reading symbols).emit code consts = (s.emit code consts).reading symbols := rfl

@[simp] theorem emit_emit :
    (s.emit code consts).emit code' consts' = s.emit (code ++ code') (consts ++ consts') := by
  simp [emit]

@[simp] theorem emit_nil : s.emit [] [] = s := by
  simp [emit]

@[simp] theorem getsym_reading : (s.reading (x :: symbols)).getsym = s.reading symbols := rfl

@[simp] theorem sym_reading : (s.reading (x :: symbols)).sym = x := rfl

@[simp] theorem atKeyword_reading (k : Keyword) :
    (s.reading (x :: symbols)).atKeyword k = decide (x = .keyword k) := rfl

@[simp] theorem push_eq_emit (func : Func) (i : Nat) : s.push func i = s.emit [⟨func, i⟩] [] := by
  simp [push, emit]

@[simp] theorem shiftFrom_reading (pos n : Nat) :
    (s.reading symbols).shiftFrom pos n = (s.shiftFrom pos n).reading symbols := rfl

@[simp] theorem insert_reading (pos : Nat) (func : Func) (i : Nat) :
    (s.reading symbols).insert pos func i = (s.insert pos func i).reading symbols := rfl

@[simp] theorem consts_emit : (s.emit code consts).consts = s.consts ++ consts := rfl

@[simp] theorem code_emit : (s.emit code consts).code = s.code ++ code := rfl

@[simp] theorem code_reading : (s.reading symbols).code = s.code := rfl

end State

/-! ## Expressions -/

/-- The rule of a level. -/
def Level.parse (D : Declared) : Level → Nat → State → Option State
  | .factor => CSLEngine.factor D
  | .term => CSLEngine.term D
  | .expr => expression D

/-- The loop behind a first part. -/
def Level.rest (D : Declared) : Level → Nat → State → Option State
  | .factor => fun _ s => some s
  | .term => termRest D
  | .expr => expressionRest D

/-- What ends a factor: no operand, and no bracket that would begin another factor. -/
def endsFactor (x : Symbol) : Bool := !isOperand x && x ≠ .keyword SYMBOL_LBRACKET

def endsTerm (x : Symbol) : Bool :=
  endsFactor x && x ≠ .keyword SYMBOL_MULTI && x ≠ .keyword SYMBOL_DIV

def endsExpr (x : Symbol) : Bool :=
  endsTerm x && x ≠ .keyword SYMBOL_PLUS && x ≠ .keyword SYMBOL_SUB

/-- What may follow on a level, with the loop behind it still to come. -/
def Level.ends : Level → Symbol → Bool
  | .factor => endsFactor
  | .term => endsFactor
  | .expr => endsTerm

variable {D : Declared}

/-- What ends a term ends a factor. -/
theorem endsFactor_of_endsTerm {x : Symbol} (h : endsTerm x = true) : endsFactor x = true := by
  simp only [endsTerm, Bool.and_eq_true] at h
  exact h.1.1

/-- What ends an expression ends a term. -/
theorem endsTerm_of_endsExpr {x : Symbol} (h : endsExpr x = true) : endsTerm x = true := by
  simp only [endsExpr, Bool.and_eq_true] at h
  exact h.1.1

/-- At a symbol that ends it a factor is empty. -/
theorem factor_end {x : Symbol} (hx : endsFactor x = true) (s : State) (rest : List Symbol)
    (n : Nat) : factor D (n + 1) (s.reading (x :: rest)) = some (s.reading (x :: rest)) := by
  rw [factor, State.sym_reading]
  split <;> simp_all [endsFactor, isOperand]

/-- At a symbol that ends it a term has no further factor. -/
theorem termRest_end {x : Symbol} (hx : endsTerm x = true) (s : State) (rest : List Symbol)
    (n : Nat) : termRest D (n + 1) (s.reading (x :: rest)) = some (s.reading (x :: rest)) := by
  simp only [endsTerm, Bool.and_eq_true, decide_eq_true_eq] at hx
  simp [termRest, State.atKeyword, hx.1.2, hx.2]

/-- At a symbol that ends it an expression has no further term. -/
theorem expressionRest_end {x : Symbol} (hx : endsExpr x = true) (s : State) (rest : List Symbol)
    (n : Nat) :
    expressionRest D (n + 1) (s.reading (x :: rest)) = some (s.reading (x :: rest)) := by
  simp only [endsExpr, Bool.and_eq_true, decide_eq_true_eq] at hx
  simp [expressionRest, State.atKeyword, hx.1.2, hx.2]

/-- A declared name compiles to loading it. -/
theorem factor_var {name : List Byte} {r : Ref} (h : D.resolve name = some r) (s : State)
    (rest : List Symbol) (n : Nat) :
    factor D (n + 1) (s.reading (.ident name :: rest)) =
      some ((s.emit [r.load] []).reading rest) := by
  rw [factor, State.sym_reading]
  dsimp only
  unfold Declared.resolve at h
  cases hindex : D.index name with
  | some index =>
      rw [hindex] at h
      obtain rfl := Option.some.inj h
      simp only [State.push_eq_emit, State.emit_reading, State.getsym_reading, Ref.load]
  | none =>
      rw [hindex] at h
      cases hlocal : D.localIndex name with
      | some index =>
          rw [hlocal] at h
          obtain rfl := Option.some.inj h
          simp only [State.push_eq_emit, State.emit_reading, State.getsym_reading, Ref.load]
      | none =>
          rw [hlocal] at h
          cases h

/-- A multiplying operator ends a factor. -/
theorem MulOp.endsFactor_symbol (op : MulOp) : endsFactor op.symbol = true := by
  cases op <;> rfl

/-- An adding operator ends a term. -/
theorem AddOp.endsTerm_symbol (op : AddOp) : endsTerm op.symbol = true := by
  cases op <;> rfl

/-- Behind a multiplying operator comes a factor, and then the operation. -/
theorem termRest_mul (op : MulOp) (s : State) (rest : List Symbol) (n : Nat) :
    termRest D (n + 1) (s.reading (op.symbol :: rest)) =
      (factor D n (s.reading rest)).bind fun s' => termRest D n (s'.push .OPER op.oper) := by
  cases op <;> rfl

/-- Behind an adding operator comes a term, and then the operation. -/
theorem expressionRest_add (op : AddOp) (s : State) (rest : List Symbol) (n : Nat) :
    expressionRest D (n + 1) (s.reading (op.symbol :: rest)) =
      (term D n (s.reading rest)).bind fun s' => expressionRest D n (s'.push .OPER op.oper) := by
  cases op <;> rfl

/-- An expression begins with an operand or with a bracket. -/
theorem Expr.symbols_head {l : Level} (e : Expr l) : ∃ x tail, e.symbols = x :: tail ∧
    (isOperand x = true ∨ x = .keyword SYMBOL_LBRACKET) := by
  induction e with
  | const text => exact ⟨_, _, rfl, Or.inl rfl⟩
  | var name => exact ⟨_, _, rfl, Or.inl rfl⟩
  | paren e ih => exact ⟨_, _, rfl, Or.inr rfl⟩
  | factor f ih => exact ih
  | mul op t f iht ihf =>
      obtain ⟨x, tail, htail, hx⟩ := iht
      exact ⟨x, tail ++ op.symbol :: f.symbols, by simp [symbols, htail], hx⟩
  | term t ih => exact ih
  | add op e t ihe iht =>
      obtain ⟨x, tail, htail, hx⟩ := ihe
      exact ⟨x, tail ++ op.symbol :: t.symbols, by simp [symbols, htail], hx⟩

/-- An operand begins with no other keyword than a bracket. -/
theorem head_ne_keyword {y : Symbol} (hy : isOperand y = true ∨ y = .keyword SYMBOL_LBRACKET)
    {k : Keyword} (hk : k ≠ SYMBOL_LBRACKET) : y ≠ .keyword k := by
  rintro rfl
  simp [isOperand, hk] at hy

/-- **Expressions are compiled**: what the loop comes to behind the code of an expression, the rule
comes to in front of its symbols. -/
theorem Expr.parses {l : Level} (e : Expr l) (he : e.Closed D) (s : State) {x : Symbol}
    (hx : l.ends x = true) (rest : List Symbol) {s' : State}
    (h : Settles (fun n => l.rest D n
      ((s.emit (e.code D s.consts.length) e.consts).reading (x :: rest))) s') :
    Settles (fun n => l.parse D n (s.reading (e.symbols ++ x :: rest))) s' := by
  induction e generalizing s x rest s' with
  | const text =>
      -- behind a constant the rule looks for another factor
      have hnext : Settles (fun n => CSLEngine.factor D n
          ((s.load (.int (atoi text))).reading (x :: rest))) s' :=
        h.succ fun n => factor_end hx _ _ n
      exact hnext.succ fun n => rfl
  | var name =>
      obtain ⟨r, hr⟩ := Option.isSome_iff_exists.mp he
      refine h.succ fun n => ?_
      simp only [code, consts, hr, Option.toList_some, List.map_cons, List.map_nil]
      exact factor_var hr s _ n
  | paren e ih =>
      have hclose : Settles (fun n => expressionRest D n
          ((s.emit (e.code D s.consts.length) e.consts).reading
            (.keyword SYMBOL_RBRACKET :: x :: rest))) _ :=
        (settles_some _).succ fun n => expressionRest_end rfl _ _ n
      have hinner := ih he s rfl _ hclose
      have hnext : Settles (fun n => CSLEngine.factor D n
          ((s.emit (e.code D s.consts.length) e.consts).reading (x :: rest))) s' :=
        h.succ fun n => factor_end hx _ _ n
      rw [symbols, List.append_assoc, List.cons_append]
      exact (hinner.bind hnext).succ fun n => rfl
  | factor f ih =>
      have hf := ih he s hx rest (settles_some _)
      obtain ⟨y, tail, htail, hy⟩ := f.symbols_head
      refine (hf.bind h).succ fun n => ?_
      rw [symbols, htail]
      have hfin : y ≠ .fin := by
        rintro rfl
        simp [isOperand] at hy
      exact if_neg hfin
  | mul op t f iht ihf =>
      have hf := ihf he.2 (s.emit (t.code D s.consts.length) t.consts) hx rest (settles_some _)
      rw [symbols, List.append_assoc]
      refine iht he.1 s op.endsFactor_symbol _ ?_
      refine Settles.succ (hf.bind ?_) fun n => termRest_mul op _ _ n
      simpa [code, consts, Level.rest] using h
  | term t ih =>
      have ht := ih he s (endsFactor_of_endsTerm hx) rest
        ((settles_some _).succ fun n => termRest_end hx _ _ n)
      obtain ⟨y, tail, htail, hy⟩ := t.symbols_head
      refine (ht.bind h).succ fun n => ?_
      rw [symbols, htail]
      have hsub : y ≠ .keyword SYMBOL_SUB := head_ne_keyword hy (by decide)
      have hplus : y ≠ .keyword SYMBOL_PLUS := head_ne_keyword hy (by decide)
      simp [Level.parse, Level.rest, expression, hsub, hplus]
  | add op e t ihe iht =>
      have ht := iht he.2 (s.emit (e.code D s.consts.length) e.consts) (endsFactor_of_endsTerm hx)
        rest ((settles_some _).succ fun n => termRest_end hx _ _ n)
      rw [symbols, List.append_assoc]
      refine ihe he.1 s op.endsTerm_symbol _ ?_
      refine Settles.succ (ht.bind ?_) fun n => expressionRest_add op _ _ n
      simpa [code, consts, Level.rest] using h

/-- An expression in front of what ends it. -/
theorem Expr.expression_settles (e : Expr .expr) (he : e.Closed D) (s : State) {x : Symbol}
    (hx : endsExpr x = true) (rest : List Symbol) :
    Settles (fun n => expression D n (s.reading (e.symbols ++ x :: rest)))
      ((s.emit (e.code D s.consts.length) e.consts).reading (x :: rest)) :=
  e.parses he s (endsTerm_of_endsExpr hx) rest
    ((settles_some _).succ fun n => expressionRest_end hx _ _ n)

/-! ## Conditions -/

def CondLevel.parse (D : Declared) : CondLevel → Nat → State → Option State
  | .factor => condfactor D
  | .all => condition D
  | .any => conditions D

/-- What may follow on a level. -/
def CondLevel.ends : CondLevel → Symbol → Bool
  | .factor, x => endsExpr x
  | .all, x => endsExpr x && x ≠ .keyword SYMBOL_AND
  | .any, x => endsExpr x && x ≠ .keyword SYMBOL_AND && x ≠ .keyword SYMBOL_OR

/-- What ends a condition of any level ends an expression. -/
theorem CondLevel.endsExpr {l : CondLevel} {x : Symbol} (h : l.ends x = true) :
    endsExpr x = true := by
  cases l with
  | factor => exact h
  | all =>
      simp only [ends, Bool.and_eq_true] at h
      exact h.1
  | any =>
      simp only [ends, Bool.and_eq_true] at h
      exact h.1.1

/-- A comparing operator ends an expression and stands for its operation. -/
theorem CompOp.symbol_spec (op : CompOp) :
    CSLEngine.endsExpr op.symbol = true ∧ compareOper op.symbol = some op.oper := by
  cases op <;> exact ⟨rfl, rfl⟩

/-- A comparison begins with an operand. -/
theorem Expr.symbols_head_operand {l : Level} {e : Expr l} (h : e.startsParen = false) :
    ∃ x tail, e.symbols = x :: tail ∧ isOperand x = true := by
  obtain ⟨x, tail, htail, hx | hx⟩ := e.symbols_head
  · exact ⟨x, tail, htail, hx⟩
  · simp [startsParen, htail, hx] at h

/-- A comparison compiles to both sides and the operation. -/
theorem comp_clause_settles {op : CompOp} {s s₁ s₂ : State} {symbols : List Symbol}
    (ha : Settles (fun n => expression D n s) (s₁.reading (op.symbol :: symbols)))
    (hb : Settles (fun n => expression D n (s₁.reading symbols)) s₂) :
    Settles (fun n => comp_clause D n s) (s₂.push .OPER op.oper) := by
  apply Settles.of_succ
  simp only [comp_clause]
  apply ha.bind
  simp only [State.getsym_reading, State.sym_reading, op.symbol_spec.2]
  exact hb.map _

/-- **Conditions are compiled.** -/
theorem Cond.parses {l : CondLevel} (c : Cond l) (hc : c.Closed D) (s : State) {x : Symbol}
    (hx : l.ends x = true) (rest : List Symbol) :
    Settles (fun n => l.parse D n (s.reading (c.symbols ++ x :: rest)))
      ((s.emit (c.code D s.consts.length) c.consts).reading (x :: rest)) := by
  induction c generalizing s x rest with
  | comp op a b h =>
      have ha := a.expression_settles hc.1 s op.symbol_spec.1 (b.symbols ++ x :: rest)
      have hb := b.expression_settles hc.2 (s.emit (a.code D s.consts.length) a.consts) hx rest
      have hclause := comp_clause_settles ha hb
      obtain ⟨y, tail, htail, hy⟩ := a.symbols_head_operand h
      have hbracket : y ≠ .keyword SYMBOL_LBRACKET := by
        rintro rfl
        cases hy
      have hnot : y ≠ .keyword SYMBOL_NOT := by
        rintro rfl
        cases hy
      apply Settles.of_succ
      simpa [CondLevel.parse, condfactor, symbols, code, consts, htail, hbracket, hnot]
        using hclause
  | not c ih =>
      have hinner := ih hc s hx rest
      apply Settles.of_succ
      simpa [CondLevel.parse, condfactor, symbols, code, consts] using
        hinner.map fun s' => s'.push .OPER 6
  | paren c ih =>
      have hinner := ih hc s (x := .keyword SYMBOL_RBRACKET) rfl (x :: rest)
      apply Settles.of_succ
      simpa [CondLevel.parse, condfactor, symbols, code, consts] using
        hinner.map fun s' => if s'.atKeyword SYMBOL_RBRACKET then s'.getsym else s'.error "缺少)"
  | factor c ih =>
      have hinner := ih hc s (CondLevel.endsExpr hx) rest
      apply Settles.of_succ
      simp only [CondLevel.parse, condition]
      apply hinner.bind
      simp only [CondLevel.ends, Bool.and_eq_true, decide_eq_true_eq] at hx
      simpa [hx.2, code, consts] using settles_some _
  | and c d ihc ihd =>
      have hleft := ihc hc.1 s (x := .keyword SYMBOL_AND) rfl (d.symbols ++ x :: rest)
      have hright := ihd hc.2 (s.emit (c.code D s.consts.length) c.consts) hx rest
      apply Settles.of_succ
      simp only [CondLevel.parse, condition, symbols, List.append_assoc, List.cons_append]
      apply hleft.bind
      simpa [CondLevel.parse, code, consts] using hright.map fun s' => s'.push .OPER 14
  | all c ih =>
      simp only [CondLevel.ends, Bool.and_eq_true, decide_eq_true_eq] at hx
      have hinner := ih hc s (x := x) (by simp [CondLevel.ends, hx.1]) rest
      apply Settles.of_succ
      simp only [CondLevel.parse, conditions]
      apply hinner.bind
      simpa [hx.2, code, consts] using settles_some _
  | or c d ihc ihd =>
      have hleft := ihc hc.1 s (x := .keyword SYMBOL_OR) rfl (d.symbols ++ x :: rest)
      have hright := ihd hc.2 (s.emit (c.code D s.consts.length) c.consts) hx rest
      apply Settles.of_succ
      simp only [CondLevel.parse, conditions, symbols, List.append_assoc, List.cons_append]
      apply hleft.bind
      simpa [CondLevel.parse, code, consts] using hright.map fun s' => s'.push .OPER 15

/-! ## Statements -/

def ProgLevel.parse (D : Declared) : ProgLevel → Nat → State → Option State
  | .stmt => statement D
  | .block => CSLEngine.block D

def ProgLevel.ends : ProgLevel → Symbol → Bool
  | .stmt, x => x = .keyword SYMBOL_SEMICOLON || x = .keyword SYMBOL_RCS || x = .fin
  | .block, x => x = .keyword SYMBOL_RCS || x = .fin

/-- Only the code that came out last is moved. -/
theorem State.shiftFrom_emit (s : State) (code : List OperationCommand) (consts : List CVar)
    (n : Nat) :
    (s.emit code consts).shiftFrom s.code.length n = s.emit (code.map (·.shift n)) consts := by
  simp [emit, shiftFrom]

/-- An instruction is put in before the code that came out last. -/
theorem State.insert_emit (s : State) (code : List OperationCommand) (consts : List CVar)
    (func : Func) (i : Nat) :
    (s.emit code consts).insert s.code.length func i = s.emit (⟨func, i⟩ :: code) consts := by
  simp [emit, insert, SortedMap.insertIdx_border]

/-- The jumps of an `if` in front of its block. -/
theorem State.insert_jumps (s : State) (code : List OperationCommand) (consts : List CVar) :
    ((s.emit code consts).insert s.code.length .JUMP_Y (s.code.length + 2)).insert
        (s.code.length + 1) .JUMP_N
        (((s.emit code consts).insert s.code.length .JUMP_Y (s.code.length + 2)).code.length + 2) =
      s.emit (⟨.JUMP_Y, s.code.length + 2⟩ ::
        ⟨.JUMP_N, s.code.length + 2 + code.length + 1⟩ :: code) consts := by
  have h := (s.emit [⟨.JUMP_Y, s.code.length + 2⟩] []).insert_emit code consts .JUMP_N
    (s.code.length + 2 + code.length + 1)
  rw [insert_emit]
  have hlength : (s.emit (⟨.JUMP_Y, s.code.length + 2⟩ :: code) consts).code.length + 2 =
      s.code.length + 2 + code.length + 1 := by
    simp
    omega
  rw [hlength]
  simpa using h

/-- A block in braces compiles to the block. -/
theorem braces_settles {missing : String} {s s' : State} {symbols rest : List Symbol}
    (h : Settles (fun n => block D n (s.reading symbols))
      (s'.reading (.keyword SYMBOL_RCS :: rest))) :
    Settles (fun n => braces D missing n (s.reading (.keyword SYMBOL_LCS :: symbols)))
      (s'.reading rest, true) := by
  apply Settles.of_succ
  simpa [braces] using h.map fun s =>
    if s.atKeyword SYMBOL_RCS then (s.getsym, true) else (s.error "缺少\x7d", false)

/-- The jump over the block of an `else`, which is moved by it. -/
theorem State.insert_jump (s : State) (code : List OperationCommand) (consts : List CVar) :
    ((s.emit code consts).shiftFrom s.code.length 1).insert s.code.length .JUMP
        (((s.emit code consts).shiftFrom s.code.length 1).code.length + 1) =
      s.emit (⟨.JUMP, s.code.length + 1 + code.length⟩ :: code.map (·.shift 1)) consts := by
  rw [shiftFrom_emit, insert_emit, code_emit, List.length_append, List.length_map,
    Nat.add_right_comm]

/-- Without an `else` there is a jump to what follows. -/
theorem elsePart_none (s : State) {x : Symbol} (hx : x ≠ .keyword SYMBOL_ELSE)
    (rest : List Symbol) :
    Settles (fun n => elsePart D s.code.length n (s.reading (x :: rest)))
      ((s.emit [⟨.JUMP, s.code.length + 1⟩] []).reading (x :: rest)) := by
  apply Settles.of_succ
  have hjump := s.insert_jump [] []
  rw [State.emit_nil] at hjump
  simpa [elsePart, hx, hjump] using settles_some _

/-- An else part compiles to a jump over its block, and the block behind it. -/
theorem elsePart_else {s : State} {code : List OperationCommand} {consts : List CVar}
    {symbols rest : List Symbol}
    (h : Settles (fun n => block D n (s.reading symbols))
      ((s.emit code consts).reading (.keyword SYMBOL_RCS :: rest))) :
    Settles (fun n => elsePart D s.code.length n
        (s.reading (.keyword SYMBOL_ELSE :: .keyword SYMBOL_LCS :: symbols)))
      ((s.emit (⟨.JUMP, s.code.length + 1 + code.length⟩ :: code.map (·.shift 1)) consts).reading
        rest) := by
  apply Settles.of_succ
  rw [← s.insert_jump]
  simp only [elsePart, State.atKeyword_reading, decide_true, if_true, State.getsym_reading]
  exact (braces_settles h).map _

/-- An `if` up to its `else`. -/
theorem ifStatement_settles {s s₁ s₂ s' : State} {code : List OperationCommand}
    {consts : List CVar} {symbols symbols' rest : List Symbol}
    (hcond : Settles (fun n => conditions D n (s.reading symbols))
      (s₁.reading (.keyword SYMBOL_RBRACKET :: .keyword SYMBOL_LCS :: symbols')))
    (hblock : Settles (fun n => block D n (s₁.reading symbols'))
      ((s₁.emit code consts).reading (.keyword SYMBOL_RCS :: rest)))
    (hthen : s₂ = s₁.emit (⟨.JUMP_Y, s₁.code.length + 2⟩ ::
      ⟨.JUMP_N, s₁.code.length + 2 + code.length + 1⟩ :: code.map (·.shift 2)) consts)
    (helse : Settles (fun n => elsePart D s₂.code.length n (s₂.reading rest)) s') :
    Settles (fun n => ifStatement D n (s.reading (.keyword SYMBOL_LBRACKET :: symbols))) s' := by
  apply Settles.of_succ
  simp only [ifStatement, State.atKeyword_reading, decide_true, if_true, State.getsym_reading]
  apply hcond.bind
  simp only [State.atKeyword_reading, decide_true, if_true, State.getsym_reading]
  apply (braces_settles hblock).bind
  have hjumps := s₁.insert_jumps (code.map (·.shift 2)) consts
  rw [List.length_map, ← hthen] at hjumps
  simp only [if_true, State.code_reading, State.shiftFrom_reading, State.insert_reading,
    State.shiftFrom_emit, hjumps]
  exact helse

/-- An assignment compiles to its expression and storing it. -/
theorem statement_assign {name : List Byte} {r : Ref} (hr : D.resolve name = some r)
    {s s' : State} {symbols : List Symbol}
    (he : Settles (fun n => expression D n (s.reading symbols)) s') :
    Settles (fun n => statement D n (s.reading (.ident name :: .keyword SYMBOL_EQ :: symbols)))
      (s'.emit [r.store] []) := by
  apply Settles.of_succ
  apply Settles.of_succ
  simp only [statement, State.sym_reading]
  unfold Declared.resolve at hr
  split at hr
  case h_1 hindex =>
      obtain rfl := Option.some.inj hr
      simpa [assignment, Ref.store, hindex] using he.map fun s => s.push .STOR _
  case h_2 hindex hlocal =>
      obtain rfl := Option.some.inj hr
      simpa [assignment, Ref.store, hindex, hlocal] using he.map fun s => s.push .STOR_LOCAL_VAR _
  case h_3 => cases hr

/-- What may follow a statement ends its expression, and is no `else`. -/
theorem ProgLevel.ends_stmt {x : Symbol} (hx : ProgLevel.stmt.ends x = true) :
    endsExpr x = true ∧ x ≠ .keyword SYMBOL_ELSE := by
  simp only [ends, Bool.or_eq_true, decide_eq_true_eq] at hx
  rcases hx with (rfl | rfl) | rfl <;> exact ⟨rfl, by simp⟩

/-- Behind a `;` the loop is a block of its own. -/
theorem blockRest_semicolon (s : State) (symbols : List Symbol) (n : Nat) :
    blockRest D n (s.reading (.keyword SYMBOL_SEMICOLON :: symbols)) =
      block D n (s.reading symbols) := by
  cases n <;> rfl

/-- An `if` comes out up to its `else`, with its block where it stands. -/
theorem ifStatement_parses {c : Cond .any} (hc : c.Closed D) {b : Prog .block} (s : State)
    {rest : List Symbol} {s' : State}
    (hblock : ∀ t : State, Settles
      (fun n => block D n (t.reading (b.symbols ++ .keyword SYMBOL_RCS :: rest)))
      ((t.emit (b.code D t.code.length t.consts.length) b.consts).reading
        (.keyword SYMBOL_RCS :: rest)))
    (helse : ∀ t : State, t = s.emit
        (thenCode s.code.length (c.code D s.consts.length)
          (b.code D (s.code.length + (c.code D s.consts.length).length + 2)
            (s.consts.length + c.consts.length))) (c.consts ++ b.consts) →
      Settles (fun n => elsePart D t.code.length n (t.reading rest)) s') :
    Settles (fun n => statement D n (s.reading (ifSymbols c ++ inBraces b.symbols ++ rest)))
      s' := by
  have hbraces : inBraces b.symbols ++ rest =
      .keyword SYMBOL_LCS :: (b.symbols ++ .keyword SYMBOL_RCS :: rest) := by
    simp [inBraces]
  have hcond := c.parses hc s (x := .keyword SYMBOL_RBRACKET) rfl (inBraces b.symbols ++ rest)
  rw [hbraces] at hcond
  have hthen := hblock (s.emit (c.code D s.consts.length) c.consts)
  have hshift := b.code_shift D 2 (s.code.length + (c.code D s.consts.length).length)
    (s.consts.length + c.consts.length)
  have hlength := congrArg List.length hshift
  rw [List.length_map] at hlength
  have hif := ifStatement_settles hcond hthen
    (by simp [thenCode, hshift, hlength, Nat.add_assoc]) (helse _ rfl)
  apply Settles.of_succ
  simpa [statement, ifSymbols, hbraces] using hif

/-- **Blocks are compiled.** -/
theorem Prog.parses {l : ProgLevel} (p : Prog l) (hp : p.Closed D) (s : State) {x : Symbol}
    (hx : l.ends x = true) (rest : List Symbol) :
    Settles (fun n => l.parse D n (s.reading (p.symbols ++ x :: rest)))
      ((s.emit (p.code D s.code.length s.consts.length) p.consts).reading (x :: rest)) := by
  induction p generalizing s x rest with
  | empty =>
      apply Settles.of_succ
      simp only [ProgLevel.ends, Bool.or_eq_true, decide_eq_true_eq] at hx
      rcases hx with (rfl | rfl) | rfl <;>
        simpa [ProgLevel.parse, statement, symbols, code, consts] using settles_some _
  | assign name e =>
      obtain ⟨r, hr⟩ := Option.isSome_iff_exists.mp hp.1
      have he := e.expression_settles hp.2 s (ProgLevel.ends_stmt hx).1 rest
      simpa [ProgLevel.parse, symbols, code, consts, hr] using statement_assign hr he
  | ifThen c b ih =>
      refine ifStatement_parses hp.1 s (fun t => ih hp.2 t (x := .keyword SYMBOL_RCS) rfl _) ?_
      intro t ht
      have helse := elsePart_none (D := D) t (ProgLevel.ends_stmt hx).2 rest
      simpa [ht, code, consts, ifCode, length_thenCode, Nat.add_assoc] using helse
  | ifElse c b d ihb ihd =>
      have hsymbols : (ifElse c b d).symbols ++ x :: rest = ifSymbols c ++ inBraces b.symbols ++
          .keyword SYMBOL_ELSE :: .keyword SYMBOL_LCS ::
            (d.symbols ++ .keyword SYMBOL_RCS :: x :: rest) := by
        simp [symbols, inBraces]
      rw [hsymbols]
      refine ifStatement_parses hp.1 s
        (fun t => ihb hp.2.1 t (x := .keyword SYMBOL_RCS) rfl _) ?_
      intro t ht
      have hblock := ihd hp.2.2 t (x := .keyword SYMBOL_RCS) rfl (x :: rest)
      have helse := elsePart_else hblock
      have hshift := d.code_shift D 1 t.code.length t.consts.length
      have hlength := congrArg List.length hshift
      rw [List.length_map] at hlength
      rw [hshift, hlength] at helse
      simpa [ht, code, consts, ifCode, length_thenCode, Nat.add_assoc] using helse
  | single t ih =>
      have ht := ih hp s (x := x) (by
        simp only [ProgLevel.ends, Bool.or_eq_true, decide_eq_true_eq] at hx ⊢
        exact hx.imp_left Or.inr) rest
      apply Settles.of_succ
      simp only [ProgLevel.parse, block]
      apply ht.bind
      apply Settles.of_succ
      have hsemicolon : x ≠ .keyword SYMBOL_SEMICOLON := by
        rintro rfl
        simp [ProgLevel.ends] at hx
      simpa [blockRest, hsemicolon, code, consts] using settles_some _
  | seq t b iht ihb =>
      have ht := iht hp.1 s (x := .keyword SYMBOL_SEMICOLON) rfl (b.symbols ++ x :: rest)
      have hb := ihb hp.2 (s.emit (t.code D s.code.length s.consts.length) t.consts) hx rest
      apply Settles.of_succ
      simp only [ProgLevel.parse, block, symbols, List.append_assoc, List.cons_append]
      apply ht.bind
      simp only [blockRest_semicolon]
      simpa [ProgLevel.parse, code, consts] using hb

/-! ## Scripts -/

/-- What a tree is compiled to. -/
def Prog.compiled (D : Declared) (prog : Prog .block) : Compiled :=
  ⟨prog.code D 0 0 ++ [⟨.OPER, 0⟩], prog.consts, []⟩

/-- **A script that is written for a tree is compiled** to the code of the tree. -/
theorem compile_settles {prog : Prog .block} (hprog : prog.Closed D) {stat_rule : List Byte}
    (hlines : ∀ line ∈ lines stat_rule, line.length < 1024 * 4)
    (hspelled : Spelled prog.symbols (withoutComments (lines stat_rule))) :
    Settles (fun fuel => compile D fuel stat_rule) (true, prog.compiled D) := by
  have hread : readLines stat_rule = lines stat_rule := by
    apply List.takeWhile_eq_self_iff.mpr
    simpa using hlines
  have hparse : Settles (fun fuel => parseText fuel (withoutComments (lines stat_rule)))
      (.ok (prog.symbols ++ [.fin])) :=
    ⟨_, fun n hn => parseText_spelled hspelled (Nat.lt_of_succ_le hn)⟩
  have hblock := prog.parses hprog ⟨[], [], [], []⟩ (x := .fin) rfl []
  simp only [compile, hread]
  apply hparse.bind
  exact hblock.map fun s => 
    (s.errors.isEmpty, (⟨s.code ++ [⟨.OPER, 0⟩], s.consts, s.errors⟩ : Compiled))

end CSLEngine
