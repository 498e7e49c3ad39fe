import Boss.CSLEngineExecute

/-!
# Expressions with signs

An expression may begin with a sign, also within brackets.  `expression` steps over the sign and
compiles the first term, and then negates it if the symbol it has come to is a minus.  That is the
symbol behind the term, so a sign is taken as a minus when the term is followed by one and has no
effect otherwise.

`Signed.taken` puts the sign that the code takes in the place of each sign that is written.
`MathExpressionCompile` brings out the code of the expression with these signs (`compile_signed`),
and `execute` leaves its value.  So an expression has its usual value exactly when the signs that
are taken do not change it (`execute_signed_iff`); `-5` is 5 (`execute_signed_minusFive`).
-/

namespace CSLEngine

open Decimal CSymbolParser Keyword Fuel Relation

/-! ## The functions -/

/-- `MathExpressionCompile` on a new engine, or the errors that it throws. -/
def MathExpressionCompile (D : Declared) (fuel : Nat) (stat_rule : List Byte) :
    Option (Except (List ErrorMsg) (Bool × Compiled)) :=
  (parseText fuel stat_rule).bind fun
    | .error message => some (.ok (false, ⟨[], [], [⟨[], message⟩]⟩))
    | .ok symbols =>
        (expression D fuel ⟨symbols, [], [], []⟩).map fun s =>
          if s.errors.isEmpty then .ok (true, ⟨s.code ++ [⟨.OPER, 0⟩], s.consts, s.errors⟩)
          else .error s.errors

/-- The loop of `execute`, with the stack that it leaves. -/
def runFrom (code : List OperationCommand) (consts : List CVar) : Nat → Config → Option Config
  | 0, _ => none
  | n + 1, c =>
      match step code consts c with
      | none => none
      | some c => if c.p = 0 then some c else runFrom code consts n c

/-- `execute` and `getExecuteResult`: the value on top of the stack. -/
def executeResult (program : Compiled) (fuel : Nat) (vars : Vars) : Option Int32 :=
  (runFrom program.code program.consts fuel ⟨0, [], vars⟩).bind (·.stack.head?)

/-! ## Trees -/

/-- A sum begins with a term that may have a sign. -/
inductive Signed : Level → Type
  | const (text : List Byte) : Signed .factor
  | var (name : List Byte) : Signed .factor
  | paren (e : Signed .expr) : Signed .factor
  | factor (f : Signed .factor) : Signed .term
  | mul (op : MulOp) (t : Signed .term) (f : Signed .factor) : Signed .term
  | term (sign : Option AddOp) (t : Signed .term) : Signed .expr
  | add (op : AddOp) (e : Signed .expr) (t : Signed .term) : Signed .expr

/-- A value behind a sign. -/
def applySign (sign : Option AddOp) (v : Int32) : Int32 := if sign = some .minus then -v else v

/-- The negation of a minus. -/
def signCode (sign : Option AddOp) : List OperationCommand :=
  if sign = some .minus then [⟨.OPER, 1⟩] else []

namespace Signed

def symbols : {l : Level} → Signed l → List Symbol
  | _, const text => [.int text]
  | _, var name => [.ident name]
  | _, paren e => .keyword .SYMBOL_LBRACKET :: e.symbols ++ [.keyword .SYMBOL_RBRACKET]
  | _, factor f => f.symbols
  | _, mul op t f => t.symbols ++ op.symbol :: f.symbols
  | _, term sign t => sign.toList.map AddOp.symbol ++ t.symbols
  | _, add op e t => e.symbols ++ op.symbol :: t.symbols

def Closed (D : Declared) : {l : Level} → Signed l → Prop
  | _, const _ => True
  | _, var name => (D.resolve name).isSome
  | _, paren e => e.Closed D
  | _, factor f => f.Closed D
  | _, mul _ t f => t.Closed D ∧ f.Closed D
  | _, term _ t => t.Closed D
  | _, add _ e t => e.Closed D ∧ t.Closed D

/-- The usual value; `none` when something is divided by zero. -/
def eval (D : Declared) (vars : Vars) : {l : Level} → Signed l → Option Int32
  | _, const text => some (atoi text)
  | _, var name => (D.resolve name).map (Ref.read vars)
  | _, paren e => e.eval D vars
  | _, factor f => f.eval D vars
  | _, mul op t f => (t.eval D vars).bind fun a => (f.eval D vars).bind fun b => op.eval a b
  | _, term sign t => (t.eval D vars).map (applySign sign)
  | _, add op e t => (e.eval D vars).bind fun a => (t.eval D vars).map fun b => op.eval a b

/-- The signs that the code takes: a minus if the term is followed by a minus, and a plus if not.
What follows the tree itself is the argument. -/
def taken : {l : Level} → Bool → Signed l → Signed l
  | _, _, const text => const text
  | _, _, var name => var name
  | _, _, paren e => paren (e.taken false)
  | _, _, factor f => factor (f.taken false)
  | _, _, mul op t f => mul op (t.taken false) (f.taken false)
  | _, minusNext, term sign t =>
      term (sign.map fun _ => if minusNext then .minus else .plus) (t.taken false)
  | _, _, add op e t => add op (e.taken (op = .minus)) (t.taken false)

def consts : {l : Level} → Signed l → List CVar
  | _, const text => [.int (atoi text)]
  | _, var _ => []
  | _, paren e => e.consts
  | _, factor f => f.consts
  | _, mul _ t f => t.consts ++ f.consts
  | _, term _ t => t.consts
  | _, add _ e t => e.consts ++ t.consts

/-- The code that leaves the usual value, behind `k` constants. -/
def code (D : Declared) : {l : Level} → (k : Nat) → Signed l → List OperationCommand
  | _, k, const _ => [⟨.LOAD_CONST, k⟩]
  | _, _, var name => (D.resolve name).toList.map Ref.load
  | _, k, paren e => e.code D k
  | _, k, factor f => f.code D k
  | _, k, mul op t f => t.code D k ++ f.code D (k + t.consts.length) ++ [⟨.OPER, op.oper⟩]
  | _, k, term sign t => t.code D k ++ signCode sign
  | _, k, add op e t => e.code D k ++ t.code D (k + e.consts.length) ++ [⟨.OPER, op.oper⟩]

attribute [grind =] symbols Closed eval taken consts code

variable {D : Declared} {vars : Vars} {l : Level}

theorem consts_taken (e : Signed l) (minusNext : Bool) : (e.taken minusNext).consts = e.consts := by
  induction e generalizing minusNext with
  | const text => rfl
  | var name => rfl
  | paren e ih => exact ih false
  | factor f ih => exact ih false
  | mul op t f iht ihf => simp only [taken, consts, iht, ihf]
  | term sign t ih => exact ih false
  | add op e t ihe iht => simp only [taken, consts, ihe, iht]

theorem closed_taken (e : Signed l) (minusNext : Bool) :
    (e.taken minusNext).Closed D ↔ e.Closed D := by
  induction e generalizing minusNext with
  | const text => rfl
  | var name => rfl
  | paren e ih => exact ih false
  | factor f ih => exact ih false
  | mul op t f iht ihf => simp only [taken, Closed, iht, ihf]
  | term sign t ih => exact ih false
  | add op e t ihe iht => simp only [taken, Closed, ihe, iht]

/-! ## Compiling -/

/-- What an expression without a sign begins with. -/
def startsOperand : Level → Symbol → Prop
  | .expr, _ => True
  | _, x => isOperand x = true ∨ x = .keyword SYMBOL_LBRACKET

/-- Terms begin with an operand or with a bracket. -/
theorem symbols_head (e : Signed l) :
    ∃ x tail, e.symbols = x :: tail ∧ startsOperand l x := by
  induction e with
  | const text => exact ⟨_, _, rfl, .inl rfl⟩
  | var name => exact ⟨_, _, rfl, .inl rfl⟩
  | paren e ih => exact ⟨_, _, rfl, .inr rfl⟩
  | factor f ih => exact ih
  | mul op t f iht ihf =>
      obtain ⟨x, tail, htail, hx⟩ := iht
      exact ⟨x, tail ++ op.symbol :: f.symbols, by simp [symbols, htail], hx⟩
  | term sign t ih =>
      obtain ⟨x, tail, htail, -⟩ := ih
      cases sign with
      | none => exact ⟨x, tail, by simp [symbols, htail], trivial⟩
      | some op => exact ⟨op.symbol, t.symbols, rfl, trivial⟩
  | add op e t ihe iht =>
      obtain ⟨x, tail, htail, -⟩ := ihe
      exact ⟨x, tail ++ op.symbol :: t.symbols, by simp [symbols, htail], trivial⟩

/-- The symbol behind the first term decides about its sign. -/
theorem expression_sign (op : AddOp) {s s' : State} {x : Symbol} {symbols rest : List Symbol}
    (h : Settles (fun n => CSLEngine.term D n (s.reading symbols)) (s'.reading (x :: rest)))
    {s'' : State} (hrest : Settles (fun n => expressionRest D n
      ((s'.emit (signCode (some (if decide (x = .keyword SYMBOL_SUB) then .minus else .plus)))
        []).reading (x :: rest))) s'') :
    Settles (fun n => expression D n (s.reading (op.symbol :: symbols))) s'' := by
  have hsign := h.map fun s => if s.atKeyword SYMBOL_SUB then s.push .OPER 1 else s
  have hstate : (if (s'.reading (x :: rest)).atKeyword SYMBOL_SUB then
        (s'.reading (x :: rest)).push .OPER 1 else s'.reading (x :: rest)) =
      (s'.emit (signCode (some (if decide (x = .keyword SYMBOL_SUB) then .minus else .plus)))
        []).reading (x :: rest) := by
    by_cases hx : x = .keyword SYMBOL_SUB
    · simp [hx, signCode]
    · simp [hx, signCode]
  rw [hstate] at hsign
  refine (hsign.bind hrest).succ fun n => ?_
  cases op <;> rfl

/-- What follows a product does not matter for the signs in it. -/
theorem taken_factor (f : Signed .factor) (minusNext : Bool) :
    f.taken minusNext = f.taken false := by
  cases f <;> rfl

theorem taken_term (t : Signed .term) (minusNext : Bool) : t.taken minusNext = t.taken false := by
  cases t <;> rfl

/-- **Expressions are compiled** with the signs that are taken. -/
theorem parses (e : Signed l) (he : e.Closed D) (s : State) {x : Symbol}
    (hx : l.ends x = true) (rest : List Symbol) {s' : State}
    (h : Settles (fun n => l.rest D n
      ((s.emit ((e.taken (x = .keyword SYMBOL_SUB)).code D s.consts.length) e.consts).reading
        (x :: rest))) s') :
    Settles (fun n => l.parse D n (s.reading (e.symbols ++ x :: rest))) s' := by
  induction e generalizing s x rest s' with
  | const text =>
      -- behind a constant the rule looks for another factor
      have hnext : Settles (fun n => CSLEngine.factor D n
          ((s.load (.int (atoi text))).reading (x :: rest))) s' :=
        h.succ fun n => factor_end hx _ _ n
      exact hnext.succ fun n => rfl
  | var name =>
      obtain ⟨r, hr⟩ := Option.isSome_iff_exists.mp he
      refine h.succ fun n => ?_
      simp only [taken, code, consts, hr, Option.toList_some, List.map_cons, List.map_nil]
      exact factor_var hr s _ n
  | paren e ih =>
      have hclose : Settles (fun n => expressionRest D n
          ((s.emit ((e.taken false).code D s.consts.length) e.consts).reading
            (.keyword SYMBOL_RBRACKET :: x :: rest))) _ :=
        (settles_some _).succ fun n => expressionRest_end rfl _ _ n
      have hinner := ih he s rfl _ hclose
      have hnext : Settles (fun n => CSLEngine.factor D n
          ((s.emit ((e.taken false).code D s.consts.length) e.consts).reading (x :: rest))) s' :=
        h.succ fun n => factor_end hx _ _ n
      rw [symbols, List.append_assoc, List.cons_append]
      exact (hinner.bind hnext).succ fun n => rfl
  | factor f ih =>
      have hf := ih he s hx rest (settles_some _)
      rw [taken_factor] at hf
      obtain ⟨y, tail, htail, hy⟩ := f.symbols_head
      refine (hf.bind h).succ fun n => ?_
      rw [symbols, htail]
      have hfin : y ≠ .fin := by
        rintro rfl
        simp [startsOperand, isOperand] at hy
      exact if_neg hfin
  | mul op t f iht ihf =>
      have hf := ihf he.2 (s.emit ((t.taken false).code D s.consts.length) t.consts) hx rest
        (settles_some _)
      rw [taken_factor] at hf
      rw [symbols, List.append_assoc]
      refine iht he.1 s op.endsFactor_symbol _ ?_
      rw [taken_term]
      refine Settles.succ (hf.bind ?_) fun n => termRest_mul op _ _ n
      simpa [taken, code, consts, consts_taken, Level.rest] using h
  | term sign t ih =>
      have ht := ih he s (endsFactor_of_endsTerm hx) rest
        ((settles_some _).succ fun n => termRest_end hx _ _ n)
      rw [taken_term] at ht
      cases sign with
      | none =>
          obtain ⟨y, tail, htail, hy⟩ := t.symbols_head
          have hcode : ((Signed.term none t).taken (x = .keyword SYMBOL_SUB)).code D
              s.consts.length = (t.taken false).code D s.consts.length := by
            simp [taken, code, signCode]
          rw [hcode] at h
          refine (ht.bind h).succ fun n => ?_
          have hsub : y ≠ .keyword SYMBOL_SUB := head_ne_keyword hy (by decide)
          have hplus : y ≠ .keyword SYMBOL_PLUS := head_ne_keyword hy (by decide)
          simp [symbols, htail, Level.parse, Level.rest, expression, hsub, hplus]
      | some op =>
          refine expression_sign op ht ?_
          simpa [taken, code, consts, Level.rest] using h
  | add op e t ihe iht =>
      have ht := iht he.2 (s.emit ((e.taken (op = .minus)).code D s.consts.length) e.consts)
        (endsFactor_of_endsTerm hx) rest ((settles_some _).succ fun n => termRest_end hx _ _ n)
      rw [taken_term] at ht
      rw [symbols, List.append_assoc]
      refine ihe he.1 s op.endsTerm_symbol _ ?_
      have hminus : decide (op.symbol = .keyword SYMBOL_SUB) = decide (op = .minus) := by
        cases op <;> rfl
      rw [hminus]
      refine Settles.succ (ht.bind ?_) fun n => expressionRest_add op _ _ n
      simpa [taken, code, consts, consts_taken, Level.rest] using h

/-- An expression at the end of a text. -/
theorem expression_settles (e : Signed .expr) (he : e.Closed D) (s : State) :
    Settles (fun n => expression D n (s.reading (e.symbols ++ [.fin])))
      ((s.emit ((e.taken false).code D s.consts.length) e.consts).reading [.fin]) :=
  e.parses he s rfl [] ((settles_some _).succ fun n => expressionRest_end rfl _ _ n)

/-! ## Running -/

variable {program : List OperationCommand} {constVars : List CVar}

theorem steps_sign {p : Nat} {c : List OperationCommand} {stack : List Int32} {v : Int32}
    (sign : Option AddOp) (hcode : Stands program p (c ++ signCode sign))
    (hc : Steps program constVars ⟨p, stack, vars⟩ ⟨p + c.length, v :: stack, vars⟩) :
    Steps program constVars ⟨p, stack, vars⟩
      ⟨p + (c ++ signCode sign).length, applySign sign v :: stack, vars⟩ := by
  by_cases hminus : sign = some .minus
  · have hsign : signCode sign = [⟨.OPER, 1⟩] := if_pos hminus
    rw [hsign] at hcode ⊢
    have hlast := hcode.right.head
    rw [List.length_append, ← Nat.add_assoc, applySign, if_pos hminus]
    refine hc.tail ⟨?_, Nat.succ_ne_zero _⟩
    simp [step, hlast, oper]
  · have hsign : signCode sign = [] := if_neg hminus
    rw [hsign, List.append_nil, applySign, if_neg hminus]
    exact hc

/-- **An expression leaves its value.** -/
theorem runs (e : Signed l) {p k : Nat} (hcode : Stands program p (e.code D k))
    (hconsts : Stands constVars k e.consts) {v : Int32} (hv : e.eval D vars = some v)
    (stack : List Int32) :
    Steps program constVars ⟨p, stack, vars⟩ ⟨p + (e.code D k).length, v :: stack, vars⟩ := by
  induction e generalizing p k v stack with
  | const text =>
      obtain rfl := Option.some.inj hv
      refine ReflTransGen.single ⟨?_, Nat.succ_ne_zero p⟩
      simp [step, hcode.head, hconsts.head, code]
  | var name =>
      obtain ⟨r, hr, rfl⟩ := Option.map_eq_some_iff.mp hv
      simp only [code, hr, Option.toList_some, List.map_cons, List.map_nil] at hcode ⊢
      exact step_load hcode
  | paren e ih => exact ih hcode hconsts hv stack
  | factor f ih => exact ih hcode hconsts hv stack
  | mul op t f iht ihf =>
      obtain ⟨a, ha, hv⟩ := Option.bind_eq_some_iff.mp hv
      obtain ⟨b, hb, hv⟩ := Option.bind_eq_some_iff.mp hv
      have ht := iht hcode.left.left hconsts.left ha stack
      have hf := ihf hcode.left.right hconsts.right hb (a :: stack)
      exact steps_binary hcode (MulOp.binary_oper hv) ht hf
  | term sign t ih =>
      obtain ⟨a, ha, rfl⟩ := Option.map_eq_some_iff.mp hv
      exact steps_sign sign hcode (ih hcode.left hconsts ha stack)
  | add op e t ihe iht =>
      obtain ⟨a, ha, hv⟩ := Option.bind_eq_some_iff.mp hv
      obtain ⟨b, hb, rfl⟩ := Option.map_eq_some_iff.mp hv
      have he := ihe hcode.left.left hconsts.left ha stack
      have ht := iht hcode.left.right hconsts.right hb (a :: stack)
      exact steps_binary hcode (op.binary_oper a b) he ht

/-- The machine gets to an instruction that it cannot execute. -/
def Stops (program : List OperationCommand) (constVars : List CVar) (c : Config) : Prop :=
  ∃ c', Steps program constVars c c' ∧ step program constVars c' = none

theorem Stops.of_steps {c c' : Config} (h : Stops program constVars c')
    (hsteps : Steps program constVars c c') : Stops program constVars c := by
  obtain ⟨d, hd, hnone⟩ := h
  exact ⟨d, hsteps.trans hd, hnone⟩

/-- A division by zero stops the machine. -/
theorem stops_division {p : Nat} {c d : List OperationCommand} {op : MulOp} {stack : List Int32}
    {a b : Int32} (hcode : Stands program p (c ++ d ++ [(⟨.OPER, op.oper⟩ : OperationCommand)]))
    (hv : op.eval a b = none)
    (hsteps : Steps program constVars ⟨p, stack, vars⟩
      ⟨p + c.length + d.length, b :: a :: stack, vars⟩) :
    Stops program constVars ⟨p, stack, vars⟩ := by
  have hlast := hcode.right.head
  rw [List.length_append, ← Nat.add_assoc] at hlast
  refine ⟨_, hsteps, ?_⟩
  cases op with
  | times => cases hv
  | _ =>
      have hzero : b = 0 := by
        by_contra hne
        simp [MulOp.eval, hne] at hv
      simp [step, hlast, oper, binary, MulOp.oper, hzero]

/-- **An expression without a value stops the machine.** -/
theorem stops (e : Signed l) (he : e.Closed D) {p k : Nat}
    (hcode : Stands program p (e.code D k)) (hconsts : Stands constVars k e.consts)
    (hv : e.eval D vars = none) (stack : List Int32) :
    Stops program constVars ⟨p, stack, vars⟩ := by
  induction e generalizing p k stack with
  | const text => cases hv
  | var name =>
      obtain ⟨r, hr⟩ := Option.isSome_iff_exists.mp he
      simp [eval, hr] at hv
  | paren e ih => exact ih he hcode hconsts hv stack
  | factor f ih => exact ih he hcode hconsts hv stack
  | mul op t f iht ihf =>
      cases ha : t.eval D vars with
      | none => exact iht he.1 hcode.left.left hconsts.left ha stack
      | some a =>
          have ht := t.runs hcode.left.left hconsts.left ha stack
          cases hb : f.eval D vars with
          | none => exact (ihf he.2 hcode.left.right hconsts.right hb (a :: stack)).of_steps ht
          | some b =>
              have hf := f.runs hcode.left.right hconsts.right hb (a :: stack)
              rw [eval, ha, hb] at hv
              exact stops_division hcode hv (ht.trans hf)
  | term sign t ih => exact ih he hcode.left hconsts (by simpa [eval] using hv) stack
  | add op e t ihe iht =>
      cases ha : e.eval D vars with
      | none => exact ihe he.1 hcode.left.left hconsts.left ha stack
      | some a =>
          have ht := e.runs hcode.left.left hconsts.left ha stack
          rw [eval, ha, Option.bind_some, Option.map_eq_none_iff] at hv
          exact (iht he.2 hcode.left.right hconsts.right hv (a :: stack)).of_steps ht

end Signed

/-- Steps up to one that ends the run, with the stack. -/
theorem Steps.settles_run {program : List OperationCommand} {constVars : List CVar}
    {c c' fin : Config} (h : Steps program constVars c c')
    (hstep : step program constVars c' = some fin) (hp : fin.p = 0) :
    Settles (fun fuel => runFrom program constVars fuel c) fin := by
  induction h using ReflTransGen.head_induction_on with
  | refl =>
      apply Settles.of_succ
      simpa [runFrom, hstep, hp] using settles_some _
  | head hnext _ ih =>
      apply Settles.of_succ
      simpa [runFrom, hnext.1, hnext.2] using ih

/-- A machine that stops gives no result. -/
theorem Signed.Stops.runFrom_none {program : List OperationCommand} {constVars : List CVar}
    {c : Config} (h : Signed.Stops program constVars c) (n : Nat) :
    runFrom program constVars n c = none := by
  obtain ⟨c', hsteps, hnone⟩ := h
  induction hsteps using ReflTransGen.head_induction_on generalizing n with
  | refl =>
      cases n with
      | zero => rfl
      | succ n => simp [runFrom, hnone]
  | head hnext _ ih =>
      cases n with
      | zero => rfl
      | succ n => simp [runFrom, hnext.1, hnext.2, ih n]

/-! ## Texts -/

/-- Every sign is a minus if a minus follows its term, and a plus if not. -/
def Signed.SignsKept : {l : Level} → Bool → Signed l → Prop
  | _, _, .const _ => True
  | _, _, .var _ => True
  | _, _, .paren e => e.SignsKept false
  | _, _, .factor f => f.SignsKept false
  | _, _, .mul _ t f => t.SignsKept false ∧ f.SignsKept false
  | _, minusNext, .term sign t =>
      (∀ op ∈ sign, op = if minusNext then .minus else .plus) ∧ t.SignsKept false
  | _, _, .add op e t => e.SignsKept (op = .minus) ∧ t.SignsKept false

/-- Such signs are the ones that are taken. -/
theorem Signed.SignsKept.taken_eq {l : Level} {e : Signed l} {minusNext : Bool}
    (h : e.SignsKept minusNext) : e.taken minusNext = e := by
  induction e generalizing minusNext with
  | const text => rfl
  | var name => rfl
  | paren e ih => exact congrArg paren (ih h)
  | factor f ih => exact congrArg factor (ih h)
  | mul op t f iht ihf => rw [taken, iht h.1, ihf h.2]
  | term sign t ih =>
      obtain ⟨hsign, ht⟩ := h
      rw [taken, ih ht]
      cases sign with
      | none => rfl
      | some op => rw [hsign op rfl]; rfl
  | add op e t ihe iht => rw [taken, ihe h.1, iht h.2]

/-- What `MathExpressionCompile` brings out for an expression. -/
def Signed.compiled (D : Declared) (e : Signed .expr) : Compiled :=
  ⟨(e.taken false).code D 0 ++ [⟨.OPER, 0⟩], e.consts, []⟩

/-- **A written expression is compiled** with the signs that are taken. -/
theorem compile_signed {D : Declared} {e : Signed .expr} (he : e.Closed D) {text : List Byte}
    (htext : Written e.symbols text) :
    Settles (fun fuel => MathExpressionCompile D fuel text) (.ok (true, e.compiled D)) := by
  have hparse : Settles (fun fuel => parseText fuel text) (.ok (e.symbols ++ [.fin])) :=
    ⟨text.length + 1, fun m hm => parseText_written htext hm⟩
  refine hparse.bind ?_
  have hexpression := (e.expression_settles he ⟨[], [], [], []⟩).map fun s =>
    if s.errors.isEmpty then
      (.ok (true, ⟨s.code ++ [⟨.OPER, 0⟩], s.consts, s.errors⟩) :
        Except (List ErrorMsg) (Bool × Compiled))
    else .error s.errors
  exact hexpression

/-- **The value that is left** is the one with the signs that are taken, and none is left if that
expression has none. -/
theorem executeResult_compiled {D : Declared} {e : Signed .expr} (he : e.Closed D) (vars : Vars)
    (v : Int32) :
    Settles (fun fuel => executeResult (e.compiled D) fuel vars) v ↔
      (e.taken false).eval D vars = some v := by
  have hcode : Stands (e.compiled D).code 0 ((e.taken false).code D 0 ++ [⟨.OPER, 0⟩]) :=
    List.prefix_refl _
  have hconsts : Stands (e.compiled D).consts 0 (e.taken false).consts := by
    rw [e.consts_taken]
    exact List.prefix_refl _
  have hlast := hcode.right.head
  cases hv : (e.taken false).eval D vars with
  | none =>
      have hstops := (e.taken false).stops ((e.closed_taken false).mpr he) hcode.left hconsts hv []
      have hnone (fuel : Nat) : executeResult (e.compiled D) fuel vars = none := by
        rw [executeResult, hstops.runFrom_none fuel]
        rfl
      constructor
      · rintro ⟨n, hn⟩
        cases (hnone n).symm.trans (hn n le_rfl)
      · intro h
        cases h
  | some w =>
      have hrun := (e.taken false).runs hcode.left hconsts hv []
      have hstep : step (e.compiled D).code (e.compiled D).consts
          ⟨0 + ((e.taken false).code D 0).length, [w], vars⟩ = some ⟨0, [w], vars⟩ := by
        simp only [step, hlast, oper]
      have hend : Settles (fun fuel => executeResult (e.compiled D) fuel vars) w :=
        (hrun.settles_run hstep rfl).bind (settles_some w)
      constructor
      · intro h
        exact congrArg some (hend.unique h)
      · intro h
        obtain rfl := Option.some.inj h
        exact hend

/-- The text is compiled, and `execute` leaves the value. -/
def Yields (D : Declared) (text : List Byte) (vars : Vars) (v : Int32) : Prop :=
  ∃ program, Settles (fun fuel => MathExpressionCompile D fuel text) (.ok (true, program)) ∧
    Settles (fun fuel => executeResult program fuel vars) v

/-- A text yields the value of its expression with the signs that are taken. -/
theorem yields_iff {D : Declared} {e : Signed .expr} (he : e.Closed D) {text : List Byte}
    (htext : Written e.symbols text) (vars : Vars) (v : Int32) :
    Yields D text vars v ↔ (e.taken false).eval D vars = some v := by
  have hcompile := compile_signed he htext
  constructor
  · rintro ⟨program, hprogram, hresult⟩
    have hsame := hcompile.unique hprogram
    simp only [Except.ok.injEq, Prod.mk.injEq, true_and] at hsame
    rw [← hsame] at hresult
    exact (executeResult_compiled he vars v).mp hresult
  · intro hv
    exact ⟨_, hcompile, (executeResult_compiled he vars v).mpr hv⟩

/-- **Expressions have their usual value** if and only if it does not change it to put the signs
that are taken for the signs that are written, so always when every sign is a minus if a minus
follows its term, and a plus if not. -/
theorem execute_signed_iff {D : Declared} {e : Signed .expr} (he : e.Closed D) {text : List Byte}
    (htext : Written e.symbols text) {vars : Vars} {v : Int32} (hv : e.eval D vars = some v) :
    (Yields D text vars v ↔ (e.taken false).eval D vars = e.eval D vars) ∧
      (e.SignsKept false → Yields D text vars v) := by
  have hyields := yields_iff he htext vars v
  constructor
  · rw [hyields, hv]
  · intro hkept
    rw [hyields, hkept.taken_eq]
    exact hv

/-- `-a-3` on a local variable `a` that is 5: the minus behind `a` is taken for the one in front. -/
theorem execute_signed_minusBehind :
    Yields ⟨[], [], [[97]]⟩ [45, 97, 45, 51] ⟨fun _ => 0, fun _ => 5⟩ (-8) := by
  have htext : Written (Signed.add .minus (.term (some .minus) (.factor (.var [97])))
      (.factor (.const [51]))).symbols [45, 97, 45, 51] := by
    refine .next [45] (.keyword (by decide)) rfl ?_
    refine .next [97] (.ident rfl (by simp) rfl) rfl ?_
    refine .next [45] (.keyword (by decide)) rfl ?_
    exact @Written.last [] _ _ (by simp) (.int (by simp) (by simp [isDigit])) (by simp)
  refine (@execute_signed_iff ⟨[], [], [[97]]⟩ _ ?_ _ htext ⟨fun _ => 0, fun _ => 5⟩ (-8) ?_).2 ?_
  · exact ⟨rfl, trivial⟩
  · rfl
  · exact ⟨⟨fun op hop => (Option.some.inj hop).symm, trivial⟩, trivial⟩

/-- `-5` is 5. -/
theorem execute_signed_minusFive :
    ¬ ∀ (D : Declared) (e : Signed .expr) (text : List Byte) (vars : Vars) (v : Int32),
      e.Closed D → Written e.symbols text → e.eval D vars = some v → Yields D text vars v := by
  intro hclaim
  have htext : Written (Signed.term (some .minus) (.factor (.const [53]))).symbols [45, 53] := by
    refine .next [45] (.keyword (by decide)) rfl ?_
    exact @Written.last [] _ _ (by simp) (.int (by simp) (by simp [isDigit])) (by simp)
  have hclosed : (Signed.term (some .minus) (.factor (.const [53]))).Closed ⟨[], [], []⟩ := trivial
  have hyields := hclaim ⟨[], [], []⟩ _ _ ⟨fun _ => 0, fun _ => 0⟩ (-5) hclosed htext rfl
  exact absurd ((yields_iff hclosed htext _ _).mp hyields) (by decide)

end CSLEngine
