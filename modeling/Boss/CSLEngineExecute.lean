import Boss.CSLEngineCompile
import Mathlib.Logic.Relation

/-!
# Running the code of a tree

The code of a tree may stand anywhere in a program, as long as it was made for its address and its
constants stand behind as many as it was made for.  From its first instruction the machine comes to
the one behind it: an expression has left its value on the stack, a condition 1 or 0, and a
statement has changed the variables as the tree says.  What else it leaves on the stack does not
matter, as no statement looks below what its own expressions have put there.

Both jumps of an `if` look at the value of the condition, and no instruction takes it off, so that
it stays below whatever the blocks put on the stack.

Main results: `Prog.runs` for every program tree and `execute_compiled` for its text.
-/

namespace CSLEngine

open Decimal CSymbolParser Fuel Relation

variable {D : Declared} {program : List OperationCommand} {constVars : List CVar}
  {stack : List Int32} {vars vars' : Vars}

/-! ## Code within a program -/

/-- `part` stands in `l` from `i` on. -/
def Stands {α : Type*} (l : List α) (i : Nat) (part : List α) : Prop := part <+: l.drop i

section Stands

variable {α : Type*} {l a b : List α} {x : α} {i : Nat}

theorem Stands.left (h : Stands l i (a ++ b)) : Stands l i a := (List.prefix_append a b).trans h

/-- The second stands behind the first. -/
theorem Stands.right (h : Stands l i (a ++ b)) : Stands l (i + a.length) b := by
  obtain ⟨rest, hrest⟩ := h
  refine ⟨rest, ?_⟩
  rw [← List.drop_drop, ← hrest, List.append_assoc, List.drop_left]

/-- The command at a place is the first one that stands there. -/
theorem Stands.head (h : Stands l i (x :: a)) : l[i]? = some x := by
  obtain ⟨rest, hrest⟩ := h
  rw [← List.head?_drop, ← hrest]
  rfl

theorem Stands.tail (h : Stands l i (x :: a)) : Stands l (i + 1) a := Stands.right (a := [x]) h

end Stands

/-! ## Steps -/

/-- A step after which the machine goes on. -/
def Next (program : List OperationCommand) (constVars : List CVar) (c c' : Config) : Prop :=
  step program constVars c = some c' ∧ c'.p ≠ 0

/-- The machine gets from one configuration to the other. -/
def Steps (program : List OperationCommand) (constVars : List CVar) : Config → Config → Prop :=
  ReflTransGen (Next program constVars)

/-- Steps up to one that ends the run. -/
theorem Steps.settles {c c' : Config} (h : Steps program constVars c c') {fin : Config}
    (hstep : step program constVars c' = some fin) (hp : fin.p = 0) :
    Settles (fun fuel => executeFrom program constVars fuel c) fin.vars := by
  induction h using ReflTransGen.head_induction_on with
  | refl =>
      apply Settles.of_succ
      simpa [executeFrom, hstep, hp] using settles_some _
  | head hnext _ ih =>
      apply Settles.of_succ
      simpa [executeFrom, hnext.1, hnext.2] using ih

/-- The code of two values and an `OPER` on them. -/
theorem steps_binary {p i : Nat} {c d : List OperationCommand} {a b v : Int32}
    (hcode : Stands program p (c ++ d ++ [(⟨.OPER, i⟩ : OperationCommand)]))
    (hv : binary i a b = some v)
    (hc : Steps program constVars ⟨p, stack, vars⟩ ⟨p + c.length, a :: stack, vars⟩)
    (hd : Steps program constVars ⟨p + c.length, a :: stack, vars⟩
      ⟨p + c.length + d.length, b :: a :: stack, vars⟩) :
    Steps program constVars ⟨p, stack, vars⟩
      ⟨p + (c ++ d ++ [(⟨.OPER, i⟩ : OperationCommand)]).length, v :: stack, vars⟩ := by
  have hend : p + (c ++ d ++ [(⟨.OPER, i⟩ : OperationCommand)]).length =
      p + c.length + d.length + 1 := by
    simp
    omega
  have hoper (next : Nat) :
      oper i ⟨next, b :: a :: stack, vars⟩ = some ⟨next, v :: stack, vars⟩ := by
    unfold binary at hv
    split at hv <;> simp_all [oper, binary]
  have hlast := hcode.right.head
  rw [List.length_append, ← Nat.add_assoc] at hlast
  rw [hend]
  refine (hc.trans hd).tail ⟨?_, Nat.succ_ne_zero _⟩
  simp [step, hlast, hoper]

/-- Loading pushes the value of a name. -/
theorem step_load {p : Nat} {r : Ref} {rest : List OperationCommand}
    (hcode : Stands program p (r.load :: rest)) :
    Steps program constVars ⟨p, stack, vars⟩ ⟨p + 1, r.read vars :: stack, vars⟩ := by
  refine ReflTransGen.single ⟨?_, Nat.succ_ne_zero p⟩
  cases r <;> simp [step, hcode.head, Ref.load, Ref.read]

/-- Storing pops the value into a name. -/
theorem step_store {p : Nat} {r : Ref} {rest : List OperationCommand} {v : Int32}
    (hcode : Stands program p (r.store :: rest)) :
    Steps program constVars ⟨p, v :: stack, vars⟩ ⟨p + 1, stack, r.write vars v⟩ := by
  refine ReflTransGen.single ⟨?_, Nat.succ_ne_zero p⟩
  cases r <;> simp [step, hcode.head, Ref.store, Ref.write]

/-! ## Expressions -/

/-- The operation of a multiplying operator is what it means, if it has a value. -/
theorem MulOp.binary_oper {op : MulOp} {a b v : Int32} (h : op.eval a b = some v) :
    binary op.oper a b = some v := by
  cases op <;> exact h

/-- The operation of an adding operator is what it means. -/
theorem AddOp.binary_oper (op : AddOp) (a b : Int32) :
    binary op.oper a b = some (op.eval a b) := by
  cases op <;> rfl

/-- **An expression leaves its value.** -/
theorem Expr.runs {l : Level} (e : Expr l) {p k : Nat} (hcode : Stands program p (e.code D k))
    (hconsts : Stands constVars k e.consts) {v : Int32} (hv : e.eval D vars = some v)
    (stack : List Int32) :
    Steps program constVars ⟨p, stack, vars⟩ ⟨p + (e.code D k).length, v :: stack, vars⟩ := by
  induction e generalizing p k v stack with
  | const text =>
      obtain rfl := Option.some.inj hv
      refine ReflTransGen.single ⟨?_, Nat.succ_ne_zero p⟩
      simp [step, hcode.head, hconsts.head, code]
  | var name =>
      obtain ⟨r, hr, rfl⟩ := Option.map_eq_some_iff.mp hv
      simp only [code, hr, Option.toList_some, List.map_cons, List.map_nil] at hcode ⊢
      exact step_load hcode
  | paren e ih => exact ih hcode hconsts hv stack
  | factor f ih => exact ih hcode hconsts hv stack
  | mul op t f iht ihf =>
      obtain ⟨a, ha, hv⟩ := Option.bind_eq_some_iff.mp hv
      obtain ⟨b, hb, hv⟩ := Option.bind_eq_some_iff.mp hv
      have ht := iht hcode.left.left hconsts.left ha stack
      have hf := ihf hcode.left.right hconsts.right hb (a :: stack)
      exact steps_binary hcode (MulOp.binary_oper hv) ht hf
  | term t ih => exact ih hcode hconsts hv stack
  | add op e t ihe iht =>
      obtain ⟨a, ha, hv⟩ := Option.bind_eq_some_iff.mp hv
      obtain ⟨b, hb, rfl⟩ := Option.map_eq_some_iff.mp hv
      have he := ihe hcode.left.left hconsts.left ha stack
      have ht := iht hcode.left.right hconsts.right hb (a :: stack)
      exact steps_binary hcode (op.binary_oper a b) he ht

/-! ## Conditions -/

/-- A condition on the stack. -/
def flag (b : Bool) : Int32 := if b then 1 else 0

/-- The operation of a comparison is the flag of what it means. -/
theorem CompOp.binary_oper (op : CompOp) (a b : Int32) :
    binary op.oper a b = some (flag (op.eval a b)) := by
  cases op <;> simp [binary, oper, eval, flag]

/-- The operation 14 is the conjunction of flags. -/
theorem binary_and (a b : Bool) : binary 14 (flag a) (flag b) = some (flag (a && b)) := by
  cases a <;> cases b <;> rfl

/-- The operation 15 is the disjunction of flags. -/
theorem binary_or (a b : Bool) : binary 15 (flag a) (flag b) = some (flag (a || b)) := by
  cases a <;> cases b <;> rfl

/-- The operation 6 negates the flag on the stack. -/
theorem steps_not {p : Nat} {c : List OperationCommand} {b : Bool}
    (hcode : Stands program p (c ++ [⟨.OPER, 6⟩]))
    (hc : Steps program constVars ⟨p, stack, vars⟩ ⟨p + c.length, flag b :: stack, vars⟩) :
    Steps program constVars ⟨p, stack, vars⟩
      ⟨p + (c ++ [(⟨.OPER, 6⟩ : OperationCommand)]).length, flag (!b) :: stack, vars⟩ := by
  have hlast := hcode.right.head
  rw [List.length_append, ← Nat.add_assoc]
  refine hc.tail ⟨?_, Nat.succ_ne_zero _⟩
  cases b <;> simp [step, hlast, oper, flag]

/-- **A condition leaves 1 or 0.** -/
theorem Cond.runs {l : CondLevel} (c : Cond l) {p k : Nat} (hcode : Stands program p (c.code D k))
    (hconsts : Stands constVars k c.consts) {b : Bool} (hb : c.eval D vars = some b)
    (stack : List Int32) :
    Steps program constVars ⟨p, stack, vars⟩ ⟨p + (c.code D k).length, flag b :: stack, vars⟩ := by
  induction c generalizing p k b stack with
  | comp op e f h =>
      obtain ⟨v, hv, hb⟩ := Option.bind_eq_some_iff.mp hb
      obtain ⟨w, hw, rfl⟩ := Option.map_eq_some_iff.mp hb
      have he := e.runs hcode.left.left hconsts.left hv stack
      have hf := f.runs hcode.left.right hconsts.right hw (v :: stack)
      exact steps_binary hcode (op.binary_oper v w) he hf
  | not c ih =>
      obtain ⟨a, ha, rfl⟩ := Option.map_eq_some_iff.mp hb
      have hc := ih hcode.left hconsts ha stack
      exact steps_not hcode hc
  | paren c ih => exact ih hcode hconsts hb stack
  | factor c ih => exact ih hcode hconsts hb stack
  | and c d ihc ihd =>
      obtain ⟨v, hv, hb⟩ := Option.bind_eq_some_iff.mp hb
      obtain ⟨w, hw, rfl⟩ := Option.map_eq_some_iff.mp hb
      have hc := ihc hcode.left.left hconsts.left hv stack
      have hd := ihd hcode.left.right hconsts.right hw (flag v :: stack)
      exact steps_binary hcode (binary_and v w) hc hd
  | all c ih => exact ih hcode hconsts hb stack
  | or c d ihc ihd =>
      obtain ⟨v, hv, hb⟩ := Option.bind_eq_some_iff.mp hb
      obtain ⟨w, hw, rfl⟩ := Option.map_eq_some_iff.mp hb
      have hc := ihc hcode.left.left hconsts.left hv stack
      have hd := ihd hcode.left.right hconsts.right hw (flag v :: stack)
      exact steps_binary hcode (binary_or v w) hc hd

/-! ## Statements -/

/-- The code at `a` is left behind with other variables. -/
def Leads (program : List OperationCommand) (constVars : List CVar) (a b : Nat) (stack : List Int32)
    (vars vars' : Vars) : Prop :=
  ∃ stack', Steps program constVars ⟨a, stack, vars⟩ ⟨b, stack', vars'⟩

/-- **The jumps of an `if`**: the value of the condition decides which block is run, and both end
behind the other. -/
theorem ifCode_leads {a : Nat} {c b d : List OperationCommand} {v : Bool}
    (hcode : Stands program a (ifCode a c b d))
    (hcond : Steps program constVars ⟨a, stack, vars⟩ ⟨a + c.length, flag v :: stack, vars⟩)
    (hthen : v = true → Leads program constVars (a + c.length + 2) (a + c.length + 2 + b.length)
      (flag v :: stack) vars vars')
    (helse : v = false → Leads program constVars (a + c.length + 2 + b.length + 1)
      (a + c.length + 2 + b.length + 1 + d.length) (flag v :: stack) vars vars') :
    Leads program constVars a (a + (ifCode a c b d).length) stack vars vars' := by
  have hend : a + (ifCode a c b d).length = a + c.length + 2 + b.length + 1 + d.length := by
    simp [ifCode, length_thenCode]
    omega
  have hy := hcode.left.right.head
  have hn := hcode.left.right.tail.head
  have hjump := hcode.right.head
  rw [length_thenCode, ← Nat.add_assoc, ← Nat.add_assoc] at hjump
  rw [hend]
  cases v with
  | true =>
      obtain ⟨stack', hrun⟩ := hthen rfl
      have hyes : Next program constVars ⟨a + c.length, flag true :: stack, vars⟩
          ⟨a + c.length + 2, flag true :: stack, vars⟩ :=
        ⟨by simp [step, hy, flag], Nat.succ_ne_zero _⟩
      have hover : Next program constVars ⟨a + c.length + 2 + b.length, stack', vars'⟩
          ⟨a + c.length + 2 + b.length + 1 + d.length, stack', vars'⟩ :=
        ⟨by simp [step, hjump], by simp⟩
      exact ⟨stack', (hcond.tail hyes).trans (hrun.tail hover)⟩
  | false =>
      obtain ⟨stack', hrun⟩ := helse rfl
      have hnext : Next program constVars ⟨a + c.length, flag false :: stack, vars⟩
          ⟨a + c.length + 1, flag false :: stack, vars⟩ :=
        ⟨by simp [step, hy, flag], Nat.succ_ne_zero _⟩
      have hno : Next program constVars ⟨a + c.length + 1, flag false :: stack, vars⟩
          ⟨a + c.length + 2 + b.length + 1, flag false :: stack, vars⟩ :=
        ⟨by simp [step, hn, flag], Nat.succ_ne_zero _⟩
      exact ⟨stack', ((hcond.tail hnext).tail hno).trans hrun⟩

/-- **A block changes the variables as the tree says.** -/
theorem Prog.runs {l : ProgLevel} (p : Prog l) {a k : Nat} (hcode : Stands program a (p.code D a k))
    (hconsts : Stands constVars k p.consts) (heval : p.eval D vars = some vars')
    (stack : List Int32) :
    Leads program constVars a (a + (p.code D a k).length) stack vars vars' := by
  induction p generalizing a k stack vars vars' with
  | empty =>
      obtain rfl := Option.some.inj heval
      exact ⟨stack, ReflTransGen.refl⟩
  | assign name e =>
      obtain ⟨v, hv, heval⟩ := Option.bind_eq_some_iff.mp heval
      obtain ⟨r, hr, rfl⟩ := Option.map_eq_some_iff.mp heval
      simp only [code, hr, Option.toList_some, List.map_cons, List.map_nil] at hcode ⊢
      have he := e.runs hcode.left hconsts hv stack
      rw [List.length_append]
      exact ⟨stack, he.trans (step_store hcode.right)⟩
  | ifThen c b ih =>
      obtain ⟨v, hv, heval⟩ := Option.bind_eq_some_iff.mp heval
      refine ifCode_leads hcode (c.runs hcode.left.left hconsts.left hv stack) ?_ ?_
      · rintro rfl
        exact ih hcode.left.right.tail.tail hconsts.right heval _
      · rintro rfl
        obtain rfl := Option.some.inj heval
        exact ⟨_, ReflTransGen.refl⟩
  | ifElse c b d ihb ihd =>
      obtain ⟨v, hv, heval⟩ := Option.bind_eq_some_iff.mp heval
      refine ifCode_leads hcode (c.runs hcode.left.left hconsts.left.left hv stack) ?_ ?_
      · rintro rfl
        exact ihb hcode.left.right.tail.tail hconsts.left.right heval _
      · rintro rfl
        have hcode := hcode.right.tail
        have hconsts := hconsts.right
        rw [length_thenCode, ← Nat.add_assoc, ← Nat.add_assoc] at hcode
        rw [List.length_append, ← Nat.add_assoc] at hconsts
        exact ihd hcode hconsts heval _
  | single s ih => exact ih hcode hconsts heval stack
  | seq s b ihs ihb =>
      obtain ⟨m, hm, heval⟩ := Option.bind_eq_some_iff.mp heval
      obtain ⟨stack', hs⟩ := ihs hcode.left hconsts.left hm stack
      obtain ⟨stack'', hb⟩ := ihb hcode.right hconsts.right heval stack'
      simp only [code]
      rw [List.length_append, ← Nat.add_assoc]
      exact ⟨stack'', hs.trans hb⟩

/-! ## Scripts -/

/-- **Compiled scripts behave like their source.**  A script that is written for a tree over
declared variables is compiled without errors, and where the tree has a meaning, because nothing is
divided by zero, the code ends with the variables that the tree ends with. -/
theorem execute_compiled {prog : Prog .block} (hprog : prog.Closed D) {stat_rule : List Byte}
    (hlines : ∀ line ∈ lines stat_rule, line.length < 1024 * 4)
    (hspelled : Spelled prog.symbols (withoutComments (lines stat_rule))) :
    ∃ compiled, Settles (fun fuel => compile D fuel stat_rule) (true, compiled) ∧
      ∀ vars vars', prog.eval D vars = some vars' →
        Settles (fun fuel => execute compiled fuel vars) vars' := by
  refine ⟨prog.compiled D, compile_settles hprog hlines hspelled, fun vars vars' heval => ?_⟩
  have hcode : Stands (prog.compiled D).code 0 (prog.code D 0 0 ++ [⟨.OPER, 0⟩]) :=
    List.prefix_refl _
  have hconsts : Stands (prog.compiled D).consts 0 prog.consts := List.prefix_refl _
  obtain ⟨stack, hrun⟩ := prog.runs hcode.left hconsts heval []
  have hlast := hcode.right.head
  have hstep : step (prog.compiled D).code (prog.compiled D).consts
      ⟨0 + (prog.code D 0 0).length, stack, vars'⟩ = some ⟨0, stack, vars'⟩ := by
    simp only [step, hlast, oper]
  exact hrun.settles hstep rfl

/-- The script `if(a==0){b=1}else{b=6/a}` on two local variables that are 3. -/
theorem execute_compiled_ifElse :
    ∃ compiled,
      Settles (fun fuel => compile ⟨[], [], [[97], [98]]⟩ fuel
        [105, 102, 40, 97, 61, 61, 48, 41, 123, 98, 61, 49, 125, 101, 108, 115, 101, 123, 98, 61,
          54, 47, 97, 125]) (true, compiled) ∧
      Settles (fun fuel => execute compiled fuel ⟨fun _ => 0, fun _ => 3⟩)
        ⟨fun _ => 0, Function.update (fun _ => 3) 1 2⟩ := by
  have hspelled : Spelled
      (Prog.single (.ifElse (.all (.factor (.comp .ee (.term (.factor (.var [97])))
          (.term (.factor (.const [48]))) rfl)))
        (.single (.assign [98] (.term (.factor (.const [49])))))
        (.single (.assign [98] (.term (.mul .over (.factor (.const [54])) (.var [97]))))))).symbols
      (withoutComments (lines [105, 102, 40, 97, 61, 61, 48, 41, 123, 98, 61, 49, 125, 101, 108,
        115, 101, 123, 98, 61, 54, 47, 97, 125])) := by
    refine .next [105, 102] (.keyword (by decide)) rfl ?_
    refine .next [40] (.keyword (by decide)) rfl ?_
    refine .next [97] (.ident rfl (by simp) rfl) rfl ?_
    refine .next [61, 61] (.keyword (by decide)) rfl ?_
    refine .next [48] (.int (by simp) (by simp [isDigit])) rfl ?_
    refine .next [41] (.keyword (by decide)) rfl ?_
    refine .next [123] (.keyword (by decide)) rfl ?_
    refine .next [98] (.ident rfl (by simp) rfl) rfl ?_
    refine .next [61] (.keyword (by decide)) rfl ?_
    refine .next [49] (.int (by simp) (by simp [isDigit])) rfl ?_
    refine .next [125] (.keyword (by decide)) rfl ?_
    refine .next [101, 108, 115, 101] (.keyword (by decide)) rfl ?_
    refine .next [123] (.keyword (by decide)) rfl ?_
    refine .next [98] (.ident rfl (by simp) rfl) rfl ?_
    refine .next [61] (.keyword (by decide)) rfl ?_
    refine .next [54] (.int (by simp) (by simp [isDigit])) rfl ?_
    refine .next [47] (.keyword (by decide)) rfl ?_
    refine .next [97] (.ident rfl (by simp) rfl) rfl ?_
    refine .next [125] (.keyword (by decide)) rfl ?_
    exact .nil (by simp [isSpace])
  obtain ⟨compiled, hcompile, hexecute⟩ := execute_compiled (D := ⟨[], [], [[97], [98]]⟩)
    (by exact ⟨⟨rfl, trivial⟩, ⟨rfl, trivial⟩, rfl, trivial, rfl⟩) (by simp [lines]) hspelled
  exact ⟨compiled, hcompile, hexecute _ _ rfl⟩

end CSLEngine
