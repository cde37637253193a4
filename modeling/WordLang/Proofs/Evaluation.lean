import Mathlib.Tactic
import WordLang.Flow
import WordLang.Linear.Run
import WordLang.Scope.Resolution
import WordLang.Linkage

/-!
# Evaluation of syntax trees

A function is evaluated by following its tree. Every activation has a storage cell for each
parameter and each declaration, and one for the result; cells that nothing was assigned to hold
zero, and a declaration without a value leaves its cell alone. Operands and arguments are
evaluated from left to right and the callee comes last. Evaluation can fail where an operator is
undefined and where a foreign function is called, and it may go on forever: a bound on the nesting
of calls and on the rounds of a loop stands for how far it is followed.

## Main definitions

* `Fault`, `Stop`: how evaluation fails, and how it ends without a value
* `BinaryOp.meaning`: the meaning of an operator on words, in terms of integers
* `Evaluation.Activation`, `Evaluation.Signal`: storage cells, and how statements end
* `Evaluation.expression`, `Evaluation.statement`, `Evaluation.function`: the evaluation of
  expressions, statements and functions

## Main results

* `evaluate_eq_meaning`: the meaning of an operator is what running linear code computes
-/

namespace WordLang

/-- The operations that fail. -/
inductive Fault where
  | quotient (lhs rhs : Int64)
  | remainder (lhs rhs : Int64)
  | foreign (symbol : String)
deriving Repr, DecidableEq

/-- The error that a run reports for a fault. -/
def Fault.runError : Fault → Linear.RunError
  | .quotient lhs rhs => .undefinedQuotient lhs rhs
  | .remainder lhs rhs => .undefinedRemainder lhs rhs
  | .foreign symbol => .foreign symbol

/-- How evaluation ends without a value. -/
inductive Stop where
  | bound
  | fault (fault : Fault)
  /-- There is no way on: the program makes no sense here. -/
  | stuck
deriving Repr, DecidableEq

/-! ## Operators -/

/-- Whether the quotient of two integers is defined: the divisor is not zero, and the quotient is
the integer of a word. -/
def QuotientDefined (lhs rhs : Int) : Prop := rhs ≠ 0 ∧ ¬(lhs = Int64.minValue.toInt ∧ rhs = -1)

instance (lhs rhs : Int) : Decidable (QuotientDefined lhs rhs) :=
  inferInstanceAs (Decidable (_ ∧ ¬(_ ∧ _)))

/-- The meaning of an operator on two words: comparisons give one or zero, sums, differences and
products are taken modulo the number of words, and quotients and remainders truncate toward
zero. -/
def BinaryOp.meaning (op : BinaryOp) (lhs rhs : Int64) : Except Fault Int64 :=
  let x := lhs.toInt
  let y := rhs.toInt
  match op with
  | .lt => .ok (if x < y then 1 else 0)
  | .gt => .ok (if x > y then 1 else 0)
  | .le => .ok (if x ≤ y then 1 else 0)
  | .ge => .ok (if x ≥ y then 1 else 0)
  | .eq => .ok (if x = y then 1 else 0)
  | .ne => .ok (if x ≠ y then 1 else 0)
  | .add => .ok (Int64.ofInt (x + y))
  | .sub => .ok (Int64.ofInt (x - y))
  | .mul => .ok (Int64.ofInt (x * y))
  | .div => if QuotientDefined x y then .ok (Int64.ofInt (x.tdiv y)) else .error (.quotient lhs rhs)
  | .mod => if QuotientDefined x y then .ok (Int64.ofInt (x.tmod y)) else .error (.remainder lhs rhs)

theorem divides_iff (lhs rhs : Int64) :
    BinaryOp.divides lhs rhs = true ↔ QuotientDefined lhs.toInt rhs.toInt := by
  have hzero : rhs = 0 ↔ rhs.toInt = 0 := Int64.toInt_inj.symm
  have hmin : lhs = Int64.minValue ↔ lhs.toInt = Int64.minValue.toInt := Int64.toInt_inj.symm
  have hneg : rhs = -1 ↔ rhs.toInt = -1 := Int64.toInt_inj.symm
  simp only [BinaryOp.divides, QuotientDefined, Bool.and_eq_true, decide_eq_true_eq,
    Bool.not_eq_true', Bool.and_eq_false_iff, decide_eq_false_iff_not, ne_eq, hzero, hmin, hneg,
    not_and_or]

theorem evaluate_eq_meaning (op : BinaryOp) (lhs rhs : Int64) :
    Linear.evaluate op lhs rhs = (op.meaning lhs rhs).mapError Fault.runError := by
  cases op with
  | lt | gt | le | ge | eq | ne =>
    simp [Linear.evaluate, BinaryOp.eval?, BinaryOp.meaning, BinaryOp.truth, Int64.lt_iff_toInt_lt,
      Int64.le_iff_toInt_le, Int64.toInt_inj, Except.mapError]
  | add | sub | mul =>
    simp [Linear.evaluate, BinaryOp.eval?, BinaryOp.meaning, Int64.ofInt_add, Int64.ofInt_sub,
      Int64.ofInt_mul, Except.mapError]
  | div | mod =>
    have hlhs := Int64.minValue_le_toInt lhs
    have hrhs := Int64.minValue_le_toInt rhs
    simp only [Linear.evaluate, BinaryOp.eval?, BinaryOp.meaning]
    by_cases h : QuotientDefined lhs.toInt rhs.toInt
    · simp only [if_pos ((divides_iff lhs rhs).2 h), if_pos h, Int64.ofInt_toInt,
        Int64.ofInt_tdiv hlhs (Int64.toInt_le lhs) hrhs (Int64.toInt_le rhs),
        Int64.ofInt_tmod hlhs (Int64.toInt_le lhs) hrhs (Int64.toInt_le rhs)]
      rfl
    · rw [if_neg (mt (divides_iff lhs rhs).1 h), if_neg h]
      rfl

namespace Evaluation

open WordLang.Flow (Value)

/-- The value of an operator on two values; only words have one. -/
def operator (op : BinaryOp) : Value → Value → Except Stop Value
  | .int lhs, .int rhs =>
    match op.meaning lhs rhs with
    | .ok value => .ok (.int value)
    | .error fault => .error (.fault fault)
  | _, _ => .error .stuck

/-! ## Activations -/

/-- An activation of a function: the values of its storage cells and of its result. -/
structure Activation where
  cells : Binding → Value
  result : Value := .int 0

/-- The activation at the start of the function that the statement `id` declares. -/
def Activation.start (id : StmtId) (arguments : List Value) : Activation where
  cells
    | .parameter owner index =>
      if owner = id then (arguments[index]?).getD (.int 0) else .int 0
    | _ => .int 0

def Activation.set (a : Activation) (binding : Binding) (value : Value) : Activation :=
  { a with cells := fun b => if b = binding then value else a.cells b }

/-- How a statement ends. -/
inductive Signal where
  /-- Evaluation goes on after the statement. -/
  | next
  | leave (loop : StmtId)
  | done
deriving Repr, DecidableEq

/-- The rounds of a loop, at most `n`, up to one that does not go on. -/
def rounds (loop : StmtId) (round : Activation → Except Stop (Signal × Activation)) :
    Nat → Activation → Except Stop (Signal × Activation)
  | 0, _ => .error .bound
  | n + 1, a => do
    match ← round a with
    | (.next, a) => rounds loop round n a
    | (.leave left, a) => return (if left = loop then .next else .leave left, a)
    | (.done, a) => return (.done, a)

/-! ## Expressions -/

section

variable (r : Resolutions) (call : StmtId → List Value → Except Stop Value)

section

variable (a : Activation)

mutual

/-- The value of an expression in an activation. -/
def expression : Expr → Except Stop Value
  | .error _ => .error .stuck
  | .name tag _ =>
    match r.bindings.find? tag.id with
    | none => .error .stuck
    | some (.function decl) => .ok (.function decl)
    | some binding => .ok (a.cells binding)
  | .int _ value => .ok (.int value)
  | .string _ text => .ok (.string text)
  | .call _ callee args => do
    let args ← expressions args
    match ← expression callee with
    | .function decl => call decl args
    | _ => .error .stuck
  | .unary _ .negate operand => do
    operator .sub (.int 0) (← expression operand)
  | .unary _ .not operand => do
    operator .eq (← expression operand) (.int 0)
  | .binary _ op lhs rhs => do
    let lhs ← expression lhs
    let rhs ← expression rhs
    operator op lhs rhs

/-- The values of a list of expressions. -/
def expressions : List Expr → Except Stop (List Value)
  | [] => .ok []
  | e :: rest => do
    let first ← expression e
    return first :: (← expressions rest)

end

/-- Whether a condition holds: its value is not zero. -/
def condition (e : Expr) : Except Stop Bool := do
  match ← expression r call a e with
  | .int value => return value ≠ 0
  | _ => .error .stuck

end

/-! ## Statements -/

variable (bound : Nat)

mutual

/-- Evaluates a statement. Functions within it are evaluated when they are called. -/
def statement : Stmt → Activation → Except Stop (Signal × Activation)
  | .error _, _ => .error .stuck
  | .function _ _, a => .ok (.next, a)
  | .declare _ _ _ none, a => .ok (.next, a)
  | .declare tag _ _ (some value), a => do
    let value ← expression r call a value
    return (.next, a.set (.local tag.id) value)
  | .loop tag body, a => rounds tag.id (block body) bound a
  | .while tag test body, a =>
    rounds tag.id (fun a => do
      if ← condition r call a test then block body a else return (.leave tag.id, a)) bound a
  | .choose _ test truthy falsy, a => do
    if ← condition r call a test then block truthy a else optionalBlock falsy a
  | .return _ none, a => .ok (.done, a)
  | .return _ (some value), a => do
    let value ← expression r call a value
    return (.done, { a with result := value })
  | .break tag, a =>
    match r.breakTargets.find? tag.id with
    | some loop => .ok (.leave loop, a)
    | none => .error .stuck
  | .assign _ subject value, a => do
    let value ← expression r call a value
    match r.bindings.find? subject.id with
    | none => .error .stuck
    | some (.function _) => .error .stuck
    | some binding => return (.next, a.set binding value)
  | .eval _ e, a => do
    let _ ← expression r call a e
    return (.next, a)

/-- Evaluates a block. -/
def block : Block → Activation → Except Stop (Signal × Activation)
  | ⟨_, list⟩, a => statements list a

/-- Evaluates a block that may be absent. -/
def optionalBlock : Option Block → Activation → Except Stop (Signal × Activation)
  | none, a => .ok (.next, a)
  | some b, a => block b a

/-- Evaluates statements up to one that does not go on. -/
def statements : List Stmt → Activation → Except Stop (Signal × Activation)
  | [], a => .ok (.next, a)
  | s :: rest, a => do
    match ← statement s a with
    | (.next, a) => statements rest a
    | ended => return ended

end

end

/-! ## Functions -/

/-- The value of a call of the function that the statement `id` declares, followed through at most
`n` nested calls and `n` rounds of each loop. -/
def function (r : Resolutions) : Nat → StmtId → List Value → Except Stop Value
  | 0, _, _ => .error .bound
  | n + 1, id, arguments =>
    match r.function? id with
    | none => .error .stuck
    | some decl =>
      match decl.body, decl.linkage with
      | some body, _ =>
        if arguments.length = decl.params.length then do
          let (_, a) ← block r (function r n) n body (.start id arguments)
          return a.result
        else .error .stuck
      | none, .ok ⟨some symbol, _⟩ => .error (.fault (.foreign symbol))
      | none, _ => .error .stuck

end Evaluation

end WordLang
