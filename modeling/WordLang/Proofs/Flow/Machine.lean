import WordLang.Linear.OfFlow
import WordLang.Proofs.Evaluation
import WordLang.Proofs.Machine

/-!
# The machine of control-flow graphs

Control-flow graphs run on a machine whose activations have their own operand stacks. A step takes
one statement or one terminator. It costs as much as the lines of linear code that it becomes; a
call costs the declarations of the slots of its callee besides.

## Main definitions

* `Flow.Definition`, `Flow.Program`: functions as graphs
* `Flow.Frame`, `Flow.State`: activations, and the state of the machine
* `Flow.Action`, `Flow.Frame.act`: what the next statement or terminator does
* `Flow.machine p`: the machine that runs the program `p`

## Main results

* `Flow.Frame.call_of_act`, `Flow.Frame.finish_of_act`: what calls or ends
-/

namespace WordLang.Flow

/-- A function is defined by a graph, or stands for a foreign function. -/
inductive Definition where
  | graph (function : Function)
  | foreign (symbol : String)

/-- A program: the functions that statements declare. -/
abbrev Program := StmtId → Option Definition

/-- An activation of a function. -/
structure Frame where
  function : Function
  statements : List Statement
  terminator : Terminator
  cells : LocalId → Value
  stack : List Value := []

structure State where
  frame : Frame
  /-- The activations that wait for a result, the latest first. -/
  callers : List Frame := []

/-- How a run ends. -/
abbrev Outcome := Except Stop Value

inductive Action where
  /-- The activation goes on, at a cost. -/
  | go (cost : Nat) (frame : Frame)
  | call (caller : Frame) (decl : StmtId) (arguments : List Value)
  /-- The activation ends with a value. -/
  | finish (value : Value)
  | fail (cost : Nat) (stop : Stop)

namespace Action

/-- The action of what makes no sense. -/
def stuck : Action := .fail 1 .stuck

end Action

/-- The values of the storage cells at the start of an activation. -/
def Function.startCells (f : Function) (arguments : List Value) (cell : LocalId) : Value :=
  match f.params.idxOf? cell with
  | some index => (arguments[index]?).getD (.int 0)
  | none => .int 0

def Function.activation? (f : Function) (arguments : List Value) : Option Frame :=
  if arguments.length = f.params.length then
    (findBlock? f.blocks f.entry).map fun b =>
      { function := f, statements := b.statements, terminator := b.terminator
        cells := f.startCells arguments }
  else none

def Function.slotCount (f : Function) : Nat := (Linear.slotCells f).length

/-- Is the statement an operation on two values? -/
def Statement.isBinary : Statement → Bool
  | .binary _ => true
  | _ => false

/-- Does the terminator test a value? -/
def Terminator.isBranch : Terminator → Bool
  | .branch _ _ => true
  | _ => false

/-- The number of registers that the code of statements draws: one each, and a second one for an
operation on two values. -/
def statementRegisters (ss : List Statement) : Nat := ss.length + ss.countP Statement.isBinary

/-- The number of registers that the code of blocks draws: those of the statements, and one for every
test. -/
def blockRegisters (blocks : List Block) : Nat :=
  statementRegisters (blocks.flatMap Block.statements) +
    blocks.countP fun b => b.terminator.isBranch

theorem statementRegisters_append (ss ss' : List Statement) :
    statementRegisters (ss ++ ss') = statementRegisters ss + statementRegisters ss' := by
  simp only [statementRegisters, List.length_append, List.countP_append]
  omega

theorem blockRegisters_cons (b : Block) (blocks : List Block) : blockRegisters (b :: blocks) =
    statementRegisters b.statements + b.terminator.isBranch.toNat + blockRegisters blocks := by
  simp only [blockRegisters, List.flatMap_cons, statementRegisters_append, List.countP_cons]
  cases b.terminator.isBranch <;> simp <;> omega

/-- The number of registers of a function: its slots, and what the code of its blocks draws. -/
def Function.registerCount (f : Function) : Nat := f.slotCount + blockRegisters f.blocks

/-- Goes on at a block. -/
def Frame.goto (f : Frame) (cost : Nat) (target : BlockId) : Action :=
  match findBlock? f.function.blocks target with
  | some b => .go cost { f with statements := b.statements, terminator := b.terminator }
  | none => .stuck

/-- What a statement does in the activation `f`, which is at the statement after it. -/
def Statement.act (f : Frame) : Statement → Action
  | .push value => .go 3 { f with stack := value :: f.stack }
  | .pop =>
    match f.stack with
    | _ :: stack => .go 2 { f with stack }
    | [] => .stuck
  | .load cell => .go 3 { f with stack := f.cells cell :: f.stack }
  | .store cell =>
    match f.stack with
    | value :: stack => .go 3 { f with stack, cells := Function.update f.cells cell value }
    | [] => .stuck
  | .call arguments =>
    match f.stack with
    | .function decl :: stack =>
      if arguments ≤ stack.length then
        .call { f with stack := stack.drop arguments } decl (stack.take arguments).reverse
      else .stuck
    | _ => .stuck
  | .binary op =>
    match f.stack with
    | rhs :: lhs :: stack =>
      match Evaluation.operator op lhs rhs with
      | .ok value => .go 6 { f with stack := value :: stack }
      | .error stop => .fail 3 stop
    | _ => .stuck

/-- What a terminator does in the activation `f`. -/
def Terminator.act (f : Frame) : Terminator → Action
  | .return => if f.stack = [] then .finish (f.cells f.function.result) else .stuck
  | .goto target => f.goto 1 target
  | .branch truthy falsy =>
    match f.stack with
    | .int value :: stack =>
      if value ≠ 0 then { f with stack }.goto 2 truthy else { f with stack }.goto 4 falsy
    | _ => .stuck
  | .error => .stuck
  | .unset => .stuck

/-- What the next statement or the terminator of an activation does. -/
def Frame.act (f : Frame) : Action :=
  match f.statements with
  | statement :: rest => statement.act { f with statements := rest }
  | [] => f.terminator.act f

/-- What an action costs and leads to. -/
def perform (p : Program) (s : State) : Action → Nat × (State ⊕ Outcome)
  | .go cost frame => (cost, .inl { s with frame })
  | .call caller decl arguments =>
    match p decl with
    | some (.graph f) =>
      match f.activation? arguments with
      | some frame => (2 + f.slotCount, .inl ⟨frame, caller :: s.callers⟩)
      | none => (1, .inr (.error .stuck))
    | some (.foreign symbol) => (2, .inr (.error (.fault (.foreign symbol))))
    | none => (1, .inr (.error .stuck))
  | .finish value =>
    match s.callers with
    | caller :: callers => (2, .inl ⟨{ caller with stack := value :: caller.stack }, callers⟩)
    | [] => (1, .inr (.ok value))
  | .fail cost stop => (cost, .inr (.error stop))

/-- The machine that runs a program. -/
def machine (p : Program) : Machine State Outcome where
  step s := (perform p s s.frame.act).2
  cost s := (perform p s s.frame.act).1

/-! ## What an action comes from -/

/-- An activation that calls is at a call, with the function and its arguments on its stack. -/
theorem Frame.call_of_act {f caller : Frame} {decl : StmtId} {arguments : List Value}
    (h : f.act = .call caller decl arguments) :
    ∃ n ss values, f.statements = .call n :: ss ∧ f.stack = .function decl :: values ∧
      n ≤ values.length ∧ caller = { f with statements := ss, stack := values.drop n } ∧
      arguments = (values.take n).reverse := by
  simp only [Frame.act] at h
  split at h
  · next statement ss hs =>
    cases statement <;> simp only [Statement.act, Action.stuck] at h
    case push | load => cases h
    case pop | store => split at h <;> cases h
    case call n =>
      split at h
      · next decl' values hstack =>
        split at h
        · next hlen =>
          cases h
          exact ⟨n, ss, values, hs, hstack, hlen, rfl, rfl⟩
        · cases h
      · cases h
    case binary =>
      split at h
      · split at h <;> cases h
      · cases h
  · cases hterm : f.terminator <;> rw [hterm] at h <;>
      simp only [Terminator.act, Frame.goto, Action.stuck] at h
    all_goals
      repeat' split at h
      all_goals cases h

/-- An activation that ends is at a `return` with an empty stack. -/
theorem Frame.finish_of_act {f : Frame} {value : Value} (h : f.act = .finish value) :
    f.statements = [] ∧ f.terminator = .return ∧ f.stack = [] ∧
      value = f.cells f.function.result := by
  simp only [Frame.act] at h
  split at h
  · next statement ss hs =>
    cases statement <;> simp only [Statement.act, Action.stuck] at h
    all_goals
      repeat' split at h
      all_goals cases h
  · next hs =>
    cases hterm : f.terminator <;> rw [hterm] at h <;>
      simp only [Terminator.act, Frame.goto, Action.stuck] at h
    case «return» =>
      split at h
      · next hstack =>
        cases h
        exact ⟨hs, rfl, hstack, rfl⟩
      · cases h
    all_goals
      repeat' split at h
      all_goals cases h

end WordLang.Flow
