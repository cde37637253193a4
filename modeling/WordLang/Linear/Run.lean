import WordLang.Linear

/-!
# Running linear code

A machine runs linear code line by line. Every activation has its own registers and slots; all
activations share one stack. A run ends with the value of the first activation, or with an error,
at the latest when the fuel is used up: every line takes one unit.

## Main definitions

* `Linear.RunError`, `Linear.RunError.message`: what can go wrong
* `Linear.Frame`, `Linear.State`: activations, and the state of the machine
* `Linear.step`, `Linear.run`: one line, and as many lines as the fuel allows
* `Linear.Session`, `Linear.Session.call`: runs one after another with shared fuel and stack
-/

namespace WordLang.Linear

/-- What can go wrong in a run. -/
inductive RunError where
  | noFunction (label : String)
  | unknownFunction (id : FunctionId)
  | foreign (symbol : String)
  | argumentCount (label : String) (expected got : Nat)
  | stackUnderflow
  | outOfFuel
  | missingArgument
  | deadRead (register : RegisterId)
  | notSlot (register : RegisterId)
  | unknownLabel (label : LabelId)
  | emptyPop
  | negativeFunction
  | liveAtReturn (register : RegisterId)
  | unbalancedStack (label : String)
  | deadKill (register : RegisterId)
  | ranOff (label : String)
  | undefinedQuotient (lhs rhs : Int64)
  | undefinedRemainder (lhs rhs : Int64)
  | leftOver (count : Nat)
deriving Repr, DecidableEq

/-- The report of an error. -/
def RunError.message : RunError → String
  | .noFunction label => "no function `" ++ label ++ "`"
  | .unknownFunction id => "call to unknown function " ++ toString id
  | .foreign symbol => "cannot run external function `" ++ symbol ++ "`"
  | .argumentCount label expected got =>
    "`" ++ label ++ "` takes " ++ toString expected ++ " arguments, got " ++ toString got
  | .stackUnderflow => "stack underflow while calling"
  | .outOfFuel => "out of fuel"
  | .missingArgument => "missing argument"
  | .deadRead register => "read of dead register %" ++ toString register
  | .notSlot register => "%" ++ toString register ++ " is not a slot"
  | .unknownLabel label => "jump to unknown label .L" ++ toString label
  | .emptyPop => "pop from an empty stack"
  | .negativeFunction => "call through a negative function id"
  | .liveAtReturn register => "%" ++ toString register ++ " is still live at return"
  | .unbalancedStack label => "`" ++ label ++ "` returned with an unbalanced stack"
  | .deadKill register => "kill of dead register %" ++ toString register
  | .ranOff label => "`" ++ label ++ "` ran off the end of its body"
  | .undefinedQuotient lhs rhs =>
    "cannot divide " ++ toString lhs.toInt ++ " by " ++ toString rhs.toInt
  | .undefinedRemainder lhs rhs =>
    "cannot take " ++ toString lhs.toInt ++ " modulo " ++ toString rhs.toInt
  | .leftOver count => toString count ++ " values left on the stack"

/-- The value of an operator on two words. Only quotients and remainders can be undefined. -/
def evaluate (op : BinaryOp) (lhs rhs : Int64) : Except RunError Int64 :=
  match op.eval? lhs rhs with
  | some value => .ok value
  | none =>
    match op with
    | .div => .error (.undefinedQuotient lhs rhs)
    | _ => .error (.undefinedRemainder lhs rhs)

/-! ## Activations -/

/-- An activation of a function. -/
structure Frame where
  label : String
  body : Body
  rest : List Line
  arguments : List Int64
  registers : Table Int64 := {}
  slots : Table Int64 := {}
  /-- The height of the stack without the arguments. -/
  base : Nat
deriving Inhabited

/-- The lines from the last line with a label on. -/
def seek (label : LabelId) : List Line → Option (List Line)
  | [] => none
  | line :: rest =>
    match seek label rest with
    | some lines => some lines
    | none => if label ∈ line.labels then some (line :: rest) else none

namespace Frame

/-- The value of a register. -/
def read (f : Frame) (register : RegisterId) : Except RunError Int64 :=
  match f.registers.find? register with
  | some value => .ok value
  | none => .error (.deadRead register)

/-- An activation with the value of a register set. -/
def write (f : Frame) (register : RegisterId) (value : Int64) : Frame :=
  { f with registers := f.registers.insert register value }

/-- An activation with the value of a slot set. -/
def store (f : Frame) (slot : RegisterId) (value : Int64) : Frame :=
  { f with slots := f.slots.insert slot value }

/-- The value of a slot; a declared slot that was not written to is zero. -/
def slot (f : Frame) (slot : RegisterId) : Except RunError Int64 :=
  match f.slots.find? slot with
  | some value => .ok value
  | none =>
    if f.body.lines.any fun line => line.instruction.slot? = some slot then .ok 0
    else .error (.notSlot slot)

/-- An activation that goes on at a label. -/
def jump (f : Frame) (label : LabelId) : Except RunError Frame :=
  match seek label f.body.lines with
  | some lines => .ok { f with rest := lines }
  | none => .error (.unknownLabel label)

/-- An activation in which the branch on a register was taken. The `kill` that follows a branch
also counts where the branch is taken. -/
def killAfterBranch (f : Frame) (register : RegisterId) : Frame :=
  match f.rest with
  | ⟨_, .kill killed⟩ :: _ =>
    if killed = register then { f with registers := f.registers.erase register } else f
  | _ => f

end Frame

/-! ## The machine -/

/-- The state of the machine. -/
structure State where
  frame : Frame
  /-- The activations that wait for a result, the latest first. -/
  callers : List Frame := []
  stack : List Int64
deriving Inhabited

/-- What a line leads to: a further state, or the value of the first activation. -/
inductive Progress where
  | next (state : State)
  | done (value : Int64) (stack : List Int64)

/-- An activation of a function with as many arguments from the stack, and the stack without
them. -/
def activate (f : Function) (arguments : Nat) (stack : List Int64) :
    Except RunError (Frame × List Int64) :=
  match f.definition with
  | .foreign symbol => .error (.foreign symbol)
  | .body body =>
    if arguments ≠ f.arity then .error (.argumentCount f.label f.arity arguments)
    else if stack.length < arguments then .error .stackUnderflow
    else
      let below := stack.drop arguments
      .ok ({ label := f.label, body, rest := body.lines,
             arguments := (stack.take arguments).reverse, base := below.length }, below)

/-- Calls the function `id` from the activation `caller`. -/
def call (p : Program) (s : State) (caller : Frame) (id : FunctionId) (arguments : Nat) :
    Except RunError Progress :=
  match p.functions[id]? with
  | none => .error (.unknownFunction id)
  | some f => do
    let (frame, stack) ← activate f arguments s.stack
    return .next ⟨frame, caller :: s.callers, stack⟩

/-- Ends the current activation `f`. -/
def finish (s : State) (f : Frame) : Except RunError Progress :=
  match f.registers.keys with
  | live :: _ => .error (.liveAtReturn live)
  | [] =>
    if s.stack.length ≠ f.base then .error (.unbalancedStack f.label)
    else do
      let value ← f.slot f.body.result
      match s.callers with
      | [] => return .done value s.stack
      | caller :: callers => return .next ⟨caller, callers, value :: s.stack⟩

/-- Runs an instruction in the activation `f`, which is at the line after it. -/
def execute (p : Program) (s : State) (f : Frame) : Instruction → Except RunError Progress
  | .nop => return .next { s with frame := f }
  | .allocParam register _ =>
    match f.arguments with
    | [] => .error .missingArgument
    | value :: rest =>
      return .next { s with frame := { f.store register value with arguments := rest } }
  | .allocLocal _ _ => return .next { s with frame := f }
  | .moveInt register value => return .next { s with frame := f.write register value }
  | .moveString register string =>
    return .next { s with frame := f.write register (Int64.ofNat string) }
  | .moveFunction register function =>
    return .next { s with frame := f.write register (Int64.ofNat function) }
  | .push register => do
    let value ← f.read register
    return .next { s with frame := f, stack := value :: s.stack }
  | .pop register =>
    match s.stack with
    | [] => .error .emptyPop
    | value :: stack => return .next { s with frame := f.write register value, stack }
  | .load register slot => do
    let value ← f.slot slot
    return .next { s with frame := f.write register value }
  | .storeRegister slot register => do
    let value ← f.read register
    return .next { s with frame := f.store slot value }
  | .storeImmediate slot value => return .next { s with frame := f.store slot value }
  | .callRegister register arguments => do
    let value ← f.read register
    if value < 0 then .error .negativeFunction
    else call p s f (idOfNat value.toInt.toNat) arguments
  | .callImmediate function arguments => call p s f function arguments
  | .jump target => do
    return .next { s with frame := ← f.jump target }
  | .jumpIfNonZero register target => do
    let value ← f.read register
    if value ≠ 0 then return .next { s with frame := ← (f.killAfterBranch register).jump target }
    else return .next { s with frame := f }
  | .return => finish s f
  | .binary op destination source => do
    let lhs ← f.read destination
    let rhs ← f.read source
    let value ← evaluate op lhs rhs
    return .next { s with frame := f.write destination value }
  | .kill register =>
    match f.registers.find? register with
    | none => .error (.deadKill register)
    | some _ => return .next { s with frame := { f with registers := f.registers.erase register } }

/-- Runs one line. -/
def step (p : Program) (s : State) : Except RunError Progress :=
  match s.frame.rest with
  | [] => .error (.ranOff s.frame.label)
  | line :: rest => execute p s { s.frame with rest } line.instruction

/-- The end of a run: its value or its error, the fuel that is left and the stack. -/
structure Result where
  outcome : Except RunError Int64
  fuel : Nat
  stack : List Int64

/-- Runs lines while there is fuel. -/
def run (p : Program) : Nat → State → Result
  | 0, s =>
    match s.frame.rest with
    | [] => ⟨.error (.ranOff s.frame.label), 0, s.stack⟩
    | _ :: _ => ⟨.error .outOfFuel, 0, s.stack⟩
  | fuel + 1, s =>
    match s.frame.rest with
    | [] => ⟨.error (.ranOff s.frame.label), fuel + 1, s.stack⟩
    | _ :: _ =>
      match step p s with
      | .ok (.next t) => run p fuel t
      | .ok (.done value stack) => ⟨.ok value, fuel, stack⟩
      | .error e => ⟨.error e, fuel, s.stack⟩

/-! ## Sessions -/

/-- Runs one after another share their fuel, and values that a failed run left on the stack. -/
structure Session where
  stack : List Int64 := []
  fuel : Nat := 1000000

/-- Runs the function with a given label; the stack has to be empty afterwards. -/
def Session.call (p : Program) (session : Session) (label : String) (arguments : List Int64) :
    Except RunError Int64 × Session :=
  match p.function? label with
  | none => (.error (.noFunction label), session)
  | some f =>
    let stack := arguments.reverse ++ session.stack
    match activate f arguments.length stack with
    | .error e => (.error e, { session with stack })
    | .ok (frame, below) =>
      let result := run p session.fuel { frame, stack := below }
      let after : Session := ⟨result.stack, result.fuel⟩
      match result.outcome with
      | .error e => (.error e, after)
      | .ok value =>
        if result.stack.length ≠ 0 then (.error (.leftOver result.stack.length), after)
        else (.ok value, after)

end WordLang.Linear
