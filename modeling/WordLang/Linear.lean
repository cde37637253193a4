import WordLang.Id
import WordLang.Operator
import WordLang.Table

/-!
# Linear code

The body of a function is a list of lines. A line has an instruction and the labels that jumps
lead to it by. Instructions work on virtual registers, on slots, which hold storage cells, and on
a stack; every value in a register ends with an explicit `kill`.

## Main definitions

* `Linear.Instruction`, `Linear.Line`, `Linear.Body`, `Linear.Function`, `Linear.Program`: linear
  code
* `Linear.Instruction.registers`, `Linear.Instruction.rename`: the registers of an instruction
* `Linear.Program.function?`: the function with a given label
-/

namespace WordLang.Linear

/-- The number of bytes of a slot. -/
def slotSize : Nat := 8

/-- An instruction. -/
inductive Instruction where
  /-- Does nothing. -/
  | nop
  | allocParam (register : RegisterId) (size : Nat)
  /-- Declares a slot. -/
  | allocLocal (register : RegisterId) (size : Nat)
  /-- Puts a word into a register. -/
  | moveInt (register : RegisterId) (value : Int64)
  | moveString (register : RegisterId) (string : StringId)
  | moveFunction (register : RegisterId) (function : FunctionId)
  /-- Pushes a register. -/
  | push (register : RegisterId)
  /-- Pops into a register. -/
  | pop (register : RegisterId)
  /-- Reads a slot into a register. -/
  | load (register slot : RegisterId)
  | storeRegister (slot register : RegisterId)
  /-- Writes a word to a slot. -/
  | storeImmediate (slot : RegisterId) (value : Int64)
  /-- Calls the function in a register: it takes its arguments from the stack and pushes its
  result. -/
  | callRegister (register : RegisterId) (arguments : Nat)
  /-- Calls a function. -/
  | callImmediate (function : FunctionId) (arguments : Nat)
  /-- Goes on at a label. -/
  | jump (target : LabelId)
  | jumpIfNonZero (register : RegisterId) (target : LabelId)
  /-- Ends the activation with the value of the result slot. -/
  | return
  /-- Puts the value of an operator on two registers into the first. -/
  | binary (op : BinaryOp) (destination source : RegisterId)
  /-- Ends the life of a register. -/
  | kill (register : RegisterId)
deriving Repr, DecidableEq, Inhabited

namespace Instruction

/-- Whether an instruction moves the stack or may change any register. -/
def pollutesStack : Instruction → Bool
  | .push _ => true
  | .pop _ => true
  | .callRegister _ _ => true
  | .callImmediate _ _ => true
  | _ => false

/-- The registers and slots of an instruction, as often as it names them. -/
def registers : Instruction → List RegisterId
  | .nop => []
  | .allocParam r _ => [r]
  | .allocLocal r _ => [r]
  | .moveInt r _ => [r]
  | .moveString r _ => [r]
  | .moveFunction r _ => [r]
  | .push r => [r]
  | .pop r => [r]
  | .load r slot => [r, slot]
  | .storeRegister slot r => [r, slot]
  | .storeImmediate slot _ => [slot]
  | .callRegister r _ => [r]
  | .callImmediate _ _ => []
  | .jump _ => []
  | .jumpIfNonZero r _ => [r]
  | .return => []
  | .binary _ destination source => [destination, source]
  | .kill r => [r]

/-- An instruction with its registers and slots changed. -/
def mapRegisters (f : RegisterId → RegisterId) : Instruction → Instruction
  | .nop => .nop
  | .allocParam r size => .allocParam (f r) size
  | .allocLocal r size => .allocLocal (f r) size
  | .moveInt r value => .moveInt (f r) value
  | .moveString r string => .moveString (f r) string
  | .moveFunction r function => .moveFunction (f r) function
  | .push r => .push (f r)
  | .pop r => .pop (f r)
  | .load r slot => .load (f r) (f slot)
  | .storeRegister slot r => .storeRegister (f slot) (f r)
  | .storeImmediate slot value => .storeImmediate (f slot) value
  | .callRegister r arguments => .callRegister (f r) arguments
  | .callImmediate function arguments => .callImmediate function arguments
  | .jump target => .jump target
  | .jumpIfNonZero r target => .jumpIfNonZero (f r) target
  | .return => .return
  | .binary op destination source => .binary op (f destination) (f source)
  | .kill r => .kill (f r)

/-- An instruction with one register named by another. -/
def rename (source target : RegisterId) (i : Instruction) : Instruction :=
  i.mapRegisters fun r => if r = source then target else r

/-- The slot that an instruction declares. -/
def slot? : Instruction → Option RegisterId
  | .allocParam r _ => some r
  | .allocLocal r _ => some r
  | _ => none

@[simp] theorem registers_mapRegisters (f : RegisterId → RegisterId) (i : Instruction) :
    (i.mapRegisters f).registers = i.registers.map f := by
  cases i <;> rfl

@[simp] theorem pollutesStack_mapRegisters (f : RegisterId → RegisterId) (i : Instruction) :
    (i.mapRegisters f).pollutesStack = i.pollutesStack := by
  cases i <;> rfl

end Instruction

/-- A line: an instruction and the labels that lead to it. -/
structure Line where
  labels : List LabelId := []
  instruction : Instruction
deriving Repr, DecidableEq, Inhabited

/-- A line with one register named by another. -/
def Line.rename (source target : RegisterId) (line : Line) : Line :=
  { line with instruction := line.instruction.rename source target }

/-- The body of a function. -/
structure Body where
  lines : List Line
  locals : Table RegisterId := {}
  result : RegisterId
  entry : LabelId
deriving Repr, Inhabited

/-- A body with one register named by another in every line. -/
def Body.rename (source target : RegisterId) (body : Body) : Body :=
  { body with lines := body.lines.map (Line.rename source target) }

/-- A function is defined by a body, or stands for a foreign function. -/
inductive Definition where
  | body (body : Body)
  | foreign (symbol : String)
deriving Repr, Inhabited

/-- A function. -/
structure Function where
  /-- The symbol of the function in assembly text. -/
  label : String
  arity : Nat
  /-- A further symbol, under which foreign code may call the function. -/
  exported : Option String := none
  definition : Definition
deriving Repr, Inhabited

/-- A program: its string constants, and its functions, which are named by position. -/
structure Program where
  strings : Table String := {}
  functions : List Function := []
deriving Repr, Inhabited

/-- The first function with a given label. -/
def Program.function? (p : Program) (label : String) : Option Function :=
  p.functions.find? fun f => f.label = label

/-- A program with the body of one of its functions changed. -/
def Program.modifyBody (p : Program) (id : FunctionId) (change : Body → Body) : Program :=
  { p with functions := p.functions.modify id fun f =>
      match f.definition with
      | .body body => { f with definition := .body (change body) }
      | .foreign _ => f }

/-- A program with the bodies of all its functions changed. -/
def Program.mapBodies (p : Program) (change : Body → Body) : Program :=
  { p with functions := p.functions.map fun f =>
      match f.definition with
      | .body body => { f with definition := .body (change body) }
      | .foreign _ => f }

end WordLang.Linear
