import WordLang.Flow
import WordLang.Linear
import WordLang.Linkage
import WordLang.Scope.Resolution

/-!
# Linear code of control-flow graphs

Every statement of a block becomes a short run of instructions that pops its operands into fresh
registers, works on them and pushes the value; blocks follow each other in order. A body starts
with the slots of its storage cells: parameters first, then the result, then the other cells.

## Main definitions

* `Linear.Lower`: lowering steps, which draw registers and collect string constants
* `Linear.Lower.statement`, `Linear.Lower.terminator`, `Linear.Lower.block`: statements,
  terminators and blocks
* `Linear.lowerFunction`, `Linear.lowerProgram`: functions and programs
-/

namespace WordLang.Linear

/-- The state of lowering. -/
structure LowerState where
  register : Nat
  /-- The string constants so far, each once, in order of their first use. -/
  strings : List String

/-- A lowering step. -/
abbrev Lower := EStateM Failure LowerState

/-- What lowering a function has to know. -/
structure LowerContext where
  functions : List StmtId
  name : String
  /-- The blocks of the function, in order; the label of a block is its position. -/
  blocks : List BlockId
  slots : Table RegisterId

namespace Lower

/-- The next register; it is unused as long as identifiers last. -/
def fresh : Lower RegisterId :=
  modifyGet fun s => (idOfNat s.register, { s with register := s.register + 1 })

/-- Fails because an invariant is violated. -/
def violated {α : Type} (defect : Defect) : Lower α := throw (.internal defect)

/-- The identifier of a string constant. -/
def intern (text : String) : Lower StringId :=
  modifyGet fun s =>
    match s.strings.idxOf? text with
    | some id => (id, s)
    | none => (s.strings.length, { s with strings := s.strings ++ [text] })

section

variable (c : LowerContext)

/-- The label of a block. -/
def labelOf (block : BlockId) : Lower LabelId :=
  match c.blocks.idxOf? block with
  | some label => pure label
  | none => violated (.missingTarget block)

/-- The slot of a storage cell. -/
def slotOf (cell : LocalId) : Lower RegisterId :=
  match c.slots.find? cell with
  | some slot => pure slot
  | none => violated (.noSlot cell)

/-- The function that a statement declares. -/
def functionOf (decl : StmtId) : Lower FunctionId :=
  match c.functions.idxOf? decl with
  | some id => pure (idOfNat id)
  | none => violated (.noFunction decl)

/-- The instructions that push a constant. -/
def constant (value : Flow.Value) : Lower (List Instruction) := do
  match value with
  | .int value =>
    let r ← fresh
    return [.moveInt r value, .push r, .kill r]
  | .string text =>
    let id ← intern text
    let r ← fresh
    return [.moveString r id, .push r, .kill r]
  | .function decl =>
    let id ← functionOf c decl
    let r ← fresh
    return [.moveFunction r id, .push r, .kill r]

/-- The instructions of a statement. -/
def statement : Flow.Statement → Lower (List Instruction)
  | .push value => constant c value
  | .pop => do
    let r ← fresh
    return [.pop r, .kill r]
  | .load cell => do
    let slot ← slotOf c cell
    let r ← fresh
    return [.load r slot, .push r, .kill r]
  | .store cell => do
    let slot ← slotOf c cell
    let r ← fresh
    return [.pop r, .storeRegister slot r, .kill r]
  | .call arguments => do
    let r ← fresh
    return [.pop r, .callRegister r arguments, .kill r]
  | .binary op => do
    -- The right operand is on top of the stack.
    let source ← fresh
    let destination ← fresh
    return [.pop source, .pop destination, .binary op destination source, .push destination,
      .kill source, .kill destination]

/-- The instructions of a terminator. -/
def terminator : Flow.Terminator → Lower (List Instruction)
  | .error => violated (.errorTerminator c.name)
  | .unset => violated (.unsetTerminator c.name)
  | .return => return [.return]
  | .goto target => do
    return [.jump (← labelOf c target)]
  | .branch truthy falsy => do
    let truthy ← labelOf c truthy
    let falsy ← labelOf c falsy
    let r ← fresh
    return [.pop r, .jumpIfNonZero r truthy, .kill r, .jump falsy]

/-- The instructions of a list of statements. -/
def statements : List Flow.Statement → Lower (List Instruction)
  | [] => return []
  | s :: rest => do
    let first ← statement c s
    return first ++ (← statements rest)

/-- Lines for instructions, with labels on the first. -/
def labelled (labels : List LabelId) : List Instruction → List Line
  | [] => []
  | i :: rest => ⟨labels, i⟩ :: rest.map fun j => ⟨[], j⟩

/-- The lines of a block. -/
def block (b : Flow.Block) : Lower (List Line) := do
  let label ← labelOf c b.id
  let code ← statements c b.statements
  return labelled [label] (code ++ (← terminator c b.terminator))

/-- The lines of a list of blocks. -/
def blocks : List Flow.Block → Lower (List Line)
  | [] => return []
  | b :: rest => do
    let first ← block c b
    return first ++ (← blocks rest)

end

end Lower

/-- The storage cells of a function other than its parameters, the result first. -/
def innerCells (f : Flow.Function) : List LocalId :=
  f.result :: (Numbered.ids f.locals).filter fun cell => cell ≠ f.result && cell ∉ f.params

/-- The storage cells of a function in the order of their slots. -/
def slotCells (f : Flow.Function) : List LocalId := f.params ++ innerCells f

/-- The slots of the storage cells of a function. -/
def slotTable (f : Flow.Function) : Table RegisterId :=
  Table.ofList ((slotCells f).zipIdx.map fun e => (e.1, idOfNat e.2))

/-- The lines that declare the slots of a function. -/
def slotLines (f : Flow.Function) : List Line :=
  (List.range (slotCells f).length).map fun i =>
    ⟨[], if i < f.params.length then .allocParam (idOfNat i) slotSize
      else .allocLocal (idOfNat i) slotSize⟩

/-- The body of a function whose graph is given. -/
def lowerFunction (functions : List StmtId) (f : Flow.Function) : Lower Body := do
  let c : LowerContext :=
    { functions, name := f.name, blocks := f.blocks.map Flow.Block.id, slots := slotTable f }
  modify fun s => { s with register := (slotCells f).length }
  let lines ← Lower.blocks c f.blocks
  let result ← Lower.slotOf c f.result
  let entry ← Lower.labelOf c f.entry
  return { lines := slotLines f ++ lines, locals := c.slots, result, entry }

/-- The symbol of a function: its name, and its identifier if it is declared within a block. -/
def symbolOf (m : Module) (id : StmtId) (decl : FnDecl) : String :=
  if m.items.any fun item => item.id = id then "sbc__" ++ decl.ident.name
  else "sbc__" ++ decl.ident.name ++ "_" ++ toString id

/-- The definition of a function with given linkage, from its graph if it has one. -/
def lowerDefinition (functions : List StmtId) (decl : FnDecl) (linkage : Linkage)
    (graph : Option Flow.Function) : Lower Definition :=
  match linkage.foreign, graph with
  | some symbol, none => return .foreign symbol
  | none, some graph => return .body (← lowerFunction functions graph)
  | some _, some _ => Lower.violated (.foreignBody decl.ident.name)
  | none, none => Lower.violated (.noGraph decl.ident.name)

/-- The functions of a program, from the graphs of those that have a body; of two graphs for one
function the last one counts. -/
def lowerFunctions (m : Module) (r : Resolutions) (graphs : List Flow.Function) :
    List StmtId → Lower (List Function)
  | [] => return []
  | id :: rest => do
    match r.function? id with
    | none => Lower.violated (.notFunction id)
    | some decl =>
      match decl.linkage with
      | .error failure => throw failure
      | .ok linkage =>
        let graph := graphs.reverse.find? fun g => g.decl = id
        let definition ← lowerDefinition r.functions decl linkage graph
        let function : Function :=
          { label := symbolOf m id decl
            arity := decl.params.length
            exported := linkage.exported
            definition }
        return function :: (← lowerFunctions m r graphs rest)

/-- The program of a module, from the graphs of the functions that have a body. -/
def lowerProgram (m : Module) (r : Resolutions) (graphs : List Flow.Function) :
    Except Failure Program :=
  match (lowerFunctions m r graphs r.functions).run ⟨0, []⟩ with
  | .ok functions state =>
    .ok ⟨Table.ofList (state.strings.zipIdx.map fun e => (e.2, e.1)), functions⟩
  | .error failure _ => .error failure

end WordLang.Linear
