import WordLang.Assembly
import WordLang.Assembly.Layout
import WordLang.Assembly.Pool
import WordLang.Failure
import WordLang.Linear.Print
import WordLang.Text.Controls
import WordLang.Token

/-!
# Assembly text of linear code

Functions take their arguments from the stack, where the caller pushed them from left to right,
and leave their result in `rax`. Virtual registers are mapped to machine registers line by line;
a call may change every machine register, so no virtual register may be live across one. Division
goes through two routines that keep all registers but `rax`.

## Main definitions

* `Assembly.Generate`: generation steps, which map registers
* `Assembly.instruction`, `Assembly.functionLines`: instructions and functions
* `Assembly.Comments`: which comments go with the instructions
* `Assembly.foreignBridge`, `Assembly.exportBridge`: the bridges to and from foreign code
* `Assembly.programLines`, `Assembly.ofProgram`: a whole program
-/

namespace WordLang.Assembly

/-! ## Instructions -/

/-- The symbol of the routine that divides. -/
def divideSymbol : String := "sbc_rt__div"

/-- The symbol of the routine that takes remainders. -/
def modulusSymbol : String := "sbc_rt__mod"

/-- The symbol of a string constant. -/
def stringSymbol (id : StringId) : String := "sbc__string_" ++ toString id

/-- What generating code for a function has to know. -/
structure GenerateContext where
  program : Linear.Program
  label : String
  layout : Layout

/-- A generation step. -/
abbrev Generate := EStateM Failure Pool

namespace Generate

/-- Fails because an invariant is violated. -/
def violated {α : Type} (defect : Defect) : Generate α := throw (.internal defect)

section

variable (c : GenerateContext)

/-- The machine register of a virtual register. -/
def register (virtual : RegisterId) : Generate Register := do
  match (← get).assign virtual with
  | some (physical, pool) =>
    set pool
    return physical
  | none => throw (.outOfRegisters c.label)

/-- The place of a slot. -/
def slot (virtual : RegisterId) : Generate Operand :=
  match c.layout.offset? virtual with
  | some offset => return .frame offset
  | none => violated (.notStackSlot virtual)

/-- The symbol of a function. -/
def symbol (id : FunctionId) : Generate Operand :=
  match c.program.functions[id]? with
  | some f => return .symbol f.label
  | none => violated (.unknownFunction id)

/-- Requires that no virtual register is live, other than the given one. -/
def nothingLive (except : Option RegisterId) : Generate Unit := do
  match (← get).live.filter fun r => some r ≠ except with
  | [] => return
  | live => violated (.liveAcrossCall live c.label)

end

end Generate

/-- Drops the arguments of a call and pushes its result. -/
def finishCall (arguments : Nat) : List Instr :=
  (if 0 < arguments then [.add .rsp (.immediate (arguments * 8))] else []) ++ [.push .rax]

/-- The instructions that set a register to one or zero. -/
def comparison (condition : Condition) (destination source : Register) : List Instr :=
  [.cmp destination (.register source), .setLowByte condition destination,
    .extendLowByte destination]

/-- The instructions that divide through a routine; `saveRax` if `rax` holds another value. -/
def division (routine : String) (destination source : Register) (saveRax : Bool) : List Instr :=
  (if saveRax then [.push .rax] else []) ++
    [.push destination, .push source, .call (.symbol routine), .add .rsp (.immediate 16)] ++
    (if destination ≠ .rax then [.mov (.register destination) (.register .rax)] else []) ++
    (if saveRax then [.pop .rax] else [])

/-- The instructions of an operator on two registers; `saveRax` if `rax` holds another value. -/
def binary (op : BinaryOp) (destination source : Register) (saveRax : Bool) : List Instr :=
  match op with
  | .add => [.add destination (.register source)]
  | .sub => [.sub destination (.register source)]
  | .mul => [.imul destination source]
  | .div => division divideSymbol destination source saveRax
  | .mod => division modulusSymbol destination source saveRax
  | .lt => comparison .less destination source
  | .gt => comparison .greater destination source
  | .le => comparison .lessOrEqual destination source
  | .ge => comparison .greaterOrEqual destination source
  | .eq => comparison .equal destination source
  | .ne => comparison .notEqual destination source

/-- The machine instructions of an instruction. -/
def instruction (c : GenerateContext) : Linear.Instruction → Generate (List Instr)
  | .nop => return [.nop]
  | .allocParam r _ => Generate.violated (.lateSlot r c.label)
  | .allocLocal r _ => Generate.violated (.lateSlot r c.label)
  | .moveInt r value => do
    return [.mov (.register (← Generate.register c r)) (.immediate value.toInt)]
  | .moveString r string => do
    return [.mov (.register (← Generate.register c r)) (.symbol (stringSymbol string))]
  | .moveFunction r function => do
    let symbol ← Generate.symbol c function
    return [.mov (.register (← Generate.register c r)) symbol]
  | .push r => do
    return [.push (← Generate.register c r)]
  | .pop r => do
    return [.pop (← Generate.register c r)]
  | .load r slot => do
    let slot ← Generate.slot c slot
    return [.mov (.register (← Generate.register c r)) slot]
  | .storeRegister slot r => do
    let slot ← Generate.slot c slot
    return [.mov slot (.register (← Generate.register c r))]
  | .storeImmediate slot value => do
    let slot ← Generate.slot c slot
    return [.mov slot (.immediate value.toInt)]
  | .callRegister r arguments => do
    -- The callee itself may be live: it is read before the call changes registers.
    Generate.nothingLive c (some r)
    let callee ← Generate.register c r
    return .call (.register callee) :: finishCall arguments
  | .callImmediate function arguments => do
    Generate.nothingLive c none
    let symbol ← Generate.symbol c function
    return .call symbol :: finishCall arguments
  | .jump target => return [.jmp (.label target)]
  | .jumpIfNonZero r target => do
    return [.cmp (← Generate.register c r) (.immediate 0), .jne (.label target)]
  | .return => return [.jmp .exit]
  | .binary op destination source => do
    let destination ← Generate.register c destination
    let source ← Generate.register c source
    let saveRax := destination ≠ .rax && (← get).isOccupied .rax
    return binary op destination source saveRax
  | .kill r => do
    modify fun pool => pool.free r
    return []

/-! ## Functions -/

/-- Instructions as lines. -/
def code (instrs : List Instr) : List Line := instrs.map .instr

/-- Which comments go with the instructions. -/
inductive Comments where
  /-- No comments. -/
  | none
  /-- What a terminal shows of the listing of each line. A colour that starts or ends in a coloured
  listing also ends an unfinished control function in a label. -/
  | listing (coloured : Bool)
deriving Repr, DecidableEq, Inhabited

/-- The comment that shows an instruction, if there is to be one. -/
def Comments.lines (comments : Comments) (p : Linear.Program) (i : Linear.Instruction) :
    List Line :=
  match comments with
  | .none => []
  | .listing coloured => [.comment (Text.withoutControls (Text.render coloured (i.listing p)))]

/-- The lines of a line of linear code: its labels, its comment, and its instructions. -/
def lineLines (c : GenerateContext) (comments : Comments) (line : Linear.Line) :
    Generate (List Line) := do
  let instrs ← instruction c line.instruction
  return line.labels.map (fun l => .target (.label l)) ++
    comments.lines c.program line.instruction ++ code instrs

/-- The lines of a list of lines of linear code. -/
def bodyLines (c : GenerateContext) (comments : Comments) : List Linear.Line → Generate (List Line)
  | [] => return []
  | line :: rest => do
    let first ← lineLines c comments line
    return first ++ (← bodyLines c comments rest)

/-- Whether a line declares a slot. -/
def declaresSlot (line : Linear.Line) : Bool := line.instruction.slot?.isSome

/-- The slots declared by the lines at the head of a body. -/
def headSlots (lines : List Linear.Line) : SlotDecls :=
  (lines.takeWhile declaresSlot).foldl (fun decls line =>
    match line.instruction with
    | .allocParam r size => decls.addParam r size
    | .allocLocal r size => decls.addLocal r size
    | _ => decls) {}

/-- Generates the lines of a function with a body. -/
def generateFunction (c : GenerateContext) (comments : Comments) (body : Linear.Body) :
    Generate (List Line) := do
  let result ← Generate.slot c body.result
  let lines ← bodyLines c comments (body.lines.dropWhile declaresSlot)
  return .label c.label :: code (prologue c.layout.frameSize ++ [.jmp (.label body.entry)]) ++
    lines ++ .target .exit :: code (.mov (.register .rax) result :: epilogue)

/-- The lines of a function with a body. -/
def functionLines (p : Linear.Program) (comments : Comments) (label : String) (body : Linear.Body) :
    Except Failure (List Line) :=
  match (generateFunction ⟨p, label, (headSlots body.lines).layout⟩ comments body).run {} with
  | .ok lines _ => .ok lines
  | .error failure _ => .error failure

/-! ## Bridges to foreign code -/

/-- The registers in which foreign code passes the arguments of a function. -/
def argumentRegisters (f : Linear.Function) : Except Failure (List Register) :=
  if f.arity ≤ Register.arguments.length then .ok (Register.arguments.take f.arity)
  else .error (.internal (.tooManyParameters f.label))

/-- The instructions that open the frame of a bridge. -/
def openFrame : List Instr := [.push .rbp, .mov (.register .rbp) (.register .rsp)]

/-- A function that passes its arguments on to a foreign one, with the stack aligned. -/
def foreignBridge (f : Linear.Function) (symbol : String) : Except Failure (List Line) := do
  let registers ← argumentRegisters f
  let pushes := (List.range registers.length).flatMap fun (index : Nat) =>
    [Instr.mov (.register .rax) (.frame (.ofNat ((index + 2) * 8))), .push .rax]
  return .imported symbol :: .label f.label ::
    code (openFrame ++ [.sub .rsp (.immediate 8), .alignStack] ++ pushes ++
      registers.map .pop ++ .call (.symbol symbol) :: epilogue)

/-- A function that foreign code may call, which passes its arguments on to `f`. -/
def exportBridge (f : Linear.Function) (symbol : String) : Except Failure (List Line) := do
  let registers ← argumentRegisters f
  return .exported symbol :: .label symbol ::
    code (openFrame ++ registers.map .push ++ .call (.symbol f.label) :: epilogue)

/-! ## Programs -/

/-- The lines of a string constant: its length in bytes, and the bytes if there are any. -/
def stringLines (id : StringId) (text : String) : List Line :=
  [.indented "align 8", .label (stringSymbol id), .quad (byteLength text.toList)] ++
    if text.isEmpty then [] else [.bytes text]

/-- A routine that divides the two words that were pushed last, and gives `result`. -/
def divisionRoutine (name : String) (result : List Instr) : List Line :=
  .label name :: code ([.push .rdx, .push .rcx, .mov (.register .rax) (.stack 32),
    .mov (.register .rcx) (.stack 24), .cqo, .idiv .rcx] ++ result ++ [.pop .rcx, .pop .rdx, .ret])

/-- The routines that divide and take remainders. -/
def routines : List Line :=
  divisionRoutine divideSymbol [] ++
    divisionRoutine modulusSymbol [.mov (.register .rax) (.register .rdx)]

/-- The lines that a function is called by: its body, or a bridge to foreign code. -/
def ownLines (p : Linear.Program) (comments : Comments) (f : Linear.Function) :
    Except Failure (List Line) :=
  match f.definition with
  | .foreign symbol => foreignBridge f symbol
  | .body body => functionLines p comments f.label body

/-- The lines by which foreign code calls a function. -/
def exportLines (f : Linear.Function) : Except Failure (List Line) :=
  match f.exported with
  | some symbol => exportBridge f symbol
  | none => return []

/-- The lines of a function and of its bridges. -/
def definitionLines (p : Linear.Program) (comments : Comments) (f : Linear.Function) :
    Except Failure (List Line) := do
  let lines ← ownLines p comments f
  return lines ++ (← exportLines f)

/-- The lines of a list of functions. -/
def definitionsLines (p : Linear.Program) (comments : Comments) :
    List Linear.Function → Except Failure (List Line)
  | [] => return []
  | f :: rest => do
    let first ← definitionLines p comments f
    return first ++ (← definitionsLines p comments rest)

/-- The lines of a program. -/
def programLines (p : Linear.Program) (comments : Comments) : Except Failure (List Line) := do
  let functions ← definitionsLines p comments p.functions
  return [.verbatim "bits 64", .verbatim "section .data"] ++
    p.strings.entries.flatMap (fun e => stringLines e.1 e.2) ++
    .verbatim "section .text" :: functions ++ routines

/-- The assembly text of a program. -/
def ofProgram (p : Linear.Program) (comments : Comments) : Except Failure String := do
  return render (← programLines p comments)

end WordLang.Assembly
