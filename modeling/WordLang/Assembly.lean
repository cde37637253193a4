import WordLang.Assembly.Literal
import WordLang.Assembly.Register
import WordLang.Id

/-!
# Assembly text

Assembly text is a list of lines: directives, labels, data, comments and machine instructions.

## Main definitions

* `Assembly.Operand`, `Assembly.Instr`: machine instructions
* `Assembly.Line`, `Assembly.Line.row`, `Assembly.render`: lines, their rows, and the text
* `Assembly.prologue`, `Assembly.epilogue`: the frame of a function
-/

namespace WordLang.Assembly

/-- What an instruction works on. -/
inductive Operand where
  | register (r : Register)
  /-- A number. -/
  | immediate (value : Int)
  | symbol (name : String)
  | frame (offset : Int64)
  | stack (offset : Nat)
deriving Repr, DecidableEq, Inhabited

/-- The place at an offset from the frame pointer. -/
def frameSlot (offset : Int64) : String :=
  if 0 ≤ offset then "QWORD [rbp+" ++ toString offset.toInt ++ "]"
  else "QWORD [rbp" ++ toString offset.toInt ++ "]"

/-- The text of an operand. -/
def Operand.render : Operand → String
  | .register r => r.name
  | .immediate value => toString value
  | .symbol name => name
  | .frame offset => frameSlot offset
  | .stack offset => "[rsp+" ++ toString offset ++ "]"

/-- How two compared words relate. -/
inductive Condition where
  | less
  | greater
  | lessOrEqual
  | greaterOrEqual
  | equal
  | notEqual
deriving Repr, DecidableEq, Inhabited

/-- The suffix of a condition in the names of instructions. -/
def Condition.suffix : Condition → String
  | .less => "l"
  | .greater => "g"
  | .lessOrEqual => "le"
  | .greaterOrEqual => "ge"
  | .equal => "e"
  | .notEqual => "ne"

/-- A place within a function that jumps lead to. -/
inductive Target where
  | label (id : LabelId)
  /-- The end of the function. -/
  | exit
deriving Repr, DecidableEq, Inhabited

/-- The text of a target. -/
def Target.render : Target → String
  | .label id => ".L" ++ toString id
  | .exit => ".exit"

/-- A machine instruction. -/
inductive Instr where
  | nop
  | mov (destination source : Operand)
  | push (source : Register)
  | pop (destination : Register)
  | add (destination : Register) (source : Operand)
  | sub (destination : Register) (source : Operand)
  | imul (destination source : Register)
  | alignStack
  | cmp (left : Register) (right : Operand)
  | setLowByte (condition : Condition) (destination : Register)
  | extendLowByte (destination : Register)
  | jmp (target : Target)
  | jne (target : Target)
  | call (callee : Operand)
  | ret
  | cqo
  | idiv (divisor : Register)
deriving Repr, DecidableEq, Inhabited

/-- The text of an instruction. -/
def Instr.render : Instr → String
  | .nop => "nop"
  | .mov destination source => "mov " ++ destination.render ++ ", " ++ source.render
  | .push source => "push " ++ source.name
  | .pop destination => "pop " ++ destination.name
  | .add destination source => "add " ++ destination.name ++ ", " ++ source.render
  | .sub destination source => "sub " ++ destination.name ++ ", " ++ source.render
  | .imul destination source => "imul " ++ destination.name ++ ", " ++ source.name
  | .alignStack => "and rsp, 0xFFFFFFFFFFFFFFF0"
  | .cmp left right => "cmp " ++ left.name ++ ", " ++ right.render
  | .setLowByte condition destination =>
    "set" ++ condition.suffix ++ " " ++ destination.lowByteName
  | .extendLowByte destination => "movzx " ++ destination.name ++ ", " ++ destination.lowByteName
  | .jmp target => "jmp " ++ target.render
  | .jne target => "jne " ++ target.render
  | .call callee => "call " ++ callee.render
  | .ret => "ret"
  | .cqo => "cqo"
  | .idiv divisor => "idiv " ++ divisor.name

/-- A line of assembly text. -/
inductive Line where
  /-- Text as it is. -/
  | verbatim (text : String)
  | indented (text : String)
  /-- A symbol that is defined here. -/
  | label (name : String)
  | target (place : Target)
  | comment (text : String)
  /-- A symbol that is defined elsewhere. -/
  | imported (symbol : String)
  /-- A symbol that other code may refer to. -/
  | exported (symbol : String)
  /-- A word of data. -/
  | quad (value : Nat)
  /-- A text as data. -/
  | bytes (text : String)
  | instr (instr : Instr)
deriving Repr, DecidableEq, Inhabited

/-- The row of text that a line is. -/
def Line.row : Line → String
  | .verbatim text => text
  | .indented text => "    " ++ text
  | .label name => name ++ ":"
  | .target place => place.render ++ ":"
  | .comment text => "    ; " ++ text
  | .imported symbol => "extern " ++ symbol
  | .exported symbol => "global " ++ symbol
  | .quad value => "    dq " ++ toString value
  | .bytes text => "    db " ++ String.ofList (literal text.toList)
  | .instr i => "    " ++ i.render

/-- The text of a line: its row, and the end of the row. -/
def Line.render (line : Line) : String := line.row ++ "\n"

/-- The text of a list of lines. -/
def render (lines : List Line) : String := String.join (lines.map Line.render)

/-- Opens a frame with `size` bytes for slots. -/
def prologue (size : Nat) : List Instr :=
  [.push .rbp, .mov (.register .rbp) (.register .rsp)] ++
    if 0 < size then [.sub .rsp (.immediate size)] else []

/-- Closes a frame and goes back to the caller. -/
def epilogue : List Instr := [.mov (.register .rsp) (.register .rbp), .pop .rbp, .ret]

end WordLang.Assembly
