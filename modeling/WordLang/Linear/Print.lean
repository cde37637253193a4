import WordLang.Linear
import WordLang.Text.Paint
import WordLang.Text.Quoted

/-!
# Listings of linear code

A program is listed with its string constants and the lines of its functions. Functions are named
by their labels.
-/

namespace WordLang.Linear

open Text (Fragment paint plain)

/-- The listing of a register. -/
def registerText (r : RegisterId) : String := "%" ++ toString r

/-- The listing of a slot. -/
def slotText (r : RegisterId) : String := "[%" ++ toString r ++ "]"

/-- The listing of a function's name. -/
def Program.functionName (p : Program) (id : FunctionId) : Fragment :=
  paint .blue ((p.functions[id]?.map Function.label).getD ("fn#" ++ toString id))

/-- The listing of a label. -/
def labelName (label : LabelId) : Fragment := paint .brightRed (".L" ++ toString label)

/-- The listing of a word. -/
def wordText (value : Int64) : Fragment := paint .magenta (toString value.toInt)

/-- The listing of an instruction. -/
def Instruction.listing (p : Program) : Instruction → List Fragment
  | .nop => [paint .cyan "nop"]
  | .allocParam r size =>
    [paint .cyan "alloc_param", plain (" " ++ registerText r ++ ", " ++ toString size)]
  | .allocLocal r size =>
    [paint .cyan "alloc_local", plain (" " ++ registerText r ++ ", " ++ toString size)]
  | .moveInt r value =>
    [paint .cyan "mov_int", plain (" " ++ registerText r ++ ", "), wordText value]
  | .moveString r string =>
    [paint .cyan "mov_string", plain (" " ++ registerText r ++ ", "),
      paint .green ("string+" ++ toString string)]
  | .moveFunction r function =>
    [paint .cyan "mov_fn", plain (" " ++ registerText r ++ ", "), p.functionName function]
  | .push r => [paint .cyan "push", plain (" " ++ registerText r)]
  | .pop r => [paint .cyan "pop", plain (" " ++ registerText r)]
  | .load r slot => [paint .cyan "load", plain (" " ++ registerText r ++ ", " ++ slotText slot)]
  | .storeRegister slot r =>
    [paint .cyan "store_reg", plain (" " ++ slotText slot ++ ", " ++ registerText r)]
  | .storeImmediate slot value =>
    [paint .cyan "store_imm", plain (" " ++ slotText slot ++ ", "), wordText value]
  | .callRegister r arguments =>
    [paint .cyan "call_reg", plain (" " ++ registerText r ++ ", " ++ toString arguments)]
  | .callImmediate function arguments =>
    [paint .cyan "call_imm", plain " ", p.functionName function,
      plain (", " ++ toString arguments)]
  | .jump target => [paint .cyan "jmp", plain " ", labelName target]
  | .jumpIfNonZero r target =>
    [paint .cyan "jnz_reg", plain (" " ++ registerText r ++ ", "), labelName target]
  | .return => [paint .cyan "ret"]
  | .binary op destination source =>
    [paint .cyan op.name, plain (" " ++ registerText destination ++ ", " ++ registerText source)]
  | .kill r => [paint .white "kill", plain (" " ++ registerText r)]

/-- The listing of a line: its labels, each on a line of its own, and its instruction. -/
def Line.listing (p : Program) (line : Line) : List Fragment :=
  line.labels.flatMap (fun label =>
    [paint .brightRed (".L" ++ toString label ++ ":"), plain "\n"]) ++
    plain "    " :: line.instruction.listing p ++ [plain "\n"]

/-- The listing of a function. -/
def Function.listing (p : Program) (f : Function) : List Fragment :=
  let exported :=
    match f.exported with
    | some symbol => [plain " ", paint .brightBlack ("// exported as " ++ symbol)]
    | none => []
  let definition :=
    match f.definition with
    | .foreign symbol =>
      [plain "    ", paint .cyan "extern", plain " ", paint .blue symbol, plain ", ",
        paint .magenta (toString f.arity), plain "\n"]
    | .body body => body.lines.flatMap (Line.listing p)
  paint .blue (f.label ++ ":") :: exported ++ plain "\n" :: definition

/-- The listing of a program. -/
def Program.listing (p : Program) : List Fragment :=
  p.strings.entries.flatMap (fun e =>
    [paint .brightRed ("string+" ++ toString e.1 ++ ":"), plain " ",
      paint .green (Text.quoted e.2), plain "\n"]) ++
    p.functions.flatMap (Function.listing p)

end WordLang.Linear
