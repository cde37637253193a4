import WordLang.Diagnostic
import WordLang.Scope.Binding

/-!
# Failures

A compilation ends with assembly text or with a failure: problems of the source text, a violated
invariant of a later stage, or a function whose values do not fit in the machine registers.

## Main definitions

* `Defect`, `Defect.message`: the invariants that later stages rely on, and the report of a
  violation
* `Failure`, `Failure.message`, `Failure.diagnostics`: the ways a compilation fails
-/

namespace WordLang

/-- The invariants that later stages rely on, each named by its violation. -/
inductive Defect where
  /-- A listed function has no declaration. -/
  | unrecorded (decl : StmtId)
  | noFunctionType
  | unresolvedName (name : String)
  /-- An expression that is lowered or assigned to has no binding. -/
  | unresolved
  | notFunction (decl : StmtId)
  | noParameter (function : StmtId) (index : Nat)
  | notDeclaration (decl : StmtId)
  | notLet (decl : StmtId)
  | noBody (name : String)
  | missingBlock (block : BlockId)
  /-- A binding has no storage cell. -/
  | noLocal (binding : Binding)
  | errorStatement
  | errorExpression
  /-- A `break` has no block to continue at. -/
  | noLoopExit
  | foreignBody (name : String)
  | noGraph (name : String)
  /-- A jump leads to a block that does not exist. -/
  | missingTarget (block : BlockId)
  | noSlot (cell : LocalId)
  | noFunction (decl : StmtId)
  /-- A block was given up. -/
  | errorTerminator (function : String)
  | unsetTerminator (function : String)
  /-- A function has more parameters than arguments fit in registers. -/
  | tooManyParameters (label : String)
  | notStackSlot (register : RegisterId)
  | unknownFunction (function : FunctionId)
  | liveAcrossCall (registers : List RegisterId) (label : String)
  | lateSlot (register : RegisterId) (label : String)
deriving Repr, DecidableEq

/-- A name in backquotes. -/
def quoteName (name : String) : String := "`" ++ name ++ "`"

/-- The report of a violated invariant. -/
def Defect.message : Defect → String
  | .unrecorded decl => "function " ++ toString decl ++ " was not recorded"
  | .noFunctionType => "function without a function type"
  | .unresolvedName name => "identifier " ++ quoteName name ++ " was not resolved"
  | .unresolved => "identifier was not resolved"
  | .notFunction decl => toString decl ++ " is not a function"
  | .noParameter function index =>
    "no parameter " ++ toString index ++ " in " ++ toString function
  | .notDeclaration decl => toString decl ++ " is not a declaration"
  | .notLet decl => toString decl ++ " is not a let statement"
  | .noBody name => quoteName name ++ " has no body to build"
  | .missingBlock block => "missing block " ++ toString block
  | .noLocal binding => "no local for " ++ binding.describe
  | .errorStatement => "error statement reached lowering"
  | .errorExpression => "error expression reached lowering"
  | .noLoopExit => "`break` without a loop exit"
  | .foreignBody name => "`c_function` " ++ quoteName name ++ " was given a body"
  | .noGraph name => "no MIR for " ++ quoteName name
  | .missingTarget block => "jump to missing block " ++ toString block
  | .noSlot cell => "local _" ++ toString cell ++ " has no slot"
  | .noFunction decl => "no function for declaration " ++ toString decl
  | .errorTerminator function => "invalid terminator `Error` in " ++ quoteName function
  | .unsetTerminator function => "invalid terminator `Unset` in " ++ quoteName function
  | .tooManyParameters label =>
    quoteName label ++ " has more parameters than C argument registers"
  | .notStackSlot register => "%" ++ toString register ++ " is not a stack slot"
  | .unknownFunction function => "call to unknown function " ++ toString function
  | .liveAcrossCall registers label =>
    ", ".intercalate (registers.map fun r => "%" ++ toString r) ++ " live across a call in " ++
      quoteName label
  | .lateSlot register label =>
    "slot %" ++ toString register ++ " declared after the head of " ++ quoteName label

/-- The ways a compilation fails. -/
inductive Failure where
  /-- The source text has problems that reading it found. -/
  | unreadable (problems : List Diagnostic)
  /-- A name does not refer to what the program needs. -/
  | resolve (problem : Diagnostic)
  /-- The program is not well typed. -/
  | type (problem : Diagnostic)
  /-- A later stage met a violated invariant. -/
  | internal (defect : Defect)
  /-- The values of a function do not fit in the machine registers. -/
  | outOfRegisters (function : String)
deriving Repr, DecidableEq

namespace Failure

/-- The text of a failure. -/
def message : Failure → String
  | .unreadable problems => "\n".intercalate (problems.map Diagnostic.render)
  | .resolve problem => problem.render
  | .type problem => problem.render
  | .internal defect => "internal compiler error: " ++ defect.message
  | .outOfRegisters function =>
    "ran out of registers while generating code for " ++ quoteName function

/-- The problems of the source text that a failure reports. -/
def diagnostics : Failure → List Diagnostic
  | .unreadable problems => problems
  | .resolve problem => [problem]
  | .type problem => [problem]
  | .internal _ => []
  | .outOfRegisters _ => []

end Failure

end WordLang
