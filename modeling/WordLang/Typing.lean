import WordLang.Linkage
import WordLang.Scope.Resolution
import WordLang.Ty

/-!
# Type queries

The types of expressions, functions, storage cells and written types are found on demand, and
every answer is kept. While the type of a storage cell is being found it is kept as unknown, so a
cell whose type depends on itself has none.

## Main definitions

* `TypeProblem`: what can be wrong with types
* `Answers`, `Query`: the answers kept so far, and questions that keep their answers
* `Query.ofWritten`, `Query.ofFunction`, `Query.ofParam`, `Query.ofCell`, `Query.ofExpr`: the
  questions
-/

namespace WordLang

/-- What can be wrong with types. -/
inductive TypeProblem where
  | notFunctionItem
  | noBody (name : String)
  | foreignBody (name : String)
  | tooManyParameters (foreign : Bool)
  | voidParameter (name : String)
  | condition (type : Ty)
  | mismatch (source target : Ty)
  | missingValue (type : Ty)
  | notAssignable
  | assignToFunction (name : String)
  | unknownType (name : String)
  | notInferred
  | voidCell (name : String)
  | notCallable
  | argumentCount (expected got : Nat)
  | argument (source target : Ty)
  | unary (op : UnaryOp) (type : Ty)
  | binary (op : BinaryOp) (lhs rhs : Ty)
deriving Repr

/-- The number of arguments that foreign code passes in registers. -/
def maxForeignParams : Nat := 6

/-- The report of a problem. -/
def TypeProblem.message : TypeProblem → String
  | .notFunctionItem => "only functions are allowed at the top level"
  | .noBody name => "function " ++ quoteName name ++ " has no body"
  | .foreignBody name => "`c_function` declaration " ++ quoteName name ++ " cannot have a body"
  | .tooManyParameters foreign =>
    (if foreign then "`c_function` declarations" else "`c_export` functions") ++
      " take at most " ++ toString maxForeignParams ++ " parameters"
  | .voidParameter name => "parameter " ++ quoteName name ++ " cannot have type `void`"
  | .condition type => "condition must be `int`, found " ++ quoteName type.render
  | .mismatch source target => source.mismatch target
  | .missingValue type => "missing return value of type " ++ quoteName type.render
  | .notAssignable => "cannot assign to this expression"
  | .assignToFunction name => "cannot assign to function " ++ quoteName name
  | .unknownType name => "unknown type " ++ quoteName name
  | .notInferred => "could not infer type"
  | .voidCell name => quoteName name ++ " cannot have type `void`"
  | .notCallable => "call to non-function"
  | .argumentCount expected got =>
    "argument mismatch, expected " ++ toString expected ++ ", got " ++ toString got
  | .argument source target => "argument mismatch, " ++ source.mismatch target
  | .unary op type => "cannot apply " ++ quoteName op.sign ++ " to type " ++ quoteName type.render
  | .binary op lhs rhs =>
    "cannot " ++ quoteName op.name ++ " type " ++ quoteName lhs.render ++ " with " ++
      quoteName rhs.render

/-- The failure for a problem on a line. -/
def TypeProblem.onLine (problem : TypeProblem) (line : Nat) : Failure :=
  .type ⟨.checker, line, problem.message⟩

/-- The answers kept so far. -/
structure Answers where
  exprs : Table Ty := {}
  functions : Table Ty := {}
  /-- The types of storage cells; unknown while they are being found. -/
  cells : Table Ty := {}
  written : Table Ty := {}

/-- A question about types. Answers found on the way to a failure are kept. -/
abbrev Query := EStateM Failure Answers

namespace Query

/-- Fails because of a problem on a line. -/
def fail {α : Type} (problem : TypeProblem) (line : Nat) : Query α := throw (problem.onLine line)

/-- Fails because an invariant is violated. -/
def violated {α : Type} (defect : Defect) : Query α := throw (.internal defect)

/-- Requires that a value of one type fits where another is needed. -/
def fits (problem : TypeProblem) (line : Nat) (source target : Ty) : Query Unit :=
  if source.assignable target then pure () else fail problem line

/-- The type that a written type stands for. -/
def ofWritten : TypeExpr → Query Ty
  | t@(.error _) => kept t (pure .error)
  | t@(.void _) => kept t (pure .void)
  | t@(.named tag ident) => kept t do
    match Ty.ofName? ident.name with
    | some ty => pure ty
    | none => fail (.unknownType ident.name) tag.line
  | t@(.pointer _ target) => kept t do
    return .pointer (← ofWritten target)
where
  /-- The answer for a written type if it is kept, else the given one, which is then kept. -/
  kept (t : TypeExpr) (answer : Query Ty) : Query Ty := do
    match (← get).written.find? t.tag.id with
    | some ty => return ty
    | none =>
      let ty ← answer
      modify fun a => { a with written := a.written.insert t.tag.id ty }
      return ty

/-- The types of a list of parameters. -/
def ofParams : List Param → Query (List Ty)
  | [] => return []
  | param :: rest => do
    let ty ← ofWritten param.type
    return ty :: (← ofParams rest)

/-- The type of a function. -/
def ofFunction (r : Resolutions) (id : StmtId) : Query Ty := do
  match (← get).functions.find? id with
  | some ty => return ty
  | none =>
    match r.function? id with
    | none => violated (.notFunction id)
    | some decl =>
      let params ← ofParams decl.params
      let result ← ofWritten decl.result
      let ty := Ty.function id params result
      modify fun a => { a with functions := a.functions.insert id ty }
      return ty

/-- The type of parameter number `index` of a function. -/
def ofParam (r : Resolutions) (id : StmtId) (index : Nat) : Query Ty := do
  match ← ofFunction r id with
  | .function _ params _ =>
    match params[index]? with
    | some ty => return ty
    | none => violated (.noParameter id index)
  | _ => violated (.noParameter id index)

/-- The answer for an expression if it is kept, else the given one, which is then kept. -/
def keptExpr (id : ExprId) (answer : Query Ty) : Query Ty := do
  match (← get).exprs.find? id with
  | some ty => return ty
  | none =>
    let ty ← answer
    modify fun a => { a with exprs := a.exprs.insert id ty }
    return ty

section

variable (r : Resolutions) (cell : StmtId → Query Ty)

mutual

/-- The type of an expression, where `cell` gives the types of storage cells. -/
def ofExprWith : Expr → Query Ty
  | .error tag => keptExpr tag.id (pure .error)
  | .int tag _ => keptExpr tag.id (pure .int)
  | .string tag _ => keptExpr tag.id (pure (.pointer .str))
  | .name tag ident => keptExpr tag.id do
    match r.bindings.find? tag.id with
    | none => violated (.unresolvedName ident.name)
    | some (.function decl) => ofFunction r decl
    | some (.parameter owner index) => ofParam r owner index
    | some (.local decl) => cell decl
  | .call tag callee args => keptExpr tag.id do
    match ← ofExprWith callee with
    | .function _ params result =>
      if params.length ≠ args.length then
        fail (.argumentCount params.length args.length) tag.line
      argumentsWith tag.line args params
      return result
    | _ => fail .notCallable tag.line
  | .unary tag op operand => keptExpr tag.id do
    let ty ← ofExprWith operand
    fits (.unary op ty) tag.line ty .int
    return .int
  | .binary tag op lhs rhs => keptExpr tag.id do
    let left ← ofExprWith lhs
    let right ← ofExprWith rhs
    fits (.binary op left right) tag.line left .int
    fits (.binary op left right) tag.line right .int
    return .int

/-- Requires that arguments on a line fit parameters of given types. -/
def argumentsWith (line : Nat) : List Expr → List Ty → Query Unit
  | [], _ => pure ()
  | _, [] => pure ()
  | arg :: args, param :: params => do
    let ty ← ofExprWith arg
    fits (.argument ty param) line ty param
    argumentsWith line args params

end

end

/-- The type of a storage cell with a stated type and the type of its first value, if any. -/
def cellType (line : Nat) (stated value : Option Ty) : Query Ty :=
  match stated, value with
  | some stated, some value => do
    fits (.mismatch value stated) line value stated
    return stated
  | some ty, none => return ty
  | none, some ty => return ty
  | none, none => return .unknown

/-- The type of a storage cell, found through at most `n` cells. -/
def ofCellWithin (r : Resolutions) : Nat → StmtId → Query Ty
  | 0, id => violated (.notLet id)
  | n + 1, id => do
    match r.declarations.find? id with
    | none => violated (.notDeclaration id)
    | some statement =>
      match (← get).cells.find? id with
      | some .unknown => fail .notInferred statement.line
      | some ty => return ty
      | none =>
        match statement with
        | .declare tag ident type value =>
          -- Until the type is found, the cell must not be asked for again.
          modify fun a => { a with cells := a.cells.insert id .unknown }
          let stated ← type.mapM ofWritten
          let value ← value.mapM (ofExprWith r (ofCellWithin r n))
          let ty ← cellType tag.line stated value
          match ty with
          | .unknown => fail .notInferred tag.line
          | .void => fail (.voidCell ident.name) tag.line
          | _ =>
            modify fun a => { a with cells := a.cells.insert id ty }
            return ty
        | _ => violated (.notLet id)

/-- The type of a storage cell. A chain of cells whose types are being found has no cell twice,
so it is no longer than the list of declarations. -/
def ofCell (r : Resolutions) (id : StmtId) : Query Ty :=
  ofCellWithin r (r.declarations.size + 1) id

/-- The type of an expression. -/
def ofExpr (r : Resolutions) (e : Expr) : Query Ty := ofExprWith r (ofCell r) e

end Query

end WordLang
