import WordLang.Typing

/-!
# Checking a program

A program is checked function by function, in the order in which resolution lists them, up to the
first problem.

## Main definitions

* `Query.checkFunction`, `Query.checkProgram`: checking a function, and a whole program
-/

namespace WordLang

namespace Query

/-- Requires that an expression can be a condition. -/
def checkCondition (r : Resolutions) (condition : Expr) : Query Unit := do
  let ty ← ofExpr r condition
  fits (.condition ty) condition.line ty .int

/-- The type of what is assigned to: a parameter or a storage cell. -/
def ofSubject (r : Resolutions) (subject : Expr) : Query Ty :=
  match subject with
  | .name tag ident =>
    match r.bindings.find? tag.id with
    | some (.function _) => fail (.assignToFunction ident.name) tag.line
    | some _ => ofExpr r subject
    | none => violated (.unresolvedName ident.name)
  | _ => fail .notAssignable subject.line

section

variable (r : Resolutions) (result : Ty)

mutual

/-- Checks a statement of a function with the given result type. Functions within it are checked
on their own. -/
def checkStatement : Stmt → Query Unit
  | .function _ _ => pure ()
  | .error _ => pure ()
  | .break _ => pure ()
  | .declare tag _ _ _ => do
    let _ ← ofCell r tag.id
  | .loop _ body => checkBlock body
  | .while _ condition body => do
    checkCondition r condition
    checkBlock body
  | .choose _ condition truthy falsy => do
    checkCondition r condition
    checkBlock truthy
    checkOptionalBlock falsy
  | .return tag (some value) => do
    let ty ← ofExpr r value
    fits (.mismatch ty result) tag.line ty result
  | .return tag none =>
    match result with
    | .void => pure ()
    | .error => pure ()
    | _ => fail (.missingValue result) tag.line
  | .assign tag subject value => do
    let target ← ofSubject r subject
    let ty ← ofExpr r value
    fits (.mismatch ty target) tag.line ty target
  | .eval _ expr => do
    let _ ← ofExpr r expr

/-- Checks a block. -/
def checkBlock : Block → Query Unit
  | ⟨_, statements⟩ => checkStatements statements

/-- Checks a block that may be absent. -/
def checkOptionalBlock : Option Block → Query Unit
  | none => pure ()
  | some block => checkBlock block

/-- Checks a list of statements. -/
def checkStatements : List Stmt → Query Unit
  | [] => pure ()
  | s :: rest => do
    checkStatement s
    checkStatements rest

end

end

/-- Requires that no parameter is void. -/
def checkParams : List Param → List Ty → Query Unit
  | param :: params, ty :: types => do
    if ty.same .void then
      fail (.voidParameter param.ident.name) param.line
    checkParams params types
  | _, _ => pure ()

/-- Requires that a function has a body or is foreign, and that foreign code can pass its
arguments. -/
def checkLinkage (tag : Tag) (decl : FnDecl) : Query Unit := do
  match decl.linkage with
  | .error failure => throw failure
  | .ok linkage =>
    match decl.body, linkage.foreign with
    | none, none => fail (.noBody decl.ident.name) tag.line
    | some _, some _ => fail (.foreignBody decl.ident.name) tag.line
    | _, _ => pure ()
    if (linkage.foreign.isSome || linkage.exported.isSome) &&
        decl.params.length > maxForeignParams then
      fail (.tooManyParameters linkage.foreign.isSome) tag.line

/-- Checks a function. -/
def checkFunction (r : Resolutions) (tag : Tag) (decl : FnDecl) : Query Unit := do
  checkLinkage tag decl
  match ← ofFunction r tag.id with
  | .function _ params result =>
    checkParams decl.params params
    checkOptionalBlock r result decl.body
  | _ => violated .noFunctionType

/-- Checks listed functions. -/
def checkFunctions (r : Resolutions) : List StmtId → Query Unit
  | [] => pure ()
  | id :: rest => do
    match r.declarations.find? id with
    | none => violated (.unrecorded id)
    | some (.function tag decl) => checkFunction r tag decl
    | some _ => pure ()
    checkFunctions r rest

/-- Requires that every statement outside blocks declares a function. -/
def checkItems : List Stmt → Query Unit
  | [] => pure ()
  | .function _ _ :: rest => checkItems rest
  | item :: _ => fail .notFunctionItem item.line

/-- Checks a program. -/
def checkProgram (r : Resolutions) (m : Module) : Query Unit := do
  checkItems m.items
  checkFunctions r r.functions

end Query

end WordLang
