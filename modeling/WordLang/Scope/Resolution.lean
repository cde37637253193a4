import WordLang.Failure
import WordLang.Scope
import WordLang.Table
import WordLang.Tree

/-!
# Name resolution

Resolution finds what each name refers to and which loop each `break` ends. The functions of a
list of statements are visible throughout the list; their bodies are resolved after the
statements of the list, in a scope in which every one of them is visible again.

## Main definitions

* `ResolveProblem`: what can be wrong with names
* `Resolutions`: bindings, loops, declarations and functions of a module
* `Module.resolve`: the resolution of a module
-/

namespace WordLang

/-- What can be wrong with names. -/
inductive ResolveProblem where
  | redefinition (name : String)
  | duplicateParameter (name : String)
  | undefined (name : String)
  | breakOutsideLoop
deriving Repr, DecidableEq

/-- The report of a problem. -/
def ResolveProblem.message : ResolveProblem → String
  | .redefinition name => "redefinition of function " ++ quoteName name
  | .duplicateParameter name => "duplicate parameter " ++ quoteName name
  | .undefined name => "undefined identifier " ++ quoteName name
  | .breakOutsideLoop => "`break` outside of a loop"

/-- The failure for a problem on a line. -/
def ResolveProblem.onLine (problem : ResolveProblem) (line : Nat) : Failure :=
  .resolve ⟨.resolver, line, problem.message⟩

/-- What resolution finds out about a module. -/
structure Resolutions where
  bindings : Table Binding := {}
  breakTargets : Table StmtId := {}
  declarations : Table Stmt := {}
  /-- The functions: those outside blocks first, others as the bodies around them are visited. -/
  functions : List StmtId := []

/-- The declaration of a function. -/
def Resolutions.function? (r : Resolutions) (id : StmtId) : Option FnDecl :=
  (r.declarations.find? id).bind Stmt.function?

/-- The state of resolution. -/
structure ResolveState where
  scopes : Scopes := Scopes.initial
  /-- The loops around the place that is resolved, the innermost first. -/
  loops : List StmtId := []
  found : Resolutions := {}

/-- A resolution step. -/
abbrev Resolve := EStateM Failure ResolveState

namespace Resolve

/-- Binds a name in the innermost scope. -/
def bind (name : String) (binding : Binding) : Resolve Unit :=
  modify fun s => { s with scopes := s.scopes.bind name binding }

/-- Notes a declaration. -/
def declare (statement : Stmt) : Resolve Unit :=
  modify fun s =>
    { s with found := { s.found with
        declarations := s.found.declarations.insert statement.id statement } }

/-- Notes what the expression `id` refers to. -/
def refer (id : ExprId) (binding : Binding) : Resolve Unit :=
  modify fun s =>
    { s with found := { s.found with bindings := s.found.bindings.insert id binding } }

/-- Notes the loop that the statement `id` ends. -/
def target (id loop : StmtId) : Resolve Unit :=
  modify fun s =>
    { s with found := { s.found with breakTargets := s.found.breakTargets.insert id loop } }

/-- Opens a scope. -/
def enter (kind : ScopeKind) : Resolve Unit :=
  modify fun s => { s with scopes := s.scopes.enter kind }

/-- Closes the innermost scope. -/
def leave : Resolve Unit := modify fun s => { s with scopes := s.scopes.leave }

/-- Changes the loops around the place that is resolved; gives the loops before. -/
def replaceLoops (change : List StmtId → List StmtId) : Resolve (List StmtId) :=
  modifyGet fun s => (s.loops, { s with loops := change s.loops })

mutual

/-- Resolves the names in an expression; of a call the arguments come first. -/
def expression : Expr → Resolve Unit
  | .name tag ident => do
    match (← get).scopes.find? ident.name with
    | some binding => refer tag.id binding
    | none => throw ((ResolveProblem.undefined ident.name).onLine tag.line)
  | .call _ callee args => do
    expressions args
    expression callee
  | .unary _ _ operand => expression operand
  | .binary _ _ lhs rhs => do
    expression lhs
    expression rhs
  | .int _ _ => pure ()
  | .string _ _ => pure ()
  | .error _ => pure ()

/-- Resolves the names in a list of expressions. -/
def expressions : List Expr → Resolve Unit
  | [] => pure ()
  | e :: rest => do
    expression e
    expressions rest

end

/-- Resolves the names in an expression that may be absent. -/
def optional : Option Expr → Resolve Unit
  | none => pure ()
  | some e => expression e

/-- Binds the functions of a list of statements and lists them. -/
def hoist : List Stmt → Resolve Unit
  | [] => pure ()
  | .function tag decl :: rest => do
    if ((← get).scopes.shallow? decl.ident.name).any Binding.isFunction then
      throw ((ResolveProblem.redefinition decl.ident.name).onLine tag.line)
    bind decl.ident.name (.function tag.id)
    declare (.function tag decl)
    modify fun s =>
      { s with found := { s.found with functions := s.found.functions ++ [tag.id] } }
    hoist rest
  | _ :: rest => hoist rest

/-- Binds the functions of a list of statements again. -/
def rebind : List Stmt → Resolve Unit
  | [] => pure ()
  | .function tag decl :: rest => do
    bind decl.ident.name (.function tag.id)
    rebind rest
  | _ :: rest => rebind rest

/-- Binds the parameters of the function `owner`, the first of them being number `index`. -/
def bindParams (owner : StmtId) (index : Nat) : List Param → Resolve Unit
  | [] => pure ()
  | param :: rest => do
    if ((← get).scopes.shallow? param.ident.name).isSome then
      throw ((ResolveProblem.duplicateParameter param.ident.name).onLine param.line)
    bind param.ident.name (.parameter owner index)
    bindParams owner (index + 1) rest

mutual

/-- Resolves a statement; the bodies of functions come later. -/
def statement : Stmt → Resolve Unit
  | .function _ _ => pure ()
  | .error _ => pure ()
  | .declare tag ident type value => do
    -- The value is outside the scope of the name.
    optional value
    bind ident.name (.local tag.id)
    declare (.declare tag ident type value)
  | .loop tag body => do
    let _ ← replaceLoops (tag.id :: ·)
    block body
    let _ ← replaceLoops List.tail
  | .while tag condition body => do
    expression condition
    let _ ← replaceLoops (tag.id :: ·)
    block body
    let _ ← replaceLoops List.tail
  | .choose _ condition truthy falsy => do
    expression condition
    block truthy
    optionalBlock falsy
  | .return _ value => optional value
  | .break tag => do
    match (← get).loops with
    | loop :: _ => target tag.id loop
    | [] => throw (ResolveProblem.breakOutsideLoop.onLine tag.line)
  | .assign _ subject value => do
    expression value
    expression subject
  | .eval _ expr => expression expr

/-- Resolves a block. -/
def block : Block → Resolve Unit
  | ⟨_, list⟩ => do
    enter .block
    hoist list
    statements list
    -- A declaration in the list may have taken over the name of a function.
    rebind list
    bodies list
    leave

/-- Resolves a block that may be absent. -/
def optionalBlock : Option Block → Resolve Unit
  | none => pure ()
  | some b => block b

/-- Resolves the statements of a list, without the bodies of its functions. -/
def statements : List Stmt → Resolve Unit
  | [] => pure ()
  | s :: rest => do
    statement s
    statements rest

/-- Resolves the bodies of the functions of a list. -/
def bodies : List Stmt → Resolve Unit
  | [] => pure ()
  | s :: rest => do
    body s
    bodies rest

/-- Resolves the body of a function, if the statement declares one that has a body. -/
def body : Stmt → Resolve Unit
  | .function tag ⟨_, _, params, _, some b⟩ => do
    enter .function
    bindParams tag.id 0 params
    -- A `break` in the body cannot end a loop around the function.
    let loops ← replaceLoops fun _ => []
    block b
    let _ ← replaceLoops fun _ => loops
    leave
  | _ => pure ()

end

/-- Resolves all statements of a scope. -/
def scope (list : List Stmt) : Resolve Unit := do
  hoist list
  statements list
  rebind list
  bodies list

end Resolve

/-- What resolution finds out about a module, or the first problem of its names. -/
def Module.resolve (m : Module) : Except Failure Resolutions :=
  match (Resolve.scope m.items).run {} with
  | .ok _ state => .ok state.found
  | .error failure _ => .error failure

end WordLang
