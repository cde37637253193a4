import WordLang.Id
import WordLang.Operator
import WordLang.Token

/-!
# Syntax trees

A source text is a list of statements. Every statement, expression, written type and block has a
tag: an identifier, unique among nodes of its category, and the line it starts on.

## Main definitions

* `Tag`, `Ident`: the tag of a node, and a name at its place
* `TypeExpr`, `Expr`, `Stmt`, `FnDecl`, `Block`: the nodes
* `Expr.all`, `Stmt.all`: the nodes within a node
* `Module`: a source text
-/

namespace WordLang

/-- The identifier of a node and the line it starts on. -/
structure Tag where
  /-- The identifier, unique within a category of nodes. -/
  id : Nat
  line : Nat
deriving Repr, DecidableEq, Inhabited

/-- A name at its place in a source text. -/
structure Ident where
  name : String
  span : Span
deriving Repr, DecidableEq, Inhabited

/-- A written type. -/
inductive TypeExpr where
  /-- A type that could not be read. -/
  | error (tag : Tag)
  /-- The result type of a function that states none. -/
  | void (tag : Tag)
  /-- A type given by its name. -/
  | named (tag : Tag) (ident : Ident)
  | pointer (tag : Tag) (target : TypeExpr)
deriving Repr, DecidableEq, Inhabited

/-- The tag of a written type. -/
def TypeExpr.tag : TypeExpr → Tag
  | .error tag => tag
  | .void tag => tag
  | .named tag _ => tag
  | .pointer tag _ => tag

/-- An expression. -/
inductive Expr where
  /-- An expression that could not be read. -/
  | error (tag : Tag)
  | name (tag : Tag) (ident : Ident)
  /-- An integer literal. -/
  | int (tag : Tag) (value : Int64)
  | string (tag : Tag) (text : String)
  | call (tag : Tag) (callee : Expr) (args : List Expr)
  /-- An operator with one operand. -/
  | unary (tag : Tag) (op : UnaryOp) (operand : Expr)
  /-- An operator with two operands. -/
  | binary (tag : Tag) (op : BinaryOp) (lhs rhs : Expr)
deriving Repr, Inhabited

namespace Expr

/-- The tag of an expression. -/
def tag : Expr → Tag
  | .error tag => tag
  | .name tag _ => tag
  | .int tag _ => tag
  | .string tag _ => tag
  | .call tag _ _ => tag
  | .unary tag _ _ => tag
  | .binary tag _ _ _ => tag

/-- The identifier of an expression. -/
def id (e : Expr) : ExprId := e.tag.id

/-- The line of an expression. -/
def line (e : Expr) : Nat := e.tag.line

mutual

/-- An expression and all expressions within it. -/
def all : Expr → List Expr
  | .call tag callee args => .call tag callee args :: callee.all ++ allOfList args
  | .unary tag op operand => .unary tag op operand :: operand.all
  | .binary tag op lhs rhs => .binary tag op lhs rhs :: lhs.all ++ rhs.all
  | e => [e]

/-- All expressions within a list of expressions. -/
def allOfList : List Expr → List Expr
  | [] => []
  | e :: rest => e.all ++ allOfList rest

end

end Expr

/-- A parameter of a function. -/
structure Param where
  ident : Ident
  line : Nat
  type : TypeExpr
deriving Repr, Inhabited

/-- An attribute of a function. -/
structure Attr where
  ident : Ident
  line : Nat
  args : List Expr
deriving Repr, Inhabited

mutual

/-- A statement. -/
inductive Stmt where
  /-- A statement that could not be read. -/
  | error (tag : Tag)
  | function (tag : Tag) (decl : FnDecl)
  | declare (tag : Tag) (ident : Ident) (type : Option TypeExpr) (value : Option Expr)
  | loop (tag : Tag) (body : Block)
  /-- A loop with a condition. -/
  | while (tag : Tag) (condition : Expr) (body : Block)
  /-- A choice; an `else if` is a block that holds one statement. -/
  | choose (tag : Tag) (condition : Expr) (truthy : Block) (falsy : Option Block)
  /-- The end of an activation. -/
  | return (tag : Tag) (value : Option Expr)
  /-- The end of a loop. -/
  | break (tag : Tag)
  | assign (tag : Tag) (subject value : Expr)
  /-- An expression whose value is dropped. -/
  | eval (tag : Tag) (expr : Expr)

/-- The declaration of a function. -/
structure FnDecl where
  ident : Ident
  attrs : List Attr
  params : List Param
  result : TypeExpr
  body : Option Block

/-- A sequence of statements in braces. -/
structure Block where
  tag : Tag
  statements : List Stmt

end

instance : Inhabited Stmt := ⟨.error default⟩

namespace Stmt

/-- The tag of a statement. -/
def tag : Stmt → Tag
  | .error tag => tag
  | .function tag _ => tag
  | .declare tag _ _ _ => tag
  | .loop tag _ => tag
  | .while tag _ _ => tag
  | .choose tag _ _ _ => tag
  | .return tag _ => tag
  | .break tag => tag
  | .assign tag _ _ => tag
  | .eval tag _ => tag

/-- The identifier of a statement. -/
def id (s : Stmt) : StmtId := s.tag.id

/-- The line of a statement. -/
def line (s : Stmt) : Nat := s.tag.line

/-- The function a statement declares. -/
def function? : Stmt → Option FnDecl
  | .function _ decl => some decl
  | _ => none

mutual

/-- A statement and all statements within it, those of function bodies included. -/
def all : Stmt → List Stmt
  | .function tag decl => .function tag decl :: allOfBody decl
  | .loop tag body => .loop tag body :: allOfBlock body
  | .while tag condition body => .while tag condition body :: allOfBlock body
  | .choose tag condition truthy falsy =>
    .choose tag condition truthy falsy :: allOfBlock truthy ++ allOfOption falsy
  | s => [s]

/-- All statements within the body of a function. -/
def allOfBody : FnDecl → List Stmt
  | ⟨_, _, _, _, body⟩ => allOfOption body

/-- All statements within a block that may be absent. -/
def allOfOption : Option Block → List Stmt
  | none => []
  | some block => allOfBlock block

/-- All statements within a block. -/
def allOfBlock : Block → List Stmt
  | ⟨_, statements⟩ => allOfList statements

/-- All statements within a list of statements. -/
def allOfList : List Stmt → List Stmt
  | [] => []
  | s :: rest => s.all ++ allOfList rest

end

/-- The expressions that a statement itself holds, without those of the statements within it and
without arguments of attributes. -/
def ownExprs : Stmt → List Expr
  | .declare _ _ _ value => value.toList
  | .while _ condition _ => [condition]
  | .choose _ condition _ _ => [condition]
  | .return _ value => value.toList
  | .assign _ subject value => [subject, value]
  | .eval _ expr => [expr]
  | _ => []

end Stmt

/-- A source text as a tree: its statements outside any block. -/
structure Module where
  items : List Stmt

namespace Module

/-- All statements of a module. -/
def statements (m : Module) : List Stmt := Stmt.allOfList m.items

/-- All expressions of a module, without arguments of attributes. -/
def exprs (m : Module) : List Expr :=
  m.statements.flatMap fun s => s.ownExprs.flatMap Expr.all

/-- All expressions of a module, with arguments of attributes. -/
def exprsWithAttrs (m : Module) : List Expr :=
  m.exprs ++ m.statements.flatMap fun s =>
    (s.function?.toList.flatMap FnDecl.attrs).flatMap fun a => Expr.allOfList a.args

/-- A written type and all types within it. -/
def typesWithin : TypeExpr → List TypeExpr
  | .pointer tag target => .pointer tag target :: typesWithin target
  | t => [t]

/-- The written types that a statement itself holds. -/
def ownTypes : Stmt → List TypeExpr
  | .function _ decl => decl.params.map Param.type ++ [decl.result]
  | .declare _ _ type _ => type.toList
  | _ => []

/-- All written types of a module. -/
def types (m : Module) : List TypeExpr :=
  m.statements.flatMap fun s => (ownTypes s).flatMap typesWithin

end Module

end WordLang
