import Mathlib.Tactic
import WordLang.Tree.Statement

/-!
# The grammar

The grammar says which sequences of tokens spell a tree. Trees of the grammar are plain: their tags,
lines and spans are blank, so that a tree is determined by the shapes of its tokens.

* types: `type = "*" type | ident`
* expressions: on each of four levels, `level = operand | level op operand`, where the operands of a
  level are the expressions of the next tighter one; then `prefixed = ("!" | "-") prefixed | called`,
  `called = atom | called arguments`, `arguments = "(" [expr {"," expr} [","]] ")"` and
  `atom = ident | int | string | "(" expr ")"`
* functions: `function = {"#" "[" ident [arguments] "]"} "fn" ident "(" [param {"," param} [","]] ")"
  ["->" type] (";" | block)`
* statements: `statement = function | "let" ident [":" type] ["=" expr] ";" | "loop" block |
  "while" expr block | choice | "return" [expr] ";" | "break" ";" | expr ["=" expr] ";"`, with
  `choice = "if" expr block ["else" (choice | block)]`

## Main definitions

* `TypeExpr.plain`, `Expr.plain`, `Stmt.plain`, `Module.plain`: trees without tags, lines and spans
* `Grammar.Types`, `Grammar.Exprs`, `Grammar.Attrs`, `Grammar.Params`, `Grammar.Stmts`: the token
  sequences that spell types, expressions, attributes, parameters and statements

## Main results

* `Grammar.Exprs.starts`, `Grammar.Stmts.starts`: what expressions and statements start with
-/

namespace WordLang

/-! ## Plain trees -/

/-- The tag of the nodes of plain trees. -/
def Tag.blank : Tag := ⟨0, 0⟩

/-- A name without its place. -/
def Ident.bare (name : String) : Ident := ⟨name, ⟨0, 0⟩⟩

/-- A written type without tags and spans. -/
def TypeExpr.plain : TypeExpr → TypeExpr
  | .error _ => .error .blank
  | .void _ => .void .blank
  | .named _ ident => .named .blank (.bare ident.name)
  | .pointer _ target => .pointer .blank target.plain

mutual

/-- An expression without tags and spans. -/
def Expr.plain : Expr → Expr
  | .error _ => .error .blank
  | .name _ ident => .name .blank (.bare ident.name)
  | .int _ value => .int .blank value
  | .string _ text => .string .blank text
  | .call _ callee args => .call .blank callee.plain (Expr.plainList args)
  | .unary _ op operand => .unary .blank op operand.plain
  | .binary _ op lhs rhs => .binary .blank op lhs.plain rhs.plain

/-- Expressions without tags and spans. -/
def Expr.plainList : List Expr → List Expr
  | [] => []
  | e :: rest => e.plain :: Expr.plainList rest

end

/-- A parameter without its line and spans. -/
def Param.plain (p : Param) : Param := ⟨.bare p.ident.name, 0, p.type.plain⟩

/-- An attribute without its line and spans. -/
def Attr.plain (a : Attr) : Attr := ⟨.bare a.ident.name, 0, Expr.plainList a.args⟩

mutual

/-- A statement without tags, lines and spans. -/
def Stmt.plain : Stmt → Stmt
  | .error _ => .error .blank
  | .function _ decl => .function .blank decl.plain
  | .declare _ ident type value =>
    .declare .blank (.bare ident.name) (type.map TypeExpr.plain) (value.map Expr.plain)
  | .loop _ body => .loop .blank body.plain
  | .while _ condition body => .while .blank condition.plain body.plain
  | .choose _ condition truthy falsy =>
    .choose .blank condition.plain truthy.plain (Block.plainOption falsy)
  | .return _ value => .return .blank (value.map Expr.plain)
  | .break _ => .break .blank
  | .assign _ subject value => .assign .blank subject.plain value.plain
  | .eval _ e => .eval .blank e.plain

/-- The declaration of a function without tags, lines and spans. -/
def FnDecl.plain : FnDecl → FnDecl
  | ⟨ident, attrs, params, result, body⟩ =>
    ⟨.bare ident.name, attrs.map Attr.plain, params.map Param.plain, result.plain,
      Block.plainOption body⟩

/-- A block without tags, lines and spans. -/
def Block.plain : Block → Block
  | ⟨_, statements⟩ => ⟨.blank, Stmt.plainList statements⟩

/-- A block that may be absent, without tags, lines and spans. -/
def Block.plainOption : Option Block → Option Block
  | none => none
  | some b => some b.plain

/-- Statements without tags, lines and spans. -/
def Stmt.plainList : List Stmt → List Stmt
  | [] => []
  | s :: rest => s.plain :: Stmt.plainList rest

end

/-- A source text without tags, lines and spans. -/
def Module.plain (m : Module) : Module := ⟨Stmt.plainList m.items⟩

/-! ## Types and expressions -/

namespace Grammar

inductive Types : TypeExpr → List Shape → Prop where
  | named {name : String} : Types (.named .blank (.bare name)) [.identifier name]
  | pointer {target : TypeExpr} {ts : List Shape} : Types target ts →
    Types (.pointer .blank target) (.symbol .star :: ts)

/-- What is spelled where an expression is: the parts of expressions. -/
inductive Phrase where
  | level (level : Level) (e : Expr)
  | prefixed (e : Expr)
  /-- An expression with the argument lists that follow it. -/
  | called (e : Expr)
  /-- A name, a literal or an expression in parentheses. -/
  | atom (e : Expr)
  | arguments (args : List Expr)
  /-- Arguments with commas between them, and maybe one after the last. -/
  | list (args : List Expr)

/-- An operand of the operators of a level. -/
def Phrase.operand (level : Level) (e : Expr) : Phrase :=
  match level.tighter with
  | some tighter => .level tighter e
  | none => .prefixed e

inductive Exprs : Phrase → List Shape → Prop where
  | operand {l : Level} {e : Expr} {ts : List Shape} : Exprs (.operand l e) ts → Exprs (.level l e) ts
  | binary {l : Level} {s : Symbol} {op : BinaryOp} {lhs rhs : Expr} {ts ts' : List Shape} :
    Exprs (.level l lhs) ts → l.op? s = some op → Exprs (.operand l rhs) ts' →
    Exprs (.level l (.binary .blank op lhs rhs)) (ts ++ .symbol s :: ts')
  | unary {s : Symbol} {op : UnaryOp} {e : Expr} {ts : List Shape} :
    UnaryOp.ofSymbol? s = some op → Exprs (.prefixed e) ts →
    Exprs (.prefixed (.unary .blank op e)) (.symbol s :: ts)
  | called {e : Expr} {ts : List Shape} : Exprs (.called e) ts → Exprs (.prefixed e) ts
  | atom {e : Expr} {ts : List Shape} : Exprs (.atom e) ts → Exprs (.called e) ts
  | call {callee : Expr} {args : List Expr} {ts ts' : List Shape} :
    Exprs (.called callee) ts → Exprs (.arguments args) ts' →
    Exprs (.called (.call .blank callee args)) (ts ++ ts')
  | name {name : String} : Exprs (.atom (.name .blank (.bare name))) [.identifier name]
  | int {value : Int64} : Exprs (.atom (.int .blank value)) [.integer value]
  | string {text : String} : Exprs (.atom (.string .blank text)) [.string text]
  | paren {e : Expr} {ts : List Shape} : Exprs (.level .relational e) ts →
    Exprs (.atom e) (.symbol .openParen :: (ts ++ [.symbol .closeParen]))
  | arguments {args : List Expr} {ts : List Shape} : Exprs (.list args) ts →
    Exprs (.arguments args) (.symbol .openParen :: (ts ++ [.symbol .closeParen]))
  | noArgument : Exprs (.list []) []
  | lastArgument {e : Expr} {ts : List Shape} : Exprs (.level .relational e) ts → Exprs (.list [e]) ts
  | moreArguments {e : Expr} {args : List Expr} {ts ts' : List Shape} :
    Exprs (.level .relational e) ts → Exprs (.list args) ts' →
    Exprs (.list (e :: args)) (ts ++ .symbol .comma :: ts')

/-- The tokens that spell an expression. -/
abbrev Expression (e : Expr) (ts : List Shape) : Prop := Exprs (.level .relational e) ts

/-! ## Functions -/

/-- The tokens that spell the arguments of an attribute, which may be absent. -/
inductive AttrArgs : List Expr → List Shape → Prop where
  | absent : AttrArgs [] []
  | present {args : List Expr} {ts : List Shape} : Exprs (.arguments args) ts → AttrArgs args ts

inductive Attrs : List Attr → List Shape → Prop where
  | nil : Attrs [] []
  | cons {name : String} {args : List Expr} {attrs : List Attr} {ts ts' : List Shape} :
    AttrArgs args ts → Attrs attrs ts' →
    Attrs (⟨.bare name, 0, args⟩ :: attrs)
      (.symbol .hash :: .symbol .openBracket :: .identifier name ::
        (ts ++ .symbol .closeBracket :: ts'))

/-- The tokens that spell parameters with commas between them, and maybe one after the last. -/
inductive Params : List Param → List Shape → Prop where
  | nil : Params [] []
  | last {name : String} {type : TypeExpr} {ts : List Shape} : Types type ts →
    Params [⟨.bare name, 0, type⟩] (.identifier name :: .symbol .colon :: ts)
  | more {name : String} {type : TypeExpr} {params : List Param} {ts ts' : List Shape} :
    Types type ts → Params params ts' →
    Params (⟨.bare name, 0, type⟩ :: params)
      (.identifier name :: .symbol .colon :: (ts ++ .symbol .comma :: ts'))

/-- The tokens that spell the result type of a function, which may be absent. -/
inductive Result : TypeExpr → List Shape → Prop where
  | absent : Result (.void .blank) []
  | present {type : TypeExpr} {ts : List Shape} : Types type ts → Result type (.symbol .arrow :: ts)

/-! ## Statements -/

/-- The tokens that spell the type of a cell, which may be absent. -/
inductive CellType : Option TypeExpr → List Shape → Prop where
  | absent : CellType none []
  | present {type : TypeExpr} {ts : List Shape} : Types type ts →
    CellType (some type) (.symbol .colon :: ts)

/-- The tokens that spell the value of a cell, which may be absent. -/
inductive CellValue : Option Expr → List Shape → Prop where
  | absent : CellValue none []
  | present {e : Expr} {ts : List Shape} : Expression e ts → CellValue (some e) (.symbol .equals :: ts)

/-- What is spelled where a statement is: statements and their parts. -/
inductive Clause where
  | statement (s : Stmt)
  | choice (s : Stmt)
  /-- What follows the first block of a choice. -/
  | alternative (b : Option Block)
  | body (b : Option Block)
  | block (b : Block)
  | statements (list : List Stmt)

/-- The tokens that spell a statement or a part of one. -/
inductive Stmts : Clause → List Shape → Prop where
  | function {name : String} {attrs : List Attr} {params : List Param} {result : TypeExpr}
    {body : Option Block} {as ps rs bs : List Shape} :
    Attrs attrs as → Params params ps → Result result rs → Stmts (.body body) bs →
    Stmts (.statement (.function .blank ⟨.bare name, attrs, params, result, body⟩))
      (as ++ .keyword .kwFn :: .identifier name :: .symbol .openParen ::
        (ps ++ .symbol .closeParen :: (rs ++ bs)))
  | declare {name : String} {type : Option TypeExpr} {value : Option Expr} {ts vs : List Shape} :
    CellType type ts → CellValue value vs →
    Stmts (.statement (.declare .blank (.bare name) type value))
      (.keyword .kwLet :: .identifier name :: (ts ++ (vs ++ [.symbol .semicolon])))
  | loop {b : Block} {ts : List Shape} : Stmts (.block b) ts →
    Stmts (.statement (.loop .blank b)) (.keyword .kwLoop :: ts)
  | while {condition : Expr} {b : Block} {cs ts : List Shape} :
    Expression condition cs → Stmts (.block b) ts →
    Stmts (.statement (.while .blank condition b)) (.keyword .kwWhile :: (cs ++ ts))
  | choice {s : Stmt} {ts : List Shape} : Stmts (.choice s) ts → Stmts (.statement s) ts
  | returnNothing : Stmts (.statement (.return .blank none)) [.keyword .kwReturn, .symbol .semicolon]
  | returnValue {e : Expr} {ts : List Shape} : Expression e ts →
    Stmts (.statement (.return .blank (some e)))
      (.keyword .kwReturn :: (ts ++ [.symbol .semicolon]))
  | break : Stmts (.statement (.break .blank)) [.keyword .kwBreak, .symbol .semicolon]
  | assign {subject value : Expr} {ts vs : List Shape} : Expression subject ts → Expression value vs →
    Stmts (.statement (.assign .blank subject value))
      (ts ++ .symbol .equals :: (vs ++ [.symbol .semicolon]))
  | eval {e : Expr} {ts : List Shape} : Expression e ts →
    Stmts (.statement (.eval .blank e)) (ts ++ [.symbol .semicolon])
  | choose {condition : Expr} {truthy : Block} {falsy : Option Block} {cs ts fs : List Shape} :
    Expression condition cs → Stmts (.block truthy) ts → Stmts (.alternative falsy) fs →
    Stmts (.choice (.choose .blank condition truthy falsy)) (.keyword .kwIf :: (cs ++ (ts ++ fs)))
  | noAlternative : Stmts (.alternative none) []
  | otherwise {b : Block} {ts : List Shape} : Stmts (.block b) ts →
    Stmts (.alternative (some b)) (.keyword .kwElse :: ts)
  -- A further choice stands in a block of its own.
  | otherwiseIf {s : Stmt} {ts : List Shape} : Stmts (.choice s) ts →
    Stmts (.alternative (some ⟨.blank, [s]⟩)) (.keyword .kwElse :: ts)
  | noBody : Stmts (.body none) [.symbol .semicolon]
  | body {b : Block} {ts : List Shape} : Stmts (.block b) ts → Stmts (.body (some b)) ts
  | block {list : List Stmt} {ts : List Shape} : Stmts (.statements list) ts →
    Stmts (.block ⟨.blank, list⟩) (.symbol .openBrace :: (ts ++ [.symbol .closeBrace]))
  | nil : Stmts (.statements []) []
  | cons {s : Stmt} {list : List Stmt} {ts ts' : List Shape} :
    Stmts (.statement s) ts → Stmts (.statements list) ts' →
    Stmts (.statements (s :: list)) (ts ++ ts')

/-- The tokens that spell a source text. -/
def Spells (m : Module) (ts : List Shape) : Prop := Stmts (.statements m.items) ts

/-! ## First tokens -/

def StartsExpr : Shape → Prop
  | .identifier _ => True
  | .integer _ => True
  | .string _ => True
  | .symbol s => s = .openParen ∨ (UnaryOp.ofSymbol? s).isSome
  | .keyword _ => False

def Phrase.IsExpr : Phrase → Prop
  | .arguments _ => False
  | .list _ => False
  | _ => True

theorem Phrase.isExpr_operand (l : Level) (e : Expr) : (Phrase.operand l e).IsExpr := by
  cases l <;> exact trivial

/-- An expression has a first token. -/
theorem Exprs.starts {p : Phrase} {ts : List Shape} (h : Exprs p ts) (hp : p.IsExpr) :
    ∃ t rest, ts = t :: rest ∧ StartsExpr t := by
  induction h with
  | operand _ ih => exact ih (Phrase.isExpr_operand _ _)
  | binary _ _ _ ih _ =>
    obtain ⟨t, rest, rfl, ht⟩ := ih trivial
    exact ⟨t, _, rfl, ht⟩
  | unary hop _ _ => exact ⟨_, _, rfl, .inr (by rw [hop]; rfl)⟩
  | called _ ih => exact ih trivial
  | atom _ ih => exact ih trivial
  | call _ _ ih _ =>
    obtain ⟨t, rest, rfl, ht⟩ := ih trivial
    exact ⟨t, _, rfl, ht⟩
  | name => exact ⟨_, _, rfl, trivial⟩
  | int => exact ⟨_, _, rfl, trivial⟩
  | string => exact ⟨_, _, rfl, trivial⟩
  | paren _ _ => exact ⟨_, _, rfl, .inl rfl⟩
  | arguments _ _ => exact hp.elim
  | noArgument => exact hp.elim
  | lastArgument _ _ => exact hp.elim
  | moreArguments _ _ _ _ => exact hp.elim

/-- A token that a statement may start with. -/
def StartsStmt (t : Shape) : Prop := t ≠ .symbol .closeBrace ∧ t ≠ .keyword .kwElse

theorem StartsExpr.startsStmt {t : Shape} (h : StartsExpr t) : StartsStmt t := by
  constructor
  · rintro rfl
    simp [StartsExpr, UnaryOp.ofSymbol?] at h
  · rintro rfl
    exact h

def Clause.IsStmt : Clause → Prop
  | .statement _ => True
  | .choice _ => True
  | _ => False

/-- A statement has a first token. -/
theorem Stmts.starts {c : Clause} {ts : List Shape} (h : Stmts c ts) (hc : c.IsStmt) :
    ∃ t rest, ts = t :: rest ∧ StartsStmt t := by
  have hexpr : ∀ {e : Expr} {ts ts' : List Shape}, Expression e ts →
      ∃ t rest, ts ++ ts' = t :: rest ∧ StartsStmt t := by
    intro e ts ts' he
    obtain ⟨t, rest, rfl, ht⟩ := he.starts trivial
    exact ⟨t, _, rfl, ht.startsStmt⟩
  cases h with
  | function hattrs _ _ _ =>
    cases hattrs with
    | nil => exact ⟨_, _, rfl, by simp [StartsStmt]⟩
    | cons _ _ => exact ⟨_, _, rfl, by simp [StartsStmt]⟩
  | choice h =>
    cases h
    exact ⟨_, _, rfl, by simp [StartsStmt]⟩
  | assign he _ => exact hexpr he
  | eval he => exact hexpr he
  | noAlternative => exact hc.elim
  | otherwise _ => exact hc.elim
  | otherwiseIf _ => exact hc.elim
  | noBody => exact hc.elim
  | body _ => exact hc.elim
  | block _ => exact hc.elim
  | nil => exact hc.elim
  | cons _ _ => exact hc.elim
  | _ => exact ⟨_, _, rfl, by simp [StartsStmt]⟩

end Grammar

end WordLang
