import WordLang.Tree.Parse

/-!
# Parsing types and expressions

Binary operators stand on four levels, all of them left associative. From loose to tight:
relational, equality, additive and multiplicative operators; prefix operators bind tighter, and
calls tighter still.

## Main definitions

* `Level`, `Level.op?`, `Level.tighter`: the levels of binary operators
* `Parse.type`, `Parse.expression`, `Parse.callArguments`: types, expressions and arguments

Parsing steps that call each other take a bound on their nesting. Of ten nested steps at least one
consumes a token, so `Parse.nesting` is a bound that is never reached.
-/

namespace WordLang

/-- The levels of binary operators. -/
inductive Level where
  | relational
  | equality
  | additive
  | multiplicative
deriving Repr, DecidableEq

/-- The operator that a symbol is on a level. -/
def Level.op? : Level → Symbol → Option BinaryOp
  | .relational, .less => some .lt
  | .relational, .lessEquals => some .le
  | .relational, .greater => some .gt
  | .relational, .greaterEquals => some .ge
  | .equality, .doubleEquals => some .eq
  | .equality, .notEquals => some .ne
  | .additive, .plus => some .add
  | .additive, .minus => some .sub
  | .multiplicative, .star => some .mul
  | .multiplicative, .slash => some .div
  | .multiplicative, .percent => some .mod
  | _, _ => none

/-- The next tighter level. -/
def Level.tighter : Level → Option Level
  | .relational => some .equality
  | .equality => some .additive
  | .additive => some .multiplicative
  | .multiplicative => none

/-- The prefix operator that a symbol is. -/
def UnaryOp.ofSymbol? : Symbol → Option UnaryOp
  | .bang => some .not
  | .minus => some .negate
  | _ => none

namespace Parse

/-- A bound on the nesting of parsing steps from a state on. -/
def nesting (s : ParseState) : Nat := 12 * (s.tokens.length + 1)

/-- A type, with nesting bounded by `n`: a pointer type or a name. -/
def typeWithin : Nat → Parse TypeExpr
  | 0 => unexpected .type
  | n + 1 => do
    let line ← peekLine
    match ← peek with
    | some (.symbol .star) =>
      advance
      let target ← typeWithin n
      return .pointer (← freshType line) target
    | some (.identifier _) =>
      let ident ← expectIdent
      return .named (← freshType line) ident
    | _ => unexpected .type

/-- A type. -/
def type : Parse TypeExpr := do
  typeWithin (nesting (← get))

/-- The operator of a level that the next token is. -/
def peekOperator (level : Level) : Parse (Option BinaryOp) := do
  match ← peek with
  | some (.symbol s) => return level.op? s
  | _ => return none

/-- The prefix operator that the next token is. -/
def peekPrefixOperator : Parse (Option UnaryOp) := do
  match ← peek with
  | some (.symbol s) => return UnaryOp.ofSymbol? s
  | _ => return none

mutual

/-- An expression of a level: operands of the next tighter level and operators of this one. -/
def binaryWithin : Nat → Level → Parse Expr
  | 0, _ => unexpected .expression
  | n + 1, level => do
    let lhs ← operandWithin n level
    operatorsWithin n level lhs

/-- An operand of the operators of a level. -/
def operandWithin : Nat → Level → Parse Expr
  | 0, _ => unexpected .expression
  | n + 1, level =>
    match level.tighter with
    | some tighter => binaryWithin n tighter
    | none => prefixWithin n

/-- The operators of a level that follow the operand `lhs`, with their right operands. -/
def operatorsWithin : Nat → Level → Expr → Parse Expr
  | 0, _, _ => unexpected .expression
  | n + 1, level, lhs => do
    match ← peekOperator level with
    | none => return lhs
    | some op =>
      advance
      let rhs ← operandWithin n level
      operatorsWithin n level (.binary (← freshExpr lhs.line) op lhs rhs)

/-- An expression with its prefix operators. -/
def prefixWithin : Nat → Parse Expr
  | 0 => unexpected .expression
  | n + 1 => do
    match ← peekPrefixOperator with
    | some op =>
      let line ← peekLine
      advance
      let operand ← prefixWithin n
      return .unary (← freshExpr line) op operand
    | none =>
      let callee ← atomWithin n
      callsWithin n callee

/-- The argument lists that follow the expression `callee`. -/
def callsWithin : Nat → Expr → Parse Expr
  | 0, _ => unexpected .expression
  | n + 1, callee => do
    if ← atSymbol .openParen then
      let args ← argumentsWithin n
      callsWithin n (.call (← freshExpr callee.line) callee args)
    else
      return callee

/-- A list of arguments in parentheses; a comma may follow the last one. -/
def argumentsWithin : Nat → Parse (List Expr)
  | 0 => unexpected .expression
  | n + 1 => do
    let _ ← expectSymbol .openParen
    let args ← argumentListWithin n
    let _ ← expectSymbol .closeParen
    return args

/-- Arguments up to a closing parenthesis, or up to one that no comma follows. -/
def argumentListWithin : Nat → Parse (List Expr)
  | 0 => unexpected .expression
  | n + 1 => do
    if ← atSymbol .closeParen then
      return []
    else
      let arg ← binaryWithin n .relational
      if ← eatSymbol .comma then
        return arg :: (← argumentListWithin n)
      else
        return [arg]

/-- A name, a literal or an expression in parentheses. -/
def atomWithin : Nat → Parse Expr
  | 0 => unexpected .expression
  | n + 1 => do
    let line ← peekLine
    match ← peek with
    | some (.identifier _) =>
      let ident ← expectIdent
      return .name (← freshExpr line) ident
    | some (.integer value) =>
      advance
      return .int (← freshExpr line) value
    | some (.string text) =>
      advance
      return .string (← freshExpr line) text
    | some (.symbol .openParen) =>
      advance
      let expr ← binaryWithin n .relational
      let _ ← expectSymbol .closeParen
      return expr
    | _ => unexpected .expression

end

/-- An expression. -/
def expression : Parse Expr := do
  binaryWithin (nesting (← get)) .relational

/-- A list of arguments in parentheses. -/
def callArguments : Parse (List Expr) := do
  argumentsWithin (nesting (← get))

end Parse

end WordLang
