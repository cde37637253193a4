import WordLang.Tree.Expression
import WordLang.Failure

/-!
# Parsing statements

A statement that cannot be read is reported and skipped, and parsing goes on after it. A source
text is read if nothing is wrong with its elements and its tokens.

## Main definitions

* `Parse.statement`, `Parse.items`: a statement, and all statements of a source text
* `Module.ofSource?`: the tree of a source text, or its problems in order of their lines
-/

namespace WordLang

namespace Parse

/-- Attributes, as many as there are. -/
def attributesWithin : Nat → Parse (List Attr)
  | 0 => unexpected .functionAfterAttributes
  | n + 1 => do
    let line ← peekLine
    if ← eatSymbol .hash then
      let _ ← expectSymbol .openBracket
      let ident ← expectIdent
      let args ← if ← atSymbol .openParen then callArguments else pure []
      let _ ← expectSymbol .closeBracket
      return ⟨ident, line, args⟩ :: (← attributesWithin n)
    else
      return []

/-- Attributes, as many as there are. -/
def attributes : Parse (List Attr) := do
  attributesWithin (nesting (← get))

/-- Parameters up to a closing parenthesis, or up to one that no comma follows. -/
def paramsWithin : Nat → Parse (List Param)
  | 0 => unexpected .identifier
  | n + 1 => do
    if ← atSymbol .closeParen then
      return []
    else
      let line ← peekLine
      let ident ← expectIdent
      let _ ← expectSymbol .colon
      let param : Param := ⟨ident, line, ← type⟩
      if ← eatSymbol .comma then
        return param :: (← paramsWithin n)
      else
        return [param]

/-- The parameters of a function in parentheses. -/
def params : Parse (List Param) := do
  let _ ← expectSymbol .openParen
  let params ← paramsWithin (nesting (← get))
  let _ ← expectSymbol .closeParen
  return params

/-- The result type of a function whose declaration starts on `line`. -/
def resultType (line : Nat) : Parse TypeExpr := do
  if ← eatSymbol .arrow then type else return .void (← freshType line)

/-- The declaration of a storage cell, without its tag. -/
def declaration : Parse (Tag → Stmt) := do
  let _ ← expectKeyword .kwLet
  let ident ← expectIdent
  let type ← if ← eatSymbol .colon then some <$> type else pure none
  let value ← if ← eatSymbol .equals then some <$> expression else pure none
  let _ ← expectSymbol .semicolon
  return fun tag => .declare tag ident type value

/-- A `return` statement, without its tag. -/
def returnStatement : Parse (Tag → Stmt) := do
  let _ ← expectKeyword .kwReturn
  let value ← if ← atSymbol .semicolon then pure none else some <$> expression
  let _ ← expectSymbol .semicolon
  return fun tag => .return tag value

/-- A `break` statement, without its tag. -/
def breakStatement : Parse (Tag → Stmt) := do
  let _ ← expectKeyword .kwBreak
  let _ ← expectSymbol .semicolon
  return fun tag => .break tag

/-- An assignment or an expression, without its tag. -/
def simpleStatement : Parse (Tag → Stmt) := do
  let subject ← expression
  if ← eatSymbol .equals then
    let value ← expression
    let _ ← expectSymbol .semicolon
    return fun tag => .assign tag subject value
  else
    let _ ← expectSymbol .semicolon
    return fun tag => .eval tag subject

mutual

/-- A block in braces. -/
def blockWithin : Nat → Parse Block
  | 0 => unexpected .statement
  | n + 1 => do
    let line ← expectSymbol .openBrace
    let statements ← statementsWithin n
    let _ ← expectSymbol .closeBrace
    return ⟨← freshBlock line, statements⟩

/-- Statements up to a closing brace or the end of the text. -/
def statementsWithin : Nat → Parse (List Stmt)
  | 0 => unexpected .statement
  | n + 1 => do
    match ← peek with
    | none => return []
    | some (.symbol .closeBrace) => return []
    | some _ =>
      let statement ← statementWithin n
      return statement :: (← statementsWithin n)

/-- A statement; if it cannot be read, the problem is noted and the statement skipped. -/
def statementWithin : Nat → Parse Stmt
  | 0 => unexpected .statement
  | n + 1 => do
    let line ← peekLine
    try
      let statement ← untaggedWithin n
      return statement (← freshStmt line)
    catch problem =>
      report problem
      synchronize
      return .error (← freshStmt line)

/-- A statement, without its tag. -/
def untaggedWithin : Nat → Parse (Tag → Stmt)
  | 0 => unexpected .statement
  | n + 1 => do
    match ← peek with
    | none => unexpected .statement
    | some (.symbol .hash) => functionWithin n
    | some (.keyword .kwFn) => functionWithin n
    | some (.keyword .kwLet) => declaration
    | some (.keyword .kwLoop) =>
      advance
      let body ← blockWithin n
      return fun tag => .loop tag body
    | some (.keyword .kwWhile) =>
      advance
      let condition ← expression
      let body ← blockWithin n
      return fun tag => .while tag condition body
    | some (.keyword .kwIf) => choiceWithin n
    | some (.keyword .kwReturn) => returnStatement
    | some (.keyword .kwBreak) => breakStatement
    | some _ => simpleStatement

/-- A function with its attributes, without its tag. -/
def functionWithin : Nat → Parse (Tag → Stmt)
  | 0 => unexpected .statement
  | n + 1 => do
    let attrs ← attributes
    if ← atKeyword .kwFn then
      let line ← expectKeyword .kwFn
      let ident ← expectIdent
      let params ← params
      let result ← resultType line
      let body ← if ← eatSymbol .semicolon then pure none else some <$> blockWithin n
      return fun tag => .function tag ⟨ident, attrs, params, result, body⟩
    else
      unexpected .functionAfterAttributes

/-- A choice, without its tag. -/
def choiceWithin : Nat → Parse (Tag → Stmt)
  | 0 => unexpected .statement
  | n + 1 => do
    let _ ← expectKeyword .kwIf
    let condition ← expression
    let truthy ← blockWithin n
    let falsy ← alternativeWithin n
    return fun tag => .choose tag condition truthy falsy

/-- What follows the first block of a choice: nothing, a block, or a further choice. -/
def alternativeWithin : Nat → Parse (Option Block)
  | 0 => unexpected .statement
  | n + 1 => do
    if ← eatKeyword .kwElse then
      if ← atKeyword .kwIf then
        -- The further choice is stored as a block of its own with one statement.
        let line ← peekLine
        let nested ← choiceWithin n
        let tag ← freshBlock line
        return some ⟨tag, [nested (← freshStmt line)]⟩
      else
        some <$> blockWithin n
    else
      return none

end

/-- A statement. -/
def statement : Parse Stmt := do
  statementWithin (nesting (← get))

/-- Statements up to the end of the text; closing braces between them are reported. -/
def itemsWithin : Nat → Parse (List Stmt)
  | 0 => unexpected .statement
  | n + 1 => do
    match ← peek with
    | none => return []
    | some (.symbol .closeBrace) =>
      report (ParseProblem.strayBrace.onLine (← peekLine))
      advance
      itemsWithin n
    | some _ =>
      let item ← statement
      return item :: (← itemsWithin n)

/-- All statements of a source text. -/
def items : Parse (List Stmt) := do
  itemsWithin (nesting (← get))

end Parse

/-- The tree of a source text, or its problems in order of their lines. -/
def Module.ofSource? (source : List Char) : Except Failure Module :=
  let scanned := scan source
  match Parse.items.run { tokens := scanned.tokens, lastLine := scanned.lastLine } with
  | .ok items state =>
    match Diagnostic.sortByLine (scanned.diagnostics ++ state.problems) with
    | [] => .ok ⟨items⟩
    | problems => .error (.unreadable problems)
  | .error problem state =>
    .error (.unreadable
      (Diagnostic.sortByLine (scanned.diagnostics ++ state.problems ++ [problem])))

end WordLang
