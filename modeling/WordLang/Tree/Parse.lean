import WordLang.Tree
import WordLang.Token.Scan

/-!
# Parsing steps

Parsing consumes tokens, names nodes from four supplies of identifiers and collects problems. A
parsing step either gives a result or stops with a problem; either way the tokens it consumed
stay consumed.

## Main definitions

* `ParseProblem`: what can be wrong with a sequence of tokens
* `ParseState`, `Parse`: the state of parsing, and parsing steps
* `Parse.expectSymbol`, `Parse.expectKeyword`, `Parse.expectIdent`: steps for one token
* `Parse.synchronize`: the way on after a problem
-/

namespace WordLang

/-- What a parsing step needs next. -/
inductive Expected where
  | keyword (keyword : Keyword)
  | symbol (symbol : Symbol)
  | identifier
  | statement
  | expression
  | type
  | functionAfterAttributes
deriving Repr, DecidableEq

/-- How problem reports name what is needed. -/
def Expected.describe : Expected → String
  | .keyword k => (Shape.keyword k).describe
  | .symbol s => (Shape.symbol s).describe
  | .identifier => "identifier"
  | .statement => "statement"
  | .expression => "expression"
  | .type => "type"
  | .functionAfterAttributes => "`fn` after attributes"

/-- What can be wrong with a sequence of tokens. -/
inductive ParseProblem where
  /-- The next token, or the end of the text, is not what is needed. -/
  | unexpected (expected : Expected) (found : Option Shape)
  | strayBrace
deriving Repr, DecidableEq

/-- The report of a problem. -/
def ParseProblem.message : ParseProblem → String
  | .unexpected expected found =>
    "expected " ++ expected.describe ++ " but found " ++
      (found.map Shape.describe).getD "end of file"
  | .strayBrace => "unexpected `\x7d`"

/-- The diagnostic for a problem on a line. -/
def ParseProblem.onLine (problem : ParseProblem) (line : Nat) : Diagnostic :=
  ⟨.parser, line, problem.message⟩

/-- The state of parsing. -/
structure ParseState where
  tokens : List Token
  lastLine : Nat
  stmtIds : Supply := {}
  exprIds : Supply := {}
  typeIds : Supply := {}
  blockIds : Supply := {}
  problems : List Diagnostic := []

/-- A parsing step: it gives a result or stops with a problem. -/
abbrev Parse := EStateM Diagnostic ParseState

namespace Parse

/-- What the next token is. -/
def peek : Parse (Option Shape) := do
  return (← get).tokens.head?.map Token.shape

/-- The line of the next token, or the last line of the text. -/
def peekLine : Parse Nat := do
  let s ← get
  return (s.tokens.head?.map Token.line).getD s.lastLine

/-- Consumes the next token. -/
def advance : Parse Unit := modify fun s => { s with tokens := s.tokens.tail }

/-- Stops because the next token is not what is needed. -/
def unexpected {α : Type} (expected : Expected) : Parse α := do
  let problem := ParseProblem.unexpected expected (← peek)
  throw (problem.onLine (← peekLine))

/-- Whether the next token is the symbol `s`. -/
def atSymbol (s : Symbol) : Parse Bool := do
  return (← peek) = some (.symbol s)

/-- Whether the next token is the keyword `k`. -/
def atKeyword (k : Keyword) : Parse Bool := do
  return (← peek) = some (.keyword k)

/-- Consumes the next token if it is the symbol `s`; tells whether it was. -/
def eatSymbol (s : Symbol) : Parse Bool := do
  if ← atSymbol s then
    advance
    return true
  else
    return false

/-- Consumes the next token if it is the keyword `k`; tells whether it was. -/
def eatKeyword (k : Keyword) : Parse Bool := do
  if ← atKeyword k then
    advance
    return true
  else
    return false

/-- Consumes the symbol `s`; gives its line. -/
def expectSymbol (s : Symbol) : Parse Nat := do
  let line ← peekLine
  if ← eatSymbol s then return line else unexpected (.symbol s)

/-- Consumes the keyword `k`; gives its line. -/
def expectKeyword (k : Keyword) : Parse Nat := do
  let line ← peekLine
  if ← eatKeyword k then return line else unexpected (.keyword k)

/-- Consumes an identifier. -/
def expectIdent : Parse Ident := do
  match (← get).tokens with
  | ⟨.identifier name, span, _⟩ :: _ =>
    advance
    return ⟨name, span⟩
  | _ => unexpected .identifier

/-- An unused identifier for a statement that starts on `line`. -/
def freshStmt (line : Nat) : Parse Tag :=
  modifyGet fun s => (⟨s.stmtIds.next, line⟩, { s with stmtIds := s.stmtIds.take.2 })

/-- An unused identifier for an expression that starts on `line`. -/
def freshExpr (line : Nat) : Parse Tag :=
  modifyGet fun s => (⟨s.exprIds.next, line⟩, { s with exprIds := s.exprIds.take.2 })

/-- An unused identifier for a written type that starts on `line`. -/
def freshType (line : Nat) : Parse Tag :=
  modifyGet fun s => (⟨s.typeIds.next, line⟩, { s with typeIds := s.typeIds.take.2 })

/-- An unused identifier for a block that starts on `line`. -/
def freshBlock (line : Nat) : Parse Tag :=
  modifyGet fun s => (⟨s.blockIds.next, line⟩, { s with blockIds := s.blockIds.take.2 })

/-- Notes a problem. -/
def report (problem : Diagnostic) : Parse Unit :=
  modify fun s => { s with problems := s.problems ++ [problem] }

/-- The tokens after the statement that the tokens are in, `depth` braces deep: those after the
next semicolon outside the braces opened since, or those from the brace that closes the block
around the statement. -/
def afterStatement (depth : Nat) : List Token → List Token
  | [] => []
  | token :: rest =>
    match token.shape with
    | .symbol .semicolon => if depth = 0 then rest else afterStatement depth rest
    | .symbol .closeBrace =>
      if depth = 0 then token :: rest else afterStatement (depth - 1) rest
    | .symbol .openBrace => afterStatement (depth + 1) rest
    | _ => afterStatement depth rest

/-- Skips the rest of the statement that the tokens are in. -/
def synchronize : Parse Unit := modify fun s => { s with tokens := afterStatement 0 s.tokens }

end Parse

end WordLang
