/-!
# Diagnostics

A diagnostic reports one problem of a source text: the stage that found it, the line it is on
and what is wrong.

## Main definitions

* `Stage`: the stage of a compilation that reports a problem
* `Diagnostic`, `Diagnostic.render`: a problem and its text
-/

namespace WordLang

/-- The stage of a compilation that reports a problem. -/
inductive Stage where
  | lexer
  | parser
  | resolver
  | checker
deriving Repr, DecidableEq, Inhabited

/-- The name of a stage. -/
def Stage.name : Stage → String
  | .lexer => "Lexer"
  | .parser => "Parser"
  | .resolver => "Resolver"
  | .checker => "Checker"

/-- One problem of a source text. -/
structure Diagnostic where
  stage : Stage
  line : Nat
  message : String
deriving Repr, DecidableEq, Inhabited

/-- The text of a diagnostic: stage, problem and line. -/
def Diagnostic.render (d : Diagnostic) : String :=
  d.stage.name ++ ": " ++ d.message ++ " on line " ++ toString d.line

/-- Diagnostics in order of their lines; those of one line keep their order. -/
def Diagnostic.sortByLine (ds : List Diagnostic) : List Diagnostic :=
  ds.mergeSort fun a b => a.line ≤ b.line

end WordLang
