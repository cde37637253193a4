import WordLang.Assembly.OfLinear
import WordLang.Flow.Build
import WordLang.Flow.Print
import WordLang.Flow.Simplify
import WordLang.Linear.OfFlow
import WordLang.Linear.Peephole
import WordLang.Tree.Statement

/-!
# Compilation

A source text is read, resolved and checked; its functions become control-flow graphs, linear code
and assembly text. Both kinds of code can be simplified on the way and listed.

## Main definitions

* `Checked`, `Checked.ofSource?`: a program that was read, resolved and checked
* `Checked.graphs`, `Checked.linear`: its control-flow graphs and its linear code
* `CompileOptions`, `compileReport`, `compile`: the whole compilation
-/

namespace WordLang

/-- A program that was read, resolved and checked. -/
structure Checked where
  module : Module
  resolutions : Resolutions
  answers : Answers

/-- Reads, resolves and checks a source text. -/
def Checked.ofSource? (source : List Char) : Except Failure Checked := do
  let module ← Module.ofSource? source
  let resolutions ← module.resolve
  match (Query.checkProgram resolutions module).run {} with
  | .ok _ answers => return { module, resolutions, answers }
  | .error failure _ => throw failure

/-- The graphs of those listed functions that have a body, up to the first failure. -/
def graphsFrom (r : Resolutions) (simplify : Bool) :
    List StmtId → Answers → List Flow.Function × Option Failure
  | [], _ => ([], none)
  | id :: rest, answers =>
    if (r.function? id).any fun decl => decl.body.isSome then
      match (Flow.buildFunction r id).run answers with
      | .error failure _ => ([], some failure)
      | .ok graph answers =>
        let (graphs, failure) := graphsFrom r simplify rest answers
        ((if simplify then graph.simplify else graph) :: graphs, failure)
    else graphsFrom r simplify rest answers

namespace Checked

/-- The graphs of the functions that have a body, up to the first failure; simplified if
`simplify` is set. -/
def graphs (c : Checked) (simplify : Bool) : List Flow.Function × Option Failure :=
  graphsFrom c.resolutions simplify c.resolutions.functions c.answers

/-- The linear code for given graphs; shortened if `optimize` is set. -/
def linearOf (c : Checked) (optimize : Bool) (graphs : List Flow.Function) :
    Except Failure Linear.Program := do
  let program ← Linear.lowerProgram c.module c.resolutions graphs
  return if optimize then program.optimize else program

/-- The linear code of a program. -/
def linear (c : Checked) (simplify optimize : Bool) : Except Failure Linear.Program :=
  match c.graphs simplify with
  | (graphs, none) => c.linearOf optimize graphs
  | (_, some failure) => .error failure

end Checked

/-- What a compilation does besides giving assembly text. -/
structure CompileOptions where
  /-- Whether graphs are simplified and linear code is shortened. -/
  optimize : Bool := true
  comments : Bool := false
  listGraphs : Bool := false
  listLinear : Bool := false
deriving Repr, DecidableEq, Inhabited

/-- The end of a compilation: what was listed, and the assembly text or a failure. -/
structure CompileReport where
  listed : String
  outcome : Except Failure String

/-- Compiles a source text; what is listed before a failure stays. -/
def compileReport (options : CompileOptions) (source : List Char) : CompileReport :=
  match Checked.ofSource? source with
  | .error failure => ⟨"", .error failure⟩
  | .ok checked =>
    let (graphs, failure?) := checked.graphs options.optimize
    let listedGraphs :=
      if options.listGraphs then
        String.join (graphs.map fun g => Text.render false g.listing ++ "\n")
      else ""
    match failure? with
    | some failure => ⟨listedGraphs, .error failure⟩
    | none =>
      match checked.linearOf options.optimize graphs with
      | .error failure => ⟨listedGraphs, .error failure⟩
      | .ok program =>
        let listedLinear :=
          if options.listLinear then Text.render false program.listing ++ "\n" else ""
        let comments := if options.comments then .listing false else .none
        ⟨listedGraphs ++ listedLinear, Assembly.ofProgram program comments⟩

/-- The assembly text of a source text, or a failure. -/
def compile (options : CompileOptions) (source : List Char) : Except Failure String :=
  (compileReport options source).outcome

end WordLang
