import WordLang.Failure
import WordLang.Tree

/-!
# Linkage

Attributes of a function tie it to foreign code: a function can stand for a foreign one, and it
can be offered to foreign code under a name of its own.

## Main definitions

* `Linkage`: the foreign names of a function
* `FnDecl.linkage`: the linkage that the attributes of a function state
-/

namespace WordLang

/-- What can be wrong with an attribute. -/
inductive AttrProblem where
  | unknown (name : String)
  | duplicate (name : String)
  | notString (name : String)
  | argumentCount (name : String) (count : Nat)
deriving Repr, DecidableEq

/-- The report of a problem. -/
def AttrProblem.message : AttrProblem → String
  | .unknown name => "unknown attribute " ++ quoteName name
  | .duplicate name => "duplicate attribute " ++ quoteName name
  | .notString name => quoteName name ++ " expects a string argument"
  | .argumentCount name count =>
    quoteName name ++ " expects exactly 1 argument, got " ++ toString count

/-- The failure for a problem on a line. -/
def AttrProblem.onLine (problem : AttrProblem) (line : Nat) : Failure :=
  .type ⟨.checker, line, problem.message⟩

/-- The foreign names of a function. -/
structure Linkage where
  foreign : Option String := none
  /-- The name under which foreign code may call the function. -/
  exported : Option String := none
deriving Repr, DecidableEq, Inhabited

/-- The text that is the only argument of an attribute. -/
def Attr.text (attr : Attr) : Except Failure String :=
  match attr.args with
  | [.string _ text] => .ok text
  | [_] => .error ((AttrProblem.notString attr.ident.name).onLine attr.line)
  | args => .error ((AttrProblem.argumentCount attr.ident.name args.length).onLine attr.line)

/-- A linkage with one more attribute. -/
def Linkage.add (linkage : Linkage) (attr : Attr) : Except Failure Linkage :=
  if attr.ident.name = "c_function" then
    if linkage.foreign.isSome then
      .error ((AttrProblem.duplicate attr.ident.name).onLine attr.line)
    else do
      return { linkage with foreign := some (← attr.text) }
  else if attr.ident.name = "c_export" then
    if linkage.exported.isSome then
      .error ((AttrProblem.duplicate attr.ident.name).onLine attr.line)
    else do
      return { linkage with exported := some (← attr.text) }
  else
    .error ((AttrProblem.unknown attr.ident.name).onLine attr.line)

/-- A linkage with further attributes, or the first problem among them. -/
def Linkage.addAll (linkage : Linkage) : List Attr → Except Failure Linkage
  | [] => .ok linkage
  | attr :: rest => do
    let linkage ← linkage.add attr
    linkage.addAll rest

/-- The linkage that the attributes of a function state. -/
def FnDecl.linkage (decl : FnDecl) : Except Failure Linkage := Linkage.addAll {} decl.attrs

end WordLang
