import WordLang.Id

/-!
# Types

Types are words, texts, pointers and functions, and the empty type. A function type is nominal:
it belongs to one declaration, whatever its signature. Two further types stand for a type that is
not known: one for an earlier problem, and one for a type that is being inferred.

## Main definitions

* `Ty`, `Ty.render`: types and their texts
* `Ty.same`: equality, with function types compared by declaration
* `Ty.assignable`, `Ty.fit`: whether a value of one type fits where another is needed
-/

namespace WordLang

/-- The types of the language. -/
inductive Ty where
  /-- The type of what has a problem already; it fits everywhere. -/
  | error
  /-- A type that is being inferred. -/
  | unknown
  /-- The type without values. -/
  | void
  /-- Machine words. -/
  | int
  /-- Texts. -/
  | str
  | pointer (target : Ty)
  | function (decl : StmtId) (params : List Ty) (result : Ty)
deriving Repr, Inhabited

namespace Ty

mutual

/-- The text of a type. -/
def render : Ty → String
  | .error => "<error>"
  | .unknown => "<unknown>"
  | .void => "void"
  | .int => "int"
  | .str => "str"
  | .pointer target => "*" ++ target.render
  | .function _ params result =>
    "fn(" ++ ", ".intercalate (renderAll params) ++ ") -> " ++ result.render

/-- The texts of a list of types. -/
def renderAll : List Ty → List String
  | [] => []
  | t :: rest => t.render :: renderAll rest

end

/-- Whether two types are equal; function types are if they belong to one declaration. -/
def same : Ty → Ty → Bool
  | .error, .error => true
  | .unknown, .unknown => true
  | .void, .void => true
  | .int, .int => true
  | .str, .str => true
  | .pointer s, .pointer t => same s t
  | .function d _ _, .function e _ _ => d = e
  | _, _ => false

/-- Whether a type is a function type. -/
def isFunction : Ty → Bool
  | .function _ _ _ => true
  | _ => false

/-- Whether a value of the first type fits where the second is needed. -/
def assignable : Ty → Ty → Bool
  | .error, _ => true
  | _, .error => true
  | .int, .int => true
  | .str, .str => true
  | .void, .void => true
  | .pointer s, .pointer t => assignable s t
  | .function d _ _, .function e _ _ => d = e
  | _, _ => false

/-- The report of two types that do not fit. -/
def mismatch (source target : Ty) : String :=
  "type `" ++ source.render ++ "` is not assignable to `" ++ target.render ++ "`"

/-- The type of a value of type `source` where `target` is needed, or a report. -/
def fit (source target : Ty) : Except String Ty :=
  if source.assignable target then .ok source else .error (mismatch source target)

/-- The type of a name that stands for a type. -/
def ofName? (name : String) : Option Ty :=
  if name = "int" then some .int
  else if name = "str" then some .str
  else if name = "void" then some .void
  else none

end Ty

end WordLang
