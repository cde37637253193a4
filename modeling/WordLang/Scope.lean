import WordLang.Scope.Binding

/-!
# Scopes

Scopes are nested; the innermost comes first. A name refers to its innermost binding, but beyond
the parameters of a function only functions are visible.

## Main definitions

* `Scope`, `Scopes`: a scope, and the scopes around a place
* `Scopes.bind`, `Scopes.shallow?`, `Scopes.find?`: binding a name, and looking one up
-/

namespace WordLang

/-- The kinds of scope: the whole text, the parameters of a function, the inside of a block. -/
inductive ScopeKind where
  | root
  | function
  | block
deriving Repr, DecidableEq

/-- A scope: its kind and its bindings, the latest first. -/
structure Scope where
  kind : ScopeKind
  bindings : List (String × Binding) := []
deriving Repr, DecidableEq

/-- The latest binding of a name in a scope. -/
def Scope.find? (scope : Scope) (name : String) : Option Binding := scope.bindings.lookup name

/-- The scopes around a place, the innermost first. -/
abbrev Scopes := List Scope

namespace Scopes

/-- The scopes at the start of a source text. -/
def initial : Scopes := [⟨.root, []⟩]

/-- Opens a scope. -/
def enter (kind : ScopeKind) (scopes : Scopes) : Scopes := ⟨kind, []⟩ :: scopes

/-- Closes the innermost scope. -/
def leave (scopes : Scopes) : Scopes := scopes.tail

/-- Binds a name in the innermost scope. -/
def bind (name : String) (binding : Binding) : Scopes → Scopes
  | [] => []
  | scope :: outer => { scope with bindings := (name, binding) :: scope.bindings } :: outer

/-- The binding of a name in the innermost scope. -/
def shallow? (name : String) : Scopes → Option Binding
  | [] => none
  | scope :: _ => scope.find? name

/-- The function a name refers to beyond the parameters of a function. -/
def findFunction? (name : String) : Scopes → Option Binding
  | [] => none
  | scope :: outer =>
    match scope.find? name with
    | some (.function decl) => some (.function decl)
    | _ => findFunction? name outer

/-- What a name refers to. -/
def find? (name : String) : Scopes → Option Binding
  | [] => none
  | scope :: outer =>
    match scope.find? name with
    | some binding => some binding
    | none => if scope.kind = .function then findFunction? name outer else find? name outer

end Scopes

end WordLang
