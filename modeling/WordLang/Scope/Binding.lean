import WordLang.Id

/-!
# Bindings

A binding is what an identifier refers to.
-/

namespace WordLang

/-- What an identifier refers to. -/
inductive Binding where
  | function (decl : StmtId)
  /-- Parameter number `index` of the function that the statement `owner` declares. -/
  | parameter (owner : StmtId) (index : Nat)
  /-- The storage cell that the statement `decl` declares. -/
  | local (decl : StmtId)
deriving Repr, DecidableEq, Inhabited

namespace Binding

/-- Whether a binding refers to a function. -/
def isFunction : Binding → Bool
  | .function _ => true
  | _ => false

/-- The constructor form of a binding, as reports of violated invariants name it. -/
def describe : Binding → String
  | .function decl => "Function(StmtId(" ++ toString decl ++ "))"
  | .parameter owner index =>
    "Parameter \x7b function: StmtId(" ++ toString owner ++ "), index: " ++ toString index ++
      " \x7d"
  | .local decl => "Local(StmtId(" ++ toString decl ++ "))"

end Binding

end WordLang
