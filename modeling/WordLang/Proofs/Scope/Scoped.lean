import WordLang.Proofs.Tree.Within
import WordLang.Scope.Resolution

/-!
# Scoped programs

What resolution finds out about a program makes sense if every name refers to something that is
visible where the name stands: a function of the program, a parameter of the function around it,
or a storage cell declared before it in the same function. A `break` ends the innermost loop
around it, and every declaration is recorded.

## Main definitions

* `Binding.InScope`: the bindings that may be referred to at a place
* `Expr.Scoped`, `Stmt.Scoped`: expressions and statements that refer to such bindings only
* `Resolutions.FunctionScoped`, `Resolutions.Scoped`: functions and modules of this kind
-/

namespace WordLang

/-- What may be referred to in the function `owner` that has `arity` parameters, at a place after
the declarations of the cells `visible`. -/
def Binding.InScope (functions : List StmtId) (owner : StmtId) (arity : Nat) (visible : List StmtId) :
    Binding → Prop
  | .function decl => decl ∈ functions
  | .parameter scope index => scope = owner ∧ index < arity
  | .local decl => decl ∈ visible

def Binding.OwnedBy (owner : StmtId) : Binding → Prop
  | .parameter scope _ => scope = owner
  | _ => True

theorem Binding.InScope.ownedBy {functions : List StmtId} {owner : StmtId} {arity : Nat}
    {visible : List StmtId} {b : Binding} (h : b.InScope functions owner arity visible) :
    b.OwnedBy owner := by
  cases b with
  | parameter scope index => exact h.1
  | _ => trivial

/-- The cell that a statement makes visible to the statements after it. -/
def Stmt.introduces : Stmt → List StmtId
  | .declare tag _ _ _ => [tag.id]
  | _ => []

/-- The cells that are visible after a list of statements. -/
def Stmt.visibleAfter (visible : List StmtId) : List Stmt → List StmtId
  | [] => visible
  | s :: rest => visibleAfter (s.introduces ++ visible) rest

section

variable (r : Resolutions) (owner : StmtId) (arity : Nat)

section

variable (visible : List StmtId)

mutual

/-- Every name in an expression refers to something in scope. -/
def Expr.Scoped : Expr → Prop
  | .name tag _ =>
    ∃ b, r.bindings.find? tag.id = some b ∧ b.InScope r.functions owner arity visible
  | .call _ callee args => Expr.AllScoped args ∧ Expr.Scoped callee
  | .unary _ _ operand => Expr.Scoped operand
  | .binary _ _ lhs rhs => Expr.Scoped lhs ∧ Expr.Scoped rhs
  | .int _ _ => True
  | .string _ _ => True
  | .error _ => True

/-- Every name in a list of expressions refers to something in scope. -/
def Expr.AllScoped : List Expr → Prop
  | [] => True
  | e :: rest => Expr.Scoped e ∧ Expr.AllScoped rest

end

/-- Every name in an expression that may be absent refers to something in scope. -/
def Expr.OptionScoped : Option Expr → Prop
  | none => True
  | some e => Expr.Scoped r owner arity visible e

end

mutual

/-- Every name and every `break` in a statement refers to something in scope; `loops` are the loops
around the statement. Bodies of functions are not included. -/
def Stmt.Scoped (visible loops : List StmtId) : Stmt → Prop
  | .error _ => True
  | .function _ _ => True
  | .declare tag ident type value =>
    Expr.OptionScoped r owner arity visible value ∧
      r.declarations.find? tag.id = some (.declare tag ident type value)
  | .loop tag body => Block.Scoped visible (tag.id :: loops) body
  | .while tag condition body =>
    condition.Scoped r owner arity visible ∧ Block.Scoped visible (tag.id :: loops) body
  | .choose _ condition truthy falsy =>
    condition.Scoped r owner arity visible ∧ Block.Scoped visible loops truthy ∧
      Block.OptionScoped visible loops falsy
  | .return _ value => Expr.OptionScoped r owner arity visible value
  | .break tag => ∃ loop, loops.head? = some loop ∧ r.breakTargets.find? tag.id = some loop
  | .assign _ subject value =>
    value.Scoped r owner arity visible ∧ subject.Scoped r owner arity visible
  | .eval _ e => e.Scoped r owner arity visible

/-- Every name and every `break` in a block refers to something in scope, and the functions that the
block declares are listed. -/
def Block.Scoped (visible loops : List StmtId) : Block → Prop
  | ⟨_, list⟩ => Stmt.AllScoped visible loops list ∧
    ∀ tag decl, .function tag decl ∈ list → tag.id ∈ r.functions

/-- Every name and every `break` in a block that may be absent refers to something in scope. -/
def Block.OptionScoped (visible loops : List StmtId) : Option Block → Prop
  | none => True
  | some b => Block.Scoped visible loops b

/-- Every name and every `break` in a list of statements refers to something in scope. -/
def Stmt.AllScoped (visible loops : List StmtId) : List Stmt → Prop
  | [] => True
  | s :: rest => Stmt.Scoped visible loops s ∧ Stmt.AllScoped (s.introduces ++ visible) loops rest

end

end

theorem Resolutions.function?_eq_some {r : Resolutions} {id : StmtId} {decl : FnDecl} :
    r.function? id = some decl ↔ ∃ tag, r.declarations.find? id = some (.function tag decl) := by
  simp only [Resolutions.function?, Option.bind_eq_some_iff]
  constructor
  · rintro ⟨s, hs, hdecl⟩
    cases s with
    | function tag decl' =>
      cases hdecl
      exact ⟨tag, hs⟩
    | _ => cases hdecl
  · rintro ⟨tag, hs⟩
    exact ⟨_, hs, rfl⟩

/-- A function is recorded, and its body, if it has one, refers to what is in scope. -/
def Resolutions.FunctionScoped (r : Resolutions) (id : StmtId) : Prop :=
  ∃ tag decl, tag.id = id ∧ r.declarations.find? id = some (.function tag decl) ∧
    ∀ b, decl.body = some b → b.Scoped r id decl.params.length [] []

/-- The functions that a list of statements declares, in order. -/
def Stmt.declared (list : List Stmt) : List (StmtId × FnDecl) :=
  list.filterMap fun s => s.function?.map fun decl => (s.id, decl)

/-- What is found out about a module makes sense. -/
structure Resolutions.Scoped (r : Resolutions) (m : Module) : Prop where
  nodup : r.functions.Nodup
  /-- Every function that is listed is recorded and refers to what is in scope. -/
  function : ∀ id ∈ r.functions, r.FunctionScoped id
  /-- What is recorded is a statement of the module, under its identifier. -/
  declared : ∀ {id s}, r.declarations.find? id = some s → s ∈ m.statements ∧ s.id = id
  listed : ∀ {id tag decl}, r.declarations.find? id = some (.function tag decl) → id ∈ r.functions
  items : ∀ {tag decl}, .function tag decl ∈ m.items → tag.id ∈ r.functions
  outside : (Stmt.declared m.items).map Prod.fst <+: r.functions
  names : ((Stmt.declared m.items).map fun f => f.2.ident.name).Nodup

theorem Resolutions.Scoped.scoped_body {r : Resolutions} {m : Module} (hr : r.Scoped m) {id : StmtId}
    {decl : FnDecl} {b : Block} (hdecl : r.function? id = some decl) (hb : decl.body = some b) :
    b.Scoped r id decl.params.length [] [] := by
  obtain ⟨tag, hfind⟩ := Resolutions.function?_eq_some.1 hdecl
  obtain ⟨tag', decl', -, hfind', hscoped⟩ := hr.function id (hr.listed hfind)
  rw [hfind, Option.some.injEq, Stmt.function.injEq] at hfind'
  obtain ⟨-, rfl⟩ := hfind'
  exact hscoped b hb

namespace Resolutions.Scoped

variable {r : Resolutions} {m : Module}

theorem find?_of_listed (hr : r.Scoped m) (hids : (m.statements.map Stmt.id).Nodup) {tag : Tag}
    {decl : FnDecl} (hmem : .function tag decl ∈ m.statements) (hlisted : tag.id ∈ r.functions) :
    r.declarations.find? tag.id = some (.function tag decl) := by
  obtain ⟨tag', decl', -, hfind, -⟩ := hr.function tag.id hlisted
  obtain ⟨hmem', hid⟩ := hr.declared hfind
  rw [hfind]
  exact congrArg some (List.inj_on_of_nodup_map hids hmem' hmem hid)

-- A function within a body is listed with the block that declares it, and the body of a listed
-- function is scoped in turn.
mutual

theorem listed_all (hr : r.Scoped m) (hids : (m.statements.map Stmt.id).Nodup) :
    ∀ (s : Stmt) {owner : StmtId} {arity : Nat} {visible loops : List StmtId}, s.all ⊆ m.statements →
    s.Scoped r owner arity visible loops → (∀ tag decl, s = .function tag decl → tag.id ∈ r.functions) →
    ∀ tag decl, .function tag decl ∈ s.all → tag.id ∈ r.functions
  | .function tag decl, _, _, _, _, hs, _, hlisted, tag', decl', h => by
    rcases List.mem_cons.1 h with h | h
    · exact hlisted tag' decl' h.symm
    · exact listed_allOfBody hr hids decl (fun _ h' => hs (List.mem_cons_of_mem _ h'))
        (Resolutions.function?_eq_some.2 ⟨tag, hr.find?_of_listed hids (hs (Stmt.mem_all _))
          (hlisted tag decl rfl)⟩) tag' decl' h
  | .loop tag body, _, _, _, _, hs, hscoped, _, tag', decl', h => by
    rcases List.mem_cons.1 h with h | h
    · cases h
    · exact listed_allOfBlock hr hids body (fun _ h' => hs (List.mem_cons_of_mem _ h')) hscoped tag'
        decl' h
  | .while tag condition body, _, _, _, _, hs, hscoped, _, tag', decl', h => by
    rcases List.mem_cons.1 h with h | h
    · cases h
    · exact listed_allOfBlock hr hids body (fun _ h' => hs (List.mem_cons_of_mem _ h')) hscoped.2
        tag' decl' h
  | .choose tag condition truthy falsy, _, _, _, _, hs, hscoped, _, tag', decl', h => by
    have hsub : Stmt.allOfBlock truthy ⊆ m.statements ∧ Stmt.allOfOption falsy ⊆ m.statements :=
      List.append_subset.1 fun _ h' => hs (List.mem_cons_of_mem _ h')
    rcases List.mem_cons.1 h with h | h
    · cases h
    · rcases List.mem_append.1 h with h | h
      · exact listed_allOfBlock hr hids truthy hsub.1 hscoped.2.1 tag' decl' h
      · exact listed_allOfOption hr hids falsy hsub.2 hscoped.2.2 tag' decl' h
  | .error _, _, _, _, _, _, _, _, _, _, h | .declare .., _, _, _, _, _, _, _, _, _, h
  | .return .., _, _, _, _, _, _, _, _, _, h | .break _, _, _, _, _, _, _, _, _, _, h
  | .assign .., _, _, _, _, _, _, _, _, _, h | .eval .., _, _, _, _, _, _, _, _, _, h =>
    nomatch List.mem_singleton.1 h

theorem listed_allOfBody (hr : r.Scoped m) (hids : (m.statements.map Stmt.id).Nodup) :
    ∀ (decl : FnDecl) {id : StmtId}, Stmt.allOfBody decl ⊆ m.statements → r.function? id = some decl →
    ∀ tag decl', .function tag decl' ∈ Stmt.allOfBody decl → tag.id ∈ r.functions
  | ⟨_, _, _, _, none⟩, _, _, _, _, _, h => nomatch h
  | ⟨_, _, _, _, some b⟩, _, hs, hdecl, tag, decl', h =>
    listed_allOfBlock hr hids b hs (hr.scoped_body hdecl rfl) tag decl' h

theorem listed_allOfOption (hr : r.Scoped m) (hids : (m.statements.map Stmt.id).Nodup) :
    ∀ (b : Option Block) {owner : StmtId} {arity : Nat} {visible loops : List StmtId},
    Stmt.allOfOption b ⊆ m.statements → Block.OptionScoped r owner arity visible loops b →
    ∀ tag decl, .function tag decl ∈ Stmt.allOfOption b → tag.id ∈ r.functions
  | none, _, _, _, _, _, _, _, _, h => nomatch h
  | some b, _, _, _, _, hs, hscoped, tag, decl, h => listed_allOfBlock hr hids b hs hscoped tag decl h

theorem listed_allOfBlock (hr : r.Scoped m) (hids : (m.statements.map Stmt.id).Nodup) :
    ∀ (b : Block) {owner : StmtId} {arity : Nat} {visible loops : List StmtId},
    Stmt.allOfBlock b ⊆ m.statements → b.Scoped r owner arity visible loops →
    ∀ tag decl, .function tag decl ∈ Stmt.allOfBlock b → tag.id ∈ r.functions
  | ⟨_, list⟩, _, _, _, _, hs, hscoped, tag, decl, h =>
    listed_allOfList hr hids list hs hscoped.1 hscoped.2 tag decl h

theorem listed_allOfList (hr : r.Scoped m) (hids : (m.statements.map Stmt.id).Nodup) :
    ∀ (list : List Stmt) {owner : StmtId} {arity : Nat} {visible loops : List StmtId},
    Stmt.allOfList list ⊆ m.statements → Stmt.AllScoped r owner arity visible loops list →
    (∀ tag decl, .function tag decl ∈ list → tag.id ∈ r.functions) →
    ∀ tag decl, .function tag decl ∈ Stmt.allOfList list → tag.id ∈ r.functions
  | [], _, _, _, _, _, _, _, _, _, h => nomatch h
  | s :: rest, _, _, _, _, hs, hscoped, hlisted, tag, decl, h => by
    have hsub : s.all ⊆ m.statements ∧ Stmt.allOfList rest ⊆ m.statements := List.append_subset.1 hs
    rcases List.mem_append.1 h with h | h
    · exact listed_all hr hids s hsub.1 hscoped.1
        (fun tag decl heq => hlisted tag decl (heq ▸ List.mem_cons_self)) tag decl h
    · exact listed_allOfList hr hids rest hsub.2 hscoped.2
        (fun tag decl hmem => hlisted tag decl (List.mem_cons_of_mem _ hmem)) tag decl h

end

end Resolutions.Scoped

end WordLang
