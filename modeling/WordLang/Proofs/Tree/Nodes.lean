import WordLang.Proofs.Ensures
import WordLang.Proofs.Id
import WordLang.Tree.Statement

/-!
# Nodes that parsing makes

A parsing step that meets no problem makes a tree whose nodes take exactly the identifiers that
were drawn meanwhile, each once, and no node of which stands for something that could not be read.
A node is made after the nodes within it, so its identifier is larger than theirs.

## Main definitions

* `Category`: statements, expressions, written types and blocks as nodes
* `Category.Drawn`: the nodes of a category made while identifiers were drawn
* `Nodes`, `Nodes.Made`: nodes by category, and those made between two states of parsing
* `Parse.Meets`: what a parsing step gives if it does not stop with a problem

## Main results

* `Nodes.Made.append`: nodes that were made one after another
-/

namespace WordLang

/-! ## Categories -/

/-- A category of nodes. -/
structure Category (α : Type) where
  id : α → Nat
  /-- Whether a node stands for something that could not be read. -/
  isError : α → Bool
  inner : α → List α

/-- Whether an expression could not be read. -/
def Expr.isError : Expr → Bool
  | .error _ => true
  | _ => false

/-- Whether a written type could not be read. -/
def TypeExpr.isError : TypeExpr → Bool
  | .error _ => true
  | _ => false

/-- Whether a statement could not be read. -/
def Stmt.isError : Stmt → Bool
  | .error _ => true
  | _ => false

/-- The blocks that a statement itself holds. -/
def Stmt.ownBlocks : Stmt → List Block
  | .function _ decl => decl.body.toList
  | .loop _ body => [body]
  | .while _ _ body => [body]
  | .choose _ _ truthy falsy => truthy :: falsy.toList
  | _ => []

/-- Statements as nodes. -/
def Stmt.category : Category Stmt := ⟨Stmt.id, Stmt.isError, fun s => s.all.tail⟩

/-- Expressions as nodes. -/
def Expr.category : Category Expr := ⟨Expr.id, Expr.isError, fun e => e.all.tail⟩

/-- Written types as nodes. -/
def TypeExpr.category : Category TypeExpr :=
  ⟨fun t => t.tag.id, TypeExpr.isError, fun t => (Module.typesWithin t).tail⟩

/-- Blocks as nodes. -/
def Block.category : Category Block :=
  ⟨fun b => b.tag.id, fun _ => false, fun b => (Stmt.allOfBlock b).flatMap Stmt.ownBlocks⟩

structure Category.Drawn {α : Type} (c : Category α) (a b : Supply) (nodes : List α) : Prop where
  ids : a.Gives b (nodes.map c.id)
  clean : ∀ x ∈ nodes, c.isError x = false
  above : ∀ x ∈ nodes, ∀ y ∈ c.inner x, c.id y < c.id x

namespace Category.Drawn

variable {α : Type} {c : Category α} {a b b' : Supply} {nodes nodes' : List α}

theorem nil (h : b = a) : c.Drawn a b [] := ⟨h ▸ .refl _, nofun, nofun⟩

theorem append (h : c.Drawn a b nodes) (h' : c.Drawn b b' nodes') : c.Drawn a b' (nodes ++ nodes') where
  ids := by
    rw [List.map_append]
    exact h.ids.append h'.ids
  clean := List.forall_mem_append.2 ⟨h.clean, h'.clean⟩
  above := List.forall_mem_append.2 ⟨h.above, h'.above⟩

theorem perm (h : c.Drawn a b nodes) (hp : nodes.Perm nodes') : c.Drawn a b nodes' where
  ids := h.ids.perm (hp.map _)
  clean x hx := h.clean x (hp.mem_iff.2 hx)
  above x hx := h.above x (hp.mem_iff.2 hx)

/-- A node takes the next identifier after those of the nodes within it. -/
theorem take {x : α} (hid : c.id x = a.next) (hclean : c.isError x = false)
    (habove : ∀ y ∈ c.inner x, c.id y < a.next) : c.Drawn a a.take.2 [x] where
  ids := by
    rw [List.map_singleton, hid]
    exact .take _
  clean := List.forall_mem_singleton.2 hclean
  above := List.forall_mem_singleton.2 (hid ▸ habove)

theorem lt_next (h : c.Drawn a b nodes) {x : α} (hx : x ∈ nodes) : c.id x < b.next := by
  have hmem := h.ids.2.mem_iff.1 (List.mem_map_of_mem hx)
  have hle := h.ids.1
  rw [List.mem_range'_1] at hmem
  omega

end Category.Drawn

/-! ## Nodes -/

/-- Nodes by category. -/
structure Nodes where
  stmts : List Stmt := []
  exprs : List Expr := []
  types : List TypeExpr := []
  blocks : List Block := []

namespace Nodes

instance : Append Nodes :=
  ⟨fun m n => ⟨m.stmts ++ n.stmts, m.exprs ++ n.exprs, m.types ++ n.types, m.blocks ++ n.blocks⟩⟩

@[simp] theorem stmts_append (m n : Nodes) : (m ++ n).stmts = m.stmts ++ n.stmts := rfl

@[simp] theorem exprs_append (m n : Nodes) : (m ++ n).exprs = m.exprs ++ n.exprs := rfl

@[simp] theorem types_append (m n : Nodes) : (m ++ n).types = m.types ++ n.types := rfl

@[simp] theorem blocks_append (m n : Nodes) : (m ++ n).blocks = m.blocks ++ n.blocks := rfl

/-- The same nodes in some order. -/
structure Perm (m n : Nodes) : Prop where
  stmts : m.stmts.Perm n.stmts
  exprs : m.exprs.Perm n.exprs
  types : m.types.Perm n.types
  blocks : m.blocks.Perm n.blocks

theorem Perm.of_eq {m n : Nodes} (h : m = n) : m.Perm n := h ▸ ⟨.refl _, .refl _, .refl _, .refl _⟩

end Nodes

def Stmt.attrExprs (s : Stmt) : List Expr :=
  (s.function?.toList.flatMap FnDecl.attrs).flatMap fun a => Expr.allOfList a.args

/-- The nodes of statements, those of the statements within them left out. -/
def Nodes.ofStmts (list : List Stmt) : Nodes where
  stmts := list
  exprs := list.flatMap fun s => s.ownExprs.flatMap Expr.all ++ s.attrExprs
  types := list.flatMap fun s => (Module.ownTypes s).flatMap Module.typesWithin
  blocks := list.flatMap Stmt.ownBlocks

theorem Nodes.ofStmts_append (list rest : List Stmt) :
    Nodes.ofStmts (list ++ rest) = Nodes.ofStmts list ++ Nodes.ofStmts rest := by
  simp only [Nodes.ofStmts, List.flatMap_append]
  rfl

/-- Blocks and the nodes within them. -/
def Nodes.ofBlocks (list : List Block) : Nodes :=
  { blocks := list } ++ Nodes.ofStmts (list.flatMap Stmt.allOfBlock)

theorem Nodes.ofBlocks_append (list rest : List Block) :
    (Nodes.ofBlocks list ++ Nodes.ofBlocks rest).Perm (Nodes.ofBlocks (list ++ rest)) := by
  refine ⟨.of_eq ?_, .of_eq ?_, .of_eq ?_, ?_⟩
  · simp [ofBlocks, ofStmts]
  · simp [ofBlocks, ofStmts]
  · simp [ofBlocks, ofStmts]
  · simpa [ofBlocks, ofStmts] using (List.perm_append_comm_assoc _ _ _).append_left list

theorem Stmt.allOfOption_eq (b : Option Block) : allOfOption b = b.toList.flatMap allOfBlock := by
  cases b <;> simp [allOfOption]

structure Nodes.Made (nodes : Nodes) (σ σ' : ParseState) : Prop where
  stmts : Stmt.category.Drawn σ.stmtIds σ'.stmtIds nodes.stmts
  exprs : Expr.category.Drawn σ.exprIds σ'.exprIds nodes.exprs
  types : TypeExpr.category.Drawn σ.typeIds σ'.typeIds nodes.types
  blocks : Block.category.Drawn σ.blockIds σ'.blockIds nodes.blocks

namespace Nodes.Made

variable {σ σ' σ'' : ParseState} {m n : Nodes}

theorem append (h : m.Made σ σ') (h' : n.Made σ' σ'') : (m ++ n).Made σ σ'' :=
  ⟨h.stmts.append h'.stmts, h.exprs.append h'.exprs, h.types.append h'.types,
    h.blocks.append h'.blocks⟩

theorem perm (h : m.Made σ σ') (hp : m.Perm n) : n.Made σ σ' :=
  ⟨h.stmts.perm hp.stmts, h.exprs.perm hp.exprs, h.types.perm hp.types, h.blocks.perm hp.blocks⟩

end Nodes.Made

/-! ## Parsing steps -/

namespace Parse

/-- A parsing step that gives what satisfies `ok`, or stops with some problem. -/
def Meets {α : Type} (x : Parse α) (σ : ParseState) (ok : α → ParseState → Prop) : Prop :=
  Ensures x σ ok fun _ => True

namespace Meets

variable {α β : Type} {x : Parse α} {k : α → Parse β} {σ : ParseState}

theorem bind {mid : α → ParseState → Prop} {ok : β → ParseState → Prop} (hx : Meets x σ mid)
    (hk : ∀ a σ', mid a σ' → Meets (k a) σ' ok) : Meets (x >>= k) σ ok :=
  Ensures.bind_of hx hk

theorem pure {ok : α → ParseState → Prop} {a : α} (h : ok a σ) : Meets (Pure.pure a) σ ok :=
  Ensures.pure h

theorem mono {ok ok' : α → ParseState → Prop} (h : Meets x σ ok)
    (hok : ∀ a σ', ok a σ' → ok' a σ') : Meets x σ ok' :=
  Ensures.mono h hok fun _ h => h

theorem map {ok : β → ParseState → Prop} {f : α → β}
    (h : Meets x σ fun a σ' => ok (f a) σ') : Meets (f <$> x) σ ok :=
  Ensures.map h

theorem get_bind {k : ParseState → Parse β} {ok : β → ParseState → Prop} (h : Meets (k σ) σ ok) :
    Meets (MonadState.get >>= k) σ ok := h

theorem unexpected (expected : Expected) {ok : α → ParseState → Prop} :
    Meets (Parse.unexpected expected) σ ok :=
  have hpeek : Meets peek σ fun _ _ => True := trivial
  hpeek.bind fun _ σ' _ =>
    have hline : Meets peekLine σ' fun _ _ => True := trivial
    hline.bind fun _ _ _ => Ensures.throw trivial

end Meets

end Parse

end WordLang
