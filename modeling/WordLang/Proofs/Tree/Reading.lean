import WordLang.Proofs.Tree.Derivation

/-!
# Trees that were read

A source text that can be read gives a tree without nodes that stand for problems, in which no two
nodes of one category have the same identifier. The identifiers of a category are the numbers from
zero on, and that of a node is larger than those of the nodes within it.

## Main definitions

* `Module.Clean`: such trees
* `Category.Numbered`: nodes of a category that are numbered from zero, inner ones first

## Main results

* `Module.clean_of_ofSource?`: a source text that can be read gives a clean tree
* `Module.numbered_of_ofSource?`: its nodes are numbered
-/

namespace WordLang

variable {source : List Char} {m : Module}

/-- A tree without nodes that stand for problems, in which no two nodes of a category have one
identifier. -/
structure Module.Clean (m : Module) : Prop where
  stmts : ∀ s ∈ m.statements, s.isError = false
  exprs : ∀ e ∈ m.exprs, e.isError = false
  types : ∀ t ∈ m.types, t.isError = false
  stmtIds : (m.statements.map Stmt.id).Nodup
  exprIds : (m.exprs.map Expr.id).Nodup
  typeIds : (m.types.map fun t => t.tag.id).Nodup

/-- The expressions of statements, apart from those of their attributes. -/
theorem sublist_exprs (list : List Stmt) :
    (list.flatMap fun s => s.ownExprs.flatMap Expr.all).Sublist (Nodes.ofStmts list).exprs := by
  induction list with
  | nil => exact .slnil
  | cons s rest ih =>
    simp only [Nodes.ofStmts, List.flatMap_cons] at ih ⊢
    exact (List.sublist_append_left _ _).append ih

theorem Module.exists_made_of_ofSource? (h : Module.ofSource? source = .ok m) :
    ∃ tokens lastLine σ', (Nodes.ofStmts m.statements).Made { tokens, lastLine } σ' := by
  simp only [Module.ofSource?] at h
  split at h
  · next items σ hitems =>
    split at h
    · next hsort =>
      cases h
      have hnone : σ.problems = [] := by
        have hperm := List.mergeSort_perm ((scan source).diagnostics ++ σ.problems)
          fun a b => decide (a.line ≤ b.line)
        have hnil : (scan source).diagnostics ++ σ.problems = [] := by
          rw [← List.perm_nil]
          exact hperm.symm.trans (.of_eq hsort)
        exact (List.append_eq_nil_iff.1 hnil).2
      have hread : Parse.Meets Parse.items ⟨(scan source).tokens, (scan source).lastLine, {}, {}, {},
          {}, []⟩ fun list σ' => σ'.problems = [] → (Nodes.ofStmts (Stmt.allOfList list)).Made _ σ' :=
        .get_bind ((Parse.itemsWithin_derive _ _).mono fun _ _ h hclean => (h hclean).1.made)
      simp only [Parse.Meets, Ensures] at hread
      rw [show Parse.items _ = _ from hitems] at hread
      exact ⟨_, _, σ, hread hnone⟩
    · cases h
  · cases h

theorem Module.clean_of_ofSource? (h : Module.ofSource? source = .ok m) : m.Clean := by
  obtain ⟨_, _, _, hmade⟩ := exists_made_of_ofSource? h
  have hsub := sublist_exprs m.statements
  exact {
    stmts := hmade.stmts.clean
    exprs := fun e he => hmade.exprs.clean e (hsub.subset he)
    types := hmade.types.clean
    stmtIds := hmade.stmts.ids.nodup
    exprIds := hmade.exprs.ids.nodup.sublist (hsub.map _)
    typeIds := hmade.types.ids.nodup }

/-! ## Numbers of nodes -/

/-- Nodes that could all be read, that have the numbers from zero on as their identifiers, each once,
and of which each has a larger one than the nodes within it. -/
structure Category.Numbered {α : Type} (c : Category α) (nodes : List α) : Prop where
  clean : ∀ x ∈ nodes, c.isError x = false
  /-- The identifiers are the numbers below the number of nodes. -/
  ids : (nodes.map c.id).Perm (List.range nodes.length)
  above : ∀ x ∈ nodes, ∀ y ∈ c.inner x, c.id y < c.id x

/-- Nodes that took the first identifiers of a supply are numbered. -/
theorem Category.Drawn.numbered {α : Type} {c : Category α} {b : Supply} {nodes : List α}
    (h : c.Drawn {} b nodes) : c.Numbered nodes := by
  refine ⟨h.clean, ?_, h.above⟩
  have hids : (nodes.map c.id).Perm (List.range' 0 b.next) := h.ids.2
  have hlength : nodes.length = b.next := by simpa using hids.length_eq
  rwa [hlength, List.range_eq_range']

theorem Module.perm_exprsWithAttrs (m : Module) :
    (Nodes.ofStmts m.statements).exprs.Perm m.exprsWithAttrs :=
  (List.flatMap_append_perm _ _ _).symm

theorem Module.nodup_exprsWithAttrs_of_ofSource?
    (h : Module.ofSource? source = .ok m) : (m.exprsWithAttrs.map Expr.id).Nodup := by
  obtain ⟨_, _, _, hmade⟩ := exists_made_of_ofSource? h
  exact (m.perm_exprsWithAttrs.map Expr.id).nodup_iff.1 hmade.exprs.ids.nodup

/-- All blocks of a module. -/
def Module.blocks (m : Module) : List Block := m.statements.flatMap Stmt.ownBlocks

/-- There are identifiers for all nodes of a tree. -/
structure Module.EnoughIds (m : Module) : Prop where
  statements : m.statements.length ≤ idCount
  exprs : m.exprsWithAttrs.length ≤ idCount
  types : m.types.length ≤ idCount
  blocks : m.blocks.length ≤ idCount

instance (m : Module) : Decidable m.EnoughIds :=
  decidable_of_iff (m.statements.length ≤ idCount ∧ m.exprsWithAttrs.length ≤ idCount ∧
      m.types.length ≤ idCount ∧ m.blocks.length ≤ idCount)
    ⟨fun h => ⟨h.1, h.2.1, h.2.2.1, h.2.2.2⟩, fun h => ⟨h.statements, h.exprs, h.types, h.blocks⟩⟩

/-- The statements, expressions, written types and blocks of a tree that was read could all be read,
and are numbered from zero, inner ones first. -/
theorem Module.numbered_of_ofSource? {source : List Char} {m : Module}
    (h : Module.ofSource? source = .ok m) :
    Stmt.category.Numbered m.statements ∧ Expr.category.Numbered m.exprsWithAttrs ∧
      TypeExpr.category.Numbered m.types ∧ Block.category.Numbered m.blocks := by
  obtain ⟨_, _, _, hmade⟩ := exists_made_of_ofSource? h
  exact ⟨hmade.stmts.numbered, (hmade.exprs.perm m.perm_exprsWithAttrs).numbered,
    hmade.types.numbered, hmade.blocks.numbered⟩

/-- A function with an attribute and no result type, with an `else if`. -/
def elseIf : List Char := "#[a(1)] fn f(p: **int) { if 2 { } else if -3 { g(4); } else { } }".toList

/-- The block that stands for the `else if` comes after those within it, and the missing result type
is numbered too. -/
theorem elseIf_ids : (Module.ofSource? elseIf).toOption.any fun m =>
    m.blocks.map (fun b => b.tag.id) = [4, 0, 3, 1, 2] ∧
      m.types.map (fun t => t.tag.id) = [2, 1, 0, 3] := by
  decide +kernel

theorem Module.numbered_elseIf : ∃ m, Module.ofSource? elseIf = .ok m ∧
    m.blocks.map (fun b => b.tag.id) = [4, 0, 3, 1, 2] ∧
    Stmt.category.Numbered m.statements ∧ Expr.category.Numbered m.exprsWithAttrs ∧
      TypeExpr.category.Numbered m.types ∧ Block.category.Numbered m.blocks := by
  obtain ⟨m, hm, hids⟩ := exists_ok_of_any elseIf_ids
  exact ⟨m, hm, (of_decide_eq_true hids).1, numbered_of_ofSource? hm⟩

end WordLang
