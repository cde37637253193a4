import Mathlib.Tactic
import WordLang.Tree

/-!
# Parts of trees

The expressions within an expression that is part of another one are parts of that one too. The
statements within a statement that stands within another one stand within that one too, and
so do the statements of an activation, which leave out the bodies of functions.

## Main definitions

* `Stmt.own`: a statement and the statements within it that run in the same activation

## Main results

* `Expr.all_subset_all`: the parts of a part of an expression are parts of the expression
* `Stmt.sublist_all`: the statements within a statement of a tree are among those of the tree
* `Stmt.own_sublist_all`: the statements of an activation are among those within a statement
-/

namespace WordLang.Expr

mutual

theorem all_subset_all : ∀ (e : Expr) {e' : Expr}, e' ∈ e.all → e'.all ⊆ e.all
  | .call tag callee args, e', h => by
    rcases List.mem_cons.1 h with rfl | h
    · exact List.Subset.refl _
    refine List.subset_cons_of_subset _ ?_
    rcases List.mem_append.1 h with h | h
    · exact List.subset_append_of_subset_left _ (all_subset_all callee h)
    · exact List.subset_append_of_subset_right _ (all_subset_allOfList args h)
  | .unary tag op operand, e', h => by
    rcases List.mem_cons.1 h with rfl | h
    · exact List.Subset.refl _
    · exact List.subset_cons_of_subset _ (all_subset_all operand h)
  | .binary tag op lhs rhs, e', h => by
    rcases List.mem_cons.1 h with rfl | h
    · exact List.Subset.refl _
    refine List.subset_cons_of_subset _ ?_
    rcases List.mem_append.1 h with h | h
    · exact List.subset_append_of_subset_left _ (all_subset_all lhs h)
    · exact List.subset_append_of_subset_right _ (all_subset_all rhs h)
  | .error _, _, h | .int _ _, _, h | .string _ _, _, h | .name _ _, _, h => by
    rw [List.mem_singleton.1 h]
    exact List.Subset.refl _

theorem all_subset_allOfList : ∀ (list : List Expr) {e' : Expr}, e' ∈ allOfList list →
    e'.all ⊆ allOfList list
  | e :: rest, e', h => by
    rcases List.mem_append.1 h with h | h
    · exact List.subset_append_of_subset_left _ (all_subset_all e h)
    · exact List.subset_append_of_subset_right _ (all_subset_allOfList rest h)

end

end WordLang.Expr

namespace WordLang.Stmt

theorem mem_all (s : Stmt) : s ∈ s.all := by
  cases s <;> simp [all]

theorem mem_allOfList {s : Stmt} {list : List Stmt} (h : s ∈ list) : s ∈ allOfList list := by
  induction list with
  | nil => cases h
  | cons s' rest ih =>
    rcases List.mem_cons.1 h with rfl | h
    · exact List.mem_append_left _ (mem_all s)
    · exact List.mem_append_right _ (ih h)

theorem allOfBody_eq (decl : FnDecl) : allOfBody decl = allOfOption decl.body := by
  obtain ⟨_, _, _, _, _⟩ := decl
  rfl

mutual

theorem sublist_all : ∀ (s : Stmt) {s' : Stmt}, s' ∈ s.all → s'.all.Sublist s.all
  | .function tag decl, s', h => by
    rcases List.mem_cons.1 h with rfl | h
    · exact .refl _
    · exact (sublist_allOfBody decl h).cons _
  | .loop tag body, s', h | .while tag _ body, s', h => by
    rcases List.mem_cons.1 h with rfl | h
    · exact .refl _
    · exact (sublist_allOfBlock body h).cons _
  | .choose tag condition truthy falsy, s', h => by
    rcases List.mem_cons.1 h with rfl | h
    · exact .refl _
    · rcases List.mem_append.1 h with h | h
      · exact ((sublist_allOfBlock truthy h).trans (List.sublist_append_left _ _)).cons _
      · exact ((sublist_allOfOption falsy h).trans (List.sublist_append_right _ _)).cons _
  | .error _, s', h | .declare .., s', h | .return .., s', h | .break _, s', h | .assign .., s', h
  | .eval .., s', h => by rw [List.mem_singleton.1 h]

theorem sublist_allOfBody : ∀ (decl : FnDecl) {s' : Stmt}, s' ∈ allOfBody decl →
    s'.all.Sublist (allOfBody decl)
  | ⟨_, _, _, _, body⟩, _, h => sublist_allOfOption body h

theorem sublist_allOfOption : ∀ (b : Option Block) {s' : Stmt}, s' ∈ allOfOption b →
    s'.all.Sublist (allOfOption b)
  | none, _, h => nomatch h
  | some b, _, h => sublist_allOfBlock b h

theorem sublist_allOfBlock : ∀ (b : Block) {s' : Stmt}, s' ∈ allOfBlock b →
    s'.all.Sublist (allOfBlock b)
  | ⟨_, list⟩, _, h => sublist_allOfList list h

theorem sublist_allOfList : ∀ (list : List Stmt) {s' : Stmt}, s' ∈ allOfList list →
    s'.all.Sublist (allOfList list)
  | s :: rest, s', h => by
    rcases List.mem_append.1 h with h | h
    · exact (sublist_all s h).trans (List.sublist_append_left _ _)
    · exact (sublist_allOfList rest h).trans (List.sublist_append_right _ _)

end

/-! ## The statements of an activation -/

mutual

/-- A statement and all statements within it, without those of function bodies. -/
def own : Stmt → List Stmt
  | .loop tag body => .loop tag body :: ownOfBlock body
  | .while tag condition body => .while tag condition body :: ownOfBlock body
  | .choose tag condition truthy falsy =>
    .choose tag condition truthy falsy :: ownOfBlock truthy ++ ownOfOption falsy
  | s => [s]

/-- All statements within a block that may be absent, without those of function bodies. -/
def ownOfOption : Option Block → List Stmt
  | none => []
  | some block => ownOfBlock block

/-- All statements within a block, without those of function bodies. -/
def ownOfBlock : Block → List Stmt
  | ⟨_, statements⟩ => ownOfList statements

/-- All statements within a list of statements, without those of function bodies. -/
def ownOfList : List Stmt → List Stmt
  | [] => []
  | s :: rest => s.own ++ ownOfList rest

end

theorem mem_own (s : Stmt) : s ∈ s.own := by
  cases s <;> simp [own]

mutual

theorem own_sublist_all : ∀ s : Stmt, s.own.Sublist s.all
  | .function .. => (List.nil_sublist _).cons_cons _
  | .loop _ body => (ownOfBlock_sublist body).cons_cons _
  | .while _ _ body => (ownOfBlock_sublist body).cons_cons _
  | .choose _ _ truthy falsy =>
    ((ownOfBlock_sublist truthy).append (ownOfOption_sublist falsy)).cons_cons _
  | .error _ => .refl _
  | .declare .. => .refl _
  | .return .. => .refl _
  | .break _ => .refl _
  | .assign .. => .refl _
  | .eval .. => .refl _

theorem ownOfOption_sublist : ∀ b : Option Block, (ownOfOption b).Sublist (allOfOption b)
  | none => .refl _
  | some b => ownOfBlock_sublist b

theorem ownOfBlock_sublist : ∀ b : Block, (ownOfBlock b).Sublist (allOfBlock b)
  | ⟨_, list⟩ => ownOfList_sublist list

theorem ownOfList_sublist : ∀ list : List Stmt, (ownOfList list).Sublist (allOfList list)
  | [] => .refl _
  | s :: rest => (own_sublist_all s).append (ownOfList_sublist rest)

end

end WordLang.Stmt
