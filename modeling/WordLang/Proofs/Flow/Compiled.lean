import WordLang.Flow.Build
import WordLang.Proofs.Linear.Shape
import WordLang.Proofs.Scope.Scoped
import WordLang.Proofs.Typing.Judgement

/-!
# Statements in graphs

What is left of a block at some point of its statements is a piece of code. A statement of a tree is
found in a graph between two pieces of code: the first one leads through the statement, and the
second one is what comes after it.

## Main definitions

* `Flow.Code`: what is left of a block
* `Flow.Compiled`: a statement is found in a graph between two pieces of code
* `Flow.Cells.Covers`, `Flow.Cells.Extends`: cells for all that is in scope, and further cells

## Main results

* `Flow.expression_spec`: the statements that compute a well typed expression
-/

namespace WordLang.Flow

variable {ident : Ident} {cell : LocalId} {tag : Tag}

/-- What is left of a block: its statements that are left, and where it goes on. -/
abbrev Code := List Statement × Terminator

/-- Puts statements before what is left of a block. -/
def Code.before (ss : List Statement) (k : Code) : Code := (ss ++ k.1, k.2)

theorem Code.before_append (ss ss' : List Statement) (k : Code) :
    Code.before (ss ++ ss') k = Code.before ss (Code.before ss' k) := by
  simp [Code.before]

/-! ## Cells -/

theorem Cells.find_parameter {cells : Cells} {owner : StmtId} {index : Nat} :
    cells.find (.parameter owner index) = .ok cell ↔ cells.params[index]? = some cell := by
  simp only [Cells.find]
  split
  · next found hget => simp [hget]
  · next hget => simp [hget]

theorem Cells.find_local {cells : Cells} {decl : StmtId} :
    cells.find (.local decl) = .ok cell ↔ cells.declared.find? decl = some cell := by
  simp only [Cells.find]
  split
  · next found hget => simp [hget]
  · next hget => simp [hget]

/-- Every parameter and every visible declaration has a cell. -/
def Cells.Covers (cells : Cells) (functions : List StmtId) (owner : StmtId) (arity : Nat)
    (visible : List StmtId) : Prop :=
  ∀ b : Binding, b.InScope functions owner arity visible → b.isFunction = false →
    ∃ cell, cells.find b = .ok cell

def Cells.Extends (cells cells' : Cells) : Prop :=
  ∀ ⦃b cell⦄, cells.find b = .ok cell → cells'.find b = .ok cell

theorem Cells.Extends.refl (cells : Cells) : cells.Extends cells := fun _ _ h => h

theorem Cells.Extends.trans {a b c : Cells} (h : a.Extends b) (h' : b.Extends c) : a.Extends c :=
  fun _ _ hf => h' (h hf)

/-! ## Expressions -/

section

variable {r : Resolutions} {owner : StmtId} {arity : Nat} {visible : List StmtId} {cells : Cells}
  {slots : List LocalId}

/-- The statements of an expression are about cells that have slots and about functions of the
program, and further cells do not change them. -/
def ExpressionSpec (r : Resolutions) (cells : Cells) (slots : List LocalId) (e : Expr)
    (ss : List Statement) : Prop :=
  expression r cells e = .ok ss ∧ (∀ s ∈ ss, Linear.Fits r.functions slots s) ∧
    ∀ {cells' : Cells}, cells.Extends cells' → expression r cells' e = .ok ss

def ExpressionsSpec (r : Resolutions) (cells : Cells) (slots : List LocalId) (list : List Expr)
    (ss : List Statement) : Prop :=
  expressions r cells list = .ok ss ∧ (∀ s ∈ ss, Linear.Fits r.functions slots s) ∧
    ∀ {cells' : Cells}, cells.Extends cells' → expressions r cells' list = .ok ss

theorem bindingOf_name {b : Binding}
    (hb : r.bindings.find? tag.id = some b) : bindingOf r (.name tag ident) = .ok b := by
  simp only [bindingOf, Expr.id, Expr.tag, hb]

theorem expression_function {decl : StmtId} (hb : r.bindings.find? tag.id = some (.function decl)) :
    expression r cells (.name tag ident) = .ok [.push (.function decl)] := by
  simp only [expression, bindingOf_name hb]
  rfl

theorem expression_cell {b : Binding}
    (hb : r.bindings.find? tag.id = some b) (hfun : b.isFunction = false)
    (hcell : cells.find b = .ok cell) :
    expression r cells (.name tag ident) = .ok [.load cell] := by
  simp only [expression, bindingOf_name hb]
  cases b with
  | function decl => cases hfun
  | parameter scope index =>
    show (do return [Statement.load (← cells.find _)] : Except Failure (List Statement)) = _
    rw [hcell]
    rfl
  | «local» decl =>
    show (do return [Statement.load (← cells.find _)] : Except Failure (List Statement)) = _
    rw [hcell]
    rfl

theorem name_spec (hscoped : (Expr.name tag ident).Scoped r owner arity visible)
    (hcovers : cells.Covers r.functions owner arity visible)
    (hslots : ∀ {b cell}, cells.find b = .ok cell → cell ∈ slots) :
    ∃ ss, ExpressionSpec r cells slots (.name tag ident) ss := by
  obtain ⟨b, hb, hin⟩ := hscoped
  by_cases hfun : b.isFunction = true
  · cases b with
    | function decl =>
      refine ⟨[.push (.function decl)], expression_function hb, ?_, fun _ => expression_function hb⟩
      exact List.forall_mem_singleton.2 hin
    | parameter scope index => cases hfun
    | «local» decl => cases hfun
  · rw [Bool.not_eq_true] at hfun
    obtain ⟨cell, hcell⟩ := hcovers b hin hfun
    refine ⟨[.load cell], expression_cell hb hfun hcell, ?_,
      fun hext => expression_cell hb hfun (hext hcell)⟩
    exact List.forall_mem_singleton.2 (hslots hcell)

mutual

theorem expression_spec (hcovers : cells.Covers r.functions owner arity visible)
    (hslots : ∀ {b cell}, cells.find b = .ok cell → cell ∈ slots) {e : Expr} {ty : Ty} :
    HasType r e ty → e.Scoped r owner arity visible → ∃ ss, ExpressionSpec r cells slots e ss
  | .int, _ => ⟨_, rfl, by simp [Linear.Fits], fun _ => rfl⟩
  | .string, _ => ⟨_, rfl, by simp [Linear.Fits], fun _ => rfl⟩
  | .function _ _, hscoped => name_spec hscoped hcovers hslots
  | .parameter _ _ _, hscoped => name_spec hscoped hcovers hslots
  | .cell _ _, hscoped => name_spec hscoped hcovers hslots
  | @HasType.call _ _ _ args _ _ _ hcallee hargs, hscoped => by
    obtain ⟨ss, hss, hfits, hext⟩ := expressions_spec hcovers hslots hargs hscoped.1
    obtain ⟨ss', hss', hfits', hext'⟩ := expression_spec hcovers hslots hcallee hscoped.2
    refine ⟨ss ++ ss' ++ [.call args.length], ?_, ?_, fun h => ?_⟩
    · simp only [expression, hss, hss']
      rfl
    · exact List.forall_mem_append.2 ⟨List.forall_mem_append.2 ⟨hfits, hfits'⟩,
        List.forall_mem_singleton.2 trivial⟩
    · simp only [expression, hext h, hext' h]
      rfl
  | @HasType.unary _ _ op _ hoperand, hscoped => by
    obtain ⟨ss, hss, hfits, hext⟩ := expression_spec hcovers hslots hoperand hscoped
    cases op with
    | negate =>
      refine ⟨.push (.int 0) :: ss ++ [.binary .sub], ?_, ?_, fun h => ?_⟩
      · simp only [expression, hss]
        rfl
      · simpa [Linear.Fits, or_imp, forall_and] using hfits
      · simp only [expression, hext h]
        rfl
    | not =>
      refine ⟨ss ++ [.push (.int 0), .binary .eq], ?_, ?_, fun h => ?_⟩
      · simp only [expression, hss]
        rfl
      · simpa [Linear.Fits, or_imp, forall_and] using hfits
      · simp only [expression, hext h]
        rfl
  | @HasType.binary _ _ op _ _ hl hr, hscoped => by
    obtain ⟨ss, hss, hfits, hext⟩ := expression_spec hcovers hslots hl hscoped.1
    obtain ⟨ss', hss', hfits', hext'⟩ := expression_spec hcovers hslots hr hscoped.2
    refine ⟨ss ++ ss' ++ [.binary op], ?_, ?_, fun h => ?_⟩
    · simp only [expression, hss, hss']
      rfl
    · exact List.forall_mem_append.2 ⟨List.forall_mem_append.2 ⟨hfits, hfits'⟩,
        List.forall_mem_singleton.2 trivial⟩
    · simp only [expression, hext h, hext' h]
      rfl

/-- Well typed arguments have statements that compute them. -/
theorem expressions_spec (hcovers : cells.Covers r.functions owner arity visible)
    (hslots : ∀ {b cell}, cells.find b = .ok cell → cell ∈ slots) {args : List Expr}
    {params : List Ty} : ArgumentsFit r args params → Expr.AllScoped r owner arity visible args →
      ∃ ss, ExpressionsSpec r cells slots args ss
  | .nil, _ => ⟨_, rfl, by simp, fun _ => rfl⟩
  | .cons harg _ hrest, hscoped => by
    obtain ⟨ss, hss, hfits, hext⟩ := expression_spec hcovers hslots harg hscoped.1
    obtain ⟨ss', hss', hfits', hext'⟩ := expressions_spec hcovers hslots hrest hscoped.2
    refine ⟨ss ++ ss', ?_, ?_, fun h => ?_⟩
    · simp only [expressions, hss, hss']
      rfl
    · exact List.forall_mem_append.2 ⟨hfits, hfits'⟩
    · simp only [expressions, hext h, hext' h]
      rfl

end

end

/-! ## Statements -/

section

variable (r : Resolutions) (code : BlockId → Option Code) (cells : Cells)

mutual

/-- A statement is found in a graph between two pieces of code. Blocks are given by `code`, cells by
`cells`, and `exit?` is the block after the innermost loop around the statement. -/
def Compiled (exit? : Option BlockId) : Stmt → Code → Code → Prop
  | .error _, _, _ => False
  | .function _ _, k, k' => k = k'
  | .declare _ _ _ none, k, k' => k = k'
  | .declare tag _ _ (some value), k, k' =>
    ∃ ss cell, expression r cells value = .ok ss ∧ cells.find (.local tag.id) = .ok cell ∧
      k = Code.before (ss ++ [.store cell]) k'
  | .loop _ body, k, k' =>
    ∃ inside exit kin, k = ([], .goto inside) ∧ code inside = some kin ∧ code exit = some k' ∧
      CompiledBlock (some exit) body kin ([], .goto inside)
  | .while _ condition body, k, k' =>
    ∃ test inside exit ss kin, k = ([], .goto test) ∧
      code test = some (ss, .branch inside exit) ∧ expression r cells condition = .ok ss ∧
      code inside = some kin ∧ code exit = some k' ∧
      CompiledBlock (some exit) body kin ([], .goto test)
  | .choose _ condition truthy falsy, k, k' =>
    ∃ onTrue onFalse exit ss kt kf, k = (ss, .branch onTrue onFalse) ∧
      expression r cells condition = .ok ss ∧ code onTrue = some kt ∧ code onFalse = some kf ∧
      code exit = some k' ∧ CompiledBlock exit? truthy kt ([], .goto exit) ∧
      CompiledOption exit? falsy kf ([], .goto exit) k'
  | .return _ none, k, _ => k = ([], .goto Build.exitBlock)
  | .return _ (some value), k, _ =>
    ∃ ss, expression r cells value = .ok ss ∧
      k = (ss ++ [.store Build.resultCell], .goto Build.exitBlock)
  | .break _, k, _ => ∃ exit, exit? = some exit ∧ k = ([], .goto exit)
  | .assign _ subject value, k, k' =>
    ∃ tag ident ss b cell, subject = .name tag ident ∧ r.bindings.find? tag.id = some b ∧
      cells.find b = .ok cell ∧ expression r cells value = .ok ss ∧
      k = Code.before (ss ++ [.store cell]) k'
  | .eval _ e, k, k' => ∃ ss, expression r cells e = .ok ss ∧ k = Code.before (ss ++ [.pop]) k'

/-- A block is found in a graph between two pieces of code. -/
def CompiledBlock (exit? : Option BlockId) : WordLang.Block → Code → Code → Prop
  | ⟨_, list⟩, k, k' => CompiledList exit? list k k'

/-- A block is found in a graph between two pieces of code; if it is absent, what comes after it is
there right away. -/
def CompiledOption (exit? : Option BlockId) : Option WordLang.Block → Code → Code → Code → Prop
  | none, k, _, after => k = after
  | some b, k, k', _ => CompiledBlock exit? b k k'

/-- A list of statements is found in a graph between two pieces of code. -/
def CompiledList (exit? : Option BlockId) : List Stmt → Code → Code → Prop
  | [], k, k' => k = k'
  | s :: rest, k, k' => ∃ mid, Compiled exit? s k mid ∧ CompiledList exit? rest mid k'

end

end

end WordLang.Flow
