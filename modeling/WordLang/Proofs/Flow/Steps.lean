import WordLang.Flow.Build
import WordLang.Proofs.Tree.Within

/-!
# What holds of the steps that build a graph

A graph is built by few kinds of steps: blocks and cells are added, a block gets statements or is
closed, another block becomes the current one, and the type of a cell is asked for. What holds of
all these steps and of steps one after another holds of building a whole body.

## Main definitions

* `Flow.Build.Steps`: a property of steps that can be shown step by step

## Main results

* `Flow.Build.Steps.statement`, `Flow.Build.Steps.body`: such a property of statements and bodies
-/

namespace WordLang.Flow.Build

/-- The property `holds` of steps can be shown step by step, as long as all expressions are
`good`. -/
structure Steps (r : Resolutions) (good : Expr → Prop) (holds : {α : Type} → Build α → Prop) :
    Prop where
  pure : ∀ {α : Type} (v : α), holds (Pure.pure v)
  bind : ∀ {α β : Type} {x : Build α} {k : α → Build β}, holds x → (∀ v, holds (k v)) →
    holds (x >>= k)
  throw : ∀ {α : Type} (failure : Failure), holds (MonadExcept.throw failure : Build α)
  get : holds (MonadState.get : Build Builder)
  newBlock : holds newBlock
  continueAt : ∀ id, holds (continueAt id)
  terminate : ∀ id terminator, holds (terminate id terminator)
  setLoopExit : ∀ loop exit, holds (setLoopExit loop exit)
  newCell : ∀ decl type name, holds (newCell decl type name)
  store : ∀ cell, holds (emit [.store cell])
  drop : holds (emit [.pop])
  expression : ∀ e, good e → holds (expression r e)
  ofCell : ∀ id, holds (liftM (Query.ofCell r id) : Build Ty)

namespace Steps

variable {r : Resolutions} {good : Expr → Prop} {holds : {α : Type} → Build α → Prop}

theorem goto (h : Steps r good holds) (target : BlockId) : holds (goto target) :=
  h.bind h.get fun _ => h.terminate _ _

theorem loopExit (h : Steps r good holds) (id : StmtId) : holds (loopExit r id) := by
  refine h.bind h.get fun b => ?_
  cases (r.breakTargets.find? id).bind b.loopExits.find? with
  | some exit => exact h.pure exit
  | none => exact h.throw _

theorem subjectCell (h : Steps r good holds) (subject : Expr) : holds (subjectCell r subject) := by
  refine h.bind h.get fun b => ?_
  dsimp only
  cases bindingOf r subject >>= b.cells.find with
  | ok cell => exact h.pure cell
  | error failure => exact h.throw _

theorem declare (h : Steps r good holds) (tag : Tag) (ident : Ident) (type : Option TypeExpr)
    {value : Option Expr} (hvalue : ∀ e ∈ value, good e) :
    holds (statement r (.declare tag ident type value)) := by
  refine h.bind (h.ofCell tag.id) fun ty => ?_
  cases value with
  | none => exact h.bind (h.newCell _ _ _) fun _ => h.pure ()
  | some value =>
    exact h.bind (h.expression value (hvalue value rfl)) fun _ => h.bind (h.newCell _ _ _) fun _ =>
      h.store _

theorem leave (h : Steps r good holds) (target : BlockId) :
    holds (do Build.goto target; Build.continueAt (← Build.newBlock)) :=
  h.bind (h.goto target) fun _ => h.bind h.newBlock fun _ => h.continueAt _

mutual

/-- The property holds of what is done for a statement. -/
theorem statement (h : Steps r good holds) :
    ∀ s : Stmt, (∀ s' ∈ s.own, ∀ e ∈ s'.ownExprs, good e) → holds (Build.statement r s)
  | .error _, _ => h.throw _
  | .function _ _, _ => h.pure ()
  | .declare tag ident type value, hgood => by
    have hown := hgood _ (Stmt.mem_own _)
    exact h.declare tag ident type fun e he => hown e (by simpa [Stmt.ownExprs] using he)
  | .loop tag body, hgood => by
    have hbody := block h body fun s hs => hgood s (List.mem_cons_of_mem _ hs)
    refine h.bind h.newBlock fun inside => h.bind h.newBlock fun exit => ?_
    refine h.bind (h.goto _) fun _ => h.bind (h.setLoopExit _ _) fun _ => ?_
    refine h.bind (h.continueAt _) fun _ => h.bind hbody fun _ => ?_
    exact h.bind (h.goto _) fun _ => h.continueAt _
  | .while tag condition body, hgood => by
    have hcondition := h.expression condition (hgood _ (Stmt.mem_own _) _ List.mem_cons_self)
    have hbody := block h body fun s hs => hgood s (List.mem_cons_of_mem _ hs)
    refine h.bind h.newBlock fun test => h.bind (h.goto _) fun _ => ?_
    refine h.bind (h.continueAt _) fun _ => h.bind hcondition fun _ => ?_
    refine h.bind h.newBlock fun inside => h.bind h.newBlock fun exit => ?_
    refine h.bind (h.terminate _ _) fun _ => h.bind (h.setLoopExit _ _) fun _ => ?_
    refine h.bind (h.continueAt _) fun _ => h.bind hbody fun _ => ?_
    exact h.bind (h.goto _) fun _ => h.continueAt _
  | .choose _ condition truthy falsy, hgood => by
    have hcondition := h.expression condition (hgood _ (Stmt.mem_own _) _ List.mem_cons_self)
    have htruthy := block h truthy fun s hs =>
      hgood s (List.mem_cons_of_mem _ (List.mem_append_left _ hs))
    have hfalsy := alternative h falsy fun s hs =>
      hgood s (List.mem_cons_of_mem _ (List.mem_append_right _ hs))
    refine h.bind hcondition fun _ => h.bind h.get fun b => ?_
    refine h.bind h.newBlock fun start => h.bind (h.continueAt _) fun _ => ?_
    refine h.bind htruthy fun _ => h.bind h.get fun b' => h.bind hfalsy fun bounds => ?_
    refine h.bind h.newBlock fun exit => h.bind (h.terminate _ _) fun _ => ?_
    -- Without an alternative one end is left to be closed, with one there are two.
    cases bounds with
    | some bounds =>
      exact h.bind (h.terminate _ _) fun _ => h.bind (h.terminate _ _) fun _ => h.continueAt _
    | none => exact h.bind (h.terminate _ _) fun _ => h.continueAt _
  | .return _ value, hgood => by
    have hown := hgood _ (Stmt.mem_own _)
    cases value with
    | none => exact h.leave exitBlock
    | some value =>
      exact h.bind (h.expression value (hown value List.mem_cons_self)) fun _ =>
        h.bind (h.store _) fun _ => h.leave exitBlock
  | .break tag, _ => h.bind (h.loopExit tag.id) fun exit => h.leave exit
  | .assign _ subject value, hgood => by
    have hvalue := hgood _ (Stmt.mem_own _) value (List.mem_cons_of_mem _ List.mem_cons_self)
    exact h.bind (h.subjectCell subject) fun _ => h.bind (h.expression value hvalue) fun _ =>
      h.store _
  | .eval _ expr, hgood =>
    h.bind (h.expression expr (hgood _ (Stmt.mem_own _) _ List.mem_cons_self)) fun _ => h.drop

theorem block (h : Steps r good holds) : ∀ b : WordLang.Block,
    (∀ s ∈ Stmt.ownOfBlock b, ∀ e ∈ s.ownExprs, good e) → holds (Build.block r b)
  | ⟨_, list⟩, hgood => statements h list hgood

theorem alternative (h : Steps r good holds) : ∀ b : Option WordLang.Block,
    (∀ s ∈ Stmt.ownOfOption b, ∀ e ∈ s.ownExprs, good e) → holds (Build.alternative r b)
  | none, _ => h.pure none
  | some b, hgood => by
    refine h.bind h.newBlock fun start => h.bind (h.continueAt _) fun _ => ?_
    exact h.bind (block h b hgood) fun _ => h.bind h.get fun _ => h.pure _

theorem statements (h : Steps r good holds) : ∀ list : List Stmt,
    (∀ s ∈ Stmt.ownOfList list, ∀ e ∈ s.ownExprs, good e) → holds (Build.statements r list)
  | [], _ => h.pure ()
  | s :: rest, hgood =>
    h.bind (statement h s fun s' hs => hgood s' (List.mem_append_left _ hs)) fun _ =>
      statements h rest fun s' hs => hgood s' (List.mem_append_right _ hs)

end

/-- The property holds of what is done for a body. -/
theorem body (h : Steps r good holds) (b : WordLang.Block)
    (hgood : ∀ s ∈ Stmt.ownOfBlock b, ∀ e ∈ s.ownExprs, good e) : holds (Build.body r b) := by
  refine h.bind h.newBlock fun entry => h.bind h.newBlock fun exit => ?_
  refine h.bind (h.continueAt _) fun _ => h.bind (h.block b hgood) fun _ => ?_
  exact h.bind (h.goto _) fun _ => h.terminate _ _

end Steps

end WordLang.Flow.Build
