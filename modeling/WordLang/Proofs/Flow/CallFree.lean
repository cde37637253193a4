import WordLang.Proofs.Ensures
import WordLang.Proofs.Flow.Simplify
import WordLang.Proofs.Flow.Steps

/-!
# Graphs of functions without calls

The graph of a function whose body has no call has no statement that calls. Bodies of functions
within the function do not count: they have graphs of their own.

## Main definitions

* `Expr.CallFree`, `Block.CallFree`, `Flow.Function.CallFree`: no calls

## Main results

* `Flow.buildFunction_callFree`, `Flow.Function.CallFree.simplify`: the graph of a body without
  calls, and the simplified graph
-/

namespace WordLang

def Expr.isCall : Expr → Bool
  | .call _ _ _ => true
  | _ => false

/-- An expression without calls. -/
def Expr.CallFree (e : Expr) : Prop := ∀ e' ∈ e.all, e'.isCall = false

instance (e : Expr) : Decidable e.CallFree :=
  inferInstanceAs (Decidable (∀ e' ∈ e.all, e'.isCall = false))

/-- A block in which no expression has calls, apart from the bodies of functions within it. -/
def Block.CallFree (b : Block) : Prop :=
  ∀ s ∈ Stmt.ownOfBlock b, ∀ e ∈ s.ownExprs, e.CallFree

instance (b : Block) : Decidable b.CallFree :=
  inferInstanceAs (Decidable (∀ s ∈ Stmt.ownOfBlock b, ∀ e ∈ s.ownExprs, e.CallFree))

namespace Flow

def Statement.isCall : Statement → Bool
  | .call _ => true
  | _ => false

/-- A graph without calls. -/
def Function.CallFree (f : Function) : Prop :=
  ∀ b ∈ f.blocks, ∀ s ∈ b.statements, s.isCall = false

/-! ## Expressions -/

theorem expression_callFree {r : Resolutions} {cells : Cells} : ∀ {e : Expr} {ss : List Statement},
    expression r cells e = .ok ss → e.CallFree → ∀ s ∈ ss, s.isCall = false
  | .error _, _, h, _ => nomatch h
  | .int _ _, _, h, _ => by
    cases h
    simp [Statement.isCall]
  | .string _ _, _, h, _ => by
    cases h
    simp [Statement.isCall]
  | .name tag ident, ss, h, _ => by
    simp only [expression] at h
    obtain ⟨binding, -, h⟩ := exists_of_bind_eq_ok h
    cases binding with
    | function decl =>
      cases h
      simp [Statement.isCall]
    | _ =>
      obtain ⟨cell, -, h⟩ := exists_of_bind_eq_ok h
      cases h
      simp [Statement.isCall]
  | .call tag callee args, _, _, hfree => by
    have hcall := hfree (.call tag callee args) List.mem_cons_self
    cases hcall
  -- Unary operators become binary ones with a constant.
  | .unary tag op operand, ss, h, hfree => by
    have hoperand : operand.CallFree := fun e he => hfree e (List.mem_cons_of_mem _ he)
    cases op with
    | negate | not =>
      simp only [expression] at h
      obtain ⟨inner, hinner, h⟩ := exists_of_bind_eq_ok h
      cases h
      simpa [Statement.isCall, or_imp, forall_and] using expression_callFree hinner hoperand
  | .binary tag op lhs rhs, ss, h, hfree => by
    have hlhs : lhs.CallFree := fun e he =>
      hfree e (List.mem_cons_of_mem _ (List.mem_append_left _ he))
    have hrhs : rhs.CallFree := fun e he =>
      hfree e (List.mem_cons_of_mem _ (List.mem_append_right _ he))
    simp only [expression] at h
    obtain ⟨left, hleft, h⟩ := exists_of_bind_eq_ok h
    obtain ⟨right, hright, h⟩ := exists_of_bind_eq_ok h
    cases h
    exact List.forall_mem_append.2 ⟨List.forall_mem_append.2 ⟨expression_callFree hleft hlhs,
      expression_callFree hright hrhs⟩, List.forall_mem_singleton.2 rfl⟩

/-! ## Graphs -/

/-- An unfinished graph without calls. -/
def Builder.CallFree (b : Builder) : Prop :=
  ∀ block ∈ b.blocks, ∀ s ∈ block.statements, s.isCall = false

namespace Build

/-- A step that adds no calls to a graph. -/
def AddsNoCalls {α : Type} (x : Build α) : Prop :=
  ∀ b : Builder, b.CallFree → ∀ a : Answers, Ensures (x b) a (fun p _ => p.2.CallFree) fun _ => True

theorem addsNoCalls_bind {α β : Type} {x : Build α} {k : α → Build β} (hx : AddsNoCalls x)
    (hk : ∀ v, AddsNoCalls (k v)) : AddsNoCalls (x >>= k) :=
  fun b hb a => Ensures.bind_of (hx b hb a) fun p a' hp => hk p.1 p.2 hp a'

theorem addsNoCalls_get : AddsNoCalls (get : Build Builder) := fun _ hb _ => hb

theorem addsNoCalls_throw {α : Type} (failure : Failure) :
    AddsNoCalls (throw failure : Build α) := fun _ _ _ => trivial

theorem mem_insertBlock {block b : Flow.Block} {blocks : List Flow.Block}
    (h : b ∈ insertBlock block blocks) : b = block ∨ b ∈ blocks := by
  induction blocks with
  | nil => exact .inl (List.mem_singleton.1 h)
  | cons c blocks ih =>
    rw [insertBlock] at h
    split at h
    · exact List.mem_cons.1 h
    · split at h
      · exact (List.mem_cons.1 h).imp_right (List.mem_cons_of_mem _)
      · rcases List.mem_cons.1 h with rfl | h
        · exact .inr List.mem_cons_self
        · exact (ih h).imp_right (List.mem_cons_of_mem _)

theorem addsNoCalls_update (id : BlockId) {change : Flow.Block → Flow.Block}
    (hchange : ∀ block : Flow.Block, (∀ s ∈ block.statements, s.isCall = false) →
      ∀ s ∈ (change block).statements, s.isCall = false) : AddsNoCalls (update id change) := by
  intro b hb a
  show Ensures ((if id < b.blocks.length then set { b with blocks := b.blocks.modify id change }
    else throw (.internal (.missingBlock id)) : Build Unit) b) a _ _
  by_cases h : id < b.blocks.length
  · rw [if_pos h]
    refine Ensures.pure fun block hblock => ?_
    -- Every block is an old one at the same position, changed or not.
    obtain ⟨i, hi⟩ := List.mem_iff_getElem?.1 hblock
    rw [List.getElem?_modify] at hi
    obtain ⟨old, hold, rfl⟩ := Option.map_eq_some_iff.1 hi
    have hfree := hb old (List.mem_of_getElem? hold)
    split
    · exact hchange old hfree
    · exact hfree
  · rw [if_neg h]
    exact addsNoCalls_throw _ b hb a

theorem addsNoCalls_emit {ss : List Statement} (hss : ∀ s ∈ ss, s.isCall = false) :
    AddsNoCalls (emit ss) := by
  refine addsNoCalls_bind addsNoCalls_get fun b => addsNoCalls_update _ fun block hblock => ?_
  exact List.forall_mem_append.2 ⟨hblock, hss⟩

theorem addsNoCalls_expression (r : Resolutions) {e : Expr} (he : e.CallFree) :
    AddsNoCalls (expression r e) := by
  refine addsNoCalls_bind addsNoCalls_get fun b => ?_
  cases hss : Flow.expression r b.cells e with
  | ok ss => exact addsNoCalls_emit (expression_callFree hss he)
  | error failure => exact addsNoCalls_throw failure

theorem steps_addsNoCalls (r : Resolutions) : Steps r Expr.CallFree AddsNoCalls where
  pure _ _ hb _ := hb
  bind := addsNoCalls_bind
  throw := addsNoCalls_throw
  get := addsNoCalls_get
  newBlock b hb _ := by
    refine Ensures.pure fun block hblock => ?_
    rcases mem_insertBlock hblock with rfl | hblock
    · exact List.forall_mem_nil _
    · exact hb block hblock
  continueAt _ _ hb _ := hb
  terminate id terminator := addsNoCalls_update id fun _ hblock => hblock
  setLoopExit _ _ _ hb _ := hb
  newCell _ _ _ _ hb _ := hb
  store _ := addsNoCalls_emit (by simp [Statement.isCall])
  drop := addsNoCalls_emit (by simp [Statement.isCall])
  expression _ := addsNoCalls_expression r
  ofCell _ _ hb a := Ensures.bind ((Ensures.trivial _ a).mono (fun _ _ _ => hb) fun _ h => h)

end Build

/-- The graph of a function whose body has no calls has none. -/
theorem buildFunction_callFree {r : Resolutions} {id : StmtId} {decl : FnDecl}
    {body : WordLang.Block} (hdecl : r.function? id = some decl) (hbody : decl.body = some body)
    (hfree : body.CallFree) (a : Answers) :
    Ensures (buildFunction r id) a (fun f _ => f.CallFree) fun _ => True := by
  simp only [buildFunction, hdecl, hbody]
  refine Ensures.bind ((Ensures.trivial _ a).mono (fun ty a' _ => ?_) fun _ h => h)
  cases ty with
  | function _ params result =>
    -- Building starts without blocks.
    have hsteps := (Build.steps_addsNoCalls r).body body hfree
    refine Ensures.bind_of (hsteps _ (by simp [Builder.CallFree]) a') fun p a'' hp => ?_
    exact Ensures.pure hp
  | _ => exact Ensures.throw trivial

theorem Function.CallFree.simplify {f : Function} (h : f.CallFree) {P : Statement → Prop}
    (htidy : f.Tidy P) : f.simplify.CallFree := by
  have hfree : f.Tidy fun s => s.isCall = false := { htidy with statements := h }
  exact hfree.improves_simplify.tidy.statements

end Flow

end WordLang
