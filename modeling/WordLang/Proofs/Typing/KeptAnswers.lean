import WordLang.Proofs.Scope.Visibility
import WordLang.Proofs.Typing.Judgement

/-!
# Kept answers are the answers that are found anew

Types can be found without keeping any answer: the type of an expression by recursion, and that of
a storage cell from its declaration, where the types of further cells are followed to a given
depth. What is found at one depth is found at all greater ones. Answers that are kept are
consistent if they are found in this way at some depth, and if a cell that is kept as unknown has
no type at any depth, unless its type is being found. A question keeps answers consistent, whether
it succeeds or fails, and it succeeds exactly if there is an answer at some depth.

A cell whose type is being found is kept as unknown although it may have a type. It is only asked
for again if its own type depends on it; the type is then found at no depth, because at every depth
the cell would need its type at a smaller one.

Where names refer to what is in scope and the types of the cells in scope are found, a question
fails only because of types.

## Main definitions

* `Expr.type?`, `Resolutions.cellAt?`: types that are found without kept answers
* `Answers.Consistent`: kept answers that are in line with them
* `Answers.Grows`, `Answers.Knows`: later answers, and cells whose types are known
* `Resolutions.Site`: a place where questions are asked
* `Query.Finds`: a question that succeeds exactly if there is an answer, whatever is kept

## Main results

* `Query.ofExpr_finds`, `Query.ofCell_finds`, `Query.ofFunction_finds`, `Query.ofWritten_finds`: the
  questions
-/

namespace WordLang

variable {id : StmtId} {e : Expr} {ty : Ty}

def Failure.IsType (failure : Failure) : Prop := ∃ problem, failure = .type problem

theorem TypeProblem.isType_onLine (problem : TypeProblem) (line : Nat) :
    (problem.onLine line).IsType := ⟨_, rfl⟩

theorem Module.all_subset_exprs {m : Module} {s : Stmt} (hs : s ∈ m.statements)
    (he : e ∈ s.ownExprs) : e.all ⊆ m.exprs :=
  fun _ h => List.mem_flatMap.2 ⟨s, hs, List.mem_flatMap.2 ⟨e, he, h⟩⟩

theorem Module.typesWithin_subset_types {m : Module} {s : Stmt} {t : TypeExpr} (hs : s ∈ m.statements)
    (ht : t ∈ ownTypes s) : typesWithin t ⊆ m.types :=
  fun _ h => List.mem_flatMap.2 ⟨s, hs, List.mem_flatMap.2 ⟨t, ht, h⟩⟩

/-! ## Types without kept answers -/

/-- The types of the parameters and of the result of a function type. -/
def Ty.parts? : Ty → Option (List Ty × Ty)
  | .function _ params result => some (params, result)
  | _ => none

/-- Whether a storage cell may have a type. -/
def Ty.isStorable : Ty → Bool
  | .unknown => false
  | .void => false
  | _ => true

/-- The type of a storage cell from the type that it states and the type of its first value. It is
unknown if there are none. -/
def Ty.ofCell? : Option Ty → Option Ty → Option Ty
  | some stated, some source => if source.assignable stated then some stated else none
  | some stated, none => some stated
  | none, some source => some source
  | none, none => some .unknown

section

variable (r : Resolutions)

def Resolutions.paramType? (id : StmtId) (index : Nat) : Option Ty :=
  ((r.functionType? id).bind Ty.parts?).bind fun parts => parts.1[index]?

variable (cell : StmtId → Option Ty)

/-- The type of what a name refers to, where `cell` gives the types of storage cells. -/
def Binding.type? : Binding → Option Ty
  | .function decl => r.functionType? decl
  | .parameter owner index => r.paramType? owner index
  | .local decl => cell decl

mutual

/-- The type of an expression, where `cell` gives the types of storage cells. -/
def Expr.type? : Expr → Option Ty
  | .error _ => some .error
  | .int _ _ => some .int
  | .string _ _ => some (.pointer .str)
  | .name tag _ => (r.bindings.find? tag.id).bind (Binding.type? r cell)
  | .call _ callee args =>
    (Expr.type? callee).bind fun ty => ty.parts?.bind fun parts =>
      if parts.1.length = args.length then
        (Expr.argumentsFit? args parts.1).bind fun _ => some parts.2
      else none
  | .unary _ _ operand =>
    (Expr.type? operand).bind fun ty => if ty.assignable .int then some .int else none
  | .binary _ _ lhs rhs =>
    (Expr.type? lhs).bind fun left => (Expr.type? rhs).bind fun right =>
      if left.assignable .int then if right.assignable .int then some .int else none else none

def Expr.argumentsFit? : List Expr → List Ty → Option Unit
  | [], _ => some ()
  | _ :: _, [] => some ()
  | arg :: args, param :: params =>
    (Expr.type? arg).bind fun ty =>
      if ty.assignable param then Expr.argumentsFit? args params else none

end

def Stmt.cellType? : Stmt → Option Ty
  | .declare _ _ type value =>
    (type.mapM TypeExpr.meaning?).bind fun stated =>
      (value.mapM (Expr.type? r cell)).bind fun source =>
        (Ty.ofCell? stated source).filter Ty.isStorable
  | _ => none

end

/-- The type of a storage cell, where the types of other cells are followed to a depth below `d`. -/
def Resolutions.cellAt? (r : Resolutions) : Nat → StmtId → Option Ty
  | 0, _ => none
  | d + 1, id => (r.declarations.find? id).bind (Stmt.cellType? r (cellAt? r d))

def Expr.typeAt? (r : Resolutions) (e : Expr) (d : Nat) : Option Ty := e.type? r (r.cellAt? d)

/-! ## Depths -/

section

variable {α β : Type}

/-- What is found in the first case is found in the second too. -/
def FoundIn (o o' : Option α) : Prop := ∀ v, o = some v → o' = some v

theorem FoundIn.refl (o : Option α) : FoundIn o o := fun _ h => h

theorem FoundIn.bind {o o' : Option α} {k k' : α → Option β} (h : FoundIn o o')
    (hk : ∀ v, FoundIn (k v) (k' v)) : FoundIn (o.bind k) (o'.bind k') := by
  intro w hw
  obtain ⟨v, hv, hw⟩ := Option.bind_eq_some_iff.1 hw
  exact Option.bind_eq_some_iff.2 ⟨v, h v hv, hk v w hw⟩

theorem FoundIn.ite {c : Prop} [Decidable c] {o o' : Option α} (h : FoundIn o o') :
    FoundIn (if c then o else none) (if c then o' else none) := by
  split
  · exact h
  · exact .refl none

theorem FoundIn.mapM {f f' : α → Option β} (o : Option α) (h : ∀ a, FoundIn (f a) (f' a)) :
    FoundIn (o.mapM f) (o.mapM f') := by
  cases o with
  | none => exact .refl _
  | some a =>
    intro w hw
    obtain ⟨v, hv, rfl⟩ := Option.map_eq_some_iff.1 hw
    exact Option.map_eq_some_iff.2 ⟨v, h a v hv, rfl⟩

section

variable {r : Resolutions} {cell cell' : StmtId → Option Ty}

mutual

theorem Expr.foundIn_type? (h : ∀ id, FoundIn (cell id) (cell' id)) :
    ∀ e : Expr, FoundIn (e.type? r cell) (e.type? r cell')
  | .error _ => .refl _
  | .int _ _ => .refl _
  | .string _ _ => .refl _
  | .name tag _ => by
    refine (FoundIn.refl _).bind fun b => ?_
    cases b with
    | function decl => exact .refl _
    | parameter owner index => exact .refl _
    | «local» decl => exact h decl
  | .call _ callee args =>
    (foundIn_type? h callee).bind fun _ => (FoundIn.refl _).bind fun parts =>
      ((foundIn_argumentsFit? h args parts.1).bind fun _ => .refl _).ite
  | .unary _ _ operand => (foundIn_type? h operand).bind fun _ => .refl _
  | .binary _ _ lhs rhs =>
    (foundIn_type? h lhs).bind fun _ => (foundIn_type? h rhs).bind fun _ => .refl _

theorem Expr.foundIn_argumentsFit? (h : ∀ id, FoundIn (cell id) (cell' id)) :
    ∀ (args : List Expr) (params : List Ty),
      FoundIn (argumentsFit? r cell args params) (argumentsFit? r cell' args params)
  | [], _ => .refl _
  | _ :: _, [] => .refl _
  | arg :: args, _ :: params =>
    (foundIn_type? h arg).bind fun _ => (foundIn_argumentsFit? h args params).ite

end

theorem Stmt.foundIn_cellType? (h : ∀ id, FoundIn (cell id) (cell' id)) (s : Stmt) :
    FoundIn (s.cellType? r cell) (s.cellType? r cell') := by
  cases s with
  | declare tag ident type value =>
    exact (FoundIn.refl _).bind fun _ =>
      (FoundIn.mapM value fun e => e.foundIn_type? h).bind fun _ => .refl _
  | _ => exact .refl _

end

/-- What is found at some depth is found at the next one. -/
def Deepens (t : Nat → Option α) : Prop := ∀ d, FoundIn (t d) (t (d + 1))

namespace Deepens

variable {t : Nat → Option α} {u : α → Nat → Option β}

theorem const (o : Option α) : Deepens fun _ => o := fun _ => .refl o

theorem bind (ht : Deepens t) (hu : ∀ v, Deepens (u v)) :
    Deepens fun d => (t d).bind fun v => u v d :=
  fun d => (ht d).bind fun v => hu v d

theorem mono (ht : Deepens t) {d d' : Nat} (hle : d ≤ d') : FoundIn (t d) (t d') := by
  induction hle with
  | refl => exact .refl _
  | step _ ih => exact fun v hv => ht _ v (ih v hv)

theorem unique (ht : Deepens t) {d d' : Nat} {v v' : α} (h : t d = some v) (h' : t d' = some v') :
    v = v' := by
  have hv := ht.mono (Nat.le_max_left d d') v h
  have hv' := ht.mono (Nat.le_max_right d d') v' h'
  exact Option.some.inj (hv.symm.trans hv')

end Deepens

end

theorem Resolutions.deepens_cellAt? (r : Resolutions) (id : StmtId) :
    Deepens fun d => r.cellAt? d id := by
  intro d
  induction d generalizing id with
  | zero => exact fun v hv => nomatch hv
  | succ d ih => exact (FoundIn.refl _).bind fun s => s.foundIn_cellType? ih

/-! ## Consistent answers -/

/-- The type of a storage cell is known. -/
def Answers.Knows (a : Answers) (id : StmtId) : Prop :=
  ∃ ty, a.cells.find? id = some ty ∧ ty ≠ .unknown

/-- Later answers: what is known about functions and cells stays. -/
structure Answers.Grows (a a' : Answers) : Prop where
  functions : ∀ {id ty}, a.functions.find? id = some ty → a'.functions.find? id = some ty
  cells : ∀ {id ty}, ty ≠ .unknown → a.cells.find? id = some ty → a'.cells.find? id = some ty

namespace Answers

theorem Grows.refl (a : Answers) : a.Grows a := ⟨fun h => h, fun _ h => h⟩

theorem Grows.trans {a b c : Answers} (h : a.Grows b) (h' : b.Grows c) : a.Grows c :=
  ⟨fun hf => h'.functions (h.functions hf), fun hne hc => h'.cells hne (h.cells hne hc)⟩

theorem Knows.mono {a a' : Answers} (h : a.Knows id) (hg : a.Grows a') : a'.Knows id := by
  obtain ⟨ty, hty, hne⟩ := h
  exact ⟨ty, hg.cells hne hty, hne⟩

end Answers

/-- The kept answers are those that are found anew. The types of the cells `pending` are being
found. -/
structure Answers.Consistent (m : Module) (r : Resolutions) (pending : List StmtId) (a : Answers) :
    Prop where
  written : ∀ t ∈ m.types, ∀ {ty}, a.written.find? t.tag.id = some ty → t.meaning? = some ty
  functions : ∀ {id ty}, a.functions.find? id = some ty → r.functionType? id = some ty
  exprs : ∀ e ∈ m.exprsWithAttrs, ∀ {ty}, a.exprs.find? e.id = some ty →
    ∃ d, e.typeAt? r d = some ty
  cells : ∀ {id ty}, a.cells.find? id = some ty → ty ≠ .unknown → ∃ d, r.cellAt? d id = some ty
  /-- Cells that are kept as unknown have no type, unless it is being found. -/
  unknown : ∀ {id}, a.cells.find? id = some .unknown → id ∈ pending ∨ ∀ d, r.cellAt? d id = none
  /-- Cells whose types are being found are kept as unknown. -/
  pending : ∀ id ∈ pending, a.cells.find? id = some .unknown

namespace Answers

variable {m : Module} {r : Resolutions} {pending : List StmtId} {a : Answers}

theorem consistent_empty (m : Module) (r : Resolutions) : Consistent m r [] {} where
  written _ _ _ h := nomatch h
  functions h := nomatch h
  exprs _ _ _ h := nomatch h
  cells h := nomatch h
  unknown h := nomatch h
  pending _ h := nomatch h

theorem Consistent.begin (ha : a.Consistent m r pending) (id : StmtId) :
    Consistent m r (id :: pending) { a with cells := a.cells.insert id .unknown } where
  written := ha.written
  functions := ha.functions
  exprs := ha.exprs
  cells {d ty} h hne := by
    rw [Table.find?_insert] at h
    split at h
    · exact absurd (Option.some.inj h).symm hne
    · exact ha.cells h hne
  unknown {d} h := by
    rw [Table.find?_insert] at h
    split at h
    · next heq => exact .inl (heq ▸ List.mem_cons_self)
    · exact (ha.unknown h).imp_left (List.mem_cons_of_mem id)
  pending d hd := by
    rw [Table.find?_insert]
    split
    · rfl
    · next hne => exact ha.pending d ((List.mem_cons.1 hd).resolve_left hne)

theorem Consistent.finish (ha : a.Consistent m r (id :: pending))
    (hid : id ∉ pending) (hne : ty ≠ .unknown) (hty : ∃ d, r.cellAt? d id = some ty) :
    Consistent m r pending { a with cells := a.cells.insert id ty } where
  written := ha.written
  functions := ha.functions
  exprs := ha.exprs
  cells {d ty'} h hne' := by
    rw [Table.find?_insert] at h
    split at h
    · next heq =>
      cases h
      exact heq ▸ hty
    · exact ha.cells h hne'
  unknown {d} h := by
    rw [Table.find?_insert] at h
    split at h
    · exact absurd (Option.some.inj h) hne
    · next hd => exact (ha.unknown h).imp_left fun hmem => (List.mem_cons.1 hmem).resolve_left hd
  pending d hd := by
    have hne : d ≠ id := ne_of_mem_of_not_mem hd hid
    rw [Table.find?_insert, if_neg hne]
    exact ha.pending d (List.mem_cons_of_mem id hd)

/-- There is no type to be found for a cell; it stays unknown. -/
theorem Consistent.giveUp (ha : a.Consistent m r (id :: pending))
    (hnone : ∀ d, r.cellAt? d id = none) : a.Consistent m r pending where
  written := ha.written
  functions := ha.functions
  exprs := ha.exprs
  cells := ha.cells
  unknown {d} h := by
    rcases ha.unknown h with hmem | hno
    · rcases List.mem_cons.1 hmem with rfl | hmem
      · exact .inr hnone
      · exact .inl hmem
    · exact .inr hno
  pending d hd := ha.pending d (List.mem_cons_of_mem id hd)

end Answers

/-! ## Questions that find answers -/

section

variable {ε σ α β : Type}

/-- The computation `x`, started in the state `s`, ends with a value and a state that satisfy `ok`,
or with a failure and a state that satisfy `fails`. -/
def Leaves (x : EStateM ε σ α) (s : σ) (ok : α → σ → Prop) (fails : ε → σ → Prop) : Prop :=
  match x s with
  | .ok v s' => ok v s'
  | .error e s' => fails e s'

namespace Leaves

variable {x : EStateM ε σ α} {k : α → EStateM ε σ β} {s : σ} {fails : ε → σ → Prop}

theorem pure {ok : α → σ → Prop} {v : α} (h : ok v s) :
    Leaves (Pure.pure v : EStateM ε σ α) s ok fails := h

theorem throw {ok : α → σ → Prop} {e : ε} (h : fails e s) :
    Leaves (MonadExcept.throw e : EStateM ε σ α) s ok fails := h

theorem get_bind {k : σ → EStateM ε σ β} {ok : β → σ → Prop} (h : Leaves (k s) s ok fails) :
    Leaves (MonadState.get >>= k) s ok fails := h

theorem modify_bind {k : PUnit → EStateM ε σ β} {f : σ → σ} {ok : β → σ → Prop}
    (h : Leaves (k ⟨⟩) (f s) ok fails) : Leaves (modify f >>= k) s ok fails := h

theorem bind {ok : β → σ → Prop} (h : Leaves x s (fun v s' => Leaves (k v) s' ok fails) fails) :
    Leaves (x >>= k) s ok fails := by
  have hbind : (x >>= k) s = EStateM.bind x k s := rfl
  simp only [Leaves] at h
  rw [Leaves, hbind, EStateM.bind]
  cases hx : x s with
  | ok v s' =>
    rw [hx] at h
    exact h
  | error e s' =>
    rw [hx] at h
    exact h

theorem mono {ok ok' : α → σ → Prop} {fails' : ε → σ → Prop} (h : Leaves x s ok fails)
    (hok : ∀ v s', ok v s' → ok' v s') (hfails : ∀ e s', fails e s' → fails' e s') :
    Leaves x s ok' fails' := by
  simp only [Leaves] at h ⊢
  cases hx : x s with
  | ok v s' =>
    rw [hx] at h
    exact hok v s' h
  | error e s' =>
    rw [hx] at h
    exact hfails e s' h

theorem ensures {ok : α → σ → Prop} {fails' : ε → Prop} (h : Leaves x s ok fails)
    (hfails : ∀ e s', fails e s' → fails' e) : Ensures x s ok fails' := by
  simp only [Leaves, Ensures] at h ⊢
  cases hx : x s with
  | ok v s' =>
    rw [hx] at h
    exact h
  | error e s' =>
    rw [hx] at h
    exact hfails e s' h

end Leaves

end

/-- A cell whose type is being found has a type at the next depth only if `t` is found. -/
def Resolutions.Needs {α : Type} (r : Resolutions) (pending : List StmtId) (t : Nat → Option α) :
    Prop :=
  ∀ p ∈ pending, ∀ d, (r.cellAt? (d + 1) p).isSome → (t d).isSome

/-- A place in a function with a number of parameters where the types of the visible cells are
found. -/
structure Resolutions.Site (r : Resolutions) (owner : StmtId) (arity : Nat) (visible : List StmtId) :
    Prop where
  owner : ∃ decl, r.function? owner = some decl ∧ decl.params.length = arity
  visible : ∀ id ∈ visible, ∃ d ty, r.cellAt? d id = some ty

namespace Query

/-- With consistent answers, the question `x` succeeds exactly if `t` is found at some depth, with
what is found there, and it leaves consistent answers in any case. It is only asked if the cells
whose types are being found need it. If it is `sane`, it fails only because of types. -/
structure Finds {α : Type} (m : Module) (r : Resolutions) (pending : List StmtId) (sane : Prop)
    (x : Query α) (t : Nat → Option α) : Prop where
  /-- What is found at some depth is found at the next one. -/
  deepens : Deepens t
  leaves : r.Needs pending t → ∀ a : Answers, a.Consistent m r pending →
    Leaves x a (fun v a' => a'.Consistent m r pending ∧ a.Grows a' ∧ ∃ d, t d = some v)
      fun failure a' => a'.Consistent m r pending ∧ (∀ d, t d = none) ∧ (sane → failure.IsType)

section

variable {m : Module} {r : Resolutions} {pending : List StmtId} {sane : Prop} {α β : Type}

namespace Finds

variable {x : Query α} {t : Nat → Option α} {k : α → Query β} {u : α → Nat → Option β}

theorem of_eq {t' : Nat → Option α} (h : Finds m r pending sane x t) (heq : t = t') :
    Finds m r pending sane x t' := heq ▸ h

theorem under {sane' : Prop} (h : Finds m r pending sane x t) (hs : sane' → sane) :
    Finds m r pending sane' x t :=
  ⟨h.deepens, fun hneeds a ha => (h.leaves hneeds a ha).mono (fun _ _ h => h)
    fun _ _ ⟨ha', hnone, hfails⟩ => ⟨ha', hnone, fun h => hfails (hs h)⟩⟩

/-- What is found cannot fail. -/
theorem found {sane' : Prop} (h : Finds m r pending sane x t) (hs : sane' → ∃ d v, t d = some v) :
    Finds m r pending sane' x t := by
  refine ⟨h.deepens, fun hneeds a ha => (h.leaves hneeds a ha).mono (fun _ _ h => h) ?_⟩
  rintro failure a' ⟨ha', hnone, -⟩
  refine ⟨ha', hnone, fun h => ?_⟩
  obtain ⟨d, v, hv⟩ := hs h
  cases (hnone d).symm.trans hv

theorem pure (v : α) : Finds m r pending sane (Pure.pure v) fun _ => some v :=
  ⟨.const _, fun _ a ha => Leaves.pure ⟨ha, .refl a, 0, rfl⟩⟩

theorem throw {failure : Failure} (h : sane → failure.IsType) :
    Finds m r pending sane (MonadExcept.throw failure : Query α) fun _ => none :=
  ⟨.const _, fun _ _ ha => Leaves.throw ⟨ha, fun _ => rfl, h⟩⟩

theorem fail (problem : TypeProblem) (line : Nat) :
    Finds m r pending sane (Query.fail problem line : Query α) fun _ => none :=
  throw fun _ => TypeProblem.isType_onLine problem line

theorem fail_bind (problem : TypeProblem) (line : Nat) :
    Finds m r pending sane (Query.fail problem line >>= k) fun _ => none :=
  ⟨.const _, fun _ _ ha => Leaves.bind (Leaves.throw
    ⟨ha, fun _ => rfl, fun _ => TypeProblem.isType_onLine problem line⟩)⟩

/-- Questions one after another. What the second one needs may depend on the first answer, which is
the same at all depths. -/
theorem bind (hx : Finds m r pending sane x t)
    (hk : ∀ v, Finds m r pending (sane ∧ ∃ d, t d = some v) (k v) (u v)) :
    Finds m r pending sane (x >>= k) fun d => (t d).bind fun v => u v d := by
  refine ⟨hx.deepens.bind fun v => (hk v).deepens, fun hneeds a ha => ?_⟩
  -- A cell that needs both questions at some depth needs the second one for what the first one
  -- finds at this depth, and this is what it finds at any depth.
  have hneedsBoth : ∀ p ∈ pending, ∀ d, (r.cellAt? (d + 1) p).isSome →
      ∃ v, t d = some v ∧ (u v d).isSome := by
    intro p hp d hd
    obtain ⟨w, hw⟩ := Option.isSome_iff_exists.1 (hneeds p hp d hd)
    obtain ⟨v, hv, hw⟩ := Option.bind_eq_some_iff.1 hw
    exact ⟨v, hv, Option.isSome_iff_exists.2 ⟨w, hw⟩⟩
  have hneedsFirst : r.Needs pending t := by
    intro p hp d hd
    obtain ⟨v, hv, -⟩ := hneedsBoth p hp d hd
    exact Option.isSome_iff_exists.2 ⟨v, hv⟩
  refine Leaves.bind ((hx.leaves hneedsFirst a ha).mono ?_ ?_)
  · rintro v a' ⟨ha', hg, d, hv⟩
    have hneedsSecond : r.Needs pending (u v) := by
      intro p hp d' hd'
      obtain ⟨v', hv', hu⟩ := hneedsBoth p hp d' hd'
      obtain rfl := hx.deepens.unique hv hv'
      exact hu
    refine ((hk v).leaves hneedsSecond a' ha').mono ?_ ?_
    · rintro w a'' ⟨ha'', hg', d', hw⟩
      -- The two answers may be found at different depths; at the greater one both are.
      refine ⟨ha'', hg.trans hg', max d d', Option.bind_eq_some_iff.2 ⟨v, ?_, ?_⟩⟩
      · exact hx.deepens.mono (Nat.le_max_left d d') v hv
      · exact (hk v).deepens.mono (Nat.le_max_right d d') w hw
    · rintro failure a'' ⟨ha'', hnone, hfails⟩
      refine ⟨ha'', fun d' => Option.bind_eq_none_iff.2 fun v' hv' => ?_, fun h => hfails ⟨h, d, hv⟩⟩
      obtain rfl := hx.deepens.unique hv hv'
      exact hnone d'
  · rintro failure a' ⟨ha', hnone, hfails⟩
    refine ⟨ha', fun d => Option.bind_eq_none_iff.2 fun v hv => ?_, hfails⟩
    cases (hnone d).symm.trans hv

/-- An answer that is found is kept. -/
theorem keeping (hx : Finds m r pending sane x t) (keep : α → Answers → Answers)
    (hkeep : ∀ v d a, t d = some v → a.Consistent m r pending →
      (keep v a).Consistent m r pending ∧ a.Grows (keep v a)) :
    Finds m r pending sane (do let v ← x; modify (keep v); return v) t := by
  refine ⟨hx.deepens, fun hneeds a ha => ?_⟩
  refine Leaves.bind ((hx.leaves hneeds a ha).mono ?_ fun _ _ h => h)
  rintro v a' ⟨ha', hg, d, hv⟩
  obtain ⟨hkept, hg'⟩ := hkeep v d a' hv ha'
  exact Leaves.modify_bind (Leaves.pure ⟨hkept, hg.trans hg', d, hv⟩)

theorem mapM (o : Option α) {q : α → Query β} {t : α → Nat → Option β}
    (h : ∀ v ∈ o, Finds m r pending sane (q v) (t v)) :
    Finds m r pending sane (o.mapM q) fun d => o.mapM fun v => t v d := by
  cases o with
  | none => exact pure none
  | some v =>
    refine ((h v rfl).bind fun w => pure (some w)).of_eq ?_
    funext d
    exact (Option.map_eq_bind).symm

end Finds

theorem fits_bind_finds {x : Query α} {t : Nat → Option α} (problem : TypeProblem) (line : Nat)
    (source target : Ty) (hx : Finds m r pending sane x t) :
    Finds m r pending sane (fits problem line source target >>= fun _ => x)
      fun d => if source.assignable target then t d else none := by
  unfold fits
  by_cases h : source.assignable target = true
  · simp only [h, if_true]
    exact (Finds.pure ()).bind fun _ => hx.under fun h => h.1
  · simp only [h]
    exact Finds.fail_bind _ _

/-! ### Written types and functions -/

theorem kept_finds (hm : m.Clean) {t : TypeExpr} (ht : t ∈ m.types) {answer : Query Ty}
    (h : Finds m r pending sane answer fun _ => t.meaning?) :
    Finds m r pending sane (ofWritten.kept t answer) fun _ => t.meaning? := by
  refine ⟨h.deepens, fun hneeds a ha => Leaves.get_bind ?_⟩
  cases hkept : a.written.find? t.tag.id with
  | some ty => exact Leaves.pure ⟨ha, .refl a, 0, ha.written t ht hkept⟩
  | none =>
    refine (h.keeping _ fun ty d a' hty ha' => ?_).leaves hneeds a ha
    refine ⟨{ ha' with written := fun t' ht' ty' hfound => ?_ }, fun h => h, fun _ h => h⟩
    rw [Table.find?_insert] at hfound
    split at hfound
    · next hid =>
      -- No two written types have the same identifier.
      cases hfound
      obtain rfl := List.inj_on_of_nodup_map hm.typeIds ht' ht hid
      exact hty
    · exact ha'.written t' ht' hfound

theorem ofWritten_finds (hm : m.Clean) (t : TypeExpr) (ht : Module.typesWithin t ⊆ m.types) :
    Finds m r pending sane (ofWritten t) fun _ => t.meaning? := by
  induction t with
  | error tag =>
    -- A tree that was read without problems has no such types.
    have herr := hm.types (.error tag) (ht (List.mem_singleton.2 rfl))
    cases herr
  | void tag => exact kept_finds hm (ht (List.mem_singleton.2 rfl)) (.pure _)
  | named tag ident =>
    refine kept_finds hm (ht (List.mem_singleton.2 rfl)) ?_
    simp only [TypeExpr.meaning?]
    cases hname : Ty.ofName? ident.name with
    | some ty => exact .pure ty
    | none => exact .fail _ _
  | pointer tag target ih =>
    refine kept_finds hm (ht List.mem_cons_self) ?_
    have htarget := ih fun _ h => ht (List.mem_cons_of_mem _ h)
    refine (htarget.bind fun ty => .pure (Ty.pointer ty)).of_eq ?_
    funext d
    exact (Option.map_eq_bind).symm

theorem ofParams_finds (hm : m.Clean) (params : List Param)
    (hp : ∀ p ∈ params, Module.typesWithin p.type ⊆ m.types) :
    Finds m r pending sane (ofParams params) fun _ => Param.meanings? params := by
  induction params with
  | nil => exact .pure []
  | cons param rest ih =>
    exact (ofWritten_finds hm _ (hp param List.mem_cons_self)).bind fun ty =>
      ((ih fun p h => hp p (List.mem_cons_of_mem _ h)).under fun h => h.1).bind fun types =>
        .pure (ty :: types)

theorem ofFunction_finds (hm : m.Resolved r) (hs : sane → ∃ decl, r.function? id = some decl) :
    Finds m r pending sane (ofFunction r id) fun _ => r.functionType? id := by
  refine ⟨.const _, fun hneeds a ha => Leaves.get_bind ?_⟩
  cases hkept : a.functions.find? id with
  | some ty => exact Leaves.pure ⟨ha, .refl a, 0, ha.functions hkept⟩
  | none =>
    cases hfun : r.function? id with
    | none =>
      refine Leaves.throw ⟨ha, fun _ => by simp [Resolutions.functionType?, hfun], fun h => ?_⟩
      obtain ⟨decl, hdecl⟩ := hs h
      cases hfun.symm.trans hdecl
    | some decl =>
      obtain ⟨tag, hdecl⟩ := Resolutions.function?_eq_some.1 hfun
      have htypes : ∀ t ∈ decl.params.map Param.type ++ [decl.result],
          Module.typesWithin t ⊆ m.types :=
        fun t ht => Module.typesWithin_subset_types (hm.inScope.declared hdecl).1 ht
      have htype : Finds m r pending sane (do
          let params ← ofParams decl.params
          let result ← ofWritten decl.result
          return Ty.function id params result) fun _ => r.functionType? id := by
        refine ((ofParams_finds hm.clean _ fun p hp => ?_).bind fun params =>
          (ofWritten_finds hm.clean _ ?_).bind fun result => .pure (Ty.function id params result)).of_eq ?_
        · exact htypes _ (List.mem_append_left _ (List.mem_map_of_mem hp))
        · exact htypes _ (List.mem_append_right _ (List.mem_singleton.2 rfl))
        · funext d
          simp [Resolutions.functionType?, hfun]
      -- Putting the type together and keeping it are steps of one question, so they are regrouped.
      have hkeeping := htype.keeping
        (fun ty a => { a with functions := a.functions.insert id ty }) ?_
      · simp only [bind_assoc, pure_bind] at hkeeping
        exact hkeeping.leaves hneeds a ha
      · intro ty d a' hty ha'
        refine ⟨{ ha' with functions := fun {id' ty'} hfound => ?_ }, fun {id' ty'} hfound => ?_,
          fun _ h => h⟩
        · rw [Table.find?_insert] at hfound
          split at hfound
          · next heq =>
            cases hfound
            exact heq ▸ hty
          · exact ha'.functions hfound
        · rw [Table.find?_insert]
          split
          · next heq =>
            rw [heq] at hfound
            rw [← ha'.functions hfound, hty]
          · exact hfound

theorem ofParam_finds (hm : m.Resolved r) {index : Nat}
    (hs : sane → ∃ decl, r.function? id = some decl ∧ index < decl.params.length) :
    Finds m r pending sane (ofParam r id index) fun _ => r.paramType? id index := by
  have hfunction : Finds m r pending sane (ofFunction r id) fun _ => r.functionType? id :=
    ofFunction_finds hm fun h => (hs h).imp fun _ h => h.1
  refine (Finds.bind (u := fun ty _ => ty.parts?.bind fun parts => parts.1[index]?)
    hfunction fun ty => ?_).of_eq ?_
  · -- The type of a function has as many parameters as the function.
    have hrange : (sane ∧ ∃ _ : Nat, r.functionType? id = some ty) →
        ∃ params result, ty = .function id params result ∧ index < params.length := by
      rintro ⟨h, -, hty⟩
      obtain ⟨decl, hdecl, hindex⟩ := hs h
      obtain ⟨decl', params, result, hdecl', hparams, -, rfl⟩ :=
        Resolutions.functionType?_eq_some.1 hty
      obtain rfl := Option.some.inj (hdecl.symm.trans hdecl')
      exact ⟨params, result, rfl, (Param.plain_of_meanings? hparams).1.symm ▸ hindex⟩
    cases ty with
    | function decl params result =>
      simp only [Ty.parts?, Option.bind_some]
      cases hget : params[index]? with
      | some ty => exact .pure ty
      | none =>
        refine .throw fun h => ?_
        obtain ⟨_, _, heq, hlt⟩ := hrange h
        cases heq
        exact absurd (List.getElem?_eq_none_iff.1 hget) (Nat.not_le.2 hlt)
    | _ =>
      refine .throw fun h => ?_
      obtain ⟨_, _, heq, -⟩ := hrange h
      cases heq
  · funext d
    exact (Option.bind_assoc _ _ _).symm

/-! ### Expressions -/

section

variable {cell : StmtId → Query Ty} {owner : StmtId} {arity : Nat} {visible : List StmtId}

theorem keptExpr_finds (hm : m.Resolved r)
    (he : e ∈ m.exprsWithAttrs) {answer : Query Ty} (h : Finds m r pending sane answer (e.typeAt? r)) :
    Finds m r pending sane (keptExpr e.id answer) (e.typeAt? r) := by
  refine ⟨h.deepens, fun hneeds a ha => Leaves.get_bind ?_⟩
  cases hkept : a.exprs.find? e.id with
  | some ty => exact Leaves.pure ⟨ha, .refl a, ha.exprs e he hkept⟩
  | none =>
    refine (h.keeping _ fun ty d a' hty ha' => ?_).leaves hneeds a ha
    refine ⟨{ ha' with exprs := fun e' he' ty' hfound => ?_ }, fun h => h, fun _ h => h⟩
    rw [Table.find?_insert] at hfound
    split at hfound
    · next hid =>
      cases hfound
      obtain rfl := List.inj_on_of_nodup_map hm.ids he' he hid
      exact ⟨d, hty⟩
    · exact ha'.exprs e' he' hfound

mutual

theorem ofExprWith_finds (hm : m.Resolved r)
    (hcell : ∀ id, ∃ sane, Finds m r pending sane (cell id) fun d => r.cellAt? d id) :
    ∀ e : Expr, e.all ⊆ m.exprsWithAttrs →
      Finds m r pending (r.Site owner arity visible ∧ e.Scoped r owner arity visible)
        (ofExprWith r cell e) (e.typeAt? r)
  | .error tag, he => keptExpr_finds hm (he (List.mem_singleton.2 rfl)) (.pure _)
  | .int tag value, he => keptExpr_finds hm (he (List.mem_singleton.2 rfl)) (.pure _)
  | .string tag text, he => keptExpr_finds hm (he (List.mem_singleton.2 rfl)) (.pure _)
  | .name tag ident, he => by
    refine keptExpr_finds hm (he (List.mem_singleton.2 rfl)) ?_
    unfold Expr.typeAt? Expr.type?
    cases hb : r.bindings.find? tag.id with
    | none =>
      refine .throw fun ⟨_, b, hb', _⟩ => ?_
      cases hb.symm.trans hb'
    | some b =>
      have hin : (Expr.name tag ident).Scoped r owner arity visible →
          b.InScope r.functions owner arity visible := by
        rintro ⟨b', hb', hin⟩
        cases hb.symm.trans hb'
        exact hin
      cases b with
      | function decl =>
        refine ofFunction_finds hm fun h => ?_
        obtain ⟨tag', decl', -, hdecl, -⟩ := hm.inScope.function decl (hin h.2)
        exact ⟨decl', Resolutions.function?_eq_some.2 ⟨tag', hdecl⟩⟩
      | parameter owner' index =>
        refine ofParam_finds hm fun h => ?_
        obtain ⟨rfl, hindex⟩ := hin h.2
        obtain ⟨decl, hdecl, harity⟩ := h.1.owner
        exact ⟨decl, hdecl, harity.symm ▸ hindex⟩
      | «local» decl =>
        obtain ⟨sane, hfinds⟩ := hcell decl
        exact hfinds.found fun h => h.1.visible decl (hin h.2)
  | .call tag callee args, he => by
    refine keptExpr_finds hm (he List.mem_cons_self) ?_
    have hsub : callee.all ⊆ m.exprsWithAttrs ∧ Expr.allOfList args ⊆ m.exprsWithAttrs :=
      List.append_subset.1 fun _ h => he (List.mem_cons_of_mem _ h)
    -- The type of the callee says what the arguments have to be.
    have hcallee := ofExprWith_finds hm hcell callee hsub.1
    refine (hcallee.under fun h => ⟨h.1, h.2.2⟩).bind fun ty => ?_
    cases ty with
    | function decl params result =>
      simp only [Ty.parts?, Option.bind_some]
      by_cases hlen : params.length = args.length
      · simp only [ne_eq, hlen, not_true, if_false, if_true]
        have hargs := argumentsWith_finds hm hcell tag.line args params hsub.2
        exact (hargs.under fun h => ⟨h.1.1, h.1.2.1⟩).bind fun _ => .pure result
      · simp only [ne_eq, hlen, not_false_iff, if_true, if_false]
        exact .fail_bind _ _
    | _ => exact .fail _ _
  | .unary tag op operand, he => by
    refine keptExpr_finds hm (he List.mem_cons_self) ?_
    have hoperand := ofExprWith_finds hm hcell operand
      fun _ h => he (List.mem_cons_of_mem _ h)
    exact (hoperand.under fun h => h).bind fun ty => fits_bind_finds _ _ _ _ (.pure Ty.int)
  | .binary tag op lhs rhs, he => by
    refine keptExpr_finds hm (he List.mem_cons_self) ?_
    have hsub : lhs.all ⊆ m.exprsWithAttrs ∧ rhs.all ⊆ m.exprsWithAttrs :=
      List.append_subset.1 fun _ h => he (List.mem_cons_of_mem _ h)
    have hlhs := ofExprWith_finds hm hcell lhs hsub.1
    have hrhs := ofExprWith_finds hm hcell rhs hsub.2
    exact (hlhs.under fun h => ⟨h.1, h.2.1⟩).bind fun left =>
      (hrhs.under fun h => ⟨h.1.1, h.1.2.2⟩).bind fun right =>
        fits_bind_finds _ _ _ _ (fits_bind_finds _ _ _ _ (.pure Ty.int))

theorem argumentsWith_finds (hm : m.Resolved r)
    (hcell : ∀ id, ∃ sane, Finds m r pending sane (cell id) fun d => r.cellAt? d id) (line : Nat) :
    ∀ (args : List Expr) (params : List Ty), Expr.allOfList args ⊆ m.exprsWithAttrs →
      Finds m r pending (r.Site owner arity visible ∧ Expr.AllScoped r owner arity visible args)
        (argumentsWith r cell line args params)
        fun d => Expr.argumentsFit? r (r.cellAt? d) args params
  | [], _, _ => .pure ()
  | _ :: _, [], _ => .pure ()
  | arg :: args, param :: params, he => by
    have hsub : arg.all ⊆ m.exprsWithAttrs ∧ Expr.allOfList args ⊆ m.exprsWithAttrs :=
      List.append_subset.1 he
    have harg := ofExprWith_finds hm hcell arg hsub.1
    have hargs := argumentsWith_finds hm hcell line args params hsub.2
    exact (harg.under fun h => ⟨h.1, h.2.1⟩).bind fun ty =>
      fits_bind_finds _ _ _ _ (hargs.under fun h => ⟨h.1.1, h.1.2.2⟩)

end

/-! ### Storage cells -/

/-- The type of a storage cell from its declaration, where types of cells are found through at most
`n` cells. -/
def ofDeclaration (r : Resolutions) (n : Nat) (tag : Tag) (ident : Ident) (type : Option TypeExpr)
    (value : Option Expr) : Query Ty := do
  let stated ← type.mapM ofWritten
  let source ← value.mapM (ofExprWith r (ofCellWithin r n))
  let ty ← cellType tag.line stated source
  match ty with
  | .unknown => fail .notInferred tag.line
  | .void => fail (.voidCell ident.name) tag.line
  | ty => return ty

theorem ofCellWithin_of_declare {tag : Tag} {ident : Ident} {type : Option TypeExpr}
    {value : Option Expr} (hid : r.declarations.find? id = some (.declare tag ident type value))
    (n : Nat) {a : Answers} (hkept : a.cells.find? id = none) : ofCellWithin r (n + 1) id a = (do
      let ty ← ofDeclaration r n tag ident type value
      modify fun a => { a with cells := a.cells.insert id ty }
      return ty : Query Ty) { a with cells := a.cells.insert id .unknown } := by
  simp only [ofCellWithin, hid, run_get_bind, hkept, ofDeclaration, bind_assoc]
  refine congrArg (fun x : Query Ty => x.run { a with cells := a.cells.insert id .unknown })
    (bind_congr fun stated => bind_congr fun source => bind_congr fun ty => ?_)
  cases ty <;> rfl

theorem cellType_finds (line : Nat) (stated source : Option Ty) :
    Finds m r pending sane (cellType line stated source) fun _ => Ty.ofCell? stated source := by
  cases stated with
  | none =>
    cases source with
    | none => exact .pure _
    | some ty => exact .pure _
  | some stated =>
    cases source with
    | none => exact .pure _
    | some source => exact fits_bind_finds _ _ _ _ (.pure stated)

theorem ofDeclaration_finds (hm : m.Resolved r) {n : Nat} {tag : Tag} {ident : Ident} {type : Option TypeExpr}
    {value : Option Expr} (hmem : .declare tag ident type value ∈ m.statements)
    (hcell : ∀ id, ∃ sane, Finds m r pending sane (ofCellWithin r n id) fun d => r.cellAt? d id) :
    Finds m r pending (r.Site owner arity visible ∧ Expr.OptionScoped r owner arity visible value)
      (ofDeclaration r n tag ident type value) fun d =>
      (Stmt.declare tag ident type value).cellType? r (r.cellAt? d) := by
  have hstated : ∀ {sane}, Finds m r pending sane (type.mapM ofWritten)
      fun _ => type.mapM TypeExpr.meaning? :=
    .mapM type fun t ht => ofWritten_finds hm.clean t
      (Module.typesWithin_subset_types hmem (by simpa [Module.ownTypes] using ht))
  have hsource : Finds m r pending
      (r.Site owner arity visible ∧ Expr.OptionScoped r owner arity visible value)
      (value.mapM (ofExprWith r (ofCellWithin r n))) fun d => value.mapM fun e => e.typeAt? r d := by
    refine .mapM value fun e he => ?_
    cases he
    refine ofExprWith_finds hm hcell e fun _ h => ?_
    exact List.mem_append_left _ (Module.all_subset_exprs hmem (List.mem_singleton.2 rfl) h)
  refine (hstated.bind fun stated => (hsource.under fun h => h.1).bind fun source =>
    (cellType_finds tag.line stated source).bind (u := fun ty _ => Option.guard Ty.isStorable ty)
      fun ty => ?_).of_eq ?_
  · cases ty with
    | unknown => exact .fail _ _
    | void => exact .fail _ _
    | _ => exact .pure _
  · funext d
    simp only [Stmt.cellType?, Option.bind_guard]
    rfl

/-- There are no more cells whose types are being found than declarations. -/
theorem length_le_size_declarations (hnodup : pending.Nodup)
    (hdeclared : ∀ p ∈ pending, (r.declarations.find? p).isSome) :
    pending.length ≤ r.declarations.size := by
  have hkeys : pending ⊆ r.declarations.keys := fun p hp => Table.mem_keys_iff.2 (hdeclared p hp)
  have hlen := (hnodup.subperm hkeys).length_le
  simpa [Table.keys, Table.size] using hlen

theorem cellAt?_eq_none_of_needs (hid : id ∈ pending)
    (hneeds : r.Needs pending fun d => r.cellAt? d id) (d : Nat) : r.cellAt? d id = none := by
  induction d with
  | zero => rfl
  | succ d ih =>
    rw [← Option.not_isSome_iff_eq_none] at ih ⊢
    exact fun h => ih (hneeds id hid d h)

theorem cellAt?_eq_none
    (h : ∀ d, (r.declarations.find? id).bind (Stmt.cellType? r (r.cellAt? d)) = none) (d : Nat) :
    r.cellAt? d id = none := by
  cases d with
  | zero => rfl
  | succ d => exact h d

theorem needs_cons (hneeds : r.Needs pending fun d => r.cellAt? d id) :
    r.Needs (id :: pending) fun d => r.cellAt? (d + 1) id := by
  intro p hp d hd
  rcases List.mem_cons.1 hp with rfl | hp
  · exact hd
  · obtain ⟨ty, hty⟩ := Option.isSome_iff_exists.1 (hneeds p hp d hd)
    exact Option.isSome_iff_exists.2 ⟨ty, r.deepens_cellAt? id d ty hty⟩

theorem isStorable_of_cellAt? {d : Nat} (h : r.cellAt? d id = some ty) : ty.isStorable = true := by
  cases d with
  | zero => cases h
  | succ d =>
    obtain ⟨s, -, hs⟩ := Option.bind_eq_some_iff.1 h
    cases s with
    | declare tag ident type value =>
      obtain ⟨stated, -, hs⟩ := Option.bind_eq_some_iff.1 hs
      obtain ⟨source, -, hs⟩ := Option.bind_eq_some_iff.1 hs
      exact (Option.filter_eq_some_iff.1 hs).2
    | _ => cases hs

theorem ne_unknown_of_isStorable (h : ty.isStorable = true) : ty ≠ .unknown := by
  rintro rfl
  cases h

def CellScoped (r : Resolutions) (owner : StmtId) (arity : Nat) (visible : List StmtId) (id : StmtId) :
    Prop :=
  ∃ tag ident type value, r.declarations.find? id = some (.declare tag ident type value) ∧
    Expr.OptionScoped r owner arity visible value

/-- The type of a cell, where the cells whose types are being found are as many as were passed on
the way. -/
theorem ofCellWithin_finds (hm : m.Resolved r) (n : Nat) {pending : List StmtId} (hnodup : pending.Nodup)
    (hdeclared : ∀ p ∈ pending, (r.declarations.find? p).isSome)
    (hroom : n + pending.length = r.declarations.size + 1) (id : StmtId) :
    Finds m r pending (r.Site owner arity visible ∧ CellScoped r owner arity visible id)
      (ofCellWithin r n id) fun d => r.cellAt? d id := by
  induction n generalizing pending id with
  | zero =>
    -- More cells would have been passed than there are.
    have hle := length_le_size_declarations hnodup hdeclared
    omega
  | succ n ih =>
    refine ⟨r.deepens_cellAt? id, fun hneeds a ha => ?_⟩
    cases hid : r.declarations.find? id with
    | none =>
      simp only [ofCellWithin, hid]
      refine Leaves.throw ⟨ha, cellAt?_eq_none fun d => by rw [hid]; rfl, ?_⟩
      rintro ⟨-, _, _, _, _, hid', -⟩
      cases hid.symm.trans hid'
    | some s =>
      cases hkept : a.cells.find? id with
      | some ty =>
        simp only [ofCellWithin, hid]
        refine Leaves.get_bind ?_
        simp only [hkept]
        cases ty with
        | unknown =>
          -- Either the type is being found and now turns out to depend on itself, or it was given
          -- up earlier.
          refine Leaves.throw ⟨ha, ?_, fun _ => TypeProblem.isType_onLine _ _⟩
          rcases ha.unknown hkept with hmem | hnone
          · exact cellAt?_eq_none_of_needs hmem hneeds
          · exact hnone
        | _ => exact Leaves.pure ⟨ha, .refl a, ha.cells hkept (by simp)⟩
      | none =>
        cases s with
        | declare tag ident type value =>
          have hnew : id ∉ pending := fun hmem => by
            rw [ha.pending id hmem] at hkept
            cases hkept
          have hcells : ∀ id', ∃ sane, Finds m r (id :: pending) sane (ofCellWithin r n id')
              fun d => r.cellAt? d id' := by
            refine fun id' => ⟨_, ih (hnodup.cons hnew)
              (List.forall_mem_cons.2 ⟨by rw [hid]; rfl, hdeclared⟩) ?_ id'⟩
            rw [List.length_cons]
            omega
          have hnext : ∀ d, (Stmt.declare tag ident type value).cellType? r (r.cellAt? d) =
              r.cellAt? (d + 1) id := by
            intro d
            rw [Resolutions.cellAt?, hid]
            rfl
          have hfinds : Finds m r (id :: pending)
              (r.Site owner arity visible ∧ Expr.OptionScoped r owner arity visible value)
              (ofDeclaration r n tag ident type value) fun d => r.cellAt? (d + 1) id :=
            (ofDeclaration_finds hm (hm.inScope.declared hid).1 hcells).of_eq (funext hnext)
          -- Between the two steps the cell is kept as unknown; a failure leaves it so.
          simp only [Leaves, ofCellWithin_of_declare hid n hkept]
          refine Leaves.bind ((hfinds.leaves (needs_cons hneeds) _ (ha.begin id)).mono ?_ ?_)
          · rintro ty a' ⟨ha', hg, d, hty⟩
            have hne := ne_unknown_of_isStorable (isStorable_of_cellAt? hty)
            refine Leaves.modify_bind (Leaves.pure
              ⟨ha'.finish hnew hne ⟨d + 1, hty⟩, ⟨hg.functions, ?_⟩, d + 1, hty⟩)
            intro id' ty' hne' hfound
            have hother : id' ≠ id := by
              rintro rfl
              cases hkept.symm.trans hfound
            refine (Table.find?_insert_of_ne hother _ _).trans (hg.cells hne' ?_)
            exact (Table.find?_insert_of_ne hother _ _).trans hfound
          · rintro failure a' ⟨ha', hnone, hfails⟩
            have hno := cellAt?_eq_none hnone
            refine ⟨ha'.giveUp hno, hno, fun ⟨hsite, hscoped⟩ => hfails ⟨hsite, ?_⟩⟩
            obtain ⟨_, _, _, _, hid', hvalue⟩ := hscoped
            cases hid.symm.trans hid'
            exact hvalue
        | _ =>
          simp only [ofCellWithin, hid]
          refine Leaves.get_bind ?_
          simp only [hkept]
          refine Leaves.throw ⟨ha, cellAt?_eq_none fun d => by rw [hid]; rfl, ?_⟩
          rintro ⟨-, _, _, _, _, hid', -⟩
          cases hid.symm.trans hid'

/-- The type of a cell. -/
theorem ofCell_finds (hm : m.Resolved r) (id : StmtId) :
    Finds m r [] (r.Site owner arity visible ∧ CellScoped r owner arity visible id) (ofCell r id)
      fun d => r.cellAt? d id :=
  ofCellWithin_finds hm _ List.nodup_nil (fun _ h => nomatch h) rfl id

/-- The type of an expression. -/
theorem ofExpr_finds (hm : m.Resolved r) (he : e.all ⊆ m.exprsWithAttrs) :
    Finds m r [] (r.Site owner arity visible ∧ e.Scoped r owner arity visible) (ofExpr r e)
      (e.typeAt? r) :=
  ofExprWith_finds hm (fun id => ⟨_, @ofCell_finds m r 0 0 [] hm id⟩) e he

end

end

end Query

end WordLang
