import WordLang.Proofs.Flow.Steps
import WordLang.Proofs.Typing.Check

/-!
# Kept answers do not show

A program can be checked, the types of its parts can be asked for and the graphs of its functions
can be built, in any order and any number of times. All these questions use the answers that were
kept for earlier ones, those of questions that failed included. Nevertheless every question gets
the reply that it gets when it is the first one.

## Main definitions

* `Query.Transparent`: a question whose reply does not depend on the answers that are kept
* `Question`, `Question.askAll`: what can be asked about a program, and questions one after another

## Main results

* `Query.checkProgram_transparent`, `Flow.buildFunction_transparent`: the check and the graphs
* `Question.askAll_eq_map_ask`: every question gets the reply that it gets when it is asked first
-/

namespace WordLang

namespace Query

def Transparent {α : Type} (m : Module) (r : Resolutions) (x : Query α) : Prop :=
  ∃ reply : Option α, ∀ a : Answers, a.Consistent m r [] →
    Leaves x a (fun v a' => a'.Consistent m r [] ∧ reply = some v)
      fun _ a' => a'.Consistent m r [] ∧ reply = none

section

variable {m : Module} {r : Resolutions} {α β : Type} {x : Query α} {k : α → Query β}

theorem Finds.transparent {sane : Prop} {t : Nat → Option α} (h : Finds m r [] sane x t) :
    Transparent m r x := by
  -- No cell's type is being found, so nothing has to be needed.
  have hneeds : r.Needs [] t := fun _ hp => nomatch hp
  by_cases hfound : ∃ d v, t d = some v
  · obtain ⟨d, v, hv⟩ := hfound
    refine ⟨some v, fun a ha => (h.leaves hneeds a ha).mono ?_ ?_⟩
    · rintro v' a' ⟨ha', -, d', hv'⟩
      exact ⟨ha', congrArg some (h.deepens.unique hv hv')⟩
    · rintro failure a' ⟨-, hnone, -⟩
      exact nomatch hv.symm.trans (hnone d)
  · refine ⟨none, fun a ha => (h.leaves hneeds a ha).mono ?_ fun _ a' h => ⟨h.1, rfl⟩⟩
    rintro v a' ⟨-, -, d, hv⟩
    exact (hfound ⟨d, v, hv⟩).elim

namespace Transparent

theorem pure (v : α) : Transparent m r (Pure.pure v) :=
  ⟨some v, fun _ ha => Leaves.pure ⟨ha, rfl⟩⟩

theorem throw (failure : Failure) : Transparent m r (MonadExcept.throw failure : Query α) :=
  ⟨none, fun _ ha => Leaves.throw ⟨ha, rfl⟩⟩

theorem bind (hx : Transparent m r x) (hk : ∀ v, Transparent m r (k v)) :
    Transparent m r (x >>= k) := by
  obtain ⟨reply, hx⟩ := hx
  -- The replies of the second question must not depend on the answers kept by the first.
  choose replies hk using hk
  refine ⟨reply.bind replies, fun a ha => Leaves.bind ((hx a ha).mono ?_ ?_)⟩
  · rintro v a' ⟨ha', rfl⟩
    exact hk v a' ha'
  · rintro failure a' ⟨ha', rfl⟩
    exact ⟨ha', rfl⟩

theorem throw_bind (failure : Failure) :
    Transparent m r ((MonadExcept.throw failure : Query α) >>= k) :=
  ⟨none, fun _ ha => Leaves.bind (Leaves.throw ⟨ha, rfl⟩)⟩

end Transparent

section

variable (hm : m.Resolved r)
include hm

theorem transparent_ofFunction (id : StmtId) : Transparent m r (ofFunction r id) := by
  have hfinds : Finds m r [] False (ofFunction r id) fun _ => r.functionType? id :=
    ofFunction_finds hm fun h => h.elim
  exact hfinds.transparent

theorem transparent_ofParam (id : StmtId) (index : Nat) : Transparent m r (ofParam r id index) := by
  have hfinds : Finds m r [] False (ofParam r id index) fun _ => r.paramType? id index :=
    ofParam_finds hm fun h => h.elim
  exact hfinds.transparent

theorem transparent_ofCell (id : StmtId) : Transparent m r (ofCell r id) :=
  (@ofCell_finds m r 0 0 [] hm id).transparent

end

/-- The check passes exactly the programs that are well typed, whatever is kept. -/
theorem checkProgram_transparent (hm : m.Resolved r) : Transparent m r (checkProgram r m) := by
  by_cases htyped : m.WellTyped r
  · refine ⟨some (), fun a ha => (checkProgram_meets hm a ha).mono (fun _ _ h => ⟨h.1, rfl⟩) ?_⟩
    rintro failure a' ⟨-, -, hnot⟩
    exact (hnot htyped).elim
  · refine ⟨none, fun a ha => (checkProgram_meets hm a ha).mono ?_ fun _ _ h => ⟨h.1, rfl⟩⟩
    rintro _ a' ⟨-, -, hitems, hchecked⟩
    exact (htyped (hm.clean.wellTyped hm.inScope hitems hchecked)).elim

end

end Query

/-! ## Graphs -/

namespace Flow

/-- From every unfinished graph, the step is transparent. -/
def Build.Transparent {α : Type} (m : Module) (r : Resolutions) (x : Build α) : Prop :=
  ∀ b : Builder, Query.Transparent m r (x.run b)

namespace Build

variable {m : Module} {r : Resolutions}

theorem transparent_modifyGet {α : Type} (f : Builder → α × Builder) :
    Transparent m r (modifyGet f : Build α) := fun _ => .pure _

theorem transparent_throw {α : Type} (failure : Failure) :
    Transparent m r (MonadExcept.throw failure : Build α) :=
  fun b => .throw_bind (k := fun v => Pure.pure (v, b)) failure

theorem transparent_bind {α β : Type} {x : Build α} {k : α → Build β} (hx : Transparent m r x)
    (hk : ∀ v, Transparent m r (k v)) : Transparent m r (x >>= k) :=
  fun b => (hx b).bind fun p => hk p.1 p.2

theorem transparent_update (id : BlockId) (change : Flow.Block → Flow.Block) :
    Transparent m r (update id change) := by
  refine transparent_bind (fun b => .pure (b, b)) fun b => ?_
  by_cases h : id < b.blocks.length
  · rw [if_pos h]
    exact fun _ => .pure _
  · rw [if_neg h]
    exact transparent_throw _

theorem transparent_emit (statements : List Statement) : Transparent m r (emit statements) :=
  transparent_bind (fun b => .pure (b, b)) fun _ => transparent_update _ _

theorem steps_transparent (hm : m.Resolved r) : Steps r (fun _ => True) (Transparent m r) where
  pure _ _ := .pure _
  bind := transparent_bind
  throw := transparent_throw
  get b := .pure (b, b)
  newBlock := transparent_modifyGet _
  continueAt _ := transparent_modifyGet _
  terminate _ _ := transparent_update _ _
  setLoopExit _ _ := transparent_modifyGet _
  newCell _ _ _ := transparent_modifyGet _
  store _ := transparent_emit _
  drop := transparent_emit _
  -- The statements of an expression come from the names alone, not from types.
  expression e _ := by
    refine transparent_bind (fun b => .pure (b, b)) fun b => ?_
    cases Flow.expression r b.cells e with
    | ok statements => exact transparent_emit statements
    | error failure => exact transparent_throw _
  ofCell id _ := (Query.transparent_ofCell hm id).bind fun _ => .pure _

end Build

theorem buildFunction_transparent {m : Module} {r : Resolutions} (hm : m.Resolved r) (id : StmtId) :
    (buildFunction r id).Transparent m r := by
  unfold buildFunction
  cases r.function? id with
  | none => exact .throw _
  | some decl =>
    dsimp only
    cases decl.body with
    | none => exact .throw _
    | some b =>
      refine (Query.transparent_ofFunction hm id).bind fun ty => ?_
      cases ty with
      | function _ params result =>
        have hbody := (Build.steps_transparent hm).body b fun _ _ _ _ => trivial
        exact (hbody _).bind fun _ => .pure _
      | _ => exact .throw _

end Flow

/-! ## Questions one after another -/

/-- What can be asked about a program. -/
inductive Question where
  | program
  | function (id : StmtId)
  | cell (id : StmtId)
  | param (id : StmtId) (index : Nat)
  | expr (e : Expr)
  | written (t : TypeExpr)
  | graph (id : StmtId)

/-- What questions are answered with. -/
inductive Reply where
  | passed
  | type (ty : Ty)
  | graph (f : Flow.Function)

namespace Question

/-- The expressions and written types that are asked about are those of the program. -/
def About (m : Module) : Question → Prop
  | .expr e => e ∈ m.exprsWithAttrs
  | .written t => t ∈ m.types
  | _ => True

/-- Asks a question. -/
def ask (m : Module) (r : Resolutions) : Question → Query Reply
  | .program => (fun _ => .passed) <$> Query.checkProgram r m
  | .function id => .type <$> Query.ofFunction r id
  | .cell id => .type <$> Query.ofCell r id
  | .param id index => .type <$> Query.ofParam r id index
  | .expr e => .type <$> Query.ofExpr r e
  | .written t => .type <$> Query.ofWritten t
  | .graph id => .graph <$> Flow.buildFunction r id

/-- Asks questions one after another. Every question finds the answers that were kept for the
earlier ones, whether these succeeded or failed. -/
def askAll (m : Module) (r : Resolutions) : List Question → Answers → List (Except Failure Reply)
  | [], _ => []
  | q :: rest, a =>
    match (q.ask m r).run a with
    | .ok reply a' => .ok reply :: askAll m r rest a'
    | .error failure a' => .error failure :: askAll m r rest a'

end Question

theorem Module.all_subset_exprsWithAttrs {m : Module} {e : Expr} (he : e ∈ m.exprsWithAttrs) :
    e.all ⊆ m.exprsWithAttrs := by
  intro e' he'
  rcases List.mem_append.1 he with he | he
  · obtain ⟨s, hs, he⟩ := List.mem_flatMap.1 he
    obtain ⟨f, hf, he⟩ := List.mem_flatMap.1 he
    exact List.mem_append_left _ (Module.all_subset_exprs hs hf (f.all_subset_all he he'))
  · obtain ⟨s, hs, he⟩ := List.mem_flatMap.1 he
    obtain ⟨attr, hattr, he⟩ := List.mem_flatMap.1 he
    have hwithin := Expr.all_subset_allOfList _ he he'
    exact List.mem_append_right _
      (List.mem_flatMap.2 ⟨s, hs, List.mem_flatMap.2 ⟨attr, hattr, hwithin⟩⟩)

theorem Module.typesWithin_subset_typesWithin (t : TypeExpr) {t' : TypeExpr}
    (h : t' ∈ typesWithin t) : typesWithin t' ⊆ typesWithin t := by
  induction t with
  | pointer tag target ih =>
    rcases List.mem_cons.1 h with rfl | h
    · exact List.Subset.refl _
    · exact List.subset_cons_of_subset _ (ih h)
  | _ =>
    rw [List.mem_singleton.1 h]
    exact List.Subset.refl _

namespace Question

variable {m : Module} {r : Resolutions}

theorem ask_transparent (hm : m.Resolved r) {q : Question} (hq : q.About m) : (q.ask m r).Transparent m r := by
  cases q with
  | program => exact (Query.checkProgram_transparent hm).bind fun _ => .pure _
  | function id => exact (Query.transparent_ofFunction hm id).bind fun _ => .pure _
  | cell id => exact (Query.transparent_ofCell hm id).bind fun _ => .pure _
  | param id index => exact (Query.transparent_ofParam hm id index).bind fun _ => .pure _
  | expr e =>
    have he := Module.all_subset_exprsWithAttrs hq
    have hfinds := @Query.ofExpr_finds e m r 0 0 [] hm he
    exact hfinds.transparent.bind fun _ => .pure _
  | written t =>
    obtain ⟨s, hs, ht⟩ := List.mem_flatMap.1 hq
    obtain ⟨u, hu, ht⟩ := List.mem_flatMap.1 ht
    have hsub := List.Subset.trans (Module.typesWithin_subset_typesWithin u ht)
      (Module.typesWithin_subset_types hs hu)
    have hfinds : Query.Finds m r [] True (Query.ofWritten t) fun _ => t.meaning? :=
      Query.ofWritten_finds hm.clean t hsub
    exact hfinds.transparent.bind fun _ => .pure _
  | graph id => exact (Flow.buildFunction_transparent hm id).bind fun _ => .pure _

theorem askAll_of_consistent (hm : m.Resolved r) (qs : List Question) (hqs : ∀ q ∈ qs, q.About m) {a : Answers}
    (ha : a.Consistent m r []) :
    (askAll m r qs a).map Except.toOption = qs.map fun q => (q.ask m r).run' {} := by
  induction qs generalizing a with
  | nil => rfl
  | cons q rest ih =>
    obtain ⟨hq, hrest⟩ := List.forall_mem_cons.1 hqs
    obtain ⟨reply, htransparent⟩ := ask_transparent hm hq
    -- No answer kept at all is a case of consistent answers.
    have hfirst : (q.ask m r).run' {} = reply := by
      have hempty := htransparent {} (Answers.consistent_empty m r)
      simp only [Leaves] at hempty
      delta EStateM.run' EStateM.run
      cases hrun : q.ask m r {} with
      | ok v a' =>
        rw [hrun] at hempty
        exact hempty.2.symm
      | error failure a' =>
        rw [hrun] at hempty
        exact hempty.2.symm
    have hnow := htransparent a ha
    simp only [Leaves] at hnow
    rw [List.map_cons, hfirst]
    simp only [askAll, EStateM.run]
    cases hrun : q.ask m r a with
    | ok v a' =>
      rw [hrun] at hnow
      obtain ⟨ha', rfl⟩ := hnow
      simp only [List.map_cons, ih hrest ha']
      rfl
    | error failure a' =>
      -- What a failure leaves behind is consistent, too.
      rw [hrun] at hnow
      obtain ⟨ha', rfl⟩ := hnow
      simp only [List.map_cons, ih hrest ha']
      rfl

/-- Whatever is asked about a program that was read and resolved, in whatever order and however
often, every question succeeds exactly if it succeeds when it is the first one, and then with the
same reply. -/
theorem askAll_eq_map_ask {source : List Char} (hm : Module.ofSource? source = .ok m)
    (hr : m.resolve = .ok r) (qs : List Question) (hqs : ∀ q ∈ qs, q.About m) :
    (askAll m r qs {}).map Except.toOption = qs.map fun q => (q.ask m r).run' {} := by
  exact askAll_of_consistent (Module.resolved_of_resolve hm hr) qs hqs (Answers.consistent_empty m r)

/-- A function with a storage cell of type void, and a cell that gets its value. -/
def voidCells : List Char :=
  "fn g() \x7b \x7d fn f(p: int) -> int \x7b let x = g(); let y = x; return p; \x7d".toList

/-- Questions about this program, some of them more than once, and some that fail. -/
def aboutVoidCells (m : Module) : List Question :=
  [.cell 2, .cell 1, .cell 2, .function 4, .program, .graph 4, .graph 0, .param 4 0, .cell 1] ++
    m.exprs.map .expr ++ m.types.map .written

/-- Which of the questions succeed. -/
def repliedVoidCells : List Bool :=
  [false, false, false, true, false, false, true, true, false] ++
    [true, true, false, true] ++ [true, true, true]

theorem isOk_askAll_voidCells : ((Module.ofSource? voidCells).toOption.bind fun m =>
    m.resolve.toOption.map fun r => (askAll m r (aboutVoidCells m) {}).map Except.isOk) =
      some repliedVoidCells := by
  decide +kernel

/-- The questions about cells fail whenever they are asked, and the others get their replies. -/
theorem askAll_voidCells : ∃ m r, Module.ofSource? voidCells = .ok m ∧ m.resolve = .ok r ∧
    (askAll m r (aboutVoidCells m) {}).map Except.isOk = repliedVoidCells ∧
    (askAll m r (aboutVoidCells m) {}).map Except.toOption =
      (aboutVoidCells m).map fun q => (q.ask m r).run' {} := by
  obtain ⟨m, hm, hmap⟩ := Option.bind_eq_some_iff.1 isOk_askAll_voidCells
  obtain ⟨r, hr, hreplied⟩ := Option.map_eq_some_iff.1 hmap
  have hm := eq_ok_of_toOption hm
  have hr := eq_ok_of_toOption hr
  have habout : ∀ q ∈ aboutVoidCells m, q.About m := by
    refine List.forall_mem_append.2 ⟨List.forall_mem_append.2 ⟨by simp [About], ?_⟩, ?_⟩
    · intro q hq
      obtain ⟨e, he, rfl⟩ := List.mem_map.1 hq
      exact List.mem_append_left _ he
    · intro q hq
      obtain ⟨t, ht, rfl⟩ := List.mem_map.1 hq
      exact ht
  exact ⟨m, r, hm, hr, hreplied, askAll_eq_map_ask hm hr _ habout⟩

end Question

end WordLang
