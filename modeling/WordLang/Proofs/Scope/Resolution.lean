import WordLang.Proofs.Scope.Notes
import WordLang.Proofs.Scope.Places

/-!
# The notes of resolution

Resolution goes over every list of statements several times and changes its scopes as it goes. What
it notes is nonetheless given by the text alone: every name is looked up in the scopes around the
place where it stands, and every `break` ends the first of the loops around it. A failure is always
a problem of names.

## Main definitions

* `Notes.At`: the notes for placed statements
* `Resolve.Visits`: a step of resolution that makes notes for exactly given names, `break`s and
  statements

## Main results

* `Module.exists_notes`: the notes of a module
* `Module.isResolve_of_resolve`: resolution fails only because of names
-/

namespace WordLang

variable {kind : ScopeKind} {loops : List StmtId} {outer : Scopes} {scopes : Scopes}

/-- A failure because of names. -/
def Failure.IsResolve (failure : Failure) : Prop := ∃ problem, failure = .resolve problem

theorem ResolveProblem.isResolve_onLine (problem : ResolveProblem) (line : Nat) :
    (problem.onLine line).IsResolve := ⟨_, rfl⟩

/-- What the names among expressions refer to where given scopes are around. -/
def Expr.uses (scopes : Scopes) (exprs : List Expr) : List (ExprId × Option Binding) :=
  exprs.filterMap fun
    | .name tag ident => some (tag.id, scopes.find? ident.name)
    | _ => none

/-- What a placed statement uses: the names that it holds itself. -/
def Place.uses (q : Place × Stmt) : List (ExprId × Option Binding) :=
  Expr.uses (q.1.scopes false) (q.2.ownExprs.flatMap Expr.all)

/-- The loop that a placed statement ends. -/
def Place.ends (q : Place × Stmt) : List (StmtId × Option StmtId) :=
  match q.2 with
  | .break tag => [(tag.id, q.1.loops.head?)]
  | _ => []

/-- A statement that declares something, under its identifier. -/
def Stmt.recorded : Stmt → List (StmtId × Stmt)
  | .function tag decl => [(tag.id, .function tag decl)]
  | .declare tag ident type value => [(tag.id, .declare tag ident type value)]
  | _ => []

/-- The function that a statement declares. -/
def Stmt.listed : Stmt → List StmtId
  | .function tag _ => [tag.id]
  | _ => []

theorem Expr.uses_append (scopes : Scopes) (es es' : List Expr) :
    uses scopes (es ++ es') = uses scopes es ++ uses scopes es' := List.filterMap_append

def Notes.At (notes : Notes) (placed : List (Place × Stmt)) : Prop :=
  notes.Covers (placed.flatMap Place.uses) (placed.flatMap Place.ends)
    (placed.flatMap fun q => q.2.recorded) (placed.flatMap fun q => q.2.listed)

namespace Resolve

/-- A step inside given loops that goes from scopes `before` to scopes `after` and makes notes of
given names, `break`s, declarations and functions. -/
def Visits (x : Resolve Unit) (before after : Scopes) (loops : List StmtId)
    (uses : List (ExprId × Option Binding)) (ends : List (StmtId × Option StmtId))
    (declarations : List (StmtId × Stmt)) (functions : List StmtId) : Prop :=
  ∀ (notes : Notes) (σ : ResolveState), σ.found = notes.resolutions → σ.scopes = before →
    σ.loops = loops →
    Ensures x σ (fun _ σ' => ∃ new : Notes, σ'.found = (notes ++ new).resolutions ∧
      σ'.scopes = after ∧ σ'.loops = loops ∧ new.Covers uses ends declarations functions)
      Failure.IsResolve

/-- A step that makes notes for placed statements. -/
def VisitsAt (x : Resolve Unit) (before after : Scopes) (loops : List StmtId)
    (placed : List (Place × Stmt)) : Prop :=
  Visits x before after loops (placed.flatMap Place.uses) (placed.flatMap Place.ends)
    (placed.flatMap fun q => q.2.recorded) (placed.flatMap fun q => q.2.listed)

section

variable {x y : Resolve Unit} {before mid after : Scopes} {loops : List StmtId}
  {us us' : List (ExprId × Option Binding)} {es es' : List (StmtId × Option StmtId)}
  {ds ds' : List (StmtId × Stmt)} {fs fs' : List StmtId} {placed placed' : List (Place × Stmt)}

theorem Visits.skip : Visits (pure ()) before before loops [] [] [] [] := by
  intro notes σ hfound hscopes hloops
  refine Ensures.pure ⟨{}, ?_, hscopes, hloops, .empty⟩
  rw [Notes.append_empty, hfound]

theorem Visits.andThen (hx : Visits x before mid loops us es ds fs)
    (hy : Visits y mid after loops us' es' ds' fs') :
    Visits (x >>= fun _ => y) before after loops (us ++ us') (es ++ es') (ds ++ ds') (fs ++ fs') := by
  intro notes σ hfound hscopes hloops
  refine (hx notes σ hfound hscopes hloops).bind_of ?_
  rintro _ σ₁ ⟨new, hfound₁, hscopes₁, hloops₁, hnew⟩
  refine (hy _ σ₁ hfound₁ hscopes₁ hloops₁).mono ?_ fun _ h => h
  rintro _ σ₂ ⟨new', hfound₂, hscopes₂, hloops₂, hnew'⟩
  rw [Notes.append_assoc] at hfound₂
  exact ⟨new ++ new', hfound₂, hscopes₂, hloops₂, hnew.append hnew'⟩

theorem Visits.perm (h : Visits x before after loops us es ds fs) (hu : us.Perm us')
    (he : es.Perm es') (hd : ds.Perm ds') (hf : fs.Perm fs') :
    Visits x before after loops us' es' ds' fs' := by
  intro notes σ hfound hscopes hloops
  refine (h notes σ hfound hscopes hloops).mono ?_ fun _ h => h
  rintro _ σ₁ ⟨new, hfound₁, hscopes₁, hloops₁, hnew⟩
  exact ⟨new, hfound₁, hscopes₁, hloops₁, hnew.perm hu he hd hf⟩

theorem VisitsAt.andThen (hx : VisitsAt x before mid loops placed)
    (hy : VisitsAt y mid after loops placed') :
    VisitsAt (x >>= fun _ => y) before after loops (placed ++ placed') := by
  unfold VisitsAt
  simp only [List.flatMap_append]
  exact Visits.andThen hx hy

theorem VisitsAt.perm (h : VisitsAt x before after loops placed) (hp : placed.Perm placed') :
    VisitsAt x before after loops placed' :=
  Visits.perm h (hp.flatMap_right _) (hp.flatMap_right _) (hp.flatMap_right _) (hp.flatMap_right _)

theorem Visits.rescope {f : Scopes → Scopes} :
    Visits (modify fun s => { s with scopes := f s.scopes }) before (f before) loops [] [] [] [] := by
  intro notes σ hfound hscopes hloops
  refine Ensures.modify ⟨{}, ?_, congrArg f hscopes, hloops, .empty⟩
  rw [Notes.append_empty]
  exact hfound

end

/-! ## Expressions -/

section

variable {scopes : Scopes} {loops : List StmtId}

mutual

theorem expression_visits : ∀ e : Expr,
    Visits (expression e) scopes scopes loops (Expr.uses scopes e.all) [] [] []
  | .error _ => Visits.skip
  | .int _ _ => Visits.skip
  | .string _ _ => Visits.skip
  | .name tag ident => by
    intro notes σ hfound hscopes hloops
    refine Ensures.bind (Ensures.get ?_)
    cases hb : σ.scopes.find? ident.name with
    | none => exact Ensures.throw (ResolveProblem.isResolve_onLine _ _)
    | some b =>
      refine Ensures.modify ⟨{ bindings := [(tag.id, b)] }, ?_, hscopes, hloops, ?_⟩
      · simp only [Notes.resolutions, hfound, Notes.bindings_append, Table.ofList_append_singleton]
        simp
      · rw [hscopes] at hb
        refine ⟨.of_eq ?_, .nil, .nil, .nil⟩
        simp [Expr.uses, Expr.all, hb]
  | .call tag callee args => by
    refine ((expressions_visits args).andThen (expression_visits callee)).perm ?_ .nil .nil .nil
    exact List.perm_append_comm.trans (.of_eq (Expr.uses_append ..).symm)
  | .unary tag op operand => expression_visits operand
  | .binary tag op lhs rhs =>
    ((expression_visits lhs).andThen (expression_visits rhs)).perm
      (.of_eq (Expr.uses_append ..).symm) .nil .nil .nil

theorem expressions_visits : ∀ list : List Expr,
    Visits (expressions list) scopes scopes loops (Expr.uses scopes (Expr.allOfList list)) [] []
      []
  | [] => Visits.skip
  | e :: rest =>
    ((expression_visits e).andThen (expressions_visits rest)).perm
      (.of_eq (Expr.uses_append ..).symm) .nil .nil .nil

end

theorem optional_visits (value : Option Expr) :
    Visits (optional value) scopes scopes loops (Expr.uses scopes (value.toList.flatMap Expr.all)) []
      [] [] := by
  cases value with
  | none => exact Visits.skip
  | some e =>
    rw [Option.toList_some, List.flatMap_singleton]
    exact expression_visits e

end

/-! ## Declarations -/

def hoistNotes : List Stmt → Notes
  | [] => {}
  | .function tag decl :: rest =>
    { declarations := [(tag.id, .function tag decl)], functions := [tag.id] } ++ hoistNotes rest
  | _ :: rest => hoistNotes rest

theorem functions_hoistNotes (list : List Stmt) :
    (hoistNotes list).functions = (Stmt.declared list).map Prod.fst := by
  induction list with
  | nil => rfl
  | cons s rest ih =>
    cases s with
    | function tag decl => exact congrArg (tag.id :: ·) ih
    | _ => exact ih

theorem hoist_scopes (list : List Stmt) {bs : List (String × Binding)}
    {notes : Notes} {σ : ResolveState} (hfound : σ.found = notes.resolutions)
    (hscopes : σ.scopes = ⟨kind, bs⟩ :: outer) :
    Ensures (hoist list) σ (fun _ σ' => σ'.found = (notes ++ hoistNotes list).resolutions ∧
      σ'.scopes = ⟨kind, Stmt.functionBindings list ++ bs⟩ :: outer ∧ σ'.loops = σ.loops ∧
      ((Stmt.declared list).map fun f => f.2.ident.name).Nodup ∧
      ∀ f ∈ Stmt.declared list, (bs.lookup f.2.ident.name).any Binding.isFunction = false)
      Failure.IsResolve := by
  induction list generalizing notes σ bs with
  | nil =>
    exact Ensures.pure ⟨by rwa [hoistNotes, Notes.append_empty], hscopes, rfl, List.nodup_nil,
      by simp [Stmt.declared]⟩
  | cons s rest ih =>
    cases s with
    | function tag decl =>
      simp only [hoist, hoistNotes, ← Notes.append_assoc]
      refine Ensures.bind (Ensures.get ?_)
      by_cases hdup : (σ.scopes.shallow? decl.ident.name).any Binding.isFunction = true
      · rw [if_pos hdup]
        exact Ensures.bind (Ensures.throw (ResolveProblem.isResolve_onLine _ _))
      · rw [if_neg hdup]
        refine Ensures.bind (Ensures.modify (Ensures.bind (Ensures.modify (Ensures.bind
          (Ensures.modify ((@ih ((decl.ident.name, .function tag.id) :: bs)
            (notes ++ ⟨[], [], [(tag.id, .function tag decl)], [tag.id]⟩) _ ?_ ?_).mono ?_
            fun _ h => h))))))
        · simp [Notes.resolutions, hfound, Table.ofList_append_singleton, Stmt.id, Stmt.tag]
        · simp [hscopes, Scopes.bind]
        · rintro _ σ' ⟨hf, hs, hl, hnodup, hfresh⟩
          -- The name that was bound just now is not bound again.
          have hother : ∀ f ∈ Stmt.declared rest, f.2.ident.name ≠ decl.ident.name ∧
              (bs.lookup f.2.ident.name).any Binding.isFunction = false := by
            intro f hmem
            have hfalse := hfresh f hmem
            rw [List.lookup_cons] at hfalse
            split at hfalse
            · cases hfalse
            · next hne => exact ⟨by simpa using hne, hfalse⟩
          rw [hscopes] at hdup
          refine ⟨hf, ?_, hl, List.nodup_cons.2 ⟨?_, hnodup⟩,
            List.forall_mem_cons.2 ⟨Bool.eq_false_iff.2 hdup, fun f hmem => (hother f hmem).2⟩⟩
          · rw [hs]
            simp [Stmt.functionBindings, Stmt.functionBinding?]
          · intro hmem
            obtain ⟨f, hmem, hname⟩ := List.mem_map.1 hmem
            exact (hother f hmem).1 hname
    | _ => exact ih hfound hscopes

theorem rebind_scopes (list : List Stmt) {bs : List (String × Binding)} :
    Visits (rebind list) (⟨kind, bs⟩ :: outer) (⟨kind, Stmt.functionBindings list ++ bs⟩ :: outer)
      loops [] [] [] [] := by
  induction list generalizing bs with
  | nil => exact Visits.skip
  | cons s rest ih =>
    cases s with
    | function tag decl =>
      have hrest := @ih ((decl.ident.name, .function tag.id) :: bs)
      have hbindings : Stmt.functionBindings (.function tag decl :: rest) ++ bs =
          Stmt.functionBindings rest ++ (decl.ident.name, .function tag.id) :: bs := by
        simp [Stmt.functionBindings, Stmt.functionBinding?]
      rw [hbindings]
      exact Visits.rescope.andThen hrest
    | _ => exact ih

theorem bindParams_scopes (owner : StmtId) (params : List Param) (index : Nat)
    {bs : List (String × Binding)} : Visits (bindParams owner index params) (⟨kind, bs⟩ :: outer)
      (⟨kind, ((params.zipIdx index).map fun p =>
        (p.1.ident.name, .parameter owner p.2)).reverse ++ bs⟩ :: outer) loops [] [] [] [] := by
  induction params generalizing index bs with
  | nil => exact Visits.skip
  | cons param rest ih =>
    have hrest := @ih (index + 1) ((param.ident.name, .parameter owner index) :: bs)
    simp only [List.zipIdx_cons, List.map_cons, List.reverse_cons, List.append_assoc,
      List.singleton_append]
    intro notes σ hfound hscopes hloops
    refine Ensures.bind (Ensures.get ?_)
    by_cases hdup : (σ.scopes.shallow? param.ident.name).isSome = true
    · rw [if_pos hdup]
      exact Ensures.bind (Ensures.throw (ResolveProblem.isResolve_onLine _ _))
    · rw [if_neg hdup]
      have hbind : Visits (bind param.ident.name (.parameter owner index)) (⟨kind, bs⟩ :: outer)
          (⟨kind, (param.ident.name, .parameter owner index) :: bs⟩ :: outer) loops [] [] [] [] :=
        Visits.rescope
      exact (hbind.andThen hrest) notes σ hfound hscopes hloops

/-! ## The parts of a list of placed statements -/

/-- A part of every statement of a scope that comes after those in `before`. -/
def each (part : Place → Stmt → List (Place × Stmt)) (outer : Place) (before : List Stmt) :
    List Stmt → List (Place × Stmt)
  | [] => []
  | s :: rest => part (.scope before s rest :: outer) s ++ each part outer (before ++ [s]) rest

def hoisted : Stmt → List Stmt
  | .function tag decl => [.function tag decl]
  | _ => []

/-- A placed statement that declares a function. -/
def hoistedAt (place : Place) (s : Stmt) : List (Place × Stmt) := (hoisted s).map fun s => (place, s)

/-- A placed statement that declares no function, and all statements within it. -/
def visitedAt (place : Place) : Stmt → List (Place × Stmt)
  | .function _ _ => []
  | s => s.placed place

/-- The statements within the body of a function that a placed statement declares. -/
def enclosedAt (place : Place) : Stmt → List (Place × Stmt)
  | .function tag decl => Stmt.placedBody place tag decl
  | _ => []

theorem each_append_perm (f g : Place → Stmt → List (Place × Stmt)) (outer : Place)
    (before list : List Stmt) :
    (each f outer before list ++ each g outer before list).Perm
      (each (fun place s => f place s ++ g place s) outer before list) := by
  induction list generalizing before with
  | nil => exact .nil
  | cons s rest ih =>
    simp only [each]
    refine .trans ?_ ((ih _).append_left _)
    simp only [List.append_assoc]
    refine List.Perm.append_left _ ?_
    simp only [← List.append_assoc]
    exact List.perm_append_comm.append_right _

theorem each_perm {f g : Place → Stmt → List (Place × Stmt)} (h : ∀ place s, (f place s).Perm (g place s))
    (outer : Place) (before list : List Stmt) :
    (each f outer before list).Perm (each g outer before list) := by
  induction list generalizing before with
  | nil => exact .nil
  | cons s rest ih => exact (h _ s).append (ih _)

theorem parts_placed_perm (outer : Place) (before list : List Stmt) :
    (each hoistedAt outer before list ++
      (each visitedAt outer before list ++ each enclosedAt outer before list)).Perm
      (Stmt.placedList outer before list) := by
  have hone : ∀ (place : Place) (s : Stmt),
      (hoistedAt place s ++ (visitedAt place s ++ enclosedAt place s)).Perm (s.placed place) := by
    intro place s
    cases s <;> simp [hoistedAt, hoisted, visitedAt, enclosedAt, Stmt.placed]
  have hlist : Stmt.placedList outer before list =
      each (fun place s => s.placed place) outer before list := by
    induction list generalizing before with
    | nil => rfl
    | cons s rest ih => rw [Stmt.placedList, each, ih]
  rw [hlist]
  refine ((each_append_perm visitedAt enclosedAt outer before list).append_left _).trans ?_
  exact (each_append_perm hoistedAt _ outer before list).trans (each_perm hone outer before list)

theorem hoistNotes_at (outer : Place) (before list : List Stmt) :
    (hoistNotes list).At (each hoistedAt outer before list) := by
  induction list generalizing before with
  | nil => exact .empty
  | cons s rest ih =>
    cases s with
    | function tag decl =>
      have hone : Notes.Covers ⟨[], [], [(tag.id, .function tag decl)], [tag.id]⟩ [] []
          [(tag.id, .function tag decl)] [tag.id] := ⟨.nil, .nil, .refl _, .refl _⟩
      exact hone.append (ih _)
    | _ => exact ih _

theorem hoist_visits (list : List Stmt) (place : Place) :
    VisitsAt (hoist list) (⟨kind, []⟩ :: outer) (⟨kind, Stmt.boundAfter list []⟩ :: outer) loops
      (each hoistedAt place [] list) := by
  intro notes σ hfound hscopes hloops
  refine (hoist_scopes list hfound hscopes).mono ?_ fun _ h => h
  rintro _ σ' ⟨hfound', hscopes', hloops', -⟩
  rw [List.append_nil] at hscopes'
  exact ⟨hoistNotes list, hfound', hscopes', hloops'.trans hloops, hoistNotes_at place [] list⟩

/-! ## Statements -/

def within (outer : Place) (bs : List (String × Binding)) : Scopes :=
  ⟨Place.kindWithin outer, bs⟩ :: outer.scopes false

section

variable {x : Resolve Unit} {loops : List StmtId} {placed : List (Place × Stmt)}

theorem VisitsAt.inLoop {id : StmtId} (h : VisitsAt x scopes scopes (id :: loops) placed) :
    VisitsAt (do let _ ← replaceLoops (id :: ·); x; let _ ← replaceLoops List.tail) scopes scopes
      loops placed := by
  intro notes σ hfound hscopes hloops
  refine Ensures.bind (Ensures.modifyGet ?_)
  refine (h notes { σ with loops := id :: σ.loops } hfound hscopes (congrArg (id :: ·) hloops)).bind_of ?_
  rintro _ σ₁ ⟨new, hfound₁, hscopes₁, hloops₁, hnew⟩
  refine Ensures.bind (Ensures.modifyGet (Ensures.pure ?_))
  exact ⟨new, hfound₁, hscopes₁, congrArg List.tail hloops₁, hnew⟩

theorem VisitsAt.inScope {scope : Scope}
    (h : VisitsAt x (⟨kind, []⟩ :: scopes) (scope :: scopes) loops placed) :
    VisitsAt (do enter kind; x; leave) scopes scopes loops placed := by
  intro notes σ hfound hscopes hloops
  refine Ensures.bind (Ensures.modify ?_)
  refine (h notes { σ with scopes := σ.scopes.enter kind } hfound (congrArg (_ :: ·) hscopes)
    hloops).bind_of ?_
  rintro _ σ₁ ⟨new, hfound₁, hscopes₁, hloops₁, hnew⟩
  exact Ensures.modify ⟨new, hfound₁, congrArg List.tail hscopes₁, hloops₁, hnew⟩

end

theorem passes_visit {outer : Place} {list : List Stmt}
    (hs : VisitsAt (statements list) (within outer (Stmt.boundAfter list []))
      (within outer (Stmt.boundAfter list list)) outer.loops (each visitedAt outer [] list))
    (hb : VisitsAt (bodies list) (within outer (Stmt.boundInBodies list))
      (within outer (Stmt.boundInBodies list)) outer.loops (each enclosedAt outer [] list)) :
    VisitsAt (do statements list; rebind list; bodies list) (within outer (Stmt.boundAfter list []))
      (within outer (Stmt.boundInBodies list)) outer.loops
      (each visitedAt outer [] list ++ each enclosedAt outer [] list) := by
  have hrebind : VisitsAt (rebind list) (within outer (Stmt.boundAfter list list))
      (within outer (Stmt.boundInBodies list)) outer.loops [] := rebind_scopes list
  exact hs.andThen (hrebind.andThen hb)

theorem declare_visits (tag : Tag) (ident : Ident) (type : Option TypeExpr) (value : Option Expr) :
    Visits (do bind ident.name (.local tag.id); declare (.declare tag ident type value)) scopes
      (scopes.bind ident.name (.local tag.id)) loops [] []
      [(tag.id, .declare tag ident type value)] [] := by
  intro notes σ hfound hscopes hloops
  refine Ensures.bind (Ensures.modify (Ensures.modify ?_))
  refine ⟨{ declarations := [(tag.id, .declare tag ident type value)] }, ?_, ?_, hloops,
    .nil, .nil, .refl _, .nil⟩
  · simp only [Notes.resolutions, hfound, Notes.declarations_append, Table.ofList_append_singleton]
    simp [Stmt.id, Stmt.tag]
  · rw [hscopes]

theorem break_visits (tag : Tag) :
    Visits (statement (.break tag)) scopes scopes loops [] [(tag.id, loops.head?)] [] [] := by
  intro notes σ hfound hscopes hloops
  refine Ensures.bind (Ensures.get ?_)
  cases hl : σ.loops with
  | nil => exact Ensures.throw (ResolveProblem.isResolve_onLine _ _)
  | cons loop outer =>
    refine Ensures.modify ⟨{ ends := [(tag.id, loop)] }, ?_, hscopes, hloops, .nil, ?_, .nil, .nil⟩
    · simp only [Notes.resolutions, hfound, Notes.ends_append, Table.ofList_append_singleton]
      simp
    · rw [← hloops, hl]
      exact .refl _

theorem uses_of_ownExpr {place : Place} {s : Stmt} {e : Expr} (h : s.ownExprs = [e]) :
    Place.uses (place, s) = Expr.uses (place.scopes false) e.all := by
  rw [Place.uses, h, List.flatMap_singleton]

theorem block_eq (tag : Tag) (list : List Stmt) :
    block ⟨tag, list⟩ = (do enter .block; scope list; leave) := by
  simp only [block, scope, bind_assoc]

mutual

theorem statement_visits : ∀ (s : Stmt) (before after : List Stmt) (outer : Place),
    VisitsAt (statement s) (Place.scopes (.scope before s after :: outer) false)
      (within outer (s.cellBinding?.toList ++ Stmt.boundAfter (before ++ s :: after) before)) outer.loops
      (visitedAt (.scope before s after :: outer) s)
  | .error tag, before, after, outer => Visits.skip
  | .function tag decl, before, after, outer => Visits.skip
  | .declare tag ident type value, before, after, outer =>
    (optional_visits value).andThen (declare_visits tag ident type value)
  | .loop tag body, before, after, outer =>
    (block_visits body (.loop tag.id :: .scope before (.loop tag body) after :: outer)
      (List.cons_ne_nil _ _)).inLoop
  | .while tag condition body, before, after, outer => by
    have hbody := (block_visits body
      (.loop tag.id :: .scope before (.while tag condition body) after :: outer)
      (List.cons_ne_nil _ _)).inLoop
    refine ((expression_visits condition).andThen hbody).perm (.of_eq ?_) (.refl _) (.refl _) (.refl _)
    exact congrArg (· ++ _) (uses_of_ownExpr (s := .while tag condition body) rfl).symm
  | .choose tag condition truthy falsy, before, after, outer => by
    have hbranches := (block_visits truthy
      (.scope before (.choose tag condition truthy falsy) after :: outer) (List.cons_ne_nil _ _)).andThen
      (optionalBlock_visits falsy
        (.scope before (.choose tag condition truthy falsy) after :: outer) (List.cons_ne_nil _ _))
    refine ((expression_visits condition).andThen hbranches).perm (.of_eq ?_) (.refl _) (.refl _) (.refl _)
    exact congrArg (· ++ _) (uses_of_ownExpr (s := .choose tag condition truthy falsy) rfl).symm
  | .return tag value, before, after, outer =>
    (optional_visits value).perm (.of_eq (List.flatMap_singleton ..).symm) .nil .nil .nil
  | .break tag, before, after, outer =>
    break_visits tag
  | .assign tag subject value, before, after, outer => by
    refine ((expression_visits value).andThen (expression_visits subject)).perm ?_ .nil .nil .nil
    refine List.perm_append_comm.trans (.of_eq ?_)
    rw [← Expr.uses_append, visitedAt, Stmt.placed, List.flatMap_singleton, Place.uses, Stmt.ownExprs,
      List.flatMap_cons, List.flatMap_singleton] <;> simp
  | .eval tag e, before, after, outer => by
    refine (expression_visits e).perm (.of_eq ?_) .nil .nil .nil
    exact ((List.flatMap_singleton ..).trans (uses_of_ownExpr (s := .eval tag e) rfl)).symm

theorem block_visits : ∀ (b : Block) (outer : Place), outer ≠ [] →
    VisitsAt (block b) (outer.scopes false) (outer.scopes false) outer.loops
      (Stmt.placedBlock outer b)
  | ⟨tag, list⟩, outer, houter => by
    rw [block_eq]
    have hscope : VisitsAt (scope list) (within outer []) (within outer (Stmt.boundInBodies list))
        outer.loops (Stmt.placedList outer [] list) :=
      ((hoist_visits list outer).andThen (passes_visit (statements_visits list [] outer)
        (bodies_visits list [] outer))).perm (parts_placed_perm outer [] list)
    have hkind : Place.kindWithin outer = .block := by
      rw [Place.kindWithin, if_neg (by simpa using houter)]
    rw [within, hkind] at hscope
    exact hscope.inScope

theorem optionalBlock_visits : ∀ (b : Option Block) (outer : Place), outer ≠ [] →
    VisitsAt (optionalBlock b) (outer.scopes false) (outer.scopes false) outer.loops
      (Stmt.placedOption outer b)
  | none, _, _ => Visits.skip
  | some b, outer, houter => block_visits b outer houter

theorem statements_visits : ∀ (list before : List Stmt) (outer : Place),
    VisitsAt (statements list) (within outer (Stmt.boundAfter (before ++ list) before))
      (within outer (Stmt.boundAfter (before ++ list) (before ++ list))) outer.loops
      (each visitedAt outer before list)
  | [], before, outer => by
    rw [List.append_nil]
    exact Visits.skip
  | s :: rest, before, outer => by
    have hrest := statements_visits rest (before ++ [s]) outer
    have hbound : Stmt.boundAfter (before ++ s :: rest) (before ++ [s]) =
        s.cellBinding?.toList ++ Stmt.boundAfter (before ++ s :: rest) before := by
      rw [Stmt.boundAfter, Stmt.cellBindings_concat, List.append_assoc, Stmt.boundAfter]
    rw [List.append_assoc, List.singleton_append, hbound] at hrest
    exact (statement_visits s before rest outer).andThen hrest

theorem bodies_visits : ∀ (list before : List Stmt) (outer : Place),
    VisitsAt (bodies list) (within outer (Stmt.boundInBodies (before ++ list)))
      (within outer (Stmt.boundInBodies (before ++ list))) outer.loops
      (each enclosedAt outer before list)
  | [], before, outer => Visits.skip
  | s :: rest, before, outer => by
    have hrest := bodies_visits rest (before ++ [s]) outer
    rw [List.append_assoc, List.singleton_append] at hrest
    exact (body_visits s before rest outer).andThen hrest

theorem body_visits : ∀ (s : Stmt) (before after : List Stmt) (outer : Place),
    VisitsAt (body s) (Place.scopes (.scope before s after :: outer) true)
      (Place.scopes (.scope before s after :: outer) true) outer.loops
      (enclosedAt (.scope before s after :: outer) s)
  | .function tag ⟨ident, attrs, params, result, some b⟩, before, after, outer => by
    have hb := block_visits b (.function tag ⟨ident, attrs, params, result, some b⟩ ::
      .scope before (.function tag ⟨ident, attrs, params, result, some b⟩) after :: outer)
      (List.cons_ne_nil _ _)
    intro notes σ hfound hscopes hloops
    refine Ensures.bind (Ensures.modify ?_)
    refine (bindParams_scopes tag.id params 0 notes { σ with scopes := σ.scopes.enter .function } hfound
      (congrArg (_ :: ·) hscopes) hloops).bind_of ?_
    rintro _ σ₁ ⟨new, hfound₁, hscopes₁, hloops₁, hnew⟩
    refine Ensures.bind (Ensures.modifyGet ?_)
    refine (hb _ { σ₁ with loops := [] } hfound₁ ?_ rfl).bind_of ?_
    · rw [List.append_nil] at hscopes₁
      exact hscopes₁
    · rintro _ σ₂ ⟨new', hfound₂, hscopes₂, -, hnew'⟩
      refine Ensures.bind (Ensures.modifyGet (Ensures.modify ?_))
      rw [Notes.append_assoc] at hfound₂
      exact ⟨new ++ new', hfound₂, congrArg List.tail hscopes₂, hloops₁, hnew.append hnew'⟩
  | .function tag ⟨ident, attrs, params, result, none⟩, _, _, _ => Visits.skip
  | .error _, _, _, _ => Visits.skip
  | .declare .., _, _, _ => Visits.skip
  | .loop .., _, _, _ => Visits.skip
  | .while .., _, _, _ => Visits.skip
  | .choose .., _, _, _ => Visits.skip
  | .return .., _, _, _ => Visits.skip
  | .break .., _, _, _ => Visits.skip
  | .assign .., _, _, _ => Visits.skip
  | .eval .., _, _, _ => Visits.skip

end

end Resolve

/-! ## Modules -/

theorem Module.resolve_ensures (m : Module) :
    Ensures (Resolve.scope m.items) {} (fun _ σ => ∃ notes : Notes, σ.found = notes.resolutions ∧
      notes.At m.placed ∧ (Stmt.declared m.items).map Prod.fst <+: notes.functions ∧
      ((Stmt.declared m.items).map fun f => f.2.ident.name).Nodup) Failure.IsResolve := by
  have hempty : ∀ notes : Notes, ({} : Notes) ++ notes = notes := by
    intro notes
    ext <;> simp
  refine (@Resolve.hoist_scopes .root [] m.items [] {} {} rfl rfl).bind_of ?_
  rintro _ σ₁ ⟨hfound₁, hscopes₁, hloops₁, hnames, -⟩
  rw [hempty] at hfound₁
  rw [List.append_nil] at hscopes₁
  refine (Resolve.passes_visit (Resolve.statements_visits m.items [] [])
    (Resolve.bodies_visits m.items [] []) _ σ₁ hfound₁ hscopes₁ hloops₁).mono ?_ fun _ h => h
  rintro _ σ₂ ⟨later, hfound₂, -, -, hlater⟩
  refine ⟨_, hfound₂, ?_, ?_, hnames⟩
  · have hall := (Resolve.hoistNotes_at [] [] m.items).append hlater
    simp only [← List.flatMap_append] at hall
    have hperm := Resolve.parts_placed_perm [] [] m.items
    exact hall.perm (hperm.flatMap_right _) (hperm.flatMap_right _) (hperm.flatMap_right _)
      (hperm.flatMap_right _)
  · rw [← Resolve.functions_hoistNotes]
    exact List.prefix_append _ _

/-- What resolution finds out about a module are the notes for its statements at their places. The
functions outside blocks come first, and no two of them have one name. -/
theorem Module.exists_notes {m : Module} {r : Resolutions} (h : m.resolve = .ok r) :
    ∃ notes : Notes, r = notes.resolutions ∧ notes.At m.placed ∧
      (Stmt.declared m.items).map Prod.fst <+: notes.functions ∧
      ((Stmt.declared m.items).map fun f => f.2.ident.name).Nodup := by
  have hens := m.resolve_ensures
  simp only [Module.resolve] at h
  split at h
  · next u σ hrun =>
    cases h
    simp only [Ensures] at hens
    rwa [show Resolve.scope m.items {} = _ from hrun] at hens
  · cases h

theorem Module.isResolve_of_resolve {m : Module} {failure : Failure}
    (h : m.resolve = .error failure) : failure.IsResolve := by
  have hens := m.resolve_ensures
  simp only [Module.resolve] at h
  split at h
  · cases h
  · next hrun =>
    cases h
    simp only [Ensures] at hens
    rwa [show Resolve.scope m.items {} = _ from hrun] at hens

end WordLang
