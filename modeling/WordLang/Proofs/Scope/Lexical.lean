import WordLang.Proofs.Scope.Visibility

/-!
# Resolution follows the text

What resolution finds out about a module is what its text says: a name refers to what is declared
around the place where it stands, and a `break` ends the innermost loop around it.

## Main definitions

* `Resolutions.Lexical`: what is found out about a module is what its text says

## Main results

* `Module.lexical_of_resolve`: names refer to what is declared around them
* `Module.function_beyond`: what a name refers to that the function around it does not declare
-/

namespace WordLang

/-- What is found out about a module is what its text says. -/
structure Resolutions.Lexical (r : Resolutions) (m : Module) : Prop where
  names : ∀ id, (r.bindings.find? id).isSome ↔ ∃ tag ident, Expr.name tag ident ∈ m.exprs ∧ tag.id = id
  refers : ∀ {place s tag ident}, (place, s) ∈ m.placed →
    Expr.name tag ident ∈ s.ownExprs.flatMap Expr.all →
    ∃ b, r.bindings.find? tag.id = some b ∧ place.RefersTo ident.name b
  breaks : ∀ id, (r.breakTargets.find? id).isSome ↔ ∃ tag, Stmt.break tag ∈ m.statements ∧ tag.id = id
  ends : ∀ {place tag}, (place, Stmt.break tag) ∈ m.placed →
    ∃ loop, r.breakTargets.find? tag.id = some loop ∧ place.InnermostLoop loop
  functions : ∀ id, id ∈ r.functions ↔ ∃ tag decl, Stmt.function tag decl ∈ m.statements ∧ tag.id = id
  nodup : r.functions.Nodup
  outside : (Stmt.declared m.items).map Prod.fst <+: r.functions
  declarations : ∀ id s, r.declarations.find? id = some s ↔
    s ∈ m.statements ∧ s.id = id ∧ (s.functionName?.isSome ∨ s.cellName?.isSome)

/-- What resolution finds out about a source text is what the text says. -/
theorem Module.lexical_of_resolve {source : List Char} {m : Module} {r : Resolutions}
    (hm : Module.ofSource? source = .ok m) (h : m.resolve = .ok r) : r.Lexical m := by
  have hclean := Module.clean_of_ofSource? hm
  have hscoped := Module.scoped_of_resolve h hclean
  obtain ⟨notes, rfl, hnotes, -⟩ := Module.exists_notes h
  refine ⟨fun id => ⟨fun hsome => ?_, ?_⟩, fun hplaced hname => ?_, fun id => ⟨fun hsome => ?_, ?_⟩,
    fun hplaced => ?_, fun id => mem_functions hnotes, hscoped.nodup, hscoped.outside,
    fun _ _ => find?_declarations hclean hnotes⟩
  · obtain ⟨b, hb⟩ := Option.isSome_iff_exists.1 hsome
    obtain ⟨place, s, tag, ident, hplaced, hname, hid, -⟩ :=
      Place.mem_flatMap_uses.1 ((find?_bindings hclean hnotes).1 hb)
    exact ⟨tag, ident, Module.mem_exprs.2 ⟨place, s, hplaced, hname⟩, hid⟩
  · rintro ⟨tag, ident, hmem, rfl⟩
    obtain ⟨place, s, hplaced, hname⟩ := Module.mem_exprs.1 hmem
    obtain ⟨b, hb, -⟩ := find?_of_name hclean hnotes hplaced hname
    exact Option.isSome_iff_exists.2 ⟨b, hb⟩
  · obtain ⟨b, hb, hscopes⟩ := find?_of_name hclean hnotes hplaced hname
    exact ⟨b, hb, Place.refersTo_of_find?_scopes (Module.proper_of_name hplaced hname) hscopes⟩
  · obtain ⟨loop, hloop⟩ := Option.isSome_iff_exists.1 hsome
    obtain ⟨⟨place, s⟩, hplaced, hmem⟩ :=
      List.mem_flatMap.1 ((find?_breakTargets hclean hnotes).1 hloop)
    cases s with
    | «break» tag =>
      have hid : id = tag.id := congrArg Prod.fst (List.mem_singleton.1 hmem)
      exact ⟨tag, Module.exists_place.2 ⟨place, hplaced⟩, hid.symm⟩
    | _ => cases hmem
  · rintro ⟨tag, hmem, rfl⟩
    obtain ⟨place, hplaced⟩ := Module.exists_place.1 hmem
    obtain ⟨loop, hloop, -⟩ := find?_of_break hclean hnotes hplaced
    exact Option.isSome_iff_exists.2 ⟨loop, hloop⟩
  · obtain ⟨loop, hloop, hhead⟩ := find?_of_break hclean hnotes hplaced
    exact ⟨loop, hloop, Place.innermostLoop_of_head?_loops hhead⟩

/-- A function with cells, loops and a function of its own that take each other's names over. -/
def shadowedNames : List Char :=
  "fn f(a: int) { let x = a; loop { let x = x; if x { break; } fn x(a: int) { f(a); } } }".toList

theorem lexical_of_resolve_shadowedNames :
    ∃ m r, Module.ofSource? shadowedNames = .ok m ∧ m.resolve = .ok r ∧ r.Lexical m := by
  have hok : ((Module.ofSource? shadowedNames).toOption.bind fun m => m.resolve.toOption).isSome := by
    decide +kernel
  obtain ⟨r, hr⟩ := Option.isSome_iff_exists.1 hok
  obtain ⟨m, hm, hr⟩ := Option.bind_eq_some_iff.1 hr
  have hm := eq_ok_of_toOption hm
  have hr := eq_ok_of_toOption hr
  exact ⟨m, r, hm, hr, Module.lexical_of_resolve hm hr⟩

/-! ## Names that the function around does not declare -/

/-- A name in the body of a function that is declared nowhere between its place and the function
refers to a function, which is declared in the innermost scope around that shows one of that name. -/
theorem Module.function_beyond {source : List Char} {m : Module} {r : Resolutions}
    (hm : Module.ofSource? source = .ok m) (h : m.resolve = .ok r) {inner outer : Place} {tag : Tag}
    {decl : FnDecl} {s : Stmt} {use : Tag} {ident : Ident}
    (hplaced : (inner ++ .function tag decl :: outer, s) ∈ m.placed)
    (hname : Expr.name use ident ∈ s.ownExprs.flatMap Expr.all)
    (hinner : ∀ layer ∈ inner, ¬layer.Declares ident.name)
    (hparams : ¬(Layer.function tag decl).Declares ident.name) :
    ∃ nearer before here after further, outer = nearer ++ .scope before here after :: further ∧
      (∀ layer ∈ nearer, ¬layer.Shows ident.name) ∧ (Layer.scope before here after).Shows ident.name ∧
      ∃ tag' decl', .function tag' decl' ∈ before ++ here :: after ∧ decl'.ident.name = ident.name ∧
        r.bindings.find? use.id = some (.function tag'.id) := by
  have hclean := Module.clean_of_ofSource? hm
  obtain ⟨notes, rfl, hnotes, -⟩ := Module.exists_notes h
  obtain ⟨b, hb, hscopes⟩ := find?_of_name hclean hnotes hplaced hname
  rw [Place.find?_beyond hinner hparams] at hscopes
  have hproper := Place.proper_of_append (Module.proper_of_name hplaced hname)
  obtain ⟨nearer, before, here, after, further, houter, hnearer, hshows, tag', decl', hmem, hname', rfl⟩ :=
    Place.shows_of_findFunction? hproper hscopes
  exact ⟨nearer, before, here, after, further, houter, hnearer, hshows, tag', decl', hmem, hname', hb⟩

/-- A function within one that declares a cell with the name of a function outside. -/
def passedCell : List Char := "fn h() {} fn main() { let h = 1; fn g() { h(); } }".toList

/-- The call in the sample. -/
def isCallWithin : Place × Stmt → Bool
  | (.scope [] (.eval _ _) [] :: .function _ ⟨_, _, [], _, _⟩ :: _, .eval _ (.call _ (.name _ ident) [])) =>
    ident.name == "h"
  | _ => false

/-- In the sample, the cell does not keep the call from its function. -/
theorem function_beyond_passedCell :
    ∃ m r use ident f, Module.ofSource? passedCell = .ok m ∧ m.resolve = .ok r ∧
      Expr.name use ident ∈ m.exprs ∧ ident.name = "h" ∧
      r.bindings.find? use.id = some (.function f) := by
  have hok : ((Module.ofSource? passedCell).toOption.any fun m =>
      m.resolve.toOption.isSome && m.placed.any isCallWithin) = true := by
    decide +kernel
  obtain ⟨m, hm, hok⟩ := exists_ok_of_any hok
  obtain ⟨hr, hcall⟩ := Bool.and_eq_true_iff.1 hok
  obtain ⟨r, hr⟩ := Option.isSome_iff_exists.1 hr
  obtain ⟨q, hplaced, hcall⟩ := List.any_eq_true.1 hcall
  unfold isCallWithin at hcall
  split at hcall
  · next tag e _ _ _ _ _ _ tag' tag'' use ident =>
    have hr := eq_ok_of_toOption hr
    have hname : Expr.name use ident ∈
        (Stmt.eval tag' (.call tag'' (.name use ident) [])).ownExprs.flatMap Expr.all := by
      simp [Stmt.ownExprs, Expr.all]
    have hinner : ∀ layer ∈ [Layer.scope [] (.eval tag e) []], ¬layer.Declares ident.name := by
      simp [Layer.Declares, Stmt.functionName?]
    obtain ⟨_, _, _, _, _, -, -, -, f, _, -, -, hfound⟩ :=
      Module.function_beyond hm hr hplaced hname hinner (by simp [Layer.Declares])
    exact ⟨m, r, use, ident, f.id, hm, hr, Module.mem_exprs.2 ⟨_, _, hplaced, hname⟩,
      beq_iff_eq.1 hcall, hfound⟩
  · cases hcall

/-- A function within a block that comes after a cell with the name of a function of the scope around. -/
def hiddenFunction : List Char :=
  "fn main() { fn h() {} let h = 1; if 1 { fn g() { h(); } } }".toList

/-- The same with another name for the cell. -/
def renamedCell : List Char :=
  "fn main() { fn h() {} let k = 1; if 1 { fn g() { h(); } } }".toList

/-- The call of the function depends on the name of a cell that is not visible at the call. -/
theorem hiddenFunction_undefined :
    (∃ m, Module.ofSource? hiddenFunction = .ok m ∧
      m.resolve = .error ((ResolveProblem.undefined "h").onLine 1)) ∧
    ∃ m r, Module.ofSource? renamedCell = .ok m ∧ m.resolve = .ok r := by
  have hhidden : ((Module.ofSource? hiddenFunction).toOption.map fun m => m.resolve.map fun _ => ()) =
      some (.error ((ResolveProblem.undefined "h").onLine 1)) := by
    decide +kernel
  have hrenamed : ((Module.ofSource? renamedCell).toOption.map fun m => m.resolve.map fun _ => ()) =
      some (.ok ()) := by
    decide +kernel
  obtain ⟨m, hm, hfails⟩ := Option.map_eq_some_iff.1 hhidden
  obtain ⟨m', hm', hok⟩ := Option.map_eq_some_iff.1 hrenamed
  refine ⟨⟨m, eq_ok_of_toOption hm, ?_⟩, m', ?_⟩
  · cases hr : m.resolve with
    | ok r =>
      rw [hr] at hfails
      cases hfails
    | error failure =>
      rw [hr] at hfails
      exact congrArg _ (Except.error.inj hfails)
  · cases hr : m'.resolve with
    | ok r => exact ⟨r, eq_ok_of_toOption hm', rfl⟩
    | error failure =>
      rw [hr] at hok
      cases hok

end WordLang
