import WordLang.Compile
import WordLang.Proofs.Flow.Following
import WordLang.Proofs.Linear.Lowering
import WordLang.Proofs.Tree.Names
import WordLang.Proofs.Typing.Soundness

/-!
# Checked programs become code

Every stage after the check succeeds, as long as there are identifiers for all that is named. The
graphs of a checked program implement its functions, and its linear code is lowered from these graphs,
function by function.

## Main definitions

* `Checked.Valid`: what the check has found out about a program
* `Checked.flow`: the graphs of a checked program
* `Checked.EnoughIds`: programs for whose parts there are identifiers of 32 bits
* `Checked.Lowered`: a function of linear code that was lowered from a function of the program

## Main results

* `Checked.valid_of_ofSource?`: a source text that passes the check gives a valid program
* `Checked.Valid.implements`: the graphs implement the functions
* `Checked.Valid.lowerProgram`: the linear code exists and is lowered from the graphs
-/

namespace WordLang

variable {source : List Char} {f : Linear.Function}

/-- A failure that a source text is to blame for. -/
inductive Failure.OfSource : Failure → Prop where
  | unreadable (problems : List Diagnostic) : OfSource (.unreadable problems)
  | resolve (problem : Diagnostic) : OfSource (.resolve problem)
  | type (problem : Diagnostic) : OfSource (.type problem)

theorem Module.unreadable_of_ofSource? {failure : Failure}
    (h : Module.ofSource? source = .error failure) : ∃ problems, failure = .unreadable problems := by
  simp only [Module.ofSource?] at h
  split at h
  · split at h
    · cases h
    · cases h
      exact ⟨_, rfl⟩
  · cases h
    exact ⟨_, rfl⟩

namespace Checked

/-! ## What the check finds out -/

/-- What the check has found out: the tree makes sense, and every function passed the check. -/
structure Valid (c : Checked) : Prop where
  clean : c.module.Clean
  resolved : c.resolutions.Scoped c.module
  items : ∀ s ∈ c.module.items, ∃ tag decl, s = .function tag decl
  checked : c.resolutions.AllChecked c.answers
  /-- The types that were found are those of the typing judgement. -/
  sound : c.answers.Sound c.module c.resolutions
  /-- Names of functions have letters, digits and underscores only. -/
  words : ∀ {tag decl}, .function tag decl ∈ c.module.statements →
    ∀ d ∈ decl.ident.name.toList, isWordPart d = true

theorem check_ensures {m : Module} {r : Resolutions}
    (hm : Module.ofSource? source = .ok m) (hr : m.resolve = .ok r) :
    Ensures (Query.checkProgram r m) {} (fun _ answers => Valid ⟨m, r, answers⟩)
      fun failure => failure.IsType ∧ ¬m.WellTyped r := by
  have hresolved := Module.resolved_of_resolve hm hr
  have hmeets := Query.checkProgram_meets hresolved {} (Answers.consistent_empty m r)
  refine (hmeets.ensures fun _ _ h => h.2).mono ?_ fun _ h => h
  rintro _ answers ⟨hconsistent, -, hitems, hchecked⟩
  exact ⟨hresolved.clean, hresolved.inScope, hitems, hchecked, hconsistent.sound hresolved,
    Module.isWordPart_of_function hm⟩

theorem valid_of_ofSource? {c : Checked} (h : ofSource? source = .ok c) : c.Valid := by
  obtain ⟨m, hm, h⟩ := exists_of_bind_eq_ok h
  obtain ⟨r, hr, h⟩ := exists_of_bind_eq_ok h
  have hens := check_ensures hm hr
  simp only [Ensures] at hens
  split at h
  · next answers hrun =>
    cases h
    rw [show Query.checkProgram r m {} = _ from hrun] at hens
    exact hens
  · cases h

/-- A source text that does not pass the check is to blame for it. -/
theorem ofSource_of_ofSource? {failure : Failure}
    (h : ofSource? source = .error failure) : failure.OfSource := by
  rcases error_of_bind_eq_error h with hm | ⟨m, hm, h⟩
  · obtain ⟨problems, rfl⟩ := Module.unreadable_of_ofSource? hm
    exact .unreadable problems
  rcases error_of_bind_eq_error h with hr | ⟨r, hr, h⟩
  · obtain ⟨problem, rfl⟩ := Module.isResolve_of_resolve hr
    exact .resolve problem
  have hens := check_ensures hm hr
  simp only [Ensures] at hens
  split at h
  · cases h
  · next failure' answers hrun =>
    cases h
    rw [show Query.checkProgram r m {} = _ from hrun] at hens
    obtain ⟨⟨problem, rfl⟩, -⟩ := hens
    exact .type problem

/-! ## Graphs -/

/-- The graph of the function that a statement declares, if it has a body. -/
def graph? (c : Checked) (simplify : Bool) (id : StmtId) : Option Flow.Function :=
  if (c.resolutions.function? id).any fun decl => decl.body.isSome then
    match (Flow.buildFunction c.resolutions id).run c.answers with
    | .ok graph _ => some (if simplify then graph.simplify else graph)
    | .error _ _ => none
  else none

/-- The functions of a checked program as graphs and foreign functions. -/
def flow (c : Checked) (simplify : Bool) : Flow.Program := fun id =>
  match c.graph? simplify id with
  | some graph => some (.graph graph)
  | none =>
    match (c.resolutions.function? id).map FnDecl.linkage with
    | some (.ok ⟨some symbol, _⟩) => some (.foreign symbol)
    | _ => none

/-- Identifiers last: there are enough of them for the nodes of the tree, and for the blocks, the
storage cells and the registers of every function. -/
structure EnoughIds (c : Checked) : Prop where
  nodes : c.module.EnoughIds
  graphs : ∀ id ∈ c.resolutions.functions, ∀ decl ∈ c.resolutions.function? id,
    ∀ body ∈ decl.body, Flow.EnoughIds decl.params body
  registers : ∀ id ∈ c.resolutions.functions, ∀ g ∈ c.graph? false id, g.registerCount ≤ idCount

instance (c : Checked) : Decidable c.EnoughIds :=
  decidable_of_iff (c.module.EnoughIds ∧
      (∀ id ∈ c.resolutions.functions, ∀ decl ∈ c.resolutions.function? id,
        ∀ body ∈ decl.body, Flow.EnoughIds decl.params body) ∧
      ∀ id ∈ c.resolutions.functions, ∀ g ∈ c.graph? false id, g.registerCount ≤ idCount)
    ⟨fun h => ⟨h.1, h.2.1, h.2.2⟩, fun h => ⟨h.nodes, h.graphs, h.registers⟩⟩

namespace Valid

variable {c : Checked} (hc : c.Valid) {id : StmtId} {decl : FnDecl}
include hc

theorem functions_le (henough : c.EnoughIds) : c.resolutions.functions.length ≤ idCount := by
  have hsub : c.resolutions.functions ⊆ c.module.statements.map Stmt.id := by
    intro id hid
    obtain ⟨tag, decl, -, hfind, -⟩ := hc.resolved.function id hid
    obtain ⟨hmem, rfl⟩ := hc.resolved.declared hfind
    exact List.mem_map_of_mem hmem
  have hle := (hc.resolved.nodup.subperm hsub).length_le
  rw [List.length_map] at hle
  exact hle.trans henough.nodes.statements

theorem functionChecked (hdecl : c.resolutions.function? id = some decl) :
    id ∈ c.resolutions.functions ∧
      ∃ params result, c.resolutions.FunctionChecked c.answers id decl params result := by
  obtain ⟨tag, hfind⟩ := Resolutions.function?_eq_some.1 hdecl
  have hid := hc.resolved.listed hfind
  obtain ⟨tag', decl', params, result, hfind', hchecked⟩ := hc.checked id hid
  rw [hfind, Option.some.injEq, Stmt.function.injEq] at hfind'
  obtain ⟨-, rfl⟩ := hfind'
  exact ⟨hid, params, result, hchecked⟩

theorem function?_of_item {tag : Tag} (hitem : .function tag decl ∈ c.module.items) :
    c.resolutions.function? tag.id = some decl := by
  obtain ⟨tag', decl', -, hfind, -⟩ := hc.resolved.function tag.id (hc.resolved.items hitem)
  obtain ⟨hmem, hid⟩ := hc.resolved.declared hfind
  have heq := List.inj_on_of_nodup_map hc.clean.stmtIds hmem (Stmt.mem_allOfList hitem) hid
  cases heq
  exact Resolutions.function?_eq_some.2 ⟨tag, hfind⟩

theorem flow_of_no_body (hdecl : c.resolutions.function? id = some decl) (hbody : decl.body = none)
    (simplify : Bool) : ∃ symbol exported, decl.linkage = .ok ⟨some symbol, exported⟩ ∧
      c.graph? simplify id = none ∧ c.flow simplify id = some (.foreign symbol) := by
  obtain ⟨-, params, result, hchecked⟩ := hc.functionChecked hdecl
  obtain ⟨⟨foreign, exported⟩, hlinked⟩ := hchecked.linked
  have hgraph : c.graph? simplify id = none := by simp [graph?, hdecl, hbody]
  cases foreign with
  | none =>
    have hsome := hlinked.body.2 rfl
    rw [hbody] at hsome
    cases hsome
  | some symbol =>
    exact ⟨symbol, exported, hlinked.stated, hgraph, by simp [flow, hgraph, hdecl, hlinked.stated]⟩

variable (henough : c.EnoughIds)
include henough

theorem graph?_of_body (hdecl : c.resolutions.function? id = some decl) {body : Block}
    (hbody : decl.body = some body) :
    ∃ f, Flow.buildFunction c.resolutions id c.answers = .ok f c.answers ∧
      (∀ simplify, c.graph? simplify id = some (if simplify then f.simplify else f)) ∧
      Flow.GraphOf c.resolutions id decl body f := by
  obtain ⟨hid, params, result, hchecked⟩ := hc.functionChecked hdecl
  obtain ⟨f, hf, hgraph⟩ := Flow.buildFunction_makes hc.clean hc.resolved hc.sound hid hdecl hbody
    hchecked (henough.graphs id hid decl hdecl body hbody)
  refine ⟨f, hf, fun simplify => ?_, hgraph⟩
  have hrun : (Flow.buildFunction c.resolutions id).run c.answers = .ok f c.answers := hf
  simp [graph?, hdecl, hbody, hrun]

theorem implements : Flow.Implements (c.flow false) c.resolutions := by
  constructor
  · intro id decl body hdecl hbody
    obtain ⟨f, -, hgraph?, hgraph⟩ := hc.graph?_of_body henough hdecl hbody
    exact ⟨f, by simp [flow, hgraph?], hgraph⟩
  · intro id decl symbol exported hdecl hbody hlinkage
    obtain ⟨symbol', exported', hlinkage', -, hflow⟩ := hc.flow_of_no_body hdecl hbody false
    rw [hlinkage] at hlinkage'
    cases hlinkage'
    exact hflow

theorem graphs_eq (simplify : Bool) :
    c.graphs simplify = (c.resolutions.functions.filterMap (c.graph? simplify), none) := by
  have hgeneral : ∀ ids ⊆ c.resolutions.functions,
      graphsFrom c.resolutions simplify ids c.answers = (ids.filterMap (c.graph? simplify), none) := by
    intro ids hids
    induction ids with
    | nil => rfl
    | cons id ids ih =>
      have hrest := ih fun i hi => hids (List.mem_cons_of_mem _ hi)
      obtain ⟨tag, decl, -, hfind, -⟩ := hc.resolved.function id (hids List.mem_cons_self)
      have hdecl := Resolutions.function?_eq_some.2 ⟨tag, hfind⟩
      cases hbody : decl.body with
      | none =>
        obtain ⟨-, -, -, hgraph, -⟩ := hc.flow_of_no_body hdecl hbody simplify
        simp [graphsFrom, hdecl, hbody, hrest, hgraph]
      | some body =>
        obtain ⟨f, hf, hgraph, -⟩ := hc.graph?_of_body henough hdecl hbody
        have hrun : (Flow.buildFunction c.resolutions id).run c.answers = .ok f c.answers := hf
        simp [graphsFrom, hdecl, hbody, hrun, hrest, hgraph]
  exact hgeneral _ (List.Subset.refl _)

/-! ## Linear code -/

theorem decl_of_graph? {simplify : Bool} {f : Flow.Function} (h : c.graph? simplify id = some f) :
    f.decl = id := by
  cases hdecl : c.resolutions.function? id with
  | none => simp [graph?, hdecl] at h
  | some decl =>
    cases hbody : decl.body with
    | none => simp [graph?, hdecl, hbody] at h
    | some body =>
      obtain ⟨g, -, hg, hgraph⟩ := hc.graph?_of_body henough hdecl hbody
      rw [hg, Option.some.injEq] at h
      subst h
      split
      · rw [Flow.Function.decl_simplify, hgraph.declares]
      · exact hgraph.declares

theorem find?_graphs (simplify : Bool) (hid : id ∈ c.resolutions.functions) :
    ((c.resolutions.functions.filterMap (c.graph? simplify)).reverse.find? fun g => g.decl = id) =
      c.graph? simplify id := by
  -- Graphs are told apart by their declarations.
  have hmem : ∀ {g}, g ∈ (c.resolutions.functions.filterMap (c.graph? simplify)).reverse ↔
      ∃ i ∈ c.resolutions.functions, c.graph? simplify i = some g := by
    simp
  cases hfind : ((c.resolutions.functions.filterMap (c.graph? simplify)).reverse.find?
      fun g => g.decl = id) with
  | some g =>
    obtain ⟨i, -, hg⟩ := hmem.1 (List.mem_of_find?_eq_some hfind)
    have hdecl : g.decl = id := by simpa using List.find?_some hfind
    rw [hc.decl_of_graph? henough hg] at hdecl
    rw [← hdecl, hg]
  | none =>
    cases hg : c.graph? simplify id with
    | none => rfl
    | some g =>
      have hne := List.find?_eq_none.1 hfind g (hmem.2 ⟨id, hid, hg⟩)
      exact absurd (decide_eq_true (hc.decl_of_graph? henough hg)) hne

end Valid

structure Lowered (c : Checked) (simplify : Bool) (id : StmtId) (decl : FnDecl) (linkage : Linkage)
    (f : Linear.Function) : Prop where
  declared : c.resolutions.function? id = some decl
  linked : decl.Linked linkage
  label : f.label = Linear.symbolOf c.module id decl
  arity : f.arity = decl.params.length
  /-- The symbol under which foreign code calls the function. -/
  exported : f.exported = linkage.exported
  definition : ∃ d, c.flow simplify id = some d ∧
    f.LoweredFrom c.resolutions.functions (some d)

/-- Linear code whose functions were lowered from the functions of the program, in order. -/
def LowersTo (c : Checked) (simplify : Bool) (p : Linear.Program) : Prop :=
  List.Forall₂ (fun id f => ∃ decl linkage, c.Lowered simplify id decl linkage f)
    c.resolutions.functions p.functions

namespace Valid

variable {c : Checked} (hc : c.Valid) (henough : c.EnoughIds)
include hc henough

theorem lowerDefinition_ensures (simplify : Bool) {id : StmtId} {decl : FnDecl} {linkage : Linkage}
    (hdecl : c.resolutions.function? id = some decl) (hlinked : decl.Linked linkage)
    (σ : Linear.LowerState) :
    Ensures (Linear.lowerDefinition c.resolutions.functions decl linkage (c.graph? simplify id)) σ
      (fun definition _ => ∃ d, c.flow simplify id = some d ∧
        ∀ f : Linear.Function, f.arity = decl.params.length → f.definition = definition →
          f.LoweredFrom c.resolutions.functions (some d))
      fun _ => False := by
  cases hbody : decl.body with
  | none =>
    obtain ⟨symbol, exported, hstated, hgraph, hflow⟩ := hc.flow_of_no_body hdecl hbody simplify
    obtain rfl : linkage = ⟨some symbol, exported⟩ := by
      rw [hlinked.stated] at hstated
      exact Except.ok.inj hstated
    simp only [Linear.lowerDefinition, hgraph]
    exact .pure ⟨_, hflow, fun _ _ hf => hf⟩
  | some body =>
    obtain ⟨g, -, hgraph?, hgraph⟩ := hc.graph?_of_body henough hdecl hbody
    have hforeign : linkage.foreign = none := hlinked.body.1 (by rw [hbody]; rfl)
    have hflow : c.flow simplify id = some (.graph (if simplify then g.simplify else g)) := by
      simp [flow, hgraph?]
    have hlowerable : Linear.Lowerable c.resolutions.functions (if simplify then g.simplify else g) := by
      split
      · exact hgraph.lowerable.simplify
      · exact hgraph.lowerable
    have hparams : (if simplify then g.simplify else g).params.length = decl.params.length := by
      have hlen : g.params.length = decl.params.length := by simp [hgraph.params]
      split
      · rwa [hgraph.lowerable.tidy.improves_simplify.params]
      · exact hlen
    have hregisters : (if simplify then g.simplify else g).registerCount ≤ idCount := by
      have hle := henough.registers id (hc.functionChecked hdecl).1 g (hgraph? false)
      split
      · exact (Linear.registerCount_simplify_le hgraph.lowerable.tidy).trans hle
      · exact hle
    simp only [Linear.lowerDefinition, hforeign, hgraph?]
    refine .bind_of (Linear.lowerFunction_ensures (fun _ => hlowerable) hregisters σ)
      fun b σ' hb => ?_
    exact .pure ⟨_, hflow, fun f harity hf => ⟨hlowerable, harity.trans hparams.symm, b, hf, hb⟩⟩

theorem lowerFunctions_ensures (simplify : Bool) {ids : List StmtId}
    (hids : ids ⊆ c.resolutions.functions) (σ : Linear.LowerState) :
    Ensures (Linear.lowerFunctions c.module c.resolutions
        (c.resolutions.functions.filterMap (c.graph? simplify)) ids) σ
      (fun fs _ => List.Forall₂ (fun id f => ∃ decl linkage, c.Lowered simplify id decl linkage f) ids fs)
      fun _ => False := by
  induction ids generalizing σ with
  | nil => exact .nil
  | cons id ids ih =>
    have hid := hids List.mem_cons_self
    obtain ⟨tag, decl, -, hfind, -⟩ := hc.resolved.function id hid
    have hdecl := Resolutions.function?_eq_some.2 ⟨tag, hfind⟩
    obtain ⟨-, params, result, hchecked⟩ := hc.functionChecked hdecl
    obtain ⟨linkage, hlinked⟩ := hchecked.linked
    simp only [Linear.lowerFunctions, hdecl, hlinked.stated, hc.find?_graphs henough simplify hid]
    refine .bind_of (hc.lowerDefinition_ensures henough simplify hdecl hlinked σ) fun d σ₁ hd => ?_
    refine .bind_of (ih (fun i hi => hids (List.mem_cons_of_mem _ hi)) σ₁) fun fs σ₂ hfs => ?_
    obtain ⟨fd, hflow, hfrom⟩ := hd
    refine .pure (.cons ⟨decl, linkage, ?_⟩ hfs)
    exact ⟨hdecl, hlinked, rfl, rfl, rfl, fd, hflow, hfrom _ rfl rfl⟩

theorem exists_program (simplify : Bool) :
    ∃ p strings, (∀ optimize, c.linear simplify optimize =
        .ok (if optimize then p.optimize else p)) ∧
      p.strings = Table.ofList (List.map (fun e => (e.2, e.1)) (List.zipIdx strings)) ∧
      c.LowersTo simplify p := by
  obtain ⟨fs, σ, hrun, hfs⟩ :=
    (hc.lowerFunctions_ensures henough simplify (List.Subset.refl _) ⟨0, []⟩).exists_ok
  refine ⟨⟨_, fs⟩, σ.strings, fun optimize => ?_, rfl, hfs⟩
  have hrun' : (Linear.lowerFunctions c.module c.resolutions
      (c.resolutions.functions.filterMap (c.graph? simplify)) c.resolutions.functions).run ⟨0, []⟩ =
        .ok fs σ := hrun
  simp only [linear, hc.graphs_eq henough, linearOf, Linear.lowerProgram, hrun']
  rfl

end Valid

/-! ## What lowered programs are like -/

namespace LowersTo

variable {c : Checked} {simplify : Bool} {p : Linear.Program} (hp : c.LowersTo simplify p)
include hp

theorem length_eq : p.functions.length = c.resolutions.functions.length :=
  (List.Forall₂.length_eq hp).symm

/-- The function at a position was lowered from the one that is listed there. -/
theorem lowered {i : Nat} {id : StmtId}
    (hid : c.resolutions.functions[i]? = some id) (hf : p.functions[i]? = some f) :
    ∃ decl linkage, c.Lowered simplify id decl linkage f := by
  obtain ⟨hlt, rfl⟩ := List.getElem?_eq_some_iff.1 hid
  obtain ⟨hlt', rfl⟩ := List.getElem?_eq_some_iff.1 hf
  exact List.Forall₂.get hp hlt hlt'

theorem exists_lowered (hf : f ∈ p.functions) :
    ∃ (i : Nat) (id : StmtId), c.resolutions.functions[i]? = some id ∧ p.functions[i]? = some f := by
  obtain ⟨i, hi⟩ := List.getElem?_of_mem hf
  have hlt : i < c.resolutions.functions.length := by
    rw [← hp.length_eq]
    exact (List.getElem?_eq_some_iff.1 hi).1
  exact ⟨i, _, List.getElem?_eq_getElem hlt, hi⟩

theorem lowers (hbound : c.resolutions.functions.length ≤ idCount) :
    Linear.Lowers c.resolutions.functions (c.flow simplify) p := by
  refine ⟨hbound, fun id i hi => ?_⟩
  obtain ⟨hlt, hget, -⟩ := List.idxOf?_eq_some_iff.1 hi
  have hid : c.resolutions.functions[i]? = some id := by
    rw [List.getElem?_eq_getElem hlt, hget]
  have hf := List.getElem?_eq_getElem (hp.length_eq ▸ hlt)
  obtain ⟨decl, linkage, hlowered⟩ := hp.lowered hid hf
  obtain ⟨d, hd, hfrom⟩ := hlowered.definition
  exact ⟨_, hf, hd ▸ hfrom⟩

theorem bodyCode (hf : f ∈ p.functions) {b : Linear.Body}
    (hb : f.definition = .body b) : ∃ g, Linear.BodyCode c.resolutions.functions g b := by
  obtain ⟨i, id, hid, hi⟩ := hp.exists_lowered hf
  obtain ⟨decl, linkage, hlowered⟩ := hp.lowered hid hi
  obtain ⟨d, -, hfrom⟩ := hlowered.definition
  cases d with
  | graph g =>
    obtain ⟨-, -, b', hb', hcode⟩ := hfrom
    rw [hb, Linear.Definition.body.injEq] at hb'
    exact ⟨g, hb' ▸ hcode⟩
  | foreign symbol => cases hb.symm.trans (show f.definition = .foreign symbol from hfrom)

theorem regular : p.Regular := by
  intro f hf b hb
  obtain ⟨g, hcode⟩ := hp.bodyCode hf hb
  rw [hp.length_eq]
  exact ⟨_, hcode.regular⟩

end LowersTo

end Checked

end WordLang
