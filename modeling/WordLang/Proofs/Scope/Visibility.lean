import WordLang.Proofs.Scope.Resolution
import WordLang.Proofs.Tree.Reading

/-!
# Resolution gives scoped programs

The notes of a module with distinct identifiers are all found in the tables of what resolution finds
out. A name is bound where it stands only to what is visible there, so such a module is scoped.

## Main definitions

* `Place.owner`, `Place.arity`, `Place.visible`: the function around a place, the number of its
  parameters and the cells that are visible
* `Module.Resolved`: modules that were read and resolved

## Main results

* `Place.inScope_of_find?`: what a name is bound to at a place is in scope there
* `Module.scoped_of_resolve`: what resolution finds out about a clean module makes sense
-/

namespace WordLang

variable {place : Place} {s : Stmt} {value : Option Expr} {tag : Tag} {id : StmtId} {ident : Ident}
  {e : Expr}

/-! ## What is found in the tables -/

theorem Expr.map_fst_uses_sublist (scopes : Scopes) (es : List Expr) :
    ((uses scopes es).map Prod.fst).Sublist (es.map Expr.id) := by
  induction es with
  | nil => exact .slnil
  | cons e rest ih =>
    cases e with
    | name tag ident => exact ih.cons_cons _
    | _ => exact ih.cons _

theorem Place.mem_flatMap_uses {placed : List (Place × Stmt)} {id : ExprId} {o : Option Binding} :
    (id, o) ∈ placed.flatMap uses ↔ ∃ place s tag ident, (place, s) ∈ placed ∧
      Expr.name tag ident ∈ s.ownExprs.flatMap Expr.all ∧ tag.id = id ∧
      Scopes.find? ident.name (place.scopes false) = o := by
  simp only [List.mem_flatMap, Place.uses, Expr.uses, List.mem_filterMap]
  constructor
  · rintro ⟨⟨place, s⟩, hplaced, e, he, heq⟩
    cases e with
    | name tag ident =>
      cases heq
      exact ⟨place, s, tag, ident, hplaced, he, rfl, rfl⟩
    | _ => cases heq
  · rintro ⟨place, s, tag, ident, hplaced, he, rfl, rfl⟩
    exact ⟨(place, s), hplaced, _, he, rfl⟩

theorem Stmt.mem_recorded {s t : Stmt} :
    (id, t) ∈ s.recorded ↔ t = s ∧ s.id = id ∧ (s.functionName?.isSome ∨ s.cellName?.isSome) := by
  cases s <;>
    simp [recorded, functionName?, cellName?, Stmt.id, Stmt.tag, and_comm, eq_comm]

theorem Stmt.mem_listed : id ∈ s.listed ↔ ∃ tag decl, s = .function tag decl ∧ tag.id = id := by
  cases s <;> simp [listed, eq_comm]

theorem Module.exprs_eq (m : Module) :
    m.exprs = m.placed.flatMap fun q => q.2.ownExprs.flatMap Expr.all := by
  rw [Module.exprs, ← m.map_snd_placed, List.flatMap_map]

theorem Module.mem_exprs {m : Module} :
    e ∈ m.exprs ↔ ∃ place s, (place, s) ∈ m.placed ∧ e ∈ s.ownExprs.flatMap Expr.all := by
  rw [m.exprs_eq, List.mem_flatMap, Prod.exists]

/-- A statement that holds expressions is not inside the body of a function that it declares. -/
theorem Module.proper_of_name {m : Module}
    (hplaced : (place, s) ∈ m.placed) (he : e ∈ s.ownExprs.flatMap Expr.all) : place.Proper false := by
  have hproper := Module.proper_of_mem_placed hplaced
  cases s with
  | function tag decl => cases he
  | _ => exact hproper

section

variable {m : Module} {notes : Notes} (hclean : m.Clean) (hnotes : notes.At m.placed)
include hclean

theorem nodup_placed : (m.placed.flatMap fun q => [q.2.id]).Nodup := by
  have hmap : m.statements.map Stmt.id = m.placed.flatMap fun q => [q.2.id] := by
    rw [← m.map_snd_placed, List.map_map, List.map_eq_flatMap]
    rfl
  rw [← hmap]
  exact hclean.stmtIds

include hnotes

theorem find?_bindings {id : ExprId} {b : Binding} :
    notes.resolutions.bindings.find? id = some b ↔ (id, some b) ∈ m.placed.flatMap Place.uses := by
  refine find?_ofList_iff_mem hnotes.bindings ?_
  have hexprs := hclean.exprIds
  rw [m.exprs_eq, List.map_flatMap] at hexprs
  rw [List.map_flatMap]
  exact hexprs.sublist (.flatMap_right _ fun q _ => Expr.map_fst_uses_sublist _ _)

theorem find?_breakTargets {id loop : StmtId} :
    notes.resolutions.breakTargets.find? id = some loop ↔
      (id, some loop) ∈ m.placed.flatMap Place.ends := by
  refine find?_ofList_iff_mem hnotes.ends ?_
  rw [List.map_flatMap]
  refine (nodup_placed hclean).sublist (.flatMap_right _ fun q _ => ?_)
  obtain ⟨place, s⟩ := q
  cases s <;> simp [Place.ends, Stmt.id, Stmt.tag]

theorem find?_declarations : notes.resolutions.declarations.find? id = some s ↔
      s ∈ m.statements ∧ s.id = id ∧ (s.functionName?.isSome ∨ s.cellName?.isSome) := by
  have hkeys : (notes.declarations.map Prod.fst).Nodup := by
    refine (hnotes.declarations.map _).nodup_iff.2 ?_
    rw [List.map_flatMap]
    refine (nodup_placed hclean).sublist (.flatMap_right _ fun q _ => ?_)
    obtain ⟨place, s⟩ := q
    cases s <;> simp [Stmt.recorded, Stmt.id, Stmt.tag]
  calc notes.resolutions.declarations.find? id = some s
      ↔ (id, s) ∈ notes.declarations :=
        ⟨Table.mem_of_find?_ofList, Table.find?_ofList_of_mem hkeys⟩
    _ ↔ ∃ place t, (place, t) ∈ m.placed ∧ (id, s) ∈ t.recorded := by
        rw [hnotes.declarations.mem_iff, List.mem_flatMap, Prod.exists]
    _ ↔ s ∈ m.statements ∧ s.id = id ∧ (s.functionName?.isSome ∨ s.cellName?.isSome) := by
        rw [Module.exists_place]
        simp only [Stmt.mem_recorded]
        constructor
        · rintro ⟨place, _, hplaced, rfl, hrest⟩
          exact ⟨⟨place, hplaced⟩, hrest⟩
        · rintro ⟨⟨place, hplaced⟩, hrest⟩
          exact ⟨place, s, hplaced, rfl, hrest⟩

theorem find?_of_name
    (hplaced : (place, s) ∈ m.placed) (hname : Expr.name tag ident ∈ s.ownExprs.flatMap Expr.all) :
    ∃ b, notes.resolutions.bindings.find? tag.id = some b ∧
      Scopes.find? ident.name (place.scopes false) = some b := by
  have hmem := Place.mem_flatMap_uses.2 ⟨place, s, tag, ident, hplaced, hname, rfl, rfl⟩
  obtain ⟨b, hb⟩ := exists_eq_some_of_mem hnotes.bindings hmem
  rw [hb] at hmem
  exact ⟨b, (find?_bindings hclean hnotes).2 hmem, hb⟩

theorem find?_of_break (hplaced : (place, Stmt.break tag) ∈ m.placed) :
    ∃ loop, notes.resolutions.breakTargets.find? tag.id = some loop ∧
      place.loops.head? = some loop := by
  have hmem : (tag.id, place.loops.head?) ∈ m.placed.flatMap Place.ends :=
    List.mem_flatMap.2 ⟨_, hplaced, List.mem_singleton.2 rfl⟩
  obtain ⟨loop, hloop⟩ := exists_eq_some_of_mem hnotes.ends hmem
  rw [hloop] at hmem
  exact ⟨loop, (find?_breakTargets hclean hnotes).2 hmem, hloop⟩

end

/-! ## What is visible at a place -/

/-- The statements of the scope that a layer is. -/
def Layer.statements : Layer → List Stmt
  | .scope before here after => before ++ here :: after
  | _ => []

theorem Stmt.subset_visibleAfter (visible : List StmtId) (list : List Stmt) :
    visible ⊆ visibleAfter visible list := by
  induction list generalizing visible with
  | nil => exact List.Subset.refl _
  | cons s rest ih => exact List.Subset.trans (List.subset_append_right _ _) (ih _)

theorem Stmt.mem_visibleAfter {type : Option TypeExpr} {list : List Stmt} (visible : List StmtId)
    (h : .declare tag ident type value ∈ list) : tag.id ∈ visibleAfter visible list := by
  induction list generalizing visible with
  | nil => cases h
  | cons s rest ih =>
    rcases List.mem_cons.1 h with rfl | h
    · exact subset_visibleAfter _ rest List.mem_cons_self
    · exact ih _ h

theorem Stmt.visibleAfter_concat (visible : List StmtId) (list : List Stmt) (s : Stmt) :
    visibleAfter visible (list ++ [s]) = s.introduces ++ visibleAfter visible list := by
  induction list generalizing visible with
  | nil => rfl
  | cons s' rest ih => exact ih _

namespace Place

def owner : Place → StmtId
  | [] => 0
  | .function tag _ :: _ => tag.id
  | _ :: outer => owner outer

def arity : Place → Nat
  | [] => 0
  | .function _ decl :: _ => decl.params.length
  | _ :: outer => arity outer

/-- The cells of the innermost function that are visible at a place. -/
def visible : Place → List StmtId
  | [] => []
  | .scope before _ _ :: outer => Stmt.visibleAfter (visible outer) before
  | .function _ _ :: _ => []
  | .loop _ :: outer => visible outer

/-- The functions that the scopes around a place declare are among given ones. -/
def Listed (functions : List StmtId) (place : Place) : Prop :=
  ∀ layer ∈ place, ∀ tag decl, .function tag decl ∈ layer.statements → tag.id ∈ functions

theorem Listed.within {functions : List StmtId} {layer : Layer}
    (h : place.Listed functions) (hlayer : layer.statements = []) :
    Listed functions (layer :: place) := by
  refine List.forall_mem_cons.2 ⟨fun tag decl hmem => ?_, h⟩
  rw [hlayer] at hmem
  cases hmem

variable {inner outer : Place} {name : String}

theorem mem_visible {before : List Stmt} {here : Stmt} {after : List Stmt}
    {type : Option TypeExpr} (hinner : ∀ layer ∈ inner, ¬layer.IsFunction)
    (h : .declare tag ident type value ∈ before) :
    tag.id ∈ visible (inner ++ .scope before here after :: outer) := by
  induction inner with
  | nil => exact Stmt.mem_visibleAfter _ h
  | cons layer inner ih =>
    have ih := ih fun layer hl => hinner layer (List.mem_cons_of_mem _ hl)
    cases layer with
    | scope before' here' after' => exact Stmt.subset_visibleAfter _ before' ih
    | loop id => exact ih
    | function tag' decl => exact absurd trivial (hinner _ List.mem_cons_self)

theorem owner_eq {decl : FnDecl} (hinner : ∀ layer ∈ inner, ¬layer.IsFunction) :
    owner (inner ++ .function tag decl :: outer) = tag.id ∧
      arity (inner ++ .function tag decl :: outer) = decl.params.length := by
  induction inner with
  | nil => exact ⟨rfl, rfl⟩
  | cons layer inner ih =>
    have ih := ih fun layer hl => hinner layer (List.mem_cons_of_mem _ hl)
    cases layer with
    | scope before' here' after' => exact ih
    | loop id => exact ih
    | function tag' decl' => exact absurd trivial (hinner _ List.mem_cons_self)

theorem inScope_of_find? {functions : List StmtId} {b : Binding}
    (hproper : place.Proper false) (hlisted : place.Listed functions)
    (h : Scopes.find? name (place.scopes false) = some b) :
    b.InScope functions place.owner place.arity place.visible := by
  have hrefers := refersTo_of_find?_scopes hproper h
  cases b with
  | «local» id =>
    obtain ⟨inner, _, _, _, outer, rfl, hinner, _, tag, _, _, _, _, rfl, -, rfl, -⟩ := hrefers
    exact mem_visible (fun layer hl => (hinner layer hl).1) (List.mem_append_right _ List.mem_cons_self)
  | parameter owner index =>
    obtain ⟨inner, tag, decl, outer, rfl, hinner, rfl, param, hparam, -⟩ := hrefers
    have hnone : ∀ layer ∈ inner, ¬layer.IsFunction := fun layer hl => (hinner layer hl).1
    rw [(owner_eq hnone).1, (owner_eq hnone).2]
    exact ⟨rfl, (List.getElem?_eq_some_iff.1 hparam).1⟩
  | function id =>
    obtain ⟨inner, before, here, after, outer, rfl, tag, decl, hmem, -, rfl⟩ := hrefers
    exact hlisted (.scope before here after) (by simp) tag decl hmem

end Place

section

variable {r : Resolutions} {owner : StmtId} {arity : Nat} {visible : List StmtId}

mutual

theorem Expr.scoped_of_names : ∀ e : Expr, (∀ tag ident, .name tag ident ∈ e.all →
    ∃ b, r.bindings.find? tag.id = some b ∧ b.InScope r.functions owner arity visible) →
    e.Scoped r owner arity visible
  | .error _, _ => trivial
  | .int _ _, _ => trivial
  | .string _ _, _ => trivial
  | .name tag ident, h => h tag ident List.mem_cons_self
  | .call _ callee args, h =>
    ⟨allScoped_of_names args fun tag ident hm => h tag ident (by simp [Expr.all, hm]),
      scoped_of_names callee fun tag ident hm => h tag ident (by simp [Expr.all, hm])⟩
  | .unary _ _ operand, h =>
    scoped_of_names operand fun tag ident hm => h tag ident (by simp [Expr.all, hm])
  | .binary _ _ lhs rhs, h =>
    ⟨scoped_of_names lhs fun tag ident hm => h tag ident (by simp [Expr.all, hm]),
      scoped_of_names rhs fun tag ident hm => h tag ident (by simp [Expr.all, hm])⟩

theorem Expr.allScoped_of_names : ∀ es : List Expr, (∀ tag ident, .name tag ident ∈ allOfList es →
    ∃ b, r.bindings.find? tag.id = some b ∧ b.InScope r.functions owner arity visible) →
    AllScoped r owner arity visible es
  | [], _ => trivial
  | e :: rest, h =>
    ⟨scoped_of_names e fun tag ident hm => h tag ident (List.mem_append_left _ hm),
      allScoped_of_names rest fun tag ident hm => h tag ident (List.mem_append_right _ hm)⟩

end

end

/-! ## Statements -/

def Stmt.BodyScoped (r : Resolutions) : Stmt → Prop
  | .function tag decl => Block.OptionScoped r tag.id decl.params.length [] [] decl.body
  | _ => True

section

variable {m : Module} {notes : Notes} (hclean : m.Clean) (hnotes : notes.At m.placed)
include hclean hnotes

theorem scoped_of_mem_ownExprs (hplaced : (place, s) ∈ m.placed)
    (hlisted : place.Listed notes.functions) (he : e ∈ s.ownExprs) :
    e.Scoped notes.resolutions place.owner place.arity place.visible := by
  refine e.scoped_of_names fun tag ident hname => ?_
  have hmem : Expr.name tag ident ∈ s.ownExprs.flatMap Expr.all := List.mem_flatMap.2 ⟨e, he, hname⟩
  obtain ⟨b, hb, hscopes⟩ := find?_of_name hclean hnotes hplaced hmem
  exact ⟨b, hb, Place.inScope_of_find? (Module.proper_of_name hplaced hmem) hlisted hscopes⟩

theorem optionScoped_of_ownExprs
    (hplaced : (place, s) ∈ m.placed) (hlisted : place.Listed notes.functions)
    (hs : s.ownExprs = value.toList) :
    Expr.OptionScoped notes.resolutions place.owner place.arity place.visible value := by
  cases value with
  | none => trivial
  | some e => exact scoped_of_mem_ownExprs hclean hnotes hplaced hlisted (by simp [hs])

theorem find?_of_recorded (hplaced : (place, s) ∈ m.placed)
    (hs : s.functionName?.isSome ∨ s.cellName?.isSome) :
    notes.resolutions.declarations.find? s.id = some s :=
  (find?_declarations hclean hnotes).2 ⟨Module.exists_place.2 ⟨place, hplaced⟩, rfl, hs⟩

omit hclean in
theorem mem_functions :
    id ∈ notes.functions ↔ ∃ tag decl, .function tag decl ∈ m.statements ∧ tag.id = id := by
  rw [hnotes.functions.mem_iff, List.mem_flatMap]
  simp only [Stmt.mem_listed]
  constructor
  · rintro ⟨⟨place, _⟩, hplaced, tag, decl, rfl, hid⟩
    exact ⟨tag, decl, Module.exists_place.2 ⟨place, hplaced⟩, hid⟩
  · rintro ⟨tag, decl, hmem, hid⟩
    obtain ⟨place, hplaced⟩ := Module.exists_place.1 hmem
    exact ⟨(place, _), hplaced, tag, decl, rfl, hid⟩

end

section

variable {m : Module} {notes : Notes}

-- A body is scoped where its function stands, so the bodies within a statement come with it.
mutual

theorem scoped_placed (hclean : m.Clean) (hnotes : notes.At m.placed) :
    ∀ (s : Stmt) {place : Place}, s.placed place ⊆ m.placed →
    place.Listed notes.functions →
    s.Scoped notes.resolutions place.owner place.arity place.visible place.loops ∧
      ∀ q ∈ s.placed place, q.2.BodyScoped notes.resolutions
  | .error tag, place, hin, hlisted => ⟨trivial, List.forall_mem_singleton.2 trivial⟩
  | .function tag ⟨ident, attrs, params, result, body⟩, place, hin, hlisted => by
    have hbody := optionScoped_placed hclean hnotes body
      (List.Subset.trans (List.subset_cons_self _ _) hin) (hlisted.within rfl)
    exact ⟨trivial, List.forall_mem_cons.2 hbody⟩
  | .declare tag ident type value, place, hin, hlisted => by
    have hplaced : (place, .declare tag ident type value) ∈ m.placed := hin List.mem_cons_self
    exact ⟨⟨optionScoped_of_ownExprs hclean hnotes hplaced hlisted rfl,
      find?_of_recorded hclean hnotes hplaced (.inr rfl)⟩, List.forall_mem_singleton.2 trivial⟩
  | .loop tag body, place, hin, hlisted => by
    have hbody := blockScoped_placed hclean hnotes body
      (List.Subset.trans (List.subset_cons_self _ _) hin) (hlisted.within rfl)
    exact ⟨hbody.1, List.forall_mem_cons.2 ⟨trivial, hbody.2⟩⟩
  | .while tag condition body, place, hin, hlisted => by
    have hbody := blockScoped_placed hclean hnotes body
      (List.Subset.trans (List.subset_cons_self _ _) hin) (hlisted.within rfl)
    have hcondition := scoped_of_mem_ownExprs hclean hnotes (hin List.mem_cons_self) hlisted
      List.mem_cons_self
    exact ⟨⟨hcondition, hbody.1⟩, List.forall_mem_cons.2 ⟨trivial, hbody.2⟩⟩
  | .choose tag condition truthy falsy, place, hin, hlisted => by
    obtain ⟨hplaced, hbranches⟩ := List.cons_subset.1 hin
    obtain ⟨htruthy, hfalsy⟩ := List.append_subset.1 hbranches
    have htruthy := blockScoped_placed hclean hnotes truthy htruthy hlisted
    have hfalsy := optionScoped_placed hclean hnotes falsy hfalsy hlisted
    have hcondition := scoped_of_mem_ownExprs hclean hnotes hplaced hlisted List.mem_cons_self
    exact ⟨⟨hcondition, htruthy.1, hfalsy.1⟩,
      List.forall_mem_cons.2 ⟨trivial, List.forall_mem_append.2 ⟨htruthy.2, hfalsy.2⟩⟩⟩
  | .return tag value, place, hin, hlisted =>
    ⟨optionScoped_of_ownExprs hclean hnotes (hin List.mem_cons_self) hlisted rfl,
      List.forall_mem_singleton.2 trivial⟩
  | .break tag, place, hin, hlisted => by
    obtain ⟨loop, hfind, hhead⟩ := find?_of_break hclean hnotes (hin List.mem_cons_self)
    exact ⟨⟨loop, hhead, hfind⟩, List.forall_mem_singleton.2 trivial⟩
  | .assign tag subject value, place, hin, hlisted => by
    have hown : ∀ e ∈ [subject, value],
        e.Scoped notes.resolutions place.owner place.arity place.visible := fun e he =>
      scoped_of_mem_ownExprs hclean hnotes (hin List.mem_cons_self) hlisted he
    exact ⟨⟨hown value (by simp), hown subject (by simp)⟩, List.forall_mem_singleton.2 trivial⟩
  | .eval tag e, place, hin, hlisted =>
    ⟨scoped_of_mem_ownExprs hclean hnotes (hin List.mem_cons_self) hlisted List.mem_cons_self,
      List.forall_mem_singleton.2 trivial⟩

theorem blockScoped_placed (hclean : m.Clean) (hnotes : notes.At m.placed) :
    ∀ (b : Block) {place : Place}, Stmt.placedBlock place b ⊆ m.placed →
    place.Listed notes.functions →
    b.Scoped notes.resolutions place.owner place.arity place.visible place.loops ∧
      ∀ q ∈ Stmt.placedBlock place b, q.2.BodyScoped notes.resolutions
  | ⟨_, list⟩, place, hin, hlisted => by
    have hfunctions : ∀ tag decl, .function tag decl ∈ list → tag.id ∈ notes.functions := by
      intro tag decl hmem
      have hall : Stmt.function tag decl ∈ (Stmt.placedList place [] list).map Prod.snd := by
        rw [Stmt.map_snd_placedList]
        exact Stmt.mem_allOfList hmem
      obtain ⟨⟨_, _⟩, hq, rfl⟩ := List.mem_map.1 hall
      exact (mem_functions hnotes).2 ⟨tag, decl, Module.exists_place.2 ⟨_, hin hq⟩, rfl⟩
    have hlist := allScoped_placed hclean hnotes list [] hin hlisted hfunctions
    exact ⟨⟨hlist.1, hfunctions⟩, hlist.2⟩

theorem optionScoped_placed (hclean : m.Clean) (hnotes : notes.At m.placed) :
    ∀ (b : Option Block) {place : Place},
    Stmt.placedOption place b ⊆ m.placed → place.Listed notes.functions →
    Block.OptionScoped notes.resolutions place.owner place.arity place.visible place.loops b ∧
      ∀ q ∈ Stmt.placedOption place b, q.2.BodyScoped notes.resolutions
  | none, _, _, _ => ⟨trivial, fun _ h => nomatch h⟩
  | some b, _, hin, hlisted => blockScoped_placed hclean hnotes b hin hlisted

theorem allScoped_placed (hclean : m.Clean) (hnotes : notes.At m.placed) :
    ∀ (list before : List Stmt) {outer : Place},
    Stmt.placedList outer before list ⊆ m.placed → outer.Listed notes.functions →
    (∀ tag decl, .function tag decl ∈ before ++ list → tag.id ∈ notes.functions) →
    Stmt.AllScoped notes.resolutions outer.owner outer.arity (Stmt.visibleAfter outer.visible before)
      outer.loops list ∧
      ∀ q ∈ Stmt.placedList outer before list, q.2.BodyScoped notes.resolutions
  | [], _, _, _, _, _ => ⟨trivial, fun _ h => nomatch h⟩
  | s :: rest, before, outer, hin, hlisted, hfunctions => by
    obtain ⟨hs, hrest⟩ := List.append_subset.1 hin
    have hs := scoped_placed hclean hnotes s hs (List.forall_mem_cons.2 ⟨hfunctions, hlisted⟩)
    have hrest := allScoped_placed hclean hnotes rest (before ++ [s]) hrest hlisted
      (by simpa using hfunctions)
    rw [Stmt.visibleAfter_concat] at hrest
    exact ⟨⟨hs.1, hrest.1⟩, List.forall_mem_append.2 ⟨hs.2, hrest.2⟩⟩

end

end

theorem Module.scoped_of_resolve {m : Module} {r : Resolutions} (h : m.resolve = .ok r)
    (hclean : m.Clean) : r.Scoped m := by
  obtain ⟨notes, rfl, hnotes, houtside, hnames⟩ := Module.exists_notes h
  have hfunctions : ∀ {tag decl}, .function tag decl ∈ m.statements → tag.id ∈ notes.functions :=
    fun hmem => (mem_functions hnotes).2 ⟨_, _, hmem, rfl⟩
  have hitems : ∀ {tag decl}, .function tag decl ∈ m.items → tag.id ∈ notes.functions :=
    fun hmem => hfunctions (Stmt.mem_allOfList hmem)
  obtain ⟨-, hbodies⟩ := allScoped_placed hclean hnotes m.items [] (List.Subset.refl m.placed)
    (fun _ h => nomatch h) fun _ _ => hitems
  refine ⟨?_, fun id hid => ?_, fun hfind => ?_, fun hfind => ?_, hitems, houtside, hnames⟩
  · refine hnotes.functions.nodup_iff.2 ((nodup_placed hclean).sublist (.flatMap_right _ fun q _ => ?_))
    obtain ⟨place, s⟩ := q
    cases s <;> simp [Stmt.listed, Stmt.id, Stmt.tag]
  · obtain ⟨tag, decl, hmem, rfl⟩ := (mem_functions hnotes).1 hid
    obtain ⟨place, hplaced⟩ := Module.exists_place.1 hmem
    refine ⟨tag, decl, rfl, find?_of_recorded hclean hnotes hplaced (.inl rfl), fun b hb => ?_⟩
    have hbody : Block.OptionScoped notes.resolutions tag.id decl.params.length [] [] decl.body :=
      hbodies _ hplaced
    rwa [hb] at hbody
  · obtain ⟨hmem, hid, -⟩ := (find?_declarations hclean hnotes).1 hfind
    exact ⟨hmem, hid⟩
  · obtain ⟨hmem, rfl, -⟩ := (find?_declarations hclean hnotes).1 hfind
    exact hfunctions hmem

structure Module.Resolved (m : Module) (r : Resolutions) : Prop where
  clean : m.Clean
  /-- No two expressions have one identifier, those of attributes included. -/
  ids : (m.exprsWithAttrs.map Expr.id).Nodup
  inScope : r.Scoped m

theorem Module.resolved_of_resolve {source : List Char} {m : Module} {r : Resolutions}
    (hm : Module.ofSource? source = .ok m) (hr : m.resolve = .ok r) : m.Resolved r :=
  ⟨Module.clean_of_ofSource? hm, Module.nodup_exprsWithAttrs_of_ofSource? hm,
    Module.scoped_of_resolve hr (Module.clean_of_ofSource? hm)⟩

end WordLang
