import WordLang.Proofs.Scope.Scoped

/-!
# Places in a program

The place of a statement is what lies around it, from the inside to the outside: the statements of
its scope, those before it apart, the loop or the function whose body the scope is, and so on up to
the scope of the whole program. A place says which names are bound around it and which loops are.

## Main definitions

* `Layer`, `Place`: what lies around a statement
* `Module.placed`: the statements of a module with their places
* `Place.scopes`, `Place.loops`: the bindings and the loops around a place
* `Layer.Declares`, `Layer.Shows`: the names that a layer declares to the places within it, and the
  functions that it shows to function bodies within it
* `Place.RefersTo`, `Place.InnermostLoop`: what a name and a `break` at a place may refer to

## Main results

* `Place.refersTo_of_find?_scopes`: where the binding of a name at a place comes from
* `Place.find?_beyond`, `Place.shows_of_findFunction?`: what a name refers to that the function around
  does not declare
* `Module.proper_of_mem_placed`: the places of a module are proper
-/

namespace WordLang

variable {decl : FnDecl} {inner outer : Place} {tag : Tag} {name : String} {b : Binding}
  {list : List Stmt} {place : Place}

/-- What lies directly around a place. -/
inductive Layer where
  | scope (before : List Stmt) (here : Stmt) (after : List Stmt)
  | function (tag : Tag) (decl : FnDecl)
  | loop (id : StmtId)

/-- What lies around a statement, the innermost first. -/
abbrev Place := List Layer

namespace Stmt

mutual

/-- A statement at a place and all statements within it, with their places. -/
def placed (place : Place) : Stmt → List (Place × Stmt)
  | .function tag decl => (place, .function tag decl) :: placedBody place tag decl
  | .loop tag body => (place, .loop tag body) :: placedBlock (.loop tag.id :: place) body
  | .while tag condition body =>
    (place, .while tag condition body) :: placedBlock (.loop tag.id :: place) body
  | .choose tag condition truthy falsy =>
    (place, .choose tag condition truthy falsy) ::
      placedBlock place truthy ++ placedOption place falsy
  | s => [(place, s)]

/-- All statements within the body of a function. -/
def placedBody (place : Place) (tag : Tag) : FnDecl → List (Place × Stmt)
  | ⟨ident, attrs, params, result, body⟩ =>
    placedOption (.function tag ⟨ident, attrs, params, result, body⟩ :: place) body

/-- All statements within a block that may be absent. -/
def placedOption (place : Place) : Option Block → List (Place × Stmt)
  | none => []
  | some block => placedBlock place block

def placedBlock (place : Place) : Block → List (Place × Stmt)
  | ⟨_, statements⟩ => placedList place [] statements

/-- All statements within the statements of a scope that come after those in `before`. -/
def placedList (place : Place) (before : List Stmt) : List Stmt → List (Place × Stmt)
  | [] => []
  | s :: rest =>
    s.placed (.scope before s rest :: place) ++ placedList place (before ++ [s]) rest

end

end Stmt

/-- The statements of a module with their places. -/
def Module.placed (m : Module) : List (Place × Stmt) := Stmt.placedList [] [] m.items

namespace Stmt

mutual

theorem map_snd_placed : ∀ (place : Place) (s : Stmt), (s.placed place).map Prod.snd = s.all
  | place, .function tag decl => congrArg (_ :: ·) (map_snd_placedBody place tag decl)
  | place, .loop tag body => congrArg (_ :: ·) (map_snd_placedBlock _ body)
  | place, .while tag condition body => congrArg (_ :: ·) (map_snd_placedBlock _ body)
  | place, .choose tag condition truthy falsy => by
    simp only [placed, all, List.map_cons, List.map_append, List.cons_append,
      map_snd_placedBlock place truthy, map_snd_placedOption place falsy]
  | _, .error _ => rfl
  | _, .declare .. => rfl
  | _, .return .. => rfl
  | _, .break _ => rfl
  | _, .assign .. => rfl
  | _, .eval .. => rfl

theorem map_snd_placedBody : ∀ (place : Place) (tag : Tag) (decl : FnDecl),
    (placedBody place tag decl).map Prod.snd = allOfBody decl
  | _, _, ⟨_, _, _, _, body⟩ => map_snd_placedOption _ body

theorem map_snd_placedOption : ∀ (place : Place) (b : Option Block),
    (placedOption place b).map Prod.snd = allOfOption b
  | _, none => rfl
  | place, some b => map_snd_placedBlock place b

theorem map_snd_placedBlock : ∀ (place : Place) (b : Block),
    (placedBlock place b).map Prod.snd = allOfBlock b
  | place, ⟨_, list⟩ => map_snd_placedList place [] list

theorem map_snd_placedList : ∀ (place : Place) (before list : List Stmt),
    (placedList place before list).map Prod.snd = allOfList list
  | _, _, [] => rfl
  | place, before, s :: rest => by
    simp only [placedList, allOfList, List.map_append, map_snd_placed _ s,
      map_snd_placedList place _ rest]

end

end Stmt

theorem Module.map_snd_placed (m : Module) : m.placed.map Prod.snd = m.statements :=
  Stmt.map_snd_placedList [] [] m.items

theorem Module.exists_place {m : Module} {s : Stmt} :
    s ∈ m.statements ↔ ∃ place, (place, s) ∈ m.placed := by
  rw [← m.map_snd_placed, List.mem_map]
  constructor
  · rintro ⟨⟨place, t⟩, h, rfl⟩
    exact ⟨place, h⟩
  · rintro ⟨place, h⟩
    exact ⟨(place, s), h, rfl⟩

/-! ## Names that statements bind -/

namespace Stmt

/-- The name of the storage cell that a statement declares. -/
def cellName? : Stmt → Option String
  | .declare _ ident _ _ => some ident.name
  | _ => none

def functionName? : Stmt → Option String
  | .function _ decl => some decl.ident.name
  | _ => none

/-- What a statement binds to a storage cell. -/
def cellBinding? : Stmt → Option (String × Binding)
  | .declare tag ident _ _ => some (ident.name, .local tag.id)
  | _ => none

def functionBinding? : Stmt → Option (String × Binding)
  | .function tag decl => some (decl.ident.name, .function tag.id)
  | _ => none

/-- The storage cells that statements bind, the latest first. -/
def cellBindings (list : List Stmt) : List (String × Binding) := (list.filterMap cellBinding?).reverse

/-- The functions that statements bind, the latest first. -/
def functionBindings (list : List Stmt) : List (String × Binding) :=
  (list.filterMap functionBinding?).reverse

theorem cellBindings_concat (list : List Stmt) (s : Stmt) :
    cellBindings (list ++ [s]) = s.cellBinding?.toList ++ cellBindings list := by
  simp only [cellBindings, List.filterMap_append, List.reverse_append]
  cases h : s.cellBinding? <;> simp [h]

theorem lookup_bound_eq_none {bound : Stmt → Option (String × Binding)} :
    (list.filterMap bound).reverse.lookup name = none ↔
      ∀ s ∈ list, (bound s).map Prod.fst ≠ some name := by
  simp only [List.lookup_eq_none_iff, List.mem_reverse, List.mem_filterMap, bne_iff_ne]
  constructor
  · intro h s hs heq
    obtain ⟨e, he, rfl⟩ := Option.map_eq_some_iff.1 heq
    exact h e ⟨s, hs, he⟩ rfl
  · rintro h e ⟨s, hs, he⟩ rfl
    exact h s hs (by rw [he]; rfl)

theorem lookup_cellBindings (h : (cellBindings list).lookup name = some b) :
    ∃ earlier tag ident type value later, list = earlier ++ .declare tag ident type value :: later ∧
      ident.name = name ∧ b = .local tag.id ∧ ∀ s ∈ later, s.cellName? ≠ some name := by
  induction list using List.reverseRecOn with
  | nil => cases h
  | append_singleton list s ih =>
    rw [cellBindings_concat] at h
    -- A statement that does not declare the name comes after the latest one that does.
    have hlater : (cellBindings list).lookup name = some b → s.cellName? ≠ some name →
        ∃ earlier tag ident type value later,
          list ++ [s] = earlier ++ .declare tag ident type value :: later ∧ ident.name = name ∧
          b = .local tag.id ∧ ∀ s ∈ later, s.cellName? ≠ some name := by
      intro hlist hs
      obtain ⟨earlier, tag, ident, type, value, later, rfl, hname, hb, hall⟩ := ih hlist
      refine ⟨earlier, tag, ident, type, value, later ++ [s], by simp, hname, hb, fun s' hs' => ?_⟩
      rcases List.mem_append.1 hs' with hs' | hs'
      · exact hall s' hs'
      · exact List.mem_singleton.1 hs' ▸ hs
    cases s with
    | declare tag ident type value =>
      by_cases hname : ident.name = name
      · simp only [cellBinding?, Option.toList_some, List.singleton_append, hname,
          List.lookup_cons_self, Option.some.injEq] at h
        exact ⟨list, tag, ident, type, value, [], rfl, hname, h.symm, by simp⟩
      · have hbeq : (name == ident.name) = false := beq_false_of_ne (Ne.symm hname)
        simp only [cellBinding?, Option.toList_some, List.singleton_append, List.lookup_cons,
          hbeq] at h
        exact hlater h fun heq => hname (Option.some.inj heq)
    | _ => exact hlater h (by simp [cellName?])

theorem lookup_cellBindings_eq_none :
    (cellBindings list).lookup name = none ↔ ∀ s ∈ list, s.cellName? ≠ some name := by
  have hname : ∀ s : Stmt, s.cellName? = s.cellBinding?.map Prod.fst := by
    intro s
    cases s <;> rfl
  simp only [hname]
  exact lookup_bound_eq_none

theorem lookup_functionBindings (h : (functionBindings list).lookup name = some b) :
    ∃ tag decl, .function tag decl ∈ list ∧ decl.ident.name = name ∧ b = .function tag.id := by
  obtain ⟨before, after, heq, -⟩ := List.lookup_eq_some_iff.1 h
  have hmem : (name, b) ∈ functionBindings list := by rw [heq]; simp
  rw [functionBindings, List.mem_reverse, List.mem_filterMap] at hmem
  obtain ⟨s, hs, hb⟩ := hmem
  cases s with
  | function tag decl =>
    cases hb
    exact ⟨tag, decl, hs, rfl, rfl⟩
  | _ => cases hb

theorem lookup_functionBindings_eq_none :
    (functionBindings list).lookup name = none ↔ ∀ s ∈ list, s.functionName? ≠ some name := by
  have hname : ∀ s : Stmt, s.functionName? = s.functionBinding?.map Prod.fst := by
    intro s
    cases s <;> rfl
  simp only [hname]
  exact lookup_bound_eq_none

/-- The bindings of a scope where the statements `before` have been passed. -/
def boundAfter (list before : List Stmt) : List (String × Binding) :=
  cellBindings before ++ functionBindings list

/-- The bindings of a scope in the bodies of its functions, which are bound once more. -/
def boundInBodies (list : List Stmt) : List (String × Binding) :=
  functionBindings list ++ boundAfter list list

end Stmt

/-- The parameters of a function as bindings, the latest first. -/
def Param.bindings (owner : StmtId) (params : List Param) : List (String × Binding) :=
  (params.zipIdx.map fun p => (p.1.ident.name, .parameter owner p.2)).reverse

/-! ## Scopes and loops around a place -/

namespace Place

def kindWithin (outer : Place) : ScopeKind := if outer.isEmpty then .root else .block

/-- The scopes around a place; `entered` if the place is in the body of a function that the innermost
scope declares. -/
def scopes : Place → Bool → Scopes
  | [], _ => []
  | .scope before here after :: outer, entered =>
    ⟨kindWithin outer, if entered then Stmt.boundInBodies (before ++ here :: after)
      else Stmt.boundAfter (before ++ here :: after) before⟩ :: scopes outer false
  | .function tag decl :: outer, _ => ⟨.function, Param.bindings tag.id decl.params⟩ :: scopes outer true
  | .loop _ :: outer, _ => scopes outer false

/-- The loops around a place up to the function around it, the innermost first. -/
def loops : Place → List StmtId
  | [] => []
  | .scope _ _ _ :: outer => loops outer
  | .function _ _ :: _ => []
  | .loop id :: outer => id :: loops outer

end Place

/-- A layer declares a name to the places within it: a scope declares its functions and the cells of
the statements before, a function its parameters. -/
def Layer.Declares (name : String) : Layer → Prop
  | .scope before here after =>
    (∃ s ∈ before ++ here :: after, s.functionName? = some name) ∨
      ∃ s ∈ before, s.cellName? = some name
  | .function _ decl => ∃ p ∈ decl.params, p.ident.name = name
  | .loop _ => False

def Layer.IsFunction : Layer → Prop
  | .function _ _ => True
  | _ => False

def Layer.IsLoop : Layer → Prop
  | .loop _ => True
  | _ => False

namespace Place

theorem kindWithin_ne (outer : Place) : kindWithin outer ≠ .function := by
  unfold kindWithin
  split <;> simp

theorem find?_scopes_scope (name : String) (before : List Stmt) (here : Stmt) (after : List Stmt)
    (outer : Place) : Scopes.find? name (scopes (.scope before here after :: outer) false) =
      (((Stmt.cellBindings before).lookup name).or
        ((Stmt.functionBindings (before ++ here :: after)).lookup name)).or
        (Scopes.find? name (scopes outer false)) := by
  simp only [scopes, Scopes.find?, Scope.find?, Bool.false_eq_true, if_false, kindWithin_ne,
    Stmt.boundAfter, List.lookup_append]
  cases ((Stmt.cellBindings before).lookup name).or
    ((Stmt.functionBindings (before ++ here :: after)).lookup name) <;> rfl

theorem find?_scopes_function (name : String) (tag : Tag) (decl : FnDecl) (outer : Place)
    (entered : Bool) : Scopes.find? name (scopes (.function tag decl :: outer) entered) =
      ((Param.bindings tag.id decl.params).lookup name).or
        (Scopes.findFunction? name (scopes outer true)) := by
  simp only [scopes, Scopes.find?, Scope.find?]
  cases (Param.bindings tag.id decl.params).lookup name <;> simp

theorem not_declares_scope {before : List Stmt} {here : Stmt} {after : List Stmt}
    (hcells : (Stmt.cellBindings before).lookup name = none)
    (hfunctions : (Stmt.functionBindings (before ++ here :: after)).lookup name = none) :
    ¬(Layer.scope before here after).Declares name := by
  rintro (⟨s, hs, hname⟩ | ⟨s, hs, hname⟩)
  · exact Stmt.lookup_functionBindings_eq_none.1 hfunctions s hs hname
  · exact Stmt.lookup_cellBindings_eq_none.1 hcells s hs hname

theorem lookup_params {owner : StmtId} {params : List Param}
    (h : (Param.bindings owner params).lookup name = some b) :
    ∃ (index : Nat) (param : Param), params[index]? = some param ∧ param.ident.name = name ∧
      b = .parameter owner index := by
  obtain ⟨before, after, heq, -⟩ := List.lookup_eq_some_iff.1 h
  have hmem : (name, b) ∈ Param.bindings owner params := by rw [heq]; simp
  rw [Param.bindings, List.mem_reverse, List.mem_map] at hmem
  obtain ⟨⟨param, index⟩, hp, hb⟩ := hmem
  cases hb
  exact ⟨index, param, List.mem_zipIdx_iff_getElem?.1 hp, rfl, rfl⟩

def Passes (name : String) (layer : Layer) : Prop := ¬layer.IsFunction ∧ ¬layer.Declares name

def Gives (name : String) (b : Binding) (outer : Place) : Layer → Prop
  | .scope before here after =>
    ((Stmt.cellBindings before).lookup name).or
      ((Stmt.functionBindings (before ++ here :: after)).lookup name) = some b
  | .function tag decl =>
    ((Param.bindings tag.id decl.params).lookup name).or
      (Scopes.findFunction? name (scopes outer true)) = some b
  | .loop _ => False

theorem exists_gives (h : Scopes.find? name (place.scopes false) = some b) :
    ∃ inner layer outer, place = inner ++ layer :: outer ∧ (∀ layer ∈ inner, Passes name layer) ∧
      Gives name b outer layer := by
  induction place with
  | nil => cases h
  | cons layer outer ih =>
    have hpass : Passes name layer → Scopes.find? name (scopes outer false) = some b →
        ∃ inner layer' outer', layer :: outer = inner ++ layer' :: outer' ∧
          (∀ layer ∈ inner, Passes name layer) ∧ Gives name b outer' layer' := by
      intro hlayer houter
      obtain ⟨inner, layer', outer', rfl, hinner, hgives⟩ := ih houter
      exact ⟨layer :: inner, layer', outer', rfl, List.forall_mem_cons.2 ⟨hlayer, hinner⟩, hgives⟩
    cases layer with
    | scope before here after =>
      rw [find?_scopes_scope] at h
      rcases Option.or_eq_some_iff.1 h with hgives | ⟨hnone, houter⟩
      · exact ⟨[], _, outer, rfl, by simp, hgives⟩
      · obtain ⟨hcells, hfunctions⟩ := Option.or_eq_none_iff.1 hnone
        exact hpass ⟨id, not_declares_scope hcells hfunctions⟩ houter
    | function tag decl =>
      rw [find?_scopes_function] at h
      exact ⟨[], _, outer, rfl, by simp, h⟩
    | loop loop => exact hpass ⟨id, id⟩ h

def LatestCell (place : Place) (name : String) (id : StmtId) : Prop :=
  ∃ inner before here after outer, place = inner ++ .scope before here after :: outer ∧
    (∀ layer ∈ inner, Passes name layer) ∧
    ∃ earlier tag ident type value later, before = earlier ++ .declare tag ident type value :: later ∧
      ident.name = name ∧ tag.id = id ∧ ∀ s ∈ later, s.cellName? ≠ some name

def OwnParameter (place : Place) (name : String) (owner : StmtId) (index : Nat) : Prop :=
  ∃ inner tag decl outer, place = inner ++ .function tag decl :: outer ∧
    (∀ layer ∈ inner, Passes name layer) ∧ tag.id = owner ∧
    ∃ param, decl.params[index]? = some param ∧ param.ident.name = name

def EnclosingFunction (place : Place) (name : String) (id : StmtId) : Prop :=
  ∃ inner before here after outer, place = inner ++ .scope before here after :: outer ∧
    ∃ tag decl, .function tag decl ∈ before ++ here :: after ∧ decl.ident.name = name ∧ tag.id = id

/-- What a name may refer to at a place. -/
def RefersTo (place : Place) (name : String) : Binding → Prop
  | .local id => place.LatestCell name id
  | .parameter owner index => place.OwnParameter name owner index
  | .function id => place.EnclosingFunction name id

/-! ## Beyond a function -/

/-- A place as statements have it: it is in the body of a function exactly where the statement of the
scope around is that function. -/
def Proper : Place → Bool → Prop
  | [], _ => True
  | .scope _ here _ :: outer, entered => here.function?.isSome = entered ∧ Proper outer false
  | .function _ _ :: outer, _ => Proper outer true
  | .loop _ :: outer, _ => Proper outer false

theorem proper_of_append {entered : Bool}
    (h : Proper (inner ++ .function tag decl :: outer) entered) : Proper outer true := by
  induction inner generalizing entered with
  | nil => exact h
  | cons layer inner ih =>
    cases layer with
    | scope before here after => exact ih h.2
    | function tag decl => exact ih h
    | loop loop => exact ih h

end Place

/-- A scope shows its function of a name to the function bodies within it, unless a cell took the name
over: to the bodies of its own functions always, and to others if none of the statements before
declares a cell of that name. -/
def Layer.Shows (name : String) : Layer → Prop
  | .scope before here after =>
    (∃ s ∈ before ++ here :: after, s.functionName? = some name) ∧
      (here.function?.isSome ∨ ∀ s ∈ before, s.cellName? ≠ some name)
  | _ => False

namespace Place

theorem findFunction?_cons (name : String) (scope : Scope) (outer : Scopes) :
    Scopes.findFunction? name (scope :: outer) =
      ((scope.find? name).filter Binding.isFunction).or (Scopes.findFunction? name outer) := by
  simp only [Scopes.findFunction?]
  cases scope.find? name with
  | none => rfl
  | some b => cases b <;> rfl

theorem filter_cells (list : List Stmt) (name : String) :
    ((Stmt.cellBindings list).lookup name).filter Binding.isFunction = none := by
  cases h : (Stmt.cellBindings list).lookup name with
  | none => rfl
  | some b =>
    obtain ⟨_, tag, _, _, _, _, -, -, rfl, -⟩ := Stmt.lookup_cellBindings h
    rfl

theorem filter_functions (list : List Stmt) (name : String) :
    ((Stmt.functionBindings list).lookup name).filter Binding.isFunction =
      (Stmt.functionBindings list).lookup name := by
  cases h : (Stmt.functionBindings list).lookup name with
  | none => rfl
  | some b =>
    obtain ⟨tag, decl, -, -, rfl⟩ := Stmt.lookup_functionBindings h
    rfl

theorem filter_params (owner : StmtId) (params : List Param) (name : String) :
    ((Param.bindings owner params).lookup name).filter Binding.isFunction = none := by
  cases h : (Param.bindings owner params).lookup name with
  | none => rfl
  | some b =>
    obtain ⟨index, param, -, -, rfl⟩ := lookup_params h
    rfl

theorem findFunction?_scope (name : String) (before : List Stmt) (here : Stmt) (after : List Stmt)
    (outer : Place) (entered : Bool) :
    Scopes.findFunction? name (scopes (.scope before here after :: outer) entered) =
      (if entered = true ∨ (Stmt.cellBindings before).lookup name = none then
        (Stmt.functionBindings (before ++ here :: after)).lookup name else none).or
        (Scopes.findFunction? name (scopes outer false)) := by
  rw [scopes, findFunction?_cons]
  refine congrArg (Option.or · _) ?_
  simp only [Scope.find?]
  cases entered with
  | true =>
    rw [if_pos rfl, if_pos (.inl rfl), Stmt.boundInBodies, List.lookup_append]
    cases hf : (Stmt.functionBindings (before ++ here :: after)).lookup name with
    | some b => rw [Option.some_or, ← hf, filter_functions]
    | none =>
      rw [Option.none_or, Stmt.boundAfter, List.lookup_append, hf, Option.or_none, filter_cells]
  | false =>
    rw [if_neg Bool.false_ne_true, Stmt.boundAfter, List.lookup_append]
    cases hc : (Stmt.cellBindings before).lookup name with
    | some b => rw [if_neg (by simp), Option.some_or, ← hc, filter_cells]
    | none => rw [if_pos (.inr rfl), Option.none_or, filter_functions]

theorem findFunction?_function (name : String) (tag : Tag) (decl : FnDecl) (outer : Place)
    (entered : Bool) : Scopes.findFunction? name (scopes (.function tag decl :: outer) entered) =
      Scopes.findFunction? name (scopes outer true) := by
  rw [scopes, findFunction?_cons]
  simp only [Scope.find?, filter_params, Option.none_or]

/-- A name that is found beyond a function is found in the innermost scope that shows a function of
that name. -/
theorem shows_of_findFunction? {entered : Bool} (hproper : place.Proper entered)
    (h : Scopes.findFunction? name (place.scopes entered) = some b) :
    ∃ inner before here after outer, place = inner ++ .scope before here after :: outer ∧
      (∀ layer ∈ inner, ¬layer.Shows name) ∧ (Layer.scope before here after).Shows name ∧
      ∃ tag decl, .function tag decl ∈ before ++ here :: after ∧ decl.ident.name = name ∧
        b = .function tag.id := by
  induction place generalizing entered with
  | nil => cases h
  | cons layer outer ih =>
    have hpass : ∀ entered', Proper outer entered' → ¬layer.Shows name →
        Scopes.findFunction? name (scopes outer entered') = some b →
        ∃ inner before here after outer', layer :: outer = inner ++ .scope before here after :: outer' ∧
          (∀ layer ∈ inner, ¬layer.Shows name) ∧ (Layer.scope before here after).Shows name ∧
          ∃ tag decl, .function tag decl ∈ before ++ here :: after ∧ decl.ident.name = name ∧
            b = .function tag.id := by
      intro entered' hproper' hlayer houter
      obtain ⟨inner, before, here, after, outer', rfl, hinner, hrest⟩ := ih hproper' houter
      exact ⟨layer :: inner, before, here, after, outer', rfl,
        List.forall_mem_cons.2 ⟨hlayer, hinner⟩, hrest⟩
    cases layer with
    | scope before here after =>
      obtain ⟨hentered, hproper⟩ := hproper
      rw [findFunction?_scope, ← hentered] at h
      -- The condition under which functions are found is that of `Shows`.
      have hcondition : (here.function?.isSome = true ∨ (Stmt.cellBindings before).lookup name = none) ↔
          (here.function?.isSome ∨ ∀ s ∈ before, s.cellName? ≠ some name) := by
        rw [Stmt.lookup_cellBindings_eq_none]
      rcases Option.or_eq_some_iff.1 h with hfound | ⟨hnone, houter⟩
      · obtain ⟨hif, hfound⟩ := Option.ite_none_right_eq_some.1 hfound
        obtain ⟨tag, decl, hmem, hname, hb⟩ := Stmt.lookup_functionBindings hfound
        refine ⟨[], before, here, after, outer, rfl, by simp, ⟨⟨_, hmem, ?_⟩, hcondition.1 hif⟩, tag,
          decl, hmem, hname, hb⟩
        rw [Stmt.functionName?, hname]
      · refine hpass false hproper ?_ houter
        rintro ⟨⟨s, hs, hname⟩, hshown⟩
        rw [if_pos (hcondition.2 hshown)] at hnone
        exact Stmt.lookup_functionBindings_eq_none.1 hnone s hs hname
    | function tag decl =>
      rw [findFunction?_function] at h
      exact hpass true hproper id h
    | loop loop => exact hpass false hproper id h

/-- What a name is bound to at a place is what it may refer to there. -/
theorem refersTo_of_find?_scopes
    (hproper : place.Proper false) (h : Scopes.find? name (place.scopes false) = some b) :
    place.RefersTo name b := by
  obtain ⟨inner, layer, outer, rfl, hinner, hgives⟩ := exists_gives h
  cases layer with
  | scope before here after =>
    rcases Option.or_eq_some_iff.1 hgives with hcell | ⟨-, hfunction⟩
    · obtain ⟨earlier, tag, ident, type, value, later, hbefore, hname, rfl, hlater⟩ :=
        Stmt.lookup_cellBindings hcell
      exact ⟨inner, before, here, after, outer, rfl, hinner, earlier, tag, ident, type, value, later,
        hbefore, hname, rfl, hlater⟩
    · obtain ⟨tag, decl, hmem, hname, rfl⟩ := Stmt.lookup_functionBindings hfunction
      exact ⟨inner, before, here, after, outer, rfl, tag, decl, hmem, hname, rfl⟩
  | function tag decl =>
    rcases Option.or_eq_some_iff.1 hgives with hparam | ⟨-, hbeyond⟩
    · obtain ⟨index, param, hget, hname, rfl⟩ := lookup_params hparam
      exact ⟨inner, tag, decl, outer, rfl, hinner, rfl, param, hget, hname⟩
    · obtain ⟨inner', before, here, after, outer', rfl, -, -, tag', decl', hmem, hname, rfl⟩ :=
        shows_of_findFunction? (proper_of_append hproper) hbeyond
      exact ⟨inner ++ .function tag decl :: inner', before, here, after, outer', by simp, tag', decl',
        hmem, hname, rfl⟩
  | loop loop => exact hgives.elim

/-- The loop `id` is the innermost one around the place in the same function. -/
def InnermostLoop (place : Place) (id : StmtId) : Prop :=
  ∃ inner outer, place = inner ++ .loop id :: outer ∧
    ∀ layer ∈ inner, ¬layer.IsFunction ∧ ¬layer.IsLoop

theorem innermostLoop_of_head?_loops {id : StmtId} (h : place.loops.head? = some id) :
    place.InnermostLoop id := by
  induction place with
  | nil => cases h
  | cons layer outer ih =>
    cases layer with
    | scope before here after =>
      obtain ⟨inner, outer', rfl, hinner⟩ := ih h
      exact ⟨.scope before here after :: inner, outer', rfl,
        List.forall_mem_cons.2 ⟨⟨not_false, not_false⟩, hinner⟩⟩
    | function tag decl => cases h
    | loop loop =>
      cases h
      exact ⟨[], outer, rfl, by simp⟩

/-! ## What the function around does not declare -/

theorem lookup_params_eq_none (h : ¬(Layer.function tag decl).Declares name) :
    (Param.bindings tag.id decl.params).lookup name = none := by
  cases hlookup : (Param.bindings tag.id decl.params).lookup name with
  | none => rfl
  | some b =>
    obtain ⟨index, param, hget, hname, -⟩ := lookup_params hlookup
    exact absurd ⟨param, List.mem_of_getElem? hget, hname⟩ h

theorem lookups_eq_none {before : List Stmt} {here : Stmt} {after : List Stmt}
    (h : ¬(Layer.scope before here after).Declares name) :
    (Stmt.cellBindings before).lookup name = none ∧
      (Stmt.functionBindings (before ++ here :: after)).lookup name = none := by
  obtain ⟨hfunctions, hcells⟩ := not_or.1 h
  refine ⟨Stmt.lookup_cellBindings_eq_none.2 fun s hs hname => hcells ⟨s, hs, hname⟩, ?_⟩
  exact Stmt.lookup_functionBindings_eq_none.2 fun s hs hname => hfunctions ⟨s, hs, hname⟩

theorem findFunction?_beyond (h : ∀ layer ∈ inner, ¬layer.Declares name) (entered : Bool) :
    Scopes.findFunction? name (scopes (inner ++ .function tag decl :: outer) entered) =
      Scopes.findFunction? name (scopes outer true) := by
  induction inner generalizing entered with
  | nil => exact findFunction?_function name tag decl outer entered
  | cons layer inner ih =>
    obtain ⟨hlayer, hinner⟩ := List.forall_mem_cons.1 h
    cases layer with
    | scope before here after =>
      rw [List.cons_append, findFunction?_scope, (lookups_eq_none hlayer).2, ite_self, Option.none_or,
        ih hinner]
    | function tag' decl' => rw [List.cons_append, findFunction?_function, ih hinner]
    | loop loop => exact ih hinner false

/-- A name that is not declared within a function is found beyond it. -/
theorem find?_beyond (h : ∀ layer ∈ inner, ¬layer.Declares name)
    (hparams : ¬(Layer.function tag decl).Declares name) :
    Scopes.find? name (scopes (inner ++ .function tag decl :: outer) false) =
      Scopes.findFunction? name (scopes outer true) := by
  induction inner with
  | nil => rw [List.nil_append, find?_scopes_function, lookup_params_eq_none hparams, Option.none_or]
  | cons layer inner ih =>
    obtain ⟨hlayer, hinner⟩ := List.forall_mem_cons.1 h
    cases layer with
    | scope before here after =>
      obtain ⟨hcells, hfunctions⟩ := lookups_eq_none hlayer
      rw [List.cons_append, find?_scopes_scope, hcells, hfunctions, Option.none_or, Option.none_or,
        ih hinner]
    | function tag' decl' =>
      rw [List.cons_append, find?_scopes_function, lookup_params_eq_none hlayer, Option.none_or,
        findFunction?_beyond hinner]
    | loop loop => exact ih hinner

end Place

namespace Stmt

mutual

theorem proper_placed : ∀ (s : Stmt) {place : Place}, place.Proper s.function?.isSome →
    ∀ q ∈ s.placed place, q.1.Proper q.2.function?.isSome
  | .function tag decl, _, hplace, q, hq => by
    rcases List.mem_cons.1 hq with rfl | hq
    · exact hplace
    · exact proper_placedBody decl hplace q hq
  | .loop tag body, place, hplace, q, hq | .while tag _ body, place, hplace, q, hq => by
    rcases List.mem_cons.1 hq with rfl | hq
    · exact hplace
    · exact proper_placedBlock body (show Place.Proper (.loop tag.id :: place) false from hplace) q hq
  | .choose tag condition truthy falsy, _, hplace, q, hq => by
    rcases List.mem_cons.1 hq with rfl | hq
    · exact hplace
    · rcases List.mem_append.1 hq with hq | hq
      · exact proper_placedBlock truthy hplace q hq
      · exact proper_placedOption falsy hplace q hq
  | .error _, _, hplace, q, hq | .declare .., _, hplace, q, hq | .return .., _, hplace, q, hq
  | .break _, _, hplace, q, hq | .assign .., _, hplace, q, hq | .eval .., _, hplace, q, hq =>
    List.mem_singleton.1 hq ▸ hplace

theorem proper_placedBody : ∀ (decl : FnDecl) {place : Place} {tag : Tag}, place.Proper true →
    ∀ q ∈ placedBody place tag decl, q.1.Proper q.2.function?.isSome
  | ⟨ident, attrs, params, result, body⟩, place, tag, hplace, q, hq =>
    proper_placedOption body
      (show Place.Proper (.function tag ⟨ident, attrs, params, result, body⟩ :: place) false from hplace)
      q hq

theorem proper_placedOption : ∀ (b : Option Block) {place : Place}, place.Proper false →
    ∀ q ∈ placedOption place b, q.1.Proper q.2.function?.isSome
  | none, _, _, _, hq => nomatch hq
  | some b, _, hplace, q, hq => proper_placedBlock b hplace q hq

theorem proper_placedBlock : ∀ (b : Block) {place : Place}, place.Proper false →
    ∀ q ∈ placedBlock place b, q.1.Proper q.2.function?.isSome
  | ⟨_, list⟩, _, hplace, q, hq => proper_placedList list hplace q hq

theorem proper_placedList : ∀ (list : List Stmt) {place : Place} {before : List Stmt},
    place.Proper false → ∀ q ∈ placedList place before list, q.1.Proper q.2.function?.isSome
  | [], _, _, _, _, hq => nomatch hq
  | s :: rest, place, before, hplace, q, hq => by
    rcases List.mem_append.1 hq with hq | hq
    · have here : Place.Proper (.scope before s rest :: place) s.function?.isSome := ⟨rfl, hplace⟩
      exact proper_placed s here q hq
    · exact proper_placedList rest hplace q hq

end

end Stmt

theorem Module.proper_of_mem_placed {m : Module} {s : Stmt} (h : (place, s) ∈ m.placed) :
    place.Proper s.function?.isSome :=
  Stmt.proper_placedList m.items (show Place.Proper [] false from True.intro) (place, s) h

end WordLang
