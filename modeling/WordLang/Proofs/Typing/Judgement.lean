import WordLang.Proofs.Tree.Within
import WordLang.Proofs.Typing.Attributes
import WordLang.Typing

/-!
# Typing

The types of expressions and storage cells as a judgement, apart from the questions that find
them: a cell has the type it states, or else the type of its first value, and an expression has
the type its parts give it. What could not be read has no type.

## Main definitions

* `TypeExpr.meaning?`, `Resolutions.functionType?`: the types that are written
* `Ty.Unifies`: types that unify
* `HasType`, `ArgumentsFit`, `CellType`: the types of expressions, arguments and storage cells
* `Stmt.Typed`: statements whose parts have the types that they need
* `FnDecl.WellTyped`, `Module.WellTyped`: functions and modules that follow the rules

## Main results

* `HasType.proper`: the types of expressions are known, and function types are those of functions
* `HasType.unique`, `CellType.unique`: expressions and cells have one type
-/

namespace WordLang

/-! ## Written types -/

/-- The type that a written type stands for. -/
def TypeExpr.meaning? : TypeExpr → Option Ty
  | .error _ => none
  | .void _ => some .void
  | .named _ ident => Ty.ofName? ident.name
  | .pointer _ target => target.meaning?.map Ty.pointer

def Param.meanings? : List Param → Option (List Ty)
  | [] => some []
  | param :: rest => do
    let ty ← param.type.meaning?
    return ty :: (← meanings? rest)

/-- The type of the function that the statement `id` declares. -/
def Resolutions.functionType? (r : Resolutions) (id : StmtId) : Option Ty := do
  let decl ← r.function? id
  let params ← Param.meanings? decl.params
  let result ← decl.result.meaning?
  return .function id params result

/-- A type that is known and is no function type. -/
def Ty.Plain : Ty → Prop
  | .void => True
  | .int => True
  | .str => True
  | .pointer target => target.Plain
  | _ => False

theorem TypeExpr.plain_of_meaning? {t : TypeExpr} {ty : Ty} (h : t.meaning? = some ty) :
    ty.Plain := by
  induction t generalizing ty with
  | error tag => cases h
  | void tag =>
    cases h
    trivial
  | named tag ident =>
    simp only [TypeExpr.meaning?, Ty.ofName?] at h
    split at h
    · cases h
      trivial
    · split at h
      · cases h
        trivial
      · split at h
        · cases h
          trivial
        · cases h
  | pointer tag target ih =>
    simp only [TypeExpr.meaning?, Option.map_eq_some_iff] at h
    obtain ⟨inner, hinner, rfl⟩ := h
    show inner.Plain
    exact ih hinner

theorem Param.meanings?_cons {param : Param} {rest : List Param} {types : List Ty} :
    meanings? (param :: rest) = some types ↔ ∃ ty, param.type.meaning? = some ty ∧
      ∃ tys, meanings? rest = some tys ∧ ty :: tys = types := by
  simp [meanings?, Option.bind_eq_some_iff]

theorem Param.plain_of_meanings? {params : List Param} {types : List Ty}
    (h : meanings? params = some types) : types.length = params.length ∧ ∀ ty ∈ types, ty.Plain := by
  induction params generalizing types with
  | nil =>
    cases h
    simp
  | cons param rest ih =>
    obtain ⟨ty, hty, tys, htys, rfl⟩ := meanings?_cons.1 h
    obtain ⟨hlen, hall⟩ := ih htys
    refine ⟨by simp [hlen], fun t ht => ?_⟩
    rcases List.mem_cons.1 ht with rfl | ht
    · exact TypeExpr.plain_of_meaning? hty
    · exact hall t ht

theorem Resolutions.functionType?_eq_some {r : Resolutions} {id : StmtId} {ty : Ty} :
    r.functionType? id = some ty ↔ ∃ decl params result, r.function? id = some decl ∧
      Param.meanings? decl.params = some params ∧ decl.result.meaning? = some result ∧
      ty = .function id params result := by
  simp only [functionType?, Option.bind_eq_bind, Option.bind_eq_some_iff, Option.pure_def,
    Option.some.injEq]
  constructor
  · rintro ⟨decl, hdecl, params, hparams, result, hresult, rfl⟩
    exact ⟨decl, params, result, hdecl, hparams, hresult, rfl⟩
  · rintro ⟨decl, params, result, hdecl, hparams, hresult, rfl⟩
    exact ⟨decl, hdecl, params, hparams, result, hresult, rfl⟩

/-! ## Unification -/

/-- Two types unify: they are one base type, pointers to types that unify, or types of one
function. -/
inductive Ty.Unifies : Ty → Ty → Prop where
  | void : Unifies .void .void
  | int : Unifies .int .int
  | str : Unifies .str .str
  | pointer {source target : Ty} : Unifies source target → Unifies (.pointer source) (.pointer target)
  | function {decl : StmtId} {params params' : List Ty} {result result' : Ty} :
    Unifies (.function decl params result) (.function decl params' result')

def Ty.Known : Ty → Prop
  | .error => False
  | .unknown => False
  | .pointer target => target.Known
  | _ => True

theorem Ty.known_int : Ty.Known .int :=
  trivial

theorem Ty.Plain.known {ty : Ty} (h : ty.Plain) : ty.Known := by
  fun_induction Ty.Plain ty with
  | case4 target ih => exact ih h
  | case5 => exact h.elim
  | _ => trivial

theorem Ty.Unifies.eq_int {ty : Ty} (h : ty.Unifies .int) : ty = .int := by
  cases h
  rfl

theorem Ty.Unifies.assignable {source target : Ty} (h : source.Unifies target) :
    source.assignable target = true := by
  induction h with
  | pointer _ ih => exact ih
  | function => exact decide_eq_true rfl
  | _ => rfl

theorem Ty.unifies_of_assignable {source target : Ty} (hs : source.Known) (ht : target.Known)
    (h : source.assignable target = true) : source.Unifies target := by
  fun_induction Ty.assignable source target with
  | case1 => exact hs.elim
  | case2 => exact ht.elim
  | case3 => exact .int
  | case4 => exact .str
  | case5 => exact .void
  | case6 source target ih => exact .pointer (ih hs ht h)
  | case7 decl params result decl' params' result' =>
    obtain rfl := of_decide_eq_true h
    exact .function
  | case8 => cases h

/-! ## Expressions and storage cells -/

section

variable (r : Resolutions)

mutual

/-- An expression has a type. -/
inductive HasType : Expr → Ty → Prop where
  | int {tag : Tag} {value : Int64} : HasType (.int tag value) .int
  | string {tag : Tag} {text : String} : HasType (.string tag text) (.pointer .str)
  | function {tag : Tag} {ident : Ident} {decl : StmtId} {ty : Ty} :
    r.bindings.find? tag.id = some (.function decl) → r.functionType? decl = some ty →
    HasType (.name tag ident) ty
  | parameter {tag : Tag} {ident : Ident} {owner : StmtId} {index : Nat} {params : List Ty}
      {result ty : Ty} :
    r.bindings.find? tag.id = some (.parameter owner index) →
    r.functionType? owner = some (.function owner params result) → params[index]? = some ty →
    HasType (.name tag ident) ty
  | cell {tag : Tag} {ident : Ident} {decl : StmtId} {ty : Ty} :
    r.bindings.find? tag.id = some (.local decl) → CellType decl ty → HasType (.name tag ident) ty
  | call {tag : Tag} {callee : Expr} {args : List Expr} {decl : StmtId} {params : List Ty}
      {result : Ty} :
    HasType callee (.function decl params result) → ArgumentsFit args params →
    HasType (.call tag callee args) result
  | unary {tag : Tag} {op : UnaryOp} {operand : Expr} :
    HasType operand .int → HasType (.unary tag op operand) .int
  | binary {tag : Tag} {op : BinaryOp} {lhs rhs : Expr} :
    HasType lhs .int → HasType rhs .int → HasType (.binary tag op lhs rhs) .int

/-- Arguments fit parameters of given types. -/
inductive ArgumentsFit : List Expr → List Ty → Prop where
  | nil : ArgumentsFit [] []
  | cons {arg : Expr} {args : List Expr} {ty param : Ty} {params : List Ty} :
    HasType arg ty → ty.Unifies param → ArgumentsFit args params →
    ArgumentsFit (arg :: args) (param :: params)

/-- A storage cell has a type. -/
inductive CellType : StmtId → Ty → Prop where
  | stated {id : StmtId} {tag : Tag} {ident : Ident} {type : TypeExpr} {ty : Ty} :
    r.declarations.find? id = some (.declare tag ident (some type) none) →
    type.meaning? = some ty → CellType id ty
  /-- A cell that states its type and has a first value. -/
  | both {id : StmtId} {tag : Tag} {ident : Ident} {type : TypeExpr} {value : Expr} {ty source : Ty} :
    r.declarations.find? id = some (.declare tag ident (some type) (some value)) →
    type.meaning? = some ty → HasType value source → source.Unifies ty → CellType id ty
  /-- A cell that has the type of its first value. -/
  | inferred {id : StmtId} {tag : Tag} {ident : Ident} {value : Expr} {ty : Ty} :
    r.declarations.find? id = some (.declare tag ident none (some value)) →
    HasType value ty → CellType id ty

end

def Ty.Proper (ty : Ty) : Prop :=
  ty.Plain ∨ ∃ decl, r.functionType? decl = some ty

end

variable {r : Resolutions}

theorem Ty.Proper.of_functionType? {id decl : StmtId} {params : List Ty} {result : Ty}
    (h : r.functionType? id = some (.function decl params result)) :
    decl = id ∧ (∀ ty ∈ params, ty.Plain) ∧ result.Plain := by
  obtain ⟨d, ps, res, -, hparams, hresult, heq⟩ := Resolutions.functionType?_eq_some.1 h
  cases heq
  exact ⟨rfl, (Param.plain_of_meanings? hparams).2, TypeExpr.plain_of_meaning? hresult⟩

theorem Ty.Proper.known {ty : Ty} (h : ty.Proper r) : ty.Known := by
  rcases h with h | ⟨decl, h⟩
  · exact h.known
  · obtain ⟨-, -, -, -, -, -, rfl⟩ := Resolutions.functionType?_eq_some.1 h
    trivial

/-- A proper function type is the type of its function. -/
theorem Ty.Proper.function {decl : StmtId} {params : List Ty} {result : Ty}
    (h : Ty.Proper r (.function decl params result)) :
    r.functionType? decl = some (.function decl params result) := by
  rcases h with h | ⟨id, h⟩
  · exact h.elim
  · obtain ⟨rfl, -⟩ := Ty.Proper.of_functionType? h
    exact h

mutual

theorem HasType.proper {e : Expr} {ty : Ty} : HasType r e ty → ty.Proper r
  | .int => .inl trivial
  | .string => .inl trivial
  | .function _ h => .inr ⟨_, h⟩
  | .parameter _ h hget => .inl ((Ty.Proper.of_functionType? h).2.1 _ (List.mem_of_getElem? hget))
  | .cell _ h => h.proper
  | .call h _ => .inl (Ty.Proper.of_functionType? h.proper.function).2.2
  | .unary _ => .inl trivial
  | .binary _ _ => .inl trivial

/-- The types of storage cells are proper. -/
theorem CellType.proper {id : StmtId} {ty : Ty} : CellType r id ty → ty.Proper r
  | .stated _ h => .inl (TypeExpr.plain_of_meaning? h)
  | .both _ h _ _ => .inl (TypeExpr.plain_of_meaning? h)
  | .inferred _ h => h.proper

end

mutual

theorem HasType.unique {e : Expr} {ty ty' : Ty} : HasType r e ty → HasType r e ty' → ty = ty'
  | .int, .int => rfl
  | .string, .string => rfl
  | .function hb h, .function hb' h' => by
    cases hb.symm.trans hb'
    exact Option.some.inj (h.symm.trans h')
  | .function hb _, .parameter hb' _ _ => nomatch hb.symm.trans hb'
  | .function hb _, .cell hb' _ => nomatch hb.symm.trans hb'
  | .parameter hb _ _, .function hb' _ => nomatch hb.symm.trans hb'
  | .parameter hb h hget, .parameter hb' h' hget' => by
    cases hb.symm.trans hb'
    cases h.symm.trans h'
    exact Option.some.inj (hget.symm.trans hget')
  | .parameter hb _ _, .cell hb' _ => nomatch hb.symm.trans hb'
  | .cell hb _, .function hb' _ => nomatch hb.symm.trans hb'
  | .cell hb _, .parameter hb' _ _ => nomatch hb.symm.trans hb'
  | .cell hb h, .cell hb' h' => by
    cases hb.symm.trans hb'
    exact h.unique h'
  | .call h _, .call h' _ => by
    cases h.unique h'
    rfl
  | .unary _, .unary _ => rfl
  | .binary _ _, .binary _ _ => rfl

/-- A storage cell has one type. -/
theorem CellType.unique {id : StmtId} {ty ty' : Ty} : CellType r id ty → CellType r id ty' → ty = ty'
  | .stated hd h, .stated hd' h' => by
    cases hd.symm.trans hd'
    exact Option.some.inj (h.symm.trans h')
  | .stated hd _, .both hd' _ _ _ => nomatch hd.symm.trans hd'
  | .stated hd _, .inferred hd' _ => nomatch hd.symm.trans hd'
  | .both hd _ _ _, .stated hd' _ => nomatch hd.symm.trans hd'
  | .both hd h _ _, .both hd' h' _ _ => by
    cases hd.symm.trans hd'
    exact Option.some.inj (h.symm.trans h')
  | .both hd _ _ _, .inferred hd' _ => nomatch hd.symm.trans hd'
  | .inferred hd _, .stated hd' _ => nomatch hd.symm.trans hd'
  | .inferred hd _, .both hd' _ _ _ => nomatch hd.symm.trans hd'
  | .inferred hd h, .inferred hd' h' => by
    cases hd.symm.trans hd'
    exact h.unique h'

end

/-! ## Parts of what has a type -/

theorem HasType.unifies_int {e : Expr} {ty : Ty} (h : HasType r e ty) (hint : HasType r e .int) :
    ty.Unifies .int := by
  rw [h.unique hint]
  exact .int

theorem ArgumentsFit.length_eq {args : List Expr} {params : List Ty} (h : ArgumentsFit r args params) :
    params.length = args.length := by
  induction args generalizing params with
  | nil =>
    cases h
    rfl
  | cons arg args ih =>
    cases h with
    | cons _ _ hrest => simp [ih hrest]

/-- The first value of a cell has the type of the cell or one that fits it. -/
theorem CellType.value {id : StmtId} {ty : Ty} {tag : Tag} {ident : Ident} {type : Option TypeExpr}
    {e : Expr} (h : CellType r id ty)
    (hdecl : r.declarations.find? id = some (.declare tag ident type (some e))) :
    ∃ source, HasType r e source ∧ (source = ty ∨ source.Unifies ty) := by
  cases h with
  | stated hd _ => cases hdecl.symm.trans hd
  | both hd _ hsource hfit =>
    cases hdecl.symm.trans hd
    exact ⟨_, hsource, .inr hfit⟩
  | inferred hd hsource =>
    cases hdecl.symm.trans hd
    exact ⟨_, hsource, .inl rfl⟩

/-! ## Statements -/

/-- The parts of a statement, apart from the statements within it, have the types that a statement
of a function with the given result type needs. -/
def Stmt.Typed (r : Resolutions) (result : Ty) : Stmt → Prop
  | .error _ => False
  | .function _ _ => True
  | .declare tag _ _ _ => ∃ ty, CellType r tag.id ty ∧ ty ≠ .void
  | .loop _ _ => True
  | .while _ condition _ => HasType r condition .int
  | .choose _ condition _ _ => HasType r condition .int
  | .return _ none => result = .void
  | .return _ (some value) => ∃ ty, HasType r value ty ∧ ty.Unifies result
  | .break _ => True
  | .assign _ subject value =>
    ∃ tag ident b target ty, subject = .name tag ident ∧ r.bindings.find? tag.id = some b ∧
      b.isFunction = false ∧ HasType r subject target ∧ HasType r value ty ∧
      ty.Unifies target
  | .eval _ e => ∃ ty, HasType r e ty

/-! ## Functions and modules -/

/-- A function that follows the rules. -/
structure FnDecl.WellTyped (r : Resolutions) (decl : FnDecl) : Prop where
  attributes : Attr.AllValid decl.attrs
  /-- The function has a body or is foreign, but not both. -/
  defined : decl.body.isSome = true ↔ ¬Attr.Named decl.attrs "c_function"
  /-- What foreign code calls or defines has at most six parameters. -/
  arity : Attr.Named decl.attrs "c_function" ∨ Attr.Named decl.attrs "c_export" →
    decl.params.length ≤ 6
  params : ∀ param ∈ decl.params, ∃ ty, param.type.meaning? = some ty ∧ ty ≠ .void
  /-- The result has a type, which the statements of the body agree with. -/
  result : ∃ ty, decl.result.meaning? = some ty ∧
    ∀ b, decl.body = some b → ∀ s ∈ Stmt.ownOfBlock b, s.Typed r ty

/-- A module that follows the rules. -/
structure Module.WellTyped (r : Resolutions) (m : Module) : Prop where
  items : ∀ s ∈ m.items, ∃ tag decl, s = .function tag decl
  /-- Every function, also one within another one, follows the rules. -/
  functions : ∀ tag decl, .function tag decl ∈ m.statements → decl.WellTyped r

theorem Param.meanings?_iff {params : List Param} :
    (∃ types, meanings? params = some types ∧ ∀ ty ∈ types, ty ≠ .void) ↔
      ∀ param ∈ params, ∃ ty, param.type.meaning? = some ty ∧ ty ≠ .void := by
  induction params with
  | nil => simp [meanings?]
  | cons param rest ih =>
    rw [List.forall_mem_cons, ← ih]
    constructor
    · rintro ⟨types, h, hvoid⟩
      obtain ⟨ty, hty, tys, htys, rfl⟩ := meanings?_cons.1 h
      exact ⟨⟨ty, hty, hvoid ty List.mem_cons_self⟩, tys, htys,
        fun t ht => hvoid t (List.mem_cons_of_mem _ ht)⟩
    · rintro ⟨⟨ty, hty, hvoid⟩, tys, htys, hrest⟩
      exact ⟨ty :: tys, meanings?_cons.2 ⟨ty, hty, tys, htys, rfl⟩,
        List.forall_mem_cons.2 ⟨hvoid, hrest⟩⟩

end WordLang
