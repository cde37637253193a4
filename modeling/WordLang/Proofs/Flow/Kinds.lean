import WordLang.Proofs.Flow.Compiled

/-!
# Kinds of values in graphs

A value of a well typed program is a number, a function or something that is only passed on. A
function type belongs to one function, so it is known which function a value of such a type is. What
the statements of a graph do to the stack is described by the kinds of the values on it.

## Main definitions

* `Kind`, `Ty.kind`: kinds of values, and the kind of the values of a type
* `Signature`, `Resolutions.signature?`: the kinds of the parameters and of the result of a function
* `Flow.Statement.Kinded`, `Flow.StatementsKinded`: what statements do to the kinds on the stack
* `Flow.Block.Kinded`, `Flow.Function.Kinded`: blocks and graphs

## Main results

* `Flow.expression_kinded`: an expression pushes a value of its type
-/

namespace WordLang

/-! ## Kinds -/

/-- What is known about a value. -/
inductive Kind where
  | word
  /-- The value is a certain function. -/
  | code (function : FunctionId)
  | any
deriving DecidableEq, Repr

/-- The kind of the values of a type. -/
def Ty.kind (functions : List StmtId) : Ty → Kind
  | .int => .word
  | .function decl _ _ => (functions.idxOf? decl).elim .any .code
  | _ => .any

theorem Ty.Unifies.kind_eq {source target : Ty} (h : source.Unifies target)
    (functions : List StmtId) : source.kind functions = target.kind functions := by
  cases h <;> rfl

structure Signature where
  params : List Kind
  result : Kind

/-- The signature of a function of the program. -/
def Resolutions.signature? (r : Resolutions) (id : FunctionId) : Option Signature :=
  match r.functions[id]?.bind r.functionType? with
  | some (.function _ params result) =>
    some ⟨params.map (Ty.kind r.functions), result.kind r.functions⟩
  | _ => none

theorem Resolutions.signature?_of_functionType? {r : Resolutions} {decl owner : StmtId}
    {id : FunctionId} {params : List Ty} {result : Ty}
    (htype : r.functionType? decl = some (.function owner params result))
    (hid : r.functions[id]? = some decl) :
    r.signature? id = some ⟨params.map (Ty.kind r.functions), result.kind r.functions⟩ := by
  simp [signature?, hid, htype]

namespace Flow

section

variable (r : Resolutions) (locals : List Local)

/-- A storage cell holds values of a kind. -/
def CellKind (cell : LocalId) (k : Kind) : Prop :=
  ∃ l, locals[cell]? = some l ∧ l.type.kind r.functions = k

/-- What a statement does to the kinds of the values on the stack, the top first. -/
inductive Statement.Kinded : Statement → List Kind → List Kind → Prop where
  | int (value : Int64) (ks : List Kind) : Kinded (.push (.int value)) ks (.word :: ks)
  | string (text : String) (ks : List Kind) : Kinded (.push (.string text)) ks (.any :: ks)
  | function {decl : StmtId} {id : FunctionId} (ks : List Kind) :
    r.functions.idxOf? decl = some id → Kinded (.push (.function decl)) ks (.code id :: ks)
  | pop (k : Kind) (ks : List Kind) : Kinded .pop (k :: ks) ks
  | load {cell : LocalId} {k : Kind} (ks : List Kind) :
    CellKind r locals cell k → Kinded (.load cell) ks (k :: ks)
  | store {cell : LocalId} {k : Kind} (ks : List Kind) :
    CellKind r locals cell k → Kinded (.store cell) (k :: ks) ks
  | call {id : FunctionId} {s : Signature} (ks : List Kind) : r.signature? id = some s →
    Kinded (.call s.params.length) (.code id :: (s.params.reverse ++ ks)) (s.result :: ks)
  | binary (op : BinaryOp) (ks : List Kind) :
    Kinded (.binary op) (.word :: .word :: ks) (.word :: ks)

inductive StatementsKinded : List Statement → List Kind → List Kind → Prop where
  | nil (ks : List Kind) : StatementsKinded [] ks ks
  | cons {s : Statement} {ss : List Statement} {ks₁ ks₂ ks₃ : List Kind} :
    s.Kinded r locals ks₁ ks₂ → StatementsKinded ss ks₂ ks₃ → StatementsKinded (s :: ss) ks₁ ks₃

/-- A terminator finds an empty stack, or the number that it tests. -/
def Terminator.Takes : Terminator → List Kind → Prop
  | .branch _ _, ks => ks = [.word]
  | _, ks => ks = []

/-- A block leads from an empty stack to what its terminator takes. -/
def Block.Kinded (b : Block) : Prop :=
  ∃ ks, StatementsKinded r locals b.statements [] ks ∧ b.terminator.Takes ks

end

/-- A graph all of whose blocks are kinded, for a function with a given signature. -/
structure Function.Kinded (r : Resolutions) (s : Signature) (f : Function) : Prop where
  blocks : ∀ b ∈ f.blocks, b.Kinded r f.locals
  params : List.Forall₂ (CellKind r f.locals) f.params s.params
  result : CellKind r f.locals f.result s.result

section

variable {r : Resolutions} {locals locals' : List Local}

theorem CellKind.mono {cell : LocalId} {k : Kind} (h : CellKind r locals cell k)
    (hl : locals <+: locals') : CellKind r locals' cell k := by
  obtain ⟨l, hget, hk⟩ := h
  obtain ⟨more, rfl⟩ := hl
  have hlt := (List.getElem?_eq_some_iff.1 hget).1
  exact ⟨l, by rw [List.getElem?_append_left hlt, hget], hk⟩

theorem Statement.Kinded.mono {s : Statement} {ks ks' : List Kind}
    (h : s.Kinded r locals ks ks') (hl : locals <+: locals') : s.Kinded r locals' ks ks' := by
  cases h with
  | load ks hcell => exact .load ks (hcell.mono hl)
  | store ks hcell => exact .store _ (hcell.mono hl)
  | int value => exact .int value _
  | string text => exact .string text _
  | function ks hid => exact .function _ hid
  | pop k => exact .pop k _
  | call ks hs => exact .call ks hs
  | binary op ks => exact .binary op ks

namespace StatementsKinded

theorem mono {ss : List Statement} {ks ks' : List Kind} (h : StatementsKinded r locals ss ks ks')
    (hl : locals <+: locals') : StatementsKinded r locals' ss ks ks' := by
  induction h with
  | nil ks => exact .nil ks
  | cons hs _ ih => exact .cons (hs.mono hl) ih

theorem append {ss ss' : List Statement} {ks₁ ks₂ ks₃ : List Kind}
    (h : StatementsKinded r locals ss ks₁ ks₂) (h' : StatementsKinded r locals ss' ks₂ ks₃) :
    StatementsKinded r locals (ss ++ ss') ks₁ ks₃ := by
  induction h with
  | nil => exact h'
  | cons hs _ ih => exact .cons hs (ih h')

theorem singleton {s : Statement} {ks ks' : List Kind} (h : s.Kinded r locals ks ks') :
    StatementsKinded r locals [s] ks ks' :=
  .cons h (.nil ks')

end StatementsKinded

theorem Block.Kinded.mono {b : Block} (h : b.Kinded r locals) (hl : locals <+: locals') :
    b.Kinded r locals' := by
  obtain ⟨ks, hss, ht⟩ := h
  exact ⟨ks, hss.mono hl, ht⟩

end

/-! ## Expressions -/

/-- The cells of parameters and declarations hold values of their types. -/
structure Cells.Kinded (r : Resolutions) (owner : StmtId) (locals : List Local) (cells : Cells) :
    Prop where
  params : ∀ {params : List Ty} {result ty : Ty} {index : Nat} {cell : LocalId},
    r.functionType? owner = some (.function owner params result) → params[index]? = some ty →
    cells.params[index]? = some cell → CellKind r locals cell (ty.kind r.functions)
  declared : ∀ {id : StmtId} {ty : Ty} {cell : LocalId}, CellType r id ty →
    cells.declared.find? id = some cell → CellKind r locals cell (ty.kind r.functions)

theorem Cells.Kinded.mono {r : Resolutions} {owner : StmtId} {locals locals' : List Local} {cells : Cells}
    (h : cells.Kinded r owner locals) (hl : locals <+: locals') : cells.Kinded r owner locals' where
  params := fun htype hty hcell => (h.params htype hty hcell).mono hl
  declared := fun hty hcell => (h.declared hty hcell).mono hl

section

variable {r : Resolutions} {m : Module} {owner : StmtId} {arity : Nat} {visible : List StmtId}
  {locals : List Local} {cells : Cells}

theorem kind_function (hr : r.Scoped m) {decl owner : StmtId} {params : List Ty} {result : Ty}
    (h : r.functionType? decl = some (.function owner params result)) :
    ∃ id, r.functions.idxOf? decl = some id ∧
      (Ty.function owner params result).kind r.functions = .code id ∧
      r.signature? id = some ⟨params.map (Ty.kind r.functions), result.kind r.functions⟩ := by
  obtain ⟨rfl, -⟩ := Ty.Proper.of_functionType? h
  obtain ⟨d, -, -, hd, -⟩ := Resolutions.functionType?_eq_some.1 h
  obtain ⟨tag, hfind⟩ := Resolutions.function?_eq_some.1 hd
  obtain ⟨id, hid⟩ : ∃ id, r.functions.idxOf? owner = some id :=
    Option.isSome_iff_exists.1 (by simpa using hr.listed hfind)
  refine ⟨id, hid, by simp [Ty.kind, hid], Resolutions.signature?_of_functionType? h ?_⟩
  obtain ⟨hlt, hget, -⟩ := List.idxOf?_eq_some_iff.1 hid
  rw [List.getElem?_eq_getElem hlt, hget]

theorem name_kinded (hr : r.Scoped m) (hcells : cells.Kinded r owner locals) {tag : Tag} {ident : Ident}
    {ty : Ty} {ss : List Statement} (hty : HasType r (.name tag ident) ty)
    (hscoped : (Expr.name tag ident).Scoped r owner arity visible)
    (hss : expression r cells (.name tag ident) = .ok ss) (ks : List Kind) :
    StatementsKinded r locals ss ks (ty.kind r.functions :: ks) := by
  obtain ⟨binding, hb, hin⟩ := hscoped
  simp only [expression, bindingOf_name hb] at hss
  obtain ⟨_, hbinding, hss⟩ := exists_of_bind_eq_ok hss
  cases hbinding
  cases hty with
  | function hb' htype =>
    cases hb.symm.trans hb'
    cases hss
    obtain ⟨-, params, result, -, -, -, rfl⟩ := Resolutions.functionType?_eq_some.1 htype
    obtain ⟨id, hid, hkind, -⟩ := kind_function hr htype
    rw [hkind]
    exact .singleton (.function _ hid)
  | parameter hb' htype hget =>
    cases hb.symm.trans hb'
    obtain ⟨cell, hcell, hss⟩ := exists_of_bind_eq_ok hss
    cases hss
    obtain rfl := hin.1
    exact .singleton (.load _ (hcells.params htype hget (Cells.find_parameter.1 hcell)))
  | cell hb' hty =>
    cases hb.symm.trans hb'
    obtain ⟨cell, hcell, hss⟩ := exists_of_bind_eq_ok hss
    cases hss
    exact .singleton (.load _ (hcells.declared hty (Cells.find_local.1 hcell)))

mutual

theorem expression_kinded (hr : r.Scoped m) (hcells : cells.Kinded r owner locals) {e : Expr} {ty : Ty}
    {ss : List Statement} : HasType r e ty → e.Scoped r owner arity visible →
      expression r cells e = .ok ss → ∀ ks, StatementsKinded r locals ss ks (ty.kind r.functions :: ks)
  | .int, _, hss, ks => by
    cases hss
    exact .singleton (.int _ ks)
  | .string, _, hss, ks => by
    cases hss
    exact .singleton (.string _ ks)
  | .function hb htype, hscoped, hss, ks => name_kinded hr hcells (.function hb htype) hscoped hss ks
  | .parameter hb htype hget, hscoped, hss, ks =>
    name_kinded hr hcells (.parameter hb htype hget) hscoped hss ks
  | .cell hb hty, hscoped, hss, ks => name_kinded hr hcells (.cell hb hty) hscoped hss ks
  | .call hcallee hargs, hscoped, hss, ks => by
    obtain ⟨id, -, hkind, hsig⟩ := kind_function hr hcallee.proper.function
    simp only [expression] at hss
    obtain ⟨ss₁, hss₁, hss⟩ := exists_of_bind_eq_ok hss
    obtain ⟨ss₂, hss₂, hss⟩ := exists_of_bind_eq_ok hss
    cases hss
    have h₁ := expressions_kinded hr hcells hargs hscoped.1 hss₁ ks
    have h₂ := expression_kinded hr hcells hcallee hscoped.2 hss₂
    rw [← hargs.length_eq]
    refine (h₁.append (h₂ _)).append (.singleton ?_)
    rw [hkind]
    have hcall : Statement.Kinded r locals _ _ _ := .call ks hsig
    rwa [List.length_map] at hcall
  | @HasType.unary _ _ .negate _ hoperand, hscoped, hss, ks => by
    simp only [expression] at hss
    obtain ⟨ss', hss', hss⟩ := exists_of_bind_eq_ok hss
    cases hss
    have h := expression_kinded hr hcells hoperand hscoped hss'
    exact .append (.cons (.int 0 ks) (h _)) (.singleton (.binary .sub ks))
  | @HasType.unary _ _ .not _ hoperand, hscoped, hss, ks => by
    simp only [expression] at hss
    obtain ⟨ss', hss', hss⟩ := exists_of_bind_eq_ok hss
    cases hss
    have h := expression_kinded hr hcells hoperand hscoped hss'
    exact (h ks).append (.cons (.int 0 _) (.singleton (.binary .eq ks)))
  | .binary hlhs hrhs, hscoped, hss, ks => by
    simp only [expression] at hss
    obtain ⟨ss₁, hss₁, hss⟩ := exists_of_bind_eq_ok hss
    obtain ⟨ss₂, hss₂, hss⟩ := exists_of_bind_eq_ok hss
    cases hss
    have h₁ := expression_kinded hr hcells hlhs hscoped.1 hss₁
    have h₂ := expression_kinded hr hcells hrhs hscoped.2 hss₂
    exact ((h₁ ks).append (h₂ _)).append (.singleton (.binary _ ks))

theorem expressions_kinded (hr : r.Scoped m) (hcells : cells.Kinded r owner locals) {args : List Expr}
    {params : List Ty} {ss : List Statement} : ArgumentsFit r args params →
      Expr.AllScoped r owner arity visible args → expressions r cells args = .ok ss →
      ∀ ks, StatementsKinded r locals ss ks ((params.map (Ty.kind r.functions)).reverse ++ ks)
  | .nil, _, hss, ks => by
    cases hss
    exact .nil ks
  | .cons harg hfit hrest, hscoped, hss, ks => by
    simp only [expressions] at hss
    obtain ⟨ss₁, hss₁, hss⟩ := exists_of_bind_eq_ok hss
    obtain ⟨ss₂, hss₂, hss⟩ := exists_of_bind_eq_ok hss
    cases hss
    have h₁ := expression_kinded hr hcells harg hscoped.1 hss₁ ks
    have h₂ := expressions_kinded hr hcells hrest hscoped.2 hss₂
    rw [hfit.kind_eq] at h₁
    simpa using h₁.append (h₂ _)

end

end

end Flow

end WordLang
