import WordLang.Proofs.Typing.KeptAnswers

/-!
# Questions about types are answered by the typing judgement

The types that are found at some depth are those that the typing judgement gives, except that the
judgement also gives types to what refers to a storage cell of type void. Where the types of all
visible cells are found, the two agree, and a question is answered in line with the judgement.

## Main definitions

* `Answers.Sound`: answers that the typing judgement gives
* `Query.Meets`: a question that is answered in line with the typing judgement, or fails because
  the judgement gives no answer

## Main results

* `Expr.hasType_of_type?`, `Expr.type?_of_hasType`: types that are found and types of the judgement
* `Query.ofExpr_meets`, `Query.ofCell_meets`, `Query.ofFunction_meets`: the questions
-/

namespace WordLang

variable {problem : TypeProblem} {id : StmtId} {ty : Ty} {line : Nat} {e : Expr}

structure Answers.Sound (m : Module) (r : Resolutions) (a : Answers) : Prop where
  written : ∀ t ∈ m.types, ∀ {ty}, a.written.find? t.tag.id = some ty → t.meaning? = some ty
  functions : ∀ {id ty}, a.functions.find? id = some ty → r.functionType? id = some ty
  cells : ∀ {id ty}, a.cells.find? id = some ty → ty ≠ .unknown → CellType r id ty ∧ ty ≠ .void
  exprs : ∀ e ∈ m.exprs, ∀ {ty}, a.exprs.find? e.id = some ty → HasType r e ty

/-! ## Types that are found -/

theorem Resolutions.paramType?_eq_some {r : Resolutions} {index : Nat} :
    r.paramType? id index = some ty ↔ ∃ params result,
      r.functionType? id = some (.function id params result) ∧ params[index]? = some ty := by
  simp only [paramType?, Option.bind_eq_some_iff]
  constructor
  · rintro ⟨_, ⟨_, hty, hparts⟩, hget⟩
    obtain ⟨decl, params, result, -, -, -, rfl⟩ := functionType?_eq_some.1 hty
    cases hparts
    exact ⟨params, result, hty, hget⟩
  · rintro ⟨params, result, hty, hget⟩
    exact ⟨(params, result), ⟨_, hty, rfl⟩, hget⟩

section

variable {r : Resolutions} {cell : StmtId → Option Ty}

mutual

/-- What is found for an expression that could be read is its type. -/
theorem Expr.hasType_of_type? (hcell : ∀ id ty, cell id = some ty → CellType r id ty) :
    ∀ (e : Expr) {ty : Ty}, (∀ e' ∈ e.all, e'.isError = false) → e.type? r cell = some ty →
      HasType r e ty
  | .error tag, _, hok, _ => nomatch hok (.error tag) List.mem_cons_self
  | .int _ _, _, _, h => by
    cases h
    exact .int
  | .string _ _, _, _, h => by
    cases h
    exact .string
  | .name tag ident, ty, _, h => by
    obtain ⟨b, hb, h⟩ := Option.bind_eq_some_iff.1 h
    cases b with
    | function decl => exact .function hb h
    | parameter owner index =>
      obtain ⟨params, result, htype, hget⟩ := Resolutions.paramType?_eq_some.1 h
      exact .parameter hb htype hget
    | «local» decl => exact .cell hb (hcell decl ty h)
  | .call tag callee args, ty, hok, h => by
    obtain ⟨calleeType, hcallee, h⟩ := Option.bind_eq_some_iff.1 h
    obtain ⟨⟨params, result⟩, hparts, h⟩ := Option.bind_eq_some_iff.1 h
    split at h
    · next hlen =>
      obtain ⟨_, hfit, h⟩ := Option.bind_eq_some_iff.1 h
      cases h
      cases calleeType with
      | function decl params' result' =>
        cases hparts
        have htype := hasType_of_type? hcell callee (fun e' he' => hok e' (by simp [Expr.all, he'])) hcallee
        have hplain := (Ty.Proper.of_functionType? htype.proper.function).2.1
        exact .call htype (argumentsFit_of_argumentsFit? hcell args hlen
          (fun ty hty => (hplain ty hty).known) (fun e' he' => hok e' (by simp [Expr.all, he'])) hfit)
      | _ => cases hparts
    · cases h
  | .unary tag op operand, ty, hok, h => by
    obtain ⟨operandType, hoperand, h⟩ := Option.bind_eq_some_iff.1 h
    split at h
    · next hfits =>
      cases h
      have htype := hasType_of_type? hcell operand (fun e' he' => hok e' (by simp [Expr.all, he'])) hoperand
      cases (Ty.unifies_of_assignable htype.proper.known Ty.known_int hfits).eq_int
      exact .unary htype
    · cases h
  | .binary tag op lhs rhs, ty, hok, h => by
    obtain ⟨left, hleft, h⟩ := Option.bind_eq_some_iff.1 h
    obtain ⟨right, hright, h⟩ := Option.bind_eq_some_iff.1 h
    split at h
    · next hfits =>
      split at h
      · next hfits' =>
        cases h
        have hl := hasType_of_type? hcell lhs (fun e' he' => hok e' (by simp [Expr.all, he'])) hleft
        have hr := hasType_of_type? hcell rhs (fun e' he' => hok e' (by simp [Expr.all, he'])) hright
        cases (Ty.unifies_of_assignable hl.proper.known Ty.known_int hfits).eq_int
        cases (Ty.unifies_of_assignable hr.proper.known Ty.known_int hfits').eq_int
        exact .binary hl hr
      · cases h
    · cases h

theorem Expr.argumentsFit_of_argumentsFit? (hcell : ∀ id ty, cell id = some ty → CellType r id ty) :
    ∀ (args : List Expr) {params : List Ty}, params.length = args.length →
      (∀ ty ∈ params, ty.Known) → (∀ e' ∈ allOfList args, e'.isError = false) →
      argumentsFit? r cell args params = some () → ArgumentsFit r args params
  | [], [], _, _, _, _ => .nil
  | arg :: args, param :: params, hlen, hknown, hok, h => by
    obtain ⟨ty, harg, h⟩ := Option.bind_eq_some_iff.1 h
    split at h
    · next hfits =>
      have htype := hasType_of_type? hcell arg (fun e' he' => hok e' (List.mem_append_left _ he')) harg
      refine .cons htype (Ty.unifies_of_assignable htype.proper.known (hknown param List.mem_cons_self)
        hfits) (argumentsFit_of_argumentsFit? hcell args (Nat.succ.inj hlen) ?_ ?_ h)
      · exact fun ty hty => hknown ty (List.mem_cons_of_mem _ hty)
      · exact fun e' he' => hok e' (List.mem_append_right _ he')
    · cases h

end

variable {owner : StmtId} {arity : Nat} {visible : List StmtId}

mutual

/-- The type of an expression is found if the types of the visible cells are. -/
theorem Expr.type?_of_hasType (hcell : ∀ id ∈ visible, ∀ ty, CellType r id ty → cell id = some ty) :
    ∀ (e : Expr) {ty : Ty}, e.Scoped r owner arity visible → HasType r e ty →
      e.type? r cell = some ty
  | _, _, _, .int => rfl
  | _, _, _, .string => rfl
  | .name tag ident, _, _, .function hb hty => Option.bind_eq_some_iff.2 ⟨_, hb, hty⟩
  | .name tag ident, _, _, .parameter hb hty hget =>
    Option.bind_eq_some_iff.2 ⟨_, hb, Resolutions.paramType?_eq_some.2 ⟨_, _, hty, hget⟩⟩
  | .name tag ident, ty, ⟨b, hb', hin⟩, .cell hb hty => by
    cases hb.symm.trans hb'
    exact Option.bind_eq_some_iff.2 ⟨_, hb, hcell _ hin ty hty⟩
  | .call tag callee args, _, hscoped, .call hcallee hfit => by
    have hargs := argumentsFit?_of_argumentsFit hcell args hscoped.1 hfit
    simp [Expr.type?, type?_of_hasType hcell callee hscoped.2 hcallee, Ty.parts?, hfit.length_eq, hargs]
  | .unary tag op operand, _, hscoped, .unary h => by
    simp [Expr.type?, type?_of_hasType hcell operand hscoped h, Ty.Unifies.int.assignable]
  | .binary tag op lhs rhs, _, hscoped, .binary hl hr => by
    simp [Expr.type?, type?_of_hasType hcell lhs hscoped.1 hl, type?_of_hasType hcell rhs hscoped.2 hr,
      Ty.Unifies.int.assignable]

theorem Expr.argumentsFit?_of_argumentsFit
    (hcell : ∀ id ∈ visible, ∀ ty, CellType r id ty → cell id = some ty) :
    ∀ (args : List Expr) {params : List Ty}, AllScoped r owner arity visible args →
      ArgumentsFit r args params → argumentsFit? r cell args params = some ()
  | _, _, _, .nil => rfl
  | arg :: args, _, hscoped, .cons harg hfits hargs => by
    simp [argumentsFit?, type?_of_hasType hcell arg hscoped.1 harg, hfits.assignable,
      argumentsFit?_of_argumentsFit hcell args hscoped.2 hargs]

end

end

section

variable {m : Module} {r : Resolutions} (hm : m.Resolved r)
include hm

theorem Module.Resolved.isError_eq_false {s : Stmt} (hs : s ∈ m.statements)
    (he : e ∈ s.ownExprs) : ∀ e' ∈ e.all, e'.isError = false :=
  fun e' he' => hm.clean.exprs e' (Module.all_subset_exprs hs he he')

theorem Module.Resolved.cellType {d : Nat} (h : r.cellAt? d id = some ty) : CellType r id ty := by
  induction d generalizing id ty with
  | zero => cases h
  | succ d ih =>
    obtain ⟨s, hid, hs⟩ := Option.bind_eq_some_iff.1 h
    have hmem := (hm.inScope.declared hid).1
    cases s with
    | declare tag ident type value =>
      obtain ⟨stated, hstated, hs⟩ := Option.bind_eq_some_iff.1 hs
      obtain ⟨source, hsource, hs⟩ := Option.bind_eq_some_iff.1 hs
      obtain ⟨hs, -⟩ := Option.filter_eq_some_iff.1 hs
      have hvalue : ∀ e ∈ value, ∀ {ty}, e.type? r (r.cellAt? d) = some ty → HasType r e ty := by
        intro e he ty hty
        refine e.hasType_of_type? (fun _ _ => ih) (hm.isError_eq_false hmem ?_) hty
        simpa [Stmt.ownExprs] using he
      cases type with
      | none =>
        cases hstated
        cases value with
        | none =>
          cases hsource
          cases hs
          cases Query.isStorable_of_cellAt? h
        | some e =>
          obtain ⟨source', hsource', rfl⟩ := Option.map_eq_some_iff.1 hsource
          cases hs
          exact .inferred hid (hvalue e rfl hsource')
      | some t =>
        obtain ⟨stated', hstated', rfl⟩ := Option.map_eq_some_iff.1 hstated
        cases value with
        | none =>
          cases hsource
          cases hs
          exact .stated hid hstated'
        | some e =>
          obtain ⟨source', hsource', rfl⟩ := Option.map_eq_some_iff.1 hsource
          simp only [Ty.ofCell?] at hs
          split at hs
          · next hfits =>
            cases hs
            have htype := hvalue e rfl hsource'
            exact .both hid hstated' htype (Ty.unifies_of_assignable htype.proper.known
              (TypeExpr.plain_of_meaning? hstated').known hfits)
          · cases hs
    | _ => cases hs

variable {owner : StmtId} {arity : Nat} {visible : List StmtId} (hsite : r.Site owner arity visible)
include hsite

theorem Resolutions.Site.exists_depth :
    ∃ d, ∀ id ∈ visible, ∀ ty, CellType r id ty → r.cellAt? d id = some ty := by
  have hfound : ∃ d, ∀ id ∈ visible, ∃ ty, r.cellAt? d id = some ty := by
    obtain ⟨-, hvisible⟩ := hsite
    induction visible with
    | nil => exact ⟨0, fun _ h => nomatch h⟩
    | cons id rest ih =>
      obtain ⟨⟨d, ty, hty⟩, hrest⟩ := List.forall_mem_cons.1 hvisible
      obtain ⟨d', hd'⟩ := ih hrest
      refine ⟨max d d', List.forall_mem_cons.2 ⟨⟨ty, ?_⟩, fun id' hid' => ?_⟩⟩
      · exact (r.deepens_cellAt? id).mono (Nat.le_max_left d d') ty hty
      · obtain ⟨ty', hty'⟩ := hd' id' hid'
        exact ⟨ty', (r.deepens_cellAt? id').mono (Nat.le_max_right d d') ty' hty'⟩
  refine hfound.imp fun d hd id hid ty hty => ?_
  obtain ⟨ty', hty'⟩ := hd id hid
  rw [hty', hty.unique (hm.cellType hty')]

theorem Resolutions.Site.typeAt? (he : e.Scoped r owner arity visible)
    (h : HasType r e ty) : ∃ d, e.typeAt? r d = some ty := by
  obtain ⟨d, hd⟩ := hsite.exists_depth hm
  exact ⟨d, e.type?_of_hasType hd he h⟩

theorem Resolutions.Site.cellAt?
    (hid : Query.CellScoped r owner arity visible id) (h : CellType r id ty) (hvoid : ty ≠ .void) :
    ∃ d, r.cellAt? d id = some ty := by
  obtain ⟨d, hd⟩ := hsite.exists_depth hm
  obtain ⟨tag, ident, type, value, hid, hvalue⟩ := hid
  have hstorable : ty.isStorable = true := by
    have hknown := h.proper.known
    cases ty with
    | void => exact absurd rfl hvoid
    | unknown => exact hknown.elim
    | _ => rfl
  refine ⟨d + 1, ?_⟩
  rw [Resolutions.cellAt?, hid]
  cases h with
  | stated hid' ht =>
    cases hid.symm.trans hid'
    simp [Stmt.cellType?, ht, Ty.ofCell?, hstorable]
  | both hid' ht he hfits =>
    cases hid.symm.trans hid'
    have he := Expr.type?_of_hasType hd _ hvalue he
    simp [Stmt.cellType?, ht, he, Ty.ofCell?, hfits.assignable, hstorable]
  | inferred hid' he =>
    cases hid.symm.trans hid'
    have he := Expr.type?_of_hasType hd _ hvalue he
    simp [Stmt.cellType?, he, Ty.ofCell?, hstorable]

end

/-- Answers that are found anew are given by the typing judgement. -/
theorem Answers.Consistent.sound {m : Module} {r : Resolutions} {a : Answers} (hm : m.Resolved r)
    (ha : a.Consistent m r []) : a.Sound m r where
  written := ha.written
  functions := ha.functions
  cells h hne := by
    obtain ⟨d, hd⟩ := ha.cells h hne
    refine ⟨hm.cellType hd, ?_⟩
    rintro rfl
    cases Query.isStorable_of_cellAt? hd
  exprs e he ty h := by
    obtain ⟨d, hd⟩ := ha.exprs e (List.mem_append_left _ he) h
    obtain ⟨s, hs, he⟩ := List.mem_flatMap.1 he
    obtain ⟨e', he', he⟩ := List.mem_flatMap.1 he
    refine e.hasType_of_type? (fun _ _ => hm.cellType) (fun e'' he'' => ?_) hd
    exact hm.isError_eq_false hs he' e'' (e'.all_subset_all he he'')

/-! ## Questions -/

namespace Query

/-- With consistent answers, a question is answered in such a way that `good` holds, or it fails
because of types, and then what it `needs` does not hold. -/
def Meets {α : Type} (m : Module) (r : Resolutions) (x : Query α) (needs : Prop)
    (good : α → Answers → Prop) : Prop :=
  ∀ a : Answers, a.Consistent m r [] →
    Leaves x a (fun v a' => a'.Consistent m r [] ∧ a.Grows a' ∧ good v a')
      fun failure a' => a'.Consistent m r [] ∧ failure.IsType ∧ ¬needs

section

variable {m : Module} {r : Resolutions} {α β : Type}

namespace Meets

variable {x : Query α} {k : α → Query β} {needs : Prop}

theorem pure {v : α} {good : α → Answers → Prop} (h : ∀ a, good v a) :
    Meets m r (Pure.pure v) needs good :=
  fun a ha => Leaves.pure ⟨ha, .refl a, h a⟩

theorem throw {failure : Failure} {good : α → Answers → Prop} (hfails : failure.IsType) (h : ¬needs) :
    Meets m r (MonadExcept.throw failure) needs good :=
  fun _ ha => Leaves.throw ⟨ha, hfails, h⟩

theorem fail {good : α → Answers → Prop} (h : ¬needs) :
    Meets m r (Query.fail problem line) needs good :=
  throw (TypeProblem.isType_onLine problem line) h

theorem fail_bind {good : β → Answers → Prop} (h : ¬needs) :
    Meets m r (Query.fail problem line >>= k) needs good :=
  fun _ ha => Leaves.bind (Leaves.throw ⟨ha, TypeProblem.isType_onLine problem line, h⟩)

theorem needing {needs' : Prop} {good : α → Answers → Prop} (hx : Meets m r x needs good)
    (h : needs' → needs) : Meets m r x needs' good :=
  fun a ha => (hx a ha).mono (fun _ _ hok => hok)
    fun _ _ ⟨ha', hfails, hn⟩ => ⟨ha', hfails, fun h' => hn (h h')⟩

/-- Questions one after another. What is known after the first one stays known. -/
theorem bind {mid : α → Answers → Prop} {good : β → Answers → Prop} (hx : Meets m r x needs mid)
    (hk : ∀ v a, mid v a → Meets m r (k v) needs fun w a' => a.Grows a' → good w a') :
    Meets m r (x >>= k) needs good := by
  refine fun a ha => Leaves.bind ((hx a ha).mono ?_ fun _ _ h => h)
  rintro v a' ⟨ha', hg, hv⟩
  refine (hk v a' hv a' ha').mono ?_ fun _ _ h => h
  rintro w a'' ⟨ha'', hg', hw⟩
  exact ⟨ha'', hg.trans hg', hw hg'⟩

theorem mono {good good' : α → Answers → Prop} (h : Meets m r x needs good)
    (hgood : ∀ v a, good v a → good' v a) : Meets m r x needs good' :=
  fun a ha => (h a ha).mono (fun v a' hok => ⟨hok.1, hok.2.1, hgood v a' hok.2.2⟩) fun _ _ h => h

theorem keeping {good kept : α → Answers → Prop} (h : Meets m r x needs good)
    (hkept : ∀ a, Ensures x a kept fun _ => True) :
    Meets m r x needs fun v a => good v a ∧ kept v a := by
  intro a ha
  have hmeets := h a ha
  have hkeeps := hkept a
  simp only [Leaves, Ensures] at hmeets hkeeps ⊢
  cases hx : x a with
  | ok v a' =>
    rw [hx] at hmeets hkeeps
    exact ⟨hmeets.1, hmeets.2.1, hmeets.2.2, hkeeps⟩
  | error failure a' =>
    rw [hx] at hmeets
    exact hmeets

end Meets

theorem Finds.meets {x : Query α} {t : Nat → Option α} {sane needs : Prop} {good : α → Prop}
    (h : Finds m r [] sane x t) (hsane : sane) (hneeds : needs → ∃ d v, t d = some v)
    (hgood : ∀ d v, t d = some v → good v) : Meets m r x needs fun v _ => good v := by
  refine fun a ha => (h.leaves (fun _ hp => nomatch hp) a ha).mono ?_ ?_
  · rintro v a' ⟨ha', hg, d, hv⟩
    exact ⟨ha', hg, hgood d v hv⟩
  · rintro failure a' ⟨ha', hnone, hfails⟩
    refine ⟨ha', hfails hsane, fun hn => ?_⟩
    obtain ⟨d, v, hv⟩ := hneeds hn
    cases (hnone d).symm.trans hv

theorem fits_meets {source target : Ty} (hs : source.Known) (ht : target.Known) :
    Meets m r (fits problem line source target) (source.Unifies target)
      fun _ _ => source.Unifies target := by
  unfold fits
  by_cases h : source.assignable target = true
  · rw [if_pos h]
    exact Meets.pure fun _ => Ty.unifies_of_assignable hs ht h
  · rw [if_neg h]
    exact Meets.fail fun hu => h hu.assignable

theorem ofFunction_keeps (r : Resolutions) (id : StmtId) (a : Answers) :
    Ensures (ofFunction r id) a (fun ty a' => a'.functions.find? id = some ty) fun _ => True := by
  refine Ensures.bind (Ensures.get ?_)
  cases hkept : a.functions.find? id with
  | some ty => exact Ensures.pure hkept
  | none =>
    cases r.function? id with
    | none => exact Ensures.throw trivial
    | some decl =>
      refine Ensures.bind_of (Ensures.trivial _ _) fun params a₁ _ => ?_
      refine Ensures.bind_of (Ensures.trivial _ _) fun result a₂ _ => ?_
      exact Ensures.bind (Ensures.modify (Ensures.pure (Table.find?_insert_self _ _ _)))

theorem ofCell_keeps (r : Resolutions) (id : StmtId) (a : Answers) :
    Ensures (ofCell r id) a (fun ty a' => a'.cells.find? id = some ty) fun _ => True := by
  unfold ofCell
  cases hid : r.declarations.find? id with
  | none =>
    simp only [ofCellWithin, hid]
    exact Ensures.throw trivial
  | some s =>
    cases hkept : a.cells.find? id with
    | some ty =>
      simp only [ofCellWithin, hid]
      refine Ensures.bind (Ensures.get ?_)
      simp only [hkept]
      cases ty with
      | unknown => exact Ensures.throw trivial
      | _ => exact Ensures.pure hkept
    | none =>
      cases s with
      | declare tag ident type value =>
        simp only [Ensures, ofCellWithin_of_declare hid _ hkept]
        refine Ensures.bind_of (Ensures.trivial _ _) fun ty a₁ _ => ?_
        exact Ensures.bind (Ensures.modify (Ensures.pure (Table.find?_insert_self _ _ _)))
      | _ =>
        simp only [ofCellWithin, hid]
        refine Ensures.bind (Ensures.get ?_)
        simp only [hkept]
        exact Ensures.throw trivial

variable (hm : m.Resolved r)
include hm

/-- The type of a function is asked for. -/
theorem ofFunction_meets (hid : id ∈ r.functions) :
    Meets m r (ofFunction r id) (∃ ty, r.functionType? id = some ty) fun ty a' =>
      r.functionType? id = some ty ∧ a'.functions.find? id = some ty := by
  obtain ⟨tag, decl, -, hdecl, -⟩ := hm.inScope.function id hid
  have hfinds : Finds m r [] True (ofFunction r id) fun _ => r.functionType? id :=
    ofFunction_finds hm fun _ => ⟨decl, Resolutions.function?_eq_some.2 ⟨tag, hdecl⟩⟩
  exact (hfinds.meets trivial (fun h => ⟨0, h⟩) fun _ _ h => h).keeping (ofFunction_keeps r id)

variable {owner : StmtId} {arity : Nat} {visible : List StmtId} (hsite : r.Site owner arity visible)
include hsite

/-- The type of an expression is asked for where the types of all visible cells are found. -/
theorem ofExpr_meets {s : Stmt} (hs : s ∈ m.statements) (he : e ∈ s.ownExprs)
    (hscoped : e.Scoped r owner arity visible) :
    Meets m r (ofExpr r e) (∃ ty, HasType r e ty) fun ty _ => HasType r e ty := by
  have hall : e.all ⊆ m.exprsWithAttrs :=
    fun _ h => List.mem_append_left _ (Module.all_subset_exprs hs he h)
  refine (ofExpr_finds hm hall).meets ⟨hsite, hscoped⟩ ?_ fun d ty hty => ?_
  · rintro ⟨ty, hty⟩
    obtain ⟨d, hd⟩ := hsite.typeAt? hm hscoped hty
    exact ⟨d, ty, hd⟩
  · exact e.hasType_of_type? (fun _ _ => hm.cellType) (hm.isError_eq_false hs he) hty

/-- The type of a storage cell is asked for where the types of all visible cells are found. -/
theorem ofCell_meets (hid : CellScoped r owner arity visible id) :
    Meets m r (ofCell r id) (∃ ty, CellType r id ty ∧ ty ≠ .void) fun ty a' =>
      (CellType r id ty ∧ ty ≠ .void ∧ ty ≠ .unknown) ∧ a'.cells.find? id = some ty := by
  refine ((ofCell_finds hm id).meets ⟨hsite, hid⟩ ?_ fun d ty hty => ?_).keeping (ofCell_keeps r id)
  · rintro ⟨ty, hty, hvoid⟩
    obtain ⟨d, hd⟩ := hsite.cellAt? hm hid hty hvoid
    exact ⟨d, ty, hd⟩
  · have hstorable := isStorable_of_cellAt? hty
    refine ⟨hm.cellType hty, ?_, ne_unknown_of_isStorable hstorable⟩
    rintro rfl
    cases hstorable

end

end Query

end WordLang
