import WordLang.Proofs.Typing.Answers
import WordLang.Typing.Check

/-!
# The check accepts the well typed programs

A program passes the check exactly if it is well typed: every statement of every function is, and
every function is defined either by its body or as a foreign function that foreign code can pass
its arguments to. The check never meets a violated invariant; it fails because of types only.

## Main definitions

* `FnDecl.Linked`: functions that are defined in one way
* `Stmt.Checked`, `Resolutions.FunctionChecked`, `Resolutions.AllChecked`: statements, functions and
  programs that passed the check

## Main results

* `Query.checkProgram_meets`: what a program that passes the check satisfies, and one that does not
  pass it does not
-/

namespace WordLang

variable {r : Resolutions} {result : Ty} {s : Stmt} {decl : FnDecl} {failure : Failure}
  {a : Answers}

/-! ## Linkage -/

/-- A function is defined by its body or stands for a foreign function, and foreign code can pass
its arguments. -/
structure FnDecl.Linked (decl : FnDecl) (linkage : Linkage) : Prop where
  stated : decl.linkage = .ok linkage
  body : decl.body.isSome = true ↔ linkage.foreign = none
  /-- What foreign code calls or defines has few parameters. -/
  arity : linkage.foreign.isSome = true ∨ linkage.exported.isSome = true →
    decl.params.length ≤ maxForeignParams

theorem FnDecl.linked_iff : (∃ linkage, decl.Linked linkage) ↔
    Attr.AllValid decl.attrs ∧ (decl.body.isSome = true ↔ ¬Attr.Named decl.attrs "c_function") ∧
      (Attr.Named decl.attrs "c_function" ∨ Attr.Named decl.attrs "c_export" →
        decl.params.length ≤ 6) := by
  have hnone : ∀ {linkage : Linkage}, linkage.foreign = none ↔ ¬linkage.foreign.isSome = true :=
    Option.not_isSome_iff_eq_none.symm
  constructor
  · rintro ⟨linkage, hstated, hbody, harity⟩
    rw [hnone, FnDecl.foreign_iff hstated] at hbody
    rw [FnDecl.foreign_iff hstated, FnDecl.exported_iff hstated] at harity
    exact ⟨FnDecl.linkage_ok_iff.1 ⟨linkage, hstated⟩, hbody, harity⟩
  · rintro ⟨hvalid, hbody, harity⟩
    obtain ⟨linkage, hstated⟩ := FnDecl.linkage_ok_iff.2 hvalid
    rw [← FnDecl.foreign_iff hstated, ← hnone] at hbody
    rw [← FnDecl.foreign_iff hstated, ← FnDecl.exported_iff hstated] at harity
    exact ⟨linkage, hstated, hbody, harity⟩

theorem AttrProblem.isType_onLine (problem : AttrProblem) (line : Nat) :
    (problem.onLine line).IsType := ⟨_, rfl⟩

theorem Attr.isType_of_text {attr : Attr} (h : attr.text = .error failure) : failure.IsType := by
  simp only [Attr.text] at h
  split at h <;> cases h
  all_goals exact AttrProblem.isType_onLine _ _

theorem Linkage.isType_of_add {linkage : Linkage} {attr : Attr}
    (h : linkage.add attr = .error failure) : failure.IsType := by
  have htext : ∀ {f : String → Linkage}, (do return f (← attr.text) : Except Failure Linkage) =
      .error failure → failure.IsType := by
    intro f hf
    cases ht : attr.text with
    | error e =>
      rw [ht] at hf
      cases hf
      exact Attr.isType_of_text ht
    | ok text =>
      rw [ht] at hf
      cases hf
  simp only [Linkage.add] at h
  split at h
  · split at h
    · cases h
      exact AttrProblem.isType_onLine _ _
    · exact htext h
  · split at h
    · split at h
      · cases h
        exact AttrProblem.isType_onLine _ _
      · exact htext h
    · cases h
      exact AttrProblem.isType_onLine _ _

theorem Linkage.isType_of_addAll {linkage : Linkage} {attrs : List Attr}
    (h : linkage.addAll attrs = .error failure) : failure.IsType := by
  induction attrs generalizing linkage with
  | nil => cases h
  | cons attr rest ih =>
    cases hadd : linkage.add attr with
    | error e =>
      simp only [Linkage.addAll, hadd] at h
      cases h
      exact Linkage.isType_of_add hadd
    | ok linkage' =>
      simp only [Linkage.addAll, hadd] at h
      exact ih h

/-! ## Statements -/

/-- A statement is well typed, and the types of the cells that it declares are known. -/
def Stmt.Checked (r : Resolutions) (result : Ty) (a : Answers) (s : Stmt) : Prop :=
  s.Typed r result ∧ ∀ id ∈ s.introduces, a.Knows id

theorem Stmt.Checked.mono {a a' : Answers}
    (h : s.Checked r result a) (hg : a.Grows a') : s.Checked r result a' :=
  ⟨h.1, fun id hid => (h.2 id hid).mono hg⟩

structure Resolutions.FunctionChecked (r : Resolutions) (a : Answers) (id : StmtId) (decl : FnDecl)
    (params : List Ty) (result : Ty) : Prop where
  linked : ∃ linkage, decl.Linked linkage
  type : r.functionType? id = some (.function id params result)
  known : a.functions.find? id = some (.function id params result)
  noVoid : ∀ ty ∈ params, ty ≠ .void
  body : ∀ b, decl.body = some b → ∀ s ∈ Stmt.ownOfBlock b, s.Checked r result a

theorem Resolutions.FunctionChecked.mono {a a' : Answers} {id : StmtId}
    {params : List Ty} (h : r.FunctionChecked a id decl params result)
    (hg : a.Grows a') : r.FunctionChecked a' id decl params result where
  linked := h.linked
  type := h.type
  known := hg.functions h.known
  noVoid := h.noVoid
  body := fun b hb s hs => (h.body b hb s hs).mono hg

theorem Resolutions.FunctionChecked.wellTyped {id : StmtId}
    {params : List Ty} (hdecl : r.function? id = some decl)
    (h : r.FunctionChecked a id decl params result) : decl.WellTyped r := by
  obtain ⟨hvalid, hdefined, harity⟩ := FnDecl.linked_iff.1 h.linked
  obtain ⟨decl', params', result', hdecl', hparams, hresult, heq⟩ :=
    Resolutions.functionType?_eq_some.1 h.type
  cases heq
  obtain rfl : decl = decl' := Option.some.inj (hdecl.symm.trans hdecl')
  exact ⟨hvalid, hdefined, harity, Param.meanings?_iff.1 ⟨params, hparams, h.noVoid⟩, result, hresult,
    fun b hb s hs => (h.body b hb s hs).1⟩

def Resolutions.AllChecked (r : Resolutions) (a : Answers) : Prop :=
  ∀ id ∈ r.functions, ∃ tag decl params result,
    r.declarations.find? id = some (.function tag decl) ∧
      r.FunctionChecked a id decl params result

theorem Resolutions.Site.after {m : Module} (hm : m.Resolved r) {owner : StmtId}
    {arity : Nat} {visible loops : List StmtId}
    (hsite : r.Site owner arity visible) (hscoped : s.Scoped r owner arity visible loops)
    (htyped : s.Typed r result) : r.Site owner arity (s.introduces ++ visible) := by
  refine ⟨hsite.owner, List.forall_mem_append.2 ⟨fun id hid => ?_, hsite.visible⟩⟩
  cases s with
  | declare tag ident type value =>
    obtain ⟨ty, hty, hvoid⟩ := htyped
    rw [List.mem_singleton.1 hid]
    obtain ⟨d, hd⟩ := hsite.cellAt? hm ⟨tag, ident, type, value, hscoped.2, hscoped.1⟩ hty hvoid
    exact ⟨d, ty, hd⟩
  | _ => cases hid

namespace Query

variable {m : Module} {r : Resolutions} {owner : StmtId} {arity : Nat}

section

variable {visible : List StmtId} {s : Stmt} {e : Expr}

theorem checkCondition_meets (hm : m.Resolved r) (hsite : r.Site owner arity visible)
    (hs : s ∈ m.statements) (he : e ∈ s.ownExprs) (hscoped : e.Scoped r owner arity visible) :
    Meets m r (checkCondition r e) (HasType r e .int) fun _ _ => HasType r e .int := by
  refine Meets.bind ((ofExpr_meets hm hsite hs he hscoped).needing fun h => ⟨_, h⟩) fun ty _ hty => ?_
  refine ((fits_meets hty.proper.known Ty.known_int).needing hty.unifies_int).mono fun _ _ hfit _ => ?_
  rwa [hfit.eq_int] at hty

/-- What is assigned to is a parameter or a storage cell. -/
theorem ofSubject_meets (hm : m.Resolved r) (hsite : r.Site owner arity visible)
    (hs : s ∈ m.statements) (he : e ∈ s.ownExprs) (hscoped : e.Scoped r owner arity visible) :
    Meets m r (ofSubject r e) (∃ tag ident b ty, e = .name tag ident ∧
        r.bindings.find? tag.id = some b ∧ b.isFunction = false ∧ HasType r e ty)
      fun ty _ => ∃ tag ident b, e = .name tag ident ∧ r.bindings.find? tag.id = some b ∧
        b.isFunction = false ∧ HasType r e ty := by
  cases e with
  | name tag ident =>
    have hask := ofExpr_meets hm hsite hs he hscoped
    obtain ⟨b, hb, -⟩ := hscoped
    have hneeds : (∃ tag' ident' b ty, Expr.name tag ident = .name tag' ident' ∧
        r.bindings.find? tag'.id = some b ∧ b.isFunction = false ∧
        HasType r (.name tag ident) ty) → ∃ ty, HasType r (.name tag ident) ty :=
      fun ⟨_, _, _, ty, _, _, _, hty⟩ => ⟨ty, hty⟩
    simp only [ofSubject, hb]
    cases b with
    | function d =>
      refine Meets.fail ?_
      rintro ⟨tag', ident', b', ty, hname, hb', hfun, -⟩
      cases hname
      cases hb.symm.trans hb'
      cases hfun
    | parameter d index =>
      exact (hask.needing hneeds).mono fun ty _ hty => ⟨tag, ident, _, rfl, hb, rfl, hty⟩
    | «local» d =>
      exact (hask.needing hneeds).mono fun ty _ hty => ⟨tag, ident, _, rfl, hb, rfl, hty⟩
  | _ =>
    refine Meets.fail ?_
    rintro ⟨tag', ident', b', ty, hname, -⟩
    cases hname

end

section

variable {result : Ty}

theorem checked_own (hown : s.own = [s]) (hnone : s.introduces = [])
    (h : s.Typed r result) : ∀ s' ∈ s.own, s'.Checked r result a := by
  rw [hown, List.forall_mem_singleton]
  refine ⟨h, fun id hid => ?_⟩
  rw [hnone] at hid
  cases hid

mutual

theorem checkStatement_meets (hm : m.Resolved r) (hresult : result.Plain) :
    ∀ (s : Stmt) {visible loops : List StmtId}, s.all ⊆ m.statements →
      s.Scoped r owner arity visible loops → r.Site owner arity visible →
      Meets m r (checkStatement r result s) (∀ s' ∈ s.own, s'.Typed r result)
        fun _ a => ∀ s' ∈ s.own, s'.Checked r result a
  | .error tag, _, _, hs, _, _ => nomatch hm.clean.stmts _ (hs (Stmt.mem_all _))
  | .function tag d, _, _, _, _, _ => Meets.pure fun _ => checked_own rfl rfl trivial
  | .break tag, _, _, _, _, _ => Meets.pure fun _ => checked_own rfl rfl trivial
  | .declare tag ident type value, visible, loops, hs, hscoped, hsite => by
    refine Meets.bind ((ofCell_meets hm hsite ⟨tag, ident, type, value, hscoped.2, hscoped.1⟩).needing
      fun h => h _ (Stmt.mem_own _)) ?_
    rintro ty a ⟨⟨hty, hvoid, hne⟩, hfound⟩
    refine Meets.pure fun a' hg => ?_
    simp only [Stmt.own, List.mem_singleton, forall_eq, Stmt.Checked, Stmt.Typed, Stmt.introduces]
    exact ⟨⟨ty, hty, hvoid⟩, ty, hg.cells hne hfound, hne⟩
  | .loop tag body, visible, loops, hs, hscoped, hsite =>
    ((checkBlock_meets hm hresult body (fun _ h => hs (List.mem_cons_of_mem _ h)) hscoped
      hsite).needing fun h s' hs' => h s' (List.mem_cons_of_mem _ hs')).mono
      fun _ _ hbody => List.forall_mem_cons.2 ⟨⟨trivial, fun _ h => nomatch h⟩, hbody⟩
  | .while tag condition body, visible, loops, hs, hscoped, hsite => by
    refine Meets.bind ((checkCondition_meets hm hsite (hs (Stmt.mem_all _)) List.mem_cons_self
      hscoped.1).needing fun h => h _ (Stmt.mem_own _)) fun _ a hcond => ?_
    exact ((checkBlock_meets hm hresult body (fun _ h => hs (List.mem_cons_of_mem _ h)) hscoped.2
      hsite).needing fun h s' hs' => h s' (List.mem_cons_of_mem _ hs')).mono
      fun _ _ hbody _ => List.forall_mem_cons.2 ⟨⟨hcond, fun _ h => nomatch h⟩, hbody⟩
  | .choose tag condition truthy falsy, visible, loops, hs, hscoped, hsite => by
    have hsub : Stmt.allOfBlock truthy ⊆ m.statements ∧ Stmt.allOfOption falsy ⊆ m.statements :=
      List.append_subset.1 fun _ h => hs (List.mem_cons_of_mem _ h)
    obtain ⟨hcondition, htruthy, hfalsy⟩ := hscoped
    refine Meets.bind ((checkCondition_meets hm hsite (hs (Stmt.mem_all _)) List.mem_cons_self
      hcondition).needing fun h => h _ (Stmt.mem_own _)) fun _ _ hcond => ?_
    refine Meets.bind ((checkBlock_meets hm hresult truthy hsub.1 htruthy hsite).needing
      fun h s' hs' => h s' (List.mem_cons_of_mem _ (List.mem_append_left _ hs')))
      fun _ _ hbody => ?_
    refine ((checkOptionalBlock_meets hm hresult falsy hsub.2 hfalsy hsite).needing
      fun h s' hs' => h s' (List.mem_cons_of_mem _ (List.mem_append_right _ hs'))).mono
      fun _ _ hbody' hg _ => ?_
    -- What is known after the first block is still known after the second.
    exact List.forall_mem_cons.2 ⟨⟨hcond, fun _ h => nomatch h⟩,
      List.forall_mem_append.2 ⟨fun s' hs' => (hbody s' hs').mono hg, hbody'⟩⟩
  | .return tag none, _, _, _, _, _ => by
    cases result with
    | void => exact Meets.pure fun _ => checked_own rfl rfl rfl
    | error => exact hresult.elim
    | _ => exact Meets.fail fun h => by cases h _ (Stmt.mem_own _)
  | .return tag (some value), visible, loops, hs, hscoped, hsite => by
    have hneeds : (∀ s' ∈ Stmt.own (.return tag (some value)), s'.Typed r result) →
        ∃ ty, HasType r value ty ∧ ty.Unifies result := fun h => h _ (Stmt.mem_own _)
    refine Meets.bind ((ofExpr_meets hm hsite (hs (Stmt.mem_all _)) List.mem_cons_self
      hscoped).needing fun h => (hneeds h).imp fun _ h => h.1) fun ty _ hty => ?_
    refine ((fits_meets hty.proper.known hresult.known).needing fun h => ?_).mono
      fun _ _ hfit _ => checked_own rfl rfl ⟨ty, hty, hfit⟩
    -- The value has no other type than the one that was found.
    obtain ⟨ty', hty', hfit⟩ := hneeds h
    rwa [hty.unique hty']
  | .assign tag subject value, visible, loops, hs, hscoped, hsite => by
    have hneeds : (∀ s' ∈ Stmt.own (.assign tag subject value), s'.Typed r result) →
        ∃ tag ident b target ty, subject = .name tag ident ∧ r.bindings.find? tag.id = some b ∧
          b.isFunction = false ∧ HasType r subject target ∧ HasType r value ty ∧
          ty.Unifies target := fun h => h _ (Stmt.mem_own _)
    refine Meets.bind ((ofSubject_meets hm hsite (hs (Stmt.mem_all _)) List.mem_cons_self
      hscoped.2).needing fun h => ?_) ?_
    · obtain ⟨tag', ident, b, target, -, hname, hb, hfun, htarget, -⟩ := hneeds h
      exact ⟨tag', ident, b, target, hname, hb, hfun, htarget⟩
    rintro target _ ⟨tag', ident, b, hname, hb, hfun, htarget⟩
    refine Meets.bind ((ofExpr_meets hm hsite (hs (Stmt.mem_all _)) (by simp [Stmt.ownExprs])
      hscoped.1).needing fun h => ?_) fun ty _ hty => ?_
    · obtain ⟨-, -, -, -, ty, -, -, -, -, hty, -⟩ := hneeds h
      exact ⟨ty, hty⟩
    refine ((fits_meets hty.proper.known htarget.proper.known).needing fun h => ?_).mono
      fun _ _ hfit _ _ => checked_own rfl rfl
        ⟨tag', ident, b, target, ty, hname, hb, hfun, htarget, hty, hfit⟩
    obtain ⟨-, -, -, target', ty', -, -, -, htarget', hty', hfit⟩ := hneeds h
    rwa [hty.unique hty', htarget.unique htarget']
  | .eval tag e, visible, loops, hs, hscoped, hsite => by
    refine Meets.bind ((ofExpr_meets hm hsite (hs (Stmt.mem_all _)) List.mem_cons_self
      hscoped).needing fun h => h _ (Stmt.mem_own _)) fun ty _ hty => ?_
    exact Meets.pure fun _ _ => checked_own rfl rfl ⟨ty, hty⟩

theorem checkBlock_meets (hm : m.Resolved r) (hresult : result.Plain) :
    ∀ (b : Block) {visible loops : List StmtId}, Stmt.allOfBlock b ⊆ m.statements →
      b.Scoped r owner arity visible loops → r.Site owner arity visible →
      Meets m r (checkBlock r result b) (∀ s' ∈ Stmt.ownOfBlock b, s'.Typed r result)
        fun _ a => ∀ s' ∈ Stmt.ownOfBlock b, s'.Checked r result a
  | ⟨_, list⟩, _, _, hs, hscoped, hsite => checkStatements_meets hm hresult list hs hscoped.1 hsite

theorem checkOptionalBlock_meets (hm : m.Resolved r) (hresult : result.Plain) :
    ∀ (b : Option Block) {visible loops : List StmtId}, Stmt.allOfOption b ⊆ m.statements →
      Block.OptionScoped r owner arity visible loops b → r.Site owner arity visible →
      Meets m r (checkOptionalBlock r result b) (∀ s' ∈ Stmt.ownOfOption b, s'.Typed r result)
        fun _ a => ∀ s' ∈ Stmt.ownOfOption b, s'.Checked r result a
  | none, _, _, _, _, _ => Meets.pure fun _ _ h => nomatch h
  | some b, _, _, hs, hscoped, hsite => checkBlock_meets hm hresult b hs hscoped hsite

theorem checkStatements_meets (hm : m.Resolved r) (hresult : result.Plain) :
    ∀ (list : List Stmt) {visible loops : List StmtId}, Stmt.allOfList list ⊆ m.statements →
      Stmt.AllScoped r owner arity visible loops list → r.Site owner arity visible →
      Meets m r (checkStatements r result list) (∀ s' ∈ Stmt.ownOfList list, s'.Typed r result)
        fun _ a => ∀ s' ∈ Stmt.ownOfList list, s'.Checked r result a
  | [], _, _, _, _, _ => Meets.pure fun _ _ h => nomatch h
  | s :: rest, visible, loops, hs, hscoped, hsite => by
    have hsub : s.all ⊆ m.statements ∧ Stmt.allOfList rest ⊆ m.statements := List.append_subset.1 hs
    refine Meets.bind ((checkStatement_meets hm hresult s hsub.1 hscoped.1 hsite).needing
      fun h s' hs' => h s' (List.mem_append_left _ hs')) fun _ _ hfirst => ?_
    have hsite' := hsite.after hm hscoped.1 (hfirst s s.mem_own).1
    exact ((checkStatements_meets hm hresult rest hsub.2 hscoped.2 hsite').needing
      fun h s' hs' => h s' (List.mem_append_right _ hs')).mono fun _ _ hrest hg =>
        List.forall_mem_append.2 ⟨fun s' hs' => (hfirst s' hs').mono hg, hrest⟩

end

end

/-! ## Functions -/

theorem checkParams_meets (params : List Param) (types : List Ty)
    (hlen : types.length = params.length) :
    Meets m r (checkParams params types) (∀ ty ∈ types, ty ≠ .void)
      fun _ _ => ∀ ty ∈ types, ty ≠ .void := by
  induction params generalizing types with
  | nil =>
    rw [List.length_nil, List.length_eq_zero_iff] at hlen
    rw [hlen]
    exact Meets.pure (by simp)
  | cons param rest ih =>
    cases types with
    | nil => cases hlen
    | cons ty types =>
      simp only [checkParams]
      by_cases hvoid : ty.same .void = true
      · rw [if_pos hvoid]
        refine Meets.fail_bind fun h => h ty List.mem_cons_self ?_
        cases ty with
        | void => rfl
        | _ => cases hvoid
      · rw [if_neg hvoid]
        refine ((ih types (Nat.succ.inj hlen)).needing
          fun h ty' hty' => h ty' (List.mem_cons_of_mem ty hty')).mono fun _ _ h => ?_
        refine List.forall_mem_cons.2 ⟨?_, h⟩
        rintro rfl
        exact hvoid rfl

theorem checkLinkage_meets (tag : Tag) (decl : FnDecl) :
    Meets m r (checkLinkage tag decl) (∃ linkage, decl.Linked linkage)
      fun _ _ => ∃ linkage, decl.Linked linkage := by
  simp only [checkLinkage]
  cases hl : decl.linkage with
  | error failure =>
    refine Meets.throw (Linkage.isType_of_addAll hl) ?_
    rintro ⟨linkage, hlinked⟩
    cases hl.symm.trans hlinked.stated
  | ok linkage =>
    -- Whatever linkage is asked for, it is this one.
    have hneeds : (∃ linkage, decl.Linked linkage) → decl.Linked linkage := by
      rintro ⟨linkage', hlinked⟩
      cases hl.symm.trans hlinked.stated
      exact hlinked
    have hfew : (decl.body.isSome = true ↔ linkage.foreign = none) → Meets m r (do
        if (linkage.foreign.isSome || linkage.exported.isSome) &&
            decl.params.length > maxForeignParams then
          fail (.tooManyParameters linkage.foreign.isSome) tag.line)
        (∃ linkage, decl.Linked linkage) fun _ _ => ∃ linkage, decl.Linked linkage := by
      intro hbody
      have hor : (linkage.foreign.isSome || linkage.exported.isSome) = true ↔
          linkage.foreign.isSome = true ∨ linkage.exported.isSome = true := Bool.or_eq_true _ _ ▸ .rfl
      split
      · next hmany =>
        rw [Bool.and_eq_true, hor, decide_eq_true_eq] at hmany
        exact Meets.fail fun h => absurd ((hneeds h).arity hmany.1) (Nat.not_le.2 hmany.2)
      · next hmany =>
        rw [Bool.and_eq_true, hor, decide_eq_true_eq, not_and, Nat.not_lt] at hmany
        exact Meets.pure fun _ => ⟨linkage, hl, hbody, hmany⟩
    obtain ⟨foreign, exported⟩ := linkage
    cases hb : decl.body with
    | none =>
      cases foreign with
      | none =>
        refine Meets.fail_bind fun h => ?_
        have hsome := (hneeds h).body.2 rfl
        rw [hb] at hsome
        cases hsome
      | some symbol => exact hfew (by simp [hb])
    | some b =>
      cases foreign with
      | none => exact hfew (by simp [hb])
      | some symbol =>
        refine Meets.fail_bind fun h => ?_
        have hnone := (hneeds h).body.1 (by simp [hb])
        cases hnone

theorem checkFunction_meets (hm : m.Resolved r) {tag : Tag}
    (htag : tag.id ∈ r.functions) (hdecl : r.declarations.find? tag.id = some (.function tag decl)) :
    Meets m r (checkFunction r tag decl) (decl.WellTyped r) fun _ a =>
      ∃ params result, r.FunctionChecked a tag.id decl params result := by
  have hfun : r.function? tag.id = some decl := Resolutions.function?_eq_some.2 ⟨tag, hdecl⟩
  refine Meets.bind ((checkLinkage_meets tag decl).needing
    fun h => FnDecl.linked_iff.2 ⟨h.attributes, h.defined, h.arity⟩) fun _ _ hlinked => ?_
  refine Meets.bind ((ofFunction_meets hm htag).needing fun h => ?_) ?_
  · obtain ⟨params, hparams, -⟩ := Param.meanings?_iff.2 h.params
    obtain ⟨result, hresult, -⟩ := h.result
    exact ⟨_, Resolutions.functionType?_eq_some.2 ⟨decl, params, result, hfun, hparams, hresult, rfl⟩⟩
  rintro ty a₂ ⟨htype, hknown⟩
  obtain ⟨decl', params, result, hdecl', hparams, hresult, rfl⟩ :=
    Resolutions.functionType?_eq_some.1 htype
  obtain rfl : decl = decl' := Option.some.inj (hfun.symm.trans hdecl')
  refine Meets.bind ((checkParams_meets decl.params params
    (Param.plain_of_meanings? hparams).1).needing fun h => ?_) fun _ a₃ hnovoid => ?_
  · obtain ⟨params', hparams', hvoid⟩ := Param.meanings?_iff.2 h.params
    rwa [Option.some.inj (hparams.symm.trans hparams')]
  have hbody : Stmt.allOfOption decl.body ⊆ m.statements := by
    intro s hs
    rw [← Stmt.allOfBody_eq] at hs
    exact (Stmt.sublist_allOfList m.items (hm.inScope.declared hdecl).1).subset
      (List.mem_cons_of_mem _ hs)
  have hscoped : Block.OptionScoped r tag.id decl.params.length [] [] decl.body := by
    cases hb : decl.body with
    | none => trivial
    | some b => exact hm.inScope.scoped_body hfun hb
  have hsite : r.Site tag.id decl.params.length [] := ⟨⟨decl, hfun, rfl⟩, fun _ h => nomatch h⟩
  refine ((checkOptionalBlock_meets hm (TypeExpr.plain_of_meaning? hresult) decl.body hbody hscoped
    hsite).needing fun h => ?_).mono fun _ a₄ hchecked hg₄ hg₃ _ => ?_
  · obtain ⟨result', hresult', htyped⟩ := h.result
    rw [Option.some.inj (hresult.symm.trans hresult')]
    cases hb : decl.body with
    | none => exact fun s hs => by cases hs
    | some b => exact htyped b hb
  refine ⟨params, result, hlinked, htype, hg₃.functions hknown, hnovoid, ?_⟩
  intro b hb
  rw [hb] at hchecked
  exact hchecked

theorem checkFunctions_meets (hm : m.Resolved r) (ids : List StmtId) (hids : ids ⊆ r.functions) :
    Meets m r (checkFunctions r ids)
      (∀ id ∈ ids, ∀ decl, r.function? id = some decl → decl.WellTyped r)
      fun _ a => ∀ id ∈ ids, ∃ tag decl params result,
        r.declarations.find? id = some (.function tag decl) ∧
          r.FunctionChecked a id decl params result := by
  induction ids with
  | nil => exact Meets.pure (by simp)
  | cons id rest ih =>
    obtain ⟨hid, hrest⟩ := List.cons_subset.1 hids
    obtain ⟨tag, decl, rfl, hdecl, -⟩ := hm.inScope.function id hid
    simp only [checkFunctions, hdecl]
    refine Meets.bind ((checkFunction_meets hm hid hdecl).needing fun h =>
      h tag.id List.mem_cons_self decl (Resolutions.function?_eq_some.2 ⟨tag, hdecl⟩)) ?_
    rintro _ _ ⟨params, result, hchecked⟩
    exact ((ih hrest).needing fun h id hid => h id (List.mem_cons_of_mem _ hid)).mono fun _ _ hall hg =>
      List.forall_mem_cons.2 ⟨⟨tag, decl, params, result, hdecl, hchecked.mono hg⟩, hall⟩

theorem checkItems_meets (items : List Stmt) :
    Meets m r (checkItems items) (∀ s ∈ items, ∃ tag decl, s = .function tag decl)
      fun _ _ => ∀ s ∈ items, ∃ tag decl, s = .function tag decl := by
  induction items with
  | nil => exact Meets.pure (by simp)
  | cons s rest ih =>
    cases s with
    | function tag decl =>
      exact (ih.needing fun h s' hs' => h s' (List.mem_cons_of_mem _ hs')).mono
        fun _ _ h => List.forall_mem_cons.2 ⟨⟨tag, decl, rfl⟩, h⟩
    | _ =>
      refine Meets.fail fun h => ?_
      obtain ⟨tag, decl, heq⟩ := h _ List.mem_cons_self
      cases heq

theorem checkProgram_meets (hm : m.Resolved r) :
    Meets m r (checkProgram r m) (m.WellTyped r) fun _ a =>
      (∀ s ∈ m.items, ∃ tag decl, s = .function tag decl) ∧ r.AllChecked a := by
  refine Meets.bind ((checkItems_meets m.items).needing fun h => h.items) fun _ _ hitems => ?_
  refine ((checkFunctions_meets hm r.functions (List.Subset.refl _)).needing
    fun h id _ decl hdecl => ?_).mono fun _ _ hfunctions _ => ⟨hitems, hfunctions⟩
  obtain ⟨tag, hfind⟩ := Resolutions.function?_eq_some.1 hdecl
  exact h.functions tag decl (hm.inScope.declared hfind).1

end Query

theorem Module.Clean.wellTyped {m : Module} (hm : m.Clean)
    (hr : r.Scoped m) (hitems : ∀ s ∈ m.items, ∃ tag decl, s = .function tag decl)
    (hchecked : r.AllChecked a) : m.WellTyped r := by
  refine ⟨hitems, fun tag decl hmem => ?_⟩
  -- The items are functions, so the functions within them are those of scoped bodies.
  have hscoped : ∀ list ⊆ m.items, Stmt.AllScoped r 0 0 [] [] list := by
    intro list hlist
    induction list with
    | nil => trivial
    | cons s rest ih =>
      obtain ⟨hs, hrest⟩ := List.cons_subset.1 hlist
      obtain ⟨tag, decl, rfl⟩ := hitems s hs
      exact ⟨trivial, ih hrest⟩
  have hids := hm.stmtIds
  have hlisted := hr.listed_allOfList hids m.items (List.Subset.refl _)
    (hscoped _ (List.Subset.refl _)) (fun _ _ h => hr.items h) tag decl hmem
  have hfind := hr.find?_of_listed hids hmem hlisted
  obtain ⟨tag', decl', params, result, hfind', hfunction⟩ := hchecked tag.id hlisted
  cases hfind.symm.trans hfind'
  exact hfunction.wellTyped (Resolutions.function?_eq_some.2 ⟨tag, hfind⟩)

end WordLang
