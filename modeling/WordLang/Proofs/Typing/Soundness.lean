import WordLang.Proofs.Evaluation
import WordLang.Proofs.Typing.Check

/-!
# Evaluation of checked programs makes sense

The evaluation of a program that passed the check never gets stuck: it gives a value of the type it
should have, or fails at an operation, or goes on. A storage cell holds a value of its type from its
declaration on. Before that it holds zero, which fits every type but that of a function; and a cell
with the type of a function cannot be read before its declaration, which gives it a value.

## Main definitions

* `Flow.Value.Fits`: values of a type
* `Evaluation.Safe`: evaluation that does not get stuck
* `Evaluation.Activation.Fits`: activations whose cells hold values of their types

## Main results

* `Evaluation.expression_safe`: the evaluation of an expression
* `Evaluation.function_safe`: the evaluation of a function
-/

namespace WordLang

/-- A value of a type: words are integers, and a function type has one value. -/
def Flow.Value.Fits (value : Flow.Value) : Ty → Prop
  | .int => ∃ word, value = .int word
  | .function decl _ _ => value = .function decl
  | _ => True

theorem Flow.Value.fits_zero {ty : Ty} (h : ty.Plain) : (Flow.Value.int 0).Fits ty := by
  cases ty with
  | int => exact ⟨0, rfl⟩
  | function decl params result => exact h.elim
  | _ => trivial

theorem Flow.Value.Fits.assign {value : Flow.Value} {source target : Ty} (h : value.Fits source)
    (hu : source.Unifies target) : value.Fits target := by
  cases hu with
  | int => exact h
  | function => exact h
  | _ => trivial

namespace Evaluation

open WordLang.Flow (Value)

variable {α β : Type}

/-- Evaluation gives a value that is `good`, or ends because it fails or reaches the bound. -/
def Safe (x : Except Stop α) (good : α → Prop) : Prop :=
  match x with
  | .ok v => good v
  | .error stop => stop ≠ .stuck

theorem Safe.bind {x : Except Stop α} {k : α → Except Stop β} {mid : α → Prop} {good : β → Prop}
    (hx : Safe x mid) (hk : ∀ v, mid v → Safe (k v) good) : Safe (x >>= k) good := by
  cases x with
  | ok v => exact hk v hx
  | error stop => exact hx

theorem Safe.mono {x : Except Stop α} {good good' : α → Prop} (hx : Safe x good)
    (h : ∀ v, good v → good' v) : Safe x good' := by
  cases x with
  | ok v => exact h v hx
  | error stop => exact hx

theorem operator_safe {op : BinaryOp} {lhs rhs : Value} (hl : lhs.Fits .int) (hr : rhs.Fits .int) :
    Safe (operator op lhs rhs) fun v => v.Fits .int := by
  obtain ⟨x, rfl⟩ := hl
  obtain ⟨y, rfl⟩ := hr
  simp only [operator]
  cases op.meaning x y with
  | ok value => exact ⟨value, rfl⟩
  | error fault => exact fun h => nomatch h

/-! ## Activations -/

/-- The cells of an activation of the function `owner` hold values of their types, those that are not
visible yet only if zero is such a value. -/
structure Activation.Fits (r : Resolutions) (owner : StmtId) (visible : List StmtId) (result : Ty)
    (a : Activation) : Prop where
  params : ∀ {params result index ty}, r.functionType? owner = some (.function owner params result) →
    params[index]? = some ty → (a.cells (.parameter owner index)).Fits ty
  cells : ∀ {id ty}, CellType r id ty → id ∈ visible ∨ ty.Plain → (a.cells (.local id)).Fits ty
  result : a.result.Fits result

namespace Activation.Fits

variable {r : Resolutions} {owner : StmtId} {visible visible' : List StmtId} {result : Ty}
  {a : Activation}

theorem mono (h : a.Fits r owner visible result) (hv : visible' ⊆ visible) :
    a.Fits r owner visible' result :=
  ⟨h.params, fun hty hor => h.cells hty (hor.imp_left fun hid => hv hid), h.result⟩

theorem set_local (h : a.Fits r owner visible result) {id : StmtId} {v : Value}
    (hv : ∀ {ty}, CellType r id ty → v.Fits ty) :
    (a.set (.local id) v).Fits r owner (id :: visible) result := by
  refine ⟨fun htype hget => ?_, fun {id' ty} hty hor => ?_, h.result⟩
  · simp only [Activation.set, reduceCtorEq, if_false]
    exact h.params htype hget
  · simp only [Activation.set, Binding.local.injEq]
    split
    · next heq =>
      rw [heq] at hty
      exact hv hty
    · next hne =>
      refine h.cells hty (hor.imp_left fun hid => ?_)
      exact (List.mem_cons.1 hid).resolve_left hne

theorem set_parameter (h : a.Fits r owner visible result) {scope : StmtId} {index : Nat} {v : Value}
    (hv : ∀ {params res ty}, r.functionType? scope = some (.function scope params res) →
      params[index]? = some ty → v.Fits ty) :
    (a.set (.parameter scope index) v).Fits r owner visible result := by
  refine ⟨fun {params res index' ty} htype hget => ?_, fun hty hor => ?_, h.result⟩
  · simp only [Activation.set, Binding.parameter.injEq]
    split
    · next heq =>
      obtain ⟨rfl, rfl⟩ := heq
      exact hv htype hget
    · exact h.params htype hget
  · simp only [Activation.set, reduceCtorEq, if_false]
    exact h.cells hty hor

end Activation.Fits

def CallsFit (r : Resolutions) (call : StmtId → List Value → Except Stop Value) : Prop :=
  ∀ {id params result args}, r.functionType? id = some (.function id params result) →
    List.Forall₂ Value.Fits args params → Safe (call id args) fun v => v.Fits result

/-! ## Expressions -/

section

variable {r : Resolutions} {call : StmtId → List Value → Except Stop Value} {a : Activation}
  {owner : StmtId} {arity : Nat} {visible : List StmtId} {result : Ty}

mutual

/-- The evaluation of an expression gives a value of its type. -/
theorem expression_safe (hcall : CallsFit r call) (ha : a.Fits r owner visible result)
    {e : Expr} {ty : Ty} : HasType r e ty → e.Scoped r owner arity visible →
      Safe (expression r call a e) fun v => v.Fits ty
  | .int, _ => ⟨_, rfl⟩
  | .string, _ => trivial
  | .function hb htype, _ => by
    simp only [expression, hb]
    obtain ⟨_, _, _, _, _, _, rfl⟩ := Resolutions.functionType?_eq_some.1 htype
    rfl
  | .parameter hb htype hget, hscoped => by
    obtain ⟨b, hb', hin⟩ := hscoped
    cases hb.symm.trans hb'
    obtain ⟨rfl, -⟩ := hin
    simp only [expression, hb]
    exact ha.params htype hget
  | .cell hb htype, hscoped => by
    obtain ⟨b, hb', hin⟩ := hscoped
    cases hb.symm.trans hb'
    simp only [expression, hb]
    exact ha.cells htype (.inl hin)
  | .call hcallee hargs, hscoped => by
    refine (expressions_safe hcall ha hargs hscoped.1).bind fun args hfit => ?_
    refine (expression_safe hcall ha hcallee hscoped.2).bind fun v hv => ?_
    obtain rfl : v = _ := hv
    exact hcall hcallee.proper.function hfit
  | @HasType.unary _ _ op _ hoperand, hscoped => by
    cases op with
    | negate =>
      refine (expression_safe hcall ha hoperand hscoped).bind fun v hv => ?_
      exact operator_safe ⟨0, rfl⟩ hv
    | not =>
      refine (expression_safe hcall ha hoperand hscoped).bind fun v hv => ?_
      exact operator_safe hv ⟨0, rfl⟩
  | .binary hl hr, hscoped => by
    refine (expression_safe hcall ha hl hscoped.1).bind fun x hx => ?_
    refine (expression_safe hcall ha hr hscoped.2).bind fun y hy => ?_
    exact operator_safe hx hy

theorem expressions_safe (hcall : CallsFit r call)
    (ha : a.Fits r owner visible result) {args : List Expr} {params : List Ty} :
    ArgumentsFit r args params → Expr.AllScoped r owner arity visible args →
      Safe (expressions r call a args) fun vs => List.Forall₂ Value.Fits vs params
  | .nil, _ => .nil
  | .cons harg hfit hrest, hscoped => by
    refine (expression_safe hcall ha harg hscoped.1).bind fun v hv => ?_
    refine (expressions_safe hcall ha hrest hscoped.2).bind fun vs hvs => ?_
    exact .cons (hv.assign hfit) hvs

end

theorem condition_safe (hcall : CallsFit r call) (ha : a.Fits r owner visible result) {e : Expr}
    (htyped : HasType r e .int)
    (hscoped : e.Scoped r owner arity visible) :
    Safe (condition r call a e) fun _ => True := by
  refine (expression_safe hcall ha htyped hscoped).bind fun v hv => ?_
  obtain ⟨word, rfl⟩ := hv
  trivial

end

/-! ## Statements -/

section

variable {r : Resolutions} {owner : StmtId} {arity : Nat} {visible : List StmtId} {result : Ty}

theorem rounds_safe {loop : StmtId} {round : Activation → Except Stop (Signal × Activation)}
    (hround : ∀ a : Activation, a.Fits r owner visible result →
      Safe (round a) fun out => out.2.Fits r owner visible result) (n : Nat) {a : Activation}
    (ha : a.Fits r owner visible result) :
    Safe (rounds loop round n a) fun out => out.2.Fits r owner visible result := by
  induction n generalizing a with
  | zero => exact fun h => nomatch h
  | succ n ih =>
    refine (hround a ha).bind ?_
    rintro ⟨signal, a'⟩ ha'
    cases signal with
    | next => exact ih ha'
    | leave left => exact ha'
    | done => exact ha'

/-- What holds after a statement: the cells that were visible before it hold values of their types,
and so do those that it declares if evaluation goes on after it. -/
def After (r : Resolutions) (owner : StmtId) (visible visible' : List StmtId) (result : Ty)
    (out : Signal × Activation) : Prop :=
  out.2.Fits r owner visible result ∧ (out.1 = .next → out.2.Fits r owner visible' result)

theorem After.of_fits {out : Signal × Activation} (h : out.2.Fits r owner visible result) :
    After r owner visible visible result out := ⟨h, fun _ => h⟩

variable {call : StmtId → List Value → Except Stop Value} {bound : Nat}

theorem declare_safe {tag : Tag} {ident : Ident} {type : Option TypeExpr} {value : Option Expr}
    {a : Activation} (hcall : CallsFit r call) (ha : a.Fits r owner visible result)
    (hscoped : Stmt.Scoped r owner arity visible [] (.declare tag ident type value))
    (htyped : Stmt.Typed r result (.declare tag ident type value)) :
    Safe (statement r call bound (.declare tag ident type value) a)
      (After r owner visible (tag.id :: visible) result) := by
  obtain ⟨hvalue, hdecl⟩ := hscoped
  obtain ⟨ty, hty, -⟩ := htyped
  cases value with
  | none =>
    -- Without a value the cell has a stated type, and zero or what it held before fits that.
    refine ⟨ha, fun _ => ⟨ha.params, fun {id ty'} hty' hor => ha.cells hty' ?_, ha.result⟩⟩
    refine or_iff_not_imp_left.2 fun hid => hor.elim (fun hmem => ?_) fun hplain => hplain
    obtain rfl : id = tag.id := (List.mem_cons.1 hmem).resolve_right hid
    cases hty' with
    | stated hd hmeaning => exact TypeExpr.plain_of_meaning? hmeaning
    | both hd _ _ _ => cases hdecl.symm.trans hd
    | inferred hd _ => cases hdecl.symm.trans hd
  | some e =>
    obtain ⟨source, hsource, hassign⟩ := hty.value hdecl
    refine (expression_safe hcall ha hsource hvalue).bind fun v hv => ?_
    have hset : (a.set (.local tag.id) v).Fits r owner (tag.id :: visible) result := by
      refine ha.set_local fun hty' => ?_
      cases hty.unique hty'
      rcases hassign with rfl | hfit
      · exact hv
      · exact hv.assign hfit
    exact ⟨hset.mono (List.subset_cons_self _ _), fun _ => hset⟩

theorem assign_safe {tag : Tag} {subject value : Expr} {a : Activation} (hcall : CallsFit r call)
    (ha : a.Fits r owner visible result)
    (hscoped : Stmt.Scoped r owner arity visible [] (.assign tag subject value))
    (htyped : Stmt.Typed r result (.assign tag subject value)) :
    Safe (statement r call bound (.assign tag subject value) a)
      (fun out => out.2.Fits r owner visible result) := by
  obtain ⟨tag', ident, b, target, ty, rfl, hb, hfun, htarget, hty, hfit⟩ := htyped
  refine (expression_safe hcall ha hty hscoped.1).bind fun v hv => ?_
  have hv' := hv.assign hfit
  have hid : r.bindings.find? (Expr.name tag' ident).id = some b := hb
  simp only [hid]
  cases b with
  | function decl => cases hfun
  | parameter scope index =>
    refine ha.set_parameter fun htype hget => ?_
    cases (HasType.parameter hb htype hget).unique htarget
    exact hv'
  | «local» id =>
    refine Activation.Fits.mono (ha.set_local fun hcell => ?_) (List.subset_cons_self _ _)
    cases (HasType.cell hb hcell).unique htarget
    exact hv'

mutual

theorem statement_safe (hcall : CallsFit r call) :
    ∀ (s : Stmt) {visible loops : List StmtId} {a : Activation},
      s.Scoped r owner arity visible loops → (∀ s' ∈ s.own, s'.Typed r result) →
      a.Fits r owner visible result →
      Safe (statement r call bound s a) (After r owner visible (s.introduces ++ visible) result)
  | .error tag, _, _, _, _, htyped, _ => (htyped _ (Stmt.mem_own _)).elim
  | .function .., _, _, _, _, _, ha => After.of_fits ha
  | .declare .., _, _, _, hscoped, htyped, ha =>
    declare_safe hcall ha hscoped (htyped _ (Stmt.mem_own _))
  | .loop tag body, _, _, _, hscoped, htyped, ha => by
    refine (rounds_safe (fun a' ha' => ?_) bound ha).mono fun _ h => After.of_fits h
    exact block_safe hcall body hscoped (fun s' hs' => htyped s' (List.mem_cons_of_mem _ hs')) ha'
  | .while tag test body, _, _, _, hscoped, htyped, ha => by
    refine (rounds_safe (fun a' ha' => ?_) bound ha).mono fun _ h => After.of_fits h
    refine (condition_safe hcall ha' (htyped _ (Stmt.mem_own _)) hscoped.1).bind fun holds _ => ?_
    cases holds with
    | true =>
      exact block_safe hcall body hscoped.2
        (fun s' hs' => htyped s' (List.mem_cons_of_mem _ hs')) ha'
    | false => exact ha'
  | .choose tag test truthy falsy, _, _, _, hscoped, htyped, ha => by
    refine Safe.mono ?_ fun _ h => After.of_fits h
    refine (condition_safe hcall ha (htyped _ (Stmt.mem_own _)) hscoped.1).bind fun holds _ => ?_
    cases holds with
    | true =>
      exact block_safe hcall truthy hscoped.2.1
        (fun s' hs' => htyped s' (List.mem_cons_of_mem _ (List.mem_append_left _ hs'))) ha
    | false =>
      exact optionalBlock_safe hcall falsy hscoped.2.2
        (fun s' hs' => htyped s' (List.mem_cons_of_mem _ (List.mem_append_right _ hs'))) ha
  | .return tag none, _, _, _, _, _, ha => After.of_fits ha
  | .return tag (some value), _, _, _, hscoped, htyped, ha => by
    obtain ⟨ty, hty, hfit⟩ := htyped _ (Stmt.mem_own _)
    refine (expression_safe hcall ha hty hscoped).bind fun v hv => After.of_fits ?_
    exact ⟨ha.params, ha.cells, hv.assign hfit⟩
  | .break tag, _, _, _, hscoped, _, ha => by
    obtain ⟨loop, -, hloop⟩ := hscoped
    simp only [statement, hloop]
    exact After.of_fits ha
  | .assign .., _, _, _, hscoped, htyped, ha =>
    (assign_safe hcall ha hscoped (htyped _ (Stmt.mem_own _))).mono fun _ h => After.of_fits h
  | .eval tag e, _, _, _, hscoped, htyped, ha => by
    obtain ⟨ty, hty⟩ := htyped _ (Stmt.mem_own _)
    exact (expression_safe hcall ha hty hscoped).bind fun _ _ => After.of_fits ha

theorem block_safe (hcall : CallsFit r call) :
    ∀ (b : Block) {visible loops : List StmtId} {a : Activation},
      b.Scoped r owner arity visible loops → (∀ s' ∈ Stmt.ownOfBlock b, s'.Typed r result) →
      a.Fits r owner visible result →
      Safe (block r call bound b a) fun out => out.2.Fits r owner visible result
  | ⟨_, list⟩, _, _, _, hscoped, htyped, ha =>
    statements_safe hcall list hscoped.1 htyped ha

theorem optionalBlock_safe (hcall : CallsFit r call) :
    ∀ (b : Option Block) {visible loops : List StmtId} {a : Activation},
      Block.OptionScoped r owner arity visible loops b →
      (∀ s' ∈ Stmt.ownOfOption b, s'.Typed r result) → a.Fits r owner visible result →
      Safe (optionalBlock r call bound b a) fun out => out.2.Fits r owner visible result
  | none, _, _, _, _, _, ha => ha
  | some b, _, _, _, hscoped, htyped, ha => block_safe hcall b hscoped htyped ha

theorem statements_safe (hcall : CallsFit r call) :
    ∀ (list : List Stmt) {visible loops : List StmtId} {a : Activation},
      Stmt.AllScoped r owner arity visible loops list →
      (∀ s' ∈ Stmt.ownOfList list, s'.Typed r result) → a.Fits r owner visible result →
      Safe (statements r call bound list a) fun out => out.2.Fits r owner visible result
  | [], _, _, _, _, _, ha => ha
  | s :: rest, _, _, _, hscoped, htyped, ha => by
    refine (statement_safe hcall s hscoped.1
      (fun s' hs' => htyped s' (List.mem_append_left _ hs')) ha).bind ?_
    rintro ⟨signal, a'⟩ ⟨hbefore, hafter⟩
    cases signal with
    | next =>
      refine (statements_safe hcall rest hscoped.2
        (fun s' hs' => htyped s' (List.mem_append_right _ hs')) (hafter rfl)).mono fun _ h => ?_
      exact h.mono (List.subset_append_right _ _)
    | leave loop => exact hbefore
    | done => exact hbefore

end

end

/-! ## Functions -/

theorem Activation.start_fits {r : Resolutions} {id : StmtId} {params : List Ty} {result : Ty}
    {args : List Value} (htype : r.functionType? id = some (.function id params result))
    (hresult : result.Plain) (hargs : List.Forall₂ Value.Fits args params) :
    (Activation.start id args).Fits r id [] result := by
  refine ⟨fun {params' result' index ty} htype' hget => ?_, fun {id' ty} hty hor => ?_,
    Flow.Value.fits_zero hresult⟩
  · cases htype.symm.trans htype'
    obtain ⟨hlt, hty⟩ := List.getElem?_eq_some_iff.1 hget
    have hlt' : index < args.length := by rwa [hargs.length_eq]
    have hfit := (List.forall₂_iff_get.1 hargs).2 index hlt' hlt
    simp only [Activation.start, if_true, List.getElem?_eq_getElem hlt', Option.getD_some]
    rw [← hty]
    exact hfit
  · rcases hor with hid | hplain
    · cases hid
    · exact Flow.Value.fits_zero hplain

/-- The evaluation of a function of a checked program gives a value of its result type, if it gives
one, and never gets stuck. -/
theorem function_safe {m : Module} {r : Resolutions} {answers : Answers} (hr : r.Scoped m)
    (hchecked : r.AllChecked answers) (n : Nat) : CallsFit r (function r n) := by
  induction n with
  | zero => exact fun _ _ h => nomatch h
  | succ n ih =>
    intro id params result args htype hargs
    obtain ⟨decl, params', result', hdecl, hparams, hresult, heq⟩ :=
      Resolutions.functionType?_eq_some.1 htype
    cases heq
    have hplain := TypeExpr.plain_of_meaning? hresult
    obtain ⟨tag, hfound⟩ := Resolutions.function?_eq_some.1 hdecl
    obtain ⟨tag', decl', params', result', hfound', hcheck⟩ := hchecked id (hr.listed hfound)
    cases hfound.symm.trans hfound'
    cases htype.symm.trans hcheck.type
    obtain ⟨linkage, hlinked⟩ := hcheck.linked
    simp only [function, hdecl, hlinked.stated]
    cases hbody : decl.body with
    | some b =>
      have hlen : args.length = decl.params.length := by
        rw [hargs.length_eq, (Param.plain_of_meanings? hparams).1]
      obtain ⟨tag'', decl'', -, hfound'', hscoped⟩ := hr.function id (hr.listed hfound)
      cases hfound.symm.trans hfound''
      simp only [hlen, if_true]
      refine (block_safe ih b (hscoped b hbody)
        (fun s hs => (hcheck.body b hbody s hs).1) (Activation.start_fits htype hplain hargs)).bind ?_
      rintro ⟨signal, a⟩ ha
      exact ha.result
    | none =>
      have hforeign : linkage.foreign ≠ none := fun h => by
        have hsome := hlinked.body.2 h
        rw [hbody] at hsome
        cases hsome
      obtain ⟨foreign, exported⟩ := linkage
      cases foreign with
      | none => exact absurd rfl hforeign
      | some symbol => exact fun h => nomatch h

end Evaluation

end WordLang
