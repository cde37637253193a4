import WordLang.Proofs.Flow.Graphs

/-!
# Graphs follow evaluation

The machine of graphs follows the evaluation of trees. From a state that is at the code of an
expression, a statement or a call, it goes to a state with the value that evaluation gives, or it
ends with the fault at which evaluation fails. Where evaluation was followed up to a bound only, the
machine goes on at a cost that is no less than the bound.

## Main definitions

* `Flow.Follows`: the machine follows an evaluation from a state
* `Flow.Holds`: the cells of a graph hold the values of an activation
* `Flow.Implements`: the graphs of a program are those of its functions

## Main results

* `Flow.expression_follows`, `Flow.statement_follows`: expressions and statements
* `Flow.call_follows`: calls of functions
-/

namespace WordLang.Flow

variable {args : List Value} {m : Module} {α β : Type} {p : Program} {n : Nat}

/-- From the state `s` the machine goes to a state after the value of `x`, or ends with its fault; if
`x` stopped at a bound, the machine goes on for at least `n`. Of an evaluation that gets stuck,
nothing is said. -/
def Follows (p : Program) (n : Nat) (x : Except Stop α) (s : State) (after : α → State → Prop) :
    Prop :=
  match x with
  | .ok a => ∃ k t, (machine p).Steps k s t ∧ after a t
  | .error .bound => ∃ k t, n ≤ k ∧ (machine p).Steps k s t
  | .error (.fault e) => ∃ k, (machine p).Ends k s (.error (.fault e))
  | .error .stuck => True

namespace Follows

variable {x : Except Stop α} {s t : State} {after after' : α → State → Prop}

theorem here {a : α} (h : after a s) : Follows p n (.ok a) s after := ⟨0, s, .refl s, h⟩

/-- What an evaluation goes on with is followed from where its first part leads. -/
theorem bind {f : α → Except Stop β} {done : β → State → Prop} (hx : Follows p n x s after)
    (hf : ∀ a t, after a t → Follows p n (f a) t done) : Follows p n (x >>= f) s done := by
  match x, hx with
  | .ok a, ⟨k, t, hk, ha⟩ =>
    have h := hf a t ha
    show Follows p n (f a) s done
    match f a, h with
    | .ok b, ⟨j, u, hj, hb⟩ => exact ⟨k + j, u, hk.trans hj, hb⟩
    | .error .bound, ⟨j, u, hn, hj⟩ => exact ⟨k + j, u, by omega, hk.trans hj⟩
    | .error (.fault e), ⟨j, hj⟩ => exact ⟨k + j, hk.ends hj⟩
    | .error .stuck, _ => trivial
  | .error .bound, hx => exact hx
  | .error (.fault e), hx => exact hx
  | .error .stuck, _ => trivial

theorem steps_after (hx : Follows p n x s after)
    (h : ∀ a t, after a t → ∃ k u, (machine p).Steps k t u ∧ after' a u) :
    Follows p n x s after' := by
  match x, hx with
  | .ok a, ⟨k, t, hk, ha⟩ =>
    obtain ⟨j, u, hj, hu⟩ := h a t ha
    exact ⟨k + j, u, hk.trans hj, hu⟩
  | .error .bound, hx => exact hx
  | .error (.fault e), hx => exact hx
  | .error .stuck, _ => trivial

theorem step (hstep : (machine p).step s = .inl t) (h : Follows p n x t after) :
    Follows p (n + 1) x s after := by
  have hpos := machine_cost_pos hstep
  match x, h with
  | .ok a, ⟨k, u, hk, ha⟩ => exact ⟨_, u, .head hstep hk, ha⟩
  | .error .bound, ⟨k, u, hn, hk⟩ => exact ⟨_, u, by omega, .head hstep hk⟩
  | .error (.fault e), ⟨k, hk⟩ => exact ⟨_, .head hstep hk⟩
  | .error .stuck, _ => trivial

theorem of_le {m : Nat} (h : Follows p n x s after) (hm : m ≤ n) : Follows p m x s after := by
  match x, h with
  | .ok a, h => exact h
  | .error .bound, ⟨k, u, hn, hk⟩ => exact ⟨k, u, by omega, hk⟩
  | .error (.fault e), h => exact h
  | .error .stuck, _ => trivial

theorem next (hstep : (machine p).step s = .inl t) (h : Follows p n x t after) :
    Follows p n x s after :=
  (step hstep h).of_le (Nat.le_succ n)

end Follows

/-! ## States -/

/-- The state of the machine at a piece of code. -/
def State.at (f : Function) (callers : List Frame) (k : Code) (values : LocalId → Value)
    (stack : List Value) : State where
  frame := { function := f, statements := k.1, terminator := k.2, cells := values, stack }
  callers := callers

section

variable {f : Function} {callers : List Frame} {k : Code} {values : LocalId → Value}
  {stack : List Value}

theorem step_push (value : Value) (ss : List Statement) : (machine p).step
    (.at f callers (Code.before (.push value :: ss) k) values stack) =
      .inl (.at f callers (Code.before ss k) values (value :: stack)) := rfl

theorem step_pop (value : Value) : (machine p).step
    (.at f callers (Code.before [.pop] k) values (value :: stack)) =
      .inl (.at f callers k values stack) := rfl

theorem step_load (cell : LocalId) : (machine p).step
    (.at f callers (Code.before [.load cell] k) values stack) =
      .inl (.at f callers k values (values cell :: stack)) := rfl

theorem step_store (cell : LocalId) (value : Value) : (machine p).step
    (.at f callers (Code.before [.store cell] k) values (value :: stack)) =
      .inl (.at f callers k (Function.update values cell value) stack) := rfl

theorem step_goto {target : BlockId} (h : f.code target = some k) : (machine p).step
    (.at f callers ([], .goto target) values stack) = .inl (.at f callers k values stack) := by
  obtain ⟨b, hb, rfl⟩ := Option.map_eq_some_iff.1 h
  simp only [machine, State.at, Frame.act, Terminator.act, Frame.goto, hb]
  rfl

theorem step_branch {truthy falsy : BlockId} {value : Int64}
    (h : f.code (if value ≠ 0 then truthy else falsy) = some k) : (machine p).step
      (.at f callers ([], .branch truthy falsy) values (.int value :: stack)) =
        .inl (.at f callers k values stack) := by
  obtain ⟨b, hb, rfl⟩ := Option.map_eq_some_iff.1 h
  simp only [machine, State.at, Frame.act, Terminator.act, Frame.goto]
  split
  · next hne =>
    rw [if_pos hne] at hb
    rw [hb]
    rfl
  · next hne =>
    rw [if_neg hne] at hb
    rw [hb]
    rfl

theorem binary_follows (op : BinaryOp) (lhs rhs : Value) :
    Follows p n (Evaluation.operator op lhs rhs)
      (.at f callers (Code.before [.binary op] k) values (rhs :: lhs :: stack))
      fun v t => t = .at f callers k values (v :: stack) := by
  cases h : Evaluation.operator op lhs rhs with
  | ok v =>
    refine .next ?_ (.here rfl)
    simp only [machine, State.at, Frame.act, Statement.act, Code.before, List.cons_append, h]
    rfl
  | error stop =>
    cases stop with
    | fault e =>
      refine ⟨_, .done ?_⟩
      simp only [machine, State.at, Frame.act, Statement.act, Code.before, List.cons_append, h]
      rfl
    | bound =>
      cases lhs <;> cases rhs <;> simp only [Evaluation.operator] at h
      · split at h <;> cases h
      all_goals cases h
    | stuck => trivial

end

/-! ## Expressions -/

/-- The machine follows calls: it comes back to the caller with the value of the call. -/
def CallsFollowed (p : Program) (n : Nat) (call : StmtId → List Value → Except Stop Value) : Prop :=
  ∀ {s : State} {caller : Frame} {decl : StmtId} {args : List Value},
    s.frame.act = .call caller decl args →
      Follows p n (call decl args) s fun v t => t = ⟨caller.push v, s.callers⟩

/-- The cells of a graph hold the values of an activation of the function that `owner` declares. -/
structure Holds (cells : Cells) (owner : StmtId) (a : Evaluation.Activation)
    (values : LocalId → Value) : Prop where
  cell : ∀ {b : Binding} {cell : LocalId}, b.OwnedBy owner → cells.find b = .ok cell →
    values cell = a.cells b
  result : values Build.resultCell = a.result

section

variable {r : Resolutions} {cells : Cells} {owner : StmtId} {arity : Nat} {visible : List StmtId}
  {call : StmtId → List Value → Except Stop Value} {a : Evaluation.Activation}
  {values : LocalId → Value} {f : Function} {callers : List Frame}

theorem Holds.set (h : Holds cells owner a values) (hapart : cells.Apart owner) {b : Binding}
    {cell : LocalId} (hb : b.OwnedBy owner) (hfind : cells.find b = .ok cell) (v : Value) :
    Holds cells owner (a.set b v) (Function.update values cell v) := by
  constructor
  · intro b' cell' hb' hfind'
    by_cases heq : cell' = cell
    · subst heq
      obtain rfl := hapart.injective hb' hb hfind' hfind
      simp [Evaluation.Activation.set]
    · have hne : b' ≠ b := by
        rintro rfl
        rw [hfind] at hfind'
        exact heq (Except.ok.inj hfind').symm
      simp only [Evaluation.Activation.set, Function.update_of_ne heq, if_neg hne]
      exact h.cell hb' hfind'
  · rw [Function.update_of_ne (Ne.symm (hapart.result hfind))]
    exact h.result

theorem Holds.setResult (h : Holds cells owner a values) (hapart : cells.Apart owner) (v : Value) :
    Holds cells owner { a with result := v } (Function.update values Build.resultCell v) := by
  constructor
  · intro b cell hb hfind
    rw [Function.update_of_ne (hapart.result hfind)]
    exact h.cell hb hfind
  · exact Function.update_self ..

theorem name_follows (hholds : Holds cells owner a values) {tag : Tag} {ident : Ident}
    {ss : List Statement} (hss : expression r cells (.name tag ident) = .ok ss)
    (hscoped : (Expr.name tag ident).Scoped r owner arity visible) (k : Code) (stack : List Value) :
    Follows p n (Evaluation.expression r call a (.name tag ident))
      (.at f callers (Code.before ss k) values stack)
      fun v t => t = .at f callers k values (v :: stack) := by
  obtain ⟨b, hb, hin⟩ := hscoped
  simp only [Evaluation.expression, hb]
  by_cases hfun : b.isFunction = true
  · cases b with
    | function decl =>
      rw [expression_function hb] at hss
      cases hss
      exact .next (step_push _ _) (.here rfl)
    | parameter scope index => cases hfun
    | «local» decl => cases hfun
  · rw [Bool.not_eq_true] at hfun
    obtain ⟨b', hb', hss⟩ := exists_of_bind_eq_ok hss
    rw [bindingOf_name hb, Except.ok.injEq] at hb'
    subst hb'
    cases b with
    | function decl => cases hfun
    | parameter scope index | «local» decl =>
      obtain ⟨cell, hcell, hss⟩ := exists_of_bind_eq_ok hss
      cases hss
      refine .next (step_load _) (.here ?_)
      rw [hholds.cell hin.ownedBy hcell]

theorem call_of_function (hcall : CallsFollowed p n call) (k : Code) (args : List Value)
    (decl : StmtId) (stack : List Value) :
    Follows p n (call decl args) (.at f callers (Code.before [.call args.length] k) values
      (.function decl :: (args.reverse ++ stack)))
      fun v t => t = .at f callers k values (v :: stack) := by
  have hact : (State.at f callers (Code.before [.call args.length] k) values
      (.function decl :: (args.reverse ++ stack))).frame.act =
        .call (State.at f callers k values stack).frame decl args := by
    simp [State.at, Frame.act, Statement.act, Code.before]
  exact hcall hact

mutual

/-- The machine follows the evaluation of an expression. -/
theorem expression_follows (hcall : CallsFollowed p n call) (hholds : Holds cells owner a values) :
    ∀ (e : Expr) {ss : List Statement}, expression r cells e = .ok ss →
      e.Scoped r owner arity visible → ∀ (k : Code) (stack : List Value),
      Follows p n (Evaluation.expression r call a e) (.at f callers (Code.before ss k) values stack)
        fun v t => t = .at f callers k values (v :: stack)
  | .error _, _, _, _, _, _ => trivial
  | .name _ _, _, hss, hscoped, k, stack => name_follows hholds hss hscoped k stack
  | .int _ value, _, hss, _, k, stack => by
    cases hss
    exact .next (step_push _ _) (.here rfl)
  | .string _ text, _, hss, _, k, stack => by
    cases hss
    exact .next (step_push _ _) (.here rfl)
  | .call _ callee args, _, hss, hscoped, k, stack => by
    obtain ⟨ss, hargs, hss⟩ := exists_of_bind_eq_ok hss
    obtain ⟨ss', hcallee, hss⟩ := exists_of_bind_eq_ok hss
    cases hss
    -- The callee comes last, on top of the arguments.
    rw [List.append_assoc, Code.before_append, Code.before_append]
    refine .bind (expressions_follow hcall hholds args hargs hscoped.1 _ stack) ?_
    rintro vs t ⟨hlen, rfl⟩
    refine .bind (expression_follows hcall hholds callee hcallee hscoped.2 _ _) ?_
    rintro (_ | _ | decl) t rfl
    · trivial
    · trivial
    · rw [← hlen]
      exact call_of_function hcall k vs decl stack
  | .unary _ .negate operand, _, hss, hscoped, k, stack => by
    obtain ⟨ss, hoperand, hss⟩ := exists_of_bind_eq_ok hss
    cases hss
    rw [Code.before_append]
    refine .next (step_push _ _) ?_
    refine .bind (expression_follows hcall hholds operand hoperand hscoped _ _) ?_
    rintro v t rfl
    exact binary_follows ..
  | .unary _ .not operand, _, hss, hscoped, k, stack => by
    obtain ⟨ss, hoperand, hss⟩ := exists_of_bind_eq_ok hss
    cases hss
    rw [Code.before_append]
    refine .bind (expression_follows hcall hholds operand hoperand hscoped _ _) ?_
    rintro v t rfl
    exact .next (step_push _ _) (binary_follows ..)
  | .binary _ op lhs rhs, _, hss, hscoped, k, stack => by
    obtain ⟨ss, hlhs, hss⟩ := exists_of_bind_eq_ok hss
    obtain ⟨ss', hrhs, hss⟩ := exists_of_bind_eq_ok hss
    cases hss
    rw [List.append_assoc, Code.before_append, Code.before_append]
    refine .bind (expression_follows hcall hholds lhs hlhs hscoped.1 _ _) ?_
    rintro l t rfl
    refine .bind (expression_follows hcall hholds rhs hrhs hscoped.2 _ _) ?_
    rintro v t rfl
    exact binary_follows ..

theorem expressions_follow (hcall : CallsFollowed p n call) (hholds : Holds cells owner a values) :
    ∀ (list : List Expr) {ss : List Statement}, expressions r cells list = .ok ss →
      Expr.AllScoped r owner arity visible list → ∀ (k : Code) (stack : List Value),
      Follows p n (Evaluation.expressions r call a list)
        (.at f callers (Code.before ss k) values stack)
        fun vs t => vs.length = list.length ∧ t = .at f callers k values (vs.reverse ++ stack)
  | [], _, hss, _, k, stack => by
    cases hss
    exact .here ⟨rfl, rfl⟩
  | e :: rest, _, hss, hscoped, k, stack => by
    obtain ⟨ss, he, hss⟩ := exists_of_bind_eq_ok hss
    obtain ⟨ss', hrest, hss⟩ := exists_of_bind_eq_ok hss
    cases hss
    rw [Code.before_append]
    refine .bind (expression_follows hcall hholds e he hscoped.1 _ _) ?_
    rintro v t rfl
    refine .bind (expressions_follow hcall hholds rest hrest hscoped.2 _ _) ?_
    rintro vs t ⟨hlen, rfl⟩
    exact .here ⟨by simp [hlen], by simp⟩

end

theorem condition_follows (hcall : CallsFollowed p n call) (hholds : Holds cells owner a values)
    {e : Expr} {ss : List Statement} (hss : expression r cells e = .ok ss)
    (hscoped : e.Scoped r owner arity visible) {truthy falsy : BlockId} {kt kf : Code}
    (ht : f.code truthy = some kt) (hf : f.code falsy = some kf) :
    Follows p n (Evaluation.condition r call a e)
      (.at f callers (ss, .branch truthy falsy) values [])
      fun holds t => t = .at f callers (if holds then kt else kf) values [] := by
  have hcode : (ss, Terminator.branch truthy falsy) = Code.before ss ([], .branch truthy falsy) := by
    simp [Code.before]
  rw [hcode]
  refine .bind (expression_follows hcall hholds e hss hscoped _ _) ?_
  rintro (value | _ | _) t rfl
  · refine .next (step_branch ?_) (.here rfl)
    by_cases hne : value ≠ 0
    · simpa [hne] using ht
    · simpa [hne] using hf
  · trivial
  · trivial

end

/-! ## Statements -/

section

open Evaluation (Activation Signal)

/-- The states after statements that end with a signal: the machine is at a place that belongs to the
signal, with an empty stack, and its cells hold the values of the activation. -/
def Arrives (f : Function) (callers : List Frame) (cells : Cells) (owner : StmtId)
    (place : Signal → Code → Prop) (out : Signal × Activation) (t : State) : Prop :=
  ∃ values k, Holds cells owner out.2 values ∧ place out.1 k ∧ t = .at f callers k values []

def statementPlace (loops : List StmtId) (exit? : Option BlockId) (after : Code) :
    Signal → Code → Prop
  | .next, k => k = after
  | .leave loop, k => loops.head? = some loop ∧ ∃ exit, exit? = some exit ∧ k = ([], .goto exit)
  | .done, k => k = ([], .goto Build.exitBlock)

def roundPlace (loop : StmtId) (start : BlockId) (after : Code) : Signal → Code → Prop
  | .next, k => k = ([], .goto start)
  | .leave left, k => left = loop ∧ k = after
  | .done, k => k = ([], .goto Build.exitBlock)

variable {r : Resolutions} {cells : Cells} {owner : StmtId} {arity : Nat}
  {call : StmtId → List Value → Except Stop Value} {a : Activation} {values : LocalId → Value}
  {f : Function} {callers : List Frame} {loops : List StmtId} {exit? : Option BlockId}
  {exit start : BlockId} {after : Code} {out : Signal × Activation} {t : State}

/-- A place is one of others, or goes on at one of them. -/
theorem Arrives.move {place place' : Signal → Code → Prop}
    (h : Arrives f callers cells owner place out t)
    (hmove : ∀ signal k, place signal k → place' signal k ∨
      ∃ next k', k = ([], .goto next) ∧ f.code next = some k' ∧ place' signal k') :
    ∃ j u, (machine p).Steps j t u ∧ Arrives f callers cells owner place' out u := by
  obtain ⟨values, k, hholds, hplace, rfl⟩ := h
  rcases hmove _ k hplace with hplace | ⟨next, k', rfl, hnext, hplace⟩
  · exact ⟨0, _, .refl _, values, k, hholds, hplace, rfl⟩
  · exact ⟨_, _, .single (step_goto hnext), values, k', hholds, hplace, rfl⟩

theorem Arrives.goto (hexit : f.code exit = some after)
    (h : Arrives f callers cells owner (statementPlace loops exit? ([], .goto exit)) out t) :
    ∃ j u, (machine p).Steps j t u ∧
      Arrives f callers cells owner (statementPlace loops exit? after) out u := by
  refine h.move fun signal k hk => ?_
  cases signal with
  | next => exact .inr ⟨exit, after, hk, hexit, rfl⟩
  | leave | done => exact .inl hk

theorem Arrives.round {loop : StmtId} (hexit : f.code exit = some after)
    (h : Arrives f callers cells owner
      (statementPlace (loop :: loops) (some exit) ([], .goto start)) out t) :
    ∃ j u, (machine p).Steps j t u ∧
      Arrives f callers cells owner (roundPlace loop start after) out u := by
  refine h.move fun signal k hk => ?_
  cases signal with
  | leave left =>
    obtain ⟨hleft, _, hexit', rfl⟩ := hk
    cases hexit'
    exact .inr ⟨exit, after, rfl, hexit, (Option.some.inj hleft).symm, rfl⟩
  | next | done => exact .inl hk

theorem rounds_follow {loop : StmtId} {round : Activation → Except Stop (Signal × Activation)}
    {inside : Code} (hstart : f.code start = some inside)
    (hround : ∀ {a : Activation} {values : LocalId → Value}, Holds cells owner a values →
      Follows p n (round a) (.at f callers inside values [])
        (Arrives f callers cells owner (roundPlace loop start after)))
    {m : Nat} (hm : m ≤ n) (hholds : Holds cells owner a values) :
    Follows p m (Evaluation.rounds loop round m a) (.at f callers ([], .goto start) values [])
      (Arrives f callers cells owner (statementPlace loops exit? after)) := by
  induction m generalizing a values with
  | zero => exact ⟨0, _, le_rfl, .refl _⟩
  | succ m ih =>
    refine .step (step_goto hstart) ?_
    refine .bind ((hround hholds).of_le (by omega)) ?_
    rintro ⟨signal, a'⟩ t ⟨values', k, hholds', hplace, rfl⟩
    match signal, hplace with
    | .next, hk =>
      subst hk
      exact ih (by omega) hholds'
    | .leave left, ⟨hleft, hk⟩ =>
      subst hleft hk
      refine .here ⟨values', k, hholds', ?_, rfl⟩
      rw [if_pos rfl]
      rfl
    | .done, hk => exact .here ⟨values', k, hholds', hk, rfl⟩

mutual

/-- The machine follows the evaluation of a statement. -/
theorem statement_follows (hcall : CallsFollowed p n call) (hapart : cells.Apart owner) :
    ∀ (s : Stmt) {visible loops : List StmtId} {exit? : Option BlockId} {k k' : Code}
      {a : Activation} {values : LocalId → Value}, Compiled r f.code cells exit? s k k' →
      s.Scoped r owner arity visible loops → Holds cells owner a values →
      Follows p n (Evaluation.statement r call n s a) (.at f callers k values [])
        (Arrives f callers cells owner (statementPlace loops exit? k'))
  | .error _, _, _, _, _, _, _, _, hk, _, _ => hk.elim
  | .function _ _, _, _, _, k, _, _, values, hk, _, hholds => by
    exact .here ⟨values, k, hholds, hk, rfl⟩
  | .declare _ _ _ none, _, _, _, k, _, _, values, hk, _, hholds => by
    exact .here ⟨values, k, hholds, hk, rfl⟩
  | .declare tag _ _ (some value), _, _, _, _, _, _, _, ⟨ss, cell, hss, hcell, hk⟩, hscoped,
      hholds => by
    subst hk
    rw [Code.before_append]
    refine .bind (expression_follows hcall hholds value hss hscoped.1 _ _) ?_
    rintro v t rfl
    have howned : Binding.OwnedBy owner (.local tag.id) := trivial
    exact .next (step_store _ _) (.here ⟨_, _, hholds.set hapart howned hcell v, rfl, rfl⟩)
  | .loop _ body, _, _, _, _, _, _, _, ⟨inside, exit, kin, hk, hinside, hexit, hbody⟩, hscoped,
      hholds => by
    subst hk
    -- The end of the body leads to the next round, and a `break` to the code after the loop.
    refine rounds_follow hinside (fun hholds => ?_) le_rfl hholds
    exact (block_follows hcall hapart body hbody hscoped hholds).steps_after
      fun _ _ h => h.round hexit
  | .while tag condition body, _, _, _, _, _, _, _,
      ⟨test, inside, exit, ss, kin, hk, htest, hss, hinside, hexit, hbody⟩, hscoped, hholds => by
    subst hk
    refine rounds_follow htest (fun {a values} hholds => ?_) le_rfl hholds
    refine .bind (condition_follows hcall hholds hss hscoped.1 hinside hexit) ?_
    rintro (_ | _) t rfl
    · exact .here ⟨values, _, hholds, ⟨rfl, rfl⟩, rfl⟩
    · exact (block_follows hcall hapart body hbody hscoped.2 hholds).steps_after
        fun _ _ h => h.round hexit
  | .choose _ condition truthy falsy, _, _, _, _, _, _, _,
      ⟨onTrue, onFalse, exit, ss, kt, kf, hk, hss, htrue, hfalse, hexit, htruthy, hfalsy⟩, hscoped,
      hholds => by
    subst hk
    refine .bind (condition_follows hcall hholds hss hscoped.1 htrue hfalse) ?_
    rintro (_ | _) t rfl
    · exact optionalBlock_follows hcall hapart falsy hexit hfalsy hscoped.2.2 hholds
    · exact (block_follows hcall hapart truthy htruthy hscoped.2.1 hholds).steps_after
        fun _ _ h => h.goto hexit
  | .return _ none, _, _, _, k, _, _, values, hk, _, hholds => by
    exact .here ⟨values, k, hholds, hk, rfl⟩
  | .return _ (some value), _, _, _, _, _, _, _, ⟨ss, hss, hk⟩, hscoped, hholds => by
    have hcode : (ss ++ [Statement.store Build.resultCell], Terminator.goto Build.exitBlock) =
        Code.before ss (Code.before [.store Build.resultCell] ([], .goto Build.exitBlock)) := by
      simp [Code.before]
    rw [hk, hcode]
    refine .bind (expression_follows hcall hholds value hss hscoped _ _) ?_
    rintro v t rfl
    exact .next (step_store _ _) (.here ⟨_, _, hholds.setResult hapart v, rfl, rfl⟩)
  | .break _, _, _, _, k, _, _, values, ⟨exit, hexit, hk⟩, ⟨loop, hloop, htarget⟩, hholds => by
    simp only [Evaluation.statement, htarget]
    exact .here ⟨values, k, hholds, ⟨hloop, exit, hexit, hk⟩, rfl⟩
  | .assign _ _ value, _, _, _, _, _, _, _, ⟨tag, ident, ss, b, cell, hname, hb, hcell, hss, hk⟩,
      hscoped, hholds => by
    subst hname hk
    obtain ⟨hvalue, b', hb', hin⟩ := hscoped
    cases hb.symm.trans hb'
    rw [Code.before_append]
    simp only [Evaluation.statement, Expr.id, Expr.tag, hb]
    refine .bind (expression_follows hcall hholds value hss hvalue _ _) ?_
    rintro v t rfl
    refine .next (step_store _ _) ?_
    cases b with
    | function decl => cases hcell
    | parameter scope index | «local» decl =>
      exact .here ⟨_, _, hholds.set hapart hin.ownedBy hcell v, rfl, rfl⟩
  | .eval _ e, _, _, _, _, k', _, values, ⟨ss, hss, hk⟩, hscoped, hholds => by
    subst hk
    rw [Code.before_append]
    refine .bind (expression_follows hcall hholds e hss hscoped _ _) ?_
    rintro v t rfl
    exact .next (step_pop v) (.here ⟨values, k', hholds, rfl, rfl⟩)

theorem block_follows (hcall : CallsFollowed p n call) (hapart : cells.Apart owner) :
    ∀ (b : WordLang.Block) {visible loops : List StmtId} {exit? : Option BlockId} {k k' : Code}
      {a : Activation} {values : LocalId → Value}, CompiledBlock r f.code cells exit? b k k' →
      b.Scoped r owner arity visible loops → Holds cells owner a values →
      Follows p n (Evaluation.block r call n b a) (.at f callers k values [])
        (Arrives f callers cells owner (statementPlace loops exit? k'))
  | ⟨_, list⟩, _, _, _, _, _, _, _, hk, hscoped, hholds => by
    exact statements_follow hcall hapart list hk hscoped.1 hholds

theorem optionalBlock_follows (hcall : CallsFollowed p n call) (hapart : cells.Apart owner) :
    ∀ (b : Option WordLang.Block) {visible loops : List StmtId} {exit? : Option BlockId}
      {k after : Code} {exit : BlockId} {a : Activation} {values : LocalId → Value},
      f.code exit = some after → CompiledOption r f.code cells exit? b k ([], .goto exit) after →
      Block.OptionScoped r owner arity visible loops b → Holds cells owner a values →
      Follows p n (Evaluation.optionalBlock r call n b a) (.at f callers k values [])
        (Arrives f callers cells owner (statementPlace loops exit? after))
  | none, _, _, _, k, _, _, _, values, _, hk, _, hholds => by
    exact .here ⟨values, k, hholds, hk, rfl⟩
  | some b, _, _, _, _, _, _, _, _, hexit, hk, hscoped, hholds => by
    exact (block_follows hcall hapart b hk hscoped hholds).steps_after fun _ _ h => h.goto hexit

theorem statements_follow (hcall : CallsFollowed p n call) (hapart : cells.Apart owner) :
    ∀ (list : List Stmt) {visible loops : List StmtId} {exit? : Option BlockId} {k k' : Code}
      {a : Activation} {values : LocalId → Value}, CompiledList r f.code cells exit? list k k' →
      Stmt.AllScoped r owner arity visible loops list → Holds cells owner a values →
      Follows p n (Evaluation.statements r call n list a) (.at f callers k values [])
        (Arrives f callers cells owner (statementPlace loops exit? k'))
  | [], _, _, _, k, _, _, values, hk, _, hholds => by
    exact .here ⟨values, k, hholds, hk, rfl⟩
  | s :: rest, _, _, _, _, _, _, _, ⟨mid, hs, hrest⟩, hscoped, hholds => by
    refine .bind (statement_follows hcall hapart s hs hscoped.1 hholds) ?_
    rintro ⟨signal, a'⟩ t ⟨values', k, hholds', hplace, rfl⟩
    match signal, hplace with
    | .next, hk =>
      subst hk
      exact statements_follow hcall hapart rest hrest hscoped.2 hholds'
    | .leave loop, hk => exact .here ⟨values', k, hholds', hk, rfl⟩
    | .done, hk => exact .here ⟨values', k, hholds', hk, rfl⟩

end

end

/-! ## Functions -/

/-- The functions of a program are what the functions of a module declare. -/
structure Implements (p : Program) (r : Resolutions) : Prop where
  graph : ∀ {id decl body}, r.function? id = some decl → decl.body = some body →
    ∃ f, p id = some (.graph f) ∧ GraphOf r id decl body f
  foreign : ∀ {id decl symbol exported}, r.function? id = some decl → decl.body = none →
    decl.linkage = .ok ⟨some symbol, exported⟩ → p id = some (.foreign symbol)

section

variable {r : Resolutions} {id : StmtId} {decl : FnDecl} {body : WordLang.Block} {f : Function}

/-- The cells of a graph hold the values of an activation at its start. -/
theorem holds_start {cells : Cells} (hapart : cells.Apart id) (hparams : cells.params = f.params)
    (hnodup : f.params.Nodup) (args : List Value) :
    Holds cells id (Evaluation.Activation.start id args) (f.startCells args) := by
  have hnone : ∀ {cell}, cell ∉ f.params → f.startCells args cell = .int 0 := by
    intro cell hcell
    rw [Function.startCells, List.idxOf?_eq_none_iff.2 hcell]
  have hparam : ∀ {cell}, cell ∈ f.params → ∃ i, cells.find (.parameter id i) = .ok cell := by
    intro cell hcell
    obtain ⟨i, hi⟩ := List.getElem?_of_mem hcell
    exact ⟨i, Cells.find_parameter.2 (hparams ▸ hi)⟩
  constructor
  · rintro (decl | ⟨scope, i⟩ | decl) cell hb hfind
    · cases hfind
    · obtain rfl : scope = id := hb
      have hget := Cells.find_parameter.1 hfind
      rw [hparams] at hget
      have hindex : f.params.idxOf? cell = some i := idxOf?_of_getElem? hnodup hget
      simp only [Function.startCells, Evaluation.Activation.start, hindex, if_true]
    · refine hnone fun hcell => ?_
      obtain ⟨i, hi⟩ := hparam hcell
      have howned : Binding.OwnedBy id (.parameter id i) := rfl
      cases hapart.injective howned hb hi hfind
  · refine hnone fun hcell => ?_
    obtain ⟨i, hi⟩ := hparam hcell
    exact hapart.result hi rfl

theorem body_follows {call : StmtId → List Value → Except Stop Value} (hcall : CallsFollowed p n call)
    (hf : GraphOf r id decl body f) (hscoped : body.Scoped r id decl.params.length [] [])
    {frame : Frame} (hframe : f.activation? args = some frame) (callers : List Frame) :
    Follows p n (do return (← Evaluation.block r call n body (.start id args)).2.result)
      ⟨frame, callers⟩ fun v t => t.frame.act = .finish v ∧ t.callers = callers := by
  obtain ⟨cells, k, hparams, hapart, hentry, hbody⟩ := hf.body
  have hstart : (⟨frame, callers⟩ : State) = .at f callers k (f.startCells args) [] := by
    obtain ⟨b, hb, rfl⟩ := Option.map_eq_some_iff.1 hentry
    simp only [Function.activation?, hb] at hframe
    split at hframe
    · cases hframe
      rfl
    · cases hframe
  rw [hstart]
  have hnodup : f.params.Nodup := hf.params ▸ List.nodup_range'
  refine .bind (block_follows hcall hapart body hbody hscoped
    (holds_start hapart hparams hnodup args)) ?_
  rintro ⟨signal, a⟩ t ⟨values, k, hholds, hplace, rfl⟩
  obtain rfl : k = ([], .goto Build.exitBlock) := by
    cases signal with
    | next => exact hplace
    | leave loop => cases hplace.1
    | done => exact hplace
  refine .next (step_goto hf.exit) (.here ⟨?_, rfl⟩)
  simp only [State.at, Frame.act, Terminator.act, if_pos, hf.result, hholds.result]

theorem GraphOf.exists_activation (hf : GraphOf r id decl body f)
    (hlen : args.length = decl.params.length) : ∃ frame, f.activation? args = some frame := by
  obtain ⟨-, k, -, -, hentry, -⟩ := hf.body
  obtain ⟨b, hb, -⟩ := Option.map_eq_some_iff.1 hentry
  rw [Function.activation?, if_pos (by simp [hlen, hf.params]), hb]
  exact ⟨_, rfl⟩

/-- The machine follows calls of the functions of a module. -/
theorem call_follows (hr : r.Scoped m) (hp : Implements p r) (n : Nat) :
    CallsFollowed p n (Evaluation.function r n) := by
  induction n with
  | zero => exact fun _ => ⟨0, _, le_rfl, .refl _⟩
  | succ n ih =>
    intro s caller id args hact
    simp only [Evaluation.function]
    cases hdecl : r.function? id with
    | none => trivial
    | some decl =>
      simp only
      split
      · next body hbody =>
        obtain ⟨f, hf, hgraph⟩ := hp.graph hdecl hbody
        split
        · next hlen =>
          obtain ⟨frame, hframe⟩ := hgraph.exists_activation hlen
          have hstep : (machine p).step s = .inl ⟨frame, caller :: s.callers⟩ := by
            simp only [machine, hact, perform, hf, hframe]
          have hfollows := body_follows ih hgraph (hr.scoped_body hdecl hbody) hframe
            (caller :: s.callers)
          refine .step hstep (hfollows.steps_after ?_)
          rintro v t ⟨hfinish, hcallers⟩
          refine ⟨_, _, .single ?_, rfl⟩
          simp only [machine, hfinish, perform, hcallers]
          rfl
        · trivial
      · next symbol exported hbody hlinkage =>
        refine ⟨_, .done ?_⟩
        simp only [machine, hact, perform, hp.foreign hdecl hbody hlinkage]
      · trivial

theorem Follows.ends_ok {s : State} {v : Value}
    (h : Follows p n (.ok v) s fun v t => t.frame.act = .finish v ∧ t.callers = []) :
    ∃ k, (machine p).Ends k s (.ok v) := by
  obtain ⟨j, t, hj, hfinish, hcallers⟩ := h
  have hdone : (machine p).step t = .inr (.ok v) := by
    simp only [machine, hfinish, perform, hcallers]
  exact ⟨_, hj.ends (.done hdone)⟩

theorem start_follows (hr : r.Scoped m) (hp : Implements p r)
    {s : State} (hs : p.start? id args = some s) (n : Nat) :
    Follows p n (Evaluation.function r (n + 1) id args) s
      fun v t => t.frame.act = .finish v ∧ t.callers = [] := by
  simp only [Evaluation.function]
  cases hdecl : r.function? id with
  | none => trivial
  | some decl =>
    simp only
    split
    · next body hbody =>
      obtain ⟨f, hf, hgraph⟩ := hp.graph hdecl hbody
      simp only [Program.start?, hf] at hs
      obtain ⟨frame, hframe, rfl⟩ := Option.map_eq_some_iff.1 hs
      split
      · exact body_follows (call_follows hr hp n) hgraph (hr.scoped_body hdecl hbody) hframe []
      · trivial
    · next symbol exported hbody hlinkage =>
      simp only [Program.start?, hp.foreign hdecl hbody hlinkage] at hs
      cases hs
    · trivial

theorem evaluation_of_ends (hr : r.Scoped m) (hp : Implements p r)
    (hsafe : ∀ n, Evaluation.function r n id args ≠ .error .stuck) {s : State}
    (hs : p.start? id args = some s) {k : Nat} {out : Outcome} (hends : (machine p).Ends k s out) :
    out ≠ .error .bound ∧ ∀ n, k + 1 < n → Evaluation.function r n id args = out := by
  have hall : ∀ n, k + 1 < n → Evaluation.function r n id args = out ∧ out ≠ .error .bound := by
    intro n hn
    obtain ⟨n, rfl⟩ : ∃ i, n = i + 1 := ⟨n - 1, by omega⟩
    have hfollows := start_follows hr hp hs n
    have hstuck := hsafe (n + 1)
    match Evaluation.function r (n + 1) id args, hfollows, hstuck with
    | .ok v, hv, _ =>
      obtain ⟨j, hj⟩ := hv.ends_ok
      obtain ⟨-, rfl⟩ := hends.unique hj
      exact ⟨rfl, by simp⟩
    | .error .bound, ⟨j, t, hle, hj⟩, _ =>
      -- The machine would have gone on for longer than it did.
      obtain ⟨i, heq, -⟩ := hends.after_steps hj
      omega
    | .error (.fault e), ⟨j, hj⟩, _ =>
      obtain ⟨-, rfl⟩ := hends.unique hj
      exact ⟨rfl, by simp⟩
    | .error .stuck, _, hstuck => exact (hstuck rfl).elim
  exact ⟨(hall (k + 2) (by omega)).2, fun n hn => (hall n hn).1⟩

end

end WordLang.Flow
