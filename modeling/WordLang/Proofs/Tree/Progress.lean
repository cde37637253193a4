import WordLang.Proofs.Tree.Acceptance

/-!
# Parsing makes progress

Every parsing step leaves the last of its tokens, and notes problems of parsing only. A statement
that is asked for where a token other than a closing brace stands consumes a token, whether it can
be read or is skipped, so parsing comes to the end of every sequence of tokens. The bound on the
nesting of parsing steps is never reached: a larger one changes nothing.

## Main definitions

* `Advances`: what can change between two states of parsing
* `Parse.Agree`, `Parse.Runs`: steps that do the same, and steps that succeed
* `Parse.Skipped`: where skipping a statement stops

## Main results

* `Parse.agreeExprs`, `Parse.agreeStmts`: bounds on the nesting that are never reached
* `Parse.statement_runs`, `Parse.items_runs`: statements and source texts are always read
-/

namespace WordLang

variable {t : Shape} {σ' : ParseState} {n : Nat}

/-- Between two states of parsing at least `c` tokens were consumed, and problems of parsing were
noted. -/
structure Advances (c : Nat) (σ σ' : ParseState) : Prop where
  tokens : ∃ ts, c ≤ ts.length ∧ σ.tokens = ts ++ σ'.tokens
  problems : ∃ ds, (∀ d ∈ ds, d.stage = .parser) ∧ σ'.problems = σ.problems ++ ds

namespace Advances

variable {c d : Nat} {σ σ' σ'' : ParseState}

theorem same (htokens : σ'.tokens = σ.tokens) (hproblems : σ'.problems = σ.problems) :
    Advances 0 σ σ' :=
  ⟨⟨[], le_rfl, htokens.symm⟩, [], nofun, by rw [hproblems, List.append_nil]⟩

theorem trans (h : Advances c σ σ') (h' : Advances d σ' σ'') : Advances (c + d) σ σ'' := by
  obtain ⟨⟨ts, hts, htokens⟩, ds, hds, hproblems⟩ := h
  obtain ⟨⟨ts', hts', htokens'⟩, ds', hds', hproblems'⟩ := h'
  refine ⟨⟨ts ++ ts', ?_, ?_⟩, ds ++ ds', List.forall_mem_append.2 ⟨hds, hds'⟩, ?_⟩
  · rw [List.length_append]
    omega
  · rw [htokens, htokens', List.append_assoc]
  · rw [hproblems', hproblems, List.append_assoc]

theorem mono (h : Advances c σ σ') (hle : d ≤ c) : Advances d σ σ' :=
  ⟨h.tokens.imp fun _ hts => ⟨hle.trans hts.1, hts.2⟩, h.problems⟩

theorem length_le (h : Advances c σ σ') : σ'.tokens.length + c ≤ σ.tokens.length := by
  obtain ⟨ts, hts, htokens⟩ := h.tokens
  rw [htokens, List.length_append]
  omega

end Advances

namespace Parse

/-- Two parsing steps do the same from a state on. They consume at least `c` tokens, or stop with a
problem of parsing. -/
structure Agree {α : Type} (c : Nat) (x y : Parse α) (σ : ParseState) : Prop where
  eq : x σ = y σ
  ok : ∀ {a σ'}, x σ = .ok a σ' → Advances c σ σ'
  error : ∀ {d σ'}, x σ = .error d σ' → d.stage = .parser ∧ Advances 0 σ σ'

namespace Agree

variable {α β : Type} {a c : Nat} {x y : Parse α} {k k' : α → Parse β} {σ : ParseState}

theorem of_ok {v : α} (hx : x σ = .ok v σ') (hy : y σ = .ok v σ')
    (h : Advances c σ σ') : Agree c x y σ := by
  refine ⟨hx.trans hy.symm, fun hv => ?_, fun hd => ?_⟩
  · cases hx.symm.trans hv
    exact h
  · cases hx.symm.trans hd

theorem pure {v : α} : Agree 0 (Pure.pure v) (Pure.pure v) σ := of_ok rfl rfl (.same rfl rfl)

theorem modify {f : ParseState → α × ParseState} (h : Advances c σ (f σ).2) :
    Agree c (modifyGet f) (modifyGet f) σ := of_ok rfl rfl h

theorem unexpected (expected : Expected) :
    Agree c (Parse.unexpected expected : Parse α) (Parse.unexpected expected) σ := by
  refine ⟨rfl, fun h => ?_, fun h => ?_⟩
  · cases h
  · cases h
    exact ⟨rfl, .same rfl rfl⟩

/-- Steps that go on as others do, after tokens were consumed. -/
theorem after {z w : Parse β} {u v : Parse β} (hgoes : Advances a σ σ')
    (h : Agree (c - a) z w σ') (hu : u σ = z σ') (hv : v σ = w σ') : Agree c u v σ :=
  ⟨by rw [hu, hv, h.eq], fun hr => (hgoes.trans (h.ok (hu ▸ hr))).mono (by omega), fun hr =>
    ⟨(h.error (hu ▸ hr)).1, (hgoes.trans (h.error (hu ▸ hr)).2).mono (Nat.zero_le _)⟩⟩

theorem bind (hx : Agree a x y σ)
    (hk : ∀ v σ', Advances a σ σ' → Agree (c - a) (k v) (k' v) σ') : Agree c (x >>= k) (y >>= k') σ := by
  cases hrun : x σ with
  | ok v σ' =>
    have hgoes := hx.ok hrun
    exact .after hgoes (hk v σ' hgoes) (run_bind_of_eq_ok hrun k)
      (run_bind_of_eq_ok (hx.eq ▸ hrun) k')
  | error d σ' =>
    have hleft : (x >>= k) σ = .error d σ' := by
      change EStateM.bind x k σ = _
      rw [EStateM.bind, hrun]
    have hright : (y >>= k') σ = .error d σ' := by
      change EStateM.bind y k' σ = _
      rw [EStateM.bind, ← hx.eq, hrun]
    refine ⟨hleft.trans hright.symm, fun h => ?_, fun h => ?_⟩
    · cases hleft.symm.trans h
    · cases hleft.symm.trans h
      exact hx.error hrun

theorem mono (h : Agree c x y σ) (hle : a ≤ c) : Agree a x y σ :=
  ⟨h.eq, fun hr => (h.ok hr).mono hle, h.error⟩

theorem left (h : Agree c x y σ) : Agree c x x σ := ⟨rfl, h.ok, h.error⟩

theorem map {f : α → β} (hx : Agree c x y σ) : Agree c (f <$> x) (f <$> y) σ :=
  hx.bind fun _ _ _ => by
    rw [Nat.sub_self]
    exact .pure

theorem look {P : α → Prop} (hx : Yields x σ fun v σ' => σ' = σ ∧ P v)
    (hk : ∀ v, P v → Agree c (k v) (k' v) σ) : Agree c (x >>= k) (x >>= k') σ := by
  obtain ⟨v, _, hrun, rfl, hv⟩ := hx.exists_ok
  exact .after (.same rfl rfl) (hk v hv) (run_bind_of_eq_ok hrun k) (run_bind_of_eq_ok hrun k')

theorem get {k k' : ParseState → Parse β} (h : Agree c (k σ) (k' σ) σ) :
    Agree c (MonadState.get >>= k) (MonadState.get >>= k') σ :=
  .after (.same rfl rfl) h (run_get_bind k σ) (run_get_bind k' σ)

theorem line {k k' : Nat → Parse β} (hk : ∀ line, Agree c (k line) (k' line) σ) :
    Agree c (peekLine >>= k) (peekLine >>= k') σ :=
  .after (.same rfl rfl) (hk _) (run_bind_of_eq_ok rfl k) (run_bind_of_eq_ok rfl k')

theorem either {b : Bool} {x' y' : Parse α} (hx : Agree 0 x y σ) (hx' : Agree 0 x' y' σ)
    (hk : ∀ v σ', Advances 0 σ σ' → Agree c (k v) (k' v) σ') :
    Agree c (if b = true then x >>= k else x' >>= k) (if b = true then y >>= k' else y' >>= k') σ := by
  cases b with
  | true => exact hx.bind hk
  | false => exact hx'.bind hk

theorem fresh {f : ParseState → Tag × ParseState} {g : Tag → β} (h : Advances 0 σ (f σ).2) :
    Agree 0 (modifyGet f >>= fun tag => Pure.pure (g tag)) (modifyGet f >>= fun tag => Pure.pure (g tag))
      σ :=
  (modify h).bind fun _ _ _ => .pure

end Agree

variable {β : Type} {c : Nat} {σ : ParseState}

/-! ## Single tokens -/

theorem advance_agree (h : σ.shapes.head? = some t) : Agree 1 advance advance σ := by
  rw [ParseState.shapes, List.head?_map, Option.map_eq_some_iff] at h
  obtain ⟨token, htoken, -⟩ := h
  have htokens : σ.tokens = [token] ++ σ.tokens.tail := (List.cons_head?_tail htoken).symm
  exact .modify ⟨⟨[token], le_rfl, htokens⟩, [], List.forall_mem_nil _, (List.append_nil _).symm⟩

theorem Agree.eat {k k' : Bool → Parse β}
    (htrue : ∀ σ', Advances 1 σ σ' → Agree (c - 1) (k true) (k' true) σ')
    (hfalse : Agree c (k false) (k' false) σ) : Agree c (eat t >>= k) (eat t >>= k') σ := by
  obtain ⟨b, _, hrun, rfl, hb⟩ := (@isNext_yields σ t).exists_ok
  have heat := run_bind_of_eq_ok hrun fun b => if b = true then do advance; return true else return false
  cases b with
  | false => exact .after (.same rfl rfl) hfalse (run_bind_of_eq_ok heat k) (run_bind_of_eq_ok heat k')
  | true =>
    have hgoes := (advance_agree (hb.1 rfl)).ok rfl
    exact .after hgoes (htrue _ hgoes) (run_bind_of_eq_ok heat k) (run_bind_of_eq_ok heat k')

theorem eat_agree : Agree 0 (eat t) (eat t) σ := by
  refine .look (isNext_yields t) fun b hb => ?_
  cases b with
  | true => exact ((advance_agree (hb.1 rfl)).mono (Nat.zero_le _)).bind fun _ _ _ => .pure
  | false => exact .pure

theorem expect_agree {expected : Expected} : Agree 1 (expect t expected) (expect t expected) σ :=
  .line fun _ => .eat (fun _ _ => .pure) (.unexpected _)

theorem expectIdent_agree : Agree 1 expectIdent expectIdent σ := by
  refine .get ?_
  split
  · next name span line rest htokens =>
    have hhead : σ.shapes.head? = some (.identifier name) := by
      rw [ParseState.shapes, htokens]
      rfl
    exact (advance_agree hhead).bind fun _ _ _ => .pure
  · exact .unexpected _

/-! ## Types and expressions -/

theorem typeWithin_agree (n : Nat) (σ : ParseState) (hn : σ.tokens.length < n) :
    Agree 1 (typeWithin n) (typeWithin (n + 1)) σ := by
  induction n generalizing σ with
  | zero => cases hn
  | succ n ih =>
    refine .line fun line => .look peek_yields fun shape hshape => ?_
    rcases shape with _ | keyword | name | value | text | symbol
    · exact .unexpected _
    · exact .unexpected _
    · exact expectIdent_agree.bind fun _ _ _ => .fresh (.same rfl rfl)
    · exact .unexpected _
    · exact .unexpected _
    · cases symbol with
      | star =>
        refine (advance_agree hshape.symm).bind fun _ σ₁ h₁ => ?_
        have hle := h₁.length_le
        refine ((ih σ₁ (by omega)).bind fun target σ₂ _ => ?_)
        exact .fresh (.same rfl rfl)
      | _ => exact .unexpected _

theorem type_agree : Agree 1 type type σ :=
  .get (typeWithin_agree _ _ (by rw [nesting]; omega)).left

/-- What is read of expressions at a bound on the nesting that is large enough. -/
structure AgreeExprs (n : Nat) : Prop where
  binary : ∀ level σ, 12 * σ.tokens.length + level.cost < n →
    Agree 1 (binaryWithin n level) (binaryWithin (n + 1) level) σ
  operand : ∀ level σ, 12 * σ.tokens.length + level.cost ≤ n →
    Agree 1 (operandWithin n level) (operandWithin (n + 1) level) σ
  operators : ∀ level lhs σ, 12 * σ.tokens.length < n →
    Agree 0 (operatorsWithin n level lhs) (operatorsWithin (n + 1) level lhs) σ
  prefixed : ∀ σ, 12 * σ.tokens.length + 2 ≤ n → Agree 1 (prefixWithin n) (prefixWithin (n + 1)) σ
  calls : ∀ callee σ, 12 * σ.tokens.length + 2 ≤ n →
    Agree 0 (callsWithin n callee) (callsWithin (n + 1) callee) σ
  arguments : ∀ σ, 12 * σ.tokens.length < n → Agree 1 (argumentsWithin n) (argumentsWithin (n + 1)) σ
  argumentList : ∀ σ, 12 * σ.tokens.length + 11 ≤ n →
    Agree 0 (argumentListWithin n) (argumentListWithin (n + 1)) σ
  atom : ∀ σ, 12 * σ.tokens.length < n → Agree 1 (atomWithin n) (atomWithin (n + 1)) σ

/-- The bound on the nesting of expressions is not reached: where a step calls another one without
having consumed a token, the other one needs less. -/
theorem agreeExprs (n : Nat) : AgreeExprs n := by
  induction n with
  | zero =>
    have hcost : ∀ l : Level, 0 < l.cost := fun l => by cases l <;> decide
    refine ⟨?_, fun l σ hn => by have := hcost l; omega, ?_, ?_, ?_, ?_, ?_, ?_⟩ <;> intros <;> omega
  | succ n h =>
    -- A step calls others after a token, or with a smaller constant in their bounds.
    refine ⟨fun level σ hn => ?_, fun level σ hn => ?_, fun level lhs σ hn => ?_, fun σ hn => ?_,
      fun callee σ hn => ?_, fun σ hn => ?_, fun σ hn => ?_, fun σ hn => ?_⟩
    · refine (h.operand level σ (by omega)).bind fun lhs σ₁ h₁ => ?_
      have hle := h₁.length_le
      exact h.operators level lhs σ₁ (by omega)
    · simp only [Level.cost] at hn
      cases level with
      | multiplicative => exact h.prefixed σ (by simp only [Level.rank] at hn; omega)
      | _ => exact h.binary _ σ (by simp only [Level.cost, Level.rank] at hn ⊢; omega)
    · refine .look (peekOperator_yields level) fun op hop => ?_
      cases op with
      | none => exact .pure
      | some op =>
        obtain ⟨s, hhead, -⟩ := operatorAt_eq_some hop.symm
        have hcost : level.cost ≤ 9 := Nat.sub_le _ _
        refine (advance_agree hhead).bind fun _ σ₁ h₁ => ?_
        have hle₁ := h₁.length_le
        refine (h.operand level σ₁ (by omega)).bind fun rhs σ₂ h₂ => ?_
        have hle₂ := h₂.length_le
        exact (Agree.modify (.same rfl rfl)).bind fun tag σ₃ h₃ => h.operators level _ σ₃ (by
          have hle₃ := h₃.length_le
          omega)
    · refine .look peekPrefixOperator_yields fun op hop => ?_
      cases op with
      | none =>
        refine (h.atom σ (by omega)).bind fun callee σ₁ h₁ => ?_
        have hle := h₁.length_le
        exact h.calls callee σ₁ (by omega)
      | some op =>
        obtain ⟨s, hhead, -⟩ := prefixOperatorAt_eq_some hop.symm
        refine .line fun line => (advance_agree hhead).bind fun _ σ₁ h₁ => ?_
        have hle := h₁.length_le
        exact (h.prefixed σ₁ (by omega)).bind fun _ _ _ => .fresh (.same rfl rfl)
    · refine .look (isNext_yields _) fun found _ => ?_
      cases found with
      | false => exact .pure
      | true =>
        refine (h.arguments σ (by omega)).bind fun args σ₁ h₁ => ?_
        have hle₁ := h₁.length_le
        exact (Agree.modify (.same rfl rfl)).bind fun tag σ₂ h₂ => h.calls _ σ₂ (by
          have hle₂ := h₂.length_le
          omega)
    · refine expect_agree.bind fun _ σ₁ h₁ => ?_
      have hle := h₁.length_le
      exact (h.argumentList σ₁ (by omega)).bind fun _ _ _ => expect_agree.bind fun _ _ _ => .pure
    · refine .look (isNext_yields _) fun found _ => ?_
      cases found with
      | true => exact .pure
      | false =>
        refine (h.binary .relational σ (by simp only [Level.cost, Level.rank]; omega)).bind
          fun arg σ₁ h₁ => .eat (fun σ₂ h₂ => ?_) .pure
        have hle := (h₁.trans h₂).length_le
        exact (h.argumentList σ₂ (by omega)).bind fun _ _ _ => .pure
    · refine .line fun line => .look peek_yields fun shape hshape => ?_
      rcases shape with _ | keyword | name | value | text | symbol
      · exact .unexpected _
      · exact .unexpected _
      · exact expectIdent_agree.bind fun _ _ _ => .fresh (.same rfl rfl)
      · exact (advance_agree hshape.symm).bind fun _ _ _ => .fresh (.same rfl rfl)
      · exact (advance_agree hshape.symm).bind fun _ _ _ => .fresh (.same rfl rfl)
      · cases symbol with
        | openParen =>
          refine (advance_agree hshape.symm).bind fun _ σ₁ h₁ => ?_
          have hle := h₁.length_le
          refine (h.binary .relational σ₁ (by simp only [Level.cost, Level.rank]; omega)).bind
            fun _ _ _ => expect_agree.bind fun _ _ _ => .pure
        | _ => exact .unexpected _

theorem expression_agree : Agree 1 expression expression σ :=
  .get ((agreeExprs _).binary _ _ (by simp only [nesting, Level.cost, Level.rank]; omega)).left

theorem callArguments_agree : Agree 1 callArguments callArguments σ :=
  .get ((agreeExprs _).arguments _ (by rw [nesting]; omega)).left

/-! ## Statements -/

theorem attributesWithin_agree (n : Nat) (σ : ParseState) (hn : σ.tokens.length < n) :
    Agree 0 (attributesWithin n) (attributesWithin (n + 1)) σ := by
  induction n generalizing σ with
  | zero => cases hn
  | succ n ih =>
    refine .line fun line => .eat (fun σ₁ h₁ => ?_) .pure
    refine expect_agree.bind fun _ σ₂ h₂ => expectIdent_agree.bind fun ident σ₃ h₃ => ?_
    refine .look (isNext_yields _) fun opened _ => ?_
    refine .either (callArguments_agree.mono (Nat.zero_le _)) .pure fun args σ₄ h₄ => ?_
    refine expect_agree.bind fun _ σ₅ h₅ => ?_
    have hle := ((((h₁.trans h₂).trans h₃).trans h₄).trans h₅).length_le
    exact (ih σ₅ (by omega)).bind fun _ _ _ => .pure

theorem attributes_agree : Agree 0 attributes attributes σ :=
  .get (attributesWithin_agree _ _ (by rw [nesting]; omega)).left

theorem paramsWithin_agree (n : Nat) (σ : ParseState) (hn : σ.tokens.length < n) :
    Agree 0 (paramsWithin n) (paramsWithin (n + 1)) σ := by
  induction n generalizing σ with
  | zero => cases hn
  | succ n ih =>
    refine .look (isNext_yields _) fun closed _ => ?_
    cases closed with
    | true => exact .pure
    | false =>
      refine .line fun line => expectIdent_agree.bind fun ident σ₁ h₁ => ?_
      refine expect_agree.bind fun _ σ₂ h₂ => type_agree.bind fun type σ₃ h₃ => ?_
      refine .eat (fun σ₄ h₄ => ?_) .pure
      have hle := (((h₁.trans h₂).trans h₃).trans h₄).length_le
      exact (ih σ₄ (by omega)).bind fun _ _ _ => .pure

theorem params_agree : Agree 1 params params σ := by
  refine expect_agree.bind fun _ σ₁ _ => ?_
  exact .get ((paramsWithin_agree _ _ (by rw [nesting]; omega)).left.bind fun _ _ _ =>
    expect_agree.bind fun _ _ _ => .pure)

theorem resultType_agree (line : Nat) : Agree 0 (resultType line) (resultType line) σ :=
  .eat (fun _ _ => type_agree.mono (Nat.zero_le _)) (.fresh (.same rfl rfl))

theorem declaration_agree : Agree 1 declaration declaration σ := by
  refine expect_agree.bind fun _ _ _ => expectIdent_agree.bind fun _ _ _ => ?_
  refine eat_agree.bind fun _ _ _ => ?_
  refine .either (type_agree.mono (Nat.zero_le _)).map .pure fun _ _ _ => ?_
  refine eat_agree.bind fun _ _ _ => ?_
  refine .either (expression_agree.mono (Nat.zero_le _)).map .pure fun _ _ _ => ?_
  exact expect_agree.bind fun _ _ _ => .pure

theorem returnStatement_agree : Agree 1 returnStatement returnStatement σ := by
  refine expect_agree.bind fun _ _ _ => .look (isNext_yields _) fun _ _ => ?_
  refine .either .pure (expression_agree.mono (Nat.zero_le _)).map fun _ _ _ => ?_
  exact expect_agree.bind fun _ _ _ => .pure

theorem breakStatement_agree : Agree 1 breakStatement breakStatement σ :=
  expect_agree.bind fun _ _ _ => expect_agree.bind fun _ _ _ => .pure

theorem simpleStatement_agree : Agree 1 simpleStatement simpleStatement σ := by
  refine expression_agree.bind fun _ _ _ => .eat (fun _ _ => ?_) ?_
  · exact expression_agree.bind fun _ _ _ => expect_agree.bind fun _ _ _ => .pure
  · exact expect_agree.bind fun _ _ _ => .pure

/-! ## Skipping -/

def depthAfter (depth : Nat) (t : Token) : Nat :=
  if t.shape = .symbol .openBrace then depth + 1
  else if t.shape = .symbol .closeBrace then depth - 1 else depth

/-- None of the tokens, which start `depth` braces deep, ends the statement that they are in. -/
def Inside : Nat → List Token → Prop
  | _, [] => True
  | depth, t :: ts =>
    (depth = 0 → t.shape ≠ .symbol .semicolon ∧ t.shape ≠ .symbol .closeBrace) ∧
      Inside (depthAfter depth t) ts

/-- What is left of tokens when the statement that they are in is skipped. -/
inductive Skipped (depth : Nat) : List Token → List Token → Prop where
  /-- Nothing, if no token ends the statement. -/
  | finish {ts : List Token} : Inside depth ts → Skipped depth ts []
  | semicolon {ts rest : List Token} {t : Token} : Inside depth ts →
    ts.foldl depthAfter depth = 0 → t.shape = .symbol .semicolon → Skipped depth (ts ++ t :: rest) rest
  | brace {ts rest : List Token} {t : Token} : Inside depth ts → ts.foldl depthAfter depth = 0 →
    t.shape = .symbol .closeBrace → Skipped depth (ts ++ t :: rest) (t :: rest)

namespace Skipped

variable {depth depth' : Nat} {t : Token} {ts rest : List Token}

theorem cons (ht : depth = 0 → t.shape ≠ .symbol .semicolon ∧ t.shape ≠ .symbol .closeBrace)
    (hdepth : depthAfter depth t = depth') (h : Skipped depth' ts rest) :
    Skipped depth (t :: ts) rest := by
  subst hdepth
  cases h with
  | finish hin => exact .finish ⟨ht, hin⟩
  | semicolon hin hdepth hlast => exact @semicolon _ (t :: _) _ _ ⟨ht, hin⟩ hdepth hlast
  | brace hin hdepth hlast => exact @brace _ (t :: _) _ _ ⟨ht, hin⟩ hdepth hlast

theorem exists_append (h : Skipped depth ts rest) : ∃ skipped, ts = skipped ++ rest ∧
    (skipped = [] → ∀ shape ∈ (ts.map Token.shape).head?, shape = .symbol .closeBrace) := by
  cases h with
  | finish => exact ⟨ts, (List.append_nil _).symm, by rintro rfl; nofun⟩
  | @semicolon ts _ t => exact ⟨ts ++ [t], by simp, by simp⟩
  | brace _ _ hlast => exact ⟨_, rfl, by rintro rfl _ ⟨⟩; exact hlast⟩

end Skipped

theorem skipped_afterStatement (depth : Nat) (ts : List Token) :
    Skipped depth ts (afterStatement depth ts) := by
  induction ts generalizing depth with
  | nil => exact .finish trivial
  | cons t ts ih =>
    rw [afterStatement]
    split
    · next hshape =>
      split
      · next hzero => exact @Skipped.semicolon _ [] _ _ trivial hzero hshape
      · next hpos => exact .cons (fun h => absurd h hpos) (by simp [depthAfter, hshape]) (ih _)
    · next hshape =>
      split
      · next hzero => exact @Skipped.brace _ [] _ _ trivial hzero hshape
      · next hpos => exact .cons (fun h => absurd h hpos) (by simp [depthAfter, hshape]) (ih _)
    · next hshape => exact .cons (fun _ => by simp [hshape]) (if_pos hshape) (ih _)
    · next hsemicolon hclose hopen =>
      exact .cons (fun _ => ⟨hsemicolon, hclose⟩) ((if_neg hopen).trans (if_neg hclose)) (ih _)

/-! ## Statements one after another -/

/-- Two parsing steps give one result, and leave a state that satisfies `ok`. -/
def Runs {α : Type} (x y : Parse α) (σ : ParseState) (ok : ParseState → Prop) : Prop :=
  ∃ v σ', x σ = .ok v σ' ∧ y σ = .ok v σ' ∧ ok σ'

namespace Runs

variable {α : Type} {x y : Parse α} {k k' : α → Parse β} {ok : ParseState → Prop}

theorem after {z w : Parse α} (h : Runs x y σ' ok) (hz : z σ = x σ')
    (hw : w σ = y σ') : Runs z w σ ok := by
  obtain ⟨v, σ'', hx, hy, hok⟩ := h
  exact ⟨v, σ'', hz.trans hx, hw.trans hy, hok⟩

theorem bind {mid : ParseState → Prop} (hx : Runs x y σ mid)
    (hk : ∀ v σ', mid σ' → Runs (k v) (k' v) σ' ok) : Runs (x >>= k) (y >>= k') σ ok := by
  obtain ⟨v, σ', hx, hy, hmid⟩ := hx
  exact (hk v σ' hmid).after (run_bind_of_eq_ok hx k) (run_bind_of_eq_ok hy k')

theorem right (h : Runs x y σ ok) : Runs y y σ ok := by
  obtain ⟨v, σ', -, hy, hok⟩ := h
  exact ⟨v, σ', hy, hy, hok⟩

theorem agree (h : Runs x y σ (Advances c σ)) : Agree c x y σ := by
  obtain ⟨v, σ', hx, hy, hgoes⟩ := h
  exact .of_ok hx hy hgoes

end Runs

end Parse

/-- A token other than a closing brace is next. -/
def ParseState.AtStatement (σ : ParseState) : Prop :=
  ∃ shape ∈ σ.shapes.head?, shape ≠ .symbol .closeBrace

namespace Parse

theorem statementWithin_runs (hσ : σ.AtStatement)
    (h : Agree 1 (untaggedWithin n) (untaggedWithin (n + 1)) σ) :
    Runs (statementWithin (n + 1)) (statementWithin (n + 2)) σ (Advances 1 σ) := by
  have hrun : ∀ v σ', statementWithin (n + 1) σ = .ok v σ' → Advances 1 σ σ' →
      Runs (statementWithin (n + 1)) (statementWithin (n + 2)) σ (Advances 1 σ) :=
    fun v σ' hx hgoes => ⟨v, σ', hx, by rw [run_statementWithin, ← h.eq, ← run_statementWithin, hx], hgoes⟩
  cases hu : untaggedWithin n σ with
  | ok f σ₁ =>
    refine hrun _ _ (by rw [run_statementWithin, hu, settle]) ?_
    exact ⟨(h.ok hu).tokens, (h.ok hu).problems⟩
  | error problem σ₁ =>
    obtain ⟨hstage, ⟨ts, -, hts⟩, ds, hds, hproblems⟩ := h.error hu
    obtain ⟨skipped, hskipped, hnone⟩ := (skipped_afterStatement 0 σ₁.tokens).exists_append
    refine hrun _ _ (by rw [run_statementWithin, hu, settle]) ⟨⟨ts ++ skipped, ?_, ?_⟩, ds ++ [problem], ?_, ?_⟩
    · -- If nothing was consumed, the brace that stopped the skipping would be the next token.
      rw [Nat.one_le_iff_ne_zero, Ne, List.length_eq_zero_iff, List.append_eq_nil_iff]
      rintro ⟨rfl, hnil⟩
      obtain ⟨shape, hshape, hne⟩ := hσ
      exact hne (hnone hnil shape (by rwa [← List.nil_append σ₁.tokens, ← hts]))
    · rw [List.append_assoc, hts]
      exact congrArg _ hskipped
    · rw [List.forall_mem_append, List.forall_mem_singleton]
      exact ⟨hds, hstage⟩
    · rw [← List.append_assoc, ← hproblems]

theorem run_between {α : Type} (σ : ParseState) :
    (σ.shapes.head? = none ∧ ∀ e b s : Parse α, between e b s σ = e σ) ∨
    (σ.shapes.head? = some (.symbol .closeBrace) ∧ ∀ e b s : Parse α, between e b s σ = b σ) ∨
    (σ.AtStatement ∧ ∀ e b s : Parse α, between e b s σ = s σ) := by
  obtain ⟨shape, _, hpeek, rfl, hshape⟩ := (@peek_yields σ).exists_ok
  cases shape with
  | none => exact .inl ⟨hshape.symm, fun _ _ _ => run_bind_of_eq_ok hpeek _⟩
  | some t =>
    cases t with
    | symbol s =>
      cases s with
      | closeBrace => exact .inr (.inl ⟨hshape.symm, fun _ _ _ => run_bind_of_eq_ok hpeek _⟩)
      | _ => exact .inr (.inr ⟨⟨_, hshape.symm, nofun⟩, fun _ _ _ => run_bind_of_eq_ok hpeek _⟩)
    | _ => exact .inr (.inr ⟨⟨_, hshape.symm, nofun⟩, fun _ _ _ => run_bind_of_eq_ok hpeek _⟩)

/-- Statements up to a closing brace or the end, by steps for one statement and for those after it. -/
def statementsStep (one : Parse Stmt) (rest : Parse (List Stmt)) : Parse (List Stmt) :=
  between (return []) (return []) do return (← one) :: (← rest)

/-- Statements up to the end, by steps for one statement and for those after it. -/
def itemsStep (one : Parse Stmt) (rest : Parse (List Stmt)) : Parse (List Stmt) :=
  between (return [])
    (do
      report (ParseProblem.strayBrace.onLine (← peekLine))
      advance
      rest)
    do return (← one) :: (← rest)

theorem statementsStep_agree {one one' : Parse Stmt} {rest rest' : Parse (List Stmt)}
    (hone : σ.AtStatement → Agree 1 one one' σ)
    (hrest : ∀ σ', Advances 1 σ σ' → Agree 0 rest rest' σ') :
    Agree 0 (statementsStep one rest) (statementsStep one' rest') σ := by
  obtain ⟨-, hrun⟩ | ⟨-, hrun⟩ | ⟨hσ, hrun⟩ := @run_between (List Stmt) σ
  · exact .after (.same rfl rfl) .pure (hrun _ _ _) (hrun _ _ _)
  · exact .after (.same rfl rfl) .pure (hrun _ _ _) (hrun _ _ _)
  · refine .after (.same rfl rfl) ?_ (hrun _ _ _) (hrun _ _ _)
    exact (hone hσ).bind fun _ σ₁ h₁ => (hrest σ₁ h₁).bind fun _ _ _ => .pure

theorem itemsStep_runs {one one' : Parse Stmt} {rest rest' : Parse (List Stmt)}
    (hone : σ.AtStatement → Runs one one' σ (Advances 1 σ))
    (hrest : ∀ σ', Advances 1 σ σ' → Runs rest rest' σ' fun σ'' => Advances 0 σ' σ'' ∧ σ''.tokens = []) :
    Runs (itemsStep one rest) (itemsStep one' rest') σ fun σ' => Advances 0 σ σ' ∧ σ'.tokens = [] := by
  have hgoes : ∀ σ₁, Advances 1 σ σ₁ → Runs rest rest' σ₁ fun σ' => Advances 0 σ σ' ∧ σ'.tokens = [] := by
    intro σ₁ h₁
    obtain ⟨list, σ₂, hx, hy, h₂, hend⟩ := hrest σ₁ h₁
    exact ⟨list, σ₂, hx, hy, (h₁.trans h₂).mono (Nat.zero_le _), hend⟩
  obtain ⟨hnone, hrun⟩ | ⟨hbrace, hrun⟩ | ⟨hσ, hrun⟩ := @run_between (List Stmt) σ
  · refine .after ?_ (hrun _ _ _) (hrun _ _ _)
    rw [ParseState.shapes, List.head?_eq_none_iff, List.map_eq_nil_iff] at hnone
    exact ⟨[], σ, rfl, rfl, .same rfl rfl, hnone⟩
  · refine .after ?_ (hrun _ _ _) (hrun _ _ _)
    obtain ⟨hts, -⟩ := (advance_agree hbrace).ok rfl
    exact (hgoes { σ with tokens := σ.tokens.tail, problems := σ.problems ++ [_] }
      ⟨hts, _, List.forall_mem_singleton.2 rfl, rfl⟩).after rfl rfl
  · refine .after ?_ (hrun _ _ _) (hrun _ _ _)
    exact (hone hσ).bind fun _ σ₁ h₁ => (hgoes σ₁ h₁).bind fun list σ₂ h₂ => ⟨_, σ₂, rfl, rfl, h₂⟩

/-- What is read of statements at a bound on the nesting that is large enough. -/
structure AgreeStmts (n : Nat) : Prop where
  block : ∀ σ, 12 * σ.tokens.length < n → Agree 1 (blockWithin n) (blockWithin (n + 1)) σ
  statements : ∀ σ, 12 * σ.tokens.length + 4 ≤ n →
    Agree 0 (statementsWithin n) (statementsWithin (n + 1)) σ
  statement : ∀ σ, σ.AtStatement → 12 * σ.tokens.length + 3 ≤ n →
    Runs (statementWithin n) (statementWithin (n + 1)) σ (Advances 1 σ)
  untagged : ∀ σ, 12 * σ.tokens.length + 2 ≤ n → Agree 1 (untaggedWithin n) (untaggedWithin (n + 1)) σ
  function : ∀ σ, 12 * σ.tokens.length < n → Agree 1 (functionWithin n) (functionWithin (n + 1)) σ
  choice : ∀ σ, 12 * σ.tokens.length < n → Agree 1 (choiceWithin n) (choiceWithin (n + 1)) σ
  alternative : ∀ σ, 12 * σ.tokens.length < n →
    Agree 0 (alternativeWithin n) (alternativeWithin (n + 1)) σ

theorem agreeStmts (n : Nat) : AgreeStmts n := by
  induction n with
  | zero => refine ⟨?_, ?_, ?_, ?_, ?_, ?_, ?_⟩ <;> intros <;> omega
  | succ n h =>
    refine ⟨fun σ hn => ?_, fun σ hn => ?_, fun σ hσ hn => ?_, fun σ hn => ?_, fun σ hn => ?_,
      fun σ hn => ?_, fun σ hn => ?_⟩
    · refine expect_agree.bind fun line σ₁ h₁ => ?_
      have hle := h₁.length_le
      refine (h.statements σ₁ (by omega)).bind fun _ _ _ => expect_agree.bind fun _ _ _ => ?_
      exact .fresh (.same rfl rfl)
    · refine statementsStep_agree (fun hσ => (h.statement σ hσ (by omega)).agree) fun σ₁ h₁ => ?_
      have hle := h₁.length_le
      exact h.statements σ₁ (by omega)
    · obtain _ | n := n
      · omega
      · exact statementWithin_runs hσ (h.untagged σ (by omega))
    · refine .look peek_yields fun shape hshape => ?_
      cases shape with
      | none => exact .unexpected _
      | some t =>
        cases t with
        | keyword k =>
          cases k with
          | kwFn => exact h.function σ (by omega)
          | kwLet => exact declaration_agree
          | kwLoop =>
            refine (advance_agree hshape.symm).bind fun _ σ₁ h₁ => ?_
            have hle := h₁.length_le
            exact (h.block σ₁ (by omega)).bind fun _ _ _ => .pure
          | kwWhile =>
            refine (advance_agree hshape.symm).bind fun _ σ₁ h₁ => expression_agree.bind fun _ σ₂ h₂ => ?_
            have hle := (h₁.trans h₂).length_le
            exact (h.block σ₂ (by omega)).bind fun _ _ _ => .pure
          | kwIf => exact h.choice σ (by omega)
          | kwReturn => exact returnStatement_agree
          | kwBreak => exact breakStatement_agree
          | _ => exact simpleStatement_agree
        | symbol s =>
          cases s with
          | hash => exact h.function σ (by omega)
          | _ => exact simpleStatement_agree
        | _ => exact simpleStatement_agree
    · refine attributes_agree.bind fun attrs σ₁ h₁ => .look (isNext_yields _) fun found _ => ?_
      cases found with
      | false => exact .unexpected _
      | true =>
        refine expect_agree.bind fun line σ₂ h₂ => expectIdent_agree.bind fun _ σ₃ h₃ => ?_
        refine params_agree.bind fun _ σ₄ h₄ => (resultType_agree line).bind fun _ σ₅ h₅ => ?_
        refine eat_agree.bind fun bare σ₆ h₆ => ?_
        have hle := (((((h₁.trans h₂).trans h₃).trans h₄).trans h₅).trans h₆).length_le
        exact .either .pure ((h.block σ₆ (by omega)).mono (Nat.zero_le _)).map fun _ _ _ => .pure
    · refine expect_agree.bind fun _ σ₁ h₁ => expression_agree.bind fun _ σ₂ h₂ => ?_
      have hle := (h₁.trans h₂).length_le
      refine (h.block σ₂ (by omega)).bind fun _ σ₃ h₃ => ?_
      have hle₃ := h₃.length_le
      exact (h.alternative σ₃ (by omega)).bind fun _ _ _ => .pure
    · refine .eat (fun σ₁ h₁ => .look (isNext_yields _) fun found _ => ?_) .pure
      have hle := h₁.length_le
      cases found with
      | false => exact ((h.block σ₁ (by omega)).mono (Nat.zero_le _)).map
      | true =>
        refine .line fun line => (h.choice σ₁ (by omega)).bind fun _ _ _ => ?_
        exact (Agree.modify (.same rfl rfl)).bind fun _ _ _ => .fresh (.same rfl rfl)

theorem eq_of_agree {α : Type} {f : Nat → Parse α} {b m n : Nat}
    (h : ∀ n, b ≤ n → f n σ = f (n + 1) σ) (hm : b ≤ m) (hn : b ≤ n) : f m σ = f n σ := by
  have hfix : ∀ n, b ≤ n → f n σ = f b σ := fun n hn =>
    Nat.le_induction rfl (fun n hn ih => (h n hn).symm.trans ih) n hn
  rw [hfix m hm, hfix n hn]

/-- A statement consumes a token, and the bound on the nesting does not matter to it. -/
theorem statement_runs (hσ : σ.AtStatement) (hn : 12 * σ.tokens.length + 3 ≤ n) :
    Runs (statementWithin n) statement σ (Advances 1 σ) := by
  obtain ⟨s, σ', hs, -, hgoes⟩ := (agreeStmts n).statement σ hσ hn
  refine ⟨s, σ', hs, ?_, hgoes⟩
  change statementWithin (nesting σ) σ = _
  rw [← hs]
  refine eq_of_agree (fun m hm => ?_) (by rw [nesting]; omega) hn
  exact (((agreeStmts m).statement σ hσ hm).agree).eq

theorem statementsWithin_eq (hn : 12 * σ.tokens.length + 4 ≤ n) :
    statementsWithin n σ = statementsStep statement (statementsWithin n) σ := by
  obtain _ | n := n
  · omega
  · refine (statementsStep_agree (fun hσ => ?_) fun σ₁ h₁ => ?_).eq
    · exact (statement_runs hσ (by omega)).agree
    · have hle := h₁.length_le
      exact (agreeStmts n).statements σ₁ (by omega)

/-- Statements are read to the end, and the bound on their number does not matter. -/
theorem itemsWithin_runs (m n : Nat) (σ : ParseState) (hm : σ.tokens.length < m)
    (hn : σ.tokens.length < n) : Runs (itemsWithin m) (itemsWithin n) σ fun σ' =>
      Advances 0 σ σ' ∧ σ'.tokens = [] := by
  induction m generalizing n σ with
  | zero => cases hm
  | succ m ih =>
    obtain _ | n := n
    · cases hn
    · refine itemsStep_runs (fun hσ => (statement_runs hσ le_rfl).right) fun σ₁ h₁ => ?_
      have hle := h₁.length_le
      exact ih n σ₁ (by omega) (by omega)

theorem items_runs (σ : ParseState) : Runs items (itemsStep statement items) σ fun σ' =>
    Advances 0 σ σ' ∧ σ'.tokens = [] := by
  refine Runs.after (x := itemsStep statement (itemsWithin (12 * σ.tokens.length + 11))) ?_ rfl rfl
  refine itemsStep_runs (fun hσ => (statement_runs hσ le_rfl).right) fun σ₁ h₁ => ?_
  have hle := h₁.length_le
  exact (itemsWithin_runs _ (nesting σ₁) σ₁ (by omega) (by rw [nesting]; omega)).after rfl rfl

/-- However malformed the tokens are, parsing comes to their end. A statement that is asked for where
a token other than a closing brace stands consumes a token, at every bound on the nesting that
is reached, and no such bound changes what it does. -/
theorem parsing_progresses (σ : ParseState) :
    (σ.AtStatement → ∀ n, 12 * σ.tokens.length + 3 ≤ n →
      ∃ s σ', statementWithin n σ = .ok s σ' ∧ statement σ = .ok s σ' ∧ Advances 1 σ σ') ∧
    (∃ σ', synchronize σ = .ok ⟨⟩ σ' ∧ Skipped 0 σ.tokens σ'.tokens) ∧
    (∀ n, 12 * σ.tokens.length + 4 ≤ n →
      statementsWithin n σ = statementsStep statement (statementsWithin n) σ) ∧
    items σ = itemsStep statement items σ ∧
    ∃ list σ', items σ = .ok list σ' ∧ σ'.tokens = [] := by
  refine ⟨fun hσ n hn => statement_runs hσ hn, ⟨_, rfl, skipped_afterStatement 0 _⟩,
    fun n hn => statementsWithin_eq hn, ?_⟩
  obtain ⟨list, σ', hx, hy, -, hend⟩ := items_runs σ
  exact ⟨hx.trans hy.symm, list, σ', hx, hend⟩

def strayParen : ParseState where
  tokens := [⟨.symbol .closeParen, ⟨0, 1⟩, 1⟩]
  lastLine := 1

theorem parsing_progresses_strayParen : strayParen.AtStatement ∧
    ∃ s σ, statement strayParen = .ok s σ ∧ Advances 1 strayParen σ := by
  have hat : strayParen.AtStatement := ⟨.symbol .closeParen, rfl, nofun⟩
  obtain ⟨s, σ, -, hs, hσ⟩ := (parsing_progresses strayParen).1 hat _ le_rfl
  exact ⟨hat, s, σ, hs, hσ⟩

end Parse

end WordLang
