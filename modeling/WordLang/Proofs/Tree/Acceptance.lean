import WordLang.Proofs.Tree.Derivation

/-!
# What is spelled is read

Tokens that spell a tree are read as that tree, whatever comes after them, as long as it does not
carry the tree on: an operator or an opening parenthesis after an expression, an `else` after a
choice. The bound on the nesting of parsing steps is never reached.

## Main definitions

* `Level.rank`, `Level.cost`: the place of a level, and the steps from it down to an atom
* `Ahead`: the tokens that are not consumed yet
* `Grammar.Ends`: tokens that carry no expression on
* `Grammar.Phrase.Read`, `Grammar.Clause.Read`: phrases and clauses that are read

## Main results

* `Grammar.Exprs.read`, `Grammar.Stmts.read`: expressions and statements that are spelled are read
* `Module.ofSource?_iff_spells`: exactly the source texts of the grammar are read, as the trees that
  they spell
-/

namespace WordLang

variable {e : Expr} {t : Shape} {l : Level} {ts' : List Shape} {args : List Expr} {list : List Stmt}
  {params : List Param} {name : String} {s : Symbol} {b : Block}

/-- The place of a level, counted from the loosest one. -/
def Level.rank : Level → Nat
  | .relational => 0
  | .equality => 1
  | .additive => 2
  | .multiplicative => 3

def Level.cost (l : Level) : Nat := 9 - 2 * l.rank

/-- Given tokens are not consumed yet, and given problems were noted. -/
structure Ahead (problems : List Diagnostic) (σ : ParseState) (ts : List Shape) : Prop where
  shapes : σ.shapes = ts
  problems : σ.problems = problems

namespace Ahead

variable {ps : List Diagnostic} {σ σ' : ParseState} {ts rest : List Shape}

theorem after (ts : List Shape) (h : Ahead ps σ (ts ++ rest)) (htakes : Takes σ σ' ts) :
    Ahead ps σ' rest :=
  ⟨List.append_cancel_left (htakes.shapes.symm.trans h.shapes), htakes.problems.trans h.problems⟩

theorem head? (h : Ahead ps σ ts) : σ.shapes.head? = ts.head? := congrArg List.head? h.shapes

theorem length (h : Ahead ps σ ts) : σ.tokens.length = ts.length := by
  rw [← h.shapes, ParseState.shapes, List.length_map]

end Ahead

namespace Parse

variable {ps : List Diagnostic} {σ : ParseState} {ts rest : List Shape} {β : Type}
  {ok : β → ParseState → Prop}

/-! ## Single tokens -/

theorem peek_bind {k : Option Shape → Parse β} (hσ : Ahead ps σ (t :: rest))
    (hk : Yields (k (some t)) σ ok) : Yields (peek >>= k) σ ok := by
  refine peek_yields.bind fun shape σ' h => ?_
  obtain ⟨rfl, rfl⟩ := h
  rwa [hσ.head?]

theorem peekLine_bind {k : Nat → Parse β} (hk : ∀ line, Yields (k line) σ ok) :
    Yields (peekLine >>= k) σ ok :=
  peekLine_yields.bind fun line _ h => h ▸ hk line

theorem advance_yields (hσ : Ahead ps σ (t :: rest)) :
    Yields advance σ fun _ σ' => Ahead ps σ' rest :=
  (advance_parsed hσ.head?).mono fun _ _ h => hσ.after [t] h.toTakes

theorem isNext_true {k : Bool → Parse β} (hσ : Ahead ps σ ts) (ht : ts.head? = some t)
    (hk : Yields (k true) σ ok) : Yields (isNext t >>= k) σ ok := by
  refine (isNext_yields t).bind fun found σ' ⟨hσ', hfound⟩ => ?_
  subst hσ'
  rwa [hfound.2 (hσ.head?.trans ht)]

theorem isNext_false {k : Bool → Parse β} (hσ : Ahead ps σ ts) (ht : ts.head? ≠ some t)
    (hk : Yields (k false) σ ok) : Yields (isNext t >>= k) σ ok := by
  refine (isNext_yields t).bind fun found σ' ⟨hσ', hfound⟩ => ?_
  subst hσ'
  rw [← hσ.head?] at ht
  rwa [Bool.eq_false_iff.2 (mt hfound.1 ht)]

theorem eat_true {k : Bool → Parse β} (hσ : Ahead ps σ (t :: rest))
    (hk : ∀ σ', Ahead ps σ' rest → Yields (k true) σ' ok) : Yields (eat t >>= k) σ ok := by
  refine (eat_parsed t).bind fun found σ' ⟨hparsed, hfound⟩ => ?_
  obtain rfl : found = true := hfound.2 hσ.head?
  exact hk σ' (hσ.after [t] hparsed.toTakes)

theorem eat_false {k : Bool → Parse β} (hσ : Ahead ps σ ts) (ht : ts.head? ≠ some t)
    (hk : ∀ σ', Ahead ps σ' ts → Yields (k false) σ' ok) : Yields (eat t >>= k) σ ok := by
  refine (eat_parsed t).bind fun found σ' ⟨hparsed, hfound⟩ => ?_
  rw [← hσ.head?] at ht
  obtain rfl : found = false := Bool.eq_false_iff.2 (mt hfound.1 ht)
  exact hk σ' (hσ.after [] hparsed.toTakes)

theorem expect_yields {expected : Expected} (hσ : Ahead ps σ (t :: rest)) :
    Yields (expect t expected) σ fun _ σ' => Ahead ps σ' rest :=
  peekLine_bind fun _ => eat_true hσ fun _ hσ' => .pure hσ'

theorem expectIdent_yields (hσ : Ahead ps σ (.identifier name :: rest)) :
    Yields expectIdent σ fun ident σ' => ident.name = name ∧ Ahead ps σ' rest := by
  obtain ⟨⟨shape, span, line⟩, tokens, htokens, hshape, -⟩ := List.map_eq_cons_iff.1 hσ.shapes
  cases hshape
  refine .get_bind ?_
  rw [htokens]
  exact (advance_yields hσ).bind fun _ _ hσ' => .pure ⟨rfl, hσ'⟩

theorem fresh_yields {f : ParseState → Tag × ParseState} (hσ : Ahead ps σ ts)
    (htokens : (f σ).2.tokens = σ.tokens) (hproblems : (f σ).2.problems = σ.problems) :
    Yields (modifyGet f) σ fun _ σ' => Ahead ps σ' ts :=
  Ensures.modifyGet ⟨(congrArg (List.map Token.shape) htokens).trans hσ.shapes,
    hproblems.trans hσ.problems⟩

theorem between_yields {atEnd atBrace x : Parse β} (hσ : Ahead ps σ (t :: rest))
    (ht : t ≠ .symbol .closeBrace) (hx : Yields x σ ok) : Yields (between atEnd atBrace x) σ ok := by
  refine peek_bind hσ ?_
  cases t with
  | symbol s =>
    cases s with
    | closeBrace => exact absurd rfl ht
    | _ => exact hx
  | _ => exact hx

/-- There are enough steps for the tokens that are left. -/
theorem le_nesting (hσ : Ahead ps σ (ts ++ rest)) : 12 * ts.length + 12 ≤ nesting σ := by
  rw [nesting, hσ.length, List.length_append]
  omega

end Parse

namespace Grammar

open Parse

/-- A step reads given tokens as a given tree, whatever follows them that satisfies a condition. -/
def Accepts {α γ : Type} (x : Parse α) (ts : List Shape) (follows : List Shape → Prop)
    (plain : α → γ) (tree : γ) : Prop :=
  ∀ {ps : List Diagnostic} {σ : ParseState} {rest : List Shape}, Ahead ps σ (ts ++ rest) →
    follows rest → Yields x σ fun a σ' => plain a = tree ∧ Ahead ps σ' rest

variable {ps : List Diagnostic} {σ : ParseState} {ts rest : List Shape} {n : Nat} {β : Type}
  {ok : β → ParseState → Prop}

/-! ## Types -/

theorem Types.read {t : TypeExpr} (h : Types t ts) (hn : ts.length ≤ n) :
    Accepts (typeWithin n) ts (fun _ => True) TypeExpr.plain t := by
  intro ps σ rest hσ _
  induction h generalizing n σ with
  | @named name =>
    obtain _ | n := n
    · cases hn
    refine peekLine_bind fun line => ?_
    refine peek_bind hσ ?_
    refine (expectIdent_yields hσ).bind fun ident σ₁ ⟨hname, hσ₁⟩ => ?_
    refine (fresh_yields hσ₁ rfl rfl).bind fun tag σ₂ hσ₂ => ?_
    refine .pure ⟨?_, hσ₂⟩
    rw [TypeExpr.plain, hname]
  | @pointer target ts _ ih =>
    obtain _ | n := n
    · cases hn
    refine peekLine_bind fun line => ?_
    refine peek_bind hσ ?_
    refine (advance_yields hσ).bind fun _ σ₁ hσ₁ => ?_
    refine (ih (Nat.le_of_succ_le_succ hn) hσ₁).bind fun target' σ₂ ⟨htarget, hσ₂⟩ => ?_
    refine (fresh_yields hσ₂ rfl rfl).bind fun tag σ₃ hσ₃ => ?_
    refine .pure ⟨?_, hσ₃⟩
    rw [TypeExpr.plain, htarget]

theorem Types.read_type {t : TypeExpr} (h : Types t ts) :
    Accepts type ts (fun _ => True) TypeExpr.plain t := by
  intro ps σ rest hσ hrest
  have hn := le_nesting hσ
  exact .get_bind (h.read (by omega) hσ hrest)

/-! ## Expressions -/

/-- Tokens that carry no expression of a level on, nor one of a tighter level: they do not start with
one of their operators or with an opening parenthesis. -/
def Ends (rank : Nat) (rest : List Shape) : Prop :=
  ∀ s, rest.head? = some (.symbol s) → s ≠ .openParen ∧ ∀ l : Level, rank ≤ l.rank → l.op? s = none

theorem Ends.mono {rank rank' : Nat} (h : Ends rank rest) (hle : rank ≤ rank') : Ends rank' rest :=
  fun s hs => ⟨(h s hs).1, fun l hl => (h s hs).2 l (Nat.le_trans hle hl)⟩

/-- An operator of a level carries on no expression of a tighter level. -/
theorem ends_operator {op : BinaryOp} (h : l.op? s = some op) :
    Ends (l.rank + 1) (.symbol s :: rest) := by
  intro s' hs'
  cases hs'
  constructor
  · rintro rfl
    cases l <;> cases h
  · intro l' hl'
    cases l <;> cases s <;> cases h <;> cases l' <;> first | rfl | (simp [Level.rank] at hl')

/-- A symbol that is no operator and does not start arguments carries on no expression. -/
theorem ends_symbol (hrest : rest.head? = some (.symbol s))
    (hs : s ∈ [.closeParen, .comma, .openBrace, .semicolon, .equals]) : Ends 0 rest := by
  intro s' hs'
  cases hrest.symm.trans hs'
  have hnone : ∀ l : Level, l.op? s = none := by
    intro l
    cases l <;> cases s <;> first | rfl | cases hs
    all_goals contradiction
  refine ⟨?_, fun l _ => hnone l⟩
  rintro rfl
  exact absurd hs (by decide)

theorem Ends.operatorAt (h : Ends l.rank rest) : operatorAt l rest = none := by
  cases hop : Parse.operatorAt l rest with
  | none => rfl
  | some op =>
    obtain ⟨s, hhead, hs⟩ := operatorAt_eq_some hop
    rw [(h s hhead).2 l (Nat.le_refl _)] at hs
    cases hs

theorem Ends.head?_ne {rank : Nat} (h : Ends rank rest) : rest.head? ≠ some (.symbol .openParen) :=
  fun hhead => (h _ hhead).1 rfl

/-- A phrase is read from given tokens. Where operators or argument lists may follow, reading comes
to the point where they are looked for. -/
def Phrase.Read : Phrase → List Shape → Prop
  | .level l e, ts => ∀ {n : Nat} {ps : List Diagnostic} {σ : ParseState} {rest : List Shape}
    {ok : Expr → ParseState → Prop}, 12 * ts.length + l.cost ≤ n → Ahead ps σ (ts ++ rest) →
    Ends (l.rank + 1) rest →
    (∀ e' m σ', e'.plain = e → Ahead ps σ' rest → n ≤ m + ts.length →
      Yields (operatorsWithin m l e') σ' ok) → Yields (binaryWithin n l) σ ok
  | .prefixed e, ts => ∀ {n : Nat}, 12 * ts.length + 1 ≤ n →
    Accepts (prefixWithin n) ts (·.head? ≠ some (.symbol .openParen)) Expr.plain e
  | .called e, ts => ∀ {n : Nat} {ps : List Diagnostic} {σ : ParseState} {rest : List Shape}
    {ok : Expr → ParseState → Prop}, 12 * ts.length + 1 ≤ n → Ahead ps σ (ts ++ rest) →
    (∀ e' m σ', e'.plain = e → Ahead ps σ' rest → n ≤ m + ts.length →
      Yields (callsWithin m e') σ' ok) → Yields (prefixWithin n) σ ok
  | .atom e, ts => ∀ {n : Nat}, 12 * ts.length ≤ n →
    Accepts (atomWithin n) ts (fun _ => True) Expr.plain e
  | .arguments args, ts => ∀ {n : Nat}, 12 * ts.length ≤ n →
    Accepts (argumentsWithin n) ts (fun _ => True) Expr.plainList args
  | .list args, ts => ∀ {n : Nat}, 12 * ts.length + 10 ≤ n →
    Accepts (argumentListWithin n) ts (·.head? = some (.symbol .closeParen))
      Expr.plainList args

theorem operators_yield (hn : 0 < n) (hσ : Ahead ps σ rest) (hends : Ends l.rank rest) :
    Yields (operatorsWithin n l e) σ fun e' σ' => e' = e ∧ Ahead ps σ' rest := by
  obtain _ | n := n
  · cases hn
  refine (peekOperator_yields l).bind fun op σ₁ ⟨hσ₁, hop⟩ => ?_
  subst hσ₁
  rw [hσ.shapes, hends.operatorAt] at hop
  subst hop
  exact .pure ⟨rfl, hσ⟩

theorem Phrase.Read.complete (h : (Phrase.level l e).Read ts) (hn : 12 * ts.length + l.cost ≤ n) :
    Accepts (binaryWithin n l) ts (Ends l.rank) Expr.plain e := by
  intro ps σ rest hσ hends
  refine h hn hσ (hends.mono (Nat.le_succ _)) fun e' m σ' he hσ' hm => ?_
  have hpos : 0 < l.cost := by cases l <;> decide
  refine (operators_yield (by omega) hσ' hends).mono fun e'' σ'' h => ?_
  obtain ⟨rfl, hσ''⟩ := h
  exact ⟨he, hσ''⟩

theorem Phrase.Read.operand (h : (Phrase.operand l e).Read ts)
    (hn : 12 * ts.length + l.cost ≤ n + 1) :
    Accepts (operandWithin n l) ts (Ends (l.rank + 1)) Expr.plain e := by
  intro ps σ rest hσ hends
  have hpos : 2 < l.cost := by cases l <;> decide
  obtain _ | n := n
  · omega
  have hcost : 12 * ts.length + (9 - 2 * l.rank) ≤ n + 2 := hn
  cases l with
  | relational => exact complete (l := .equality) h (by simpa [Level.cost, Level.rank] using hcost) hσ hends
  | equality => exact complete (l := .additive) h (by simpa [Level.cost, Level.rank] using hcost) hσ hends
  | additive =>
    exact complete (l := .multiplicative) h (by simpa [Level.cost, Level.rank] using hcost) hσ hends
  | multiplicative => exact h (by simpa [Level.rank] using hcost) hσ hends.head?_ne

theorem calls_yield (hn : 0 < n) (hσ : Ahead ps σ rest)
    (hrest : rest.head? ≠ some (.symbol .openParen)) :
    Yields (callsWithin n e) σ fun e' σ' => e' = e ∧ Ahead ps σ' rest := by
  obtain _ | n := n
  · cases hn
  exact isNext_false hσ hrest (.pure ⟨rfl, hσ⟩)

theorem read_operand (h : Exprs (.operand l e) ts)
    (ih : (Phrase.operand l e).Read ts) : (Phrase.level l e).Read ts := by
  intro n ps σ rest ok hn hσ hends hk
  obtain ⟨t, ts', rfl, -⟩ := h.starts (Phrase.isExpr_operand l e)
  rw [List.length_cons] at hn hk
  obtain _ | n := n
  · omega
  refine (ih.operand hn hσ hends).bind fun e' σ' ⟨he, hσ'⟩ => ?_
  exact hk e' n σ' he hσ' (by omega)

theorem read_binary {op : BinaryOp} {lhs rhs : Expr}
    (hs : l.op? s = some op) (hlhs : (Phrase.level l lhs).Read ts)
    (hrhs : (Phrase.operand l rhs).Read ts') :
    (Phrase.level l (.binary .blank op lhs rhs)).Read (ts ++ .symbol s :: ts') := by
  intro n ps σ rest ok hn hσ hends hk
  rw [List.append_assoc, List.cons_append] at hσ
  simp only [List.length_append, List.length_cons] at hn hk
  -- Reading comes to the operator, reads the right operand and looks for the next operator.
  refine hlhs (by omega) hσ (ends_operator hs) fun lhs' m σ₁ hlhs' hσ₁ hm => ?_
  obtain _ | m := m
  · omega
  refine (peekOperator_yields l).bind fun found σ₂ ⟨hσ₂, hfound⟩ => ?_
  subst hσ₂
  have hop : operatorAt l (.symbol s :: (ts' ++ rest)) = some op := hs
  rw [hσ₁.shapes, hop] at hfound
  subst hfound
  refine (advance_yields hσ₁).bind fun _ σ₃ hσ₃ => ?_
  refine (hrhs.operand (by omega) hσ₃ hends).bind fun rhs' σ₄ ⟨hrhs', hσ₄⟩ => ?_
  refine (fresh_yields hσ₄ rfl rfl).bind fun tag σ₅ hσ₅ => ?_
  refine hk _ m σ₅ ?_ hσ₅ (by omega)
  rw [Expr.plain, hlhs', hrhs']

theorem read_unary {op : UnaryOp} (hs : UnaryOp.ofSymbol? s = some op)
    (he : (Phrase.prefixed e).Read ts) :
    (Phrase.prefixed (.unary .blank op e)).Read (.symbol s :: ts) := by
  intro n hn ps σ rest hσ hrest
  rw [List.length_cons] at hn
  obtain _ | n := n
  · omega
  refine peekPrefixOperator_yields.bind fun found σ₁ ⟨hσ₁, hfound⟩ => ?_
  subst hσ₁
  have hop : prefixOperatorAt (.symbol s :: (ts ++ rest)) = some op := hs
  rw [hσ.shapes, List.cons_append, hop] at hfound
  subst hfound
  refine peekLine_bind fun line => ?_
  refine (advance_yields hσ).bind fun _ σ₂ hσ₂ => ?_
  refine (he (by omega) hσ₂ hrest).bind fun e' σ₃ ⟨he', hσ₃⟩ => ?_
  refine (fresh_yields hσ₃ rfl rfl).bind fun tag σ₄ hσ₄ => ?_
  refine .pure ⟨?_, hσ₄⟩
  rw [Expr.plain, he']

theorem read_called (h : (Phrase.called e).Read ts) : (Phrase.prefixed e).Read ts := by
  intro n hn ps σ rest hσ hrest
  refine h hn hσ fun e' m σ' he hσ' hm => ?_
  refine (calls_yield (by omega) hσ' hrest).mono fun e'' σ'' h => ?_
  obtain ⟨rfl, hσ''⟩ := h
  exact ⟨he, hσ''⟩

theorem Exprs.prefixOperatorAt (h : Exprs (.atom e) ts) : prefixOperatorAt (ts ++ rest) = none := by
  cases h <;> rfl

theorem read_atom (h : Exprs (.atom e) ts) (ih : (Phrase.atom e).Read ts) :
    (Phrase.called e).Read ts := by
  intro n ps σ rest ok hn hσ hk
  obtain ⟨t, ts', rfl, -⟩ := h.starts trivial
  obtain _ | n := n
  · omega
  refine peekPrefixOperator_yields.bind fun found σ₁ ⟨hσ₁, hfound⟩ => ?_
  subst hσ₁
  rw [hσ.shapes, h.prefixOperatorAt] at hfound
  subst hfound
  refine (ih (Nat.le_of_succ_le_succ hn) hσ trivial).bind fun e' σ' ⟨he, hσ'⟩ => ?_
  refine hk e' n σ' he hσ' ?_
  rw [List.length_cons]
  omega

theorem read_call {callee : Expr}
    (hargs : Exprs (.arguments args) ts') (hcallee : (Phrase.called callee).Read ts)
    (ih : (Phrase.arguments args).Read ts') :
    (Phrase.called (.call .blank callee args)).Read (ts ++ ts') := by
  intro n ps σ rest ok hn hσ hk
  rw [List.append_assoc] at hσ
  have hopen : (ts' ++ rest).head? = some (.symbol .openParen) ∧ 2 ≤ ts'.length := by
    cases hargs
    exact ⟨rfl, by simp⟩
  simp only [List.length_append] at hn hk
  refine hcallee (by omega) hσ fun callee' m σ₁ hcallee' hσ₁ hm => ?_
  obtain _ | m := m
  · omega
  refine isNext_true hσ₁ hopen.1 ?_
  refine (ih (by omega) hσ₁ trivial).bind fun args' σ₂ ⟨hargs', hσ₂⟩ => ?_
  refine (fresh_yields hσ₂ rfl rfl).bind fun tag σ₃ hσ₃ => ?_
  refine hk _ m σ₃ ?_ hσ₃ (by omega)
  rw [Expr.plain, hcallee', hargs']

theorem read_paren (h : (Phrase.level .relational e).Read ts) :
    (Phrase.atom e).Read (.symbol .openParen :: (ts ++ [.symbol .closeParen])) := by
  intro n hn ps σ rest hσ _
  simp only [List.length_cons, List.length_append, List.length_nil] at hn
  rw [List.cons_append, List.append_assoc, List.singleton_append] at hσ
  obtain _ | n := n
  · omega
  refine peekLine_bind fun line => ?_
  refine peek_bind hσ ?_
  refine (advance_yields hσ).bind fun _ σ₁ hσ₁ => ?_
  have hcost : 12 * ts.length + Level.relational.cost ≤ n := by
    show 12 * ts.length + 9 ≤ n
    omega
  refine (h.complete hcost hσ₁ (ends_symbol rfl (by decide))).bind fun e' σ₂ ⟨he, hσ₂⟩ => ?_
  exact (expect_yields hσ₂).bind fun _ σ₃ hσ₃ => .pure ⟨he, hσ₃⟩

theorem read_arguments (h : (Phrase.list args).Read ts) :
    (Phrase.arguments args).Read (.symbol .openParen :: (ts ++ [.symbol .closeParen])) := by
  intro n hn ps σ rest hσ _
  simp only [List.length_cons, List.length_append, List.length_nil] at hn
  rw [List.cons_append, List.append_assoc, List.singleton_append] at hσ
  obtain _ | n := n
  · omega
  refine (expect_yields hσ).bind fun _ σ₁ hσ₁ => ?_
  refine (h (by omega) hσ₁ rfl).bind fun args' σ₂ ⟨hargs, hσ₂⟩ => ?_
  exact (expect_yields hσ₂).bind fun _ σ₃ hσ₃ => .pure ⟨hargs, hσ₃⟩

theorem Exprs.head?_ne (h : Expression e ts)
    (hs : s = .closeParen ∨ s = .semicolon) : (ts ++ rest).head? ≠ some (.symbol s) := by
  obtain ⟨t, ts', rfl, ht⟩ := h.starts trivial
  rintro heq
  cases heq
  obtain rfl | rfl := hs <;> simp [StartsExpr, UnaryOp.ofSymbol?] at ht

theorem read_argument (h : Expression e ts) (ih : (Phrase.level .relational e).Read ts)
    (hn : 12 * ts.length + 9 ≤ n) (hσ : Ahead ps σ (ts ++ rest)) (hends : Ends 0 rest)
    {closed : Parse β} {k : Expr → Parse β}
    (hk : ∀ e' σ', e'.plain = e → Ahead ps σ' rest → Yields (k e') σ' ok) :
    Yields (do if ← atSymbol .closeParen then closed else do
      let e ← binaryWithin n .relational
      k e) σ ok :=
  isNext_false hσ (h.head?_ne (.inl rfl))
    ((ih.complete hn hσ hends).bind fun e' σ₁ h₁ => hk e' σ₁ h₁.1 h₁.2)

theorem read_lastArgument (h : Expression e ts)
    (ih : (Phrase.level .relational e).Read ts) : (Phrase.list [e]).Read ts := by
  intro n hn ps σ rest hσ hrest
  obtain _ | n := n
  · omega
  refine read_argument h ih (by omega) hσ (ends_symbol hrest (by decide)) fun e' σ₁ he hσ₁ => ?_
  refine eat_false hσ₁ (by rw [hrest]; simp) fun σ₂ hσ₂ => .pure ⟨?_, hσ₂⟩
  rw [Expr.plainList, Expr.plainList, he]

theorem read_moreArguments (h : Expression e ts)
    (ih : (Phrase.level .relational e).Read ts) (hargs : (Phrase.list args).Read ts') :
    (Phrase.list (e :: args)).Read (ts ++ .symbol .comma :: ts') := by
  intro n hn ps σ rest hσ hrest
  rw [List.append_assoc, List.cons_append] at hσ
  simp only [List.length_append, List.length_cons] at hn
  obtain _ | n := n
  · omega
  refine read_argument h ih (by omega) hσ (ends_symbol rfl (by decide)) fun e' σ₁ he hσ₁ => ?_
  refine eat_true hσ₁ fun σ₂ hσ₂ => ?_
  refine (hargs (by omega) hσ₂ hrest).bind fun args' σ₃ ⟨hargs', hσ₃⟩ => ?_
  refine .pure ⟨?_, hσ₃⟩
  rw [Expr.plainList, he, hargs']

theorem Exprs.read {p : Phrase} (h : Exprs p ts) : p.Read ts := by
  induction h with
  | operand h ih => exact read_operand h ih
  | binary _ hs _ hlhs hrhs => exact read_binary hs hlhs hrhs
  | unary hs _ he => exact read_unary hs he
  | called _ ih => exact read_called ih
  | atom h ih => exact read_atom h ih
  | call _ hargs hcallee ih => exact read_call hargs hcallee ih
  | name =>
    intro n hn ps σ rest hσ _
    obtain _ | n := n
    · cases hn
    refine peekLine_bind fun line => ?_
    refine peek_bind hσ ?_
    refine (expectIdent_yields hσ).bind fun ident σ₁ ⟨hname, hσ₁⟩ => ?_
    refine (fresh_yields hσ₁ rfl rfl).bind fun tag σ₂ hσ₂ => .pure ⟨?_, hσ₂⟩
    rw [Expr.plain, hname]
  | int | string =>
    intro n hn ps σ rest hσ _
    obtain _ | n := n
    · cases hn
    refine peekLine_bind fun line => ?_
    refine peek_bind hσ ?_
    refine (advance_yields hσ).bind fun _ σ₁ hσ₁ => ?_
    exact (fresh_yields hσ₁ rfl rfl).bind fun tag σ₂ hσ₂ => .pure ⟨rfl, hσ₂⟩
  | paren _ ih => exact read_paren ih
  | arguments _ ih => exact read_arguments ih
  | noArgument =>
    intro n hn ps σ rest hσ hrest
    obtain _ | n := n
    · cases hn
    exact isNext_true hσ hrest (.pure ⟨rfl, hσ⟩)
  | lastArgument h ih => exact read_lastArgument h ih
  | moreArguments h _ ih hargs => exact read_moreArguments h ih hargs

theorem Exprs.read_expression (h : Expression e ts) :
    Accepts expression ts (Ends 0) Expr.plain e := by
  intro ps σ rest hσ hends
  refine .get_bind (Phrase.Read.complete h.read ?_ hσ hends)
  have hn := le_nesting hσ
  show 12 * ts.length + 9 ≤ nesting σ
  omega

/-! ## Parts of functions -/

theorem AttrArgs.read (h : AttrArgs args ts)
    (hσ : Ahead ps σ (ts ++ .symbol .closeBracket :: rest)) {k : List Expr → Parse β}
    (hk : ∀ args' σ', Expr.plainList args' = args → Ahead ps σ' (.symbol .closeBracket :: rest) →
    Yields (k args') σ' ok) : Yields (do
      let args ← if ← atSymbol .openParen then callArguments else pure []
      k args) σ ok := by
  cases h with
  | absent => exact isNext_false hσ (by simp) (hk [] σ rfl hσ)
  | present h =>
    have hopen : (ts ++ .symbol .closeBracket :: rest).head? = some (.symbol .openParen) := by
      cases h
      rfl
    refine isNext_true hσ hopen ?_
    have hn := le_nesting hσ
    have hargs : Yields callArguments σ _ := .get_bind (h.read (by omega) hσ trivial)
    exact hargs.bind fun args' σ₁ ⟨hargs', hσ₁⟩ => hk args' σ₁ hargs' hσ₁

theorem Attrs.read {attrs : List Attr} (h : Attrs attrs ts) (hn : ts.length < n) :
    Accepts (attributesWithin n) ts (·.head? ≠ some (.symbol .hash)) (List.map Attr.plain) attrs := by
  intro ps σ rest hσ hrest
  induction h generalizing n σ with
  | nil =>
    obtain _ | n := n
    · cases hn
    refine peekLine_bind fun line => ?_
    exact eat_false hσ hrest fun σ₁ hσ₁ => .pure ⟨rfl, hσ₁⟩
  | @cons name args attrs ts ts' hargs _ ih =>
    simp only [List.length_cons, List.length_append] at hn
    simp only [List.cons_append, List.append_assoc] at hσ
    obtain _ | n := n
    · cases hn
    refine peekLine_bind fun line => ?_
    refine eat_true hσ fun σ₁ hσ₁ => ?_
    refine (expect_yields hσ₁).bind fun _ σ₂ hσ₂ => ?_
    refine (expectIdent_yields hσ₂).bind fun ident σ₃ ⟨hname, hσ₃⟩ => ?_
    refine hargs.read hσ₃ fun args' σ₄ hargs' hσ₄ => ?_
    refine (expect_yields hσ₄).bind fun _ σ₅ hσ₅ => ?_
    refine (ih (by omega) hσ₅).bind fun attrs' σ₆ ⟨hattrs', hσ₆⟩ => ?_
    refine .pure ⟨?_, hσ₆⟩
    rw [List.map_cons, hattrs', Attr.plain, hname, hargs']

theorem read_param {type : TypeExpr} (h : Types type ts)
    (hσ : Ahead ps σ (.identifier name :: .symbol .colon :: (ts ++ rest))) {closed : Parse β}
    {k : Nat → Ident → TypeExpr → Parse β}
    (hk : ∀ line ident type' σ', Param.plain ⟨ident, line, type'⟩ = ⟨.bare name, 0, type⟩ →
    Ahead ps σ' rest → Yields (k line ident type') σ' ok) :
    Yields (do if ← atSymbol .closeParen then closed else do
      let line ← peekLine
      let ident ← expectIdent
      let _ ← expectSymbol .colon
      let type ← Parse.type
      k line ident type) σ ok := by
  refine isNext_false hσ (by simp) ?_
  refine peekLine_bind fun line => ?_
  refine (expectIdent_yields hσ).bind fun ident σ₁ ⟨hname, hσ₁⟩ => ?_
  refine (expect_yields hσ₁).bind fun _ σ₂ hσ₂ => ?_
  refine (h.read_type hσ₂ trivial).bind fun type' σ₃ ⟨htype, hσ₃⟩ => hk _ _ _ σ₃ ?_ hσ₃
  rw [Param.plain, hname, htype]

theorem Params.read (h : Params params ts) (hn : ts.length < n) :
    Accepts (paramsWithin n) ts (·.head? = some (.symbol .closeParen)) (List.map Param.plain) params := by
  intro ps σ rest hσ hrest
  induction h generalizing n σ with
  | nil =>
    obtain _ | n := n
    · cases hn
    exact isNext_true hσ hrest (.pure ⟨rfl, hσ⟩)
  | @last name type ts htype =>
    obtain _ | n := n
    · cases hn
    refine read_param htype hσ fun line ident type' σ₁ hparam hσ₁ => ?_
    refine eat_false hσ₁ (by rw [hrest]; simp) fun σ₂ hσ₂ => .pure ⟨?_, hσ₂⟩
    rw [List.map_singleton, hparam]
  | @more name type params ts ts' htype _ ih =>
    simp only [List.length_cons, List.length_append] at hn
    simp only [List.cons_append, List.append_assoc] at hσ
    obtain _ | n := n
    · cases hn
    refine read_param htype hσ fun line ident type' σ₁ hparam hσ₁ => ?_
    refine eat_true hσ₁ fun σ₂ hσ₂ => ?_
    refine (ih (by omega) hσ₂).bind fun params' σ₃ ⟨hparams, hσ₃⟩ => .pure ⟨?_, hσ₃⟩
    rw [List.map_cons, hparams, hparam]

theorem Params.read_params (h : Params params ts)
    (hσ : Ahead ps σ (.symbol .openParen :: (ts ++ .symbol .closeParen :: rest))) :
    Yields Parse.params σ fun params' σ' => params'.map Param.plain = params ∧ Ahead ps σ' rest := by
  refine (expect_yields hσ).bind fun _ σ₁ hσ₁ => ?_
  have hn := le_nesting hσ₁
  refine .get_bind ((h.read (by omega) hσ₁ rfl).bind fun params' σ₂ ⟨hparams, hσ₂⟩ => ?_)
  exact (expect_yields hσ₂).bind fun _ σ₃ hσ₃ => .pure ⟨hparams, hσ₃⟩

theorem Result.read {t : TypeExpr} (h : Result t ts) (line : Nat) :
    Accepts (resultType line) ts (·.head? ≠ some (.symbol .arrow)) TypeExpr.plain t := by
  intro ps σ rest hσ hrest
  cases h with
  | absent =>
    refine eat_false hσ hrest fun σ₁ hσ₁ => ?_
    exact (fresh_yields hσ₁ rfl rfl).bind fun tag σ₂ hσ₂ => .pure ⟨rfl, hσ₂⟩
  | present h => exact eat_true hσ fun σ₁ hσ₁ => h.read_type hσ₁ trivial

/-! ## Statements -/

/-- What does not carry a choice on. -/
def NoElse (rest : List Shape) : Prop := rest.head? ≠ some (.keyword .kwElse)

/-- A step reads given tokens as a given statement, before it gets its tag. -/
def AcceptsUntagged (x : Parse (Tag → Stmt)) (ts : List Shape) (s : Stmt) : Prop :=
  ∀ {ps : List Diagnostic} {σ : ParseState} {rest : List Shape}, Ahead ps σ (ts ++ rest) →
    NoElse rest → Yields x σ fun f σ' => (∀ tag, (f tag).plain = s) ∧ Ahead ps σ' rest

/-- A statement is read from given tokens, before it gets its tag. -/
def Untagged (s : Stmt) (ts : List Shape) : Prop :=
  ∀ {n : Nat}, 12 * ts.length + 1 ≤ n → AcceptsUntagged (untaggedWithin n) ts s

/-- A clause is read from given tokens. -/
def Clause.Read : Clause → List Shape → Prop
  | .statement s, ts => Untagged s ts
  | .choice s, ts => ∀ {n : Nat}, 12 * ts.length ≤ n → AcceptsUntagged (choiceWithin n) ts s
  | .alternative b, ts => ∀ {n : Nat}, 12 * ts.length + 1 ≤ n →
    Accepts (alternativeWithin n) ts NoElse Block.plainOption b
  | .body b, ts => ∀ {n : Nat} {ps : List Diagnostic} {σ : ParseState} {rest : List Shape} {β : Type}
    {k : Option Block → Parse β} {ok : β → ParseState → Prop}, 12 * ts.length ≤ n →
    Ahead ps σ (ts ++ rest) →
    (∀ b' σ', Block.plainOption b' = b → Ahead ps σ' rest → Yields (k b') σ' ok) →
    Yields (do
      let body ← if ← eatSymbol .semicolon then pure none else some <$> blockWithin n
      k body) σ ok
  | .block b, ts => ∀ {n : Nat}, 12 * ts.length ≤ n →
    Accepts (blockWithin n) ts (fun _ => True) Block.plain b
  | .statements list, ts => ∀ {n : Nat}, 12 * ts.length + 3 ≤ n →
    Accepts (statementsWithin n) ts (·.head? = some (.symbol .closeBrace)) Stmt.plainList list

/-- A statement that is read gets its tag; no problem is noted. -/
theorem Untagged.tagged {s : Stmt} (h : Untagged s ts) (hn : 12 * ts.length + 2 ≤ n) :
    Accepts (statementWithin n) ts NoElse Stmt.plain s := by
  intro ps σ rest hσ hrest
  obtain _ | n := n
  · omega
  obtain ⟨f, σ₁, hrun, hf, hσ₁⟩ := (h (Nat.le_of_succ_le_succ hn) hσ hrest).exists_ok
  refine Ensures.of_ok ((run_statementWithin n σ).trans (congrArg _ hrun)) ⟨hf _, ?_⟩
  exact ⟨hσ₁.shapes, hσ₁.problems⟩

/-- A block starts with a brace, so it carries on no expression. -/
theorem Stmts.ends_block (h : Stmts (.block b) ts) : Ends 0 (ts ++ rest) := by
  cases h
  exact ends_symbol rfl (by decide)

theorem CellType.read {type : Option TypeExpr} (h : CellType type ts) (hσ : Ahead ps σ (ts ++ rest))
    (hrest : rest.head? ≠ some (.symbol .colon)) {k : Option TypeExpr → Parse β}
    (hk : ∀ type' σ', type'.map TypeExpr.plain = type → Ahead ps σ' rest → Yields (k type') σ' ok) :
    Yields (do
      let type ← if ← eatSymbol .colon then some <$> Parse.type else pure none
      k type) σ ok := by
  cases h with
  | absent => exact eat_false hσ hrest fun σ₁ => hk none σ₁ rfl
  | present h =>
    refine eat_true hσ fun σ₁ hσ₁ => ?_
    refine (h.read_type hσ₁ trivial).map_bind fun type' σ₂ ⟨htype, hσ₂⟩ => ?_
    exact hk _ σ₂ (congrArg some htype) hσ₂

theorem CellValue.read {value : Option Expr} (h : CellValue value ts)
    (hσ : Ahead ps σ (ts ++ .symbol .semicolon :: rest)) {k : Option Expr → Parse β}
    (hk : ∀ value' σ', value'.map Expr.plain = value → Ahead ps σ' (.symbol .semicolon :: rest) →
      Yields (k value') σ' ok) :
    Yields (do
      let value ← if ← eatSymbol .equals then some <$> expression else pure none
      k value) σ ok := by
  cases h with
  | absent => exact eat_false hσ (by simp) fun σ₁ => hk none σ₁ rfl
  | present h =>
    refine eat_true hσ fun σ₁ hσ₁ => ?_
    refine (h.read_expression hσ₁ (ends_symbol rfl (by decide))).map_bind fun e' σ₂ ⟨he, hσ₂⟩ => ?_
    exact hk _ σ₂ (congrArg some he) hσ₂

theorem read_declare {type : Option TypeExpr} {value : Option Expr}
    {vs : List Shape} (htype : CellType type ts) (hvalue : CellValue value vs) :
    Untagged (.declare .blank (.bare name) type value)
      (.keyword .kwLet :: .identifier name :: (ts ++ (vs ++ [.symbol .semicolon]))) := by
  intro n hn ps σ rest hσ _
  obtain _ | n := n
  · omega
  simp only [List.cons_append, List.append_assoc, List.nil_append] at hσ
  refine peek_bind hσ ?_
  refine (expect_yields hσ).bind fun _ σ₁ hσ₁ => ?_
  refine (expectIdent_yields hσ₁).bind fun ident σ₂ ⟨hname, hσ₂⟩ => ?_
  refine htype.read hσ₂ (by cases hvalue <;> simp) fun type' σ₃ htype' hσ₃ => ?_
  refine hvalue.read hσ₃ fun value' σ₄ hvalue' hσ₄ => ?_
  refine (expect_yields hσ₄).bind fun _ σ₅ hσ₅ => .pure ⟨fun tag => ?_, hσ₅⟩
  rw [Stmt.plain, hname, htype', hvalue']

theorem read_loop (h : (Clause.block b).Read ts) :
    Untagged (.loop .blank b) (.keyword .kwLoop :: ts) := by
  intro n hn ps σ rest hσ _
  rw [List.length_cons] at hn
  obtain _ | n := n
  · omega
  refine peek_bind hσ ?_
  refine (advance_yields hσ).bind fun _ σ₁ hσ₁ => ?_
  refine (h (by omega) hσ₁ trivial).bind fun b' σ₂ ⟨hb, hσ₂⟩ => .pure ⟨fun tag => ?_, hσ₂⟩
  rw [Stmt.plain, hb]

theorem read_while {condition : Expr} {cs : List Shape}
    (hcondition : Expression condition cs) (hblock : Stmts (.block b) ts)
    (h : (Clause.block b).Read ts) :
    Untagged (.while .blank condition b) (.keyword .kwWhile :: (cs ++ ts)) := by
  intro n hn ps σ rest hσ _
  simp only [List.length_cons, List.length_append] at hn
  simp only [List.cons_append, List.append_assoc] at hσ
  obtain _ | n := n
  · omega
  refine peek_bind hσ ?_
  refine (advance_yields hσ).bind fun _ σ₁ hσ₁ => ?_
  refine (hcondition.read_expression hσ₁ hblock.ends_block).bind
    fun condition' σ₂ ⟨hcondition', hσ₂⟩ => ?_
  refine (h (by omega) hσ₂ trivial).bind fun b' σ₃ ⟨hb, hσ₃⟩ => .pure ⟨fun tag => ?_, hσ₃⟩
  rw [Stmt.plain, hcondition', hb]

theorem Stmts.exists_if {s : Stmt} (h : Stmts (.choice s) ts) : ∃ ts', ts = .keyword .kwIf :: ts' := by
  cases h
  exact ⟨_, rfl⟩

theorem read_choice {s : Stmt} (hchoice : Stmts (.choice s) ts) (h : (Clause.choice s).Read ts) :
    Untagged s ts := by
  intro n hn ps σ rest hσ hrest
  obtain _ | n := n
  · omega
  obtain ⟨ts', rfl⟩ := hchoice.exists_if
  exact peek_bind hσ (h (by omega) hσ hrest)

theorem read_returnNothing :
    Untagged (.return .blank none) [.keyword .kwReturn, .symbol .semicolon] := by
  intro n hn ps σ rest hσ _
  obtain _ | n := n
  · omega
  refine peek_bind hσ ?_
  refine (expect_yields hσ).bind fun _ σ₁ hσ₁ => ?_
  refine isNext_true hσ₁ rfl ?_
  have hend : Yields (expectSymbol .semicolon) σ₁ fun _ σ₂ => Ahead ps σ₂ rest := expect_yields hσ₁
  exact hend.bind fun _ σ₂ hσ₂ => .pure ⟨fun _ => rfl, hσ₂⟩

theorem read_returnValue (h : Expression e ts) :
    Untagged (.return .blank (some e)) (.keyword .kwReturn :: (ts ++ [.symbol .semicolon])) := by
  intro n hn ps σ rest hσ _
  simp only [List.cons_append, List.append_assoc, List.nil_append] at hσ
  obtain _ | n := n
  · omega
  refine peek_bind hσ ?_
  refine (expect_yields hσ).bind fun _ σ₁ hσ₁ => ?_
  refine isNext_false hσ₁ (h.head?_ne (.inr rfl)) ?_
  refine (h.read_expression hσ₁ (ends_symbol rfl (by decide))).map_bind fun e' σ₂ ⟨he, hσ₂⟩ => ?_
  refine (expect_yields hσ₂).bind fun _ σ₃ hσ₃ => .pure ⟨fun tag => ?_, hσ₃⟩
  rw [Stmt.plain, Option.map_some, he]

theorem read_break : Untagged (.break .blank) [.keyword .kwBreak, .symbol .semicolon] := by
  intro n hn ps σ rest hσ _
  obtain _ | n := n
  · omega
  refine peek_bind hσ ?_
  refine (expect_yields hσ).bind fun _ σ₁ hσ₁ => ?_
  exact (expect_yields hσ₁).bind fun _ σ₂ hσ₂ => .pure ⟨fun _ => rfl, hσ₂⟩

theorem read_simple (h : Expression e ts) (hσ : Ahead ps σ (ts ++ rest))
    {ok : (Tag → Stmt) → ParseState → Prop} (hk : Yields simpleStatement σ ok) :
    Yields (untaggedWithin (n + 1)) σ ok := by
  obtain ⟨t, ts', rfl, ht⟩ := h.starts trivial
  refine peek_bind hσ ?_
  cases t with
  | keyword k => exact ht.elim
  | identifier name => exact hk
  | integer value => exact hk
  | string text => exact hk
  | symbol s => cases s <;> first | exact hk | (simp [StartsExpr, UnaryOp.ofSymbol?] at ht)

theorem read_assign {subject value : Expr} {vs : List Shape} (hsubject : Expression subject ts)
    (hvalue : Expression value vs) : Untagged (.assign .blank subject value)
      (ts ++ .symbol .equals :: (vs ++ [.symbol .semicolon])) := by
  intro n hn ps σ rest hσ _
  simp only [List.cons_append, List.append_assoc, List.nil_append] at hσ
  obtain _ | n := n
  · omega
  refine read_simple hsubject hσ ?_
  refine (hsubject.read_expression hσ (ends_symbol rfl (by decide))).bind
    fun subject' σ₁ ⟨hsubject', hσ₁⟩ => ?_
  refine eat_true hσ₁ fun σ₂ hσ₂ => ?_
  refine (hvalue.read_expression hσ₂ (ends_symbol rfl (by decide))).bind
    fun value' σ₃ ⟨hvalue', hσ₃⟩ => ?_
  refine (expect_yields hσ₃).bind fun _ σ₄ hσ₄ => .pure ⟨fun tag => ?_, hσ₄⟩
  rw [Stmt.plain, hsubject', hvalue']

theorem read_eval (h : Expression e ts) :
    Untagged (.eval .blank e) (ts ++ [.symbol .semicolon]) := by
  intro n hn ps σ rest hσ _
  rw [List.append_assoc, List.singleton_append] at hσ
  obtain _ | n := n
  · omega
  refine read_simple h hσ ?_
  refine (h.read_expression hσ (ends_symbol rfl (by decide))).bind fun e' σ₁ ⟨he, hσ₁⟩ => ?_
  refine eat_false hσ₁ (by simp) fun σ₂ hσ₂ => ?_
  refine (expect_yields hσ₂).bind fun _ σ₃ hσ₃ => .pure ⟨fun tag => ?_, hσ₃⟩
  rw [Stmt.plain, he]

/-! ## Statements that hold statements -/

theorem Stmts.head?_body {b : Option Block} (h : Stmts (.body b) ts) :
    (ts ++ rest).head? ≠ some (.symbol .arrow) := by
  cases h with
  | noBody => simp
  | body h =>
    cases h
    simp

theorem read_function {attrs : List Attr} {result : TypeExpr}
    {body : Option Block} {as qs rs bs : List Shape} (hattrs : Attrs attrs as)
    (hparams : Params params qs) (hresult : Result result rs) (hbody : Stmts (.body body) bs)
    (h : (Clause.body body).Read bs) :
    Untagged (.function .blank ⟨.bare name, attrs, params, result, body⟩)
      (as ++ .keyword .kwFn :: .identifier name :: .symbol .openParen ::
        (qs ++ .symbol .closeParen :: (rs ++ bs))) := by
  intro n hn ps σ rest hσ _
  simp only [List.length_append, List.length_cons] at hn
  simp only [List.cons_append, List.append_assoc] at hσ
  obtain _ | _ | n := n
  · omega
  · omega
  have hfunction : Yields (functionWithin (n + 1)) σ fun f σ' =>
      (∀ tag, (f tag).plain = .function .blank ⟨.bare name, attrs, params, result, body⟩) ∧
        Ahead ps σ' rest := by
    have hn₁ := le_nesting hσ
    have hattrs' : Yields attributes σ _ := .get_bind (hattrs.read (by omega) hσ (by simp))
    refine hattrs'.bind fun attrs' σ₁ ⟨hattrs', hσ₁⟩ => ?_
    refine isNext_true hσ₁ rfl ?_
    refine (expect_yields hσ₁).bind fun line σ₃ hσ₃ => ?_
    refine (expectIdent_yields hσ₃).bind fun ident σ₄ ⟨hname, hσ₄⟩ => ?_
    refine (hparams.read_params hσ₄).bind fun params' σ₅ ⟨hparams', hσ₅⟩ => ?_
    refine (hresult.read line hσ₅ hbody.head?_body).bind fun result' σ₆ ⟨hresult', hσ₆⟩ => ?_
    refine h (by omega) hσ₆ fun body' σ₇ hbody' hσ₇ => .pure ⟨fun tag => ?_, hσ₇⟩
    rw [Stmt.plain, FnDecl.plain, hname, hattrs', hparams', hresult', hbody']
  -- The first token is that of an attribute, or `fn`.
  cases hattrs with
  | nil => exact peek_bind hσ hfunction
  | cons _ _ => exact peek_bind hσ hfunction

theorem read_choose {condition : Expr} {truthy : Block} {falsy : Option Block} {cs fs : List Shape}
    (hcondition : Expression condition cs) (hblock : Stmts (.block truthy) ts)
    (htruthy : (Clause.block truthy).Read ts) (hfalsy : (Clause.alternative falsy).Read fs) :
    (Clause.choice (.choose .blank condition truthy falsy)).Read
      (.keyword .kwIf :: (cs ++ (ts ++ fs))) := by
  intro n hn ps σ rest hσ hrest
  simp only [List.length_append, List.length_cons] at hn
  simp only [List.cons_append, List.append_assoc] at hσ
  obtain _ | n := n
  · omega
  refine (expect_yields hσ).bind fun _ σ₁ hσ₁ => ?_
  refine (hcondition.read_expression hσ₁ hblock.ends_block).bind
    fun condition' σ₂ ⟨hcondition', hσ₂⟩ => ?_
  refine (htruthy (by omega) hσ₂ trivial).bind fun truthy' σ₃ ⟨htruthy', hσ₃⟩ => ?_
  refine (hfalsy (by omega) hσ₃ hrest).bind fun falsy' σ₄ ⟨hfalsy', hσ₄⟩ => ?_
  refine .pure ⟨fun tag => ?_, hσ₄⟩
  rw [Stmt.plain, hcondition', htruthy', hfalsy']

theorem read_noAlternative : (Clause.alternative none).Read [] := by
  intro n hn ps σ rest hσ hrest
  obtain _ | n := n
  · omega
  exact eat_false hσ hrest fun σ₁ hσ₁ => .pure ⟨rfl, hσ₁⟩

theorem read_otherwise (hblock : Stmts (.block b) ts) (h : (Clause.block b).Read ts) :
    (Clause.alternative (some b)).Read (.keyword .kwElse :: ts) := by
  intro n hn ps σ rest hσ _
  rw [List.length_cons] at hn
  obtain _ | n := n
  · omega
  obtain ⟨ts', rfl⟩ : ∃ ts', ts = .symbol .openBrace :: ts' := by
    cases hblock
    exact ⟨_, rfl⟩
  refine eat_true hσ fun σ₁ hσ₁ => isNext_false hσ₁ (by simp) ?_
  refine Yields.map ((h (by omega) hσ₁ trivial).mono fun b' σ₂ ⟨hb, hσ₂⟩ => ⟨?_, hσ₂⟩)
  rw [Block.plainOption, hb]

theorem read_otherwiseIf {s : Stmt} (hchoice : Stmts (.choice s) ts)
    (h : (Clause.choice s).Read ts) :
    (Clause.alternative (some ⟨.blank, [s]⟩)).Read (.keyword .kwElse :: ts) := by
  intro n hn ps σ rest hσ hrest
  rw [List.length_cons] at hn
  obtain _ | n := n
  · omega
  obtain ⟨ts', rfl⟩ := hchoice.exists_if
  refine eat_true hσ fun σ₁ hσ₁ => isNext_true hσ₁ rfl (peekLine_bind fun line => ?_)
  refine (h (by omega) hσ₁ hrest).bind fun f σ₂ ⟨hf, hσ₂⟩ => ?_
  refine (fresh_yields hσ₂ rfl rfl).bind fun blockTag σ₃ hσ₃ => ?_
  refine (fresh_yields hσ₃ rfl rfl).bind fun tag σ₄ hσ₄ => .pure ⟨?_, hσ₄⟩
  rw [Block.plainOption, Block.plain, Stmt.plainList, Stmt.plainList, hf tag]

theorem read_noBody : (Clause.body none).Read [.symbol .semicolon] := by
  intro n ps σ rest β k ok hn hσ hk
  exact eat_true hσ fun σ₁ => hk none σ₁ rfl

theorem read_body (hblock : Stmts (.block b) ts) (h : (Clause.block b).Read ts) :
    (Clause.body (some b)).Read ts := by
  intro n ps σ rest β k ok hn hσ hk
  have hopen : (ts ++ rest).head? ≠ some (.symbol .semicolon) := by
    cases hblock
    simp
  refine eat_false hσ hopen fun σ₁ hσ₁ => ?_
  refine (h hn hσ₁ trivial).map_bind fun b' σ₂ ⟨hb, hσ₂⟩ => ?_
  exact hk (some b') σ₂ (by rw [Block.plainOption, hb]) hσ₂

theorem read_block (h : (Clause.statements list).Read ts) :
    (Clause.block ⟨.blank, list⟩).Read (.symbol .openBrace :: (ts ++ [.symbol .closeBrace])) := by
  intro n hn ps σ rest hσ _
  simp only [List.length_append, List.length_cons, List.length_nil] at hn
  simp only [List.cons_append, List.append_assoc, List.nil_append] at hσ
  obtain _ | n := n
  · omega
  refine (expect_yields hσ).bind fun line σ₁ hσ₁ => ?_
  refine (h (by omega) hσ₁ rfl).bind fun list' σ₂ ⟨hlist, hσ₂⟩ => ?_
  refine (expect_yields hσ₂).bind fun _ σ₃ hσ₃ => ?_
  refine (fresh_yields hσ₃ rfl rfl).bind fun tag σ₄ hσ₄ => .pure ⟨?_, hσ₄⟩
  rw [Block.plain, hlist]

theorem read_nil : (Clause.statements []).Read [] := by
  intro n hn ps σ rest hσ hrest
  obtain _ | n := n
  · omega
  obtain ⟨rest, rfl⟩ := List.head?_eq_some_iff.1 hrest
  exact peek_bind hσ (.pure ⟨rfl, hσ⟩)

theorem Stmts.noElse (h : Stmts (.statements list) ts) (hrest : NoElse rest) :
    NoElse (ts ++ rest) := by
  cases h with
  | nil => exact hrest
  | cons hs _ =>
    obtain ⟨t, ts', rfl, ht⟩ := hs.starts trivial
    rintro heq
    cases heq
    exact ht.2 rfl

theorem read_cons {s : Stmt} (hs : Stmts (.statement s) ts)
    (hlist : Stmts (.statements list) ts') (ih : Untagged s ts)
    (ihlist : (Clause.statements list).Read ts') :
    (Clause.statements (s :: list)).Read (ts ++ ts') := by
  intro n hn ps σ rest hσ hrest
  rw [List.append_assoc] at hσ
  obtain ⟨t, ts₀, rfl, ht⟩ := hs.starts trivial
  simp only [List.length_append, List.length_cons] at hn
  obtain _ | n := n
  · omega
  refine between_yields hσ ht.1 ?_
  have hbound : 12 * (t :: ts₀).length + 2 ≤ n := by
    rw [List.length_cons]
    omega
  have hnoElse : NoElse rest := by simp [NoElse, hrest]
  refine (ih.tagged hbound hσ (hlist.noElse hnoElse)).bind fun s' σ₁ ⟨hs', hσ₁⟩ => ?_
  refine (ihlist (by omega) hσ₁ hrest).bind fun list' σ₂ ⟨hlist', hσ₂⟩ => .pure ⟨?_, hσ₂⟩
  rw [Stmt.plainList, hs', hlist']

theorem Stmts.read {c : Clause} (h : Stmts c ts) : c.Read ts := by
  induction h with
  | function hattrs hparams hresult hbody ih => exact read_function hattrs hparams hresult hbody ih
  | declare htype hvalue => exact read_declare htype hvalue
  | loop _ ih => exact read_loop ih
  | «while» hcondition hblock ih => exact read_while hcondition hblock ih
  | choice hchoice ih => exact read_choice hchoice ih
  | returnNothing => exact read_returnNothing
  | returnValue h => exact read_returnValue h
  | «break» => exact read_break
  | assign hsubject hvalue => exact read_assign hsubject hvalue
  | eval h => exact read_eval h
  | choose hcondition hblock _ htruthy hfalsy => exact read_choose hcondition hblock htruthy hfalsy
  | noAlternative => exact read_noAlternative
  | otherwise hblock ih => exact read_otherwise hblock ih
  | otherwiseIf hchoice ih => exact read_otherwiseIf hchoice ih
  | noBody => exact read_noBody
  | body hblock ih => exact read_body hblock ih
  | block _ ih => exact read_block ih
  | nil => exact read_nil
  | cons hs hlist ih ihlist => exact read_cons hs hlist ih ihlist

theorem items_yield (h : Stmts (.statements list) ts) (hn : ts.length < n) (hσ : Ahead ps σ ts) :
    Yields (itemsWithin n) σ fun list' σ' => Stmt.plainList list' = list ∧ Ahead ps σ' [] := by
  induction list generalizing ts n σ with
  | nil =>
    obtain _ | n := n
    · cases hn
    cases h
    refine peek_yields.bind fun shape σ₁ h₁ => ?_
    obtain ⟨rfl, rfl⟩ := h₁
    rw [hσ.shapes]
    exact .pure ⟨rfl, hσ⟩
  | cons s list ih =>
    obtain _ | n := n
    · cases hn
    cases h with
    | @cons _ _ ts ts' hs hlist =>
    obtain ⟨t, ts₀, rfl, ht⟩ := hs.starts trivial
    have hrest : NoElse ts' := by
      have hnone : NoElse ([] : List Shape) := by simp [NoElse]
      simpa only [List.append_nil] using hlist.noElse hnone
    have hbound := le_nesting hσ
    have hstatement : Yields statement σ _ := .get_bind (Untagged.tagged hs.read (by omega) hσ hrest)
    refine between_yields hσ ht.1 (hstatement.bind fun s' σ₁ ⟨hs', hσ₁⟩ => ?_)
    simp only [List.length_append, List.length_cons] at hn
    refine (ih hlist (by omega) hσ₁).bind fun list' σ₂ ⟨hlist', hσ₂⟩ => .pure ⟨?_, hσ₂⟩
    rw [Stmt.plainList, hs', hlist']

end Grammar

/-! ## Source texts -/

/-- Tokens that spell a source text are read as that text, without a problem. -/
theorem Parse.items_run {m : Module} {σ : ParseState} (h : Grammar.Spells m σ.shapes) :
    ∃ list σ', Parse.items.run σ = .ok list σ' ∧ Stmt.plainList list = m.items ∧
      σ'.problems = σ.problems := by
  have hσ : Ahead σ.problems σ (σ.shapes ++ []) := ⟨(List.append_nil _).symm, rfl⟩
  have hbound := le_nesting hσ
  have hitems : Yields items σ _ := .get_bind (Grammar.items_yield h (by omega) ⟨rfl, rfl⟩)
  obtain ⟨list, σ', hrun, hlist, hσ'⟩ := Ensures.exists_ok hitems
  exact ⟨list, σ', hrun, hlist, hσ'.problems⟩

theorem Grammar.Spells.unique {m m' : Module} {ts : List Shape} (h : Grammar.Spells m ts)
    (h' : Grammar.Spells m' ts) : m = m' := by
  have hshapes : ParseState.shapes { tokens := ts.map fun shape => ⟨shape, ⟨0, 0⟩, 0⟩, lastLine := 0 } =
      ts := by
    rw [ParseState.shapes, List.map_map]
    exact List.map_id ts
  rw [← hshapes] at h h'
  obtain ⟨list, σ, hrun, hlist, -⟩ := Parse.items_run h
  obtain ⟨list', σ', hrun', hlist', -⟩ := Parse.items_run h'
  rw [hrun] at hrun'
  cases hrun'
  obtain ⟨items⟩ := m
  obtain ⟨items'⟩ := m'
  exact congrArg Module.mk (hlist.symm.trans hlist')

theorem Diagnostic.sortByLine_eq_nil {list : List Diagnostic} : sortByLine list = [] ↔ list = [] := by
  have hperm : (sortByLine list).Perm list := List.mergeSort_perm list fun a b => decide (a.line ≤ b.line)
  constructor
  · intro h
    exact List.perm_nil.1 (hperm.symm.trans (.of_eq h))
  · intro h
    exact List.perm_nil.1 (hperm.trans (.of_eq h))

/-- A source text is read if neither its elements nor its tokens have problems. -/
theorem Module.ofSource?_eq_ok {source : List Char} {m : Module} :
    Module.ofSource? source = .ok m ↔ (scan source).diagnostics = [] ∧ ∃ σ : ParseState,
      Parse.items.run { tokens := (scan source).tokens, lastLine := (scan source).lastLine } =
        .ok m.items σ ∧ σ.problems = [] := by
  rw [Module.ofSource?]
  cases hrun : Parse.items.run { tokens := (scan source).tokens, lastLine := (scan source).lastLine } with
  | error problem σ => simp
  | ok items σ =>
    by_cases hnil : (scan source).diagnostics ++ σ.problems = []
    · have hsort := Diagnostic.sortByLine_eq_nil.2 hnil
      obtain ⟨hdiagnostics, hproblems⟩ := List.append_eq_nil_iff.1 hnil
      simp only [hsort]
      constructor
      · intro h
        cases h
        exact ⟨hdiagnostics, σ, rfl, hproblems⟩
      · rintro ⟨-, σ', h, -⟩
        cases h
        rfl
    · -- The report is not empty, so the text is not read.
      have hsort := mt Diagnostic.sortByLine_eq_nil.1 hnil
      constructor
      · intro h
        simp only at h
        cases h
      · rintro ⟨hdiagnostics, σ', h, hproblems⟩
        cases h
        exact absurd (List.append_eq_nil_iff.2 ⟨hdiagnostics, hproblems⟩) hnil

theorem Module.spells_of_ofSource? {source : List Char} {m : Module} (h : Module.ofSource? source = .ok m) :
    (scan source).diagnostics = [] ∧
      Grammar.Spells m.plain ((scan source).tokens.map Token.shape) := by
  obtain ⟨hdiagnostics, σ, hrun, hproblems⟩ := Module.ofSource?_eq_ok.1 h
  have hitems : Parse.Meets Parse.items
      { tokens := (scan source).tokens, lastLine := (scan source).lastLine } _ :=
    .get_bind (Parse.itemsWithin_derive _ _)
  simp only [Parse.Meets, Ensures] at hitems
  rw [show Parse.items _ = _ from hrun] at hitems
  exact ⟨hdiagnostics, (hitems hproblems).2⟩

/-- A source text is read exactly if its elements are without problems and its tokens belong to the
grammar; it is read as the one tree that they spell. -/
theorem Module.ofSource?_iff_spells (source : List Char) :
    (∀ tree : Module, (∃ m, Module.ofSource? source = .ok m ∧ m.plain = tree) ↔
      (scan source).diagnostics = [] ∧ Grammar.Spells tree ((scan source).tokens.map Token.shape)) ∧
    ∀ tree tree' : Module, Grammar.Spells tree ((scan source).tokens.map Token.shape) →
      Grammar.Spells tree' ((scan source).tokens.map Token.shape) → tree = tree' := by
  refine ⟨fun tree => ⟨?_, ?_⟩, fun tree tree' => Grammar.Spells.unique⟩
  · rintro ⟨m, hm, rfl⟩
    exact Module.spells_of_ofSource? hm
  · rintro ⟨hdiagnostics, hspells⟩
    obtain ⟨list, σ, hrun, hlist, hproblems⟩ := Parse.items_run
      (σ := { tokens := (scan source).tokens, lastLine := (scan source).lastLine }) hspells
    refine ⟨⟨list⟩, Module.ofSource?_eq_ok.2 ⟨hdiagnostics, σ, hrun, hproblems⟩, ?_⟩
    exact congrArg Module.mk hlist

end WordLang
