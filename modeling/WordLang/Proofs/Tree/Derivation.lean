import WordLang.Proofs.Tree.Grammar
import WordLang.Proofs.Tree.Nodes

/-!
# What is read is spelled

A parsing step that gives a tree and notes no problem has consumed tokens that spell that tree, and
has made exactly the nodes of the tree.

## Main definitions

* `ParseState.shapes`: the shapes of the tokens that are not consumed yet
* `Takes`: the tokens that were consumed between two states of parsing
* `Parsed`: the tokens and the nodes that were made of them

## Main results

* `Parse.derivesExprs`, `Parse.derivesStmts`: the tokens and nodes of expressions and statements
* `Parse.itemsWithin_derive`: the tokens and nodes of source texts
-/

namespace WordLang

variable {t : Shape}

/-- The shapes of the tokens that are not consumed yet. -/
def ParseState.shapes (σ : ParseState) : List Shape := σ.tokens.map Token.shape

structure Takes (σ σ' : ParseState) (ts : List Shape) : Prop where
  shapes : σ.shapes = ts ++ σ'.shapes
  problems : σ'.problems = σ.problems

namespace Takes

variable {σ σ' σ'' : ParseState} {ts ts' : List Shape}

theorem refl (σ : ParseState) : Takes σ σ [] := ⟨rfl, rfl⟩

theorem trans (h : Takes σ σ' ts) (h' : Takes σ' σ'' ts') : Takes σ σ'' (ts ++ ts') := by
  refine ⟨?_, h'.problems.trans h.problems⟩
  rw [h.shapes, h'.shapes, List.append_assoc]

theorem cons (h : Takes σ σ' [t]) (h' : Takes σ' σ'' ts) : Takes σ σ'' (t :: ts) :=
  h.trans h'

/-- Without a problem at the end, there was none at the start. -/
theorem clean (h : Takes σ σ' ts) (hclean : σ'.problems = []) : σ.problems = [] :=
  h.problems ▸ hclean

end Takes

/-- Between two states of parsing given tokens were consumed, of which given nodes were made, without
a problem. -/
structure Parsed (σ σ' : ParseState) (ts : List Shape) (nodes : Nodes) : Prop
    extends Takes σ σ' ts where
  made : nodes.Made σ σ'

namespace Parsed

variable {σ σ' σ'' : ParseState} {ts ts' : List Shape} {m n : Nodes}

theorem refl (σ : ParseState) : Parsed σ σ [] {} := ⟨.refl σ, .nil rfl, .nil rfl, .nil rfl, .nil rfl⟩

theorem append (h : Parsed σ σ' ts m) (h' : Parsed σ' σ'' ts' n) :
    Parsed σ σ'' (ts ++ ts') (m ++ n) :=
  ⟨h.toTakes.trans h'.toTakes, h.made.append h'.made⟩

/-- A token that no node is made of comes first. -/
theorem cons (h : Parsed σ σ' [t] {}) (h' : Parsed σ' σ'' ts n) : Parsed σ σ'' (t :: ts) n :=
  h.append h'

theorem perm (h : Parsed σ σ' ts m) (hp : m.Perm n) : Parsed σ σ' ts n := ⟨h.toTakes, h.made.perm hp⟩

theorem andTake (h : Parsed σ σ' ts m) (h' : Parsed σ' σ'' ts' {}) : Parsed σ σ'' (ts ++ ts') m :=
  (h.append h').perm
    ⟨.of_eq (List.append_nil _), .of_eq (List.append_nil _), .of_eq (List.append_nil _),
      .of_eq (List.append_nil _)⟩

theorem type {t : TypeExpr} {types : List TypeExpr} (h : Parsed σ σ' ts { types })
    (h' : (∀ t' ∈ TypeExpr.category.inner t, t'.tag.id < σ'.typeIds.next) →
      Parsed σ' σ'' [] { types := [t] }) (ht : Module.typesWithin t = t :: types) :
    Parsed σ σ'' ts { types := Module.typesWithin t } := by
  have hmade := h' fun t' ht' => h.made.types.lt_next
    (show t' ∈ (t :: types).tail from ht ▸ ht')
  have hparsed : Parsed σ σ'' (ts ++ []) { types := t :: types } :=
    (h.append hmade).perm ⟨.refl _, .refl _, List.perm_append_singleton _ _, .refl _⟩
  rwa [List.append_nil, ← ht] at hparsed

/-- An expression is made after the expressions within it. -/
theorem expr {e : Expr} {exprs : List Expr} (h : Parsed σ σ' ts { exprs })
    (h' : (∀ e' ∈ Expr.category.inner e, e'.id < σ'.exprIds.next) →
      Parsed σ' σ'' [] { exprs := [e] }) (he : e.all = e :: exprs) :
    Parsed σ σ'' ts { exprs := e.all } := by
  have hmade := h' fun e' he' => h.made.exprs.lt_next
    (show e' ∈ (e :: exprs).tail from he ▸ he')
  have hparsed : Parsed σ σ'' (ts ++ []) { exprs := e :: exprs } :=
    (h.append hmade).perm ⟨.refl _, List.perm_append_singleton _ _, .refl _, .refl _⟩
  rwa [List.append_nil, ← he] at hparsed

theorem block {b : Block} (h : Parsed σ σ' ts (Nodes.ofStmts (Stmt.allOfBlock b)))
    (h' : (∀ b' ∈ Block.category.inner b, b'.tag.id < σ'.blockIds.next) →
      Parsed σ' σ'' [] { blocks := [b] }) : Parsed σ σ'' ts (Nodes.ofBlocks [b]) := by
  have hmade := h.append (h' fun b' hb' => h.made.blocks.lt_next hb')
  rw [List.append_nil] at hmade
  refine hmade.perm ⟨.of_eq ?_, .of_eq ?_, .of_eq ?_, ?_⟩
  · simp [Nodes.ofBlocks]
  · simp [Nodes.ofBlocks]
  · simp [Nodes.ofBlocks]
  · simp [Nodes.ofBlocks]

end Parsed

namespace Parse

open Grammar

/-- A parsing step that gives what satisfies `ok`; it does not stop with a problem. -/
def Yields {α : Type} (x : Parse α) (σ : ParseState) (ok : α → ParseState → Prop) : Prop :=
  Ensures x σ ok fun _ => False

namespace Yields

variable {α β : Type} {x : Parse α} {k : α → Parse β} {σ : ParseState}
  {mid : α → ParseState → Prop} {ok : β → ParseState → Prop}

theorem bind (hx : Yields x σ mid) (hk : ∀ a σ', mid a σ' → Yields (k a) σ' ok) :
    Yields (x >>= k) σ ok :=
  Ensures.bind_of hx hk

theorem andThen (hx : Yields x σ mid) (hk : ∀ a σ', mid a σ' → Meets (k a) σ' ok) :
    Meets (x >>= k) σ ok :=
  Meets.bind (Ensures.mono hx (fun _ _ h => h) fun _ h => h.elim) hk

theorem pure {ok : α → ParseState → Prop} {a : α} (h : ok a σ) : Yields (Pure.pure a) σ ok :=
  Ensures.pure h

theorem mono {ok ok' : α → ParseState → Prop} (h : Yields x σ ok)
    (hok : ∀ a σ', ok a σ' → ok' a σ') : Yields x σ ok' :=
  Ensures.mono h hok fun _ h => h

theorem map {f : α → β} (h : Yields x σ fun a σ' => ok (f a) σ') : Yields (f <$> x) σ ok :=
  Ensures.map h

theorem map_bind {γ : Type} {f : α → γ} {k : γ → Parse β} (hx : Yields x σ mid)
    (hk : ∀ a σ', mid a σ' → Yields (k (f a)) σ' ok) : Yields (f <$> x >>= k) σ ok := by
  have hmap : Yields (f <$> x) σ fun c σ' => ∃ a, f a = c ∧ mid a σ' :=
    map (hx.mono fun a _ ha => ⟨a, rfl, ha⟩)
  refine hmap.bind ?_
  rintro _ σ' ⟨a, rfl, ha⟩
  exact hk a σ' ha

theorem get_bind {k : ParseState → Parse β} (h : Yields (k σ) σ ok) :
    Yields (MonadState.get >>= k) σ ok := h

end Yields

variable {σ : ParseState}

/-! ## Single tokens -/

theorem advance_parsed (h : σ.shapes.head? = some t) :
    Yields advance σ fun _ σ' => Parsed σ σ' [t] {} := by
  refine Ensures.modify ⟨⟨?_, rfl⟩, .nil rfl, .nil rfl, .nil rfl, .nil rfl⟩
  obtain ⟨rest, hrest⟩ := List.head?_eq_some_iff.1 h
  have htail : ParseState.shapes { σ with tokens := σ.tokens.tail } = rest := by
    rw [ParseState.shapes, List.map_tail, ← ParseState.shapes, hrest, List.tail_cons]
  rw [htail, hrest]
  rfl

theorem peek_yields : Yields peek σ fun shape σ' => σ' = σ ∧ shape = σ.shapes.head? := by
  refine Yields.get_bind (.pure ⟨rfl, ?_⟩)
  rw [ParseState.shapes, List.head?_map]

theorem peekLine_yields : Yields peekLine σ fun _ σ' => σ' = σ := Yields.get_bind (.pure rfl)

theorem Meets.line {β : Type} {k : Nat → Parse β} {ok : β → ParseState → Prop}
    (hk : ∀ line, Meets (k line) σ ok) : Meets (peekLine >>= k) σ ok :=
  peekLine_yields.andThen fun line _ h => h ▸ hk line

theorem Meets.look {α β : Type} {x : Parse α} {k : α → Parse β} {ok : β → ParseState → Prop}
    {P : α → Prop} (hx : Yields x σ fun v σ' => σ' = σ ∧ P v) (hk : ∀ v, P v → Meets (k v) σ ok) :
    Meets (x >>= k) σ ok :=
  hx.andThen fun v _ h => h.1 ▸ hk v h.2

/-- Whether the next token is a given one. -/
def isNext (t : Shape) : Parse Bool := do
  return (← peek) = some t

/-- Consumes the next token if it is a given one. -/
def eat (t : Shape) : Parse Bool := do
  if ← isNext t then
    advance
    return true
  else
    return false

/-- Consumes a given token; gives its line. -/
def expect (t : Shape) (expected : Expected) : Parse Nat := do
  let line ← peekLine
  if ← eat t then return line else unexpected expected

theorem isNext_yields (t : Shape) : Yields (isNext t) σ fun found σ' =>
    σ' = σ ∧ (found = true ↔ σ.shapes.head? = some t) := by
  refine peek_yields.bind fun shape σ' h => ?_
  obtain ⟨rfl, rfl⟩ := h
  exact .pure ⟨rfl, decide_eq_true_iff⟩

theorem eat_parsed (t : Shape) : Yields (eat t) σ fun found σ' =>
    Parsed σ σ' (if found then [t] else []) {} ∧ (found = true ↔ σ.shapes.head? = some t) := by
  refine (isNext_yields t).bind fun found σ' h => ?_
  obtain ⟨rfl, hfound⟩ := h
  cases found with
  | true => exact (advance_parsed (hfound.1 rfl)).bind fun _ _ h => .pure ⟨h, hfound⟩
  | false => exact .pure ⟨.refl _, hfound⟩

theorem expect_parsed {expected : Expected} :
    Meets (expect t expected) σ fun _ σ' => Parsed σ σ' [t] {} := by
  refine .line fun line => (eat_parsed t).andThen fun found σ' ⟨h, _⟩ => ?_
  cases found with
  | true => exact .pure h
  | false => exact .unexpected _

theorem expectIdent_parsed :
    Meets expectIdent σ fun ident σ' => Parsed σ σ' [.identifier ident.name] {} := by
  refine .get_bind ?_
  split
  · next name span line rest htokens =>
    have hhead : σ.shapes.head? = some (.identifier name) := by
      rw [ParseState.shapes, htokens]
      rfl
    exact (advance_parsed hhead).andThen fun _ _ h => .pure h
  · exact .unexpected _

/-- The operator of a level that tokens start with. -/
def operatorAt (level : Level) (ts : List Shape) : Option BinaryOp :=
  ts.head?.bind fun
    | .symbol s => level.op? s
    | _ => none

/-- The prefix operator that tokens start with. -/
def prefixOperatorAt (ts : List Shape) : Option UnaryOp :=
  ts.head?.bind fun
    | .symbol s => UnaryOp.ofSymbol? s
    | _ => none

theorem peekOperator_yields (level : Level) : Yields (peekOperator level) σ fun op σ' =>
    σ' = σ ∧ op = operatorAt level σ.shapes := by
  refine peek_yields.bind fun shape σ' h => ?_
  obtain ⟨rfl, rfl⟩ := h
  rcases hshape : σ'.shapes.head? with _ | keyword | name | value | text | symbol <;>
    exact .pure ⟨rfl, by rw [operatorAt, hshape]; rfl⟩

theorem peekPrefixOperator_yields : Yields peekPrefixOperator σ fun op σ' =>
    σ' = σ ∧ op = prefixOperatorAt σ.shapes := by
  refine peek_yields.bind fun shape σ' h => ?_
  obtain ⟨rfl, rfl⟩ := h
  rcases hshape : σ'.shapes.head? with _ | keyword | name | value | text | symbol <;>
    exact .pure ⟨rfl, by rw [prefixOperatorAt, hshape]; rfl⟩

theorem operatorAt_eq_some {level : Level} {ts : List Shape} {op : BinaryOp}
    (h : operatorAt level ts = some op) : ∃ s, ts.head? = some (.symbol s) ∧ level.op? s = some op := by
  obtain ⟨shape, hhead, hshape⟩ := Option.bind_eq_some_iff.1 h
  cases shape with
  | symbol s => exact ⟨s, hhead, hshape⟩
  | _ => cases hshape

theorem prefixOperatorAt_eq_some {ts : List Shape} {op : UnaryOp} (h : prefixOperatorAt ts = some op) :
    ∃ s, ts.head? = some (.symbol s) ∧ UnaryOp.ofSymbol? s = some op := by
  obtain ⟨shape, hhead, hshape⟩ := Option.bind_eq_some_iff.1 h
  cases shape with
  | symbol s => exact ⟨s, hhead, hshape⟩
  | _ => cases hshape

theorem freshStmt_parsed (line : Nat) : Yields (freshStmt line) σ fun tag σ' =>
    σ'.problems = σ.problems ∧ ∀ s : Stmt, s.id = tag.id → s.isError = false →
      (∀ s' ∈ Stmt.category.inner s, s'.id < σ.stmtIds.next) → Parsed σ σ' [] { stmts := [s] } :=
  Ensures.modifyGet ⟨rfl, fun _ hid hclean habove =>
    ⟨⟨rfl, rfl⟩, .take hid hclean habove, .nil rfl, .nil rfl, .nil rfl⟩⟩

theorem freshExpr_parsed (line : Nat) : Yields (freshExpr line) σ fun tag σ' =>
    ∀ e : Expr, e.id = tag.id → e.isError = false →
      (∀ e' ∈ Expr.category.inner e, e'.id < σ.exprIds.next) → Parsed σ σ' [] { exprs := [e] } :=
  Ensures.modifyGet fun _ hid hclean habove =>
    ⟨⟨rfl, rfl⟩, .nil rfl, .take hid hclean habove, .nil rfl, .nil rfl⟩

theorem freshType_parsed (line : Nat) : Yields (freshType line) σ fun tag σ' =>
    ∀ t : TypeExpr, t.tag.id = tag.id → t.isError = false →
      (∀ t' ∈ TypeExpr.category.inner t, t'.tag.id < σ.typeIds.next) →
      Parsed σ σ' [] { types := [t] } :=
  Ensures.modifyGet fun _ hid hclean habove =>
    ⟨⟨rfl, rfl⟩, .nil rfl, .nil rfl, .take hid hclean habove, .nil rfl⟩

theorem freshBlock_parsed (line : Nat) : Yields (freshBlock line) σ fun tag σ' =>
    σ'.problems = σ.problems ∧ ∀ b : Block, b.tag = tag →
      (∀ b' ∈ Block.category.inner b, b'.tag.id < σ.blockIds.next) →
      Parsed σ σ' [] { blocks := [b] } :=
  Ensures.modifyGet ⟨rfl, fun _ htag habove =>
    ⟨⟨rfl, rfl⟩, .nil rfl, .nil rfl, .nil rfl, .take (congrArg Tag.id htag) rfl habove⟩⟩

/-! ## Types -/

/-- Tokens were consumed that satisfy a condition, and given nodes were made of them. -/
def Took (σ σ' : ParseState) (nodes : Nodes) (good : List Shape → Prop) : Prop :=
  ∃ ts, Parsed σ σ' ts nodes ∧ good ts

/-- A type was read. -/
def TookType (σ : ParseState) (t : TypeExpr) (σ' : ParseState) : Prop :=
  Took σ σ' { types := Module.typesWithin t } (Types t.plain)

theorem typeWithin_derives (n : Nat) (σ : ParseState) :
    Meets (typeWithin n) σ (TookType σ) := by
  induction n generalizing σ with
  | zero => exact .unexpected _
  | succ n ih =>
    refine .line fun line => ?_
    refine .look peek_yields fun shape hshape => ?_
    split
    · refine (advance_parsed hshape.symm).andThen fun _ σ₃ h₃ => ?_
      refine (ih σ₃).bind fun target σ₄ ⟨ts, hts, htypes⟩ => ?_
      refine (freshType_parsed line).andThen fun tag σ₅ h₅ => ?_
      exact .pure ⟨_, (h₃.cons hts).type (h₅ (.pointer tag target) rfl rfl) rfl, .pointer htypes⟩
    · refine expectIdent_parsed.bind fun ident σ₃ h₃ => ?_
      refine (freshType_parsed line).andThen fun tag σ₄ h₄ => ?_
      exact .pure ⟨_, h₃.type (h₄ (.named tag ident) rfl rfl) rfl, .named⟩
    · exact .unexpected _

theorem type_derives (σ : ParseState) : Meets type σ (TookType σ) :=
  .get_bind (typeWithin_derives _ _)

/-! ## Expressions -/

/-- An expression was read, spelled as a given kind of phrase. -/
def TookExpr (phrase : Expr → Phrase) (σ : ParseState) (e : Expr) (σ' : ParseState) : Prop :=
  Took σ σ' { exprs := e.all } (Exprs (phrase e.plain))

/-- Expressions were read, spelled as a given kind of phrase. -/
def TookExprs (phrase : List Expr → Phrase) (σ : ParseState) (args : List Expr) (σ' : ParseState) :
    Prop :=
  Took σ σ' { exprs := Expr.allOfList args } (Exprs (phrase (Expr.plainList args)))

/-- What is read at a bound on the nesting: expressions that their tokens spell. -/
structure DerivesExprs (n : Nat) : Prop where
  binary : ∀ level σ, Meets (binaryWithin n level) σ (TookExpr (.level level) σ)
  operand : ∀ level σ, Meets (operandWithin n level) σ (TookExpr (.operand level) σ)
  operators : ∀ level lhs σ₀ σ, TookExpr (.level level) σ₀ lhs σ →
    Meets (operatorsWithin n level lhs) σ (TookExpr (.level level) σ₀)
  prefixed : ∀ σ, Meets (prefixWithin n) σ (TookExpr .prefixed σ)
  calls : ∀ callee σ₀ σ, TookExpr .called σ₀ callee σ →
    Meets (callsWithin n callee) σ (TookExpr .called σ₀)
  arguments : ∀ σ, Meets (argumentsWithin n) σ (TookExprs .arguments σ)
  argumentList : ∀ σ, Meets (argumentListWithin n) σ (TookExprs .list σ)
  atom : ∀ σ, Meets (atomWithin n) σ (TookExpr .atom σ)

theorem derivesExprs_zero : DerivesExprs 0 where
  binary _ _ := .unexpected _
  operand _ _ := .unexpected _
  operators _ _ _ _ _ := .unexpected _
  prefixed _ := .unexpected _
  calls _ _ _ _ := .unexpected _
  arguments _ := .unexpected _
  argumentList _ := .unexpected _
  atom _ := .unexpected _

section

variable {n : Nat} (h : DerivesExprs n)
include h

theorem operators_derive (level : Level) (lhs : Expr) {σ₀ σ : ParseState}
    (hlhs : TookExpr (.level level) σ₀ lhs σ) :
    Meets (operatorsWithin (n + 1) level lhs) σ (TookExpr (.level level) σ₀) := by
  refine .look (peekOperator_yields level) fun op hop => ?_
  cases op with
  | none => exact .pure hlhs
  | some op =>
    obtain ⟨s, hhead, hs⟩ := operatorAt_eq_some hop.symm
    refine (advance_parsed hhead).andThen fun _ σ₂ h₂ => ?_
    refine (h.operand level σ₂).bind fun rhs σ₃ ⟨ts', hts', hrhs⟩ => ?_
    refine (freshExpr_parsed lhs.line).andThen fun tag σ₄ h₄ => ?_
    refine h.operators level _ σ₀ σ₄ ?_
    obtain ⟨ts, hts, hlhs⟩ := hlhs
    exact ⟨_, (hts.append (h₂.cons hts')).expr (h₄ (.binary tag op lhs rhs) rfl rfl)
      (by simp [Expr.all]), .binary hlhs hs hrhs⟩

theorem prefixed_derives (σ : ParseState) :
    Meets (prefixWithin (n + 1)) σ (TookExpr .prefixed σ) := by
  refine .look peekPrefixOperator_yields fun op hop => ?_
  cases op with
  | some op =>
    obtain ⟨s, hhead, hs⟩ := prefixOperatorAt_eq_some hop.symm
    refine .line fun line => ?_
    refine (advance_parsed hhead).andThen fun _ σ₃ h₃ => ?_
    refine (h.prefixed σ₃).bind ?_
    rintro operand σ₄ ⟨ts, hts, hoperand⟩
    refine (freshExpr_parsed line).andThen fun tag σ₅ h₅ => ?_
    exact .pure ⟨_, (h₃.cons hts).expr (h₅ (.unary tag op operand) rfl rfl) (by simp [Expr.all]),
      .unary hs hoperand⟩
  | none =>
    refine (h.atom σ).bind ?_
    rintro callee σ₁ ⟨ts, hts, hcallee⟩
    refine (h.calls callee σ σ₁ ⟨ts, hts, .atom hcallee⟩).mono ?_
    rintro e σ₂ ⟨ts', hts', he⟩
    exact ⟨ts', hts', .called he⟩

theorem calls_derive (callee : Expr) {σ₀ σ : ParseState}
    (hcallee : TookExpr .called σ₀ callee σ) :
    Meets (callsWithin (n + 1) callee) σ (TookExpr .called σ₀) := by
  refine .look (isNext_yields _) fun found _ => ?_
  cases found with
  | false => exact .pure hcallee
  | true =>
    refine (h.arguments σ).bind fun args σ₂ ⟨ts', hts', hargs⟩ => ?_
    refine (freshExpr_parsed callee.line).andThen fun tag σ₃ h₃ => ?_
    refine h.calls _ σ₀ σ₃ ?_
    obtain ⟨ts, hts, hcallee⟩ := hcallee
    exact ⟨_, (hts.append hts').expr (h₃ (.call tag callee args) rfl rfl) (by simp [Expr.all]),
      .call hcallee hargs⟩

theorem argumentList_derives (σ : ParseState) :
    Meets (argumentListWithin (n + 1)) σ (TookExprs .list σ) := by
  refine .look (isNext_yields _) fun found _ => ?_
  cases found with
  | true => exact .pure ⟨[], .refl _, .noArgument⟩
  | false =>
    refine (h.binary .relational σ).bind fun arg σ₂ ⟨ts, hts, harg⟩ => ?_
    refine (eat_parsed _).andThen fun comma σ₃ ⟨h₃, _⟩ => ?_
    cases comma with
    | true =>
      refine (h.argumentList σ₃).bind fun rest σ₄ ⟨ts', hts', hrest⟩ => ?_
      exact .pure ⟨_, hts.append (h₃.append hts'), .moreArguments harg hrest⟩
    | false =>
      have hall : Expr.allOfList [arg] = arg.all ++ [] := by rw [Expr.allOfList, Expr.allOfList]
      refine .pure ⟨_, (hts.append h₃).perm (.of_eq (hall ▸ rfl)), ?_⟩
      rw [if_neg Bool.false_ne_true, List.append_nil]
      exact .lastArgument harg

theorem atom_derives (σ : ParseState) :
    Meets (atomWithin (n + 1)) σ (TookExpr .atom σ) := by
  refine .line fun line => ?_
  refine .look peek_yields fun shape hshape => ?_
  -- What stands next decides the form; everything but these four is no expression.
  rcases shape with _ | keyword | name | value | text | symbol
  · exact .unexpected _
  · exact .unexpected _
  · refine expectIdent_parsed.bind fun ident σ₃ h₃ => ?_
    refine (freshExpr_parsed line).andThen fun tag σ₄ h₄ => ?_
    exact .pure ⟨_, h₃.expr (h₄ (.name tag ident) rfl rfl) rfl, .name⟩
  · refine (advance_parsed hshape.symm).andThen fun _ σ₃ h₃ => ?_
    refine (freshExpr_parsed line).andThen fun tag σ₄ h₄ => ?_
    exact .pure ⟨_, h₃.expr (h₄ (.int tag value) rfl rfl) rfl, .int⟩
  · refine (advance_parsed hshape.symm).andThen fun _ σ₃ h₃ => ?_
    refine (freshExpr_parsed line).andThen fun tag σ₄ h₄ => ?_
    exact .pure ⟨_, h₃.expr (h₄ (.string tag text) rfl rfl) rfl, .string⟩
  · cases symbol with
    | openParen =>
      refine (advance_parsed hshape.symm).andThen fun _ σ₃ h₃ => ?_
      refine (h.binary .relational σ₃).bind fun e σ₄ ⟨ts, hts, he⟩ => ?_
      refine expect_parsed.bind fun _ σ₅ h₅ => ?_
      exact .pure ⟨_, h₃.cons (hts.andTake h₅), .paren he⟩
    | _ => exact .unexpected _

end

/-- Every expression that is read is spelled by its tokens. -/
theorem derivesExprs (n : Nat) : DerivesExprs n := by
  induction n with
  | zero => exact derivesExprs_zero
  | succ n h =>
    refine ⟨?_, ?_, fun level lhs σ₀ σ => operators_derive h level lhs, prefixed_derives h,
      fun callee σ₀ σ => calls_derive h callee, ?_, argumentList_derives h, atom_derives h⟩
    · intro level σ
      refine (h.operand level σ).bind ?_
      rintro lhs σ₁ ⟨ts, hts, hlhs⟩
      exact h.operators level lhs σ σ₁ ⟨ts, hts, .operand hlhs⟩
    · intro level σ
      show Meets _ σ fun e σ' => TookExpr (.operand level) σ e σ'
      simp only [operandWithin, TookExpr, Phrase.operand]
      cases level.tighter with
      | some tighter => exact h.binary tighter σ
      | none => exact h.prefixed σ
    · intro σ
      refine expect_parsed.bind fun _ σ₁ h₁ => ?_
      refine (h.argumentList σ₁).bind ?_
      rintro args σ₂ ⟨ts, hts, hargs⟩
      refine expect_parsed.bind fun _ σ₃ h₃ => ?_
      exact .pure ⟨_, h₁.cons (hts.andTake h₃), .arguments hargs⟩

theorem expression_derives (σ : ParseState) :
    Meets expression σ (TookExpr (.level .relational) σ) :=
  .get_bind ((derivesExprs _).binary _ _)

theorem callArguments_derive (σ : ParseState) :
    Meets callArguments σ (TookExprs .arguments σ) :=
  .get_bind ((derivesExprs _).arguments _)

/-! ## Parts of functions -/

/-- Attributes were read. -/
def TookAttrs (σ : ParseState) (attrs : List Attr) (σ' : ParseState) : Prop :=
  Took σ σ' { exprs := attrs.flatMap fun a => Expr.allOfList a.args } (Attrs (attrs.map Attr.plain))

theorem attributesWithin_derive (n : Nat) (σ : ParseState) :
    Meets (attributesWithin n) σ (TookAttrs σ) := by
  induction n generalizing σ with
  | zero => exact .unexpected _
  | succ n ih =>
    refine .line fun line => ?_
    refine (eat_parsed _).andThen fun found σ₂ ⟨h₂, _⟩ => ?_
    cases found with
    | false => exact .pure ⟨_, h₂, .nil⟩
    | true =>
      refine expect_parsed.bind fun _ σ₃ h₃ => ?_
      refine expectIdent_parsed.bind fun ident σ₄ h₄ => ?_
      refine .look (isNext_yields _) fun opened _ => ?_
      have hafter : ∀ args σ₆,
          Took σ₄ σ₆ { exprs := Expr.allOfList args } (AttrArgs (Expr.plainList args)) →
          Meets (do
            let _ ← expectSymbol .closeBracket
            return ⟨ident, line, args⟩ :: (← attributesWithin n)) σ₆ (TookAttrs σ) := by
        intro args σ₆ hargs
        refine expect_parsed.bind fun _ σ₇ h₇ => ?_
        refine (ih σ₇).bind fun rest σ₈ ⟨ts', hts', hrest⟩ => ?_
        obtain ⟨ts, hts, hargs⟩ := hargs
        exact .pure ⟨_, h₂.append (h₃.cons (h₄.cons (hts.append (h₇.cons hts')))),
          .cons hargs hrest⟩
      cases opened with
      | true =>
        refine (callArguments_derive σ₄).bind fun args σ₆ hargs => hafter args σ₆ ?_
        obtain ⟨ts, hts, hargs⟩ := hargs
        exact ⟨ts, hts, .present hargs⟩
      | false => exact hafter [] σ₄ ⟨[], .refl _, .absent⟩

theorem attributes_derive (σ : ParseState) :
    Meets attributes σ (TookAttrs σ) :=
  .get_bind (attributesWithin_derive _ _)

def paramTypes (params : List Param) : List TypeExpr :=
  (params.map Param.type).flatMap Module.typesWithin

theorem paramsWithin_derive (n : Nat) (σ : ParseState) :
    Meets (paramsWithin n) σ fun params σ' =>
      Took σ σ' { types := paramTypes params } (Params (params.map Param.plain)) := by
  induction n generalizing σ with
  | zero => exact .unexpected _
  | succ n ih =>
    refine .look (isNext_yields _) fun closed _ => ?_
    cases closed with
    | true => exact .pure ⟨[], .refl _, .nil⟩
    | false =>
      refine .line fun line => ?_
      refine expectIdent_parsed.bind fun ident σ₃ h₃ => ?_
      refine expect_parsed.bind fun _ σ₄ h₄ => ?_
      refine (type_derives σ₄).bind fun t σ₅ ⟨ts, hts, ht⟩ => ?_
      refine (eat_parsed _).andThen fun comma σ₆ ⟨h₆, _⟩ => ?_
      cases comma with
      | true =>
        refine (ih σ₆).bind fun rest σ₇ ⟨ts', hts', hrest⟩ => ?_
        exact .pure ⟨_, h₃.cons (h₄.cons (hts.append (h₆.append hts'))), .more ht hrest⟩
      | false =>
        refine .pure ⟨_, h₃.cons (h₄.cons (hts.append h₆)), ?_⟩
        rw [if_neg Bool.false_ne_true, List.append_nil]
        exact .last ht

theorem params_derive (σ : ParseState) :
    Meets params σ fun params σ' => Took σ σ' { types := paramTypes params } fun ts =>
      ∃ ps, Params (params.map Param.plain) ps ∧
        ts = .symbol .openParen :: (ps ++ [.symbol .closeParen]) := by
  refine expect_parsed.bind fun _ σ₁ h₁ => ?_
  refine .get_bind ?_
  refine (paramsWithin_derive _ _).bind fun params σ₂ ⟨ps, hps, hparams⟩ => ?_
  refine expect_parsed.bind fun _ σ₃ h₃ => ?_
  exact .pure ⟨_, h₁.cons (hps.andTake h₃), ps, hparams, rfl⟩

theorem resultType_derives (line : Nat) (σ : ParseState) :
    Meets (resultType line) σ fun t σ' =>
      Took σ σ' { types := Module.typesWithin t } (Result t.plain) := by
  refine (eat_parsed _).andThen fun arrow σ₁ ⟨h₁, _⟩ => ?_
  cases arrow with
  | true =>
    refine (type_derives σ₁).mono fun t σ₂ ⟨ts, hts, ht⟩ => ?_
    exact ⟨_, h₁.append hts, .present ht⟩
  | false =>
    refine (freshType_parsed line).andThen fun tag σ₂ h₂ => ?_
    exact .pure ⟨_, h₁.type (h₂ (.void tag) rfl rfl) rfl, .absent⟩

/-! ## Statements -/

theorem optional_meets {α β : Type} {present : Bool} {x : Parse α} {k : Option α → Parse β}
    {σ : ParseState} {ok : β → ParseState → Prop} (mid : Option α → ParseState → Prop)
    (hsome : present = true → Meets x σ fun a σ' => mid (some a) σ') (hnone : present = false → mid none σ)
    (hk : ∀ a σ', mid a σ' → Meets (k a) σ' ok) :
    Meets (if present = true then do
        let a ← some <$> x
        k a
      else do
        let a ← pure none
        k a) σ ok := by
  cases present with
  | true => exact (Meets.map (hsome rfl)).bind hk
  | false => exact hk none σ (hnone rfl)

/-- A statement without its tag was read, spelled as a given kind of clause. Its nodes are those that
were made and, last, the statement itself. -/
def TookUntagged (clause : Stmt → Clause) (σ : ParseState) (f : Tag → Stmt) (σ' : ParseState) : Prop :=
  ∃ s nodes, Took σ σ' nodes (Stmts (clause s)) ∧ ∀ tag, (f tag).plain = s ∧ (f tag).id = tag.id ∧
    (f tag).isError = false ∧ (nodes ++ { stmts := [f tag] }).Perm (Nodes.ofStmts (f tag).all)

namespace TookUntagged

variable {clause : Stmt → Clause} {σ σ' σ'' : ParseState} {f : Tag → Stmt}

/-- A statement gets its tag last, and maybe after a block that it stands in. -/
theorem tagged (h : TookUntagged clause σ f σ') {tag : Tag} {blocks : List Block}
    (htag : (f tag).id = tag.id → (f tag).isError = false →
      (∀ s ∈ Stmt.category.inner (f tag), s.id < σ'.stmtIds.next) →
      (∀ b ∈ (f tag).all.flatMap Stmt.ownBlocks, b.tag.id < σ'.blockIds.next) →
      Parsed σ' σ'' [] { stmts := [f tag], blocks }) :
    Took σ σ'' ({ blocks } ++ Nodes.ofStmts (f tag).all) (Stmts (clause (f tag).plain)) := by
  obtain ⟨s, nodes, ⟨ts, hts, hs⟩, hf⟩ := h
  obtain ⟨rfl, hid, hclean, hperm⟩ := hf tag
  have hall : (f tag).all = f tag :: Stmt.category.inner (f tag) := by cases f tag <;> rfl
  have hinner : nodes.stmts.Perm (Stmt.category.inner (f tag)) :=
    ((List.perm_append_singleton _ _).symm.trans (hall ▸ hperm.stmts)).cons_inv
  have hblocks : nodes.blocks.Perm ((f tag).all.flatMap Stmt.ownBlocks) := by
    simpa [Nodes.ofStmts] using hperm.blocks
  have hparsed := hts.append (htag hid hclean
    (fun s hs => hts.made.stmts.lt_next (hinner.mem_iff.2 hs))
    fun b hb => hts.made.blocks.lt_next (hblocks.mem_iff.2 hb))
  rw [List.append_nil] at hparsed
  refine ⟨ts, hparsed.perm ⟨hperm.stmts, hperm.exprs, hperm.types, ?_⟩, hs⟩
  exact List.perm_append_comm.trans (hblocks.append_left _)

theorem of_parts {s : Stmt} {ts : List Shape} (exprs : List Expr) (types : List TypeExpr)
    (blocks : List Block) (h : Parsed σ σ' ts ({ exprs, types } ++ Nodes.ofBlocks blocks))
    (hs : Stmts (clause s) ts)
    (hf : ∀ tag, (f tag).plain = s ∧ (f tag).id = tag.id ∧ (f tag).isError = false ∧
      (f tag).all = f tag :: blocks.flatMap Stmt.allOfBlock ∧
      (f tag).ownExprs.flatMap Expr.all ++ (f tag).attrExprs = exprs ∧
      (Module.ownTypes (f tag)).flatMap Module.typesWithin = types ∧ (f tag).ownBlocks = blocks) :
    TookUntagged clause σ f σ' := by
  refine ⟨s, _, ⟨ts, h, hs⟩, fun tag => ?_⟩
  obtain ⟨hplain, hid, hclean, hall, rfl, rfl, hblocks⟩ := hf tag
  refine ⟨hplain, hid, hclean, ?_⟩
  rw [hall]
  refine ⟨List.perm_append_singleton _ _, .of_eq ?_, .of_eq ?_, .of_eq ?_⟩
  · simp [Nodes.ofStmts, Nodes.ofBlocks]
  · simp [Nodes.ofStmts, Nodes.ofBlocks]
  · simp [Nodes.ofStmts, Nodes.ofBlocks, hblocks]

theorem of_own {s : Stmt} {ts : List Shape} (exprs : List Expr) (types : List TypeExpr)
    (h : Parsed σ σ' ts { exprs, types }) (hs : Stmts (clause s) ts)
    (hf : ∀ tag, (f tag).plain = s ∧ (f tag).id = tag.id ∧ (f tag).isError = false ∧
      (f tag).all = [f tag] ∧ (f tag).ownExprs.flatMap Expr.all ++ (f tag).attrExprs = exprs ∧
      (Module.ownTypes (f tag)).flatMap Module.typesWithin = types ∧ (f tag).ownBlocks = []) :
    TookUntagged clause σ f σ' := by
  refine of_parts exprs types [] (h.perm (.of_eq ?_)) hs hf
  show _ = Nodes.mk _ _ _ _
  simp [Nodes.ofStmts, Nodes.ofBlocks]

end TookUntagged

theorem declaration_derives (σ : ParseState) :
    Meets declaration σ (TookUntagged .statement σ) := by
  refine expect_parsed.bind fun _ σ₁ h₁ => ?_
  refine expectIdent_parsed.bind fun ident σ₂ h₂ => ?_
  refine (eat_parsed _).andThen fun colon σ₃ ⟨h₃, _⟩ => ?_
  refine optional_meets (fun type σ₄ => Took σ₂ σ₄
    { types := type.elim [] Module.typesWithin } (CellType (type.map TypeExpr.plain))) ?_ ?_
    fun type σ₄ htype => ?_
  · rintro rfl
    refine (type_derives σ₃).mono fun type σ₄ ⟨ts, hts, htype⟩ => ?_
    exact ⟨_, h₃.append hts, .present htype⟩
  · rintro rfl
    exact ⟨_, h₃, .absent⟩
  refine (eat_parsed _).andThen fun equals σ₅ ⟨h₅, _⟩ => ?_
  refine optional_meets (fun value σ₆ => Took σ₄ σ₆ { exprs := value.elim [] Expr.all }
    (CellValue (value.map Expr.plain))) ?_ ?_ fun value σ₆ hvalue => ?_
  · rintro rfl
    refine (expression_derives σ₅).mono fun value σ₆ ⟨vs, hvs, hvalue⟩ => ?_
    exact ⟨_, h₅.append hvs, .present hvalue⟩
  · rintro rfl
    exact ⟨_, h₅, .absent⟩
  refine expect_parsed.bind fun _ σ₇ h₇ => ?_
  obtain ⟨ts, hts, htype⟩ := htype
  obtain ⟨vs, hvs, hvalue⟩ := hvalue
  refine .pure (.of_own (value.elim [] Expr.all) (type.elim [] Module.typesWithin)
    ((h₁.cons (h₂.cons (hts.append (hvs.andTake h₇)))).perm (.of_eq ?_)) (.declare htype hvalue)
    fun tag => ⟨rfl, rfl, rfl, by simp [Stmt.all], ?_, ?_, rfl⟩)
  · show Nodes.mk _ _ _ _ = _
    simp
  · cases value <;> simp [Stmt.ownExprs, Stmt.attrExprs, Stmt.function?]
  · cases type <;> simp [Module.ownTypes]

theorem returnStatement_derives (σ : ParseState) :
    Meets returnStatement σ (TookUntagged .statement σ) := by
  refine expect_parsed.bind fun _ σ₁ h₁ => ?_
  refine .look (isNext_yields _) fun bare _ => ?_
  cases bare with
  | true =>
    have hend : Meets (expectSymbol .semicolon) σ₁ fun _ σ₃ => Parsed σ₁ σ₃ [.symbol .semicolon] {} :=
      expect_parsed
    exact hend.bind fun _ σ₃ h₃ => .pure (.of_own [] [] (h₁.cons h₃) .returnNothing
      fun tag => ⟨rfl, rfl, rfl, by simp [Stmt.all], rfl, rfl, rfl⟩)
  | false =>
    have hvalue : Meets (some <$> expression) σ₁ fun value σ₃ =>
        ∃ e, value = some e ∧ TookExpr (.level .relational) σ₁ e σ₃ :=
      Meets.map ((expression_derives σ₁).mono fun e σ₃ he => ⟨e, rfl, he⟩)
    refine hvalue.bind ?_
    rintro _ σ₃ ⟨e, rfl, ts, hts, he⟩
    refine expect_parsed.bind fun _ σ₄ h₄ => ?_
    refine .pure (.of_own e.all [] (h₁.cons (hts.andTake h₄)) (.returnValue he) fun tag => ?_)
    exact ⟨rfl, rfl, rfl, by simp [Stmt.all], by simp [Stmt.ownExprs, Stmt.attrExprs, Stmt.function?],
      rfl, rfl⟩

theorem breakStatement_derives (σ : ParseState) :
    Meets breakStatement σ (TookUntagged .statement σ) := by
  refine expect_parsed.bind fun _ σ₁ h₁ => ?_
  refine expect_parsed.bind fun _ σ₂ h₂ => ?_
  exact .pure (.of_own [] [] (h₁.cons h₂) .break
    fun tag => ⟨rfl, rfl, rfl, by simp [Stmt.all], rfl, rfl, rfl⟩)

theorem simpleStatement_derives (σ : ParseState) :
    Meets simpleStatement σ (TookUntagged .statement σ) := by
  refine (expression_derives σ).bind fun subject σ₁ ⟨ts, hts, hsubject⟩ => ?_
  refine (eat_parsed _).andThen fun equals σ₂ ⟨h₂, _⟩ => ?_
  cases equals with
  | true =>
    refine (expression_derives σ₂).bind fun value σ₃ ⟨vs, hvs, hvalue⟩ => ?_
    refine expect_parsed.bind fun _ σ₄ h₄ => ?_
    refine .pure (.of_own (subject.all ++ value.all) [] (hts.append (h₂.append (hvs.andTake h₄)))
      (.assign hsubject hvalue) fun tag => ⟨rfl, rfl, rfl, by simp [Stmt.all], ?_, rfl, rfl⟩)
    simp [Stmt.ownExprs, Stmt.attrExprs, Stmt.function?]
  | false =>
    refine expect_parsed.bind fun _ σ₃ h₃ => ?_
    refine .pure (.of_own subject.all [] (hts.andTake (h₂.append h₃)) (.eval hsubject)
      fun tag => ⟨rfl, rfl, rfl, by simp [Stmt.all], ?_, rfl, rfl⟩)
    simp [Stmt.ownExprs, Stmt.attrExprs, Stmt.function?]

/-! ## Statements that hold statements -/

/-- What becomes of a statement on a line: it is tagged, or what is wrong with it is noted and it is
skipped. -/
def settle (line : Nat) : EStateM.Result Diagnostic ParseState (Tag → Stmt) →
    EStateM.Result Diagnostic ParseState Stmt
  | .ok f σ => .ok (f ⟨σ.stmtIds.next, line⟩) { σ with stmtIds := σ.stmtIds.take.2 }
  | .error problem σ =>
    .ok (.error ⟨σ.stmtIds.next, line⟩)
      { σ with
        tokens := afterStatement 0 σ.tokens
        stmtIds := σ.stmtIds.take.2
        problems := σ.problems ++ [problem] }

theorem run_statementWithin (n : Nat) (σ : ParseState) : statementWithin (n + 1) σ =
    settle ((σ.tokens.head?.map Token.line).getD σ.lastLine) (untaggedWithin n σ) := by
  change EStateM.bind (EStateM.tryCatch (EStateM.bind (untaggedWithin n) _) _) _ σ = _
  delta EStateM.bind EStateM.tryCatch
  cases untaggedWithin n σ <;> rfl

/-- A step for each of the ways to go on between statements. -/
def between {α : Type} (atEnd atBrace atStatement : Parse α) : Parse α := do
  match ← peek with
  | none => atEnd
  | some (.symbol .closeBrace) => atBrace
  | some _ => atStatement

/-- A clause was read, with given nodes, unless a problem was noted. -/
def TookStmts (σ : ParseState) (clause : Clause) (nodes : Nodes) (σ' : ParseState) : Prop :=
  σ'.problems = [] → Took σ σ' nodes (Stmts clause)

/-- A block was read, unless a problem was noted. -/
def TookBlock (σ : ParseState) (b : Block) (σ' : ParseState) : Prop :=
  TookStmts σ (.block b.plain) (Nodes.ofBlocks [b]) σ'

/-- What is read at a bound on the nesting: statements that their tokens spell, unless a problem was
noted. -/
structure DerivesStmts (n : Nat) : Prop where
  block : ∀ σ, Meets (blockWithin n) σ (TookBlock σ)
  statements : ∀ σ, Meets (statementsWithin n) σ fun list =>
    TookStmts σ (.statements (Stmt.plainList list)) (Nodes.ofStmts (Stmt.allOfList list))
  statement : ∀ σ, Meets (statementWithin n) σ fun s =>
    TookStmts σ (.statement s.plain) (Nodes.ofStmts s.all)
  untagged : ∀ σ, Meets (untaggedWithin n) σ fun f σ' =>
    σ'.problems = [] → TookUntagged .statement σ f σ'
  function : ∀ σ, Meets (functionWithin n) σ fun f σ' =>
    σ'.problems = [] → TookUntagged .statement σ f σ'
  choice : ∀ σ, Meets (choiceWithin n) σ fun f σ' => σ'.problems = [] → TookUntagged .choice σ f σ'
  alternative : ∀ σ, Meets (alternativeWithin n) σ fun b =>
    TookStmts σ (.alternative (Block.plainOption b)) (Nodes.ofBlocks b.toList)

theorem derivesStmts_zero : DerivesStmts 0 where
  block _ := .unexpected _
  statements _ := .unexpected _
  statement _ := .unexpected _
  untagged _ := .unexpected _
  function _ := .unexpected _
  choice _ := .unexpected _
  alternative _ := .unexpected _

section

variable {n : Nat} (h : DerivesStmts n)
include h

theorem block_derives (σ : ParseState) : Meets (blockWithin (n + 1)) σ (TookBlock σ) := by
  refine expect_parsed.bind fun line σ₁ h₁ => ?_
  refine (h.statements σ₁).bind fun list σ₂ hlist => ?_
  refine expect_parsed.bind fun _ σ₃ h₃ => ?_
  refine (freshBlock_parsed line).andThen fun tag σ₄ ⟨hσ₄, h₄⟩ => ?_
  refine .pure fun hclean => ?_
  rw [hσ₄] at hclean
  obtain ⟨ts, hts, hlist⟩ := hlist (h₃.clean hclean)
  exact ⟨_, (h₁.cons (hts.andTake h₃)).block (h₄ ⟨tag, list⟩ rfl), .block hlist⟩

theorem statements_derive (σ : ParseState) : Meets (statementsWithin (n + 1)) σ fun list =>
    TookStmts σ (.statements (Stmt.plainList list)) (Nodes.ofStmts (Stmt.allOfList list)) := by
  refine .look peek_yields fun shape _ => ?_
  split
  · exact .pure fun _ => ⟨[], .refl _, .nil⟩
  · exact .pure fun _ => ⟨[], .refl _, .nil⟩
  · refine (h.statement σ).bind fun s σ₂ hs => ?_
    refine (h.statements σ₂).bind fun rest σ₃ hrest => ?_
    refine .pure fun hclean => ?_
    obtain ⟨ts', hts', hrest⟩ := hrest hclean
    obtain ⟨ts, hts, hs⟩ := hs (hts'.clean hclean)
    rw [Stmt.allOfList, Nodes.ofStmts_append]
    exact ⟨_, hts.append hts', .cons hs hrest⟩

/-- A statement that cannot be read is noted as a problem, so nothing is said about it. -/
theorem statement_derives (σ : ParseState) : Meets (statementWithin (n + 1)) σ fun s =>
    TookStmts σ (.statement s.plain) (Nodes.ofStmts s.all) := by
  have hread := h.untagged σ
  rw [Meets, Ensures] at hread ⊢
  rw [run_statementWithin]
  cases hrun : untaggedWithin n σ with
  | ok f σ₁ =>
    rw [hrun] at hread
    refine fun hclean => @TookUntagged.tagged _ _ _ _ _ (hread hclean) _ [] fun hid hread habove _ => ?_
    exact ⟨⟨rfl, rfl⟩, .take hid hread habove, .nil rfl, .nil rfl, .nil rfl⟩
  | error problem σ₁ =>
    exact fun hnil => absurd hnil (List.append_ne_nil_of_right_ne_nil _ (List.cons_ne_nil _ _))

theorem function_derives (σ : ParseState) : Meets (functionWithin (n + 1)) σ fun f σ' =>
    σ'.problems = [] → TookUntagged .statement σ f σ' := by
  refine (attributes_derive σ).bind fun attrs σ₁ ⟨as, has, hattrs⟩ => ?_
  refine .look (isNext_yields _) fun found _ => ?_
  cases found with
  | false => exact .unexpected _
  | true =>
    refine expect_parsed.bind fun line σ₃ h₃ => ?_
    refine expectIdent_parsed.bind fun ident σ₄ h₄ => ?_
    refine (params_derive σ₄).bind fun params σ₅ hparams => ?_
    obtain ⟨_, hps, ps, hparams, rfl⟩ := hparams
    refine (resultType_derives line σ₅).bind fun result σ₆ ⟨rs, hrs, hresult⟩ => ?_
    refine (eat_parsed _).andThen fun bare σ₇ ⟨h₇, _⟩ => ?_
    have hafter : ∀ (body : Option Block) (σ₈ : ParseState),
        TookStmts σ₆ (.body (Block.plainOption body)) (Nodes.ofBlocks body.toList) σ₈ →
        Meets (return fun tag => .function tag ⟨ident, attrs, params, result, body⟩) σ₈
          fun f σ' => σ'.problems = [] → TookUntagged .statement σ f σ' := by
      intro body σ₈ hbody
      refine .pure fun hclean => ?_
      obtain ⟨bs, hbs, hbody⟩ := hbody hclean
      have hparsed := has.append (h₃.cons (h₄.cons (hps.append (hrs.append hbs))))
      simp only [List.cons_append, List.nil_append, List.append_assoc] at hparsed
      refine .of_parts (attrs.flatMap fun a => Expr.allOfList a.args)
        (paramTypes params ++ Module.typesWithin result) body.toList
        (hparsed.perm (.of_eq ?_)) (.function hattrs hparams hresult hbody)
        fun tag => ⟨rfl, rfl, rfl, ?_, ?_, ?_, rfl⟩
      · show Nodes.mk _ _ _ _ = Nodes.mk _ _ _ _
        simp
      · simp [Stmt.all, Stmt.allOfBody, Stmt.allOfOption_eq]
      · simp [Stmt.ownExprs, Stmt.attrExprs, Stmt.function?]
      · simp [Module.ownTypes, paramTypes]
    cases bare with
    | true => exact hafter none σ₇ fun _ => ⟨_, h₇, .noBody⟩
    | false =>
      refine (Meets.map ((h.block σ₇).mono fun b σ₈ hb => ?_)).bind hafter
      intro hclean
      obtain ⟨ts, hts, hb⟩ := hb hclean
      exact ⟨_, h₇.append hts, .body hb⟩

theorem choice_derives (σ : ParseState) : Meets (choiceWithin (n + 1)) σ fun f σ' =>
    σ'.problems = [] → TookUntagged .choice σ f σ' := by
  refine expect_parsed.bind fun _ σ₁ h₁ => ?_
  refine (expression_derives σ₁).bind fun condition σ₂ ⟨cs, hcs, hcondition⟩ => ?_
  refine (h.block σ₂).bind fun truthy σ₃ htruthy => ?_
  refine (h.alternative σ₃).bind fun falsy σ₄ hfalsy => ?_
  refine .pure fun hclean => ?_
  obtain ⟨fs, hfs, hfalsy⟩ := hfalsy hclean
  obtain ⟨ts, hts, htruthy⟩ := htruthy (hfs.clean hclean)
  refine .of_parts condition.all [] (truthy :: falsy.toList)
    (h₁.cons (hcs.append ((hts.append hfs).perm (Nodes.ofBlocks_append _ _))))
    (.choose hcondition htruthy hfalsy) fun tag => ⟨rfl, rfl, rfl, ?_, ?_, rfl, rfl⟩
  · simp [Stmt.all, Stmt.allOfOption_eq]
  · simp [Stmt.ownExprs, Stmt.attrExprs, Stmt.function?]

theorem alternative_derives (σ : ParseState) : Meets (alternativeWithin (n + 1)) σ fun b =>
    TookStmts σ (.alternative (Block.plainOption b)) (Nodes.ofBlocks b.toList) := by
  refine (eat_parsed _).andThen fun found σ₁ ⟨h₁, _⟩ => ?_
  cases found with
  | false => exact .pure fun _ => ⟨_, h₁, .noAlternative⟩
  | true =>
    refine .look (isNext_yields _) fun nested _ => ?_
    cases nested with
    | false =>
      refine Meets.map ((h.block σ₁).mono fun b σ₃ hb hclean => ?_)
      obtain ⟨ts, hts, hb⟩ := hb hclean
      exact ⟨_, h₁.append hts, .otherwise hb⟩
    | true =>
      refine .line fun line => ?_
      refine (h.choice σ₁).bind fun f σ₄ hf => ?_
      refine (freshBlock_parsed line).andThen fun blockTag σ₅ ⟨hσ₅, h₅⟩ => ?_
      refine (freshStmt_parsed line).andThen fun tag σ₆ ⟨hσ₆, h₆⟩ => ?_
      refine .pure fun hclean => ?_
      rw [hσ₆, hσ₅] at hclean
      have hall : Stmt.allOfBlock ⟨blockTag, [f tag]⟩ = (f tag).all := by
        simp [Stmt.allOfBlock, Stmt.allOfList]
      have htook : Took σ₁ σ₆ ({ blocks := [⟨blockTag, [f tag]⟩] } ++ Nodes.ofStmts (f tag).all)
          (Stmts (.choice (f tag).plain)) := by
        refine (hf hclean).tagged fun hid hread habove hblocks => ?_
        -- The block is made before its only statement.
        have hblock := h₅ ⟨blockTag, [f tag]⟩ rfl (by simpa only [Block.category, hall] using hblocks)
        have hle := hblock.made.stmts.ids.1
        exact hblock.append (h₆ (f tag) hid hread fun s hs => (habove s hs).trans_le hle)
      obtain ⟨ts, hts, hs⟩ := htook
      have hplain : Block.plainOption (some ⟨blockTag, [f tag]⟩) = some ⟨.blank, [(f tag).plain]⟩ := by
        rw [Block.plainOption, Block.plain, Stmt.plainList, Stmt.plainList]
      rw [hplain, Nodes.ofBlocks, Option.toList_some, List.flatMap_singleton, hall]
      exact ⟨_, h₁.append hts, .otherwiseIf hs⟩

theorem untagged_derives (σ : ParseState) : Meets (untaggedWithin (n + 1)) σ fun f σ' =>
    σ'.problems = [] → TookUntagged .statement σ f σ' := by
  refine .look peek_yields fun shape hshape => ?_
  split
  · exact .unexpected _
  · exact h.function σ
  · exact h.function σ
  · exact (declaration_derives σ).mono fun f σ₂ hf _ => hf
  · refine (advance_parsed hshape.symm).andThen fun _ σ₂ h₂ => ?_
    refine (h.block σ₂).bind fun body σ₃ hbody => ?_
    refine .pure fun hclean => ?_
    obtain ⟨ts, hts, hbody⟩ := hbody hclean
    exact .of_parts [] [] [body] (h₂.cons hts) (.loop hbody)
      fun tag => ⟨rfl, rfl, rfl, by simp [Stmt.all], rfl, rfl, rfl⟩
  · refine (advance_parsed hshape.symm).andThen fun _ σ₂ h₂ => ?_
    refine (expression_derives σ₂).bind ?_
    rintro condition σ₃ ⟨cs, hcs, hcondition⟩
    refine (h.block σ₃).bind fun body σ₄ hbody => ?_
    refine .pure fun hclean => ?_
    obtain ⟨ts, hts, hbody⟩ := hbody hclean
    refine .of_parts condition.all [] [body] (h₂.cons (hcs.append hts))
      (.while hcondition hbody) fun tag => ⟨rfl, rfl, rfl, by simp [Stmt.all], ?_, rfl, rfl⟩
    simp [Stmt.ownExprs, Stmt.attrExprs, Stmt.function?]
  · refine (h.choice σ).mono fun f σ₂ hf hclean => ?_
    obtain ⟨s, nodes, ⟨ts, hts, hs⟩, hf⟩ := hf hclean
    exact ⟨s, nodes, ⟨ts, hts, .choice hs⟩, hf⟩
  · exact (returnStatement_derives σ).mono fun f σ₂ hf _ => hf
  · exact (breakStatement_derives σ).mono fun f σ₂ hf _ => hf
  · exact (simpleStatement_derives σ).mono fun f σ₂ hf _ => hf

end

/-- Every statement that is read without a problem is spelled by its tokens. -/
theorem derivesStmts (n : Nat) : DerivesStmts n := by
  induction n with
  | zero => exact derivesStmts_zero
  | succ n h =>
    exact ⟨block_derives h, statements_derive h, statement_derives h, untagged_derives h,
      function_derives h, choice_derives h, alternative_derives h⟩

theorem itemsWithin_derive (n : Nat) (σ : ParseState) : Meets (itemsWithin n) σ fun list σ' =>
    σ'.problems = [] → Parsed σ σ' σ.shapes (Nodes.ofStmts (Stmt.allOfList list)) ∧
      Stmts (.statements (Stmt.plainList list)) σ.shapes := by
  induction n generalizing σ with
  | zero => exact .unexpected _
  | succ n ih =>
    refine .look peek_yields fun shape hshape => ?_
    split
    · have hnil : σ.shapes = [] := List.head?_eq_none_iff.1 hshape.symm
      rw [hnil]
      exact .pure fun _ => ⟨.refl _, .nil⟩
    · -- A brace that closes no block is a problem.
      refine .line fun line => ?_
      have hreport : Meets (report (ParseProblem.strayBrace.onLine line)) σ fun _ σ₃ =>
          σ₃.problems ≠ [] ∧ σ₃.shapes = σ.shapes := Ensures.modify ⟨by simp, rfl⟩
      refine hreport.bind fun _ σ₃ h₃ => ?_
      refine (advance_parsed (h₃.2 ▸ hshape.symm)).andThen fun _ σ₄ h₄ => ?_
      refine (ih σ₄).mono fun list σ₅ hlist hclean => ?_
      obtain ⟨htakes, -⟩ := hlist hclean
      exact absurd ((h₄.append htakes).clean hclean) h₃.1
    · refine Meets.bind (.get_bind ((derivesStmts _).statement σ)) fun s σ hs => ?_
      refine (ih σ).bind fun rest σ₃ hrest => ?_
      refine .pure fun hclean => ?_
      obtain ⟨hrests, hrest⟩ := hrest hclean
      obtain ⟨ts, hts, hs⟩ := hs (hrests.clean hclean)
      rw [hts.shapes, Stmt.allOfList, Nodes.ofStmts_append]
      exact ⟨hts.append hrests, .cons hs hrest⟩

end Parse

end WordLang
