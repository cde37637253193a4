import WordLang.Proofs.Flow.Refinement

/-!
# Rewriting graphs

Statements work on the cells and the stack of an activation and never look at the graph. Two
graphs therefore do the same if their code corresponds: what is left of a block has the same
statements, and its terminator leads to corresponding blocks, or along an edge that the second
graph does not have.

## Main definitions

* `Flow.Function.Rewriting f f'`: a correspondence between the code of two functions

## Main results

* `Flow.Function.Rewriting.simulation`: functions whose code corresponds simulate each other
-/

namespace WordLang.Flow

/-- A correspondence between the code of two functions: between what is left of a block of the
first and what is left of a block of the second. -/
structure Function.Rewriting (f f' : Function) where
  rel : List Statement → Terminator → List Statement → Terminator → Prop
  /-- Falls along the edges that the second function does not have. -/
  rank : List Statement → Terminator → Nat
  statement : ∀ {statement ss t ss' t'}, rel (statement :: ss) t ss' t' →
    ∃ rest', ss' = statement :: rest' ∧ rel ss t rest' t'
  /-- At the end of a block, the second function ends it too, or has the next block in it. -/
  terminator : ∀ {t ss' t'}, rel [] t ss' t' →
    (ss' = [] ∧ t' = t ∧ ∀ s ∈ t.successors, ∃ b b', findBlock? f.blocks s = some b ∧
      findBlock? f'.blocks s = some b' ∧
      rel b.statements b.terminator b'.statements b'.terminator) ∨
    ∃ s b, t = .goto s ∧ findBlock? f.blocks s = some b ∧
      rel b.statements b.terminator ss' t' ∧ rank b.statements b.terminator < rank [] t
  entry : ∃ b b', findBlock? f.blocks f.entry = some b ∧ findBlock? f'.blocks f'.entry = some b' ∧
    rel b.statements b.terminator b'.statements b'.terminator
  locals : f'.locals = f.locals
  params : f'.params = f.params
  result : f'.result = f.result

namespace Function.Rewriting

variable {f f' : Function} (W : f.Rewriting f')

/-- The activations that correspond: they differ in their code only. -/
def FrameRel (g g' : Frame) : Prop :=
  g.function = f ∧ ∃ ss' t', W.rel g.statements g.terminator ss' t' ∧
    g' = { g with function := f', statements := ss', terminator := t' }

/-- A rank for activations. -/
def frameRank (g : Frame) : Nat := W.rank g.statements g.terminator

theorem frameRel_mk {g : Frame} {ss' : List Statement} {t' : Terminator} (hf : g.function = f)
    (h : W.rel g.statements g.terminator ss' t') :
    W.FrameRel g { g with function := f', statements := ss', terminator := t' } :=
  ⟨hf, ss', t', h, rfl⟩

theorem statement_act {g g' : Frame} (h : W.FrameRel g g') (statement : Statement) :
    match statement.act g with
    | .go cost h => ∃ h', statement.act g' = .go cost h' ∧ W.FrameRel h h'
    | .call caller d arguments =>
      ∃ caller', statement.act g' = .call caller' d arguments ∧ W.FrameRel caller caller'
    | .finish _ => False
    | .fail cost stop => statement.act g' = .fail cost stop := by
  obtain ⟨hf, ss', t', hrel, rfl⟩ := h
  cases statement with
  | push | load => exact ⟨_, rfl, W.frameRel_mk hf hrel⟩
  | pop | store =>
    rcases hs : g.stack with - | ⟨value, stack⟩
    · simp only [Statement.act, hs, Action.stuck]
    · simp only [Statement.act, hs]
      exact ⟨_, rfl, W.frameRel_mk hf hrel⟩
  | call arguments =>
    rcases hs : g.stack with - | ⟨value, stack⟩
    · simp only [Statement.act, hs, Action.stuck]
    · cases value with
      | int _ | string _ => simp only [Statement.act, hs, Action.stuck]
      | function decl =>
        by_cases hlen : arguments ≤ stack.length
        · simp only [Statement.act, hs, if_pos hlen]
          exact ⟨_, rfl, W.frameRel_mk hf hrel⟩
        · simp only [Statement.act, hs, if_neg hlen, Action.stuck]
  | binary op =>
    rcases hs : g.stack with - | ⟨rhs, - | ⟨lhs, stack⟩⟩
    · simp only [Statement.act, hs, Action.stuck]
    · simp only [Statement.act, hs, Action.stuck]
    · rcases hop : Evaluation.operator op lhs rhs with stop | value
      · simp only [Statement.act, hs, hop]
      · simp only [Statement.act, hs, hop]
        exact ⟨_, rfl, W.frameRel_mk hf hrel⟩

theorem goto_act {g : Frame} (hf : g.function = f) {target : BlockId} {b b' : Block}
    (hb : findBlock? f.blocks target = some b) (hb' : findBlock? f'.blocks target = some b')
    (h : W.rel b.statements b.terminator b'.statements b'.terminator) (cost : Nat)
    (ss : List Statement) (t : Terminator) :
    ∃ k k', g.goto cost target = .go cost k ∧
      { g with function := f', statements := ss, terminator := t }.goto cost target =
        .go cost k' ∧ W.FrameRel k k' := by
  simp only [Frame.goto, hf, hb, hb']
  exact ⟨_, _, rfl, rfl, rfl, b'.statements, b'.terminator, h, rfl⟩

/-- Corresponding activations do the same. -/
theorem acts {g g' : Frame} (h : W.FrameRel g g') : g.ActsAs W.FrameRel W.frameRank g' := by
  obtain ⟨hf, ss', t', hrel, rfl⟩ := h
  rcases hs : g.statements with - | ⟨statement, rest⟩
  · -- At the end of a block both go on alike, or the first one catches up.
    rw [hs] at hrel
    rcases W.terminator hrel with ⟨rfl, rfl, hsucc⟩ | ⟨s, b, ht, hb, hrel', hrank⟩
    · simp only [Frame.ActsAs, Frame.act, hs]
      cases ht : g.terminator with
      | error => rfl
      | unset => rfl
      | «return» =>
        by_cases hstack : g.stack = []
        · simp only [Terminator.act, if_pos hstack, hf, W.result]
        · simp only [Terminator.act, if_neg hstack, Action.stuck]
      | goto target =>
        obtain ⟨b, b', hb, hb', hrel'⟩ := hsucc target (by simp [ht, Terminator.successors])
        obtain ⟨k, k', hk, hk', hrel''⟩ := W.goto_act (g := g) hf hb hb' hrel' 1 [] (.goto target)
        simp only [Terminator.act]
        rw [hk]
        exact .inl ⟨k', hk', hrel''⟩
      | branch truthy falsy =>
        have hmem : ∀ s, s = truthy ∨ s = falsy → s ∈ g.terminator.successors := by
          intro s hs
          simp only [ht, Terminator.successors]
          split <;> simp_all
        rcases hstack : g.stack with - | ⟨value, stack⟩
        · simp only [Terminator.act, hstack, Action.stuck]
        · cases value with
          | string _ => simp only [Terminator.act, hstack, Action.stuck]
          | function _ => simp only [Terminator.act, hstack, Action.stuck]
          | int value =>
            by_cases hvalue : value ≠ 0
            · obtain ⟨b, b', hb, hb', hrel'⟩ := hsucc truthy (hmem _ (.inl rfl))
              obtain ⟨k, k', hk, hk', hrel''⟩ :=
                W.goto_act (g := { g with stack }) hf hb hb' hrel' 2 [] (.branch truthy falsy)
              simp only [Terminator.act, hstack, if_pos hvalue]
              rw [hk]
              exact .inl ⟨k', hk', hrel''⟩
            · obtain ⟨b, b', hb, hb', hrel'⟩ := hsucc falsy (hmem _ (.inr rfl))
              obtain ⟨k, k', hk, hk', hrel''⟩ :=
                W.goto_act (g := { g with stack }) hf hb hb' hrel' 4 [] (.branch truthy falsy)
              simp only [Terminator.act, hstack, if_neg hvalue]
              rw [hk]
              exact .inl ⟨k', hk', hrel''⟩
    · -- The second activation is at the next block already.
      simp only [Frame.ActsAs, Frame.act, hs, ht, Terminator.act, Frame.goto, hf, hb]
      refine .inr ⟨⟨rfl, ss', t', hrel', ?_⟩, ?_⟩
      · rfl
      · simp only [frameRank, hs, ht] at hrank ⊢
        exact hrank
  · -- The same statement is next in both.
    rw [hs] at hrel
    obtain ⟨rest', rfl, hrel'⟩ := W.statement hrel
    have hact := W.statement_act
      (W.frameRel_mk (g := { g with statements := rest }) hf hrel') statement
    simp only [Frame.ActsAs, Frame.act, hs]
    cases hs' : statement.act { g with statements := rest } with
    | go cost h =>
      rw [hs'] at hact
      exact .inl hact
    | call caller d arguments =>
      rw [hs'] at hact
      exact hact
    | finish value =>
      rw [hs'] at hact
      exact hact.elim
    | fail cost stop =>
      rw [hs'] at hact
      exact hact

theorem slotCount_eq (W : f.Rewriting f') : f'.slotCount = f.slotCount := by
  simp only [Function.slotCount, Linear.slotCells, Linear.innerCells, W.locals, W.params, W.result]

theorem start (arguments : List Value) :
    (f.activation? arguments = none ∧ f'.activation? arguments = none) ∨
      ∃ g g', f.activation? arguments = some g ∧ f'.activation? arguments = some g' ∧
        W.FrameRel g g' := by
  have hcells : f'.startCells arguments = f.startCells arguments := by
    funext cell
    simp only [Function.startCells, W.params]
  simp only [Function.activation?, W.params]
  by_cases hlen : arguments.length = f.params.length
  · obtain ⟨b, b', hb, hb', hrel⟩ := W.entry
    simp only [if_pos hlen, hb, hb', hcells, Option.map_some]
    exact .inr ⟨_, _, rfl, rfl, rfl, b'.statements, b'.terminator, hrel, rfl⟩
  · simp only [if_neg hlen]
    exact .inl ⟨trivial, trivial⟩

def simulation : f.Simulation f' where
  rel := W.FrameRel
  rank := W.frameRank
  acts := W.acts
  push := by
    rintro g g' ⟨hf, ss', t', hrel, rfl⟩ value
    exact W.frameRel_mk (g := g.push value) hf hrel
  start := W.start
  slots := W.slotCount_eq

end Function.Rewriting

end WordLang.Flow
