import WordLang.Proofs.Flow.Simplify

/-!
# What an activation executes

The statements of a graph work on the operand stack and the storage cells of an activation; calls
are answered from outside, and the answer may depend on everything that was executed before. An
activation ends with the value of the result cell and the operand stack that is left, or it fails,
or it goes on forever; on its way it executes statements one by one. Graphs whose code corresponds
execute the same statements and end in the same way, so a simplified graph behaves as the graph did,
as long as every branch has two targets: a branch whose targets are one block is taken for an edge
along which blocks can be fused, and then the value it tests stays on the stack.

## Main definitions

* `Flow.Environment`: what answers calls
* `Flow.Activity`, `Flow.Activity.next`: an activation with the statements it has executed, and its
  next step
* `Flow.Function.Ends`, `Flow.Function.Executes`, `Flow.Function.Diverges`: what comes of an activation
* `Flow.Function.SameBehaviour`: graphs that execute the same and end in the same way

## Main results

* `Flow.Function.Rewriting.sameBehaviour`: graphs whose code corresponds behave the same
* `Flow.sameBehaviour_simplify`: a simplified graph behaves as the graph did
* `Flow.oneTarget_differs`: a branch with one target is lost
-/

namespace WordLang.Flow

/-! ## Activations -/

/-- What comes of a call. -/
inductive Reply where
  | value (value : Value)
  | failure
  | silence

/-- What answers calls of functions with arguments, given the statements that were executed before. -/
abbrev Environment := List Statement → StmtId → List Value → Reply

/-- How an activation ends. -/
inductive Ending where
  | returned (value : Value) (stack : List Value)
  | failed
deriving DecidableEq

/-- An activation with the statements that it has executed, first to last. -/
structure Activity where
  executed : List Statement
  frame : Frame

namespace Activity

/-- The end of an activation, with the statements that it has executed. -/
abbrev End := List Statement × Ending

/-- Goes on at a block with a given operand stack. -/
def goto (s : Activity) (target : BlockId) (stack : List Value) : Activity ⊕ End :=
  match findBlock? s.frame.function.blocks target with
  | some b => .inl { s with frame := { s.frame with
      statements := b.statements, terminator := b.terminator, stack } }
  | none => .inr (s.executed, .failed)

def resume (s : Activity) (statement : Statement) (caller : Frame) : Reply → Activity ⊕ End
  | .value value => .inl ⟨s.executed ++ [statement], caller.push value⟩
  | .failure => .inr (s.executed, .failed)
  | .silence => .inl s

/-- What the action of a statement leads to. -/
def perform (env : Environment) (s : Activity) (statement : Statement) : Action → Activity ⊕ End
  | .go _ frame => .inl ⟨s.executed ++ [statement], frame⟩
  | .call caller decl arguments => s.resume statement caller (env s.executed decl arguments)
  | .finish _ => .inr (s.executed, .failed)
  | .fail _ _ => .inr (s.executed, .failed)

/-- Leaves a block: a `return` yields the result cell, a `goto` continues, and a branch pops one value
and tests whether it is zero. -/
def leave (s : Activity) : Terminator → Activity ⊕ End
  | .return => .inr (s.executed, .returned (s.frame.cells s.frame.function.result) s.frame.stack)
  | .goto target => s.goto target s.frame.stack
  | .branch truthy falsy =>
    match s.frame.stack with
    | value :: stack => s.goto (if value = .int 0 then falsy else truthy) stack
    | [] => .inr (s.executed, .failed)
  | .error => .inr (s.executed, .failed)
  | .unset => .inr (s.executed, .failed)

/-- The next step of an activation. -/
def next (env : Environment) (s : Activity) : Activity ⊕ End :=
  match s.frame.statements with
  | statement :: rest => s.perform env statement (statement.act { s.frame with statements := rest })
  | [] => s.leave s.frame.terminator

/-- The machine that runs activations. -/
def machine (env : Environment) : Machine Activity End where
  step := next env
  cost _ := 1

end Activity

namespace Function

variable (env : Environment) (f : Function) (cells : LocalId → Value)

/-- The activation of a function at its entry, with given values of the storage cells. -/
def start? : Option Activity :=
  (findBlock? f.blocks f.entry).map fun b =>
    ⟨[], { function := f, statements := b.statements, terminator := b.terminator, cells }⟩

/-- The activation ends after it has executed statements. -/
def Ends (executed : List Statement) (ending : Ending) : Prop :=
  ∃ s, f.start? cells = some s ∧ ∃ k, (Activity.machine env).Ends k s (executed, ending)

/-- The statements are those that the activation has executed at some point. -/
def Executes (executed : List Statement) : Prop :=
  ∃ s, f.start? cells = some s ∧ ∃ k t, (Activity.machine env).Steps k s t ∧ t.executed = executed

/-- The activation goes on forever. -/
def Diverges : Prop :=
  (f.start? cells).isSome ∧ ∀ executed ending, ¬f.Ends env cells executed ending

/-- Whatever the environment and the values of the storage cells, activations of the functions
execute the same statements, end in the same way after the same statements, and one goes on forever
if the other does. -/
structure SameBehaviour (f f' : Function) : Prop where
  /-- Both end in the same way, after the same statements. -/
  ends : ∀ env cells executed ending,
    f.Ends env cells executed ending ↔ f'.Ends env cells executed ending
  diverges : ∀ env cells, f.Diverges env cells ↔ f'.Diverges env cells
  executes : ∀ env cells executed, f.Executes env cells executed ↔ f'.Executes env cells executed

theorem SameBehaviour.refl (f : Function) : f.SameBehaviour f :=
  ⟨fun _ _ _ _ => .rfl, fun _ _ => .rfl, fun _ _ _ => .rfl⟩

theorem SameBehaviour.trans {f g h : Function} (hg : f.SameBehaviour g) (hh : g.SameBehaviour h) :
    f.SameBehaviour h where
  ends _ _ _ _ := (hg.ends ..).trans (hh.ends ..)
  diverges _ _ := (hg.diverges ..).trans (hh.diverges ..)
  executes _ _ _ := (hg.executes ..).trans (hh.executes ..)

end Function

/-! ## Corresponding code -/

namespace Function.Rewriting

variable {f f' : Function} (W : f.Rewriting f') {env : Environment} {s t : Activity}

/-- Activations that have executed the same and differ in their code only. -/
def ActivityRel (s t : Activity) : Prop :=
  ∃ g, W.FrameRel s.frame g ∧ t = { s with frame := g }

/-- What the next steps of two activations do if they correspond: both take a step or end, or the
second one waits. -/
def StepsAlike (env : Environment) (s t : Activity) : Activity ⊕ Activity.End → Prop
  | .inl s' => (∃ t', t.next env = .inl t' ∧ W.ActivityRel s' t') ∨
      W.ActivityRel s' t ∧ W.frameRank s'.frame < W.frameRank s.frame
  | .inr r => t.next env = .inr r

theorem perform_alike {executed : List Statement} {g g' : Frame} (h : W.FrameRel g g')
    {statement : Statement} {rest : List Statement} (hs : g.statements = statement :: rest) :
    W.StepsAlike env ⟨executed, g⟩ ⟨executed, g'⟩ (Activity.next env ⟨executed, g⟩) := by
  have halike : W.ActivityRel ⟨executed, g⟩ ⟨executed, g'⟩ := ⟨g', h, rfl⟩
  obtain ⟨hf, ss', t', hrel, rfl⟩ := h
  rw [hs] at hrel
  obtain ⟨rest', rfl, hrest⟩ := W.statement hrel
  have hact := W.statement_act
    (W.frameRel_mk (g := { g with statements := rest }) hf hrest) statement
  have hnext : Activity.next env ⟨executed, g⟩ = Activity.perform env ⟨executed, g⟩ statement
      (statement.act { g with statements := rest }) := by
    simp only [Activity.next, hs]
  have hnext' : Activity.next env
      ⟨executed, { g with function := f', statements := statement :: rest', terminator := t' }⟩ =
        Activity.perform env
          ⟨executed, { g with function := f', statements := statement :: rest', terminator := t' }⟩
          statement (statement.act
            { g with function := f', statements := rest', terminator := t' }) := rfl
  rw [hnext]
  cases hcase : statement.act { g with statements := rest } with
  | go cost h =>
    rw [hcase] at hact
    obtain ⟨h', hact', hrel'⟩ := hact
    refine .inl ⟨⟨executed ++ [statement], h'⟩, ?_, h', hrel', rfl⟩
    rw [hnext', hact', Activity.perform]
  | call caller decl arguments =>
    rw [hcase] at hact
    obtain ⟨caller', hact', hrel'⟩ := hact
    rw [hact'] at hnext'
    simp only [Activity.perform] at hnext' ⊢
    cases hreply : env executed decl arguments with
    | value value =>
      rw [hreply] at hnext'
      exact .inl ⟨_, hnext', caller'.push value, W.simulation.push hrel' value, rfl⟩
    | failure =>
      rw [hreply] at hnext'
      exact hnext'
    | silence =>
      -- A call without an answer is made again and again.
      rw [hreply] at hnext'
      exact .inl ⟨_, hnext', halike⟩
  | finish value =>
    rw [hcase] at hact
    exact hact.elim
  | fail cost stop =>
    rw [hcase] at hact
    show Activity.next env _ = .inr (executed, .failed)
    rw [hnext', hact, Activity.perform]

theorem goto_alike (executed : List Statement) {g : Frame} (hf : g.function = f) {target : BlockId}
    {b b' : Block} (hb : findBlock? f.blocks target = some b)
    (hb' : findBlock? f'.blocks target = some b')
    (hrel : W.rel b.statements b.terminator b'.statements b'.terminator) (stack : List Value)
    (ss : List Statement) (t : Terminator) :
    ∃ s' t', Activity.goto ⟨executed, g⟩ target stack = .inl s' ∧
      Activity.goto ⟨executed, { g with function := f', statements := ss, terminator := t }⟩ target
        stack = .inl t' ∧ W.ActivityRel s' t' := by
  subst hf
  refine ⟨⟨executed, { g with statements := b.statements, terminator := b.terminator, stack }⟩, _,
    ?_, ?_, _, W.frameRel_mk rfl hrel, rfl⟩
  · simp only [Activity.goto, hb]
  · simp only [Activity.goto, hb']

theorem leave_alike {executed : List Statement} {g g' : Frame} (h : W.FrameRel g g')
    (hs : g.statements = []) :
    W.StepsAlike env ⟨executed, g⟩ ⟨executed, g'⟩ (Activity.next env ⟨executed, g⟩) := by
  obtain ⟨hf, ss', t', hrel, rfl⟩ := h
  have hnext : Activity.next env ⟨executed, g⟩ = Activity.leave ⟨executed, g⟩ g.terminator := by
    simp only [Activity.next, hs]
  rw [hs] at hrel
  rw [hnext]
  rcases W.terminator hrel with ⟨rfl, rfl, hsuccessors⟩ | ⟨target, b, hgoto, hb, hrel', hrank⟩
  · -- Both leave the block by the same terminator.
    have hnext' : Activity.next env ⟨executed, { g with function := f', statements := [] }⟩ =
        Activity.leave ⟨executed, { g with function := f', statements := [] }⟩ g.terminator := rfl
    have hstep : ∀ target ∈ g.terminator.successors, ∀ stack,
        Activity.next env ⟨executed, { g with function := f', statements := [] }⟩ =
          Activity.goto ⟨executed, { g with function := f', statements := [] }⟩ target stack →
        W.StepsAlike env ⟨executed, g⟩ ⟨executed, { g with function := f', statements := [] }⟩
          (Activity.goto ⟨executed, g⟩ target stack) := by
      intro target htarget stack heq
      obtain ⟨b, b', hb, hb', hblocks⟩ := hsuccessors target htarget
      obtain ⟨s', t', hgo, hgo', halike⟩ :=
        W.goto_alike executed hf hb hb' hblocks stack [] g.terminator
      rw [hgo]
      exact .inl ⟨t', heq.trans hgo', halike⟩
    cases hterm : g.terminator with
    | error | unset =>
      rw [hterm] at hnext'
      exact hnext'
    | «return» =>
      rw [hterm] at hnext'
      refine hnext'.trans ?_
      simp only [Activity.leave, hf, W.result]
    | goto target =>
      rw [hterm] at hnext' hstep
      exact hstep target (List.mem_singleton_self _) g.stack hnext'
    | branch truthy falsy =>
      rw [hterm] at hnext' hstep
      simp only [Activity.leave] at hnext' ⊢
      cases hstack : g.stack with
      | nil =>
        rw [hstack] at hnext'
        exact hnext'
      | cons value stack =>
        rw [hstack] at hnext' hstep
        refine hstep _ ?_ stack hnext'
        simp only [Terminator.successors]
        split <;> split <;> simp_all
  · -- The second activation is already at the code of the block that the first one goes on at.
    subst hf
    rw [hgoto]
    simp only [Activity.leave, Activity.goto, hb]
    refine .inr ⟨⟨_, W.frameRel_mk rfl hrel', rfl⟩, ?_⟩
    simpa only [frameRank, hs, hgoto] using hrank

theorem next_alike (env : Environment) {s t : Activity} (h : W.ActivityRel s t) :
    W.StepsAlike env s t (s.next env) := by
  obtain ⟨executed, g⟩ := s
  obtain ⟨g', hg, rfl⟩ := h
  cases hs : g.statements with
  | nil => exact W.leave_alike hg hs
  | cons statement rest => exact W.perform_alike hg hs

/-- Activations of functions whose code corresponds simulate each other. -/
def activitySimulation (env : Environment) :
    Machine.Simulation (Activity.machine env) (Activity.machine env) where
  rel := W.ActivityRel
  void _ := False
  res r r' := r' = r
  rank s := W.frameRank s.frame
  next := by
    intro s s' t h hstep
    have halike := W.next_alike env h
    rw [show s.next env = .inl s' from hstep] at halike
    rcases halike with ⟨t', ht, h'⟩ | ⟨h', hrank⟩
    · exact .inl ⟨1, t', Nat.one_pos, le_rfl, .single ht, h'⟩
    · exact .inr ⟨h', hrank⟩
  done := by
    intro s t r h hstep
    have halike := W.next_alike env h
    rw [show s.next env = .inr r from hstep] at halike
    exact .inr ⟨1, r, le_rfl, .done halike, rfl⟩

theorem exists_steps {k : Nat} {s s' t : Activity} (h : W.ActivityRel s t)
    (hs : (Activity.machine env).Steps k s s') :
    ∃ j t', (Activity.machine env).Steps j t t' ∧ W.ActivityRel s' t' := by
  induction hs generalizing t with
  | refl => exact ⟨0, t, .refl t, h⟩
  | @head s u s' k hstep _ ih =>
    have halike := W.next_alike env h
    rw [show s.next env = .inl u from hstep] at halike
    rcases halike with ⟨t₁, ht, h'⟩ | ⟨h', -⟩
    · obtain ⟨j, t', hj, h''⟩ := ih h'
      exact ⟨_, t', .head ht hj, h''⟩
    · exact ih h'

theorem exists_steps_of_next {s t t' : Activity} (h : W.ActivityRel s t)
    (ht : t.next env = .inl t') :
    ∃ k s', (Activity.machine env).Steps k s s' ∧ W.ActivityRel s' t' := by
  induction hrank : W.frameRank s.frame using Nat.strong_induction_on generalizing s with
  | _ n ih =>
    subst hrank
    have halike := W.next_alike env h
    cases hs : s.next env with
    | inl s' =>
      rw [hs] at halike
      rcases halike with ⟨t₁, ht₁, h'⟩ | ⟨h', hlt⟩
      · rw [ht] at ht₁
        cases ht₁
        exact ⟨_, s', .single hs, h'⟩
      · obtain ⟨k, s'', hk, h''⟩ := ih _ hlt h' rfl
        exact ⟨_, s'', .head hs hk, h''⟩
    | inr r =>
      rw [hs] at halike
      cases ht.symm.trans halike

theorem exists_steps_back {k : Nat} {s t t' : Activity} (h : W.ActivityRel s t)
    (ht : (Activity.machine env).Steps k t t') :
    ∃ j s', (Activity.machine env).Steps j s s' ∧ W.ActivityRel s' t' := by
  induction ht generalizing s with
  | refl => exact ⟨0, s, .refl s, h⟩
  | head hstep _ ih =>
    obtain ⟨i, s₁, hi, h₁⟩ := W.exists_steps_of_next h hstep
    obtain ⟨j, s', hj, h'⟩ := ih h₁
    exact ⟨_, s', hi.trans hj, h'⟩

theorem exists_starts (cells : LocalId → Value) :
    ∃ s t, f.start? cells = some s ∧ f'.start? cells = some t ∧ W.ActivityRel s t := by
  obtain ⟨b, b', hb, hb', hrel⟩ := W.entry
  refine ⟨⟨[], { function := f, statements := b.statements, terminator := b.terminator, cells }⟩, _,
    ?_, ?_, _, W.frameRel_mk rfl hrel, rfl⟩
  · simp only [start?, hb, Option.map_some]
  · simp only [start?, hb', Option.map_some]

include W in
theorem ends_iff (cells : LocalId → Value) (executed : List Statement) (ending : Ending) :
    f.Ends env cells executed ending ↔ f'.Ends env cells executed ending := by
  obtain ⟨s, t, hs, ht, h⟩ := W.exists_starts cells
  constructor
  · rintro ⟨s', hs', k, hk⟩
    cases hs.symm.trans hs'
    rcases (W.activitySimulation env).ends h hk with hvoid | ⟨j, r, -, hj, rfl⟩
    · exact hvoid.elim
    · exact ⟨t, ht, j, hj⟩
  · rintro ⟨t', ht', k, hk⟩
    cases ht.symm.trans ht'
    obtain ⟨j, r, hj, hvoid | heq⟩ := (W.activitySimulation env).ends_back h hk
    · exact hvoid.elim
    · cases heq
      exact ⟨s, hs, j, hj⟩

include W in
theorem sameBehaviour : f.SameBehaviour f' where
  ends _ := W.ends_iff
  diverges env cells := by
    obtain ⟨s, t, hs, ht, -⟩ := W.exists_starts cells
    simp only [Diverges, hs, ht, Option.isSome_some, W.ends_iff]
  executes env cells executed := by
    obtain ⟨s, t, hs, ht, h⟩ := W.exists_starts cells
    constructor
    · rintro ⟨s', hs', k, u, hk, hu⟩
      cases hs.symm.trans hs'
      obtain ⟨j, v, hj, g, -, rfl⟩ := W.exists_steps h hk
      exact ⟨t, ht, j, _, hj, hu⟩
    · rintro ⟨t', ht', k, v, hk, hv⟩
      cases ht.symm.trans ht'
      obtain ⟨j, u, hj, g, -, rfl⟩ := W.exists_steps_back h hk
      exact ⟨s, hs, j, _, hj, hv⟩

end Function.Rewriting

/-! ## Simplified graphs -/

/-- A simplified graph behaves as the graph did. -/
theorem sameBehaviour_simplify {f : Function} (hf : f.Closed) : f.SameBehaviour f.simplify := by
  refine (Function.Closed.simplify_induction (Q := f.SameBehaviour) ?_ ?_ hf (.refl f)).2
  · intro g hg hsame
    exact hsame.trans hg.dropRewriting.sameBehaviour
  · intro g first second hg hfuse hsame
    exact hsame.trans (hg.fuseRewriting hfuse).sameBehaviour

namespace Function

variable {f g : Function} {first second : BlockId}

theorem fuseAll_of_not_fusible (h : f.fusible? = none) : f.fuseAll = f := by
  rw [fuseAll, h]

theorem fuseAll_of_fuse? (h : f.fusible? = some (first, second))
    (hg : f.fuse? first second = some g) : f.fuseAll = g.fuseAll := by
  rw [fuseAll]
  grind

end Function

namespace Sample

/-- Counts a storage cell down; the blocks are not in the order in which they run, and one of them
is not reached. -/
def countdown : Function where
  decl := 0
  name := "f"
  locals := []
  params := []
  result := 0
  blocks := [
    { id := 0, terminator := .return },
    { id := 1, statements := [.push (.int 3), .store 1], terminator := .goto 2 },
    { id := 2, statements := [.load 1], terminator := .branch 3 0 },
    { id := 3, statements := [.load 1, .push (.int 1)], terminator := .goto 5 },
    { id := 4, statements := [.pop], terminator := .goto 4 },
    { id := 5, statements := [.binary .sub, .store 1], terminator := .goto 2 }]
  entry := 1
  exit := 0

theorem countdown_closed : countdown.Closed where
  ids := by decide
  entry := by decide
  targets := by decide
  branches := by simp [countdown]

/-- A function with a branch whose targets are one block. -/
def oneTarget : Function where
  decl := 0
  name := "f"
  locals := []
  params := []
  result := 0
  blocks := [
    { id := 0, statements := [.push (.int 1)], terminator := .branch 1 1 },
    { id := 1, terminator := .return }]
  entry := 0
  exit := 1

def oneBlock : Function :=
  { oneTarget with
    blocks := [{ id := 0, statements := [.push (.int 1)], terminator := .return }]
    exit := 0 }

theorem simplifyRound_oneTarget : oneTarget.simplifyRound = oneBlock := by
  have hdrop : oneTarget.dropUnreferenced = oneTarget := rfl
  have hfusible : oneTarget.fusible? = some (0, 1) := rfl
  have hfuse : oneTarget.fuse? 0 1 = some oneBlock := rfl
  have hfused : oneBlock.fusible? = none := rfl
  rw [Function.simplifyRound, hdrop, Function.fuseAll_of_fuse? hfusible hfuse,
    Function.fuseAll_of_not_fusible hfused]

theorem simplifyRound_oneBlock : oneBlock.simplifyRound = oneBlock := by
  have hdrop : oneBlock.dropUnreferenced = oneBlock := rfl
  have hfusible : oneBlock.fusible? = none := rfl
  rw [Function.simplifyRound, hdrop, Function.fuseAll_of_not_fusible hfusible]

theorem simplify_oneTarget : oneTarget.simplify = oneBlock := by
  have hweight : oneTarget.blockWeight = 2 := rfl
  have hsize : oneTarget.size 2 = 5 := rfl
  have hsize' : oneBlock.size 2 = 3 := rfl
  simp [Function.simplify, hweight, maxRounds, Function.simplifyRounds, simplifyRound_oneTarget,
    simplifyRound_oneBlock, hsize, hsize']

end Sample

/-- The countdown behaves the same once it is simplified. -/
theorem sameBehaviour_simplify_countdown : Sample.countdown.Closed ∧
    Sample.countdown.SameBehaviour Sample.countdown.simplify :=
  ⟨Sample.countdown_closed, sameBehaviour_simplify Sample.countdown_closed⟩

open Sample in
/-- In a graph with a branch whose targets are one block, identifiers are distinct and the entry and
all targets are blocks. The branch tests the value on the stack and drops it; in the simplified graph
that value is still there at the end. -/
theorem oneTarget_differs :
    (oneTarget.blocks.map Block.id).Nodup ∧ oneTarget.entry ∈ oneTarget.blocks.map Block.id ∧
    (∀ b ∈ oneTarget.blocks, ∀ s ∈ b.terminator.successors, s ∈ oneTarget.blocks.map Block.id) ∧
    (∀ env cells, oneTarget.Ends env cells [.push (.int 1)] (.returned (cells 0) [])) ∧
    (∀ env cells,
      oneTarget.simplify.Ends env cells [.push (.int 1)] (.returned (cells 0) [.int 1])) ∧
    ¬oneTarget.SameBehaviour oneTarget.simplify := by
  have hends : ∀ env cells,
      oneTarget.Ends env cells [.push (.int 1)] (.returned (cells 0) []) := fun _ _ =>
    ⟨_, rfl, _, .head rfl (.head rfl (.done rfl))⟩
  have hends' : ∀ env cells,
      oneTarget.simplify.Ends env cells [.push (.int 1)] (.returned (cells 0) [.int 1]) := by
    rw [simplify_oneTarget]
    exact fun _ _ => ⟨_, rfl, _, .head rfl (.done rfl)⟩
  refine ⟨by decide, by decide, by decide, hends, hends', fun hsame => ?_⟩
  -- The two endings would be those of one activation.
  obtain ⟨s, hs, j, hj⟩ := hends (fun _ _ _ => .silence) fun _ => .int 0
  obtain ⟨s', hs', k, hk⟩ := (hsame.ends ..).2 (hends' (fun _ _ _ => .silence) fun _ => .int 0)
  cases hs.symm.trans hs'
  cases (hj.unique hk).2

end WordLang.Flow
