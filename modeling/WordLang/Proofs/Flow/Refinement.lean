import Mathlib.Data.List.Forall2
import WordLang.Proofs.Flow.Machine

/-!
# Graphs that do the same

A simulation of one function by another relates their activations so that both do the same, where
the second may wait while the first passes an edge that the second does not have. A program in
which a function is replaced by one that simulates it has the same results, at no higher cost.

## Main definitions

* `Flow.Function.Simulation f f'`: a relation between activations of two functions
* `Flow.Refines`: the second program has the results of the first, at no higher cost

## Main results

* `Flow.Function.Simulation.refines`: replacing a function by one that simulates it
* `Flow.Refines.trans`: refinements can be chained
-/

namespace WordLang.Flow

/-! ## Costs -/

theorem Frame.goto_cost {f g : Frame} {cost c : Nat} {target : BlockId}
    (h : f.goto cost target = .go c g) : c = cost := by
  simp only [Frame.goto] at h
  split at h <;> cases h
  rfl

theorem Frame.act_go_pos {f g : Frame} {cost : Nat} (h : f.act = .go cost g) : 0 < cost := by
  simp only [Frame.act] at h
  split at h
  · next statement rest _ =>
    cases statement <;> simp only [Statement.act, Action.stuck] at h
    case push | load =>
      cases h
      decide
    case pop | store =>
      split at h <;> cases h
      decide
    case call =>
      split at h
      · split at h <;> cases h
      · cases h
    case binary =>
      split at h
      · split at h <;> cases h
        decide
      · cases h
  · cases hterm : f.terminator <;> rw [hterm] at h <;> simp only [Terminator.act, Action.stuck] at h
    case error | unset => cases h
    case «return» => split at h <;> cases h
    case goto =>
      rw [Frame.goto_cost h]
      decide
    case branch =>
      split at h
      · split at h
        · rw [Frame.goto_cost h]
          decide
        · rw [Frame.goto_cost h]
          decide
      · cases h

theorem machine_cost_pos {p : Program} {s t : State} (h : (machine p).step s = .inl t) :
    0 < (machine p).cost s := by
  simp only [machine] at h ⊢
  cases hact : s.frame.act with
  | go cost frame => exact Frame.act_go_pos hact
  | call caller decl arguments =>
    rw [hact] at h
    simp only [perform] at h ⊢
    split at h
    · split at h
      · exact Nat.add_pos_left (by decide) _
      · cases h
    · cases h
    · cases h
  | finish value =>
    rw [hact] at h
    simp only [perform] at h ⊢
    split at h
    · exact Nat.zero_lt_two
    · cases h
  | fail cost stop =>
    rw [hact] at h
    cases h

/-! ## Simulations of functions -/

/-- What the next actions of two activations have to do so that they stay related by `R`. -/
def Frame.ActsAs (R : Frame → Frame → Prop) (rank : Frame → Nat) (g g' : Frame) : Prop :=
  match g.act with
  | .go cost h => (∃ h', g'.act = .go cost h' ∧ R h h') ∨ (R h g' ∧ rank h < rank g)
  | .call caller decl arguments => ∃ caller', g'.act = .call caller' decl arguments ∧ R caller caller'
  | .finish value => g'.act = .finish value
  | .fail cost stop => g'.act = .fail cost stop

/-- An activation with a value on top of its stack. -/
def Frame.push (g : Frame) (value : Value) : Frame := { g with stack := value :: g.stack }

/-- A relation between the activations of two functions that actions keep. -/
structure Function.Simulation (f f' : Function) where
  rel : Frame → Frame → Prop
  rank : Frame → Nat
  acts : ∀ {g g'}, rel g g' → g.ActsAs rel rank g'
  /-- Corresponding activations get the same results of calls. -/
  push : ∀ {g g'}, rel g g' → ∀ value, rel (g.push value) (g'.push value)
  start : ∀ arguments, (f.activation? arguments = none ∧ f'.activation? arguments = none) ∨
    ∃ g g', f.activation? arguments = some g ∧ f'.activation? arguments = some g' ∧ rel g g'
  slots : f'.slotCount = f.slotCount

namespace Function.Simulation

variable {f f' : Function} (S : f.Simulation f')

/-- Activations that are equal or correspond. -/
def Alike (g g' : Frame) : Prop := g = g' ∨ S.rel g g'

theorem alike_acts {g g' : Frame} (h : S.Alike g g') : g.ActsAs S.Alike S.rank g' := by
  rcases h with rfl | h
  · simp only [Frame.ActsAs]
    split
    · next cost h hact => exact .inl ⟨h, hact, .inl rfl⟩
    · next caller decl arguments hact => exact ⟨caller, hact, .inl rfl⟩
    · assumption
    · assumption
  · have hacts := S.acts h
    simp only [Frame.ActsAs] at hacts ⊢
    split
    · next cost h hact =>
      rw [hact] at hacts
      rcases hacts with ⟨h', hact', hrel⟩ | ⟨hrel, hrank⟩
      · exact .inl ⟨h', hact', .inr hrel⟩
      · exact .inr ⟨.inr hrel, hrank⟩
    · next caller decl arguments hact =>
      rw [hact] at hacts
      obtain ⟨caller', hact', hrel⟩ := hacts
      exact ⟨caller', hact', .inr hrel⟩
    · next value hact =>
      rw [hact] at hacts
      exact hacts
    · next cost stop hact =>
      rw [hact] at hacts
      exact hacts

theorem alike_push {g g' : Frame} (h : S.Alike g g') (value : Value) :
    S.Alike (g.push value) (g'.push value) := by
  rcases h with rfl | h
  · exact .inl rfl
  · exact .inr (S.push h value)

/-- The states of the two machines that correspond. -/
def StateAlike (s t : State) : Prop :=
  S.Alike s.frame t.frame ∧ List.Forall₂ S.Alike s.callers t.callers

theorem perform_call {p : Program} {decl : StmtId} (hp : p decl = some (.graph f)) (d : StmtId)
    (arguments : List Value) :
    (∃ cost g g', S.Alike g g' ∧
        (∀ s caller, perform p s (.call caller d arguments) =
          (cost, .inl ⟨g, caller :: s.callers⟩)) ∧
        ∀ s caller, perform (Function.update p decl (some (.graph f'))) s
          (.call caller d arguments) = (cost, .inl ⟨g', caller :: s.callers⟩)) ∨
      ∃ cost r, (∀ s caller, perform p s (.call caller d arguments) = (cost, .inr r)) ∧
        ∀ s caller, perform (Function.update p decl (some (.graph f'))) s
          (.call caller d arguments) = (cost, .inr r) := by
  by_cases hd : d = decl
  · subst hd
    rcases S.start arguments with ⟨hf, hf'⟩ | ⟨g, g', hf, hf', hrel⟩
    · refine .inr ⟨1, .error .stuck, ?_, ?_⟩ <;> intro s caller
      · simp only [perform, hp, hf]
      · simp only [perform, Function.update_self, hf']
    · refine .inl ⟨2 + f.slotCount, g, g', .inr hrel, ?_, ?_⟩ <;> intro s caller
      · simp only [perform, hp, hf]
      · simp only [perform, Function.update_self, hf', S.slots]
  · simp only [perform, Function.update_of_ne hd]
    rcases p d with - | h | symbol
    · exact .inr ⟨1, .error .stuck, fun _ _ => rfl, fun _ _ => rfl⟩
    · rcases hact : h.activation? arguments with - | g
      · refine .inr ⟨1, .error .stuck, ?_, ?_⟩ <;> intro s caller <;> simp only [hact]
      · refine .inl ⟨2 + h.slotCount, g, g, .inl rfl, ?_, ?_⟩ <;> intro s caller <;> simp only [hact]
    · exact .inr ⟨2, .error (.fault (.foreign symbol)), fun _ _ => rfl, fun _ _ => rfl⟩

theorem perform_stateAlike {p : Program} {decl : StmtId} (hp : p decl = some (.graph f)) {s t : State}
    (h : S.StateAlike s t) :
    (∃ cost s', perform p s s.frame.act = (cost, .inl s') ∧
      ((∃ t', perform (Function.update p decl (some (.graph f'))) t t.frame.act = (cost, .inl t') ∧
        S.StateAlike s' t') ∨ S.StateAlike s' t ∧ S.rank s'.frame < S.rank s.frame)) ∨
    ∃ cost r, perform p s s.frame.act = (cost, .inr r) ∧
      perform (Function.update p decl (some (.graph f'))) t t.frame.act = (cost, .inr r) := by
  obtain ⟨frame, callers⟩ := s
  obtain ⟨frame', callers'⟩ := t
  obtain ⟨hframe, hcallers⟩ := h
  have hacts := S.alike_acts hframe
  simp only [Frame.ActsAs] at hacts hcallers ⊢
  cases hact : frame.act with
  | go cost g =>
    rw [hact] at hacts
    refine .inl ⟨cost, _, rfl, ?_⟩
    rcases hacts with ⟨g', hact', hg⟩ | ⟨hg, hrank⟩
    · rw [hact']
      exact .inl ⟨_, rfl, hg, hcallers⟩
    · exact .inr ⟨⟨hg, hcallers⟩, hrank⟩
  | call caller d arguments =>
    rw [hact] at hacts
    obtain ⟨caller', hact', hcaller⟩ := hacts
    rw [hact']
    rcases S.perform_call hp d arguments with ⟨cost, g, g', hg, hcall, hcall'⟩ | ⟨cost, r, hcall, hcall'⟩
    · exact .inl ⟨cost, _, hcall .., .inl ⟨_, hcall' .., hg, .cons hcaller hcallers⟩⟩
    · exact .inr ⟨cost, r, hcall .., hcall' ..⟩
  | finish value =>
    rw [hact] at hacts
    simp only [hacts, perform]
    cases hcallers with
    | nil => exact .inr ⟨1, _, rfl, rfl⟩
    | cons hcaller hcallers =>
      exact .inl ⟨2, _, rfl, .inl ⟨_, rfl, S.alike_push hcaller value, hcallers⟩⟩
  | fail cost stop =>
    rw [hact] at hacts
    rw [hacts]
    exact .inr ⟨cost, _, rfl, rfl⟩

def machineSimulation {p : Program} {decl : StmtId} (hp : p decl = some (.graph f)) :
    Machine.Simulation (machine p) (machine (Function.update p decl (some (.graph f')))) where
  rel := S.StateAlike
  void _ := False
  res := Eq
  rank s := S.rank s.frame
  next := by
    intro s s' t h hstep
    have hpos := machine_cost_pos hstep
    rcases S.perform_stateAlike hp h with ⟨cost, s₁, hs, hnext⟩ | ⟨cost, r, hs, -⟩
    · simp only [machine, hs] at hstep hpos ⊢
      cases hstep
      rcases hnext with ⟨t', ht, h'⟩ | h'
      · refine .inl ⟨cost, t', hpos, le_rfl, ?_, h'⟩
        have hsingle := Machine.Steps.single
          (M := machine (Function.update p decl (some (.graph f')))) (s := t) (t := t')
          (by simp only [machine, ht])
        simpa only [machine, ht] using hsingle
      · exact .inr h'
    · simp only [machine, hs] at hstep
      cases hstep
  done := by
    intro s t r h hstep
    rcases S.perform_stateAlike hp h with ⟨cost, s₁, hs, -⟩ | ⟨cost, r', hs, ht⟩
    · simp only [machine, hs] at hstep
      cases hstep
    · simp only [machine, hs] at hstep ⊢
      cases hstep
      refine .inr ⟨cost, r, le_rfl, ?_, rfl⟩
      have hdone := Machine.Ends.done
        (M := machine (Function.update p decl (some (.graph f')))) (s := t) (r := r)
        (by simp only [machine, ht])
      simpa only [machine, ht] using hdone

end Function.Simulation

/-! ## Refinement -/

def Program.start? (p : Program) (decl : StmtId) (arguments : List Value) : Option State :=
  match p decl with
  | some (.graph f) => (f.activation? arguments).map fun frame => { frame }
  | _ => none

/-- Of two starts, the second one has the results of the first, at no higher cost. -/
def StartsAlike (p p' : Program) : Option State → Option State → Prop
  | none, none => True
  | some s, some s' =>
    (∀ k r, (machine p).Ends k s r → ∃ j, j ≤ k ∧ (machine p').Ends j s' r) ∧
      ∀ j r, (machine p').Ends j s' r → ∃ k, (machine p).Ends k s r
  | _, _ => False

def Refines (p p' : Program) : Prop :=
  ∀ decl arguments, StartsAlike p p' (p.start? decl arguments) (p'.start? decl arguments)

theorem Refines.refl (p : Program) : Refines p p := by
  intro decl arguments
  rcases p.start? decl arguments with - | s
  · trivial
  · exact ⟨fun k r h => ⟨k, le_rfl, h⟩, fun j r h => ⟨j, h⟩⟩

theorem Refines.trans {p q r : Program} (h : Refines p q) (h' : Refines q r) : Refines p r := by
  intro decl arguments
  have h := h decl arguments
  have h' := h' decl arguments
  rcases hp : p.start? decl arguments with - | s <;> rcases hq : q.start? decl arguments with - | t <;>
    rcases hr : r.start? decl arguments with - | u <;> rw [hp, hq] at h <;> rw [hq, hr] at h' <;>
    first | trivial | exact h.elim | exact h'.elim | skip
  refine ⟨fun k res hk => ?_, fun i res hi => ?_⟩
  · obtain ⟨j, hj, hends⟩ := h.1 k res hk
    obtain ⟨i, hi, hends'⟩ := h'.1 j res hends
    exact ⟨i, hi.trans hj, hends'⟩
  · obtain ⟨j, hends⟩ := h'.2 i res hi
    exact h.2 j res hends

theorem Function.Simulation.refines {f f' : Function} (S : f.Simulation f') {p : Program}
    {decl : StmtId} (hp : p decl = some (.graph f)) :
    Refines p (Function.update p decl (some (.graph f'))) := by
  have hends : ∀ {s t : State}, S.StateAlike s t →
      StartsAlike p (Function.update p decl (some (.graph f'))) (some s) (some t) := by
    intro s t h
    refine ⟨fun k r hk => ?_, fun j r hj => ?_⟩
    · rcases (S.machineSimulation hp).ends h hk with hfalse | ⟨j, r', hj, hends, rfl⟩
      · exact hfalse.elim
      · exact ⟨j, hj, hends⟩
    · obtain ⟨k, r', hk, hfalse | rfl⟩ := (S.machineSimulation hp).ends_back h hj
      · exact hfalse.elim
      · exact ⟨k, hk⟩
  intro d arguments
  by_cases hd : d = decl
  · subst hd
    simp only [Program.start?, hp, Function.update_self]
    rcases S.start arguments with ⟨hf, hf'⟩ | ⟨g, g', hf, hf', hrel⟩
    · rw [hf, hf']
      trivial
    · rw [hf, hf']
      exact hends ⟨.inr hrel, .nil⟩
  · simp only [Program.start?, Function.update_of_ne hd]
    rcases p d with - | h | symbol
    · trivial
    · simp only
      rcases h.activation? arguments with - | g
      · trivial
      · exact hends ⟨.inl rfl, .nil⟩
    · trivial

end WordLang.Flow
