import Mathlib.Tactic

/-!
# Machines and simulations

A machine goes from state to state, at a cost, until it ends with a result. The machines that run
graphs and linear code are compared by simulations: a step of the first machine is matched by
steps of the second that cost no more, or by none if a rank of the first falls. What the first
machine ends with, the second one ends with too, at no higher cost; and if the second one ends,
so does the first, because the rank excludes that it goes on forever while the second one waits.

## Main definitions

* `Machine`, `Machine.Steps`, `Machine.Ends`: machines, and the cost of what they do
* `Machine.Simulation`: a simulation of one machine by another
* `Machine.LockStep`: a simulation whose steps cost the same in both machines

## Main results

* `Machine.Ends.unique`, `Machine.Ends.after_steps`: a machine does one thing only
* `Machine.Simulation.ends`, `Machine.Simulation.ends_back`: results in both directions
* `Machine.LockStep.ends`, `Machine.LockStep.ends_back`: the same, with equal costs
-/

namespace WordLang

variable {j k : Nat}

/-- A machine: every state has a cost and leads to a further state or to a result. -/
structure Machine (σ ρ : Type) where
  step : σ → σ ⊕ ρ
  cost : σ → Nat

namespace Machine

variable {σ ρ : Type} (M : Machine σ ρ)

/-- The machine goes from one state to another at a given cost. -/
inductive Steps : Nat → σ → σ → Prop where
  | refl (s : σ) : Steps 0 s s
  | head {s t u : σ} {k : Nat} : M.step s = .inl t → Steps k t u → Steps (M.cost s + k) s u

/-- The machine ends with a result at a given cost. -/
inductive Ends : Nat → σ → ρ → Prop where
  | done {s : σ} {r : ρ} : M.step s = .inr r → Ends (M.cost s) s r
  | head {s t : σ} {k : Nat} {r : ρ} :
    M.step s = .inl t → Ends k t r → Ends (M.cost s + k) s r

variable {M}

theorem Steps.single {s t : σ} (h : M.step s = .inl t) : M.Steps (M.cost s) s t :=
  .head h (.refl t)

theorem Steps.trans {s t u : σ} (h : M.Steps j s t) (h' : M.Steps k t u) : M.Steps (j + k) s u := by
  induction h with
  | refl => rwa [Nat.zero_add]
  | head hs _ ih =>
    rw [Nat.add_assoc]
    exact .head hs (ih h')

theorem Steps.ends {s t : σ} {r : ρ} (h : M.Steps j s t) (h' : M.Ends k t r) :
    M.Ends (j + k) s r := by
  induction h with
  | refl => rwa [Nat.zero_add]
  | head hs _ ih =>
    rw [Nat.add_assoc]
    exact .head hs (ih h')

/-- A machine that ends, ends after everything it does before. -/
theorem Ends.after_steps {s t : σ} {r : ρ} (h : M.Ends k s r)
    (hs : M.Steps j s t) : ∃ i, k = j + i ∧ M.Ends i t r := by
  induction hs generalizing k with
  | refl => exact ⟨k, (Nat.zero_add k).symm, h⟩
  | head hst _ ih =>
    cases h with
    | done hr => rw [hst] at hr; cases hr
    | head hst' h' =>
      rw [hst] at hst'
      cases hst'
      obtain ⟨i, rfl, hi⟩ := ih h'
      exact ⟨i, (Nat.add_assoc ..).symm, hi⟩

/-- A machine ends with one result, at one cost. -/
theorem Ends.unique {s : σ} {r r' : ρ} (h : M.Ends j s r) (h' : M.Ends k s r') :
    j = k ∧ r = r' := by
  induction h generalizing k with
  | done hr =>
    cases h' with
    | done hr' => rw [hr] at hr'; cases hr'; exact ⟨rfl, rfl⟩
    | head hst _ => rw [hr] at hst; cases hst
  | head hst _ ih =>
    cases h' with
    | done hr => rw [hst] at hr; cases hr
    | head hst' h' =>
      rw [hst] at hst'
      cases hst'
      obtain ⟨rfl, rfl⟩ := ih h'
      exact ⟨rfl, rfl⟩

/-! ## Simulations -/

variable {τ υ : Type}

/-- A simulation of `M` by `N`. Of results that are `void`, nothing is said. -/
structure Simulation (M : Machine σ ρ) (N : Machine τ υ) where
  rel : σ → τ → Prop
  void : ρ → Prop
  res : ρ → υ → Prop
  rank : σ → Nat
  /-- A step of `M` is matched by steps of `N`, or `N` waits. -/
  next : ∀ {s s' : σ} {t : τ}, rel s t → M.step s = .inl s' →
    (∃ k t', 0 < k ∧ k ≤ M.cost s ∧ N.Steps k t t' ∧ rel s' t') ∨ (rel s' t ∧ rank s' < rank s)
  done : ∀ {s : σ} {t : τ} {r : ρ}, rel s t → M.step s = .inr r →
    void r ∨ ∃ k r', k ≤ M.cost s ∧ N.Ends k t r' ∧ res r r'

namespace Simulation

variable {N : Machine τ υ} (S : Simulation M N)

/-- What the first machine ends with, the second one ends with at no higher cost. -/
theorem ends {k : Nat} {s : σ} {t : τ} {r : ρ} (h : S.rel s t) (hk : M.Ends k s r) :
    S.void r ∨ ∃ j r', j ≤ k ∧ N.Ends j t r' ∧ S.res r r' := by
  induction hk generalizing t with
  | done hr => exact S.done h hr
  | head hst _ ih =>
    rcases S.next h hst with ⟨i, t', -, hi, hsteps, h'⟩ | ⟨h', -⟩
    · rcases ih h' with hv | ⟨j, r', hj, hends, hr⟩
      · exact .inl hv
      · exact .inr ⟨i + j, r', by omega, hsteps.ends hends, hr⟩
    · rcases ih h' with hv | ⟨j, r', hj, hends, hr⟩
      · exact .inl hv
      · exact .inr ⟨j, r', by omega, hends, hr⟩

/-- If the second machine ends, so does the first. -/
theorem ends_back {j : Nat} {s : σ} {t : τ} {r' : υ} (h : S.rel s t) (hj : N.Ends j t r') :
    ∃ k r, M.Ends k s r ∧ (S.void r ∨ S.res r r') := by
  -- First by what is left of the run of `N`, and while `N` waits by the rank of `M`.
  induction j using Nat.strong_induction_on generalizing s t with
  | _ j ihj =>
    induction hn : S.rank s using Nat.strong_induction_on generalizing s with
    | _ n ihn =>
      subst hn
      cases hs : M.step s with
      | inr r =>
        rcases S.done h hs with hv | ⟨k, r'', -, hends, hr⟩
        · exact ⟨_, r, .done hs, .inl hv⟩
        · obtain ⟨-, rfl⟩ := hj.unique hends
          exact ⟨_, r, .done hs, .inr hr⟩
      | inl s' =>
        rcases S.next h hs with ⟨i, t', hpos, -, hsteps, h'⟩ | ⟨h', hrank⟩
        · obtain ⟨j', rfl, hj'⟩ := hj.after_steps hsteps
          obtain ⟨k, r, hk, hr⟩ := ihj j' (by omega) h' hj'
          exact ⟨_, r, .head hs hk, hr⟩
        · obtain ⟨k, r, hk, hr⟩ := ihn _ hrank h' rfl
          exact ⟨_, r, .head hs hk, hr⟩

end Simulation

/-- A simulation of `M` by `N` in which a step of `M` is matched by steps of the same cost. -/
structure LockStep (M : Machine σ ρ) (N : Machine τ υ) where
  rel : σ → τ → Prop
  void : ρ → Prop
  res : ρ → υ → Prop
  /-- A step of `M` costs something and is matched by steps of `N` at its cost. -/
  next : ∀ {s s' : σ} {t : τ}, rel s t → M.step s = .inl s' →
    0 < M.cost s ∧ ∃ t', N.Steps (M.cost s) t t' ∧ rel s' t'
  /-- If `M` ends, `N` ends at its cost with a corresponding result. -/
  done : ∀ {s : σ} {t : τ} {r : ρ}, rel s t → M.step s = .inr r →
    void r ∨ ∃ r', N.Ends (M.cost s) t r' ∧ res r r'

namespace LockStep

variable {N : Machine τ υ} (S : LockStep M N)

/-- A lock step simulation is a simulation. -/
def simulation : Simulation M N where
  rel := S.rel
  void := S.void
  res := S.res
  rank _ := 0
  next := by
    intro s s' t h hs
    obtain ⟨hpos, t', hsteps, h'⟩ := S.next h hs
    exact .inl ⟨M.cost s, t', hpos, le_rfl, hsteps, h'⟩
  done := by
    intro s t r h hs
    rcases S.done h hs with hv | ⟨r', hends, hr⟩
    · exact .inl hv
    · exact .inr ⟨M.cost s, r', le_rfl, hends, hr⟩

/-- What the first machine ends with, the second one ends with at the same cost. -/
theorem ends {k : Nat} {s : σ} {t : τ} {r : ρ} (h : S.rel s t) (hk : M.Ends k s r) :
    S.void r ∨ ∃ r', N.Ends k t r' ∧ S.res r r' := by
  induction hk generalizing t with
  | done hr => exact S.done h hr
  | head hst _ ih =>
    obtain ⟨-, t', hsteps, h'⟩ := S.next h hst
    rcases ih h' with hv | ⟨r', hends, hr⟩
    · exact .inl hv
    · exact .inr ⟨r', hsteps.ends hends, hr⟩

/-- If the second machine ends, so does the first, at the same cost. -/
theorem ends_back {k : Nat} {s : σ} {t : τ} {r' : υ} (h : S.rel s t) (hk : N.Ends k t r') :
    ∃ j r, M.Ends j s r ∧ (S.void r ∨ j = k ∧ S.res r r') := by
  obtain ⟨j, r, hj, -⟩ := S.simulation.ends_back h hk
  rcases S.ends h hj with hv | ⟨r'', hends, hr⟩
  · exact ⟨j, r, hj, .inl hv⟩
  · obtain ⟨rfl, rfl⟩ := hk.unique hends
    exact ⟨_, r, hj, .inr ⟨rfl, hr⟩⟩

end LockStep

end Machine

end WordLang
