/-!
# What a computation ensures

A computation with a state either gives a value and a further state or fails. It ensures a
condition on values and states, and a condition on failures, if whichever of the two happens
satisfies its condition. A condition on failures that is never true makes it a computation that
succeeds.

## Main definitions

* `Ensures x s ok fails`: what the computation `x` ensures when it starts in the state `s`

## Main results

* `Ensures.bind`: computations one after another
* `Ensures.exists_ok`: a computation that cannot fail gives a value
-/

namespace WordLang

variable {ε σ α β : Type}

theorem run_get_bind (k : σ → EStateM ε σ β) (s : σ) : (get >>= k) s = k s s := rfl

/-- The computation `x`, started in the state `s`, ends with a value and a state that satisfy `ok`,
or with a failure that satisfies `fails`. -/
def Ensures (x : EStateM ε σ α) (s : σ) (ok : α → σ → Prop) (fails : ε → Prop) : Prop :=
  match x s with
  | .ok a s' => ok a s'
  | .error e _ => fails e

namespace Ensures

variable {x : EStateM ε σ α} {k : α → EStateM ε σ β} {s : σ} {fails : ε → Prop}

theorem of_ok {ok : α → σ → Prop} {a : α} {s' : σ} (hx : x s = .ok a s') (h : ok a s') :
    Ensures x s ok fails := by
  simp only [Ensures, hx]
  exact h

theorem pure {ok : α → σ → Prop} {a : α} (h : ok a s) : Ensures (Pure.pure a) s ok fails := h

theorem throw {ok : α → σ → Prop} {e : ε} (h : fails e) :
    Ensures (MonadExcept.throw e) s ok fails := h

theorem get {ok : σ → σ → Prop} (h : ok s s) :
    Ensures (MonadState.get : EStateM ε σ σ) s ok fails := h

theorem modify {ok : PUnit → σ → Prop} {f : σ → σ} (h : ok ⟨⟩ (f s)) :
    Ensures (modify f : EStateM ε σ PUnit) s ok fails := h

theorem modifyGet {ok : α → σ → Prop} {f : σ → α × σ} (h : ok (f s).1 (f s).2) :
    Ensures (modifyGet f : EStateM ε σ α) s ok fails := h

/-- Of two computations one after another, the second one starts where the first one ends. -/
theorem bind {ok : β → σ → Prop}
    (h : Ensures x s (fun a s' => Ensures (k a) s' ok fails) fails) :
    Ensures (x >>= k) s ok fails := by
  have hbind : (x >>= k) s = EStateM.bind x k s := rfl
  simp only [Ensures] at h
  rw [Ensures, hbind, EStateM.bind]
  cases hx : x s with
  | ok a s' =>
    rw [hx] at h
    exact h
  | error e s' =>
    rw [hx] at h
    exact h

theorem map {ok : β → σ → Prop} {f : α → β} (h : Ensures x s (fun a s' => ok (f a) s') fails) :
    Ensures (f <$> x) s ok fails := by
  have hmap : (f <$> x) s = EStateM.map f x s := rfl
  simp only [Ensures] at h
  rw [Ensures, hmap, EStateM.map]
  cases hx : x s with
  | ok a s' =>
    rw [hx] at h
    exact h
  | error e s' =>
    rw [hx] at h
    exact h

theorem mono {ok ok' : α → σ → Prop} {fails' : ε → Prop} (h : Ensures x s ok fails)
    (hok : ∀ a s', ok a s' → ok' a s') (hfails : ∀ e, fails e → fails' e) :
    Ensures x s ok' fails' := by
  simp only [Ensures] at h ⊢
  split at h
  · exact hok _ _ h
  · exact hfails _ h

/-- Of two computations one after another, the second one starts in a state that the first one
ensures. -/
theorem bind_of {mid : α → σ → Prop} {ok : β → σ → Prop} (hx : Ensures x s mid fails)
    (hk : ∀ a s', mid a s' → Ensures (k a) s' ok fails) : Ensures (x >>= k) s ok fails :=
  bind (hx.mono hk fun _ h => h)

theorem trivial (x : EStateM ε σ α) (s : σ) : Ensures x s (fun _ _ => True) fun _ => True := by
  unfold Ensures
  split <;> exact True.intro

theorem exists_ok {ok : α → σ → Prop} (h : Ensures x s ok fun _ => False) :
    ∃ a s', x s = .ok a s' ∧ ok a s' := by
  simp only [Ensures] at h
  split at h
  · next a s' hx => exact ⟨a, s', hx, h⟩
  · exact h.elim

end Ensures

/-- A computation goes on where its first part has succeeded. -/
theorem run_bind_of_eq_ok {x : EStateM ε σ α} {s s₁ : σ} {a : α} (h : x s = .ok a s₁)
    (k : α → EStateM ε σ β) : (x >>= k) s = k a s₁ := by
  change EStateM.bind x k s = _
  rw [EStateM.bind, h]

/-- A computation with a state that succeeds, succeeds in both of its parts. -/
theorem exists_of_run_bind_eq_ok {x : EStateM ε σ α} {k : α → EStateM ε σ β} {s s' : σ} {b : β}
    (h : (x >>= k) s = .ok b s') : ∃ a s₁, x s = .ok a s₁ ∧ k a s₁ = .ok b s' := by
  change EStateM.bind x k s = .ok b s' at h
  unfold EStateM.bind at h
  split at h
  · next a s₁ hx => exact ⟨a, s₁, hx, h⟩
  · cases h

theorem eq_ok_of_toOption {x : Except ε α} {a : α} (h : x.toOption = some a) : x = .ok a := by
  cases x <;> cases h
  rfl

theorem exists_ok_of_any {x : Except ε α} {test : α → Bool} (h : x.toOption.any test = true) :
    ∃ a, x = .ok a ∧ test a = true := by
  cases x with
  | ok a => exact ⟨a, rfl, h⟩
  | error e => cases h

theorem ok_bind (a : α) (k : α → Except ε β) : (Except.ok a >>= k) = k a := rfl

/-- A computation without a state that succeeds, succeeds in both of its parts. -/
theorem exists_of_bind_eq_ok {x : Except ε α} {f : α → Except ε β} {b : β} (h : x >>= f = .ok b) :
    ∃ a, x = .ok a ∧ f a = .ok b := by
  cases x with
  | ok a => exact ⟨a, rfl, h⟩
  | error e => cases h

/-- A computation without a state that fails, fails in one of its parts. -/
theorem error_of_bind_eq_error {x : Except ε α} {f : α → Except ε β} {e : ε}
    (h : x >>= f = .error e) : x = .error e ∨ ∃ a, x = .ok a ∧ f a = .error e := by
  cases x with
  | ok a => exact .inr ⟨a, rfl, h⟩
  | error e' =>
    cases h
    exact .inl rfl

end WordLang
