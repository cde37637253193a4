import Mathlib.Data.List.Forall2
import WordLang.Proofs.Linear.Action

/-!
# Programs that do the same

Two activations are alike if, line by line, they do the same, where the first one may pass lines
that the second one does not have, and may keep values on the stack that the second one keeps in
registers. Programs all of whose bodies start alike have the same results, and the second one
reaches them at no higher cost.

## Main definitions

* `Linear.Alike f g kept`: the activations are alike while the first one keeps `kept` on the stack
* `Linear.Program.Alike`: programs whose bodies start alike
* `Linear.Refines`: the second program has the results of the first, at no higher cost

## Main results

* `Linear.Program.Alike.refines`: programs whose bodies start alike refine each other
* `Linear.Refines.trans`: refinements can be chained
* `Linear.Refines.call_eq_and_fuel_le`: calls have the same answers and take no more fuel
-/

namespace WordLang.Linear

variable {p p' : Program} {f g : Frame} {s t : State}

/-- What the next lines of two activations have to do so that they stay related by `R`, while the
first one keeps the values `kept` on the stack. -/
def ActAlike (R : Frame → Frame → List Int64 → Prop) (f g : Frame) (kept : List Int64) : Prop :=
  ∀ stack,
    match act f (kept ++ stack) with
    | .go f' after =>
      (∃ kept', after = kept' ++ stack ∧ R f' g kept' ∧ f'.rest.length < f.rest.length) ∨
        ∃ g' kept' stack', act g stack = .go g' stack' ∧ after = kept' ++ stack' ∧ R f' g' kept'
    | .call f' id arguments => kept = [] ∧ ∃ g', act g stack = .call g' id arguments ∧ R f' g' []
    | .finish value => kept = [] ∧ act g stack = .finish value
    | .fail e => act g stack = .fail e

/-- The relation may be exchanged for another one where the activation goes on or waits. -/
theorem ActAlike.mono {R S : Frame → Frame → List Int64 → Prop} {kept : List Int64}
    (hRS : ∀ f' g kept, (∀ P, (∀ stack, (act f stack).Leaves P) → P f') → R f' g kept → S f' g kept)
    (h : ActAlike R f g kept) : ActAlike S f g kept := by
  intro stack
  have h := h stack
  have hleft (P : Frame → Prop) (hP : ∀ stack, (act f stack).Leaves P) := hP (kept ++ stack)
  cases ha : act f (kept ++ stack) with
  | go f' after =>
    rw [ha] at h hleft
    rcases h with ⟨kept', hafter, hr, hlen⟩ | ⟨g', kept', stack', hg, hafter, hr⟩
    · exact .inl ⟨kept', hafter, hRS _ _ _ hleft hr, hlen⟩
    · exact .inr ⟨g', kept', stack', hg, hafter, hRS _ _ _ hleft hr⟩
  | call f' id arguments =>
    rw [ha] at h hleft
    obtain ⟨hkept, g', hg, hr⟩ := h
    exact ⟨hkept, g', hg, hRS _ _ _ hleft hr⟩
  | finish value => rw [ha] at h; exact h
  | fail e => rw [ha] at h; exact h

/-- Two activations are alike if some relation holds between them that their lines keep. -/
def Alike (f g : Frame) (kept : List Int64) : Prop :=
  ∃ R : Frame → Frame → List Int64 → Prop,
    (∀ f g kept, R f g kept → ActAlike R f g kept) ∧ R f g kept

theorem Alike.actAlike {kept : List Int64} (h : Alike f g kept) : ActAlike Alike f g kept := by
  obtain ⟨R, hR, hfg⟩ := h
  exact (hR f g kept hfg).mono fun f g kept _ hr => ⟨R, hR, hr⟩

theorem Alike.refl (f : Frame) : Alike f f [] := by
  refine ⟨fun f g kept => f = g ∧ kept = [], ?_, rfl, rfl⟩
  rintro f _ _ ⟨rfl, rfl⟩ stack
  cases ha : act f ([] ++ stack) with
  | go f' after => exact .inr ⟨f', [], after, ha, rfl, rfl, rfl⟩
  | call f' id arguments => exact ⟨rfl, f', ha, rfl, rfl⟩
  | finish value => exact ⟨rfl, ha⟩
  | fail e => exact ha

/-- The activation at the start of a body. -/
def Body.activation (b : Body) (label : String) (arguments : List Int64) (base : Nat) : Frame :=
  { label, body := b, rest := b.lines, arguments, registers := .empty, slots := .empty, base }

def Body.Alike (b b' : Body) : Prop :=
  ∀ label arguments base,
    Linear.Alike (b.activation label arguments base) (b'.activation label arguments base) []

def Definition.Alike : Definition → Definition → Prop
  | .body b, .body b' => b.Alike b'
  | .foreign symbol, .foreign symbol' => symbol = symbol'
  | _, _ => False

theorem Definition.Alike.refl (d : Definition) : d.Alike d := by
  cases d with
  | body b => exact fun _ _ _ => Linear.Alike.refl _
  | foreign symbol => rfl

/-- Functions that start alike and take the same number of arguments. -/
structure Function.Alike (f f' : Function) : Prop where
  label : f'.label = f.label
  arity : f'.arity = f.arity
  definition : f.definition.Alike f'.definition

/-- Programs whose functions correspond one by one. -/
def Program.Alike (p p' : Program) : Prop :=
  List.Forall₂ Function.Alike p.functions p'.functions

theorem Function.Alike.activate {f f' : Function} (h : f.Alike f') (arguments : Nat)
    (stack : List Int64) :
    (∃ e, activate f arguments stack = .error e ∧ activate f' arguments stack = .error e) ∨
      ∃ frame frame' below, activate f arguments stack = .ok (frame, below) ∧
        activate f' arguments stack = .ok (frame', below) ∧ Linear.Alike frame frame' [] := by
  obtain ⟨hlabel, harity, hdef⟩ := h
  cases hd : f.definition with
  | foreign symbol =>
    cases hd' : f'.definition with
    | foreign symbol' =>
      rw [hd, hd'] at hdef
      cases hdef
      exact .inl ⟨.foreign symbol, by simp [Linear.activate, hd], by simp [Linear.activate, hd']⟩
    | body b' => rw [hd, hd'] at hdef; exact hdef.elim
  | body b =>
    cases hd' : f'.definition with
    | foreign symbol' => rw [hd, hd'] at hdef; exact hdef.elim
    | body b' =>
      rw [hd, hd'] at hdef
      simp only [Linear.activate, hd, hd', hlabel, harity]
      by_cases harg : arguments = f.arity
      · by_cases hlen : stack.length < arguments
        · exact .inl ⟨.stackUnderflow, by simp [harg ▸ hlen, harg], by simp [harg ▸ hlen, harg]⟩
        · refine .inr ⟨_, _, stack.drop arguments, ?_, ?_,
            hdef f.label (stack.take arguments).reverse (stack.drop arguments).length⟩
          · rw [if_neg (by simp [harg]), if_neg hlen]
            rfl
          · rw [if_neg (by simp [harg]), if_neg hlen]
            rfl
      · exact .inl ⟨_, by rw [if_pos harg], by rw [if_pos harg]⟩

/-- Calls of corresponding programs lead to corresponding activations. -/
theorem Program.Alike.call (hp : p.Alike p') (hstack : s.stack = t.stack)
    (id : FunctionId) (arguments : Nat) :
    (∃ e, call p s f id arguments = .error e ∧ call p' t g id arguments = .error e) ∨
      ∃ frame frame' below, call p s f id arguments = .ok (.next ⟨frame, f :: s.callers, below⟩) ∧
        call p' t g id arguments = .ok (.next ⟨frame', g :: t.callers, below⟩) ∧
        Linear.Alike frame frame' [] := by
  have hlen : p.functions.length = p'.functions.length := hp.length_eq
  simp only [Linear.call]
  cases hf : p.functions[id]? with
  | none =>
    have hf' : p'.functions[id]? = none := by
      rw [List.getElem?_eq_none_iff] at hf ⊢
      omega
    rw [hf']
    exact .inl ⟨_, rfl, rfl⟩
  | some fn =>
    obtain ⟨hid, rfl⟩ := List.getElem?_eq_some_iff.1 hf
    have hid' : id < p'.functions.length := hlen ▸ hid
    rw [List.getElem?_eq_getElem hid']
    have hfn : Function.Alike p.functions[id] p'.functions[id] := List.Forall₂.get hp hid hid'
    rcases hfn.activate arguments s.stack with ⟨e, h, h'⟩ | ⟨frame, frame', below, h, h', ha⟩
    · refine .inl ⟨e, ?_, ?_⟩
      · simp only [h]; rfl
      · simp only [← hstack, h']; rfl
    · refine .inr ⟨frame, frame', below, ?_, ?_, ha⟩
      · simp only [h]; rfl
      · simp only [← hstack, h']; rfl

/-- States of machines whose activations are alike. -/
def State.Alike (s t : State) : Prop :=
  ∃ kept, Linear.Alike s.frame t.frame kept ∧ s.stack = kept ++ t.stack ∧
    List.Forall₂ (Linear.Alike · · []) s.callers t.callers

theorem State.Alike.step (hp : p.Alike p') (h : s.Alike t) :
    (∃ s', (machine p).step s = .inl s' ∧ ((∃ t', (machine p').step t = .inl t' ∧ s'.Alike t') ∨
      s'.Alike t ∧ s'.frame.rest.length < s.frame.rest.length)) ∨
    ∃ r, (machine p).step s = .inr r ∧ (machine p').step t = .inr r := by
  obtain ⟨f, callers, _⟩ := s
  obtain ⟨g, callers', stack⟩ := t
  obtain ⟨kept, halike, rfl, hcallers⟩ := h
  have hact := halike.actAlike stack
  have hsp := step_eq_perform p ⟨f, callers, kept ++ stack⟩
  have htp := step_eq_perform p' ⟨g, callers', stack⟩
  dsimp only at hact hsp htp hcallers
  cases ha : act f (kept ++ stack) with
  | go f' after =>
    rw [ha] at hact hsp
    refine .inl ⟨_, machine_step_next hsp, ?_⟩
    rcases hact with ⟨kept', rfl, hr, hlen⟩ | ⟨g', kept', stack', hg, rfl, hr⟩
    · exact .inr ⟨⟨kept', hr, rfl, hcallers⟩, hlen⟩
    · rw [hg] at htp
      exact .inl ⟨_, machine_step_next htp, kept', hr, rfl, hcallers⟩
  | call f' id arguments =>
    rw [ha] at hact hsp
    obtain ⟨rfl, g', hg, hr⟩ := hact
    rw [hg, perform] at htp
    rw [perform] at hsp
    rcases hp.call (s := ⟨f, callers, [] ++ stack⟩) (t := ⟨g, callers', stack⟩) (f := f') (g := g')
        rfl id arguments with
      ⟨e, he, he'⟩ | ⟨frame, frame', below, hc, hc', hframe⟩
    · exact .inr ⟨_, machine_step_error (hsp.trans he), machine_step_error (htp.trans he')⟩
    · exact .inl ⟨_, machine_step_next (hsp.trans hc), .inl ⟨_, machine_step_next (htp.trans hc'), [],
        hframe, rfl, .cons hr hcallers⟩⟩
  | finish value =>
    rw [ha] at hact hsp
    obtain ⟨rfl, hg⟩ := hact
    rw [hg, perform] at htp
    rw [perform] at hsp
    cases hcallers with
    | nil => exact .inr ⟨_, machine_step_done hsp, machine_step_done htp⟩
    | cons hcaller hcallers => exact .inl ⟨_, machine_step_next hsp, .inl ⟨_, machine_step_next htp,
        [], hcaller, rfl, hcallers⟩⟩
  | fail e =>
    rw [ha] at hact hsp
    rw [hact] at htp
    exact .inr ⟨_, machine_step_error hsp, machine_step_error htp⟩

theorem State.Alike.steps (hp : p.Alike p') {s s' t : State} (h : s.Alike t)
    (hs : (machine p).step s = .inl s') :
    (∃ k t', 0 < k ∧ k ≤ (machine p).cost s ∧ (machine p').Steps k t t' ∧ s'.Alike t') ∨
      (s'.Alike t ∧ s'.frame.rest.length < s.frame.rest.length) := by
  obtain ⟨line, rest, hrest⟩ := exists_line_of_step (step_of_machine_step hs)
  rcases h.step hp with ⟨s₁, hs₁, hnext⟩ | ⟨r, hr, -⟩
  swap
  · cases hs.symm.trans hr
  cases hs.symm.trans hs₁
  rcases hnext with ⟨t', ht, h'⟩ | h'
  · obtain ⟨line', rest', hrest'⟩ := exists_line_of_step (step_of_machine_step ht)
    refine .inl ⟨1, t', Nat.one_pos, ?_, ?_, h'⟩
    · rw [machine_cost_cons hrest]
    · have := Machine.Steps.single ht
      rwa [machine_cost_cons hrest'] at this
  · exact .inr h'

theorem State.Alike.ends (hp : p.Alike p') {r : Ending}
    (h : s.Alike t) (hs : (machine p).step s = .inr r) :
    ∃ k r', k ≤ (machine p).cost s ∧ (machine p').Ends k t r' ∧ r' = r := by
  rcases h.step hp with ⟨s₁, hs₁, -⟩ | ⟨r', hr', hend⟩
  · cases hs.symm.trans hs₁
  cases hs.symm.trans hr'
  refine ⟨_, r, ?_, .done hend, rfl⟩
  cases hrest : s.frame.rest with
  | cons line rest =>
    rw [machine_cost_cons hrest]
    simp only [machine]
    split <;> omega
  | nil =>
    -- An activation at the end of its lines is alike only to one at the end of its lines.
    obtain ⟨kept, halike, -, -⟩ := h
    have hact := halike.actAlike t.stack
    simp only [act, hrest] at hact
    simp [machine, rest_eq_nil_of_ranOff hact]

/-! ## Refinement -/

/-- What corresponding functions of programs that refine each other do. -/
def DoAlike (p p' : Program) (f f' : Function) : Prop :=
  ∀ arguments stack,
    (∃ e, activate f arguments stack = .error e ∧ activate f' arguments stack = .error e) ∨
      ∃ frame frame' below, activate f arguments stack = .ok (frame, below) ∧
        activate f' arguments stack = .ok (frame', below) ∧
        (∀ k r, (machine p).Ends k ⟨frame, [], below⟩ r →
          ∃ j ≤ k, (machine p').Ends j ⟨frame', [], below⟩ r) ∧
        ∀ j r, (machine p').Ends j ⟨frame', [], below⟩ r →
          ∃ k, (machine p).Ends k ⟨frame, [], below⟩ r

structure Refines (p p' : Program) : Prop where
  functions : List.Forall₂ (fun f f' : Function => f'.label = f.label ∧ DoAlike p p' f f')
    p.functions p'.functions

/-- Programs whose bodies start alike simulate each other. -/
def Program.Alike.simulation {p p' : Program} (hp : p.Alike p') :
    Machine.Simulation (machine p) (machine p') where
  rel := State.Alike
  void _ := False
  res r r' := r' = r
  rank s := s.frame.rest.length
  next h hs := h.steps hp hs
  done h hs := .inr (h.ends hp hs)

theorem Program.Alike.refines (hp : p.Alike p') : Refines p p' := by
  refine ⟨List.Forall₂.imp (fun f f' hf => ⟨hf.label, fun arguments stack => ?_⟩) hp⟩
  rcases hf.activate arguments stack with he | ⟨frame, frame', below, h, h', halike⟩
  · exact .inl he
  · have hrel : hp.simulation.rel ⟨frame, [], below⟩ ⟨frame', [], below⟩ :=
      ⟨[], halike, rfl, .nil⟩
    refine .inr ⟨frame, frame', below, h, h', fun k r hk => ?_, fun j r hj => ?_⟩
    · rcases hp.simulation.ends hrel hk with hv | ⟨j, r', hj, hends, hr⟩
      · exact hv.elim
      · exact ⟨j, hj, (show r' = r from hr) ▸ hends⟩
    · obtain ⟨k, r', hk, hv | hr⟩ := hp.simulation.ends_back hrel hj
      · exact hv.elim
      · exact ⟨k, (show r = r' from hr) ▸ hk⟩

theorem Refines.refl (p : Program) : Refines p p :=
  Program.Alike.refines (List.forall₂_same.2 fun f _ => ⟨rfl, rfl, .refl f.definition⟩)

theorem Refines.trans {p q r : Program} (h : Refines p q) (h' : Refines q r) : Refines p r := by
  refine ⟨?_⟩
  obtain ⟨h⟩ := h
  obtain ⟨h'⟩ := h'
  generalize p.functions = fs at h ⊢
  generalize q.functions = gs at h h'
  generalize r.functions = hs at h' ⊢
  induction h generalizing hs with
  | nil =>
    cases h'
    exact .nil
  | cons hfg _ ih =>
    cases h' with
    | cons hgh h' =>
      refine .cons ⟨hgh.1.trans hfg.1, fun arguments stack => ?_⟩ (ih _ h')
      rcases hfg.2 arguments stack with ⟨e, hf, hg⟩ | ⟨f, g, below, hf, hg, hends, hback⟩
      · rcases hgh.2 arguments stack with ⟨e', hg', hh⟩ | ⟨g', -, below', hg', -⟩
        · rw [hg] at hg'
          cases hg'
          exact .inl ⟨e, hf, hh⟩
        · rw [hg] at hg'
          cases hg'
      · rcases hgh.2 arguments stack with ⟨e', hg', -⟩ | ⟨g', h, below', hg', hh, hends', hback'⟩
        · rw [hg] at hg'
          cases hg'
        · rw [hg] at hg'
          cases hg'
          refine .inr ⟨f, h, below, hf, hh, fun k e hk => ?_, fun j e hj => ?_⟩
          · obtain ⟨j, hj, hgj⟩ := hends k e hk
            obtain ⟨i, hi, hhi⟩ := hends' j e hgj
            exact ⟨i, hi.trans hj, hhi⟩
          · obtain ⟨j', hj'⟩ := hback' j e hj
            exact hback j' e hj'

/-! ## Calls -/

/-- In corresponding lists, tests that agree find corresponding elements at one position. -/
theorem find?_of_forall₂ {α β : Type} {R : α → β → Prop} {P : α → Bool} {Q : β → Bool} {l : List α}
    {l' : List β} (h : List.Forall₂ R l l') (hPQ : ∀ a b, R a b → Q b = P a) :
    (l.find? P = none ∧ l'.find? Q = none) ∨ ∃ (i : Nat) (a : α) (b : β), l.find? P = some a ∧
      l'.find? Q = some b ∧ l[i]? = some a ∧ l'[i]? = some b ∧ R a b := by
  induction h with
  | nil => exact .inl ⟨rfl, rfl⟩
  | @cons a b l l' hab _ ih =>
    by_cases ha : P a = true
    · refine .inr ⟨0, a, b, ?_, ?_, rfl, rfl, hab⟩
      · exact List.find?_cons_of_pos ha
      · exact List.find?_cons_of_pos (hPQ a b hab ▸ ha)
    · rw [List.find?_cons_of_neg ha, List.find?_cons_of_neg (hPQ a b hab ▸ ha)]
      refine ih.imp_right ?_
      rintro ⟨i, a', b', hfind⟩
      exact ⟨i + 1, a', b', hfind⟩

theorem Refines.function?_cases (h : Refines p p') (label : String) :
    (p.function? label = none ∧ p'.function? label = none) ∨ ∃ f f',
      p.function? label = some f ∧ p'.function? label = some f' ∧ DoAlike p p' f f' := by
  have hlabel : ∀ f f' : Function, f'.label = f.label →
      decide (f'.label = label) = decide (f.label = label) := fun _ _ hf => by rw [hf]
  rcases find?_of_forall₂ h.functions (fun f f' hf => hlabel f f' hf.1) with
    hnone | ⟨-, f, f', hf, hf', -, -, -, halike⟩
  · exact .inl hnone
  · exact .inr ⟨f, f', hf, hf', halike⟩

/-- Calls of a program that refines another one have the answers of the latter, and leave no less
fuel. -/
theorem Refines.call_eq_and_fuel_le (h : Refines p p') {label : String}
    {args : List Int64} {fuel : Nat}
    (hcall : (Session.call p { fuel } label args).1 ≠ .error .outOfFuel) :
    (Session.call p' { fuel } label args).1 = (Session.call p { fuel } label args).1 ∧
      (Session.call p { fuel } label args).2.fuel ≤
        (Session.call p' { fuel } label args).2.fuel := by
  have hstack : ({ fuel } : Session).stack = [] := rfl
  rcases h.function?_cases label with ⟨hnone, hnone'⟩ | ⟨f, f', hf, hf', halike⟩
  · simp only [Session.call, hnone, hnone', le_refl, and_self]
  rcases halike args.length args.reverse with ⟨e, he, he'⟩ | ⟨frame, frame', below, ha, ha', hends, -⟩
  · simp only [Session.call, hf, hf', List.append_nil, he, he', le_refl, and_self]
  · rcases call_outOfFuel_or_ends hf hstack ha with hout | ⟨k, r, hk, hr⟩
    · exact (hcall hout).elim
    · obtain ⟨j, hj, hr'⟩ := hends k r hr
      constructor
      · rw [call_of_ends hf hstack ha hr hk, call_of_ends hf' hstack ha' hr' (hj.trans hk)]
      · rw [fuel_of_ends hf hstack ha hr hk, fuel_of_ends hf' hstack ha' hr' (hj.trans hk)]
        omega

theorem Refines.call_eq (h : Refines p p') {label : String} {args : List Int64}
    {fuel : Nat} (hcall : (Session.call p { fuel } label args).1 ≠ .error .outOfFuel) :
    (Session.call p' { fuel } label args).1 = (Session.call p { fuel } label args).1 :=
  (h.call_eq_and_fuel_le hcall).1

end WordLang.Linear
