import WordLang.Proofs.Linear.Peephole

/-!
# Shortening ends at a fixpoint

A rule lowers the number of lines wherever it applies, also where the labels of removed lines need a
line of their own. So a round that leaves the number of lines as it is has applied no rule, and the
numbers of lines that were met before are all greater than the one after the next round that changes
anything: none is ever met again. Shortening that ends before it has used up its rounds ends with
lines in which no rule applies.

## Main definitions

* `Linear.Rule.Idle`: a rule that applies nowhere
* `Linear.Cursor`, `Linear.Cursor.step?`: where a sweep stands, and its steps
* `Linear.Shortening`, `Linear.Shortening.next?`: where shortening stands, and its rounds

## Main results

* `Linear.fold?_eq_none_of_length_sweep`: a sweep that keeps the number of lines applies no rule
* `Linear.iterate_step?`: a sweep ends after at most as many steps as there are lines
* `Linear.Shortening.Reaches.falling`: no number of lines is met again
* `Linear.Body.optimize_fixpoint`: what the test for an unchanged number of lines is good for
-/

namespace WordLang.Linear

/-- The rules in the order of a round. -/
def rules : List Rule := [pushKillPop, directCall, directStore, shadowedPop]

/-- A rule that applies nowhere in lines. -/
def Rule.Idle (rule : Rule) (lines : List Line) : Prop :=
  ∀ before rest, lines = before ++ rest → rule.fold? rest = none

/-! ## Sweeps -/

theorem Rule.length_apply_lt {rule : Rule} {lines : List Line} {fold : Fold}
    (h : rule.fold? lines = some fold) (before : List Line) :
    (fold.apply (before ++ fold.lines)).length < (before ++ lines).length := by
  have hshrinks := rule.shrinks _ _ h
  rw [Fold.length_apply, List.length_append, List.length_append]
  omega

theorem length_sweepFrom_le (rule : Rule) (passed lines : List Line) :
    (sweepFrom rule passed lines).length ≤ passed.length + lines.length := by
  induction passed, lines using sweepFrom.induct rule with
  | case1 passed =>
    rw [sweepFrom]
    simp
  | case2 passed line rest fold hfold ih =>
    rw [sweepFrom_of_fold hfold]
    have hshrinks := rule.shrinks _ _ hfold
    simp only [Fold.length_apply] at ih
    omega
  | case3 passed line rest hfold ih =>
    rw [sweepFrom_of_none hfold]
    simp only [List.length_cons] at ih ⊢
    omega

theorem sweepFrom_of_length_eq {rule : Rule} {passed lines : List Line}
    (h : (sweepFrom rule passed lines).length = passed.length + lines.length) :
    sweepFrom rule passed lines = passed.reverse ++ lines ∧ rule.Idle lines := by
  induction passed, lines using sweepFrom.induct rule with
  | case1 passed =>
    refine ⟨by rw [sweepFrom, List.append_nil], fun before rest hrest => ?_⟩
    obtain ⟨-, rfl⟩ := List.nil_eq_append_iff.1 hrest
    exact Option.eq_none_iff_forall_ne_some.2 fun fold hfold =>
      absurd (rule.shrinks _ _ hfold) (by simp)
  | case2 passed line rest fold hfold ih =>
    -- Applying the rule would have lowered the number of lines.
    have hle := length_sweepFrom_le rule (fold.apply passed) (fold.apply fold.lines)
    have hshrinks := rule.shrinks _ _ hfold
    rw [sweepFrom_of_fold hfold] at h
    simp only [Fold.length_apply] at hle
    omega
  | case3 passed line rest hfold ih =>
    -- The rule does not apply here, and it does not apply to a shorter rest.
    rw [sweepFrom_of_none hfold] at h ⊢
    obtain ⟨heq, hidle⟩ := ih (by simp only [List.length_cons] at h ⊢; omega)
    refine ⟨by simpa using heq, fun before rest' hrest => ?_⟩
    cases before with
    | nil => rwa [← List.nil_append rest', ← hrest]
    | cons first before =>
      obtain ⟨-, hrest⟩ := List.cons_eq_cons.1 hrest
      exact hidle before rest' hrest

theorem length_sweep_le (rule : Rule) (lines : List Line) :
    (sweep rule lines).length ≤ lines.length := by
  have hle := length_sweepFrom_le rule [] lines
  rwa [List.length_nil, Nat.zero_add] at hle

theorem fold?_eq_none_of_length_sweep {rule : Rule} {lines : List Line}
    (h : (sweep rule lines).length = lines.length) : sweep rule lines = lines ∧ rule.Idle lines :=
  sweepFrom_of_length_eq (h.trans (Nat.zero_add _).symm)

theorem length_optimizeRound_le (lines : List Line) :
    (optimizeRound lines).length ≤ lines.length :=
  calc (optimizeRound lines).length
    _ ≤ (sweep directStore (sweep directCall (sweep pushKillPop lines))).length :=
      length_sweep_le shadowedPop _
    _ ≤ (sweep directCall (sweep pushKillPop lines)).length := length_sweep_le directStore _
    _ ≤ (sweep pushKillPop lines).length := length_sweep_le directCall _
    _ ≤ lines.length := length_sweep_le pushKillPop _

theorem idle_of_length_optimizeRound {lines : List Line}
    (h : (optimizeRound lines).length = lines.length) :
    optimizeRound lines = lines ∧ ∀ rule ∈ rules, rule.Idle lines := by
  -- No sweep adds lines, so each of the four keeps their number.
  have hpair := length_sweep_le pushKillPop lines
  have hcall := length_sweep_le directCall (sweep pushKillPop lines)
  have hstore := length_sweep_le directStore (sweep directCall (sweep pushKillPop lines))
  have hshadow := length_sweep_le shadowedPop
    (sweep directStore (sweep directCall (sweep pushKillPop lines)))
  rw [optimizeRound] at h ⊢
  obtain ⟨hpair', hpairs⟩ := @fold?_eq_none_of_length_sweep pushKillPop lines (by omega)
  rw [hpair'] at h hcall hstore hshadow ⊢
  obtain ⟨hcall', hcalls⟩ := @fold?_eq_none_of_length_sweep directCall lines (by omega)
  rw [hcall'] at h hstore hshadow ⊢
  obtain ⟨hstore', hstores⟩ := @fold?_eq_none_of_length_sweep directStore lines (by omega)
  rw [hstore'] at h ⊢
  obtain ⟨hshadow', hshadows⟩ := fold?_eq_none_of_length_sweep h
  exact ⟨hshadow', by simp [rules, hpairs, hcalls, hstores, hshadows]⟩

/-- Where a sweep stands. -/
structure Cursor where
  passed : List Line
  lines : List Line

/-- One step of a sweep: the rule applies, or the next line is passed. At the end there is none. -/
def Cursor.step? (rule : Rule) : Cursor → Option Cursor
  | ⟨_, []⟩ => none
  | ⟨passed, line :: rest⟩ =>
    match rule.fold? (line :: rest) with
    | some fold => some ⟨fold.apply passed, fold.apply fold.lines⟩
    | none => some ⟨line :: passed, rest⟩

theorem iterate_step? (rule : Rule) (passed lines : List Line) : ∃ k ≤ lines.length,
    (·.bind (Cursor.step? rule))^[k] (some ⟨passed, lines⟩) =
      some ⟨(sweepFrom rule passed lines).reverse, []⟩ := by
  induction passed, lines using sweepFrom.induct rule with
  | case1 passed =>
    refine ⟨0, le_rfl, ?_⟩
    rw [sweepFrom, List.reverse_reverse]
    rfl
  | case2 passed line rest fold hfold ih =>
    obtain ⟨k, hk, hsteps⟩ := ih
    have hshrinks := rule.shrinks _ _ hfold
    rw [Fold.length_apply] at hk
    refine ⟨k + 1, by omega, ?_⟩
    rw [sweepFrom_of_fold hfold, ← hsteps, Function.iterate_succ_apply, Option.bind_some,
      Cursor.step?, hfold]
  | case3 passed line rest hfold ih =>
    obtain ⟨k, hk, hsteps⟩ := ih
    refine ⟨k + 1, Nat.succ_le_succ hk, ?_⟩
    rw [sweepFrom_of_none hfold, ← hsteps, Function.iterate_succ_apply, Option.bind_some,
      Cursor.step?, hfold]

/-! ## Rounds -/

/-- Where shortening stands between two rounds. -/
structure Shortening where
  rounds : Nat
  seen : List Nat
  repeats : Nat
  lines : List Line
deriving DecidableEq

namespace Shortening

/-- Where shortening starts. -/
def start (lines : List Line) : Shortening := ⟨maxRounds, [lines.length], 0, lines⟩

/-- What shortening gives in the end. -/
def result (p : Shortening) : List Line := optimizeRounds p.rounds p.seen p.repeats p.lines

/-- One round after which shortening goes on. -/
def next? : Shortening → Option Shortening
  | ⟨0, _, _, _⟩ => none
  | ⟨n + 1, seen, repeats, lines⟩ =>
    let next := optimizeRound lines
    if next.length = lines.length then none
    else if next.length ∈ seen then
      if maxRepeats ≤ repeats + 1 then none else some ⟨n, seen, repeats + 1, next⟩
    else some ⟨n, next.length :: seen, repeats, next⟩

/-- Shortening comes from one place to another. -/
def Reaches : Shortening → Shortening → Prop := Relation.ReflTransGen fun p q => p.next? = some q

/-- No number of lines was met again, and all are at least the present one. -/
structure Falling (p : Shortening) : Prop where
  repeats : p.repeats = 0
  seen : ∀ l ∈ p.seen, p.lines.length ≤ l

variable {p q : Shortening}

theorem Falling.not_mem (h : p.Falling) (hne : (optimizeRound p.lines).length ≠ p.lines.length) :
    (optimizeRound p.lines).length ∉ p.seen := fun hmem =>
  hne ((length_optimizeRound_le p.lines).antisymm (h.seen _ hmem))

theorem Falling.next (h : p.Falling) (hnext : p.next? = some q) : q.Falling ∧ q.result = p.result := by
  obtain ⟨_ | n, seen, repeats, lines⟩ := p
  · cases hnext
  have hnot := h.not_mem
  simp only [next?] at hnext
  by_cases hlength : (optimizeRound lines).length = lines.length
  · rw [if_pos hlength] at hnext
    cases hnext
  rw [if_neg hlength, if_neg (hnot hlength)] at hnext
  cases hnext
  refine ⟨⟨h.repeats, fun l hl => ?_⟩, ?_⟩
  · rcases List.mem_cons.1 hl with rfl | hl
    · exact le_rfl
    · exact (length_optimizeRound_le lines).trans (h.seen l hl)
  · simp only [result, optimizeRounds]
    rw [if_neg hlength, if_neg (hnot hlength)]

/-- Shortening that ends with rounds left ends with one that changes nothing. -/
theorem Falling.of_next?_eq_none (h : p.Falling) (hnext : p.next? = none) (hrounds : p.rounds ≠ 0) :
    (optimizeRound p.lines).length = p.lines.length ∧ p.result = p.lines := by
  obtain ⟨_ | n, seen, repeats, lines⟩ := p
  · exact absurd rfl hrounds
  have hnot := h.not_mem
  simp only [next?] at hnext
  by_cases hlength : (optimizeRound lines).length = lines.length
  · refine ⟨hlength, ?_⟩
    simp only [result, optimizeRounds]
    rw [if_pos hlength, (idle_of_length_optimizeRound hlength).1]
  · rw [if_neg hlength, if_neg (hnot hlength)] at hnext
    cases hnext

/-- What holds wherever shortening comes. -/
theorem Reaches.falling {lines : List Line} (h : Reaches (start lines) p) :
    p.Falling ∧ p.result = optimizeLines lines := by
  induction h with
  | refl => exact ⟨⟨rfl, by simp [start]⟩, rfl⟩
  | tail _ hnext ih =>
    obtain ⟨hfalling, hresult⟩ := ih.1.next hnext
    exact ⟨hfalling, hresult.trans ih.2⟩

end Shortening

theorem optimizeLines_eq_self {lines : List Line} (h : optimizeRound lines = lines) :
    optimizeLines lines = lines := by
  have hrounds : ∀ n seen, optimizeRounds (n + 1) seen 0 lines = lines := by
    intro n seen
    simp only [optimizeRounds]
    rw [h, if_pos rfl]
  exact hrounds (maxRounds - 1) _

/-- A rule lowers the number of lines wherever it applies, so every sweep ends and a round that keeps
the number of lines changes nothing. Shortening never meets a number of lines again. If it ends
before it has used up its rounds, no rule applies to what it gives, and shortening that once more
changes nothing. -/
theorem Body.optimize_fixpoint (b : Body) :
    (∀ rule ∈ rules, ∀ (before lines : List Line) (fold : Fold), rule.fold? lines = some fold →
      (fold.apply (before ++ fold.lines)).length < (before ++ lines).length) ∧
    (∀ rule ∈ rules, ∀ lines : List Line, ∃ k ≤ lines.length,
      (·.bind (Cursor.step? rule))^[k] (some ⟨[], lines⟩) =
        some ⟨(sweep rule lines).reverse, []⟩) ∧
    (∀ lines, (optimizeRound lines).length = lines.length → optimizeRound lines = lines) ∧
    ∀ p, (Shortening.start b.lines).Reaches p →
      p.repeats = 0 ∧
      ((optimizeRound p.lines).length ≠ p.lines.length →
        (optimizeRound p.lines).length ∉ p.seen) ∧
      (p.next? = none → p.rounds ≠ 0 →
        b.optimize.lines = p.lines ∧ (∀ rule ∈ rules, rule.Idle b.optimize.lines) ∧
          b.optimize.optimize = b.optimize) := by
  refine ⟨fun rule _ before lines fold h => rule.length_apply_lt h before,
    fun rule _ lines => iterate_step? rule [] lines,
    fun lines h => (idle_of_length_optimizeRound h).1, fun p hp => ?_⟩
  obtain ⟨hfalling, hresult⟩ := hp.falling
  refine ⟨hfalling.repeats, hfalling.not_mem, fun hnext hrounds => ?_⟩
  obtain ⟨hlength, hlines⟩ := hfalling.of_next?_eq_none hnext hrounds
  have hb : b.optimize.lines = p.lines := hresult.symm.trans hlines
  obtain ⟨hround, hidle⟩ := idle_of_length_optimizeRound hlength
  refine ⟨hb, hb ▸ hidle, ?_⟩
  show ({ b.optimize with lines := optimizeLines b.optimize.lines } : Body) = b.optimize
  rw [hb, optimizeLines_eq_self hround, ← hb]

/-- A value that is pushed at a label and popped at once, with nothing after it. -/
def labelledPair : Body where
  lines := [⟨[0], .push 0⟩, ⟨[], .kill 0⟩, ⟨[], .pop 1⟩]
  result := 0
  entry := 0

/-- Of the pair its label is left, on a line that does nothing. -/
theorem optimize_fixpoint_labelledPair :
    labelledPair.optimize.lines = [⟨[0], .nop⟩] ∧
      labelledPair.optimize.optimize = labelledPair.optimize := by
  have hreaches : (Shortening.start labelledPair.lines).Reaches ⟨maxRounds - 1, [1, 3], 0, [⟨[0], .nop⟩]⟩ :=
    .single (by decide +kernel)
  obtain ⟨-, -, -, hall⟩ := labelledPair.optimize_fixpoint
  obtain ⟨-, -, hends⟩ := hall _ hreaches
  obtain ⟨hlines, -, htwice⟩ := hends (by decide +kernel) (by decide)
  exact ⟨hlines, htwice⟩

end WordLang.Linear
