import WordLang.Linear

/-!
# Peephole shortening

Four rules shorten a body. A value that is pushed, ended and popped at once stays in its register;
so does one that is popped further down, if nothing in between touches the stack. A call of a
function that was just put into a register calls it directly, and a small word that was just put
into a register is stored directly. Every rule replaces lines by fewer lines; the labels of
removed lines move on to the next line that stays.

## Main definitions

* `Linear.Rule`: a replacement for the lines from a place on
* `Linear.pushKillPop`, `Linear.directCall`, `Linear.directStore`, `Linear.shadowedPop`: the rules
* `Linear.sweep`, `Linear.Body.optimize`: a rule applied from the first line to the last, and
  rounds of all four
-/

namespace WordLang.Linear

/-- The largest number of rounds. -/
def maxRounds : Nat := 64

/-- How often a number of lines may be met again before shortening ends. -/
def maxRepeats : Nat := 3

/-- Puts labels on the first of the lines; at the end of a body a line that does nothing takes
them. -/
def handOver (labels : List LabelId) : List Line → List Line
  | [] => if labels = [] then [] else [⟨labels, .nop⟩]
  | line :: rest => { line with labels := labels ++ line.labels } :: rest

theorem length_handOver_le (labels : List LabelId) (lines : List Line) :
    (handOver labels lines).length ≤ max 1 lines.length := by
  cases lines with
  | nil => simp only [handOver]; split <;> simp
  | cons line rest => simp only [handOver, List.length_cons]; omega

/-- New lines for those from a place on, and a register to be named by another everywhere. -/
structure Fold where
  lines : List Line
  /-- The register that disappears and the one that takes its place. -/
  renamed : Option (RegisterId × RegisterId) := none

/-- Lines in which the register that a replacement removes has its new name. -/
def Fold.apply (fold : Fold) (lines : List Line) : List Line :=
  match fold.renamed with
  | some (source, target) => lines.map (Line.rename source target)
  | none => lines

@[simp] theorem Fold.length_apply (fold : Fold) (lines : List Line) :
    (fold.apply lines).length = lines.length := by
  simp only [Fold.apply]
  split <;> simp

/-- A replacement for the lines from a place on, which lowers their number. -/
structure Rule where
  fold? : List Line → Option Fold
  shrinks : ∀ lines fold, fold? lines = some fold → fold.lines.length < lines.length

/-! ## The rules -/

/-- A value that is pushed, ended and popped at once. -/
def foldPushKillPop : List Line → Option Fold
  | ⟨labels, .push pushed⟩ :: ⟨[], .kill killed⟩ :: ⟨[], .pop popped⟩ :: rest =>
    if pushed = killed then some ⟨handOver labels rest, some (popped, pushed)⟩ else none
  | _ => none

/-- A call of a function that was just put into a register. -/
def foldDirectCall : List Line → Option Fold
  | ⟨labels, .moveFunction register function⟩ :: ⟨[], .callRegister callee arguments⟩ ::
      ⟨[], .kill killed⟩ :: rest =>
    if register = callee ∧ register = killed then
      some ⟨⟨labels, .callImmediate function arguments⟩ :: rest, none⟩
    else none
  | _ => none

/-- Whether a word is a sign-extended half word. -/
def isSmall (value : Int64) : Bool :=
  -2147483648 ≤ value.toInt && value.toInt ≤ 2147483647

/-- A small word that was just put into a register and is stored. -/
def foldDirectStore : List Line → Option Fold
  | ⟨labels, .moveInt register value⟩ :: ⟨[], .storeRegister slot stored⟩ ::
      ⟨[], .kill killed⟩ :: rest =>
    if register = stored ∧ register = killed ∧ isSmall value then
      some ⟨⟨labels, .storeImmediate slot value⟩ :: rest, none⟩
    else none
  | _ => none

/-- A pop that gives back what was pushed before a place. -/
structure Shadow where
  popped : RegisterId
  /-- The lines from the place on, without the pop and without the last `kill` of the pushed
  register before it. -/
  lines : List Line
  killed : Bool

/-- A shadow with a line in front. -/
def Shadow.cons (line : Line) (s : Shadow) : Shadow := { s with lines := line :: s.lines }

/-- The pop that gives back the register `pushed`, if no label and nothing that touches the stack
comes before it. -/
def shadow? (pushed : RegisterId) : List Line → Option Shadow
  | [] => none
  | line :: rest =>
    if line.labels ≠ [] then none
    else
      match line.instruction with
      | .pop popped => some ⟨popped, rest, false⟩
      | .kill r =>
        match shadow? pushed rest with
        | none => none
        | some s =>
          -- Further down comes first, so only the last `kill` before the pop is left out.
          if r = pushed ∧ !s.killed then some { s with killed := true } else some (s.cons line)
      | i => if i.pollutesStack then none else (shadow? pushed rest).map (Shadow.cons line)

/-- A value that is pushed, and popped further down. -/
def foldShadowedPop : List Line → Option Fold
  | ⟨labels, .push pushed⟩ :: rest =>
    match shadow? pushed rest with
    | some s => if s.killed then some ⟨handOver labels s.lines, some (s.popped, pushed)⟩ else none
    | none => none
  | _ => none

theorem length_shadow? {pushed : RegisterId} {lines : List Line} {s : Shadow}
    (h : shadow? pushed lines = some s) :
    s.lines.length + (if s.killed then 2 else 1) = lines.length := by
  induction lines generalizing s with
  | nil => simp [shadow?] at h
  | cons line rest ih =>
    simp only [shadow?] at h
    split at h
    · simp at h
    split at h
    · simp only [Option.some.injEq] at h
      subst h
      simp
    · split at h
      · simp at h
      next t ht =>
        have := ih ht
        split at h
        · simp only [Option.some.injEq] at h
          subst h
          simp_all
        · simp only [Option.some.injEq] at h
          subst h
          cases hk : t.killed <;>
            simp only [Shadow.cons, hk, List.length_cons, Bool.false_eq_true, ↓reduceIte]
              at this ⊢ <;>
            omega
    · split at h
      · simp at h
      · simp only [Option.map_eq_some_iff] at h
        obtain ⟨t, ht, rfl⟩ := h
        have := ih ht
        cases hk : t.killed <;>
          simp only [Shadow.cons, hk, List.length_cons, Bool.false_eq_true, ↓reduceIte]
            at this ⊢ <;>
          omega

/-- The rule for a value that is pushed, ended and popped at once. -/
def pushKillPop : Rule where
  fold? := foldPushKillPop
  shrinks lines fold h := by
    unfold foldPushKillPop at h
    split at h
    · next labels _ _ _ rest =>
      split at h
      · simp only [Option.some.injEq] at h
        subst h
        have := length_handOver_le labels rest
        simp only [List.length_cons]
        omega
      · simp at h
    · simp at h

/-- The rule for a call of a function that was just put into a register. -/
def directCall : Rule where
  fold? := foldDirectCall
  shrinks lines fold h := by
    unfold foldDirectCall at h
    split at h
    · split at h
      · simp only [Option.some.injEq] at h
        subst h
        simp only [List.length_cons]
        omega
      · simp at h
    · simp at h

/-- The rule for a small word that was just put into a register and is stored. -/
def directStore : Rule where
  fold? := foldDirectStore
  shrinks lines fold h := by
    unfold foldDirectStore at h
    split at h
    · split at h
      · simp only [Option.some.injEq] at h
        subst h
        simp only [List.length_cons]
        omega
      · simp at h
    · simp at h

/-- The rule for a value that is pushed, and popped further down. -/
def shadowedPop : Rule where
  fold? := foldShadowedPop
  shrinks lines fold h := by
    unfold foldShadowedPop at h
    split at h
    · next labels pushed rest =>
      split at h
      · next s hs =>
        have hlength := length_shadow? hs
        split at h
        · next hk =>
          simp only [Option.some.injEq] at h
          subst h
          have := length_handOver_le labels s.lines
          rw [if_pos hk] at hlength
          simp only [List.length_cons]
          omega
        · simp at h
      · simp at h
    · simp at h

/-! ## Rounds -/

/-- Applies a rule from the first line to the last; a place that was changed is tried again. The
lines already passed come in reverse order. -/
def sweepFrom (rule : Rule) (passed lines : List Line) : List Line :=
  match lines with
  | [] => passed.reverse
  | line :: rest =>
    match _h : rule.fold? (line :: rest) with
    | some fold => sweepFrom rule (fold.apply passed) (fold.apply fold.lines)
    | none => sweepFrom rule (line :: passed) rest
termination_by lines.length
decreasing_by
  · rw [Fold.length_apply]
    exact rule.shrinks _ _ _h
  · simp

/-- Applies a rule from the first line to the last. -/
def sweep (rule : Rule) (lines : List Line) : List Line := sweepFrom rule [] lines

/-- One round: every rule once. -/
def optimizeRound (lines : List Line) : List Line :=
  sweep shadowedPop (sweep directStore (sweep directCall (sweep pushKillPop lines)))

/-- At most `n` rounds, up to one that leaves the number of lines as it is, or one that meets
`maxRepeats` times a number of lines in `seen`. -/
def optimizeRounds : Nat → List Nat → Nat → List Line → List Line
  | 0, _, _, lines => lines
  | n + 1, seen, repeats, lines =>
    let next := optimizeRound lines
    if next.length = lines.length then next
    else if next.length ∈ seen then
      if maxRepeats ≤ repeats + 1 then next else optimizeRounds n seen (repeats + 1) next
    else optimizeRounds n (next.length :: seen) repeats next

/-- Lines after rounds of shortening. -/
def optimizeLines (lines : List Line) : List Line := optimizeRounds maxRounds [lines.length] 0 lines

/-- A body after rounds of shortening. -/
def Body.optimize (body : Body) : Body := { body with lines := optimizeLines body.lines }

/-- A program after rounds of shortening in every body. -/
def Program.optimize (p : Program) : Program := p.mapBodies Body.optimize

end WordLang.Linear
