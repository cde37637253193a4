import WordLang.Proofs.Flow.CallFree
import WordLang.Proofs.Flow.WellFormed
import WordLang.Proofs.Linear.Fixpoint

/-!
# Stack traffic of code without calls

Expressions are computed on the stack, so lowered code pushes and pops all the time. In code without
calls shortening removes all of it, unless it runs out of rounds. Between labels every value that
is pushed is popped again, and a pushed register is killed before anything else happens; the rules
keep both. An innermost push and its pop then have nothing between them but a `kill` of the pushed
register and lines that leave the stack alone, which is where a rule applies. A round that leaves
the number of lines as it is has applied no rule.

## Main definitions

* `Linear.heightAfter?`: the height of the stack after lines, if it is zero at every label
* `Linear.PushesKilled`: lines in which every register that is pushed is killed next
* `Linear.LocalTraffic`: lines without calls between whose labels pushes and pops match
* `Linear.Body.stopsUnchanged`: whether shortening ends with a round that leaves the number of lines
  as it is

## Main results

* `Linear.LocalTraffic.optimizeLines`: shortening keeps traffic local
* `Linear.LocalTraffic.eq_false_of_idle`: where no rule applies there is no traffic
* `Checked.noTraffic_of_callFree`: the functions of checked programs
-/

namespace WordLang

variable {lines : List Line} {r : RegisterId} {height : Nat} {i : Instruction} {line : Line}
  {b : Body}

namespace Linear

/-- Whether an instruction calls. -/
def Instruction.isCall : Instruction → Bool
  | .callRegister _ _ => true
  | .callImmediate _ _ => true
  | _ => false

/-- Whether an instruction pushes or pops a register. -/
def Instruction.isTraffic : Instruction → Bool
  | .push _ => true
  | .pop _ => true
  | _ => false

theorem Instruction.traffic_cases (i : Instruction) :
    (∃ r, i = .push r) ∨ (∃ r, i = .pop r) ∨ i.isTraffic = false := by
  cases i <;> simp [isTraffic]

theorem Instruction.pollutesStack_eq (i : Instruction) :
    i.pollutesStack = (i.isTraffic || i.isCall) := by
  cases i <;> rfl

@[simp] theorem Instruction.isCall_mapRegisters (ρ : RegisterId → RegisterId) (i : Instruction) :
    (i.mapRegisters ρ).isCall = i.isCall := by
  cases i <;> rfl

theorem Instruction.eq_push_of_mapRegisters {ρ : RegisterId → RegisterId}
    (h : i.mapRegisters ρ = .push r) : ∃ pushed, i = .push pushed ∧ ρ pushed = r := by
  cases i with
  | push pushed => exact ⟨pushed, rfl, Instruction.push.inj h⟩
  | _ => cases h

/-! ## Heights -/

/-- The height of the stack after an instruction that is not a call, if the stack is high enough
before it. -/
def Instruction.heightAfter? : Instruction → Nat → Option Nat
  | .push _, height => some (height + 1)
  | .pop _, 0 => none
  | .pop _, height + 1 => some height
  | _, height => some height

/-- The height of the stack after lines, if it is high enough for each of them and zero at every
label. -/
def heightAfter? : List Line → Nat → Option Nat
  | [], height => some height
  | line :: rest, height =>
    if line.labels ≠ [] ∧ height ≠ 0 then none
    else (line.instruction.heightAfter? height).bind (heightAfter? rest)

theorem heightAfter?_append (lines rest : List Line) (height : Nat) :
    heightAfter? (lines ++ rest) height = (heightAfter? lines height).bind (heightAfter? rest) := by
  induction lines generalizing height with
  | nil => rfl
  | cons line lines ih =>
    rw [List.cons_append, heightAfter?, heightAfter?]
    split
    · rfl
    · rw [Option.bind_assoc]
      exact congrArg _ (funext ih)

theorem Instruction.heightAfter?_of_not_isTraffic (h : i.isTraffic = false)
    (height : Nat) : i.heightAfter? height = some height := by
  cases i with
  | push => cases h
  | pop => cases h
  | _ => rfl

@[simp] theorem Instruction.heightAfter?_mapRegisters (ρ : RegisterId → RegisterId)
    (i : Instruction) (height : Nat) :
    (i.mapRegisters ρ).heightAfter? height = i.heightAfter? height := by
  cases i <;> cases height <;> rfl

theorem Line.Plain.isTraffic (h : line.Plain) : line.instruction.isTraffic = false := by
  have hstack := h.2
  rw [Instruction.pollutesStack_eq, Bool.or_eq_false_iff] at hstack
  exact hstack.1

theorem heightAfter?_plain (h : ∀ line ∈ lines, line.Plain) (rest : List Line)
    (height : Nat) : heightAfter? (lines ++ rest) height = heightAfter? rest height := by
  induction lines with
  | nil => rfl
  | cons line lines ih =>
    have hline := h line List.mem_cons_self
    rw [List.cons_append, heightAfter?, if_neg (by simp [hline.1]),
      Instruction.heightAfter?_of_not_isTraffic hline.isTraffic, Option.bind_some]
    exact ih fun line hline => h line (List.mem_cons_of_mem _ hline)

theorem heightAfter?_handOver {labels : List LabelId}
    (h : labels ≠ [] → height = 0) (lines : List Line) :
    heightAfter? (handOver labels lines) height = heightAfter? lines height := by
  by_cases hlabels : labels = []
  · rw [hlabels, handOver_nil]
  · rw [h hlabels]
    cases lines with
    | nil => simp [handOver, hlabels, heightAfter?, Instruction.heightAfter?]
    | cons line rest => simp [handOver, heightAfter?]

theorem heightAfter?_rename (source target : RegisterId) (lines : List Line) (height : Nat) :
    heightAfter? (lines.map (Line.rename source target)) height = heightAfter? lines height := by
  induction lines generalizing height with
  | nil => rfl
  | cons line rest ih =>
    simp only [List.map_cons, heightAfter?, Line.rename, Instruction.rename,
      Instruction.heightAfter?_mapRegisters]
    split
    · rfl
    · exact congrArg _ (funext ih)

/-! ## Kills -/

def KillsNext (r : RegisterId) : List Line → Prop
  | [] => False
  | line :: rest => ∃ killed, line.instruction = .kill killed ∧ (killed = r ∨ KillsNext r rest)

/-- Lines in which every register that is pushed is killed before anything but kills happens. -/
def PushesKilled : List Line → Prop
  | [] => True
  | line :: rest => (∀ r, line.instruction = .push r → KillsNext r rest) ∧ PushesKilled rest

theorem PushesKilled.of_append {lines rest : List Line} (h : PushesKilled (lines ++ rest)) :
    PushesKilled rest := by
  induction lines with
  | nil => exact h
  | cons line lines ih => exact ih h.2

theorem pushesKilled_append {lines rest : List Line}
    (h : ∀ line ∈ lines, line.instruction.isTraffic = false) (hrest : PushesKilled rest) :
    PushesKilled (lines ++ rest) := by
  induction lines with
  | nil => exact hrest
  | cons line lines ih =>
    refine ⟨fun r hr => ?_, ih fun line hline => h line (List.mem_cons_of_mem _ hline)⟩
    have hline := h line List.mem_cons_self
    rw [hr] at hline
    cases hline

theorem KillsNext.replace {rest : List Line}
    (hline : ∀ killed, line.instruction ≠ .kill killed) (h : KillsNext r (lines ++ line :: rest))
    (rest' : List Line) : KillsNext r (lines ++ rest') := by
  induction lines with
  | nil =>
    obtain ⟨killed, hkilled, -⟩ := h
    exact absurd hkilled (hline killed)
  | cons first lines ih =>
    obtain ⟨killed, hkilled, h⟩ := h
    exact ⟨killed, hkilled, h.imp_right ih⟩

theorem PushesKilled.replace {rest rest' : List Line}
    (h : PushesKilled (lines ++ line :: rest)) (hline : ∀ killed, line.instruction ≠ .kill killed)
    (hrest : PushesKilled rest') : PushesKilled (lines ++ rest') := by
  induction lines with
  | nil => exact hrest
  | cons first lines ih => exact ⟨fun r hr => (h.1 r hr).replace hline rest', ih h.2⟩

theorem pushesKilled_handOver (labels : List LabelId) (h : PushesKilled lines) :
    PushesKilled (handOver labels lines) := by
  cases lines with
  | nil =>
    rw [handOver]
    split
    · trivial
    · exact ⟨fun r hr => (by cases hr), trivial⟩
  | cons line rest => exact h

theorem KillsNext.rename (h : KillsNext r lines) (source target : RegisterId) :
    KillsNext (if r = source then target else r) (lines.map (Line.rename source target)) := by
  induction lines with
  | nil => exact h
  | cons line rest ih =>
    obtain ⟨killed, hkilled, h⟩ := h
    refine ⟨if killed = source then target else killed, ?_, h.imp (fun heq => ?_) ih⟩
    · rw [Line.rename, hkilled]
      rfl
    · rw [heq]

theorem PushesKilled.rename (h : PushesKilled lines)
    (source target : RegisterId) : PushesKilled (lines.map (Line.rename source target)) := by
  induction lines with
  | nil => trivial
  | cons line rest ih =>
    refine ⟨fun r hr => ?_, ih h.2⟩
    -- What is a push after renaming was one before.
    obtain ⟨pushed, hpushed, rfl⟩ := Instruction.eq_push_of_mapRegisters hr
    exact (h.1 pushed hpushed).rename source target

/-! ## Local traffic -/

/-- Lines without calls, to be reached with a stack of the given height: between labels pushes and
pops match, and pushed registers are killed. -/
structure LocalTraffic (height : Nat) (lines : List Line) : Prop where
  callFree : ∀ line ∈ lines, line.instruction.isCall = false
  killed : PushesKilled lines
  /-- The stack is high enough, and empty at labels and at the end. -/
  balanced : heightAfter? lines height = some 0

theorem LocalTraffic.rename (h : LocalTraffic height lines) (source target : RegisterId) :
    LocalTraffic height (lines.map (Line.rename source target)) where
  callFree := by
    intro line hline
    obtain ⟨line, hmem, rfl⟩ := List.mem_map.1 hline
    exact (Instruction.isCall_mapRegisters _ _).trans (h.callFree line hmem)
  killed := h.killed.rename source target
  balanced := by rw [heightAfter?_rename, h.balanced]

theorem directCall_keeps_localTraffic (height : Nat) : directCall.Keeps (LocalTraffic height) := by
  intro before lines fold hfold h
  obtain ⟨labels, r, id, arguments, rest, rfl, -⟩ := foldDirectCall_eq_some hfold
  have hcall := h.callFree ⟨[], .callRegister r arguments⟩ (by simp)
  cases hcall

theorem directStore_keeps_localTraffic (height : Nat) :
    directStore.Keeps (LocalTraffic height) := by
  intro before lines fold hfold h
  obtain ⟨labels, r, value, slot, rest, -, rfl, rfl⟩ := foldDirectStore_eq_some hfold
  refine ⟨?_, ?_, ?_⟩
  · intro line hline
    simp only [Fold.apply, List.mem_append, List.mem_cons] at hline
    rcases hline with hline | rfl | hline
    · exact h.callFree line (List.mem_append_left _ hline)
    · rfl
    · exact h.callFree line (by simp [hline])
  · refine h.killed.replace (by simp) ⟨fun r hr => (by cases hr), ?_⟩
    exact h.killed.of_append.2.2.2
  · have hbalanced := h.balanced
    rw [heightAfter?_append] at hbalanced
    rw [Fold.apply, heightAfter?_append, ← hbalanced]
    refine congrArg _ (funext fun height => ?_)
    simp [heightAfter?, Instruction.heightAfter?]

theorem callFree_handOver (labels : List LabelId)
    (h : ∀ line ∈ lines, line.instruction.isCall = false) :
    ∀ line ∈ handOver labels lines, line.instruction.isCall = false := by
  cases lines with
  | nil =>
    rw [handOver]
    split <;> simp [Instruction.isCall]
  | cons line rest => simpa [handOver] using h

/-- A value that stays in its register is neither pushed nor popped, and the stack is as high as it
was before and after. -/
theorem shadowedPop_keeps_localTraffic (height : Nat) :
    shadowedPop.Keeps (LocalTraffic height) := by
  intro before lines fold hfold h
  obtain ⟨labels, pushed, popped, first, second, after, hplain, rfl, rfl⟩ :=
    foldShadowedPop_eq_some hfold
  refine LocalTraffic.rename ⟨?_, ?_, ?_⟩ popped pushed
  · intro line hline
    rcases List.mem_append.1 hline with hline | hline
    · exact h.callFree line (List.mem_append_left _ hline)
    · refine callFree_handOver labels (fun line hline => h.callFree line ?_) line hline
      simp only [List.mem_append, List.mem_cons] at hline ⊢
      tauto
  · -- The kills after an earlier push end before this push, which is not a kill.
    refine h.killed.replace (by simp) (pushesKilled_handOver labels ?_)
    refine pushesKilled_append (fun line hline => (hplain line hline).isTraffic) ?_
    exact h.killed.of_append.2.of_append.2.of_append.2
  · have hbalanced := h.balanced
    rw [heightAfter?_append, Option.bind_eq_some_iff] at hbalanced
    obtain ⟨k, hbefore, hk⟩ := hbalanced
    rw [List.forall_mem_append] at hplain
    rw [heightAfter?] at hk
    split at hk
    · cases hk
    next hlabels =>
      rw [heightAfter?_append, hbefore, Option.bind_some, heightAfter?_handOver (by tauto),
        List.append_assoc, heightAfter?_plain hplain.1, heightAfter?_plain hplain.2]
      simpa [Instruction.heightAfter?, heightAfter?, heightAfter?_plain hplain.1,
        heightAfter?_plain hplain.2] using hk

theorem LocalTraffic.optimizeLines
    (h : LocalTraffic height lines) : LocalTraffic height (Linear.optimizeLines lines) :=
  optimizeLines_induction (directCall_keeps_localTraffic height)
    (directStore_keeps_localTraffic height) (shadowedPop_keeps_localTraffic height) h

/-! ## Innermost pairs -/

theorem exists_innermost {height k : Nat} (hfree : ∀ line ∈ lines, line.instruction.isCall = false)
    (hheight : heightAfter? lines height = some k)
    (hpop : ∃ line ∈ lines, ∃ r, line.instruction = .pop r) :
    (∃ between popped after, (∀ line ∈ between, line.Plain) ∧ height ≠ 0 ∧
        lines = between ++ ⟨[], .pop popped⟩ :: after) ∨
      ∃ before labels pushed between popped after, (∀ line ∈ between, line.Plain) ∧
        lines = before ++ ⟨labels, .push pushed⟩ :: (between ++ ⟨[], .pop popped⟩ :: after) := by
  induction lines generalizing height with
  | nil => simp at hpop
  | cons line rest ih =>
    rw [heightAfter?] at hheight
    split at hheight
    · cases hheight
    next hlabels =>
    obtain ⟨next, hnext, hrest⟩ := Option.bind_eq_some_iff.1 hheight
    obtain ⟨hcall, hfree'⟩ := List.forall_mem_cons.1 hfree
    obtain ⟨labels, i⟩ := line
    by_cases hi : ∃ r, i = .pop r
    · -- The first line is the pop.
      obtain ⟨r, rfl⟩ := hi
      cases height with
      | zero => cases hnext
      | succ height =>
        obtain rfl : labels = [] := by simpa using hlabels
        exact .inl ⟨[], r, rest, by simp, by simp, rfl⟩
    have hpop : ∃ line ∈ rest, ∃ r, line.instruction = .pop r := by
      obtain ⟨line, hline, r, hr⟩ := hpop
      rcases List.mem_cons.1 hline with rfl | hline
      · exact absurd ⟨r, hr⟩ hi
      · exact ⟨line, hline, r, hr⟩
    -- The pair is found further down, or only its pop, and then this line comes before the pop.
    rcases ih hfree' hrest hpop with
      ⟨between, popped, after, hplain, hne, rfl⟩ |
      ⟨before, labels', pushed, between, popped, after, hplain, rfl⟩
    · rcases i.traffic_cases with ⟨r, rfl⟩ | hpop | htraffic
      · exact .inr ⟨[], labels, r, between, popped, after, hplain, rfl⟩
      · exact absurd hpop hi
      · -- The line leaves the stack alone, and as the stack is not empty it has no label.
        obtain rfl : height = next := by
          rw [Instruction.heightAfter?_of_not_isTraffic htraffic] at hnext
          exact Option.some.inj hnext
        have hlabels : labels = [] := by_contra fun h => hlabels ⟨h, hne⟩
        have hstack : i.pollutesStack = false := by
          rw [Instruction.pollutesStack_eq, htraffic, hcall, Bool.or_false]
        refine .inl ⟨⟨labels, i⟩ :: between, popped, after, ?_, hne, rfl⟩
        exact List.forall_mem_cons.2 ⟨⟨hlabels, hstack⟩, hplain⟩
    · exact .inr ⟨⟨labels, i⟩ :: before, labels', pushed, between, popped, after, hplain, rfl⟩

theorem shadow?_cons_of_not_kill (pushed : RegisterId)
    (hstack : i.pollutesStack = false) (hkill : ¬∃ r, i = .kill r) (rest : List Line) :
    shadow? pushed (⟨[], i⟩ :: rest) = (shadow? pushed rest).map (Shadow.cons ⟨[], i⟩) := by
  cases i with
  | push | pop | callRegister | callImmediate => cases hstack
  | kill r => exact absurd ⟨r, rfl⟩ hkill
  | _ => rfl

/-- A pop is found across lines that leave the stack alone, and a `kill` among them is noted. -/
theorem exists_shadow (pushed popped : RegisterId) {between : List Line}
    (hplain : ∀ line ∈ between, line.Plain) (after : List Line) :
    ∃ s, shadow? pushed (between ++ ⟨[], .pop popped⟩ :: after) = some s ∧
      ((∃ line ∈ between, line.instruction = .kill pushed) → s.killed = true) := by
  induction between with
  | nil => exact ⟨⟨popped, after, false⟩, by simp [shadow?], by simp⟩
  | cons line rest ih =>
    obtain ⟨hline, hrest⟩ := List.forall_mem_cons.1 hplain
    obtain ⟨s, hs, hkilled⟩ := ih hrest
    obtain ⟨labels, i⟩ := line
    obtain ⟨rfl, hstack⟩ := hline
    by_cases hi : ∃ r, i = .kill r
    · obtain ⟨r, rfl⟩ := hi
      by_cases hr : r = pushed ∧ (!s.killed) = true
      · exact ⟨{ s with killed := true }, by simp [shadow?, hs, hr], fun _ => rfl⟩
      · refine ⟨s.cons ⟨[], .kill r⟩, by simp_all [shadow?], ?_⟩
        rintro ⟨line, hline, hkill⟩
        rcases List.mem_cons.1 hline with rfl | hline
        · -- It is the `kill` of the pushed register, so one was noted further down.
          cases hkill
          simpa [Shadow.cons] using hr
        · exact hkilled ⟨line, hline, hkill⟩
    · refine ⟨s.cons ⟨[], i⟩, ?_, ?_⟩
      · rw [List.cons_append, shadow?_cons_of_not_kill pushed hstack hi, hs, Option.map_some]
      · rintro ⟨line, hline, hkill⟩
        rcases List.mem_cons.1 hline with rfl | hline
        · exact absurd ⟨_, hkill⟩ hi
        · exact hkilled ⟨line, hline, hkill⟩

theorem KillsNext.exists_mem {r popped : RegisterId} {between after : List Line}
    (h : KillsNext r (between ++ ⟨[], .pop popped⟩ :: after)) :
    ∃ line ∈ between, line.instruction = .kill r := by
  induction between with
  | nil =>
    obtain ⟨killed, hkilled, -⟩ := h
    cases hkilled
  | cons line rest ih =>
    obtain ⟨killed, hkilled, rfl | h⟩ := h
    · exact ⟨line, List.mem_cons_self, hkilled⟩
    · obtain ⟨line', hline', hkill⟩ := ih h
      exact ⟨line', List.mem_cons_of_mem _ hline', hkill⟩

theorem foldShadowedPop_ne_none {labels : List LabelId} {pushed popped : RegisterId}
    {between after : List Line} (hplain : ∀ line ∈ between, line.Plain)
    (hkills : KillsNext pushed (between ++ ⟨[], .pop popped⟩ :: after)) :
    foldShadowedPop (⟨labels, .push pushed⟩ :: (between ++ ⟨[], .pop popped⟩ :: after)) ≠ none := by
  obtain ⟨s, hs, hkilled⟩ := exists_shadow pushed popped hplain after
  simp [foldShadowedPop, hs, hkilled hkills.exists_mem]

/-- Without pops the stack does not fall, and a push raises it. -/
theorem le_of_heightAfter? {height k : Nat} (hheight : heightAfter? lines height = some k)
    (hpop : ¬∃ line ∈ lines, ∃ r, line.instruction = .pop r) :
    height ≤ k ∧ ((∃ line ∈ lines, ∃ r, line.instruction = .push r) → height < k) := by
  induction lines generalizing height with
  | nil =>
    cases hheight
    exact ⟨le_rfl, by simp⟩
  | cons line rest ih =>
    rw [heightAfter?] at hheight
    split at hheight
    · cases hheight
    obtain ⟨next, hnext, hheight⟩ := Option.bind_eq_some_iff.1 hheight
    obtain ⟨hle, hlt⟩ := ih hheight fun ⟨line, hline, hr⟩ =>
      hpop ⟨line, List.mem_cons_of_mem _ hline, hr⟩
    rcases line.instruction.traffic_cases with ⟨r, hr⟩ | hr | htraffic
    · rw [hr] at hnext
      cases hnext
      exact ⟨by omega, fun _ => by omega⟩
    · exact absurd ⟨line, List.mem_cons_self, hr⟩ hpop
    · rw [Instruction.heightAfter?_of_not_isTraffic htraffic] at hnext
      cases hnext
      refine ⟨hle, ?_⟩
      rintro ⟨line', hline', r, hr⟩
      rcases List.mem_cons.1 hline' with rfl | hline'
      · rw [hr] at htraffic
        cases htraffic
      · exact hlt ⟨line', hline', r, hr⟩

/-! ## Rounds that change nothing -/

/-- Where the rule for values that are popped further down applies nowhere, there is no traffic. -/
theorem LocalTraffic.eq_false_of_idle (h : LocalTraffic 0 lines)
    (hidle : shadowedPop.Idle lines) : ∀ line ∈ lines, line.instruction.isTraffic = false := by
  have hpop : ¬∃ line ∈ lines, ∃ r, line.instruction = .pop r := by
    intro hpop
    rcases exists_innermost h.callFree h.balanced hpop with ⟨-, -, -, -, hne, -⟩ |
      ⟨before, labels, pushed, between, popped, after, hplain, rfl⟩
    · exact hne rfl
    · exact foldShadowedPop_ne_none hplain (h.killed.of_append.1 pushed rfl) (hidle before _ rfl)
  have hpush : ¬∃ line ∈ lines, ∃ r, line.instruction = .push r := fun hpush =>
    absurd ((le_of_heightAfter? h.balanced hpop).2 hpush) (lt_irrefl 0)
  intro line hline
  rcases line.instruction.traffic_cases with hr | hr | htraffic
  · exact absurd ⟨line, hline, hr⟩ hpush
  · exact absurd ⟨line, hline, hr⟩ hpop
  · exact htraffic

/-- Whether at most `n` rounds end with one that leaves the number of lines as it is. -/
def stopsUnchanged : Nat → List Nat → Nat → List Line → Bool
  | 0, _, _, _ => false
  | n + 1, seen, repeats, lines =>
    let next := optimizeRound lines
    if next.length = lines.length then true
    else if next.length ∈ seen then
      if maxRepeats ≤ repeats + 1 then false else stopsUnchanged n seen (repeats + 1) next
    else stopsUnchanged n (next.length :: seen) repeats next

/-- Whether shortening a body ends with a round that leaves the number of lines as it is. -/
def Body.stopsUnchanged (b : Body) : Bool :=
  Linear.stopsUnchanged maxRounds [b.lines.length] 0 b.lines

theorem stopsUnchanged_cases {n : Nat} {seen : List Nat} {repeats : Nat}
    (hseen : ∀ l ∈ seen, lines.length ≤ l) : (stopsUnchanged n seen repeats lines = true →
      shadowedPop.Idle (optimizeRounds n seen repeats lines)) ∧
    (stopsUnchanged n seen repeats lines = false →
      (optimizeRounds n seen repeats lines).length + n ≤ lines.length) := by
  induction n generalizing seen repeats lines with
  | zero => exact ⟨Bool.noConfusion, fun _ => le_rfl⟩
  | succ n ih =>
    simp only [stopsUnchanged, optimizeRounds]
    have hle := length_optimizeRound_le lines
    by_cases hlength : (optimizeRound lines).length = lines.length
    · obtain ⟨heq, hidle⟩ := idle_of_length_optimizeRound hlength
      rw [if_pos hlength, if_pos hlength, heq]
      exact ⟨fun _ => hidle shadowedPop (by simp [rules]), Bool.noConfusion⟩
    -- The numbers seen so far are those before this round, which are greater.
    have hnew : (optimizeRound lines).length ∉ seen := fun hmem => by
      have := hseen _ hmem
      omega
    rw [if_neg hlength, if_neg hnew, if_neg hlength, if_neg hnew]
    obtain ⟨hidle, hlength'⟩ := ih (List.forall_mem_cons.2 ⟨le_rfl, fun l hl => hle.trans (hseen l hl)⟩)
    exact ⟨hidle, fun h => by have := hlength' h; omega⟩

theorem Body.length_optimize (h : b.stopsUnchanged = false) :
    b.optimize.lines.length + maxRounds ≤ b.lines.length :=
  (stopsUnchanged_cases (by simp)).2 h

theorem Body.eq_false_of_stopsUnchanged (h : LocalTraffic 0 b.lines)
    (hstops : b.stopsUnchanged = true) :
    ∀ line ∈ b.optimize.lines, line.instruction.isTraffic = false :=
  h.optimizeLines.eq_false_of_idle ((stopsUnchanged_cases (by simp)).1 hstops)

/-! ## Lowered bodies -/

namespace LocalTraffic

variable {height : Nat} {lines rest : List Line}

theorem labelled {code : List Instruction} (h : LocalTraffic 0 (plain code ++ rest))
    (labels : List LabelId) : LocalTraffic 0 (Lower.labelled labels code ++ rest) := by
  cases code with
  | nil => exact h
  | cons i code =>
    obtain ⟨hfree, hkilled, hbalanced⟩ := h
    refine ⟨by simpa [Lower.labelled, plain] using hfree, hkilled, ?_⟩
    rw [← hbalanced]
    simp [Lower.labelled, plain, heightAfter?]

/-- Lines that leave the stack alone can be put in front. -/
theorem append (hplain : ∀ line ∈ lines, line.Plain) (h : LocalTraffic height rest) :
    LocalTraffic height (lines ++ rest) where
  callFree := by
    intro line hline
    rcases List.mem_append.1 hline with hline | hline
    · have hstack := (hplain line hline).2
      rw [Instruction.pollutesStack_eq, Bool.or_eq_false_iff] at hstack
      exact hstack.2
    · exact h.callFree line hline
  killed := pushesKilled_append (fun line hline => (hplain line hline).isTraffic) h.killed
  balanced := (heightAfter?_plain hplain rest height).trans h.balanced

end LocalTraffic

section

variable {c : LowerContext} {r r' : RegisterId} {code : List Instruction} {rest : List Line}
  {height : Nat}

namespace StatementCode

variable {s : Flow.Statement}

theorem callFree (h : StatementCode c s r code r') (hfree : s.isCall = false) :
    ∀ i ∈ code, i.isCall = false := by
  cases h with
  | call => cases hfree
  | _ => simp [Instruction.isCall]

theorem pushesKilled (h : StatementCode c s r code r') (hrest : PushesKilled rest) :
    PushesKilled (plain code ++ rest) := by
  cases h <;> simpa [plain, PushesKilled, KillsNext] using hrest

theorem heightAfter?_eq (h : StatementCode c s r code r') (hfree : s.isCall = false) {next : Nat}
    (hnext : s.heightAfter? height = some next) :
    heightAfter? (plain code ++ rest) height = heightAfter? rest next := by
  cases h with
  | call => cases hfree
  | pop | store =>
    cases height with
    | zero => cases hnext
    | succ height =>
      cases hnext
      simp [plain, heightAfter?, Instruction.heightAfter?]
  | binary =>
    rcases height with _ | _ | height
    · cases hnext
    · cases hnext
    · cases hnext
      simp [plain, heightAfter?, Instruction.heightAfter?]
  | _ =>
    cases hnext
    simp [plain, heightAfter?, Instruction.heightAfter?]

theorem localTraffic (h : StatementCode c s r code r') (hfree : s.isCall = false) {next : Nat}
    (hnext : s.heightAfter? height = some next) (hrest : LocalTraffic next rest) :
    LocalTraffic height (plain code ++ rest) where
  callFree := List.forall_mem_append.2
    ⟨List.forall_mem_map.2 (h.callFree hfree), hrest.callFree⟩
  killed := h.pushesKilled hrest.killed
  balanced := (h.heightAfter?_eq hfree hnext).trans hrest.balanced

end StatementCode

theorem TerminatorCode.localTraffic {t : Flow.Terminator} (h : TerminatorCode c t r code r')
    (hrest : LocalTraffic 0 rest) : LocalTraffic t.height (plain code ++ rest) := by
  obtain ⟨hcalls, hkilled, hbalanced⟩ := hrest
  refine ⟨List.forall_mem_append.2 ⟨List.forall_mem_map.2 ?_, hcalls⟩, ?_, ?_⟩
  · cases h <;> simp [Instruction.isCall]
  · cases h <;> simpa [plain, PushesKilled] using hkilled
  · cases h <;>
      simpa [plain, heightAfter?, Instruction.heightAfter?, Flow.Terminator.height] using hbalanced

theorem Code.localTraffic {ss : List Flow.Statement} {t : Flow.Terminator}
    (h : Code c ss t r code r') (hfree : ∀ s ∈ ss, s.isCall = false)
    (hheight : Flow.heightAfter? ss height = some t.height) (hrest : LocalTraffic 0 rest) :
    LocalTraffic height (plain code ++ rest) := by
  induction h generalizing height with
  | nil h =>
    cases hheight
    exact h.localTraffic hrest
  | cons hs _ ih =>
    obtain ⟨next, hnext, hheight⟩ := Option.bind_eq_some_iff.1 hheight
    obtain ⟨hcall, hfree⟩ := List.forall_mem_cons.1 hfree
    rw [plain_append, List.append_assoc]
    exact hs.localTraffic hcall hnext (ih hfree hheight)

theorem BlocksCode.localTraffic {blocks : List Flow.Block} (h : BlocksCode c blocks r lines r')
    (hfree : ∀ b ∈ blocks, ∀ s ∈ b.statements, s.isCall = false)
    (hheights : ∀ b ∈ blocks, Flow.heightAfter? b.statements 0 = some b.terminator.height) :
    LocalTraffic 0 lines := by
  induction h with
  | nil => exact ⟨by simp, trivial, rfl⟩
  | cons _ hcode _ ih =>
    obtain ⟨hcall, hfree⟩ := List.forall_mem_cons.1 hfree
    obtain ⟨hheight, hheights⟩ := List.forall_mem_cons.1 hheights
    -- A block starts with an empty stack, so its label is in order.
    exact (hcode.localTraffic hcall hheight (ih hfree hheights)).labelled _

end

theorem BodyCode.localTraffic {functions : List StmtId} {g : Flow.Function}
    (h : BodyCode functions g b) (hfree : g.CallFree) (hformed : g.WellFormed) :
    LocalTraffic 0 b.lines := by
  obtain ⟨lines, r, hlines, hcode⟩ := h.lines
  rw [hlines]
  refine (hcode.localTraffic hfree hformed.heights).append fun line hline => ?_
  obtain ⟨hlabels, r, -, size, hi | hi⟩ := declaresBelow_of_mem_slotDeclarations hline
  · exact ⟨hlabels, by rw [hi]; rfl⟩
  · exact ⟨hlabels, by rw [hi]; rfl⟩

end Linear

namespace Checked

section

variable {c : Checked} (hc : c.Valid) (henough : c.EnoughIds) {id : StmtId} {decl : FnDecl} {body : Block}
include hc henough

theorem Valid.callFree_graph? (hdecl : c.resolutions.function? id = some decl)
    (hbody : decl.body = some body) (hfree : body.CallFree) (simplify : Bool) :
    ∃ g, c.graph? simplify id = some g ∧ g.CallFree ∧ g.WellFormed := by
  obtain ⟨f, hf, hgraph, hof⟩ := hc.graph?_of_body henough hdecl hbody
  obtain ⟨-, params, result, hchecked⟩ := hc.functionChecked hdecl
  have hformed := hof.wellFormed (hof.kinded hchecked.type)
  have hcalls : f.CallFree := by
    have hensures := Flow.buildFunction_callFree hdecl hbody hfree c.answers
    rwa [Ensures, hf] at hensures
  refine ⟨_, hgraph simplify, ?_⟩
  cases simplify with
  | false => exact ⟨hcalls, hformed⟩
  | true => exact ⟨hcalls.simplify hof.lowerable.tidy, hformed.simplify⟩

theorem Valid.localTraffic {simplify : Bool} {p : Linear.Program} (hp : c.LowersTo simplify p)
    {i : Nat} (hid : c.resolutions.functions[i]? = some id)
    (hdecl : c.resolutions.function? id = some decl) (hbody : decl.body = some body)
    (hfree : body.CallFree) :
    ∃ f b, p.functions[i]? = some f ∧ f.definition = .body b ∧ Linear.LocalTraffic 0 b.lines := by
  obtain ⟨g, hg, hcalls, hformed⟩ := hc.callFree_graph? henough hdecl hbody hfree simplify
  have hlt : i < p.functions.length := by
    rw [hp.length_eq]
    exact (List.getElem?_eq_some_iff.1 hid).1
  obtain ⟨decl', linkage, hlowered⟩ := hp.lowered hid (List.getElem?_eq_getElem hlt)
  obtain ⟨d, hd, hfrom⟩ := hlowered.definition
  have hflow : c.flow simplify id = some (.graph g) := by rw [flow, hg]
  cases hd.symm.trans hflow
  obtain ⟨-, -, b, hb, hcode⟩ := hfrom
  exact ⟨_, b, List.getElem?_eq_getElem hlt, hb, hcode.localTraffic hcalls hformed⟩

end

/-- Shortening takes all pushes and pops out of a function without calls if it ends with a round
that leaves the number of lines as it is; else it takes out a line in every round it may have. -/
theorem noTraffic_of_callFree {source : List Char} {c : Checked} (h : ofSource? source = .ok c)
    (henough : c.EnoughIds) (simplify : Bool) :
    ∃ p, c.linear simplify false = .ok p ∧ c.linear simplify true = .ok p.optimize ∧
      ∀ (i : Nat) (id : StmtId) (decl : FnDecl) (body : Block),
        c.resolutions.functions[i]? = some id → c.resolutions.function? id = some decl →
        decl.body = some body → body.CallFree →
        ∃ f f' b, p.functions[i]? = some f ∧ f.definition = .body b ∧
          p.optimize.functions[i]? = some f' ∧ f'.definition = .body b.optimize ∧
          (b.stopsUnchanged = true → ∀ line ∈ b.optimize.lines, ∀ r,
            line.instruction ≠ .push r ∧ line.instruction ≠ .pop r) ∧
          (b.stopsUnchanged = false →
            b.optimize.lines.length + Linear.maxRounds ≤ b.lines.length) := by
  have hc := valid_of_ofSource? h
  obtain ⟨p, -, hlinear, -, hp⟩ := hc.exists_program henough simplify
  refine ⟨p, hlinear false, hlinear true, fun i id decl body hid hdecl hbody hfree => ?_⟩
  obtain ⟨f, b, hf, hb, hlocal⟩ := hc.localTraffic henough hp hid hdecl hbody hfree
  refine ⟨f, f.mapBody Linear.Body.optimize, b, hf, hb, ?_, ?_, fun hstops line hline r => ?_,
    Linear.Body.length_optimize⟩
  · rw [Linear.Program.optimize, Linear.Program.functions_mapBodies, List.getElem?_map, hf,
      Option.map_some]
  · rw [Linear.Function.mapBody, hb]
  · have htraffic := Linear.Body.eq_false_of_stopsUnchanged hlocal hstops line hline
    constructor
    · intro hr
      rw [hr] at htraffic
      cases htraffic
    · intro hr
      rw [hr] at htraffic
      cases htraffic

def countingLoop : List Char :=
  "fn f(n: int) -> int { let i = 0; loop { if i > n { break; } i = i + 1; } return i * n; }".toList

theorem countingLoop_lowered : (ofSource? countingLoop).toOption.any fun c => c.EnoughIds ∧
    c.resolutions.functions[0]? = some 6 ∧
      ((c.resolutions.function? 6).any fun decl => decl.body.any fun body => body.CallFree) ∧
      (c.linear true false).toOption.any fun p => (p.functions[0]?.bind Linear.Function.body?).any
        fun b => b.lines.length < Linear.maxRounds ∧
          b.lines.any fun line => line.instruction.isTraffic := by
  decide +kernel

/-- Shortening the code of the loop ends by itself and takes out all traffic. -/
theorem noTraffic_countingLoop : ∃ c p f b, ofSource? countingLoop = .ok c ∧
    c.linear true false = .ok p ∧ p.functions[0]? = some f ∧ f.definition = .body b ∧
    (b.lines.any fun line => line.instruction.isTraffic) ∧ b.stopsUnchanged = true ∧
    ∀ line ∈ b.optimize.lines, ∀ r, line.instruction ≠ .push r ∧ line.instruction ≠ .pop r := by
  obtain ⟨c, hc, hlowered⟩ := exists_ok_of_any countingLoop_lowered
  obtain ⟨henough, hid, hfree, hcode⟩ := of_decide_eq_true hlowered
  obtain ⟨decl, hdecl, hfree⟩ := (Option.any_eq_true _ _).1 hfree
  obtain ⟨body, hbody, hfree⟩ := (Option.any_eq_true _ _).1 hfree
  obtain ⟨p, hp, -, hall⟩ := noTraffic_of_callFree hc henough true
  obtain ⟨f, f', b, hf, hb, -, -, hnone, hmany⟩ :=
    hall 0 6 decl body hid hdecl hbody (of_decide_eq_true hfree)
  rw [hp] at hcode
  simp only [Except.toOption, Option.any_some, hf, Option.bind_some,
    Linear.Function.body?_eq_some.2 hb, Bool.decide_and, Bool.and_eq_true, decide_eq_true_eq]
    at hcode
  obtain ⟨hshort, htraffic⟩ := hcode
  have hstops : b.stopsUnchanged = true := by
    by_contra hstops
    have := hmany (Bool.eq_false_iff.2 hstops)
    omega
  exact ⟨c, p, f, b, hc, hp, hf, hb, htraffic, hstops, hnone hstops⟩

end Checked

end WordLang
