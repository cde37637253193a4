import WordLang.Linear.Peephole
import WordLang.Proofs.Linear.DirectUse
import WordLang.Proofs.Linear.Shadow

/-!
# Peephole shortening keeps what programs do

Every rule takes a regular body to a regular body that does the same. So do rounds of all rules,
and a shortened program refines the program.

## Main definitions

* `Linear.Body.Regular`: orderly bodies that refer to existing functions only
* `Linear.Rule.Sound`: rules that keep what regular bodies do
* `Linear.Rule.Keeps`: rules that keep a property of lines

## Main results

* `Linear.directCall_sound`, `Linear.directStore_sound`, `Linear.shadowedPop_sound`: the rules are
  sound
* `Linear.optimizeLines_induction`: what the rules keep, shortening keeps
* `Linear.Body.Regular.optimize`, `Linear.Program.refines_optimize`: shortened bodies and programs
-/

namespace WordLang.Linear

variable {lines : List Line} {fold : Fold} {b : Body} {p : Program} {functions : Nat} {f : Function}

/-- The function that an instruction refers to. -/
def Instruction.function? : Instruction → Option FunctionId
  | .moveFunction _ id => some id
  | .callImmediate id _ => some id
  | _ => none

@[simp] theorem Instruction.function?_mapRegisters (ρ : RegisterId → RegisterId) (i : Instruction) :
    (i.mapRegisters ρ).function? = i.function? := by
  cases i <;> rfl

def RefersBelow (functions : Nat) (lines : List Line) : Prop :=
  ∀ line ∈ lines, ∀ id, line.instruction.function? = some id → id < functions

structure Body.Regular (b : Body) (slots functions : Nat) : Prop where
  orderly : b.Orderly slots
  refers : RefersBelow functions b.lines

theorem Body.Regular.mono {slots functions functions' : Nat}
    (h : b.Regular slots functions) (hle : functions ≤ functions') : b.Regular slots functions' :=
  ⟨h.orderly, fun line hl id hid => (h.refers line hl id hid).trans_le hle⟩

/-- A rule that takes regular bodies to regular bodies that do the same. The number of functions
has to fit in identifiers, as functions in registers are named by words. -/
def Rule.Sound (rule : Rule) : Prop :=
  ∀ (b : Body) (slots functions : Nat) (before lines : List Line) (fold : Fold),
    b.Regular slots functions → b.lines = before ++ lines → rule.fold? lines = some fold →
    (functions ≤ idCount → b.Alike { b with lines := fold.apply (before ++ fold.lines) }) ∧
      ({ b with lines := fold.apply (before ++ fold.lines) } : Body).Regular slots functions

/-! ## Direct uses -/

theorem RefersBelow.direct {r : RegisterId} {move use direct : Instruction}
    {v : Int64} (h : DirectUse functions r move use direct v) {labels : List LabelId}
    {before after : List Line}
    (hr : RefersBelow functions (before ++ ⟨labels, move⟩ :: ⟨[], use⟩ :: ⟨[], .kill r⟩ :: after)) :
    RefersBelow functions (before ++ ⟨labels, direct⟩ :: after) := by
  intro line hl id hid
  rcases List.mem_append.1 hl with hl | hl
  · exact hr line (List.mem_append_left _ hl) id hid
  · rcases List.mem_cons.1 hl with rfl | hl
    · cases h with
      | call arguments hlt =>
        cases hid
        exact hlt
      | store slot v => cases hid
    · exact hr line (by simp [hl]) id hid

theorem DirectUse.sound {functions slots : Nat} {r : RegisterId} {move use direct : Instruction}
    {v : Int64} (h : DirectUse functions r move use direct v)
    (hb : b.Regular slots functions) {labels : List LabelId} {before after : List Line}
    (hlines : b.lines = before ++ ⟨labels, move⟩ :: ⟨[], use⟩ :: ⟨[], .kill r⟩ :: after) :
    (functions ≤ idCount → b.Alike { b with lines := before ++ ⟨labels, direct⟩ :: after }) ∧
      ({ b with lines := before ++ ⟨labels, direct⟩ :: after } : Body).Regular slots functions := by
  refine ⟨h.alike hb.orderly hlines, h.orderly hb.orderly hlines, ?_⟩
  have hrefers := hb.refers
  rw [hlines] at hrefers
  exact hrefers.direct h

theorem foldDirectCall_eq_some
    (h : foldDirectCall lines = some fold) : ∃ labels r id arguments rest,
      lines = ⟨labels, .moveFunction r id⟩ :: ⟨[], .callRegister r arguments⟩ :: ⟨[], .kill r⟩ :: rest ∧
        fold = ⟨⟨labels, .callImmediate id arguments⟩ :: rest, none⟩ := by
  simp only [foldDirectCall] at h
  split at h
  · next labels register id callee arguments killed rest =>
    split at h
    · next heq =>
      obtain ⟨rfl, rfl⟩ := heq
      exact ⟨labels, register, id, arguments, rest, rfl, (Option.some.inj h).symm⟩
    · cases h
  · cases h

theorem foldDirectStore_eq_some
    (h : foldDirectStore lines = some fold) : ∃ labels r value slot rest, isSmall value = true ∧
      lines = ⟨labels, .moveInt r value⟩ :: ⟨[], .storeRegister slot r⟩ :: ⟨[], .kill r⟩ :: rest ∧
        fold = ⟨⟨labels, .storeImmediate slot value⟩ :: rest, none⟩ := by
  simp only [foldDirectStore] at h
  split at h
  · next labels register value slot stored killed rest =>
    split at h
    · next heq =>
      obtain ⟨rfl, rfl, hsmall⟩ := heq
      exact ⟨labels, register, value, slot, rest, hsmall, rfl, (Option.some.inj h).symm⟩
    · cases h
  · cases h

/-- Calling a function directly keeps what a body does. -/
theorem directCall_sound : directCall.Sound := by
  intro b slots functions before lines fold hb hlines hfold
  obtain ⟨labels, r, id, arguments, rest, rfl, rfl⟩ := foldDirectCall_eq_some hfold
  have hid : id < functions := hb.refers ⟨labels, .moveFunction r id⟩ (by simp [hlines]) id rfl
  exact (DirectUse.call arguments hid).sound hb hlines

/-- Storing a word directly keeps what a body does. -/
theorem directStore_sound : directStore.Sound := by
  intro b slots functions before lines fold hb hlines hfold
  obtain ⟨labels, r, value, slot, rest, -, rfl, rfl⟩ := foldDirectStore_eq_some hfold
  exact (DirectUse.store slot value).sound hb hlines

/-! ## Shadowed pops -/

/-- A line without labels that leaves the stack alone. -/
def Line.Plain (line : Line) : Prop := line.labels = [] ∧ line.instruction.pollutesStack = false

theorem shadow?_eq_some {pushed : RegisterId} {s : Shadow} (h : shadow? pushed lines = some s) :
    (s.killed = false ∧ ∃ second after, (∀ line ∈ second, line.Plain) ∧
        lines = second ++ ⟨[], .pop s.popped⟩ :: after ∧ s.lines = second ++ after) ∨
      (s.killed = true ∧ ∃ first second after, (∀ line ∈ first ++ second, line.Plain) ∧
        lines = first ++ ⟨[], .kill pushed⟩ :: (second ++ ⟨[], .pop s.popped⟩ :: after) ∧
        s.lines = first ++ second ++ after) := by
  induction lines generalizing s with
  | nil => cases h
  | cons line rest ih =>
    obtain ⟨labels, instruction⟩ := line
    simp only [shadow?] at h
    split at h
    · cases h
    next hlabels =>
    obtain rfl : labels = [] := not_not.1 hlabels
    -- A plain line in front of a shadow belongs to the lines before the pop, or before the `kill`.
    have hcons : ∀ t, shadow? pushed rest = some t →
        instruction.pollutesStack = false → t.cons ⟨[], instruction⟩ = s →
        (s.killed = false ∧ ∃ second after, (∀ line ∈ second, line.Plain) ∧
            ⟨[], instruction⟩ :: rest = second ++ ⟨[], .pop s.popped⟩ :: after ∧
            s.lines = second ++ after) ∨
          (s.killed = true ∧ ∃ first second after, (∀ line ∈ first ++ second, line.Plain) ∧
            ⟨[], instruction⟩ :: rest =
              first ++ ⟨[], .kill pushed⟩ :: (second ++ ⟨[], .pop s.popped⟩ :: after) ∧
            s.lines = first ++ second ++ after) := by
      rintro t ht hplain rfl
      rcases ih ht with ⟨hk, second, after, hall, hrest, hlines⟩ |
        ⟨hk, first, second, after, hall, hrest, hlines⟩
      · refine .inl ⟨hk, ⟨[], instruction⟩ :: second, after, ?_, ?_, ?_⟩
        · exact List.forall_mem_cons.2 ⟨⟨rfl, hplain⟩, hall⟩
        · rw [hrest]
          rfl
        · simp only [Shadow.cons, hlines, List.cons_append]
      · refine .inr ⟨hk, ⟨[], instruction⟩ :: first, second, after, ?_, ?_, ?_⟩
        · exact List.forall_mem_cons.2 ⟨⟨rfl, hplain⟩, hall⟩
        · rw [hrest]
          rfl
        · simp only [Shadow.cons, hlines, List.cons_append]
    split at h
    · cases h
      exact .inl ⟨rfl, [], rest, by simp, rfl, rfl⟩
    · next r =>
      split at h
      · cases h
      next t ht =>
      split at h
      · next heq =>
        obtain ⟨rfl, hnot⟩ := heq
        cases h
        rcases ih ht with ⟨-, second, after, hall, hrest, hlines⟩ | ⟨hk, -⟩
        · exact .inr ⟨rfl, [], second, after, hall, by rw [hrest]; rfl, hlines⟩
        · simp [hk] at hnot
      · exact hcons t ht rfl (Option.some.inj h)
    · split at h
      · cases h
      · next hplain =>
        obtain ⟨t, ht, heq⟩ := Option.map_eq_some_iff.1 h
        exact hcons t ht (by simpa using hplain) heq

theorem foldShadowedPop_eq_some
    (h : foldShadowedPop lines = some fold) : ∃ labels pushed popped first second after,
      (∀ line ∈ first ++ second, line.Plain) ∧
      lines = ⟨labels, .push pushed⟩ ::
        (first ++ ⟨[], .kill pushed⟩ :: (second ++ ⟨[], .pop popped⟩ :: after)) ∧
      fold = ⟨handOver labels (first ++ second ++ after), some (popped, pushed)⟩ := by
  simp only [foldShadowedPop] at h
  split at h
  · next labels pushed rest =>
    split at h
    · next s hs =>
      split at h
      · next hk =>
        rcases shadow?_eq_some hs with ⟨hk', -⟩ | ⟨-, first, second, after, hplain, rfl, hslines⟩
        · rw [hk] at hk'
          cases hk'
        · rw [hslines] at h
          exact ⟨labels, pushed, s.popped, first, second, after, hplain, rfl,
            (Option.some.inj h).symm⟩
      · cases h
    · cases h
  · cases h

@[simp] theorem handOver_nil (lines : List Line) : handOver [] lines = lines := by
  cases lines <;> rfl

theorem RefersBelow.rename (h : RefersBelow functions lines) (source target : RegisterId) :
    RefersBelow functions (lines.map (Line.rename source target)) := by
  intro line hl id hid
  obtain ⟨line, hl', rfl⟩ := List.mem_map.1 hl
  refine h line hl' id ?_
  rwa [Line.rename, Instruction.rename, Instruction.function?_mapRegisters] at hid

/-- Leaving a pushed value in its register keeps what a body does. -/
theorem Shadowed.sound {slots functions : Nat} {before first second after : List Line}
    {pushed popped : RegisterId} (h : Shadowed slots b before first second after pushed popped)
    (hr : RefersBelow functions b.lines) : b.Alike { b with
        lines := (before ++ (first ++ second ++ after)).map (Line.rename popped pushed) } ∧
      ({ b with
        lines := (before ++ (first ++ second ++ after)).map (Line.rename popped pushed) }
        : Body).Regular slots functions := by
  refine ⟨h.alike, h.orderly', RefersBelow.rename ?_ popped pushed⟩
  intro line hl
  refine hr line ?_
  rw [h.lines]
  simp only [List.mem_append, List.mem_cons] at hl ⊢
  tauto

/-- The rule for values that are pushed and popped further down is sound. -/
theorem shadowedPop_sound : shadowedPop.Sound := by
  intro b slots functions before lines fold hb hlines hfold
  obtain ⟨labels, pushed, popped, first, second, after, hplain, rfl, rfl⟩ :=
    foldShadowedPop_eq_some hfold
  have horder := hb.orderly.lines
  rw [hlines] at horder
  have hpush := horder.of_append
  obtain rfl : labels = [] := by
    -- The pushed register is live, so no label leads here.
    by_contra hl
    have hlive : live (first ++ ⟨[], .kill pushed⟩ :: (second ++ ⟨[], .pop popped⟩ :: after)) = ∅ :=
      hpush.1 hl
    have hmem := hpush.2.1.1
    simp [hlive] at hmem
  have hshadowed : Shadowed slots b before first second after pushed popped :=
    ⟨hb.orderly, hlines, fun line hl => (hplain line hl).1, fun line hl => (hplain line hl).2⟩
  rw [handOver_nil]
  obtain ⟨halike, hregular⟩ := hshadowed.sound hb.refers
  exact ⟨fun _ => halike, hregular⟩

/-- A value that is popped at once is a value that is popped further down. -/
theorem foldShadowedPop_of_foldPushKillPop
    (h : foldPushKillPop lines = some fold) : foldShadowedPop lines = some fold := by
  simp only [foldPushKillPop] at h
  split at h
  · next labels pushed killed popped rest =>
    split at h
    · next heq =>
      subst heq
      cases h
      simp [foldShadowedPop, shadow?]
    · cases h
  · cases h

/-! ## Rounds -/

/-- The first body can be turned into the second by changes that keep what it does. -/
def Body.Becomes : Body → Body → Prop := Relation.ReflTransGen Body.Alike

theorem Fold.apply_append (fold : Fold) (lines rest : List Line) :
    fold.apply (lines ++ rest) = fold.apply lines ++ fold.apply rest := by
  simp only [Fold.apply]
  split <;> simp

theorem Fold.apply_reverse (fold : Fold) (lines : List Line) :
    fold.apply lines.reverse = (fold.apply lines).reverse := by
  simp only [Fold.apply]
  split <;> simp

section

variable {rule : Rule} {line : Line} {rest : List Line}

theorem sweepFrom_of_fold (h : rule.fold? (line :: rest) = some fold)
    (passed : List Line) : sweepFrom rule passed (line :: rest) =
      sweepFrom rule (fold.apply passed) (fold.apply fold.lines) := by
  rw [sweepFrom]
  split
  · next fold' hfold =>
    cases h.symm.trans hfold
    rfl
  · next hnone => cases h.symm.trans hnone

theorem sweepFrom_of_none (h : rule.fold? (line :: rest) = none) (passed : List Line) :
    sweepFrom rule passed (line :: rest) = sweepFrom rule (line :: passed) rest := by
  rw [sweepFrom]
  split
  · next fold' hfold => cases h.symm.trans hfold
  · rfl

end

/-- A rule that keeps a property of lines, wherever it applies. -/
def Rule.Keeps (rule : Rule) (Q : List Line → Prop) : Prop :=
  ∀ (before lines : List Line) (fold : Fold), rule.fold? lines = some fold → Q (before ++ lines) →
    Q (fold.apply (before ++ fold.lines))

section Rounds

variable {Q : List Line → Prop}

/-- The rule for values that are popped at once is a case of that for values popped further down. -/
theorem Rule.Keeps.pushKillPop (h : shadowedPop.Keeps Q) : Linear.pushKillPop.Keeps Q :=
  fun before lines fold hfold => h before lines fold (foldShadowedPop_of_foldPushKillPop hfold)

theorem Rule.Keeps.sweepFrom {rule : Rule} (h : rule.Keeps Q) {passed lines : List Line}
    (hQ : Q (passed.reverse ++ lines)) : Q (Linear.sweepFrom rule passed lines) := by
  induction passed, lines using Linear.sweepFrom.induct rule with
  | case1 passed =>
    rw [Linear.sweepFrom]
    rwa [List.append_nil] at hQ
  | case2 passed line rest fold hfold ih =>
    rw [sweepFrom_of_fold hfold]
    have hQ' := h passed.reverse (line :: rest) fold hfold hQ
    rw [Fold.apply_append, Fold.apply_reverse] at hQ'
    exact ih hQ'
  | case3 passed line rest hfold ih =>
    rw [sweepFrom_of_none hfold]
    exact ih (by simpa using hQ)

variable (hcall : directCall.Keeps Q) (hstore : directStore.Keeps Q) (hshadow : shadowedPop.Keeps Q)
include hcall hstore hshadow

theorem optimizeRound_induction (hQ : Q lines) : Q (optimizeRound lines) :=
  hshadow.sweepFrom (hstore.sweepFrom (hcall.sweepFrom (hshadow.pushKillPop.sweepFrom hQ)))

theorem optimizeLines_induction (hQ : Q lines) : Q (optimizeLines lines) := by
  have hrounds : ∀ n seen repeats lines, Q lines → Q (optimizeRounds n seen repeats lines) := by
    intro n
    induction n with
    | zero => exact fun _ _ _ hQ => hQ
    | succ n ih =>
      intro seen repeats lines hQ
      have hround := optimizeRound_induction hcall hstore hshadow hQ
      simp only [optimizeRounds]
      split
      · exact hround
      · split
        · split
          · exact hround
          · exact ih _ _ _ hround
        · exact ih _ _ _ hround
  exact hrounds _ _ _ _ hQ

end Rounds

/-- The lines of bodies that a body can be turned into, and that are regular. -/
theorem Rule.Sound.keeps {rule : Rule} (h : rule.Sound) (b : Body) (slots functions : Nat) :
    rule.Keeps fun lines => (functions ≤ idCount → b.Becomes { b with lines }) ∧
      ({ b with lines } : Body).Regular slots functions := by
  rintro before lines fold hfold ⟨hbecomes, hb⟩
  obtain ⟨halike, hb'⟩ := h { b with lines := before ++ lines } slots functions before lines fold hb
    rfl hfold
  exact ⟨fun hf => (hbecomes hf).tail (halike hf), hb'⟩

/-- Shortening keeps what a body does, and keeps it regular. -/
theorem Body.Regular.optimize {slots functions : Nat} (hb : b.Regular slots functions) :
    (functions ≤ idCount → b.Becomes b.optimize) ∧ b.optimize.Regular slots functions :=
  optimizeLines_induction (directCall_sound.keeps b slots functions)
    (directStore_sound.keeps b slots functions) (shadowedPop_sound.keeps b slots functions)
    ⟨fun _ => .refl, hb⟩

/-! ## Programs -/

/-- A program all of whose bodies are regular. -/
def Program.Regular (p : Program) : Prop :=
  ∀ f ∈ p.functions, ∀ b, f.definition = .body b → ∃ slots, b.Regular slots p.functions.length

def Function.mapBody (change : Body → Body) (f : Function) : Function :=
  match f.definition with
  | .body body => { f with definition := .body (change body) }
  | .foreign _ => f

def Function.body? (f : Function) : Option Body :=
  match f.definition with
  | .body body => some body
  | .foreign _ => none

theorem Function.body?_eq_some : f.body? = some b ↔ f.definition = .body b := by
  rw [Function.body?]
  cases f.definition <;> simp

theorem Program.functions_mapBodies (p : Program) (change : Body → Body) :
    (p.mapBodies change).functions = p.functions.map (Function.mapBody change) := rfl

/-- Changing one body by steps that keep what it does gives a program that refines the program. -/
theorem Refines.of_becomes {strings : Table String} {before after : List Function}
    {b b' : Body} (hf : f.definition = .body b) (h : b.Becomes b') :
    Refines ⟨strings, before ++ f :: after⟩
      ⟨strings, before ++ { f with definition := .body b' } :: after⟩ := by
  have hrefl : ∀ f : Function, f.Alike f := fun f => ⟨rfl, rfl, .refl f.definition⟩
  induction h with
  | refl =>
    rw [← hf]
    exact .refl _
  | tail _ halike ih =>
    refine ih.trans (Program.Alike.refines ?_)
    exact List.rel_append (List.forall₂_same.2 fun f _ => hrefl f)
      (.cons ⟨rfl, rfl, halike⟩ (List.forall₂_same.2 fun f _ => hrefl f))

/-- A program whose bodies are shortened by steps that keep what they do refines the program. -/
theorem Refines.optimize_of_becomes
    (h : ∀ f ∈ p.functions, ∀ b, f.definition = .body b → b.Becomes b.optimize) :
    Refines p p.optimize := by
  obtain ⟨strings, functions⟩ := p
  -- The bodies are changed one after another; those in `before` already are.
  have hgeneral : ∀ before rest : List Function,
      (∀ f ∈ rest, ∀ b, f.definition = .body b → b.Becomes b.optimize) →
      Refines ⟨strings, before ++ rest⟩
        ⟨strings, before ++ rest.map (Function.mapBody Body.optimize)⟩ := by
    intro before rest hrest
    induction rest generalizing before with
    | nil => exact .refl _
    | cons f rest ih =>
      have hfirst : Refines ⟨strings, before ++ f :: rest⟩
          ⟨strings, before ++ f.mapBody Body.optimize :: rest⟩ := by
        simp only [Function.mapBody]
        split
        · next b hb => exact Refines.of_becomes hb (hrest f List.mem_cons_self b hb)
        · exact .refl _
      have hothers := ih (before ++ [f.mapBody Body.optimize]) fun g hg =>
        hrest g (List.mem_cons_of_mem _ hg)
      refine hfirst.trans ?_
      simpa using hothers
  exact hgeneral [] functions h

theorem Program.Regular.refines_optimize (h : p.Regular)
    (hf : p.functions.length ≤ idCount) : Refines p p.optimize := by
  refine .optimize_of_becomes fun f hmem b hb => ?_
  obtain ⟨slots, hregular⟩ := h f hmem b hb
  exact hregular.optimize.1 hf

theorem regular_optimize
    (h : ∀ f ∈ p.functions, ∀ b, f.definition = .body b → ∃ slots, b.Regular slots functions)
    (hf : f ∈ p.optimize.functions) (hb : f.definition = .body b) :
    ∃ slots, b.Regular slots functions := by
  rw [Program.optimize, Program.functions_mapBodies] at hf
  obtain ⟨g, hg, rfl⟩ := List.mem_map.1 hf
  simp only [Function.mapBody] at hb
  split at hb
  · next body hbody =>
    cases hb
    obtain ⟨slots, hregular⟩ := h g hg body hbody
    exact ⟨slots, hregular.optimize.2⟩
  · next symbol hforeign =>
    rw [hforeign] at hb
    cases hb

theorem Program.Regular.optimize (h : p.Regular) : p.optimize.Regular := by
  intro f hf b hb
  have hlength : p.optimize.functions.length = p.functions.length := by
    rw [Program.optimize, Program.functions_mapBodies, List.length_map]
  rw [hlength]
  exact regular_optimize h hf hb

end WordLang.Linear
