import WordLang.Proofs.Ensures
import WordLang.Proofs.Linear.Machine
import WordLang.Proofs.Table

/-!
# What one line does

A line changes the current activation and the stack, calls a function, ends the activation or
fails. Which of these it does depends on the activation and the stack alone; the program and the
waiting activations only matter for where a call or the end of an activation leads to.

## Main definitions

* `Linear.Action`, `Linear.act`: what the next line of an activation does
* `Linear.perform`: what it leads to

## Main results

* `Linear.step_eq_perform`: a step of the machine performs what the line does
* `Linear.Instruction.eq_return_of_act`, `Linear.Instruction.of_act_call`: which lines end an
  activation, and which make it wait
-/

namespace WordLang.Linear

variable {stack : List Int64} {p : Program}

inductive Action where
  /-- The activation goes on with a stack. -/
  | go (frame : Frame) (stack : List Int64)
  | call (caller : Frame) (id : FunctionId) (arguments : Nat)
  /-- The activation ends with a value. -/
  | finish (value : Int64)
  | fail (error : RunError)

/-- The activation that an action goes on with, or leaves waiting, satisfies a condition. -/
def Action.Leaves (P : Frame → Prop) : Action → Prop
  | .go f _ => P f
  | .call f _ _ => P f
  | _ => True

def Frame.reading (f : Frame) (register : RegisterId) (k : Int64 → Action) : Action :=
  match f.registers.find? register with
  | some value => k value
  | none => .fail (.deadRead register)

def Frame.readingSlot (f : Frame) (slot : RegisterId) (k : Int64 → Action) : Action :=
  match f.slot slot with
  | .ok value => k value
  | .error e => .fail e

/-- Goes on at a label. -/
def Frame.goto (f : Frame) (label : LabelId) (stack : List Int64) : Action :=
  match seek label f.body.lines with
  | some lines => .go { f with rest := lines } stack
  | none => .fail (.unknownLabel label)

/-- What an instruction does in the activation `f`, which is at the line after it. -/
def Instruction.act (f : Frame) (stack : List Int64) : Instruction → Action
  | .nop => .go f stack
  | .allocParam register _ =>
    match f.arguments with
    | [] => .fail .missingArgument
    | value :: rest => .go { f.store register value with arguments := rest } stack
  | .allocLocal _ _ => .go f stack
  | .moveInt register value => .go (f.write register value) stack
  | .moveString register string => .go (f.write register (Int64.ofNat string)) stack
  | .moveFunction register function => .go (f.write register (Int64.ofNat function)) stack
  | .push register => f.reading register fun value => .go f (value :: stack)
  | .pop register =>
    match stack with
    | [] => .fail .emptyPop
    | value :: stack => .go (f.write register value) stack
  | .load register slot => f.readingSlot slot fun value => .go (f.write register value) stack
  | .storeRegister slot register => f.reading register fun value => .go (f.store slot value) stack
  | .storeImmediate slot value => .go (f.store slot value) stack
  | .callRegister register arguments => f.reading register fun value =>
    if value < 0 then .fail .negativeFunction
    else .call f (idOfNat value.toInt.toNat) arguments
  | .callImmediate function arguments => .call f function arguments
  | .jump target => f.goto target stack
  | .jumpIfNonZero register target => f.reading register fun value =>
    if value ≠ 0 then (f.killAfterBranch register).goto target stack else .go f stack
  | .return =>
    match f.registers.keys with
    | live :: _ => .fail (.liveAtReturn live)
    | [] =>
      if stack.length ≠ f.base then .fail (.unbalancedStack f.label)
      else f.readingSlot f.body.result .finish
  | .binary op destination source => f.reading destination fun lhs => f.reading source fun rhs =>
    match evaluate op lhs rhs with
    | .ok value => .go (f.write destination value) stack
    | .error e => .fail e
  | .kill register =>
    match f.registers.find? register with
    | none => .fail (.deadKill register)
    | some _ => .go { f with registers := f.registers.erase register } stack

/-- What the next line of an activation does. -/
def act (f : Frame) (stack : List Int64) : Action :=
  match f.rest with
  | [] => .fail (.ranOff f.label)
  | line :: rest => line.instruction.act { f with rest } stack

/-- What an action leads to. -/
def perform (p : Program) (s : State) : Action → Except RunError Progress
  | .go frame stack => .ok (.next { s with frame, stack })
  | .call caller id arguments => call p s caller id arguments
  | .finish value =>
    match s.callers with
    | [] => .ok (.done value s.stack)
    | caller :: callers => .ok (.next ⟨caller, callers, value :: s.stack⟩)
  | .fail e => .error e

theorem execute_eq_perform (p : Program) (s : State) (f : Frame) (i : Instruction) :
    execute p s f i = perform p s (i.act f s.stack) := by
  -- Both look the same things up and fail alike where one of them is missing.
  cases i with
  | allocParam register size =>
    simp only [execute, Instruction.act]
    cases f.arguments <;> rfl
  | push register =>
    simp only [execute, Instruction.act, Frame.read, Frame.reading]
    cases f.registers.find? register <;> rfl
  | pop register =>
    simp only [execute, Instruction.act]
    cases s.stack <;> rfl
  | load register slot =>
    simp only [execute, Instruction.act, Frame.readingSlot]
    cases f.slot slot <;> rfl
  | storeRegister slot register =>
    simp only [execute, Instruction.act, Frame.read, Frame.reading]
    cases f.registers.find? register <;> rfl
  | callRegister register arguments =>
    simp only [execute, Instruction.act, Frame.read, Frame.reading]
    cases f.registers.find? register with
    | none => rfl
    | some value =>
      show (if value < 0 then _ else _) = perform p s (if value < 0 then _ else _)
      split <;> rfl
  | jump target =>
    simp only [execute, Instruction.act, Frame.goto, Frame.jump]
    cases seek target f.body.lines <;> rfl
  | jumpIfNonZero register target =>
    simp only [execute, Instruction.act, Frame.read, Frame.reading, Frame.goto, Frame.jump]
    cases f.registers.find? register with
    | none => rfl
    | some value =>
      show (if value ≠ 0 then _ else _) = perform p s (if value ≠ 0 then _ else _)
      split
      · cases seek target (f.killAfterBranch register).body.lines <;> rfl
      · rfl
  | «return» =>
    simp only [execute, Instruction.act, finish, Frame.readingSlot]
    cases f.registers.keys with
    | cons live rest => rfl
    | nil =>
      show (if s.stack.length ≠ f.base then _ else _) =
        perform p s (if s.stack.length ≠ f.base then _ else _)
      split
      · rfl
      · cases f.slot f.body.result with
        | error e => rfl
        | ok value =>
          simp only [perform]
          cases s.callers <;> rfl
  | binary op destination source =>
    simp only [execute, Instruction.act, Frame.read, Frame.reading]
    cases f.registers.find? destination with
    | none => rfl
    | some lhs =>
      cases f.registers.find? source with
      | none => rfl
      | some rhs =>
        show (do let value ← evaluate op lhs rhs; _) =
          perform p s (match evaluate op lhs rhs with | .ok value => _ | .error e => _)
        cases evaluate op lhs rhs <;> rfl
  | kill register =>
    simp only [execute, Instruction.act]
    cases f.registers.find? register <;> rfl
  | _ => rfl

theorem step_eq_perform (p : Program) (s : State) :
    step p s = perform p s (act s.frame s.stack) := by
  simp only [step, act]
  cases s.frame.rest with
  | nil => rfl
  | cons line rest => exact execute_eq_perform p s _ line.instruction

theorem exists_perform_of_step {s : State} {progress : Progress} (h : step p s = .ok progress) :
    ∃ line rest, s.frame.rest = line :: rest ∧
      perform p s (line.instruction.act { s.frame with rest } s.stack) = .ok progress := by
  rw [step_eq_perform, act] at h
  cases hrest : s.frame.rest with
  | nil =>
    simp only [hrest] at h
    cases h
  | cons line rest =>
    simp only [hrest] at h
    exact ⟨line, rest, rfl, h⟩

theorem perform_eq_next {s t : State} {a : Action} (h : perform p s a = .ok (.next t)) :
    (∃ frame stack, a = .go frame stack ∧ t = { s with frame, stack }) ∨
    (∃ caller id arguments f frame stack, a = .call caller id arguments ∧
      p.functions[id]? = some f ∧ activate f arguments s.stack = .ok (frame, stack) ∧
      t = ⟨frame, caller :: s.callers, stack⟩) ∨
    ∃ value caller callers, a = .finish value ∧ s.callers = caller :: callers ∧
      t = ⟨caller, callers, value :: s.stack⟩ := by
  cases a with
  | go frame stack =>
    cases h
    exact .inl ⟨frame, stack, rfl, rfl⟩
  | call caller id arguments =>
    simp only [perform, call] at h
    split at h
    · cases h
    · next f hf =>
      obtain ⟨_, hactivate, hok⟩ := exists_of_bind_eq_ok h
      cases hok
      exact .inr (.inl ⟨caller, id, arguments, f, _, _, rfl, hf, hactivate, rfl⟩)
  | finish value =>
    simp only [perform] at h
    split at h
    · cases h
    · next hcallers =>
      cases h
      exact .inr (.inr ⟨value, _, _, rfl, hcallers, rfl⟩)
  | fail e => cases h

theorem perform_eq_done {s : State} {a : Action} {value : Int64}
    (h : perform p s a = .ok (.done value stack)) : a = .finish value ∧ s.callers = [] := by
  cases a with
  | finish value =>
    simp only [perform] at h
    split at h
    · next hcallers =>
      cases h
      exact ⟨rfl, hcallers⟩
    · cases h
  | call caller id arguments =>
    simp only [perform, call] at h
    split at h
    · cases h
    · obtain ⟨_, -, hok⟩ := exists_of_bind_eq_ok h
      cases hok
  | _ => cases h

/-! ## What does not fail -/

section

variable {f : Frame} {register : RegisterId} {k : Int64 → Action} {a : Action} (ha : ∀ e, a ≠ .fail e)
include ha

theorem Frame.exists_of_reading (h : f.reading register k = a) :
    ∃ value, f.registers.find? register = some value ∧ k value = a := by
  unfold Frame.reading at h
  split at h
  · exact ⟨_, ‹_›, h⟩
  · exact absurd h.symm (ha _)

theorem Frame.exists_of_readingSlot (h : f.readingSlot register k = a) :
    ∃ value, f.slot register = .ok value ∧ k value = a := by
  unfold Frame.readingSlot at h
  split at h
  · exact ⟨_, ‹_›, h⟩
  · exact absurd h.symm (ha _)

theorem Frame.exists_of_goto {label : LabelId} (h : f.goto label stack = a) :
    ∃ found, seek label f.body.lines = some found ∧ a = .go { f with rest := found } stack := by
  unfold Frame.goto at h
  split at h
  · exact ⟨_, ‹_›, h.symm⟩
  · exact absurd h.symm (ha _)

theorem Instruction.exists_of_return (h : Instruction.return.act f stack = a) :
    ∃ value, f.slot f.body.result = .ok value ∧ a = .finish value := by
  simp only [Instruction.act] at h
  split at h
  · exact absurd h.symm (ha _)
  · split at h
    · exact absurd h.symm (ha _)
    · obtain ⟨value, hvalue, h⟩ := Frame.exists_of_readingSlot ha h
      exact ⟨value, hvalue, h.symm⟩

end

section

variable {i : Instruction} {f g : Frame} {stack : List Int64} {value : Int64} {id : FunctionId}
  {arguments : Nat}

/-- Only a return ends an activation. -/
theorem Instruction.eq_return_of_act (h : i.act f stack = .finish value) : i = .return := by
  cases i <;> simp only [Instruction.act, Frame.reading, Frame.readingSlot, Frame.goto] at h
  case «return» => rfl
  all_goals
    repeat' split at h
    all_goals cases h

/-- Only a call makes an activation wait. -/
theorem Instruction.of_act_call (h : i.act f stack = .call g id arguments) :
    g = f ∧ (i = .callImmediate id arguments ∨ ∃ r value, i = .callRegister r arguments ∧
      f.registers.find? r = some value ∧ id = idOfNat value.toInt.toNat) := by
  cases i <;> simp only [Instruction.act, Frame.reading, Frame.readingSlot, Frame.goto] at h
  case callImmediate =>
    cases h
    exact ⟨rfl, .inl rfl⟩
  case callRegister r _ =>
    split at h
    · next value hvalue =>
      split at h <;> cases h
      exact ⟨rfl, .inr ⟨r, value, rfl, hvalue, rfl⟩⟩
    · cases h
  all_goals
    repeat' split at h
    all_goals cases h

end

/-! ## Failures -/

theorem Frame.slot_eq_error {f : Frame} {slot : RegisterId} {e : RunError}
    (h : f.slot slot = .error e) : e = .notSlot slot := by
  simp only [Frame.slot] at h
  split at h
  · cases h
  · split at h <;> cases h
    rfl

theorem evaluate_eq_error {op : BinaryOp} {lhs rhs : Int64} {e : RunError}
    (h : evaluate op lhs rhs = .error e) :
    e = .undefinedQuotient lhs rhs ∨ e = .undefinedRemainder lhs rhs := by
  simp only [evaluate] at h
  split at h
  · cases h
  · split at h <;> cases h
    · exact .inl rfl
    · exact .inr rfl

/-- Only an activation without further lines runs off its end. -/
theorem rest_eq_nil_of_ranOff {f : Frame} {label : String}
    (h : act f stack = .fail (.ranOff label)) : f.rest = [] := by
  cases hrest : f.rest with
  | nil => rfl
  | cons line rest =>
    simp only [act, hrest] at h
    cases hi : line.instruction <;>
      simp only [hi, Instruction.act, Frame.reading, Frame.readingSlot, Frame.goto] at h
    case load =>
      split at h
      · cases h
      · next he =>
        cases h
        cases Frame.slot_eq_error he
    case «return» =>
      split at h
      · cases h
      · split at h
        · cases h
        · split at h
          · cases h
          · next he =>
            cases h
            cases Frame.slot_eq_error he
    case binary =>
      split at h
      · split at h
        · split at h
          · cases h
          · next he =>
            cases h
            rcases evaluate_eq_error he with he | he <;> cases he
        · cases h
      · cases h
    all_goals
      repeat' split at h
      all_goals cases h

end WordLang.Linear
