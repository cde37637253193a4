import WordLang.Proofs.Linear.DirectUse
import WordLang.Proofs.Linear.Shape

/-!
# What lowered code does

The code of a statement, run in an activation without live registers, takes its operands from the
stack, leaves the value there, and ends without live registers. The declarations at the head of a
body put the arguments into the slots of the parameters, and the label of a block leads to its code.

## Main results

* `Linear.steps_push`, `Linear.steps_pop`, `Linear.steps_store`, `Linear.steps_binary`: the code of
  statements
* `Linear.steps_slotLine`: the declarations of slots
* `Linear.BodyCode.seek_block`: the code that a label leads to
-/

namespace WordLang.Linear

variable {code : List Instruction} {r : RegisterId} {w : Int64} {rest : List Line} {label : LabelId}
  {line : Line} {b : Flow.Block} {e : RunError}

theorem exists_line {lines : List Line} {i : Instruction}
    (h : lines.map Line.instruction = i :: code) :
    ∃ labels rest, lines = ⟨labels, i⟩ :: rest ∧ rest.map Line.instruction = code := by
  obtain ⟨⟨labels, _⟩, rest, rfl, rfl, hrest⟩ := List.map_eq_cons_iff.1 h
  exact ⟨labels, rest, rfl, hrest⟩

theorem exists_lines {lines : List Line} {i j k : Instruction}
    (h : lines.map Line.instruction = i :: j :: k :: code) :
    ∃ a b c rest, lines = ⟨a, i⟩ :: ⟨b, j⟩ :: ⟨c, k⟩ :: rest ∧ rest.map Line.instruction = code := by
  obtain ⟨a, _, rfl, h₁⟩ := exists_line h
  obtain ⟨b, _, rfl, h₂⟩ := exists_line h₁
  obtain ⟨c, rest, rfl, h₃⟩ := exists_line h₂
  exact ⟨a, b, c, rest, rfl, h₃⟩

section Steps

variable {p : Program} {l : Frame} {callers : List Frame} {stack : List Int64}

theorem steps_head {s s' t : State} {k : Nat}
    (hrest : s.frame.rest = line :: rest) (hstep : step p s = .ok (.next s'))
    (h : (machine p).Steps k s' t) : (machine p).Steps (1 + k) s t := by
  have hhead := Machine.Steps.head (machine_step_next hstep) h
  rwa [machine_cost_cons hrest] at hhead

theorem ends_done {s : State} {r : Except RunError (Int64 × List Int64)}
    (hrest : s.frame.rest = line :: rest) (hstep : (machine p).step s = .inr r) :
    (machine p).Ends 1 s r := by
  have hdone := Machine.Ends.done hstep
  rwa [machine_cost_cons hrest] at hdone

theorem steps_cons {l' : Frame} {stack' : List Int64} (hrest : l.rest = line :: rest)
    (hact : line.instruction.act { l with rest } stack = .go l' stack') {k : Nat} {t : State}
    (h : (machine p).Steps k ⟨l', callers, stack'⟩ t) :
    (machine p).Steps (1 + k) ⟨l, callers, stack⟩ t := by
  refine steps_head hrest ?_ h
  rw [step_eq_perform]
  simp only [act, hrest, hact, perform]

theorem ends_fail (hrest : l.rest = line :: rest)
    (hact : line.instruction.act { l with rest } stack = .fail e) :
    (machine p).Ends 1 ⟨l, callers, stack⟩ (.error e) := by
  refine ends_done hrest (machine_step_error ?_)
  rw [step_eq_perform]
  simp only [act, hrest, hact, perform]

theorem act_push (l : Frame) (r : RegisterId) (w : Int64) (stack : List Int64) :
    (Instruction.push r).act (l.write r w) stack = .go (l.write r w) (w :: stack) := by
  simp only [Instruction.act, Frame.reading, Frame.write, Table.find?_insert_self]

theorem act_kill {l : Frame} (h : l.registers = Table.empty) (w : Int64)
    (stack : List Int64) : (Instruction.kill r).act (l.write r w) stack = .go l stack := by
  have hfree : l.registers.find? r = none := by rw [h, Table.find?_empty]
  simp only [Instruction.act, Frame.write, Table.find?_insert_self, Table.erase_insert hfree]

theorem act_storeRegister (l : Frame) (slot r : RegisterId) (w : Int64) (stack : List Int64) :
    (Instruction.storeRegister slot r).act (l.write r w) stack =
      .go ((l.store slot w).write r w) stack := by
  simp only [Instruction.act, Frame.reading, Frame.write, Table.find?_insert_self, Frame.store]

section TwoRegisters

variable {r d : RegisterId} (hne : r ≠ d)
include hne

/-- An operator on two registers that just got their values. -/
theorem act_binary (l : Frame) (op : BinaryOp) (lhs rhs : Int64) (stack : List Int64) :
    (Instruction.binary op d r).act ((l.write r rhs).write d lhs) stack =
      match evaluate op lhs rhs with
      | .ok w => .go ((l.write r rhs).write d w) stack
      | .error e => .fail e := by
  have hr : ((l.registers.insert r rhs).insert d lhs).find? r = some rhs := by
    rw [Table.find?_insert_of_ne hne, Table.find?_insert_self]
  have hd : ∀ w, ((l.registers.insert r rhs).insert d lhs).insert d w =
      (l.registers.insert r rhs).insert d w := by
    intro w
    refine Table.ext_find? fun k => ?_
    simp only [Table.find?_insert]
    split <;> rfl
  cases h : evaluate op lhs rhs <;>
    simp [Instruction.act, Frame.reading, Frame.write, hr, hd, h]

theorem act_kill_other {l : Frame} (h : l.registers = Table.empty) (v w : Int64)
    (stack : List Int64) :
    (Instruction.kill r).act ((l.write r v).write d w) stack = .go (l.write d w) stack := by
  have hr : ((l.registers.insert r v).insert d w).find? r = some v := by
    rw [Table.find?_insert_of_ne hne, Table.find?_insert_self]
  have herase : ((l.registers.insert r v).insert d w).erase r = l.registers.insert d w := by
    refine Table.ext_find? fun k => ?_
    simp only [Table.find?_erase, Table.find?_insert]
    by_cases hk : k = r
    · rw [if_pos hk, hk, if_neg hne, h, Table.find?_empty]
    · rw [if_neg hk, if_neg hk]
  simp only [Instruction.act, Frame.write, hr, herase]

end TwoRegisters

variable (p callers stack) in
/-- Code that puts a word into a register and pushes it. -/
theorem steps_push {i : Instruction}
    (h : l.rest.map Line.instruction = i :: .push r :: .kill r :: code)
    (hi : ∀ rest, i.act { l with rest } stack = .go ({ l with rest }.write r w) stack)
    (hregisters : l.registers = Table.empty) : ∃ lines, lines.map Line.instruction = code ∧
      (machine p).Steps 3 ⟨l, callers, stack⟩ ⟨{ l with rest := lines }, callers, w :: stack⟩ := by
  obtain ⟨_, _, _, rest₃, h₁, hc₃⟩ := exists_lines h
  refine ⟨rest₃, hc₃, steps_cons h₁ (hi _) (steps_cons rfl (act_push { l with rest := _ } r w _)
    (steps_cons rfl (act_kill (l := { l with rest := rest₃ }) hregisters w _) (.refl _)))⟩

variable (p callers stack) in
/-- Code that drops the top of the stack. -/
theorem steps_pop (h : l.rest.map Line.instruction = .pop r :: .kill r :: code)
    (hregisters : l.registers = Table.empty) : ∃ lines, lines.map Line.instruction = code ∧
      (machine p).Steps 2 ⟨l, callers, w :: stack⟩ ⟨{ l with rest := lines }, callers, stack⟩ := by
  obtain ⟨_, rest₁, h₁, hc₁⟩ := exists_line h
  obtain ⟨_, rest₂, rfl, hc₂⟩ := exists_line hc₁
  exact ⟨rest₂, hc₂, steps_cons h₁ rfl
    (steps_cons rfl (act_kill (l := { l with rest := rest₂ }) hregisters w _) (.refl _))⟩

variable (p callers stack) in
/-- Code that pops a word into a slot. -/
theorem steps_store {r slot : RegisterId}
    (h : l.rest.map Line.instruction = .pop r :: .storeRegister slot r :: .kill r :: code)
    (hregisters : l.registers = Table.empty) : ∃ lines, lines.map Line.instruction = code ∧
      (machine p).Steps 3 ⟨l, callers, w :: stack⟩
        ⟨{ l.store slot w with rest := lines }, callers, stack⟩ := by
  obtain ⟨_, _, _, rest₃, h₁, hc₃⟩ := exists_lines h
  exact ⟨rest₃, hc₃, steps_cons h₁ rfl
    (steps_cons rfl (act_storeRegister { l with rest := _ } slot r w _)
      (steps_cons rfl (act_kill (l := { l.store slot w with rest := rest₃ }) hregisters w _) (.refl _)))⟩

variable (p callers stack) in
/-- Code that applies an operator, where it has a value. -/
theorem steps_binary {op : BinaryOp} {lhs rhs w : Int64}
    (h : l.rest.map Line.instruction = .pop r :: .pop (r + 1) :: .binary op (r + 1) r ::
      .push (r + 1) :: .kill r :: .kill (r + 1) :: code)
    (hregisters : l.registers = Table.empty) (hop : evaluate op lhs rhs = .ok w) :
    ∃ lines, lines.map Line.instruction = code ∧
      (machine p).Steps 6 ⟨l, callers, rhs :: lhs :: stack⟩
        ⟨{ l with rest := lines }, callers, w :: stack⟩ := by
  obtain ⟨_, _, _, _, h₁, hc₃⟩ := exists_lines h
  obtain ⟨_, _, _, rest₆, rfl, hc₆⟩ := exists_lines hc₃
  have hne : r ≠ r + 1 := Nat.ne_of_lt (Nat.lt_succ_self r)
  have hbinary : ∀ rest, (Instruction.binary op (r + 1) r).act
      (({ l with rest }.write r rhs).write (r + 1) lhs) stack =
        .go (({ l with rest }.write r rhs).write (r + 1) w) stack := by
    intro rest
    rw [act_binary hne, hop]
  have hkills : ∀ labels labels', (machine p).Steps 2
      ⟨{ (l.write r rhs).write (r + 1) w with
          rest := ⟨labels, .kill r⟩ :: ⟨labels', .kill (r + 1)⟩ :: rest₆ }, callers, w :: stack⟩
      ⟨{ l with rest := rest₆ }, callers, w :: stack⟩ := by
    intro labels labels'
    exact steps_cons rfl
      (act_kill_other hne (l := { l with rest := ⟨labels', .kill (r + 1)⟩ :: rest₆ }) hregisters rhs
        w _)
      (steps_cons rfl (act_kill (l := { l with rest := rest₆ }) hregisters w _) (.refl _))
  exact ⟨rest₆, hc₆, steps_cons h₁ rfl (steps_cons rfl rfl (steps_cons rfl (hbinary _)
    (steps_cons rfl (act_push ({ l with rest := _ }.write r rhs) (r + 1) w _) (hkills _ _))))⟩

variable (p callers stack) in
/-- Code that applies an operator, where it has no value. -/
theorem ends_binary {op : BinaryOp} {lhs rhs : Int64}
    (h : l.rest.map Line.instruction = .pop r :: .pop (r + 1) :: .binary op (r + 1) r :: code)
    (hop : evaluate op lhs rhs = .error e) :
    (machine p).Ends 3 ⟨l, callers, rhs :: lhs :: stack⟩ (.error e) := by
  obtain ⟨_, _, _, rest₃, h₁, hc₃⟩ := exists_lines h
  have hne : r ≠ r + 1 := Nat.ne_of_lt (Nat.lt_succ_self r)
  have hbinary : (Instruction.binary op (r + 1) r).act
      (({ l with rest := rest₃ }.write r rhs).write (r + 1) lhs) stack = .fail e := by
    rw [act_binary hne, hop]
  exact (steps_cons h₁ rfl (steps_cons rfl rfl (.refl _))).ends (ends_fail rfl hbinary)

theorem steps_jump {found : List Line} (h : l.rest.map Line.instruction = .jump label :: code)
    (hseek : seek label l.body.lines = some found) :
    (machine p).Steps 1 ⟨l, callers, stack⟩ ⟨{ l with rest := found }, callers, stack⟩ := by
  obtain ⟨_, rest, hrest, -⟩ := exists_line h
  have hact : (Instruction.jump label).act { l with rest } stack =
      .go { l with rest := found } stack := by
    simp only [Instruction.act, Frame.goto, hseek]
  exact steps_cons hrest hact (.refl _)

section Branch

variable {r : RegisterId} {truthy falsy : LabelId} {w : Int64} {code : List Instruction}
  {found : List Line}
  (h : l.rest.map Line.instruction =
    .pop r :: .jumpIfNonZero r truthy :: .kill r :: .jump falsy :: code)
  (hregisters : l.registers = Table.empty)
include h hregisters

variable (p callers stack) in
theorem steps_branch_truthy (hw : w ≠ 0) (hseek : seek truthy l.body.lines = some found) :
    (machine p).Steps 2 ⟨l, callers, w :: stack⟩ ⟨{ l with rest := found }, callers, stack⟩ := by
  obtain ⟨_, _, labels, rest₃, h₁, hc₃⟩ := exists_lines h
  have hfree : l.registers.find? r = none := by rw [hregisters, Table.find?_empty]
  -- The register ends although its `kill` is jumped over.
  have hact : (Instruction.jumpIfNonZero r truthy).act
      ({ l with rest := ⟨labels, .kill r⟩ :: rest₃ }.write r w) stack =
        .go { l with rest := found } stack := by
    simp only [Instruction.act, Frame.reading, Frame.write, Table.find?_insert_self, if_pos hw,
      Frame.killAfterBranch, if_true, Frame.goto, hseek, Table.erase_insert hfree]
  exact steps_cons h₁ rfl (steps_cons rfl hact (.refl _))

variable (p callers stack) in
theorem steps_branch_falsy (hseek : seek falsy l.body.lines = some found) :
    (machine p).Steps 4 ⟨l, callers, 0 :: stack⟩ ⟨{ l with rest := found }, callers, stack⟩ := by
  obtain ⟨_, _, labels, rest₃, h₁, hc₃⟩ := exists_lines h
  have hact : (Instruction.jumpIfNonZero r truthy).act
      ({ l with rest := ⟨labels, .kill r⟩ :: rest₃ }.write r 0) stack =
        .go ({ l with rest := ⟨labels, .kill r⟩ :: rest₃ }.write r 0) stack := by
    simp only [Instruction.act, Frame.reading, Frame.write, Table.find?_insert_self, ne_eq,
      not_true_eq_false, if_false]
  exact steps_cons h₁ rfl (steps_cons rfl hact (steps_cons rfl
    (act_kill (l := { l with rest := rest₃ }) hregisters 0 _) (steps_jump (l := { l with rest := rest₃ })
      hc₃ hseek)))

end Branch

section Call

variable {r : RegisterId} {id : FunctionId} {f : Function} {arguments : Nat}
  {code : List Instruction}
  (h : l.rest.map Line.instruction = .pop r :: .callRegister r arguments :: .kill r :: code)
  (hid : id < idCount) (hf : p.functions[id]? = some f)
include h hid hf

variable (p callers stack) in
theorem steps_call {frame : Frame} {below : List Int64}
    (hactivate : activate f arguments stack = .ok (frame, below)) :
    ∃ labels lines, lines.map Line.instruction = code ∧
      (machine p).Steps 2 ⟨l, callers, Int64.ofNat id :: stack⟩
        ⟨frame, { l.write r (Int64.ofNat id) with rest := ⟨labels, .kill r⟩ :: lines } :: callers,
          below⟩ := by
  obtain ⟨_, _, labels, rest₃, h₁, hc₃⟩ := exists_lines h
  obtain ⟨hneg, hword⟩ := functionId_of_word hid
  refine ⟨labels, rest₃, hc₃, steps_cons h₁ rfl (steps_head rfl ?_ (.refl _))⟩
  rw [step_eq_perform]
  simp only [act, Instruction.act, Frame.reading, Frame.write, Table.find?_insert_self, hneg,
    if_false, hword, perform, call, hf, hactivate]
  rfl

theorem ends_call (hactivate : activate f arguments stack = .error e) :
    (machine p).Ends 2 ⟨l, callers, Int64.ofNat id :: stack⟩ (.error e) := by
  obtain ⟨_, rest₁, h₁, hc₁⟩ := exists_line h
  obtain ⟨_, rest₂, rfl, hc₂⟩ := exists_line hc₁
  obtain ⟨hneg, hword⟩ := functionId_of_word hid
  refine (steps_cons h₁ rfl (.refl _)).ends (ends_done rfl (machine_step_error ?_))
  rw [step_eq_perform]
  simp only [act, Instruction.act, Frame.reading, Frame.write, Table.find?_insert_self, hneg,
    if_false, hword, perform, call, hf, hactivate]
  rfl

end Call

section Return

variable {w : Int64} {code : List Instruction}
  (h : l.rest.map Line.instruction = .return :: code) (hregisters : l.registers = Table.empty)
  (hbase : stack.length = l.base) (hresult : l.slot l.body.result = .ok w)
include h hregisters hbase hresult

theorem act_return : act l stack = .finish w := by
  obtain ⟨_, rest, hrest, -⟩ := exists_line h
  have hslot : ({ l with rest } : Frame).slot l.body.result = .ok w := hresult
  simp only [act, hrest, Instruction.act, hregisters, Table.keys_empty, hbase, ne_eq,
    not_true_eq_false, if_false, Frame.readingSlot]
  rw [hregisters] at hslot
  rw [hslot]

theorem ends_return : (machine p).Ends 1 ⟨l, [], stack⟩ (.ok (w, stack)) := by
  obtain ⟨_, rest, hrest, -⟩ := exists_line h
  refine ends_done hrest (machine_step_done ?_)
  rw [step_eq_perform, act_return h hregisters hbase hresult]
  rfl

/-- Code that ends an activation for which another one waits. -/
theorem steps_return {caller : Frame} {v : Int64} {labels : List LabelId}
    {lines : List Line} (hcaller : caller.registers = Table.empty) : (machine p).Steps 2
      ⟨l, { caller.write r v with rest := ⟨labels, .kill r⟩ :: lines } :: callers, stack⟩
      ⟨{ caller with rest := lines }, callers, w :: stack⟩ := by
  have hkill : (machine p).Steps 1
      ⟨{ caller.write r v with rest := ⟨labels, .kill r⟩ :: lines }, callers, w :: stack⟩
      ⟨{ caller with rest := lines }, callers, w :: stack⟩ :=
    steps_cons rfl (act_kill (l := { caller with rest := lines }) hcaller v _) (.refl _)
  obtain ⟨_, rest, hrest, -⟩ := exists_line h
  refine steps_head hrest ?_ hkill
  rw [step_eq_perform, act_return h hregisters hbase hresult]
  rfl

end Return

/-! ## Declarations of slots -/

/-- The line that declares the slot `r` of a function with `params` parameters. -/
def slotLine (params : Nat) (r : RegisterId) : Line :=
  ⟨[], if r < params then .allocParam r slotSize else .allocLocal r slotSize⟩

variable (p callers stack) in
/-- The declarations of slots put the arguments into the slots of the parameters. -/
theorem steps_slotLine {words : List Int64} (n first : Nat)
    (hrest : l.rest = (List.range' first n).map (slotLine words.length) ++ rest)
    (hargs : l.arguments = words.drop first) :
    ∃ arguments slots, (machine p).Steps n ⟨l, callers, stack⟩
        ⟨{ l with rest, arguments, slots }, callers, stack⟩ ∧
      ∀ j, slots.find? j =
        if first ≤ j ∧ j < first + n ∧ j < words.length then words[j]? else l.slots.find? j := by
  induction n generalizing first l with
  | zero =>
    refine ⟨l.arguments, l.slots, ?_, fun j => ?_⟩
    · have hl : ({ l with rest } : Frame) = l := by
        rw [List.range'_zero, List.map_nil, List.nil_append] at hrest
        rw [← hrest]
      show (machine p).Steps 0 _ ⟨{ l with rest }, callers, stack⟩
      rw [hl]
      exact .refl _
    · rw [if_neg (by omega)]
  | succ n ih =>
    rw [List.range'_succ, List.map_cons, List.cons_append] at hrest
    -- The slot of a parameter takes the next argument, any other slot none.
    by_cases hfirst : first < words.length
    · have hdrop : l.arguments = words[first] :: words.drop (first + 1) := by
        rw [hargs, List.drop_eq_getElem_cons hfirst]
      obtain ⟨arguments, slots, hsteps, hslots⟩ := ih (l :=
        { l.store first words[first] with
          arguments := words.drop (first + 1)
          rest := (List.range' (first + 1) n).map (slotLine words.length) ++ rest })
        (first + 1) rfl rfl
      refine ⟨arguments, slots, ?_, fun j => ?_⟩
      · rw [Nat.add_comm]
        refine steps_cons hrest ?_ hsteps
        simp only [slotLine, if_pos hfirst, Instruction.act, hdrop, Frame.store]
      · rw [hslots j]
        simp only [Frame.store, Table.find?_insert]
        by_cases hj : j = first
        · subst hj
          rw [if_neg (by omega), if_pos rfl, if_pos ⟨le_rfl, by omega, hfirst⟩,
            List.getElem?_eq_getElem hfirst]
        · simp only [if_neg hj]
          congr 1
          simp only [eq_iff_iff]
          omega
    · obtain ⟨arguments, slots, hsteps, hslots⟩ := ih (l :=
        { l with rest := (List.range' (first + 1) n).map (slotLine words.length) ++ rest })
        (first + 1) rfl (by
          show l.arguments = _
          rw [hargs, List.drop_eq_nil_of_le (by omega), List.drop_eq_nil_of_le (by omega)])
      refine ⟨arguments, slots, ?_, fun j => ?_⟩
      · rw [Nat.add_comm]
        refine steps_cons hrest ?_ hsteps
        simp only [slotLine, if_neg hfirst, Instruction.act]
      · rw [hslots j]
        congr 1
        simp only [eq_iff_iff]
        omega

end Steps

/-! ## Labels of blocks -/

theorem map_instruction_labelled (labels : List LabelId) (code : List Instruction) :
    (Lower.labelled labels code).map Line.instruction = code := by
  cases code with
  | nil => rfl
  | cons i code => simp [Lower.labelled, Function.comp_def]

theorem seek_labelled (h : code ≠ []) :
    seek label (Lower.labelled [label] code) = some (Lower.labelled [label] code) := by
  cases code with
  | nil => exact absurd rfl h
  | cons i code =>
    have hnone : seek label (code.map fun j => ⟨[], j⟩) = none := by
      refine seek_eq_none fun line hl => ?_
      obtain ⟨j, -, rfl⟩ := List.mem_map.1 hl
      rfl
    simp [Lower.labelled, seek, hnone]

variable {c : LowerContext} {blocks : List Flow.Block} {lines : List Line} {r r' : RegisterId}

theorem BlocksCode.exists_block (h : BlocksCode c blocks r lines r')
    (hl : line ∈ lines) (hlabel : label ∈ line.labels) :
    ∃ b ∈ blocks, c.blocks.idxOf? b.id = some label := by
  induction h with
  | nil => cases hl
  | @cons b rest label' code lines _ _ _ hb hcode _ ih =>
    rcases List.mem_append.1 hl with hl | hl
    · refine ⟨b, List.mem_cons_self, ?_⟩
      cases code with
      | nil => cases hl
      | cons i code =>
        rcases List.mem_cons.1 hl with rfl | hl
        · rw [List.mem_singleton.1 hlabel]
          exact hb
        · obtain ⟨j, -, rfl⟩ := List.mem_map.1 hl
          cases hlabel
    · obtain ⟨b', hb', hidx⟩ := ih hl
      exact ⟨b', List.mem_cons_of_mem _ hb', hidx⟩

theorem BlocksCode.seek_block (h : BlocksCode c blocks r lines r')
    (hids : (blocks.map Flow.Block.id).Nodup) (hb : b ∈ blocks)
    (hlabel : c.blocks.idxOf? b.id = some label) :
    ∃ found r₁ code r₂ following, seek label lines = some found ∧
      Code c b.statements b.terminator r₁ code r₂ ∧
      found.map Line.instruction = code ++ following := by
  induction h with
  | nil => cases hb
  | @cons b₀ rest label₀ code lines _ _ _ hb₀ hcode hrest ih =>
    rw [List.map_cons, List.nodup_cons] at hids
    rw [seek_append]
    rcases List.mem_cons.1 hb with rfl | hb
    · -- No later block has the label.
      rw [hb₀] at hlabel
      cases hlabel
      have hnone : seek label lines = none := by
        cases hseek : seek label lines with
        | none => rfl
        | some found =>
          obtain ⟨hsuffix, line, rest', rfl, hl⟩ := seek_eq_some hseek
          obtain ⟨b', hb', hidx⟩ := hrest.exists_block (hsuffix.subset List.mem_cons_self) hl
          exact absurd (eq_of_idxOf? hb₀ hidx ▸ List.mem_map_of_mem hb') hids.1
      refine ⟨Lower.labelled [label] code ++ lines, _, code, _, lines.map Line.instruction, ?_, hcode,
        ?_⟩
      · rw [hnone, seek_labelled hcode.ne_nil, Option.none_or, Option.map_some]
      · rw [List.map_append, map_instruction_labelled]
    · obtain ⟨found, r₁, code, r₂, following, hseek, hcode', hfound⟩ := ih hids.2 hb
      exact ⟨found, r₁, code, r₂, following, by rw [hseek, Option.some_or], hcode', hfound⟩

/-- Lowered blocks start with the code of the first one. -/
theorem BlocksCode.head (h : BlocksCode c blocks r lines r') (hb : blocks.head? = some b) :
    ∃ r₁ code r₂ following, Code c b.statements b.terminator r₁ code r₂ ∧
      lines.map Line.instruction = code ++ following := by
  cases h with
  | nil => cases hb
  | @cons _ _ _ code lines _ _ _ _ hcode _ =>
    cases hb
    refine ⟨_, code, _, lines.map Line.instruction, hcode, ?_⟩
    rw [List.map_append, map_instruction_labelled]

/-- The label of a block of a graph leads to its code in the lowered body. -/
theorem BodyCode.seek_block {functions : List StmtId} {f : Flow.Function} {body : Body}
    (h : BodyCode functions f body) (hids : (f.blocks.map Flow.Block.id).Nodup)
    {target : BlockId} (hb : Flow.findBlock? f.blocks target = some b)
    (hlabel : (contextOf functions f).blocks.idxOf? target = some label) :
    ∃ found r₁ code r₂ following, seek label body.lines = some found ∧
      Code (contextOf functions f) b.statements b.terminator r₁ code r₂ ∧
      found.map Line.instruction = code ++ following := by
  obtain ⟨hmem, rfl⟩ := (Flow.findBlock?_eq_some_iff hids).1 hb
  obtain ⟨lines, r, hlines, hblocks⟩ := h.lines
  obtain ⟨found, r₁, code, r₂, following, hseek, hcode, hfound⟩ :=
    hblocks.seek_block hids hmem hlabel
  refine ⟨found, r₁, code, r₂, following, ?_, hcode, hfound⟩
  rw [hlines, seek_append, hseek, Option.some_or]

end WordLang.Linear
