import WordLang.Proofs.Linear.Replacement

/-!
# Pops that give back what was pushed

A value that is pushed and popped further down can stay in its register, if nothing in between
touches the stack: the register takes the place of the one that is popped into.

## Main definitions

* `Linear.Instruction.Quiet`: instructions that leave the stack alone and go on at the next line
* `Linear.Shadowed`: a body with a pop that gives back what was pushed

## Main results

* `Linear.Shadowed.alike`, `Linear.Shadowed.orderly'`: leaving out the push, the pop and the end of
  the pushed register keeps what a body does, and its order
-/

namespace WordLang.Linear

variable {source target : RegisterId} {line : Line} {r : RegisterId}

/-- An action with a register set in the activation that goes on. -/
def Action.write (r : RegisterId) (v : Int64) : Action → Action
  | .go f stack => .go (f.write r v) stack
  | action => action

namespace Instruction

def Quiet : Instruction → Prop
  | .push _ => False
  | .pop _ => False
  | .callRegister _ _ => False
  | .callImmediate _ _ => False
  | .jump _ => False
  | .jumpIfNonZero _ _ => False
  | .return => False
  | _ => True

theorem Quiet.act {i : Instruction} (h : i.Quiet) (f : Frame) :
    (∃ f', (∀ stack, i.act f stack = .go f' stack) ∧ f'.body = f.body ∧ f'.rest = f.rest ∧
        ∀ r, r ∉ i.registers → f'.registers.find? r = f.registers.find? r) ∨
      ∃ e, ∀ stack, i.act f stack = .fail e := by
  have hwrite : ∀ r v x, x ∉ [r] → (f.write r v).registers.find? x = f.registers.find? x := by
    intro r v x hx
    exact Table.find?_insert_of_ne (by simpa using hx) _ _
  -- Something that is read is missing, or at most one register changes.
  cases i with
  | nop => exact .inl ⟨f, fun _ => rfl, rfl, rfl, fun _ _ => rfl⟩
  | allocParam r size =>
    simp only [Instruction.act]
    cases f.arguments with
    | nil => exact .inr ⟨_, fun _ => rfl⟩
    | cons v rest => exact .inl ⟨_, fun _ => rfl, rfl, rfl, fun _ _ => rfl⟩
  | allocLocal r size => exact .inl ⟨f, fun _ => rfl, rfl, rfl, fun _ _ => rfl⟩
  | moveInt r v => exact .inl ⟨_, fun _ => rfl, rfl, rfl, hwrite r _⟩
  | moveString r s => exact .inl ⟨_, fun _ => rfl, rfl, rfl, hwrite r _⟩
  | moveFunction r id => exact .inl ⟨_, fun _ => rfl, rfl, rfl, hwrite r _⟩
  | load r slot =>
    simp only [Instruction.act, Frame.readingSlot]
    cases f.slot slot with
    | error e => exact .inr ⟨e, fun _ => rfl⟩
    | ok v =>
      refine .inl ⟨_, fun _ => rfl, rfl, rfl, fun x hx => hwrite r v x ?_⟩
      simp only [Instruction.registers, List.mem_cons, not_or] at hx
      simpa using hx.1
  | storeRegister slot r =>
    simp only [Instruction.act, Frame.reading]
    cases f.registers.find? r with
    | none => exact .inr ⟨_, fun _ => rfl⟩
    | some v => exact .inl ⟨_, fun _ => rfl, rfl, rfl, fun _ _ => rfl⟩
  | storeImmediate slot v => exact .inl ⟨_, fun _ => rfl, rfl, rfl, fun _ _ => rfl⟩
  | binary op destination source =>
    simp only [Instruction.act, Frame.reading]
    cases f.registers.find? destination with
    | none => exact .inr ⟨_, fun _ => rfl⟩
    | some lhs =>
      cases f.registers.find? source with
      | none => exact .inr ⟨_, fun _ => rfl⟩
      | some rhs =>
        cases he : evaluate op lhs rhs with
        | error e => exact .inr ⟨e, fun _ => by simp only [he]⟩
        | ok v =>
          refine .inl ⟨f.write destination v, fun _ => by simp only [he], rfl, rfl,
            fun x hx => hwrite destination v x ?_⟩
          simp only [Instruction.registers, List.mem_cons, not_or] at hx
          simpa using hx.1
  | kill r =>
    simp only [Instruction.act]
    cases f.registers.find? r with
    | none => exact .inr ⟨_, fun _ => rfl⟩
    | some v =>
      refine .inl ⟨_, fun _ => rfl, rfl, rfl, fun x hx => ?_⟩
      exact Table.find?_erase_of_ne (by simpa [Instruction.registers] using hx) _
  | _ => exact h.elim

theorem Quiet.act_write {i : Instruction} (h : i.Quiet) (f : Frame) (stack : List Int64)
    (hr : r ∉ i.registers) (v : Int64) : i.act (f.write r v) stack = (i.act f stack).write r v := by
  -- The instruction reads and writes other registers only.
  have hcomm : ∀ x w, r ≠ x → (f.write r v).write x w = (f.write x w).write r v := by
    intro x w hx
    simp only [Frame.write, Frame.mk.injEq, true_and, and_true]
    refine Table.ext_find? fun y => ?_
    rw [Table.find?_insert, Table.find?_insert, Table.find?_insert, Table.find?_insert]
    split
    · next hyx => rw [if_neg (hyx.trans_ne hx.symm)]
    · rfl
  have hread : ∀ x, r ≠ x → (f.write r v).registers.find? x = f.registers.find? x :=
    fun x hx => Table.find?_insert_of_ne hx.symm _ _
  cases i <;>
    simp only [Instruction.registers, List.mem_cons, List.not_mem_nil, or_false, not_or] at hr <;>
    simp only [Instruction.act, Frame.reading, Frame.readingSlot]
  case nop | allocLocal | storeImmediate => rfl
  case allocParam =>
    rw [show (f.write r v).arguments = f.arguments from rfl]
    cases f.arguments <;> rfl
  case moveInt | moveString | moveFunction => rw [hcomm _ _ hr, Action.write]
  case load slot =>
    rw [show (f.write r v).slot slot = f.slot slot from rfl]
    cases f.slot slot with
    | error e => rfl
    | ok w => exact congrArg (Action.go · stack) (hcomm _ w hr.1)
  case storeRegister slot x =>
    rw [hread _ hr.1]
    cases f.registers.find? x <;> rfl
  case binary op destination source =>
    rw [hread _ hr.1, hread _ hr.2]
    cases f.registers.find? destination with
    | none => rfl
    | some lhs =>
      cases f.registers.find? source with
      | none => rfl
      | some rhs =>
        simp only
        cases evaluate op lhs rhs with
        | error e => rfl
        | ok w => exact congrArg (Action.go · stack) (hcomm _ w hr.1)
  case kill x =>
    rw [hread _ hr]
    cases f.registers.find? x with
    | none => rfl
    | some w =>
      simp only [Frame.write, Action.write, Action.go.injEq, Frame.mk.injEq, true_and, and_true]
      refine Table.ext_find? fun y => ?_
      rw [Table.find?_insert, Table.find?_erase, Table.find?_erase, Table.find?_insert]
      by_cases hyx : y = x
      · rw [if_pos hyx, if_neg (hyx.trans_ne (Ne.symm hr)), if_pos hyx]
      · rw [if_neg hyx, if_neg hyx]
  all_goals exact h.elim

end Instruction

/-! ## Quiet lines -/

section QuietLines

variable {slots : Nat} {lines rest rest' : List Line}

theorem Orderly.quiet {popped : RegisterId} {after : List Line}
    (h : Orderly slots (line :: (lines ++ ⟨[], .pop popped⟩ :: after)))
    (hlabels : ∀ other ∈ lines, other.labels = [])
    (hline : line.instruction.pollutesStack = false) : line.instruction.Quiet := by
  have hdetached : ∀ lines : List Line, (∀ other ∈ lines, other.labels = []) →
      ¬Detached (lines ++ ⟨[], .pop popped⟩ :: after) := by
    intro lines hlabels hd
    cases lines with
    | nil => exact hd rfl
    | cons first lines => exact hd (hlabels first List.mem_cons_self)
  have hi := h.2.1
  cases hinst : line.instruction <;> rw [hinst] at hi hline <;> try trivial
  case jump | «return» => exact hdetached lines hlabels hi.2
  case jumpIfNonZero =>
    -- The jump after the branch would have to be followed by a label.
    obtain ⟨-, target, rest, hshape⟩ := hi
    match lines, hshape with
    | [], hshape => cases hshape
    | [_], hshape => cases hshape
    | _ :: _ :: lines, hshape =>
      obtain ⟨rfl, rfl, -⟩ : _ ∧ _ ∧ _ := by simpa using hshape
      refine hdetached lines (fun other ho => hlabels other (by simp [ho])) ?_
      exact h.2.2.2.2.2.1.2

theorem act_of_quiet {f : Frame} (hrest : f.rest = line :: rest) (hq : line.instruction.Quiet) :
    (∃ f', (∀ stack, act f stack = .go f' stack) ∧ f'.body = f.body ∧ f'.rest = rest ∧
        ∀ r, r ∉ line.instruction.registers → f'.registers.find? r = f.registers.find? r) ∨
      ∃ e, ∀ stack, act f stack = .fail e := by
  simp only [act, hrest]
  exact hq.act { f with rest }

theorem act_write_of_quiet {f : Frame} (hrest : f.rest = line :: rest)
    (hq : line.instruction.Quiet) (hr : r ∉ line.instruction.registers)
    (v : Int64) (stack : List Int64) : act (f.write r v) stack = (act f stack).write r v := by
  have hrest' : (f.write r v).rest = line :: rest := hrest
  simp only [act, hrest, hrest']
  exact hq.act_write { f with rest } stack hr v

theorem sameAction_of_quiet {ρ : RegisterId → RegisterId} {places : List Line → List Line → Prop}
    {b b' : Body} (tw : Twins ρ slots places b b') {f g : Frame} (hbody : f.body = b)
    (hbody' : g.body = b') (hc : Copies ρ f g) (hrest : f.rest = line :: rest)
    (hrest' : g.rest = line :: rest') (hq : line.instruction.Quiet)
    (hfix : ∀ r ∈ line.instruction.registers, ρ r = r) (ho : line.instruction.Orderly slots rest)
    (hlive : ∀ x ∈ live f.rest, (f.registers.find? x).isSome)
    (hinj : Set.InjOn ρ {x | (f.registers.find? x).isSome ∨ line.instruction.born? = some x}) :
    (∃ f' g', (∀ stack, act f stack = .go f' stack) ∧ (∀ stack, act g stack = .go g' stack) ∧
        f'.body = b ∧ f'.rest = rest ∧ g'.body = b' ∧ g'.rest = rest' ∧ Copies ρ f' g' ∧
        ∀ r, r ∉ line.instruction.registers → f'.registers.find? r = f.registers.find? r) ∨
      ∃ e, (∀ stack, act f stack = .fail e) ∧ ∀ stack, act g stack = .fail e := by
  have hat : AtCopies ρ (fun _ _ => True) b b' { f with rest } { g with rest := rest' } := by
    obtain ⟨hlabel, harguments, hslots, hbase, hvalue, hsource⟩ := hc
    exact ⟨hbody, hbody', trivial, hlabel, harguments, hslots, hbase, hvalue, hsource⟩
  rw [hrest] at hlive
  have hsame := (tw.mono fun _ _ _ => trivial).act_instruction hat ho hlive hinj
    (fun hi => by rw [hi] at hq; exact hq.elim) (fun _ _ _ hi => by rw [hi] at hq; exact hq.elim) []
  replace hsame : SameAction ρ (fun _ _ => True) b b' (act f []) (act g []) := by
    simpa only [act, hrest, hrest', Instruction.mapRegisters_eq_self hfix] using hsame
  rcases act_of_quiet hrest hq with ⟨f', hf', hfbody, hfrest, hframe⟩ | ⟨e, he⟩
  · rcases act_of_quiet hrest' hq with ⟨g', hg', hgbody, hgrest, -⟩ | ⟨e, he⟩
    · rw [hf', hg'] at hsame
      exact .inl ⟨f', g', hf', hg', hfbody.trans hbody, hfrest, hgbody.trans hbody', hgrest,
        hsame.2.copies, hframe⟩
    · rw [hf', he] at hsame
      exact hsame.elim
  · rcases act_of_quiet hrest' hq with ⟨g', hg', -⟩ | ⟨e', he'⟩
    · rw [he, hg'] at hsame
      exact hsame.elim
    · rw [he, he'] at hsame
      cases hsame
      exact .inr ⟨e, he, he'⟩

theorem Orderly.replace_quiet {a : RegisterId} (h : Orderly slots (lines ++ rest))
    (h' : Orderly slots rest') (hquiet : ∀ line ∈ lines, line.instruction.Quiet)
    (hlabels : ∀ line ∈ lines, line.labels = []) (ha : a ∉ mentioned lines)
    (hlive : ∀ x ≠ a, x ∈ live rest' ↔ x ∈ live rest) :
    Orderly slots (lines ++ rest') ∧
      ∀ x ≠ a, x ∈ live (lines ++ rest') ↔ x ∈ live (lines ++ rest) := by
  induction lines with
  | nil => exact ⟨h', hlive⟩
  | cons line lines ih =>
    rw [List.cons_append] at h ⊢
    rw [mentioned_cons, List.mem_append, not_or] at ha
    obtain ⟨horder, hsame⟩ := ih h.2.2 (fun other ho => hquiet other (List.mem_cons_of_mem _ ho))
      (fun other ho => hlabels other (List.mem_cons_of_mem _ ho)) ha.2
    have hline := hquiet line List.mem_cons_self
    have hi := h.2.1
    have hmem : ∀ r ∈ line.instruction.registers,
        r ∈ live (lines ++ rest') ↔ r ∈ live (lines ++ rest) :=
      fun r hr => hsame r fun hra => ha.1 (hra ▸ hr)
    refine ⟨⟨fun hl => (hl (hlabels line List.mem_cons_self)).elim, ?_, horder⟩, fun x hx => ?_⟩
    · cases hinst : line.instruction <;> rw [hinst] at hi hline hmem <;>
        simp only [Instruction.Orderly, Instruction.registers, List.mem_cons, List.not_mem_nil,
          or_false, forall_eq_or_imp, forall_eq] at hi hmem ⊢
      case allocParam | allocLocal | storeImmediate => exact hi
      case moveInt | moveString | moveFunction => exact ⟨hi.1, hmem.2 hi.2⟩
      case load => exact ⟨hi.1, hmem.1.2 hi.2.1, hi.2.2⟩
      case storeRegister => exact ⟨hi.1, hmem.1.2 hi.2⟩
      case binary => exact ⟨hmem.1.2 hi.1, hmem.2.2 hi.2⟩
      case kill => exact ⟨hi.1, fun hr => hi.2 (hmem.1 hr)⟩
      all_goals exact hline.elim
    · rw [List.cons_append, live_cons, live_cons, Instruction.mem_liveBefore,
        Instruction.mem_liveBefore, hsame x hx]

end QuietLines

/-! ## Pops that give back what was pushed -/

def named (source target r : RegisterId) : RegisterId := if r = source then target else r

theorem named_of_ne {source target r : RegisterId} (h : r ≠ source) : named source target r = r :=
  if_neg h

theorem named_self : named source target source = target := if_pos rfl

theorem named_injOn (source target : RegisterId) :
    Set.InjOn (named source target) {r | r ≠ target} := by
  intro x hx y hy heq
  simp only [named] at heq
  split at heq
  · next hxs =>
    split at heq
    · next hys => rw [hxs, hys]
    · exact (hy heq.symm).elim
  · split at heq
    · exact (hx heq).elim
    · exact heq

theorem Copies.kill_named {f g : Frame} {v : Int64}
    (h : Copies (named source target) f g) (hne : source ≠ target)
    (hv : f.registers.find? target = some v) {rest : List Line} : Copies (named source target)
      ({ f with rest, registers := f.registers.erase target }.write source v) g := by
  have htarget : named source target target = target := named_of_ne hne.symm
  refine ⟨h.label, h.arguments, h.slots, h.base, fun {x w} hx => ?_, fun {y} hy => ?_⟩
  · rw [Frame.write, Table.find?_insert] at hx
    split at hx
    · next hxs =>
      cases hx
      rw [hxs, named_self, ← htarget]
      exact h.value hv
    · rw [Table.find?_erase] at hx
      split at hx
      · cases hx
      · exact h.value hx
  · obtain ⟨x, rfl, hx⟩ := h.source hy
    by_cases hxs : x = source ∨ x = target
    · refine ⟨source, ?_, by simp [Frame.write]⟩
      rcases hxs with rfl | rfl
      · rfl
      · rw [named_self, htarget]
    · rw [not_or] at hxs
      refine ⟨x, rfl, ?_⟩
      rwa [Frame.write, Table.find?_insert_of_ne hxs.1, Table.find?_erase_of_ne hxs.2]

theorem map_rename_eq_self {lines : List Line}
    (h : source ∉ mentioned lines) : lines.map (Line.rename source target) = lines :=
  map_mapRegisters_eq_self fun r hr => named_of_ne fun (hrs : r = source) => h (hrs ▸ hr)

/-- A body in which `pushed` is pushed, killed after the lines `first`, and popped into `popped`
after the lines `second`, while nothing else touches the stack. -/
structure Shadowed (slots : Nat) (b : Body) (before first second after : List Line)
    (pushed popped : RegisterId) : Prop where
  orderly : b.Orderly slots
  lines : b.lines = before ++ ⟨[], .push pushed⟩ ::
    (first ++ ⟨[], .kill pushed⟩ :: (second ++ ⟨[], .pop popped⟩ :: after))
  unlabelled : ∀ line ∈ first ++ second, line.labels = []
  unpolluted : ∀ line ∈ first ++ second, line.instruction.pollutesStack = false

namespace Shadowed

variable {slots : Nat} {b : Body} {before first second after : List Line}
  {pushed popped : RegisterId} (h : Shadowed slots b before first second after pushed popped)
include h

theorem tail_orderly : Orderly slots (⟨[], .push pushed⟩ ::
    (first ++ ⟨[], .kill pushed⟩ :: (second ++ ⟨[], .pop popped⟩ :: after))) := by
  have hlines := h.orderly.lines
  rw [h.lines] at hlines
  exact hlines.of_append

theorem second_orderly :
    Orderly slots (⟨[], .kill pushed⟩ :: (second ++ ⟨[], .pop popped⟩ :: after)) :=
  Orderly.of_append h.tail_orderly.2.2

theorem pushed_not_mem_born :
    pushed ∉ born (first ++ ⟨[], .kill pushed⟩ :: (second ++ ⟨[], .pop popped⟩ :: after)) := by
  have hlive : pushed ∈ live (⟨[], .push pushed⟩ ::
      (first ++ ⟨[], .kill pushed⟩ :: (second ++ ⟨[], .pop popped⟩ :: after))) :=
    h.tail_orderly.2.1.1
  have hnot := h.orderly.not_mem_born h.lines (h.orderly.mem_born_of_mem_live h.lines hlive)
  rw [born_cons] at hnot
  exact hnot

theorem pushed_not_mem_first : pushed ∉ mentioned first := by
  have honly := h.tail_orderly.2.1.2
  have horder := h.tail_orderly.2.2
  have hborn := h.pushed_not_mem_born
  generalize ⟨[], .pop popped⟩ :: after = rest at honly horder hborn
  clear h
  induction first with
  | nil => exact List.not_mem_nil
  | cons line first ih =>
    rw [List.cons_append, born_cons, List.mem_append, not_or] at hborn
    rcases honly with hkill | ⟨hne, honly⟩
    · -- A register that ended here would have to be born again before its end further down.
      have hdead := horder.2.1
      rw [hkill] at hdead
      have hlive : pushed ∈ live (⟨[], .kill pushed⟩ :: (second ++ rest)) :=
        Finset.mem_insert_self _ _
      rcases mem_live_append first hlive with hlive | hb
      · exact (hdead.2 hlive).elim
      · refine (hborn.2 ?_).elim
        rw [born_append]
        exact List.mem_append_left _ hb
    · rw [mentioned_cons, List.mem_append, not_or]
      exact ⟨hne, ih honly horder.2.2 hborn.2⟩

theorem pushed_not_mem_rest : pushed ∉ mentioned (second ++ ⟨[], .pop popped⟩ :: after) := by
  intro hm
  obtain ⟨-, ⟨hslot, hdead⟩, horder⟩ := h.second_orderly
  have hborn := h.pushed_not_mem_born
  rw [born_append, List.mem_append, not_or] at hborn
  rcases horder.mem_mentioned hm with hlt | hlive | hb
  · exact Nat.not_le_of_lt hlt hslot
  · exact hdead hlive
  · exact hborn.2 hb

theorem pushed_not_mem_parts :
    pushed ∉ mentioned second ∧ pushed ≠ popped ∧ pushed ∉ mentioned after := by
  have hrest := h.pushed_not_mem_rest
  simpa [Instruction.registers] using hrest

theorem popped_not_mem :
    popped ∉ mentioned before ∧ popped ∉ mentioned first ∧ popped ∉ mentioned second := by
  have hborn : popped ∈ born (⟨[], .pop popped⟩ :: after) := by
    rw [born_cons]
    exact List.mem_append_left _ (List.mem_singleton_self _)
  have hnot : popped ∉ mentioned (before ++ ⟨[], .push pushed⟩ ::
      (first ++ ⟨[], .kill pushed⟩ :: second)) := by
    refine h.orderly.not_mem_mentioned ?_ hborn
    rw [h.lines]
    simp
  simp only [mentioned_append, mentioned_cons, List.mem_append, not_or] at hnot
  exact ⟨hnot.1, hnot.2.2.1, hnot.2.2.2.2⟩

theorem popped_not_mem_born_after : popped ∉ born after := by
  have hlines : b.lines = (before ++ ⟨[], .push pushed⟩ ::
      (first ++ ⟨[], .kill pushed⟩ :: second) ++ [⟨[], .pop popped⟩]) ++ after := by
    rw [h.lines]
    simp
  refine h.orderly.not_mem_born hlines ?_
  rw [born_append]
  exact List.mem_append_right _ (List.mem_singleton_self _)

theorem popped_not_mem_live {lines rest : List Line} (hlines : b.lines = lines ++ rest)
    (hborn : popped ∈ born rest) : popped ∉ live rest := by
  intro hlive
  exact h.orderly.not_mem_born hlines (h.orderly.mem_born_of_mem_live hlines hlive) hborn

theorem quiet (hl : line ∈ first ++ second) : line.instruction.Quiet := by
  have hline := h.unpolluted line hl
  have horder := h.tail_orderly.2.2
  rcases List.mem_append.1 hl with hl | hl
  · obtain ⟨passed, lines, rfl⟩ := List.append_of_mem hl
    rw [List.append_assoc, List.cons_append] at horder
    have hfrom : Orderly slots
        (line :: ((lines ++ ⟨[], .kill pushed⟩ :: second) ++ ⟨[], .pop popped⟩ :: after)) := by
      simpa using horder.of_append
    refine hfrom.quiet ?_ hline
    intro other ho
    simp only [List.mem_append, List.mem_cons] at ho
    rcases ho with ho | rfl | ho
    · exact h.unlabelled other (by simp [ho])
    · rfl
    · exact h.unlabelled other (by simp [ho])
  · obtain ⟨passed, lines, rfl⟩ := List.append_of_mem hl
    have horder := h.second_orderly.2.2
    rw [List.append_assoc, List.cons_append] at horder
    have hfrom : Orderly slots (line :: (lines ++ ⟨[], .pop popped⟩ :: after)) :=
      horder.of_append
    refine hfrom.quiet ?_ hline
    intro other ho
    exact h.unlabelled other (by simp [ho])

/-- No line in between declares a slot, since a push comes before it. -/
theorem slot?_eq_none (hl : line ∈ first ++ second) : line.instruction.slot? = none := by
  have hslots := h.orderly.slotsFirst
  rw [SlotsFirst, h.lines, List.pairwise_append, List.pairwise_cons] at hslots
  have hpush := hslots.2.1.1 line (by
    simp only [List.mem_append, List.mem_cons] at hl ⊢
    tauto)
  exact Option.not_isSome_iff_eq_none.1 fun hsome => by simpa [Instruction.slot?] using hpush hsome

theorem named_injective : Set.InjOn (named popped pushed) {r | r ∈ mentioned after} :=
  (named_injOn popped pushed).mono fun r hr (hrp : r = pushed) =>
    h.pushed_not_mem_parts.2.2 (hrp ▸ hr)

theorem replacement :
    Replacement (named popped pushed) slots before
      (⟨[], .push pushed⟩ :: (first ++ ⟨[], .kill pushed⟩ :: (second ++ [⟨[], .pop popped⟩])))
      (first ++ second) after b
      { b with lines := (before ++ (first ++ second ++ after)).map (Line.rename popped pushed) } := by
  have hslot : slots ≤ popped := by
    refine h.tail_orderly.le_of_mem_born ?_
    simp [born_cons, Instruction.born?]
  have hlines : b.lines = before ++ (⟨[], .push pushed⟩ ::
      (first ++ ⟨[], .kill pushed⟩ :: (second ++ [⟨[], .pop popped⟩])) ++ after) := by
    rw [h.lines]
    simp
  have hold (P : Line → Prop) (hpush : P ⟨[], .push pushed⟩) (hmid : ∀ line ∈ first ++ second, P line)
      (hkill : P ⟨[], .kill pushed⟩) (hpop : P ⟨[], .pop popped⟩) : ∀ line ∈ ⟨[], .push pushed⟩ ::
        (first ++ ⟨[], .kill pushed⟩ :: (second ++ [⟨[], .pop popped⟩])), P line := by
    simp only [List.forall_mem_append, List.forall_mem_cons] at hmid ⊢
    exact ⟨hpush, hmid.1, hkill, hmid.2, hpop, List.forall_mem_nil _⟩
  refine ⟨h.orderly, hlines, ?_, rfl, fun hr => named_of_ne ?_, fun r hr => named_of_ne ?_,
    fun r hr => named_of_ne ?_, h.named_injective, ⟨_, _, rfl, fun _ => Instruction.noConfusion⟩,
    fun label => .inl ⟨seek_eq_none ?_, seek_eq_none h.unlabelled⟩, ?_, fun line hl =>
    h.slot?_eq_none hl⟩
  · simp only [List.map_append, map_rename_eq_self h.popped_not_mem.1,
      map_rename_eq_self h.popped_not_mem.2.1, map_rename_eq_self h.popped_not_mem.2.2]
    rfl
  · exact Nat.ne_of_lt (Nat.lt_of_lt_of_le hr hslot)
  · rintro rfl
    exact h.popped_not_mem.1 hr
  · rintro rfl
    refine h.popped_not_mem_live hlines ?_ hr
    simp [born_cons, Instruction.born?]
  · exact hold _ rfl h.unlabelled rfl rfl
  · exact hold (fun line => line.instruction.slot? = none) rfl (fun _ => h.slot?_eq_none) rfl rfl

theorem live_eq :
    Orderly slots (first ++ second ++ after.map (Line.mapRegisters (named popped pushed))) ∧
      live (first ++ second ++ after.map (Line.mapRegisters (named popped pushed))) =
        live (⟨[], .push pushed⟩ ::
          (first ++ ⟨[], .kill pushed⟩ :: (second ++ ⟨[], .pop popped⟩ :: after))) := by
  have hfirst := h.tail_orderly.2.2
  have hsecond := h.second_orderly.2.2
  have hpop : Orderly slots (⟨[], .pop popped⟩ :: after) := hsecond.of_append
  obtain ⟨hslot, hpopped⟩ : slots ≤ popped ∧ popped ∈ live after := hpop.2.1
  have hpushed : slots ≤ pushed := h.second_orderly.2.1.1
  have hafter : Orderly slots (after.map (Line.mapRegisters (named popped pushed))) := by
    refine hpop.2.2.mapRegisters h.named_injective (fun r hr => named_of_ne ?_) fun r hr => ?_
    · exact Nat.ne_of_lt (Nat.lt_of_lt_of_le hr hslot)
    · simp only [named]
      split
      · exact hpushed
      · exact hr
  have hlive : live (after.map (Line.mapRegisters (named popped pushed))) =
      (live after).image (named popped pushed) := live_map_mapRegisters h.named_injective
  -- Other registers than the pushed one are live as before; the pushed one lives on to the end.
  have hbase : ∀ x ≠ pushed, x ∈ live (after.map (Line.mapRegisters (named popped pushed))) ↔
      x ∈ live (⟨[], .pop popped⟩ :: after) := by
    intro x hx
    rw [hlive, Finset.mem_image, live_cons, Instruction.liveBefore, Finset.mem_erase]
    constructor
    · rintro ⟨y, hy, rfl⟩
      simp only [named] at hx ⊢
      split
      · next hyp => exact (hx (if_pos hyp)).elim
      · next hyp => exact ⟨hyp, hy⟩
    · rintro ⟨hne, hx'⟩
      exact ⟨x, hx', named_of_ne hne⟩
  have hkept : pushed ∈ live (after.map (Line.mapRegisters (named popped pushed))) := by
    rw [hlive]
    exact Finset.mem_image.2 ⟨popped, hpopped, named_self⟩
  obtain ⟨hsecond', hlive₂⟩ := hsecond.replace_quiet hafter
    (fun line hl => h.quiet (List.mem_append_right _ hl))
    (fun line hl => h.unlabelled line (List.mem_append_right _ hl)) h.pushed_not_mem_parts.1 hbase
  obtain ⟨hfirst', hlive₁⟩ := hfirst.replace_quiet hsecond'
    (fun line hl => h.quiet (List.mem_append_left _ hl))
    (fun line hl => h.unlabelled line (List.mem_append_left _ hl)) h.pushed_not_mem_first
    fun x hx => (hlive₂ x hx).trans (by
      rw [live_cons, Instruction.liveBefore, Finset.mem_insert, or_iff_right hx])
  rw [List.append_assoc]
  refine ⟨hfirst', Finset.ext fun x => ?_⟩
  by_cases hx : x = pushed
  · subst hx
    rw [mem_live_append_iff h.pushed_not_mem_first, mem_live_append_iff h.pushed_not_mem_parts.1]
    exact iff_of_true hkept h.tail_orderly.2.1.1
  · exact hlive₁ x hx

omit h in
theorem onlyKilled (hr : OnlyKilled r (⟨[], .push pushed⟩ ::
    (first ++ ⟨[], .kill pushed⟩ :: (second ++ ⟨[], .pop popped⟩ :: after)))) :
    OnlyKilled r (first ++ second ++ after.map (Line.mapRegisters (named popped pushed))) := by
  simp only [OnlyKilled, Instruction.registers, List.mem_singleton, reduceCtorEq, false_or] at hr
  obtain ⟨hne, hr⟩ := hr
  rw [List.append_assoc]
  refine hr.replace fun hr => ?_
  simp only [OnlyKilled, Instruction.kill.injEq, Instruction.registers, List.mem_singleton] at hr
  rcases hr with hkill | ⟨-, hr⟩
  · exact (hne hkill.symm).elim
  · refine hr.replace fun hr => ?_
    simp only [OnlyKilled, Instruction.registers, List.mem_singleton, reduceCtorEq, false_or] at hr
    obtain ⟨hpopped, hr⟩ := hr
    have hfix : named popped pushed r = r := named_of_ne hpopped
    have hmap := hr.mapRegisters (ρ := named popped pushed) fun x hx heq => by
      rw [hfix] at heq
      by_cases hxp : x = popped
      · rw [hxp, named_self] at heq
        exact (hne heq.symm).elim
      · rwa [named_of_ne hxp] at heq
    rwa [hfix] at hmap

theorem orderly' :
    ({ b with lines := (before ++ (first ++ second ++ after)).map (Line.rename popped pushed) }
      : Body).Orderly slots := by
  obtain ⟨horder, hlive⟩ := h.live_eq
  have htail : ⟨[], .push pushed⟩ :: (first ++ ⟨[], .kill pushed⟩ ::
      (second ++ [⟨[], .pop popped⟩])) ++ after = ⟨[], .push pushed⟩ ::
      (first ++ ⟨[], .kill pushed⟩ :: (second ++ ⟨[], .pop popped⟩ :: after)) := by
    simp
  refine h.replacement.orderly' horder ?_ ?_ ?_ ?_ ?_ ?_
  · rw [hlive, htail]
  · intro hdetached
    exact (hdetached rfl).elim
  · intro r hr
    rw [htail] at hr
    exact onlyKilled hr
  · rintro labels target rest heq
    cases heq
  · simp only [born_append, born_cons, Instruction.born?, Option.toList_none, List.nil_append]
    exact (List.Sublist.refl _).append (List.sublist_append_left _ _)
  · intro r hr
    refine named_of_ne ?_
    rintro rfl
    exact h.popped_not_mem_born_after hr

/-- Activations between the push and the end of the pushed register, whose value is kept on the
stack by the first one. -/
def BeforeKill (first second after : List Line) (pushed popped : RegisterId) (f g : Frame)
    (v : Int64) : Prop :=
  ∃ lines, lines <:+ first ∧ f.rest = lines ++ ⟨[], .kill pushed⟩ ::
      (second ++ ⟨[], .pop popped⟩ :: after) ∧
    g.rest = lines ++ (second ++ after.map (Line.mapRegisters (named popped pushed))) ∧
    f.registers.find? pushed = some v ∧ Copies (named popped pushed) f g

/-- Activations between the end of the pushed register and the pop: the second one already holds
the value that will be popped. -/
def BeforePop (second after : List Line) (pushed popped : RegisterId) (f g : Frame)
    (v : Int64) : Prop :=
  ∃ lines, lines <:+ second ∧ f.rest = lines ++ ⟨[], .pop popped⟩ :: after ∧
    g.rest = lines ++ after.map (Line.mapRegisters (named popped pushed)) ∧
    Copies (named popped pushed) (f.write popped v) g

section Between

variable {b' : Body} {f g : Frame} {v : Int64} {places : List Line → List Line → Prop}
  (tw : Twins (named popped pushed) slots places b b') (hf : f.Healthy slots) (hbody : f.body = b)
  (hbody' : g.body = b')
include tw hf hbody hbody'

/-- Before the end of the pushed register, quiet lines do the same in both activations. -/
theorem BeforeKill.step (hm : BeforeKill first second after pushed popped f g v)
    (stack : List Int64) :
    (∃ f' g', act f (v :: stack) = .go f' (v :: stack) ∧ act g stack = .go g' stack ∧
        f'.body = b ∧ g'.body = b' ∧ BeforeKill first second after pushed popped f' g' v) ∨
      (∃ e, act f (v :: stack) = .fail e ∧ act g stack = .fail e) ∨
      ∃ f', act f (v :: stack) = .go f' (v :: stack) ∧ f'.body = b ∧
        f'.rest.length < f.rest.length ∧ BeforePop second after pushed popped f' g v := by
  obtain ⟨lines, hl, hrest, hrest', hv, hc⟩ := hm
  cases lines with
  | nil =>
    have hact : act f (v :: stack) = .go { f with
        rest := second ++ ⟨[], .pop popped⟩ :: after, registers := f.registers.erase pushed }
        (v :: stack) := by
      simp [act, hrest, Instruction.act, hv]
    refine .inr (.inr ⟨_, hact, hbody, by simp [hrest], second, List.suffix_refl _, rfl, hrest', ?_⟩)
    exact hc.kill_named h.pushed_not_mem_parts.2.1.symm hv
  | cons line lines =>
    have hline : line ∈ first := hl.subset List.mem_cons_self
    have hnot : popped ∉ line.instruction.registers := fun hr =>
      h.popped_not_mem.2.1 (List.mem_flatMap.2 ⟨line, hline, hr⟩)
    have hnot' : pushed ∉ line.instruction.registers := fun hr =>
      h.pushed_not_mem_first (List.mem_flatMap.2 ⟨line, hline, hr⟩)
    have hdead : popped ∉ live f.rest := by
      obtain ⟨passed, hpassed⟩ := hf.place
      refine h.popped_not_mem_live ((hbody ▸ hpassed).symm : b.lines = passed ++ f.rest) ?_
      rw [hrest]
      simp [born_cons, Instruction.born?]
    have horder := hf.orderly
    rw [hrest] at horder
    have hne : ∀ z, (f.registers.find? z).isSome ∨ line.instruction.born? = some z →
        z ≠ popped := by
      rintro z (hz | hz) rfl
      · exact hdead ((hf.tracks z).1 hz)
      · exact hnot (Instruction.mem_registers_of_born? hz)
    have hinj : Set.InjOn (named popped pushed)
        {x | (f.registers.find? x).isSome ∨ line.instruction.born? = some x} := by
      intro x hx y hy heq
      rwa [named_of_ne (hne x hx), named_of_ne (hne y hy)] at heq
    rcases sameAction_of_quiet tw hbody hbody' hc hrest hrest' (h.quiet (List.mem_append_left _ hline))
        (fun r hr => named_of_ne fun hrp => hnot (hrp ▸ hr)) horder.2.1
        (fun x hx => (hf.tracks x).2 hx) hinj with
      ⟨f', g', hact, hact', hbf, hrf, hbg, hrg, hc', hframe⟩ | ⟨e, hact, hact'⟩
    · exact .inl ⟨f', g', hact _, hact' _, hbf, hbg, lines, (List.suffix_cons line lines).trans hl,
        hrf, hrg, (hframe pushed hnot').trans hv, hc'⟩
    · exact .inr (.inl ⟨e, hact _, hact' _⟩)

theorem BeforePop.step (hm : BeforePop second after pushed popped f g v) (stack : List Int64) :
    (∃ f' g', act f (v :: stack) = .go f' (v :: stack) ∧ act g stack = .go g' stack ∧
        f'.body = b ∧ g'.body = b' ∧ BeforePop second after pushed popped f' g' v) ∨
      (∃ e, act f (v :: stack) = .fail e ∧ act g stack = .fail e) ∨
      ∃ f', act f (v :: stack) = .go f' stack ∧ f'.body = b ∧ f'.rest = after ∧
        g.rest = after.map (Line.mapRegisters (named popped pushed)) ∧
        f'.rest.length < f.rest.length ∧ Copies (named popped pushed) f' g := by
  obtain ⟨lines, hl, hrest, hrest', hc⟩ := hm
  cases lines with
  | nil =>
    -- The value is popped; the other activation has it in the register that was pushed.
    have hact : act f (v :: stack) = .go ({ f with rest := after }.write popped v) stack := by
      simp only [act, hrest, List.nil_append, Instruction.act]
    obtain ⟨hlabel, harguments, hslots, hbase, hvalue, hsource⟩ := hc
    exact .inr (.inr ⟨_, hact, hbody, rfl, hrest', by simp [hrest, Frame.write], hlabel, harguments,
      hslots, hbase, hvalue, hsource⟩)
  | cons line lines =>
    have hline : line ∈ second := hl.subset List.mem_cons_self
    have hquiet := h.quiet (List.mem_append_right _ hline)
    have hnot : popped ∉ line.instruction.registers := fun hr =>
      h.popped_not_mem.2.2 (List.mem_flatMap.2 ⟨line, hline, hr⟩)
    have hnot' : pushed ∉ line.instruction.registers := fun hr =>
      h.pushed_not_mem_parts.1 (List.mem_flatMap.2 ⟨line, hline, hr⟩)
    -- The register that was pushed is free again, so renaming keeps registers apart.
    have hdead : pushed ∉ live f.rest := by
      intro hlive
      refine h.pushed_not_mem_rest (mentioned_subset_of_suffix ?_ (mem_mentioned_of_mem_live hlive))
      obtain ⟨passed, rfl⟩ := hl
      exact ⟨passed, by rw [hrest, ← List.append_assoc]⟩
    have horder := hf.orderly
    rw [hrest] at horder
    have hlive : ∀ x ∈ live f.rest, ((f.write popped v).registers.find? x).isSome := by
      intro x hx
      rw [Frame.write, Table.find?_insert]
      split
      · rfl
      · exact (hf.tracks x).2 hx
    have hinj : Set.InjOn (named popped pushed)
        {x | ((f.write popped v).registers.find? x).isSome ∨ line.instruction.born? = some x} := by
      refine (named_injOn popped pushed).mono ?_
      rintro x (hx | hx) rfl
      · rw [Frame.write, Table.find?_insert_of_ne h.pushed_not_mem_parts.2.1] at hx
        exact hdead ((hf.tracks x).1 hx)
      · exact hnot' (Instruction.mem_registers_of_born? hx)
    have hsame := sameAction_of_quiet tw (f := f.write popped v) hbody hbody' hc hrest hrest' hquiet
      (fun r hr => named_of_ne fun hrp => hnot (hrp ▸ hr)) horder.2.1 hlive hinj
    have hwrite := act_write_of_quiet hrest hquiet hnot v []
    rcases act_of_quiet hrest hquiet with ⟨f', hf', hbf, hrf, -⟩ | ⟨e, he⟩
    · rw [hf'] at hwrite
      rcases hsame with ⟨fp, g', hact, hact', -, -, hbg, hrg, hc', -⟩ | ⟨e, hact, -⟩
      · cases (hact []).symm.trans hwrite
        exact .inl ⟨f', g', hf' _, hact' _, hbf.trans hbody, hbg, lines,
          (List.suffix_cons line lines).trans hl, hrf, hrg, hc'⟩
      · cases (hact []).symm.trans hwrite
    · rw [he] at hwrite
      rcases hsame with ⟨fp, g', hact, -⟩ | ⟨e', hact, hact'⟩
      · cases (hact []).symm.trans hwrite
      · cases (hact []).symm.trans hwrite
        exact .inr (.inl ⟨e, he _, hact' _⟩)

end Between

theorem alike : b.Alike
    { b with lines := (before ++ (first ++ second ++ after)).map (Line.rename popped pushed) } := by
  have hrep := h.replacement
  generalize ({ b with
    lines := (before ++ (first ++ second ++ after)).map (Line.rename popped pushed) } : Body) = b'
    at hrep ⊢
  refine hrep.alike (fun f g kept => f.body = b ∧ g.body = b' ∧ ∃ v, kept = [v] ∧
    (BeforeKill first second after pushed popped f g v ∨
      BeforePop second after pushed popped f g v)) ?_ ?_
  · intro f g hf hbody hbody' hrest hrest' hc stack
    obtain ⟨v, hv⟩ : ∃ v, f.registers.find? pushed = some v := by
      refine hf.exists_value ?_
      have hlive : pushed ∈ live (⟨[], .push pushed⟩ :: (first ++ ⟨[], .kill pushed⟩ ::
          (second ++ ⟨[], .pop popped⟩ :: after))) := h.tail_orderly.2.1.1
      rw [hrest]
      simpa using hlive
    have hact : act f ([] ++ stack) = .go { f with rest := first ++ ⟨[], .kill pushed⟩ ::
        (second ++ ⟨[], .pop popped⟩ :: after) } (v :: stack) := by
      simp [act, hrest, Instruction.act, Frame.reading, hv]
    rw [hact]
    obtain ⟨hlabel, harguments, hslots, hbase, hvalue, hsource⟩ := hc
    refine .inl ⟨[v], rfl, .inr ⟨hbody, hbody', v, rfl, .inl ⟨first, List.suffix_refl _, rfl, ?_, hv,
      hlabel, harguments, hslots, hbase, hvalue, hsource⟩⟩, ?_⟩
    · rw [hrest', List.append_assoc]
    · simp [hrest]
  · rintro f g kept hf ⟨hbody, hbody', v, rfl, hm | hm⟩ stack
    · rcases BeforeKill.step h hrep.twins hf hbody hbody' hm stack with
        ⟨f', g', hact, hact', hbf, hbg, hm'⟩ | ⟨e, hact, hact'⟩ | ⟨f', hact, hbf, hlen, hm'⟩
      · rw [List.singleton_append, hact]
        exact .inr ⟨g', [v], stack, hact', rfl, .inr ⟨hbf, hbg, v, rfl, .inl hm'⟩⟩
      · rw [List.singleton_append, hact]
        exact hact'
      · rw [List.singleton_append, hact]
        exact .inl ⟨[v], rfl, .inr ⟨hbf, hbody', v, rfl, .inr hm'⟩, hlen⟩
    · rcases BeforePop.step h hrep.twins hf hbody hbody' hm stack with
        ⟨f', g', hact, hact', hbf, hbg, hm'⟩ | ⟨e, hact, hact'⟩ |
        ⟨f', hact, hbf, hrest, hrest', hlen, hc⟩
      · rw [List.singleton_append, hact]
        exact .inr ⟨g', [v], stack, hact', rfl, .inr ⟨hbf, hbg, v, rfl, .inr hm'⟩⟩
      · rw [List.singleton_append, hact]
        exact hact'
      · rw [List.singleton_append, hact]
        refine .inl ⟨[], rfl, .inl ⟨rfl, hbf, hbody', ?_, hc⟩, hlen⟩
        rw [hrest, hrest']
        exact .after (List.suffix_refl _)

end Shadowed

end WordLang.Linear
