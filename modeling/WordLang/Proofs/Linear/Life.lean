import Mathlib.Data.Finset.Basic
import WordLang.Proofs.Linear.Action

/-!
# Lives of registers

A register lives from the line that first writes it to the line that kills it. Which registers
are live before a list of lines can be read off the lines, from the last one to the first. Lines
are orderly if every life is a piece of straight-line code: no register is live at a label, a
jump or the end of an activation, a branch is followed by the end of the register it tests, and
nothing but the callee is live at a call.

## Main definitions

* `Linear.live`, `Linear.born`: the registers live before lines, and those whose life they start
* `Linear.Orderly`, `Linear.Body.Orderly`: lines whose lives are straight-line code
* `Linear.Frame.Healthy`: an activation that holds values for exactly the live registers

## Main results

* `Linear.mem_registers`: a register that is mentioned is a slot, live or born
* `Linear.Frame.Healthy.act`: lines keep activations healthy
-/

namespace WordLang.Linear

variable {slots : Nat} {r : RegisterId} {f : Frame} {lines rest : List Line} {i : Instruction}
  {label : LabelId}

namespace Instruction

/-- The register whose life an instruction starts. -/
def born? : Instruction → Option RegisterId
  | .moveInt r _ => some r
  | .moveString r _ => some r
  | .moveFunction r _ => some r
  | .pop r => some r
  | .load r _ => some r
  | _ => none

def liveBefore (i : Instruction) (after : Finset RegisterId) : Finset RegisterId :=
  match i with
  | .kill r => insert r after
  | .moveInt r _ => after.erase r
  | .moveString r _ => after.erase r
  | .moveFunction r _ => after.erase r
  | .pop r => after.erase r
  | .load r _ => after.erase r
  | _ => after

theorem mem_liveBefore {after : Finset RegisterId} :
    r ∈ i.liveBefore after ↔ i = .kill r ∨ r ∈ after ∧ i.born? ≠ some r := by
  cases i <;> simp [liveBefore, born?, and_comm, eq_comm]

end Instruction

/-- The registers whose lives start in lines, first to last. -/
def born (lines : List Line) : List RegisterId := lines.filterMap fun line => line.instruction.born?

/-- The registers that are live before lines. -/
def live : List Line → Finset RegisterId
  | [] => ∅
  | line :: rest => line.instruction.liveBefore (live rest)

@[simp] theorem live_nil : live [] = ∅ := rfl

theorem live_cons (line : Line) (rest : List Line) :
    live (line :: rest) = line.instruction.liveBefore (live rest) := rfl

@[simp] theorem born_nil : born [] = [] := rfl

@[simp] theorem born_append (lines rest : List Line) :
    born (lines ++ rest) = born lines ++ born rest := List.filterMap_append

theorem born_cons (line : Line) (rest : List Line) :
    born (line :: rest) = line.instruction.born?.toList ++ born rest := by
  simp only [born, List.filterMap_cons]
  cases line.instruction.born? <;> rfl

theorem mem_live_append (lines : List Line) (h : r ∈ live rest) :
    r ∈ live (lines ++ rest) ∨ r ∈ born lines := by
  induction lines with
  | nil => exact .inl h
  | cons line lines ih =>
    rw [List.cons_append, live_cons, born_cons, Instruction.mem_liveBefore, List.mem_append]
    rcases ih with h | h
    · by_cases hb : line.instruction.born? = some r
      · exact .inr (.inl (by simp [hb]))
      · exact .inl (.inr ⟨h, hb⟩)
    · exact .inr (.inr h)

/-- A register that is killed before anything else mentions it. -/
def OnlyKilled (r : RegisterId) : List Line → Prop
  | [] => False
  | line :: rest =>
    line.instruction = .kill r ∨ r ∉ line.instruction.registers ∧ OnlyKilled r rest

/-- Lines that can only be reached by a jump. -/
def Detached : List Line → Prop
  | [] => True
  | line :: _ => line.labels ≠ []

/-- Whether an instruction respects the lives of registers, where registers below `slots` are the
slots and `rest` are the lines after it. -/
def Instruction.Orderly (slots : Nat) (i : Instruction) (rest : List Line) : Prop :=
  match i with
  | .nop => True
  | .allocParam r _ => r < slots
  | .allocLocal r _ => r < slots
  | .moveInt r _ => slots ≤ r ∧ r ∈ live rest
  | .moveString r _ => slots ≤ r ∧ r ∈ live rest
  | .moveFunction r _ => slots ≤ r ∧ r ∈ live rest
  | .push r => r ∈ live rest ∧ OnlyKilled r rest
  | .pop r => slots ≤ r ∧ r ∈ live rest
  | .load r slot => slots ≤ r ∧ r ∈ live rest ∧ slot < slots
  | .storeRegister slot r => slot < slots ∧ r ∈ live rest
  | .storeImmediate slot _ => slot < slots
  | .callRegister r _ => live rest = {r} ∧ OnlyKilled r rest
  | .callImmediate _ _ => live rest = ∅
  | .jump _ => live rest = ∅ ∧ Detached rest
  | .jumpIfNonZero r _ =>
    live rest = {r} ∧ ∃ target rest', rest = ⟨[], .kill r⟩ :: ⟨[], .jump target⟩ :: rest'
  | .return => live rest = ∅ ∧ Detached rest
  | .binary _ destination source => destination ∈ live rest ∧ source ∈ live rest
  | .kill r => slots ≤ r ∧ r ∉ live rest

theorem Instruction.Orderly.mem_live_of_born?
    (h : i.Orderly slots rest) (hr : i.born? = some r) : r ∈ live rest := by
  cases i <;> cases hr
  case load => exact h.2.1
  all_goals exact h.2

/-- Lines in which every life is a piece of straight-line code. -/
def Orderly (slots : Nat) : List Line → Prop
  | [] => True
  | line :: rest =>
    (line.labels ≠ [] → live (line :: rest) = ∅) ∧ line.instruction.Orderly slots rest ∧
      Orderly slots rest

theorem Orderly.of_append {lines rest : List Line}
    (h : Orderly slots (lines ++ rest)) : Orderly slots rest := by
  induction lines with
  | nil => exact h
  | cons line lines ih => exact ih h.2.2

theorem Orderly.of_suffix {lines rest : List Line} (h : Orderly slots lines)
    (hs : rest <:+ lines) : Orderly slots rest := by
  obtain ⟨passed, rfl⟩ := hs
  exact h.of_append

theorem Orderly.le_of_mem_live (h : Orderly slots lines) (hr : r ∈ live lines) : slots ≤ r := by
  induction lines with
  | nil => simp at hr
  | cons line rest ih =>
    rw [live_cons, Instruction.mem_liveBefore] at hr
    rcases hr with hk | ⟨hr, -⟩
    · have := h.2.1
      rw [hk] at this
      exact this.1
    · exact ih h.2.2 hr

theorem Orderly.le_of_mem_born (h : Orderly slots lines) (hr : r ∈ born lines) : slots ≤ r := by
  induction lines with
  | nil => simp at hr
  | cons line rest ih =>
    rw [born_cons, List.mem_append] at hr
    rcases hr with hr | hr
    · have hline := h.2.1
      cases hi : line.instruction <;> simp only [hi, Instruction.born?, Option.toList_some,
        Option.toList_none, List.mem_singleton, List.not_mem_nil] at hr <;> subst hr <;>
        rw [hi] at hline <;> exact hline.1
    · exact ih h.2.2 hr

theorem Instruction.Orderly.mem_registers (h : i.Orderly slots rest) (hr : r ∈ i.registers) :
    r < slots ∨ r ∈ i.liveBefore (live rest) ∨ i.born? = some r := by
  cases i <;> simp only [Instruction.Orderly, Instruction.registers, List.mem_cons,
    List.not_mem_nil, or_false, Instruction.liveBefore, Instruction.born?] at h hr ⊢ <;>
    first | (subst hr; simp_all) | (rcases hr with rfl | rfl <;> simp_all)

theorem Orderly.mem_registers (h : Orderly slots lines)
    {line : Line} (hl : line ∈ lines) (hr : r ∈ line.instruction.registers) :
    r < slots ∨ r ∈ live lines ∨ r ∈ born lines := by
  induction lines with
  | nil => simp at hl
  | cons first rest ih =>
    rw [live_cons, born_cons, List.mem_append, Option.mem_toList]
    rcases List.mem_cons.1 hl with rfl | hl
    · rcases h.2.1.mem_registers hr with hr | hr | hr
      · exact .inl hr
      · exact .inr (.inl hr)
      · exact .inr (.inr (.inl hr))
    · rcases ih h.2.2 hl with hr | hr | hr
      · exact .inl hr
      · by_cases hb : first.instruction.born? = some r
        · exact .inr (.inr (.inl hb))
        · exact .inr (.inl (Instruction.mem_liveBefore.2 (.inr ⟨hr, hb⟩)))
      · exact .inr (.inr (.inr hr))

/-- Slots are declared before all other lines. -/
def SlotsFirst (lines : List Line) : Prop :=
  lines.Pairwise fun line later => later.instruction.slot?.isSome → line.instruction.slot?.isSome

/-- A body all of whose lines are orderly: no register has two lives, and every slot is
declared. -/
structure Body.Orderly (b : Body) (slots : Nat) : Prop where
  lines : Linear.Orderly slots b.lines
  start : live b.lines = ∅
  distinct : (born b.lines).Nodup
  slotsFirst : SlotsFirst b.lines
  declared : ∀ r < slots, ∃ line ∈ b.lines, line.instruction.slot? = some r
  result : b.result < slots

/-! ## Activations -/

theorem seek_eq_some {lines found : List Line} (h : seek label lines = some found) :
    found <:+ lines ∧ ∃ line rest, found = line :: rest ∧ label ∈ line.labels := by
  induction lines with
  | nil => simp [seek] at h
  | cons line rest ih =>
    simp only [seek] at h
    split at h
    · next hs =>
      cases h
      obtain ⟨hsuffix, hhead⟩ := ih hs
      exact ⟨hsuffix.trans (List.suffix_cons line rest), hhead⟩
    · split at h
      · next hl =>
        cases h
        exact ⟨List.suffix_refl _, line, rest, rfl, hl⟩
      · cases h

theorem Orderly.live_seek {lines found : List Line}
    (ho : Orderly slots lines) (h : seek label lines = some found) : live found = ∅ := by
  obtain ⟨hsuffix, line, rest, rfl, hl⟩ := seek_eq_some h
  exact (ho.of_suffix hsuffix).1 (List.ne_nil_of_mem hl)

/-- An activation that holds values for exactly the registers that are live. -/
def Frame.Tracks (f : Frame) : Prop :=
  ∀ r, (f.registers.find? r).isSome ↔ r ∈ live f.rest

structure Frame.Healthy (f : Frame) (slots : Nat) : Prop where
  body : f.body.Orderly slots
  place : f.rest <:+ f.body.lines
  tracks : f.Tracks

theorem Frame.Healthy.orderly (h : f.Healthy slots) : Linear.Orderly slots f.rest :=
  h.body.lines.of_suffix h.place

theorem Frame.Healthy.exists_value (h : f.Healthy slots)
    (hr : r ∈ live f.rest) : ∃ value, f.registers.find? r = some value :=
  Option.isSome_iff_exists.1 ((h.tracks r).2 hr)

theorem Frame.Healthy.find?_eq_none (h : f.Healthy slots)
    (hr : r ∉ live f.rest) : f.registers.find? r = none := by
  rw [← Option.not_isSome_iff_eq_none, h.tracks]
  exact hr

theorem Frame.Healthy.registers_eq_empty (h : f.Healthy slots)
    (hl : live f.rest = ∅) : f.registers = Table.empty :=
  Table.eq_empty_of_find? fun r => h.find?_eq_none (by simp [hl])

section Writing

variable {registers : Table Int64} {r : RegisterId} {after : Finset RegisterId}

theorem isSome_insert_iff (hr : r ∈ after) (value : Int64)
    (h : ∀ x, (registers.find? x).isSome ↔ x ∈ after.erase r) (x : RegisterId) :
    ((registers.insert r value).find? x).isSome ↔ x ∈ after := by
  rw [Table.find?_insert]
  split
  · next hx => simp [hx, hr]
  · next hx => rw [h, Finset.mem_erase, and_iff_right hx]

theorem isSome_update_iff (hr : r ∈ after) (value : Int64)
    (h : ∀ x, (registers.find? x).isSome ↔ x ∈ after) (x : RegisterId) :
    ((registers.insert r value).find? x).isSome ↔ x ∈ after := by
  rw [Table.find?_insert]
  split
  · next hx => simp [hx, hr]
  · exact h x

theorem isSome_erase_iff (hr : r ∉ after)
    (h : ∀ x, (registers.find? x).isSome ↔ x ∈ insert r after) (x : RegisterId) :
    ((registers.erase r).find? x).isSome ↔ x ∈ after := by
  rw [Table.find?_erase]
  split
  · next hx => simp [hx, hr]
  · next hx => rw [h, Finset.mem_insert, or_iff_right hx]

end Writing

section Leaves

variable {f g : Frame} {P : Frame → Prop} {r : RegisterId} {k : Int64 → Action} {slots : Nat}
  {stack stack' : List Int64}

theorem Frame.leaves_reading (h : ∀ value, (k value).Leaves P) : (f.reading r k).Leaves P := by
  unfold Frame.reading
  split
  · exact h _
  · trivial

theorem Frame.leaves_readingSlot (h : ∀ value, (k value).Leaves P) :
    (f.readingSlot r k).Leaves P := by
  unfold Frame.readingSlot
  split
  · exact h _
  · trivial

/-- The activation after a jump is healthy if nothing was live before it. -/
theorem Frame.leaves_goto (hbody : f.body.Orderly slots)
    (hempty : ∀ r, f.registers.find? r = none) : (f.goto label stack).Leaves (·.Healthy slots) := by
  unfold Frame.goto
  split
  · next lines hs =>
    refine ⟨hbody, (seek_eq_some hs).1, fun r => ?_⟩
    rw [hempty r, hbody.lines.live_seek hs]
    simp
  · trivial

/-- A line keeps an activation healthy. -/
theorem Frame.Healthy.act (hf : f.Healthy slots) (stack : List Int64) :
    (act f stack).Leaves (·.Healthy slots) := by
  obtain ⟨label, body, lines, arguments, registers, fslots, base⟩ := f
  have hplace : lines <:+ body.lines := hf.place
  cases lines with
  | nil => trivial
  | cons line rest =>
    have hrest : rest <:+ body.lines := (List.suffix_cons line rest).trans hplace
    have horder := hf.orderly.2.1
    have htracks : ∀ r, (registers.find? r).isSome ↔ r ∈ line.instruction.liveBefore (live rest) :=
      hf.tracks
    simp only [Linear.act]
    -- An instruction changes the registers as it changes what is live.
    cases hi : line.instruction <;>
      simp only [hi, Instruction.act, Instruction.Orderly, Instruction.liveBefore] at horder htracks ⊢
    case nop | allocLocal | storeImmediate | callImmediate => exact ⟨hf.body, hrest, htracks⟩
    case moveInt | moveString | moveFunction =>
      exact ⟨hf.body, hrest, isSome_insert_iff horder.2 _ htracks⟩
    case push | storeRegister => exact leaves_reading fun _ => ⟨hf.body, hrest, htracks⟩
    case allocParam =>
      split
      · trivial
      · exact ⟨hf.body, hrest, htracks⟩
    case pop =>
      split
      · trivial
      · exact ⟨hf.body, hrest, isSome_insert_iff horder.2 _ htracks⟩
    case load =>
      exact leaves_readingSlot fun _ => ⟨hf.body, hrest, isSome_insert_iff horder.2.1 _ htracks⟩
    case callRegister =>
      refine leaves_reading fun _ => ?_
      split
      · trivial
      · exact ⟨hf.body, hrest, htracks⟩
    case jump =>
      refine leaves_goto hf.body fun r => ?_
      rw [← Option.not_isSome_iff_eq_none, htracks, horder.1]
      simp
    case jumpIfNonZero register target =>
      refine leaves_reading fun _ => ?_
      split
      · -- The register that was tested ends here although its `kill` is jumped over.
        obtain ⟨hlive, target', rest', rfl⟩ := horder
        simp only [Frame.killAfterBranch, if_pos]
        refine leaves_goto hf.body fun r => ?_
        rw [Table.find?_erase]
        split
        · rfl
        · next hr => rw [← Option.not_isSome_iff_eq_none, htracks, hlive]; simpa using hr
      · exact ⟨hf.body, hrest, htracks⟩
    case «return» =>
      split
      · trivial
      · split
        · trivial
        · exact leaves_readingSlot fun _ => trivial
    case binary =>
      refine leaves_reading fun _ => leaves_reading fun _ => ?_
      split
      · exact ⟨hf.body, hrest, isSome_update_iff horder.1 _ htracks⟩
      · trivial
    case kill =>
      split
      · trivial
      · exact ⟨hf.body, hrest, isSome_erase_iff horder.2 htracks⟩

end Leaves

end WordLang.Linear
