import WordLang.Proofs.Linear.Peephole
import WordLang.Proofs.Linear.Shape

/-!
# Lowered bodies are regular

The code of a statement starts the lives of fresh registers and ends them all, so nothing is live
between statements and at most two registers are live at once. Lowered bodies are therefore regular
and narrow.

## Main definitions

* `Linear.Narrow`: lines at which few registers are live

## Main results

* `Linear.BodyCode.regular`, `Linear.BodyCode.narrow`: lowered bodies are regular and narrow
-/

namespace WordLang.Linear

variable {c : LowerContext} {lines rest : List Line} {t : Flow.Terminator}
  {blocks : List Flow.Block} {width slots : Nat}

/-- Lines at each of which at most `width` registers are live. -/
def Narrow (width : Nat) : List Line → Prop
  | [] => True
  | line :: rest => (live (line :: rest)).card ≤ width ∧ Narrow width rest

theorem Narrow.card_le (h : Narrow width lines) : (live lines).card ≤ width := by
  cases lines with
  | nil => exact Nat.zero_le width
  | cons line rest => exact h.1

theorem Narrow.of_append (h : Narrow width (lines ++ rest)) : Narrow width rest := by
  induction lines with
  | nil => exact h
  | cons line lines ih => exact ih h.2

theorem Narrow.mono {width width' : Nat} (hle : width ≤ width')
    (h : Narrow width lines) : Narrow width' lines := by
  induction lines with
  | nil => trivial
  | cons line rest ih => exact ⟨h.1.trans hle, ih h.2⟩

/-- Instructions as lines without labels. -/
def plain (code : List Instruction) : List Line := code.map fun i => ⟨[], i⟩

/-- Lines as lowering leaves them: nothing is live before them, and they declare no slots. -/
structure Settled (slots functions : Nat) (lines : List Line) : Prop where
  orderly : Orderly slots lines
  live_eq : live lines = ∅
  narrow : Narrow 2 lines
  refers : RefersBelow functions lines
  noSlots : ∀ line ∈ lines, line.instruction.slot? = none

theorem Settled.nil (slots functions : Nat) : Settled slots functions [] where
  orderly := trivial
  live_eq := rfl
  narrow := trivial
  refers _ h := absurd h List.not_mem_nil
  noSlots _ h := absurd h List.not_mem_nil

theorem Settled.labelled {slots functions : Nat} {code : List Instruction} {rest : List Line}
    (h : Settled slots functions (plain code ++ rest)) (labels : List LabelId) :
    Settled slots functions (Lower.labelled labels code ++ rest) := by
  cases code with
  | nil => exact h
  | cons i code =>
    have hmem : ∀ line ∈ Lower.labelled labels (i :: code) ++ rest,
        ∃ line' ∈ plain (i :: code) ++ rest, line'.instruction = line.instruction := by
      intro line hl
      rcases List.mem_cons.1 hl with rfl | hl
      · exact ⟨⟨[], i⟩, List.mem_cons_self, rfl⟩
      · exact ⟨line, List.mem_cons_of_mem _ hl, rfl⟩
    refine ⟨⟨fun _ => h.live_eq, h.orderly.2⟩, h.live_eq, h.narrow, ?_, ?_⟩
    · intro line hl id hid
      obtain ⟨line', hl', heq⟩ := hmem line hl
      exact h.refers line' hl' id (heq ▸ hid)
    · intro line hl
      obtain ⟨line', hl', heq⟩ := hmem line hl
      rw [← heq]
      exact h.noSlots line' hl'

section

variable {functions : List StmtId} {f : Flow.Function} {r r' : RegisterId}
  {code : List Instruction} {rest : List Line}

/-! ## Statements -/

namespace StatementCode

variable {c : LowerContext} {s : Flow.Statement}

theorem live_eq (h : StatementCode c s r code r') (hrest : live rest = ∅) :
    live (plain code ++ rest) = ∅ := by
  cases h
  case binary =>
    simp only [plain, List.map_cons, List.map_nil, List.cons_append, List.nil_append, live_cons,
      Instruction.liveBefore, hrest]
    ext x
    simp
    tauto
  all_goals simp [plain, live_cons, Instruction.liveBefore, hrest]

theorem narrow (h : StatementCode c s r code r') (hlive : live rest = ∅) (hrest : Narrow 2 rest) :
    Narrow 2 (plain code ++ rest) := by
  have hall := h.live_eq hlive
  cases h
  case binary =>
    simp only [plain, List.map_cons, List.map_nil, List.cons_append, List.nil_append] at hall ⊢
    refine ⟨by simp [hall], ?_⟩
    simp [Narrow, live_cons, Instruction.liveBefore, hlive, hrest]
  all_goals simp [plain, Narrow, live_cons, Instruction.liveBefore, hlive, hrest]

theorem born_eq (h : StatementCode c s r code r') :
    r ≤ r' ∧ born (plain code) = List.range' r (r' - r) := by
  cases h <;> simp [plain, born, Instruction.born?, List.range']

theorem noSlots (h : StatementCode c s r code r') : ∀ i ∈ code, i.slot? = none := by
  cases h <;> simp [Instruction.slot?]

theorem refers (h : StatementCode (contextOf functions f) s r code r') :
    ∀ i ∈ code, ∀ id, i.function? = some id → id < min functions.length idCount := by
  cases h
  case function decl id hid =>
    have hlt : idOfNat id < min functions.length idCount :=
      lt_min (Nat.lt_of_le_of_lt (Nat.mod_le id idCount) (lt_length_of_idxOf? hid))
        (Nat.mod_lt id (by decide))
    intro i hi id' hid'
    simp only [List.mem_cons, List.not_mem_nil, or_false] at hi
    rcases hi with rfl | rfl | rfl <;> cases hid'
    exact hlt
  all_goals simp [Instruction.function?]

theorem orderly (h : StatementCode (contextOf functions f) s r code r') (hr : f.slotCount ≤ r)
    (hlive : live rest = ∅) (hrest : Orderly f.slotCount rest) :
    Orderly f.slotCount (plain code ++ rest) := by
  cases h
  case load cell slot hslot =>
    have hlt := slot_lt hslot
    simp [plain, Orderly, Instruction.Orderly, live_cons, Instruction.liveBefore, OnlyKilled, hlive,
      hrest, hr, hlt]
  case store cell slot hslot =>
    have hlt := slot_lt hslot
    simp [plain, Orderly, Instruction.Orderly, live_cons, Instruction.liveBefore, hlive, hrest, hr,
      hlt]
  case binary =>
    have hsucc : f.slotCount ≤ r + 1 := Nat.le_succ_of_le hr
    simp [plain, Orderly, Instruction.Orderly, live_cons, Instruction.liveBefore, OnlyKilled,
      Instruction.registers, hlive, hrest, hr, hsucc]
  all_goals
    simp [plain, Orderly, Instruction.Orderly, live_cons, Instruction.liveBefore, OnlyKilled, hlive,
      hrest, hr]

theorem settled (h : StatementCode (contextOf functions f) s r code r') (hr : f.slotCount ≤ r)
    (hrest : Settled f.slotCount (min functions.length idCount) rest) :
    Settled f.slotCount (min functions.length idCount) (plain code ++ rest) where
  orderly := h.orderly hr hrest.live_eq hrest.orderly
  live_eq := h.live_eq hrest.live_eq
  narrow := h.narrow hrest.live_eq hrest.narrow
  refers := List.forall_mem_append.2 ⟨List.forall_mem_map.2 h.refers, hrest.refers⟩
  noSlots := List.forall_mem_append.2 ⟨List.forall_mem_map.2 h.noSlots, hrest.noSlots⟩

end StatementCode

/-! ## Blocks -/

theorem TerminatorCode.settled {functions slots : Nat}
    (h : TerminatorCode c t r code r') (hr : slots ≤ r)
    (hrest : Settled slots functions rest) (hdetached : Detached rest) :
    Settled slots functions (plain code ++ rest) := by
  obtain ⟨ho, hl, hn, hf, hs⟩ := hrest
  refine ⟨?_, ?_, ?_, ?_, ?_⟩
  · cases h <;> simp [plain, Orderly, Instruction.Orderly, live_cons, Instruction.liveBefore, hl, ho,
      hr, hdetached]
  · cases h <;> simp [plain, live_cons, Instruction.liveBefore, hl]
  · cases h <;> simp [plain, Narrow, live_cons, Instruction.liveBefore, hl, hn]
  · cases h <;> simpa [plain, RefersBelow, Instruction.function?] using hf
  · cases h <;> simpa [plain, Instruction.slot?] using hs

theorem TerminatorCode.born_eq (h : TerminatorCode c t r code r') :
    r ≤ r' ∧ born (plain code) = List.range' r (r' - r) := by
  cases h <;> simp [plain, born, Instruction.born?]

theorem plain_append (code code' : List Instruction) :
    plain (code ++ code') = plain code ++ plain code' := List.map_append

theorem Code.born_eq {ss : List Flow.Statement}
    (h : Code c ss t r code r') : r ≤ r' ∧ born (plain code) = List.range' r (r' - r) := by
  induction h with
  | nil h => exact h.born_eq
  | cons hs _ ih =>
    obtain ⟨hle, hborn⟩ := hs.born_eq
    obtain ⟨hle', hborn'⟩ := ih
    refine ⟨hle.trans hle', ?_⟩
    rw [plain_append, born_append, hborn, hborn', range'_append_sub hle hle']

theorem Code.settled {ss : List Flow.Statement}
    (h : Code (contextOf functions f) ss t r code r') (hr : f.slotCount ≤ r)
    (hrest : Settled f.slotCount (min functions.length idCount) rest) (hdetached : Detached rest) :
    Settled f.slotCount (min functions.length idCount) (plain code ++ rest) := by
  induction h with
  | nil h => exact h.settled hr hrest hdetached
  | cons hs _ ih =>
    rw [plain_append, List.append_assoc]
    exact hs.settled hr (ih (hr.trans hs.born_eq.1))

theorem BlocksCode.detached (h : BlocksCode c blocks r rest r') : Detached rest := by
  cases h with
  | nil => trivial
  | @cons _ _ label code _ _ _ _ _ hcode _ =>
    cases code with
    | nil => exact absurd rfl hcode.ne_nil
    | cons i code => exact List.cons_ne_nil _ _

theorem BlocksCode.settled
    (h : BlocksCode (contextOf functions f) blocks r rest r') (hr : f.slotCount ≤ r) :
    Settled f.slotCount (min functions.length idCount) rest := by
  induction h with
  | nil => exact .nil _ _
  | cons _ hcode hblocks ih =>
    exact (hcode.settled hr (ih (hr.trans hcode.born_eq.1)) hblocks.detached).labelled _

theorem born_labelled (labels : List LabelId) (code : List Instruction) :
    born (Lower.labelled labels code) = born (plain code) := by
  cases code <;> rfl

theorem BlocksCode.born_eq
    (h : BlocksCode c blocks r rest r') : r ≤ r' ∧ born rest = List.range' r (r' - r) := by
  induction h with
  | nil r => simp
  | cons _ hcode _ ih =>
    obtain ⟨hle, hborn⟩ := hcode.born_eq
    obtain ⟨hle', hborn'⟩ := ih
    refine ⟨hle.trans hle', ?_⟩
    rw [born_append, born_labelled, hborn, hborn', range'_append_sub hle hle']

end

/-! ## Bodies -/

def Line.DeclaresBelow (slots : Nat) (line : Line) : Prop :=
  line.labels = [] ∧ ∃ r < slots, ∃ size,
    line.instruction = .allocParam r size ∨ line.instruction = .allocLocal r size

theorem declaresBelow_of_mem_slotDeclarations {f : Flow.Function} {line : Line}
    (h : line ∈ slotDeclarations f) :
    line.DeclaresBelow f.slotCount := by
  obtain ⟨r, hr, rfl⟩ := List.mem_map.1 h
  refine ⟨rfl, r, List.mem_range.1 hr, slotSize, ?_⟩
  show (if _ then _ else _) = _ ∨ (if _ then _ else _) = _
  split
  · exact .inl rfl
  · exact .inr rfl

theorem mem_slotDeclarations {f : Flow.Function} {r : RegisterId} (h : r < f.slotCount) :
    ∃ line ∈ slotDeclarations f, line.instruction.slot? = some r := by
  refine ⟨_, List.mem_map_of_mem (List.mem_range.2 h), ?_⟩
  show (if _ then _ else _ : Instruction).slot? = _
  split <;> rfl

theorem Line.DeclaresBelow.isSome_slot? {line : Line} (h : line.DeclaresBelow slots) :
    line.instruction.slot?.isSome := by
  obtain ⟨-, r, -, size, hi | hi⟩ := h <;> rw [hi] <;> rfl

theorem live_declares (h : ∀ line ∈ lines, line.instruction.slot?.isSome) :
    live (lines ++ rest) = live rest := by
  induction lines with
  | nil => rfl
  | cons line lines ih =>
    have hline := h line List.mem_cons_self
    rw [List.cons_append, live_cons, ih fun l hl => h l (List.mem_cons_of_mem _ hl)]
    cases hi : line.instruction <;> rw [hi] at hline <;> first | rfl | cases hline

theorem orderly_declares
    (h : ∀ line ∈ lines, line.DeclaresBelow slots) (hrest : Orderly slots rest) :
    Orderly slots (lines ++ rest) := by
  induction lines with
  | nil => exact hrest
  | cons line lines ih =>
    obtain ⟨hlabels, r, hr, size, hi⟩ := h line List.mem_cons_self
    refine ⟨fun hne => absurd hlabels hne, ?_, ih fun l hl => h l (List.mem_cons_of_mem _ hl)⟩
    rcases hi with hi | hi <;> rw [hi] <;> exact hr

theorem narrow_declares (h : ∀ line ∈ lines, line.instruction.slot?.isSome) (hlive : live rest = ∅)
    (hrest : Narrow width rest) : Narrow width (lines ++ rest) := by
  induction lines with
  | nil => exact hrest
  | cons line lines ih =>
    have hempty : live (line :: lines ++ rest) = ∅ := (live_declares h).trans hlive
    refine ⟨?_, ih fun l hl => h l (List.mem_cons_of_mem _ hl)⟩
    exact (congrArg Finset.card hempty).trans_le (Nat.zero_le _)

theorem born_declares (h : ∀ line ∈ lines, line.DeclaresBelow slots) : born lines = [] := by
  refine List.filterMap_eq_nil_iff.2 fun line hl => ?_
  obtain ⟨-, r, -, size, hi | hi⟩ := h line hl <;> rw [hi] <;> rfl

namespace BodyCode

variable {functions : List StmtId} {f : Flow.Function} {b : Body}

/-- A lowered body is orderly and refers to functions that exist and that identifiers can name. -/
theorem regular_min (h : BodyCode functions f b) :
    b.Regular f.slotCount (min functions.length idCount) := by
  obtain ⟨lines, r, hlines, hblocks⟩ := h.lines
  have hsettled := hblocks.settled le_rfl
  have hslots : ∀ line ∈ slotDeclarations f, line.DeclaresBelow f.slotCount :=
    fun _ => declaresBelow_of_mem_slotDeclarations
  refine ⟨⟨?_, ?_, ?_, ?_, ?_, slot_lt h.result⟩, ?_⟩ <;> rw [hlines]
  · exact orderly_declares hslots hsettled.orderly
  · rw [live_declares fun line hl => (hslots line hl).isSome_slot?, hsettled.live_eq]
  · rw [born_append, born_declares hslots, List.nil_append, hblocks.born_eq.2]
    exact List.nodup_range'
  · -- Of two lines, only those of the head declare slots.
    refine List.pairwise_append.2 ⟨?_, ?_, ?_⟩
    · refine List.pairwise_of_forall_mem_list fun line hl later _ _ => ?_
      exact (hslots line hl).isSome_slot?
    · refine List.pairwise_of_forall_mem_list fun line _ later hl hslot => ?_
      rw [hsettled.noSlots later hl] at hslot
      cases hslot
    · intro line _ later hl hslot
      rw [hsettled.noSlots later hl] at hslot
      cases hslot
  · intro r hr
    obtain ⟨line, hl, hslot⟩ := mem_slotDeclarations hr
    exact ⟨line, List.mem_append_left _ hl, hslot⟩
  · intro line hl id hid
    rcases List.mem_append.1 hl with hl | hl
    · obtain ⟨-, r, -, size, hi | hi⟩ := hslots line hl <;> rw [hi] at hid <;> cases hid
    · exact hsettled.refers line hl id hid

/-- A lowered body refers to existing functions. -/
theorem regular (h : BodyCode functions f b) : b.Regular f.slotCount functions.length :=
  h.regular_min.mono (min_le_left _ _)

/-- At most two registers are live at once in a lowered body. -/
theorem narrow (h : BodyCode functions f b) : Narrow 2 b.lines := by
  obtain ⟨lines, r, hlines, hblocks⟩ := h.lines
  have hsettled := hblocks.settled le_rfl
  rw [hlines]
  exact narrow_declares (fun _ hl => (declaresBelow_of_mem_slotDeclarations hl).isSome_slot?)
    hsettled.live_eq hsettled.narrow

end BodyCode

end WordLang.Linear
