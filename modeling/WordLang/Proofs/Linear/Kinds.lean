import WordLang.Proofs.Flow.Kinds
import WordLang.Proofs.Linear.Lowered

/-!
# Kinds of values in linear code

In the linear code of a kinded graph every register and every slot holds values of one kind. What
lines do to the stack is described by the kinds of the operands of the current activation: they find
what they pop, and nothing is on the stack at labels, jumps and returns. The rules that shorten code
keep this, because a register that takes the place of another one has its kind.

## Main definitions

* `Linear.Instruction.Kinded`, `Linear.LinesKinded`: what instructions and lines do to the kinds of
  operands
* `Linear.Body.Kinded`: bodies with slots, labels and lines as they should be
* `Linear.Program.Kinded`: programs all of whose bodies are regular and kinded

## Main results

* `Linear.BodyCode.kinded`: the code of a kinded graph is kinded
* `Linear.Program.Kinded.optimize`: so is shortened code
-/

namespace WordLang.Linear

variable {source target : RegisterId} {labels : List LabelId} {t : Flow.Terminator}
  {c : LowerContext}

/-! ## Lines -/

section

variable (γ : RegisterId → Kind) (sig : FunctionId → Option Signature)

/-- What an instruction does to the kinds of the operands of an activation, the top first. Registers
and slots have kinds, and functions have signatures. -/
inductive Instruction.Kinded : Instruction → List Kind → List Kind → Prop where
  | nop (ks : List Kind) : Kinded .nop ks ks
  | moveInt {r : RegisterId} (value : Int64) (ks : List Kind) :
    γ r = .word → Kinded (.moveInt r value) ks ks
  | moveString {r : RegisterId} (id : StringId) (ks : List Kind) :
    γ r = .any → Kinded (.moveString r id) ks ks
  | moveFunction {r : RegisterId} {id : FunctionId} (ks : List Kind) :
    γ r = .code id → Kinded (.moveFunction r id) ks ks
  | push (r : RegisterId) (ks : List Kind) : Kinded (.push r) ks (γ r :: ks)
  | pop (r : RegisterId) (ks : List Kind) : Kinded (.pop r) (γ r :: ks) ks
  | load {r slot : RegisterId} (ks : List Kind) : γ r = γ slot → Kinded (.load r slot) ks ks
  | storeRegister {slot r : RegisterId} (ks : List Kind) :
    γ slot = γ r → Kinded (.storeRegister slot r) ks ks
  | storeImmediate {slot : RegisterId} {value : Int64} (ks : List Kind) :
    γ slot = .word → isSmall value = true → Kinded (.storeImmediate slot value) ks ks
  | callRegister {r : RegisterId} {id : FunctionId} {s : Signature} (ks : List Kind) :
    γ r = .code id → sig id = some s →
    Kinded (.callRegister r s.params.length) (s.params.reverse ++ ks) (s.result :: ks)
  | callImmediate {id : FunctionId} {s : Signature} (ks : List Kind) : sig id = some s →
    Kinded (.callImmediate id s.params.length) (s.params.reverse ++ ks) (s.result :: ks)
  | jump (target : LabelId) : Kinded (.jump target) [] []
  | jumpIfNonZero {r : RegisterId} (target : LabelId) :
    γ r = .word → Kinded (.jumpIfNonZero r target) [] []
  | return : Kinded .return [] []
  | binary {destination source : RegisterId} (op : BinaryOp) (ks : List Kind) :
    γ destination = .word → γ source = .word → Kinded (.binary op destination source) ks ks
  | kill (r : RegisterId) (ks : List Kind) : Kinded (.kill r) ks ks

/-- What lines do to the kinds of operands. There are none where labels lead to. -/
inductive LinesKinded : List Line → List Kind → List Kind → Prop where
  | nil (ks : List Kind) : LinesKinded [] ks ks
  | cons {line : Line} {rest : List Line} {ks₁ ks₂ ks₃ : List Kind} :
    (line.labels ≠ [] → ks₁ = []) → line.instruction.Kinded γ sig ks₁ ks₂ →
    LinesKinded rest ks₂ ks₃ → LinesKinded (line :: rest) ks₁ ks₃

end

section

variable {γ γ' : RegisterId → Kind} {sig : FunctionId → Option Signature} {i : Instruction}
  {lines rest : List Line} {k : Kind} {ks ks₁ ks₂ ks₃ : List Kind}

theorem Instruction.Kinded.push_of_eq {r : RegisterId} (h : γ r = k) :
    (Instruction.push r).Kinded γ sig ks (k :: ks) := h ▸ .push r ks

theorem Instruction.Kinded.pop_of_eq {r : RegisterId} (h : γ r = k) :
    (Instruction.pop r).Kinded γ sig (k :: ks) ks := h ▸ .pop r ks

theorem Instruction.Kinded.mapRegisters {ρ : RegisterId → RegisterId} (h : i.Kinded γ sig ks₁ ks₂)
    (hγ : ∀ r ∈ i.registers, γ' (ρ r) = γ r) : (i.mapRegisters ρ).Kinded γ' sig ks₁ ks₂ := by
  cases h with
  | nop ks => exact .nop _
  | moveInt value ks hr => exact .moveInt value _ ((hγ _ (by simp [registers])).trans hr)
  | moveString id ks hr => exact .moveString id _ ((hγ _ (by simp [registers])).trans hr)
  | moveFunction ks hr => exact .moveFunction _ ((hγ _ (by simp [registers])).trans hr)
  | push r ks =>
    rw [← hγ r (by simp [registers])]
    exact .push _ _
  | pop r ks =>
    rw [← hγ r (by simp [registers])]
    exact .pop _ _
  | load ks hr =>
    exact .load _ ((hγ _ (by simp [registers])).trans (hr.trans (hγ _ (by simp [registers])).symm))
  | storeRegister ks hr =>
    exact .storeRegister _
      ((hγ _ (by simp [registers])).trans (hr.trans (hγ _ (by simp [registers])).symm))
  | storeImmediate ks hr hsmall =>
    exact .storeImmediate _ ((hγ _ (by simp [registers])).trans hr) hsmall
  | callRegister ks hr hs => exact .callRegister _ ((hγ _ (by simp [registers])).trans hr) hs
  | callImmediate ks hs => exact .callImmediate _ hs
  | jump target => exact .jump target
  | jumpIfNonZero target hr => exact .jumpIfNonZero target ((hγ _ (by simp [registers])).trans hr)
  | «return» => exact .return
  | binary op ks hd hs =>
    exact .binary op _ ((hγ _ (by simp [registers])).trans hd) ((hγ _ (by simp [registers])).trans hs)
  | kill r ks => exact .kill _ _

theorem Instruction.Kinded.congr (h : i.Kinded γ sig ks₁ ks₂) (hγ : ∀ r ∈ i.registers, γ' r = γ r) :
    i.Kinded γ' sig ks₁ ks₂ := by
  have := h.mapRegisters (ρ := fun r => r) hγ
  rwa [mapRegisters_eq_self fun _ _ => rfl] at this

/-- A register may be named by another one of its kind. -/
theorem Instruction.Kinded.rename (h : i.Kinded γ sig ks₁ ks₂) (hγ : γ source = γ target) :
    (i.rename source target).Kinded γ sig ks₁ ks₂ := by
  refine h.mapRegisters fun r _ => ?_
  split
  · next heq => rw [heq, hγ]
  · rfl

theorem Instruction.Kinded.without_top (h : i.Kinded γ sig (k :: ks) ks₂)
    (hi : i.pollutesStack = false) : ks₂ = k :: ks ∧ i.Kinded γ sig ks ks := by
  generalize hks : k :: ks = ks₁ at h
  cases h with
  | nop => exact ⟨rfl, .nop ks⟩
  | moveInt value _ hr => exact ⟨rfl, .moveInt value ks hr⟩
  | moveString id _ hr => exact ⟨rfl, .moveString id ks hr⟩
  | moveFunction _ hr => exact ⟨rfl, .moveFunction ks hr⟩
  | load _ hr => exact ⟨rfl, .load ks hr⟩
  | storeRegister _ hr => exact ⟨rfl, .storeRegister ks hr⟩
  | storeImmediate _ hr hsmall => exact ⟨rfl, .storeImmediate ks hr hsmall⟩
  | binary op _ hd hs => exact ⟨rfl, .binary op ks hd hs⟩
  | kill r _ => exact ⟨rfl, .kill r ks⟩
  | push | pop | callRegister | callImmediate => cases hi
  | jump | jumpIfNonZero | «return» => cases hks

namespace LinesKinded

theorem append (h : LinesKinded γ sig lines ks₁ ks₂) (h' : LinesKinded γ sig rest ks₂ ks₃) :
    LinesKinded γ sig (lines ++ rest) ks₁ ks₃ := by
  induction h with
  | nil => exact h'
  | cons hlabels hi _ ih => exact .cons hlabels hi (ih h')

theorem of_append (h : LinesKinded γ sig (lines ++ rest) ks₁ ks₃) :
    ∃ ks₂, LinesKinded γ sig lines ks₁ ks₂ ∧ LinesKinded γ sig rest ks₂ ks₃ := by
  induction lines generalizing ks₁ with
  | nil => exact ⟨ks₁, .nil ks₁, h⟩
  | cons line lines ih =>
    cases h with
    | cons hlabels hi hrest =>
      obtain ⟨ks₂, hlines, hrest⟩ := ih hrest
      exact ⟨ks₂, .cons hlabels hi hlines, hrest⟩

theorem congr (h : LinesKinded γ sig lines ks₁ ks₂)
    (hγ : ∀ line ∈ lines, ∀ r ∈ line.instruction.registers, γ' r = γ r) :
    LinesKinded γ' sig lines ks₁ ks₂ := by
  induction h with
  | nil ks => exact .nil ks
  | cons hlabels hi _ ih =>
    exact .cons hlabels (hi.congr (hγ _ List.mem_cons_self))
      (ih fun line hl => hγ line (List.mem_cons_of_mem _ hl))

theorem rename (h : LinesKinded γ sig lines ks₁ ks₂) (hγ : γ source = γ target) :
    LinesKinded γ sig (lines.map (Line.rename source target)) ks₁ ks₂ := by
  induction h with
  | nil ks => exact .nil ks
  | cons hlabels hi _ ih => exact .cons hlabels (hi.rename hγ) ih

theorem slot?_eq_none (h : LinesKinded γ sig lines ks₁ ks₂) :
    ∀ line ∈ lines, line.instruction.slot? = none := by
  induction h with
  | nil => simp
  | cons _ hi _ ih =>
    refine List.forall_mem_cons.2 ⟨?_, ih⟩
    generalize Line.instruction _ = i at hi
    cases hi <;> rfl

theorem without_top (h : LinesKinded γ sig lines (k :: ks) ks₂) (hplain : ∀ line ∈ lines, line.Plain) :
    ks₂ = k :: ks ∧ LinesKinded γ sig lines ks ks := by
  induction lines with
  | nil =>
    cases h
    exact ⟨rfl, .nil ks⟩
  | cons line lines ih =>
    obtain ⟨hline, hlines⟩ := List.forall_mem_cons.1 hplain
    cases h with
    | cons _ hi hrest =>
      obtain ⟨rfl, hi'⟩ := hi.without_top hline.2
      obtain ⟨heq, hrest'⟩ := ih hrest hlines
      exact ⟨heq, .cons (fun hlabels => absurd hline.1 hlabels) hi' hrest'⟩

theorem handOver (h : LinesKinded γ sig lines ks₁ ks₂) (hlabels : labels ≠ [] → ks₁ = []) :
    LinesKinded γ sig (Linear.handOver labels lines) ks₁ ks₂ := by
  cases h with
  | nil =>
    rw [Linear.handOver]
    split
    · exact .nil _
    · exact .cons hlabels (.nop _) (.nil _)
  | cons hline hi hrest =>
    refine .cons (fun hne => ?_) hi hrest
    by_cases hempty : labels = []
    · rw [hempty] at hne
      exact hline hne
    · exact hlabels hempty

end LinesKinded

end

/-! ## Bodies -/

section

variable (γ : RegisterId → Kind) (sig : FunctionId → Option Signature)

/-- The code of a body after the declarations of slots. -/
structure CodeKinded (entry : LabelId) (code : List Line) : Prop where
  kinds : LinesKinded γ sig code [] []
  labels : (code.flatMap Line.labels).Nodup
  entry : ∃ line rest, code = line :: rest ∧ entry ∈ line.labels

/-- The lines that declare a number of slots, those of parameters first. -/
def declarations (params slots : Nat) : List Line :=
  (List.range slots).map fun r =>
    ⟨[], if r < params then .allocParam r slotSize else .allocLocal r slotSize⟩

/-- A body of a function with a given signature, which has a number of slots. -/
structure Body.Kinded (s : Signature) (slots : Nat) (b : Body) : Prop where
  lines : ∃ code, b.lines = declarations s.params.length slots ++ code ∧
    CodeKinded γ sig b.entry code
  params_le : s.params.length ≤ slots
  params : ∀ i k, s.params[i]? = some k → γ i = k
  result : γ b.result = s.result

end

def Program.Kinded (sig : FunctionId → Option Signature) (p : Program) : Prop :=
  ∀ i f b, p.functions[i]? = some f → f.definition = .body b →
    ∃ s γ slots, sig i = some s ∧ f.arity = s.params.length ∧ b.Kinded γ sig s slots ∧
      b.Regular slots (min p.functions.length idCount)

theorem mem_declarations {params slots : Nat} {line : Line} (h : line ∈ declarations params slots) :
    line.DeclaresBelow slots := by
  obtain ⟨r, hr, rfl⟩ := List.mem_map.1 h
  refine ⟨rfl, r, List.mem_range.1 hr, slotSize, ?_⟩
  dsimp only
  split
  · exact .inl rfl
  · exact .inr rfl

/-! ## Shortening -/

section

variable {γ : RegisterId → Kind} {sig : FunctionId → Option Signature} {entry : LabelId}
  {before old new : List Line}

theorem CodeKinded.replace (h : CodeKinded γ sig entry (before ++ old))
    (hkinds : ∀ ks ks', LinesKinded γ sig old ks ks' → LinesKinded γ sig new ks ks')
    (hlabels : new.flatMap Line.labels = old.flatMap Line.labels)
    (hentry : ∀ line rest, old = line :: rest → entry ∈ line.labels →
      ∃ line' rest', new = line' :: rest' ∧ entry ∈ line'.labels) :
    CodeKinded γ sig entry (before ++ new) where
  kinds := by
    obtain ⟨ks, hbefore, hold⟩ := h.kinds.of_append
    exact hbefore.append (hkinds _ _ hold)
  labels := by
    rw [List.flatMap_append, hlabels, ← List.flatMap_append]
    exact h.labels
  entry := by
    obtain ⟨line, rest, hlines, hmem⟩ := h.entry
    cases before with
    | nil => exact hentry line rest hlines hmem
    | cons first before =>
      cases hlines
      exact ⟨_, _, rfl, hmem⟩

theorem flatMap_labels_map_rename (source target : RegisterId) (lines : List Line) :
    (lines.map (Line.rename source target)).flatMap Line.labels = lines.flatMap Line.labels := by
  rw [List.flatMap_map]
  rfl

theorem CodeKinded.rename {code : List Line} (h : CodeKinded γ sig entry code)
    (hγ : γ source = γ target) : CodeKinded γ sig entry (code.map (Line.rename source target)) where
  kinds := h.kinds.rename hγ
  labels := by
    rw [flatMap_labels_map_rename]
    exact h.labels
  entry := by
    obtain ⟨line, rest, rfl, hmem⟩ := h.entry
    exact ⟨line.rename source target, rest.map (Line.rename source target), rfl, hmem⟩

theorem flatMap_labels_handOver (labels : List LabelId) (lines : List Line) :
    (handOver labels lines).flatMap Line.labels = labels ++ lines.flatMap Line.labels := by
  cases lines with
  | nil =>
    rw [handOver]
    split
    · next hempty => rw [hempty]; rfl
    · rfl
  | cons line rest => exact List.append_assoc ..

theorem exists_handOver {lines : List Line} {label : LabelId}
    (h : label ∈ labels) : ∃ line rest, handOver labels lines = line :: rest ∧ label ∈ line.labels := by
  cases lines with
  | nil =>
    rw [handOver, if_neg (List.ne_nil_of_mem h)]
    exact ⟨_, _, rfl, h⟩
  | cons line rest => exact ⟨_, _, rfl, List.mem_append_left _ h⟩

theorem CodeKinded.direct {move use direct : Instruction} {r : RegisterId} {rest : List Line}
    (h : CodeKinded γ sig entry (before ++ ⟨labels, move⟩ :: ⟨[], use⟩ :: ⟨[], .kill r⟩ :: rest))
    (hdirect : ∀ ks₁ ks₂ ks₃, move.Kinded γ sig ks₁ ks₂ → use.Kinded γ sig ks₂ ks₃ →
    direct.Kinded γ sig ks₁ ks₃) : CodeKinded γ sig entry (before ++ ⟨labels, direct⟩ :: rest) := by
  refine h.replace ?_ (by simp) ?_
  · intro ks ks' hold
    cases hold with
    | cons hlabels hmove hrest =>
      cases hrest with
      | cons _ huse hrest =>
        cases hrest with
        | cons _ hkill hrest =>
          cases hkill
          exact .cons hlabels (hdirect _ _ _ hmove huse) hrest
  · rintro line rest' heq hmem
    cases heq
    exact ⟨_, _, rfl, hmem⟩

theorem CodeKinded.shadowed {pushed popped : RegisterId}
    {first second after : List Line} (hplain : ∀ line ∈ first ++ second, line.Plain)
    (h : CodeKinded γ sig entry (before ++ ⟨labels, .push pushed⟩ ::
    (first ++ ⟨[], .kill pushed⟩ :: (second ++ ⟨[], .pop popped⟩ :: after)))) :
    γ popped = γ pushed ∧
      CodeKinded γ sig entry (before ++ handOver labels (first ++ second ++ after)) := by
  obtain ⟨hfirst, hsecond⟩ := List.forall_mem_append.1 hplain
  -- Between push and pop the pushed value stays on top of the operands.
  have hkinds : ∀ ks ks', LinesKinded γ sig (⟨labels, .push pushed⟩ ::
        (first ++ ⟨[], .kill pushed⟩ :: (second ++ ⟨[], .pop popped⟩ :: after))) ks ks' →
      γ popped = γ pushed ∧
        LinesKinded γ sig (handOver labels (first ++ second ++ after)) ks ks' := by
    intro ks ks' hold
    cases hold with
    | cons hlabels hpush hrest =>
      cases hpush
      obtain ⟨ks₁, hrun₁, hrest⟩ := hrest.of_append
      obtain ⟨rfl, hrun₁'⟩ := hrun₁.without_top hfirst
      cases hrest with
      | cons _ hkill hrest =>
        cases hkill
        obtain ⟨ks₂, hrun₂, hrest⟩ := hrest.of_append
        obtain ⟨rfl, hrun₂'⟩ := hrun₂.without_top hsecond
        cases hrest with
        | cons _ hpop hafter =>
          generalize htop : γ pushed :: ks = ks₁ at hpop
          cases hpop
          obtain ⟨heq, rfl⟩ := List.cons.inj htop
          exact ⟨heq.symm, ((hrun₁'.append hrun₂').append hafter).handOver hlabels⟩
  obtain ⟨ks, -, hold⟩ := h.kinds.of_append
  refine ⟨(hkinds _ _ hold).1, h.replace (fun ks ks' hold => (hkinds ks ks' hold).2) ?_ ?_⟩
  · have hnone : ∀ lines : List Line, (∀ line ∈ lines, line.Plain) →
        lines.flatMap Line.labels = [] := fun lines hl =>
      List.flatMap_eq_nil_iff.2 fun line hline => (hl line hline).1
    simp [flatMap_labels_handOver, hnone first hfirst, hnone second hsecond]
  · rintro line rest heq hmem
    cases heq
    exact exists_handOver hmem

theorem exists_of_declarations_append {params slots : Nat} {code lines : List Line} {line : Line}
    (h : before ++ line :: lines = declarations params slots ++ code)
    (hline : line.instruction.slot? = none) :
    ∃ before', before = declarations params slots ++ before' ∧ code = before' ++ line :: lines := by
  rcases List.append_eq_append_iff.1 h with ⟨more, hdecl, hlines⟩ | ⟨more, hbefore, hcode⟩
  · cases more with
    | nil => exact ⟨[], by simpa using hdecl.symm, by simpa using hlines.symm⟩
    | cons first more =>
      cases hlines
      have hmem : line ∈ declarations params slots := by
        rw [hdecl]
        simp
      have hsome := (mem_declarations hmem).isSome_slot?
      rw [hline] at hsome
      cases hsome
  · exact ⟨more, hbefore, hcode⟩

theorem map_rename_declarations {params slots : Nat}
    (h : slots ≤ source) : (declarations params slots).map (Line.rename source target) =
      declarations params slots := by
  rw [declarations, List.map_map]
  refine List.map_congr_left fun r hr => ?_
  have hne : r ≠ source := fun heq =>
    absurd (List.mem_range.1 hr) (Nat.not_lt.2 (h.trans heq.ge))
  simp only [Function.comp_apply, Line.rename, Instruction.rename]
  split <;> simp [Instruction.mapRegisters, hne]

section Rules

variable (γ sig) (b : Body) (params slots functions : Nat)

def GoodLines (lines : List Line) : Prop :=
  ({ b with lines } : Body).Regular slots functions ∧
    ∃ code, lines = declarations params slots ++ code ∧ CodeKinded γ sig b.entry code

theorem directCall_keeps : directCall.Keeps (GoodLines γ sig b params slots functions) := by
  rintro before lines fold hfold ⟨hb, code, hlines, hcode⟩
  refine ⟨(directCall_sound _ slots functions before lines fold hb rfl hfold).2, ?_⟩
  obtain ⟨labels, r, id, arguments, rest, rfl, rfl⟩ := foldDirectCall_eq_some hfold
  obtain ⟨before', rfl, rfl⟩ := exists_of_declarations_append hlines rfl
  refine ⟨before' ++ ⟨labels, .callImmediate id arguments⟩ :: rest, List.append_assoc .., ?_⟩
  refine hcode.direct fun ks₁ ks₂ ks₃ hmove huse => ?_
  cases hmove with
  | moveFunction _ hr =>
    cases huse with
    | callRegister ks hr' hs =>
      cases hr.symm.trans hr'
      exact .callImmediate ks hs

theorem directStore_keeps : directStore.Keeps (GoodLines γ sig b params slots functions) := by
  rintro before lines fold hfold ⟨hb, code, hlines, hcode⟩
  refine ⟨(directStore_sound _ slots functions before lines fold hb rfl hfold).2, ?_⟩
  obtain ⟨labels, r, value, slot, rest, hsmall, rfl, rfl⟩ := foldDirectStore_eq_some hfold
  obtain ⟨before', rfl, rfl⟩ := exists_of_declarations_append hlines rfl
  refine ⟨before' ++ ⟨labels, .storeImmediate slot value⟩ :: rest, List.append_assoc .., ?_⟩
  refine hcode.direct fun ks₁ ks₂ ks₃ hmove huse => ?_
  cases hmove with
  | moveInt _ _ hr =>
    cases huse with
    | storeRegister _ hslot => exact .storeImmediate _ (hslot.trans hr) hsmall

theorem shadowedPop_keeps : shadowedPop.Keeps (GoodLines γ sig b params slots functions) := by
  rintro before lines fold hfold ⟨hb, code, hlines, hcode⟩
  refine ⟨(shadowedPop_sound _ slots functions before lines fold hb rfl hfold).2, ?_⟩
  obtain ⟨labels, pushed, popped, first, second, after, hplain, rfl, rfl⟩ :=
    foldShadowedPop_eq_some hfold
  obtain ⟨before', rfl, rfl⟩ := exists_of_declarations_append hlines rfl
  obtain ⟨hγ, hcode'⟩ := hcode.shadowed hplain
  -- The register that disappears is no slot, as it is popped into.
  have hpopped : slots ≤ popped := by
    have horder : Orderly slots (⟨[], .pop popped⟩ :: after) := by
      refine hb.orderly.lines.of_suffix ?_
      exact ⟨declarations params slots ++ before' ++ ⟨labels, .push pushed⟩ ::
        (first ++ ⟨[], .kill pushed⟩ :: second), by simp⟩
    exact horder.2.1.1
  refine ⟨(before' ++ handOver labels (first ++ second ++ after)).map (Line.rename popped pushed), ?_,
    hcode'.rename hγ⟩
  simp only [Fold.apply, List.append_assoc, List.map_append, map_rename_declarations hpopped]

end Rules

/-- Shortening a kinded body keeps it kinded. -/
theorem Body.Kinded.optimize {b : Body} {s : Signature} {slots functions : Nat}
    (h : b.Kinded γ sig s slots) (hb : b.Regular slots functions) :
    b.optimize.Kinded γ sig s slots where
  lines :=
    (optimizeLines_induction (directCall_keeps γ sig b s.params.length slots functions)
      (directStore_keeps γ sig b s.params.length slots functions)
      (shadowedPop_keeps γ sig b s.params.length slots functions) ⟨hb, h.lines⟩).2
  params_le := h.params_le
  params := h.params
  result := h.result

end

theorem Program.length_optimize (p : Program) :
    p.optimize.functions.length = p.functions.length := by
  rw [optimize, functions_mapBodies, List.length_map]

/-- A shortened program is kinded if the program is. -/
theorem Program.Kinded.optimize {sig : FunctionId → Option Signature} {p : Program}
    (h : p.Kinded sig) : p.optimize.Kinded sig := by
  intro i f b hf hb
  rw [Program.length_optimize]
  rw [Program.optimize, Program.functions_mapBodies, List.getElem?_map, Option.map_eq_some_iff] at hf
  obtain ⟨g, hg, rfl⟩ := hf
  cases hdef : g.definition with
  | foreign symbol =>
    simp only [Function.mapBody, hdef] at hb
    cases hb
  | body body =>
    simp only [Function.mapBody, hdef] at hb
    cases hb
    obtain ⟨s, γ, slots, hsig, harity, hkinded, hregular⟩ := h i g body hg hdef
    refine ⟨s, γ, slots, hsig, ?_, hkinded.optimize hregular, hregular.optimize.2⟩
    simp only [Function.mapBody, hdef, harity]

/-! ## Lowering -/

section Lowering

variable {r : Resolutions} {f : Flow.Function} {γ : RegisterId → Kind} {reg reg' : RegisterId}
  {code : List Instruction} {ks ks' : List Kind}

def KindsOfCells (r : Resolutions) (f : Flow.Function) (γ : RegisterId → Kind) : Prop :=
  ∀ cell k slot, Flow.CellKind r f.locals cell k → (slotPositions f).find? cell = some slot → γ slot = k

theorem exists_kindsOfCells (r : Resolutions) (f : Flow.Function) : ∃ γ, KindsOfCells r f γ := by
  refine ⟨fun slot => (((slotCells f)[slot]?.bind fun cell => f.locals[cell]?).map fun l =>
    l.type.kind r.functions).getD .any, ?_⟩
  rintro cell k slot ⟨l, hl, rfl⟩ hslot
  simp [getElem?_of_find?_slotPositions hslot, hl]

theorem KindsOfCells.of_agree {γ' : RegisterId → Kind} (h : KindsOfCells r f γ)
    (hreg : f.slotCount ≤ reg) (hγ : ∀ x < reg, γ' x = γ x) : KindsOfCells r f γ' :=
  fun cell k slot hcell hslot =>
    (hγ slot ((slot_lt hslot).trans_le hreg)).trans (h cell k slot hcell hslot)

theorem StatementCode.registers_lt {s : Flow.Statement}
    (h : StatementCode (contextOf r.functions f) s reg code reg') (hreg : f.slotCount ≤ reg) :
    ∀ i ∈ code, ∀ x ∈ i.registers, x < reg' := by
  cases h with
  | load cell slot _ hslot | store cell slot _ hslot =>
    have hlt := slot_lt hslot
    simp only [List.forall_mem_cons, Instruction.registers]
    simp
    grind
  | _ =>
    simp only [List.forall_mem_cons, Instruction.registers]
    simp

theorem TerminatorCode.registers_lt
    (h : TerminatorCode c t reg code reg') : ∀ i ∈ code, ∀ x ∈ i.registers, x < reg' := by
  cases h <;> simp [Instruction.registers]

theorem LinesKinded.plain_cons {sig : FunctionId → Option Signature} {i : Instruction}
    {ks₁ ks₂ ks₃ : List Kind} (hi : i.Kinded γ sig ks₁ ks₂)
    (h : LinesKinded γ sig (plain code) ks₂ ks₃) : LinesKinded γ sig (plain (i :: code)) ks₁ ks₃ :=
  .cons (fun hlabels => absurd rfl hlabels) hi h

theorem LinesKinded.plain_of_agree {sig : FunctionId → Option Signature} {γ' : RegisterId → Kind}
    (h : LinesKinded γ sig (plain code) ks ks') (hlt : ∀ i ∈ code, ∀ x ∈ i.registers, x < reg)
    (hγ : ∀ x < reg, γ' x = γ x) : LinesKinded γ' sig (plain code) ks ks' := by
  refine h.congr fun line hline x hx => ?_
  obtain ⟨i, hi, rfl⟩ := List.mem_map.1 hline
  exact hγ x (hlt i hi x hx)

theorem exists_kinds_with (γ : RegisterId → Kind) (reg : RegisterId) (k : Kind) :
    ∃ γ' : RegisterId → Kind, (∀ x < reg, γ' x = γ x) ∧ γ' reg = k :=
  ⟨Function.update γ reg k, fun _ hx => Function.update_of_ne hx.ne _ _, Function.update_self ..⟩

variable (hbound : r.functions.length ≤ idCount)

include hbound in
/-- The code of a statement does to the kinds of operands what the statement does, for some kinds of
the registers that are drawn for it. -/
theorem StatementCode.kinded {s : Flow.Statement} (hγ : KindsOfCells r f γ)
    (h : StatementCode (contextOf r.functions f) s reg code reg') (hreg : f.slotCount ≤ reg)
    (hs : s.Kinded r f.locals ks ks') :
    ∃ γ' : RegisterId → Kind, (∀ x < reg, γ' x = γ x) ∧
      LinesKinded γ' r.signature? (plain code) ks ks' := by
  -- The register that is drawn has the kind of the value that is in it.
  cases hs with
  | int value _ =>
    cases h
    obtain ⟨γ', hbelow, hat⟩ := exists_kinds_with γ reg .word
    exact ⟨γ', hbelow, .plain_cons (.moveInt value ks hat)
      (.plain_cons (.push_of_eq hat) (.plain_cons (.kill reg _) (.nil _)))⟩
  | string text _ =>
    cases h
    obtain ⟨γ', hbelow, hat⟩ := exists_kinds_with γ reg .any
    exact ⟨γ', hbelow, .plain_cons (.moveString _ ks hat)
      (.plain_cons (.push_of_eq hat) (.plain_cons (.kill reg _) (.nil _)))⟩
  | @function decl id _ hid =>
    cases h with
    | function _ id' _ hid' =>
      cases hid.symm.trans hid'
      have hlt : id < idCount := (lt_length_of_idxOf? hid).trans_le hbound
      obtain ⟨γ', hbelow, hat⟩ := exists_kinds_with γ reg (.code id)
      rw [idOfNat, Nat.mod_eq_of_lt hlt]
      exact ⟨γ', hbelow, .plain_cons (.moveFunction ks hat)
        (.plain_cons (.push_of_eq hat) (.plain_cons (.kill reg _) (.nil _)))⟩
  | pop k _ =>
    cases h
    obtain ⟨γ', hbelow, hat⟩ := exists_kinds_with γ reg k
    exact ⟨γ', hbelow, .plain_cons (.pop_of_eq hat) (.plain_cons (.kill reg _) (.nil _))⟩
  | @load cell k _ hcell =>
    cases h with
    | load _ slot _ hslot =>
      obtain ⟨γ', hbelow, hat⟩ := exists_kinds_with γ reg k
      have hkind : γ' slot = k := hγ.of_agree hreg hbelow cell k slot hcell hslot
      exact ⟨γ', hbelow, .plain_cons (.load ks (hat.trans hkind.symm))
        (.plain_cons (.push_of_eq hat) (.plain_cons (.kill reg _) (.nil _)))⟩
  | @store cell k _ hcell =>
    cases h with
    | store _ slot _ hslot =>
      obtain ⟨γ', hbelow, hat⟩ := exists_kinds_with γ reg k
      have hkind : γ' slot = k := hγ.of_agree hreg hbelow cell k slot hcell hslot
      exact ⟨γ', hbelow, .plain_cons (.pop_of_eq hat)
        (.plain_cons (.storeRegister _ (hkind.trans hat.symm)) (.plain_cons (.kill reg _) (.nil _)))⟩
  | @call id s _ hs =>
    cases h
    obtain ⟨γ', hbelow, hat⟩ := exists_kinds_with γ reg (.code id)
    exact ⟨γ', hbelow, .plain_cons (.pop_of_eq hat)
      (.plain_cons (.callRegister _ hat hs) (.plain_cons (.kill reg _) (.nil _)))⟩
  | binary op _ =>
    cases h
    obtain ⟨γ₁, hbelow₁, hat₁⟩ := exists_kinds_with γ reg .word
    obtain ⟨γ', hbelow, hat⟩ := exists_kinds_with γ₁ (reg + 1) .word
    have hsource : γ' reg = .word := (hbelow reg (Nat.lt_succ_self reg)).trans hat₁
    refine ⟨γ', fun x hx => (hbelow x (Nat.lt_succ_of_lt hx)).trans (hbelow₁ x hx), ?_⟩
    exact .plain_cons (.pop_of_eq hsource) (.plain_cons (.pop_of_eq hat)
      (.plain_cons (.binary op _ hat hsource) (.plain_cons (.push_of_eq hat)
        (.plain_cons (.kill _ _) (.plain_cons (.kill _ _) (.nil _))))))

/-- The code of a terminator takes the operands that the terminator takes. -/
theorem TerminatorCode.kinded
    (h : TerminatorCode c t reg code reg') (ht : t.Takes ks) (γ : RegisterId → Kind)
    (sig : FunctionId → Option Signature) : ∃ γ' : RegisterId → Kind,
      (∀ x < reg, γ' x = γ x) ∧ LinesKinded γ' sig (plain code) ks [] := by
  cases h with
  | «return» =>
    obtain rfl : ks = [] := ht
    exact ⟨γ, fun _ _ => rfl, .plain_cons .return (.nil _)⟩
  | goto target label _ _ =>
    obtain rfl : ks = [] := ht
    exact ⟨γ, fun _ _ => rfl, .plain_cons (.jump label) (.nil _)⟩
  | branch truthy falsy truthyLabel falsyLabel _ _ _ =>
    obtain rfl : ks = [.word] := ht
    obtain ⟨γ', hbelow, hat⟩ := exists_kinds_with γ reg .word
    exact ⟨γ', hbelow, .plain_cons (.pop_of_eq hat) (.plain_cons (.jumpIfNonZero truthyLabel hat)
      (.plain_cons (.kill reg _) (.plain_cons (.jump falsyLabel) (.nil _))))⟩

theorem Code.registers_lt {ss : List Flow.Statement}
    (h : Code (contextOf r.functions f) ss t reg code reg') (hreg : f.slotCount ≤ reg) :
    ∀ i ∈ code, ∀ x ∈ i.registers, x < reg' := by
  induction h with
  | nil ht => exact ht.registers_lt
  | cons hs hcode ih =>
    have hle := hs.born_eq.1
    intro i hi x hx
    rcases List.mem_append.1 hi with hi | hi
    · exact (hs.registers_lt hreg i hi x hx).trans_le hcode.born_eq.1
    · exact ih (hreg.trans hle) i hi x hx

include hbound in
/-- The code of the rest of a block does what the statements and the terminator do. -/
theorem Code.kinded {ss : List Flow.Statement}
    (h : Code (contextOf r.functions f) ss t reg code reg') (hreg : f.slotCount ≤ reg)
    (hγ : KindsOfCells r f γ) (hss : Flow.StatementsKinded r f.locals ss ks ks') (ht : t.Takes ks') :
    ∃ γ' : RegisterId → Kind, (∀ x < reg, γ' x = γ x) ∧
      LinesKinded γ' r.signature? (plain code) ks [] := by
  induction h generalizing γ ks with
  | nil hterm =>
    cases hss
    exact hterm.kinded ht γ r.signature?
  | @cons s ss t first rest reg reg₁ reg' hs hcode ih =>
    cases hss with
    | cons hkinded hss =>
      obtain ⟨γ₁, hbelow₁, hfirst⟩ := hs.kinded hbound hγ hreg hkinded
      have hle := hs.born_eq.1
      obtain ⟨γ', hbelow, hrest⟩ := ih (hreg.trans hle) (hγ.of_agree hreg hbelow₁) hss ht
      refine ⟨γ', fun x hx => (hbelow x (hx.trans_le hle)).trans (hbelow₁ x hx), ?_⟩
      rw [plain_append]
      exact (hfirst.plain_of_agree (hs.registers_lt hreg) hbelow).append hrest

theorem LinesKinded.labelled {sig : FunctionId → Option Signature} (labels : List LabelId)
    (h : LinesKinded γ sig (plain code) [] []) :
    LinesKinded γ sig (Lower.labelled labels code) [] [] := by
  cases code with
  | nil => exact h
  | cons i code =>
    cases h with
    | cons _ hi hrest => exact .cons (fun _ => rfl) hi hrest

include hbound in
theorem BlocksCode.kinded {blocks : List Flow.Block} {lines : List Line}
    (h : BlocksCode (contextOf r.functions f) blocks reg lines reg') (hreg : f.slotCount ≤ reg)
    (hγ : KindsOfCells r f γ) (hblocks : ∀ b ∈ blocks, b.Kinded r f.locals) :
    ∃ γ' : RegisterId → Kind, (∀ x < reg, γ' x = γ x) ∧ LinesKinded γ' r.signature? lines [] [] := by
  induction h generalizing γ with
  | nil => exact ⟨γ, fun _ _ => rfl, .nil _⟩
  | @cons b rest label code lines reg reg₁ reg' hlabel hcode hrest ih =>
    obtain ⟨⟨ks, hss, ht⟩, hblocks⟩ := List.forall_mem_cons.1 hblocks
    obtain ⟨γ₁, hbelow₁, hfirst⟩ := hcode.kinded hbound hreg hγ hss ht
    have hle := hcode.born_eq.1
    obtain ⟨γ', hbelow, hlines⟩ := ih (hreg.trans hle) (hγ.of_agree hreg hbelow₁) hblocks
    refine ⟨γ', fun x hx => (hbelow x (hx.trans_le hle)).trans (hbelow₁ x hx), ?_⟩
    exact ((hfirst.plain_of_agree (hcode.registers_lt hreg) hbelow).labelled [label]).append hlines

theorem flatMap_labels_labelled {label : LabelId} (h : code ≠ []) :
    (Lower.labelled [label] code).flatMap Line.labels = [label] := by
  cases code with
  | nil => exact absurd rfl h
  | cons i code => simp [Lower.labelled, List.flatMap_map]

theorem BlocksCode.map_labels {blocks : List Flow.Block} {lines : List Line}
    (h : BlocksCode c blocks reg lines reg') :
    (lines.flatMap Line.labels).map some = (blocks.map Flow.Block.id).map c.blocks.idxOf? := by
  induction h with
  | nil => rfl
  | cons hlabel hcode _ ih =>
    rw [List.flatMap_append, flatMap_labels_labelled hcode.ne_nil, List.map_append, ih]
    simp [hlabel]

include hbound in
theorem BodyCode.kinded {s : Signature} {b : Body} (h : BodyCode r.functions f b)
    (hl : Lowerable r.functions f) (hf : f.Kinded r s) :
    ∃ γ, b.Kinded γ r.signature? s f.slotCount := by
  obtain ⟨code, reg', hlines, hblocks⟩ := h.lines
  obtain ⟨γ₀, hγ₀⟩ := exists_kindsOfCells r f
  obtain ⟨γ, hbelow, hkinds⟩ := hblocks.kinded hbound le_rfl hγ₀ hf.blocks
  have hγ := hγ₀.of_agree le_rfl hbelow
  have hparams : s.params.length = f.params.length := hf.params.length_eq.symm
  refine ⟨γ, ⟨code, ?_, hkinds, ?_, ?_⟩, ?_, ?_, ?_⟩
  · rw [hlines, hparams]
    rfl
  · have hlabels : ((code.flatMap Line.labels).map some).Nodup := by
      rw [hblocks.map_labels]
      refine hl.tidy.ids.map_on fun x hx y _ hxy => ?_
      obtain ⟨i, hi⟩ := exists_idxOf? hx
      exact eq_of_idxOf? hi (hxy.symm.trans hi)
    exact hlabels.of_map some
  · have hhead := hl.tidy.entry
    have hentry := h.entry
    generalize hgraph : f.blocks = blocks at hblocks hhead
    cases hblocks with
    | nil => cases hhead
    | @cons first _ label _ _ _ _ _ hlabel hcode _ =>
      -- The first block is the entry, and the first line has its label.
      have hfirst : first.id = f.entry := by simpa using hhead
      rw [hfirst] at hlabel
      have hlabel : label = b.entry := Option.some.inj (hlabel.symm.trans hentry)
      obtain ⟨i, rest, rfl⟩ := List.exists_cons_of_ne_nil hcode.ne_nil
      exact ⟨_, _, rfl, List.mem_singleton.2 hlabel.symm⟩
  · rw [hparams, Flow.Function.slotCount, slotCells, List.length_append]
    exact Nat.le_add_right ..
  · intro i k hk
    obtain ⟨hi, rfl⟩ := List.getElem?_eq_some_iff.1 hk
    have hi' : i < f.params.length := hparams ▸ hi
    have hkind := (List.forall₂_iff_get.1 hf.params).2 i hi' hi
    have hget : (slotCells f)[i]? = some f.params[i] := by
      rw [slotCells, List.getElem?_append_left hi', List.getElem?_eq_getElem hi']
    obtain ⟨slot, hslot⟩ :=
      Option.isSome_iff_exists.1 (find?_slotPositions_isSome (List.mem_of_getElem? hget))
    obtain rfl : i = slot := (List.getElem?_inj (List.getElem?_eq_some_iff.1 hget).1 hl.cells).1
      (hget.trans (getElem?_of_find?_slotPositions hslot).symm)
    exact hγ _ _ _ hkind hslot
  · exact hγ _ _ _ hf.result h.result

end Lowering

end WordLang.Linear
