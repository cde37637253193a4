import Mathlib.Data.List.TakeWhile
import WordLang.Assembly.OfLinear
import WordLang.Proofs.Linear.Lowered

/-!
# When code can be generated

While code is generated for orderly lines, the register pool holds machine registers for exactly the
live virtual registers. So generation asks for no register that is not there, nothing is live across
a call, and the only thing that can go wrong is that more registers are live at once than there are
machine registers to take.

## Main definitions

* `Assembly.Pool.Serves pool live`: the pool has distinct machine registers for the registers `live`
* `Linear.Function.Narrow`: functions in which few registers are live at once
* `Linear.Function.Bridged`: functions whose bridges to foreign code can pass all arguments

## Main results

* `Assembly.Pool.Serves.assign_new`: a register can be added while one is free
* `Assembly.instruction_ensures`, `Assembly.bodyLines_ensures`: code for instructions and bodies
* `Assembly.ofProgram_cases`: code for a program is generated, or a function has too many live
  registers
-/

namespace WordLang

open Linear (live live_declares)

variable {lines : List Linear.Line} {fails : Failure → Prop}

/-- A function in whose body at most `width` registers are live at once. -/
def Linear.Function.Narrow (width : Nat) (f : Linear.Function) : Prop :=
  ∀ b, f.definition = .body b → Linear.Narrow width b.lines

def Linear.Function.Bridged (f : Linear.Function) : Prop :=
  (f.exported.isSome ∨ ∃ symbol, f.definition = .foreign symbol) →
    f.arity ≤ Assembly.Register.arguments.length

/-! ## The register pool -/

theorem Table.mem_entries_iff {β : Type} {t : Table β} {k : Nat} {v : β} :
    (k, v) ∈ t.entries ↔ t.find? k = some v := by
  obtain ⟨es, hes⟩ := t
  simp only [Table.find?]
  induction es with
  | nil => simp [Table.lookup]
  | cons e es ih =>
    obtain ⟨j, w⟩ := e
    obtain ⟨hj, hes⟩ := List.pairwise_cons.1 hes
    simp only [Table.lookup, List.mem_cons, Prod.mk.injEq]
    split
    · next hjk =>
      subst hjk
      -- Later identifiers are larger, so the entry is the first one.
      have hnot : (j, v) ∉ es := fun h => Nat.lt_irrefl j (hj j (List.mem_map_of_mem h))
      simp only [hnot, or_false, true_and, Option.some.injEq]
      exact eq_comm
    · next hjk =>
      rw [← ih hes]
      simp [Ne.symm hjk]

namespace Assembly

/-- How many machine registers virtual registers are mapped to. -/
def poolSize : Nat := Register.preferred.length

namespace Pool

variable {pool : Pool} {held : Finset RegisterId} {r : RegisterId} {q : Register}

/-- The pool has distinct machine registers for exactly the virtual registers `held`. -/
structure Serves (pool : Pool) (held : Finset RegisterId) : Prop where
  holds : ∀ r, (pool.assigned.find? r).isSome ↔ r ∈ held
  preferred : ∀ r q, pool.assigned.find? r = some q → q ∈ Register.preferred
  distinct : ∀ r r' q, pool.assigned.find? r = some q → pool.assigned.find? r' = some q → r = r'

theorem serves_empty : ({} : Pool).Serves ∅ where
  holds r := by simp [Table.find?, Table.lookup]
  preferred r q h := by cases h
  distinct r r' q h := by cases h

theorem isOccupied_iff : pool.isOccupied q = true ↔ ∃ r, pool.assigned.find? r = some q := by
  simp only [isOccupied, List.any_eq_true, decide_eq_true_eq, Prod.exists, Table.mem_entries_iff]
  constructor
  · rintro ⟨r, q', h, rfl⟩
    exact ⟨r, h⟩
  · rintro ⟨r, h⟩
    exact ⟨r, q, h, rfl⟩

namespace Serves

variable (h : pool.Serves held)
include h

theorem mem_live : r ∈ pool.live ↔ r ∈ held := Table.mem_keys_iff.trans (h.holds r)

/-- No more registers are held than there are machine registers. -/
theorem card_le : held.card ≤ poolSize := by
  have hsome : ∀ r ∈ held, ∃ q, pool.assigned.find? r = some q := fun r hr =>
    Option.isSome_iff_exists.1 ((h.holds r).2 hr)
  choose! machine hmachine using hsome
  have hcard : poolSize = Register.preferred.toFinset.card := rfl
  rw [hcard]
  apply Finset.card_le_card_of_injOn machine
  · intro r hr
    simpa using h.preferred r _ (hmachine r hr)
  · intro r hr r' hr' heq
    refine h.distinct r r' _ (hmachine r hr) ?_
    rw [heq]
    exact hmachine r' hr'

theorem le_card (htaken : ∀ q ∈ Register.preferred, pool.isOccupied q = true) :
    poolSize ≤ held.card := by
  have hholder : ∀ q ∈ Register.preferred, ∃ r, pool.assigned.find? r = some q := fun q hq =>
    isOccupied_iff.1 (htaken q hq)
  choose! holder hholder using hholder
  have hcard : poolSize = Register.preferred.toFinset.card := rfl
  rw [hcard]
  apply Finset.card_le_card_of_injOn holder
  · intro q hq
    have hq' := hholder q (by simpa using hq)
    exact (h.holds _).1 (by rw [hq']; rfl)
  · intro q hq q' hq' heq
    have hfirst := hholder q (by simpa using hq)
    rw [heq, hholder q' (by simpa using hq')] at hfirst
    exact (Option.some.inj hfirst).symm

/-- A register that is held keeps its machine register. -/
theorem assign_held (hr : r ∈ held) : ∃ q, pool.assign r = some (q, pool) := by
  obtain ⟨q, hq⟩ := Option.isSome_iff_exists.1 ((h.holds r).2 hr)
  refine ⟨q, ?_⟩
  rw [assign, hq]

theorem insert (hq : q ∈ Register.preferred) (hfree : pool.isOccupied q = false) :
    Serves ⟨pool.assigned.insert r q⟩ (Insert.insert r held) := by
  have hnot : ∀ r', pool.assigned.find? r' ≠ some q := by
    intro r' hr'
    rw [isOccupied_iff.2 ⟨r', hr'⟩] at hfree
    cases hfree
  constructor
  · intro r'
    rw [Table.find?_insert, Finset.mem_insert]
    split
    · next heq => simp [heq]
    · next hne => simp [hne, h.holds r']
  · intro r' q' hq'
    rw [Table.find?_insert] at hq'
    split at hq'
    · cases hq'
      exact hq
    · exact h.preferred r' q' hq'
  · intro r₁ r₂ q' h₁ h₂
    rw [Table.find?_insert] at h₁ h₂
    split at h₁ <;> split at h₂
    · next heq heq' => exact heq.trans heq'.symm
    · cases h₁
      exact (hnot _ h₂).elim
    · cases h₂
      exact (hnot _ h₁).elim
    · exact h.distinct r₁ r₂ q' h₁ h₂

/-- A register that is not held gets a machine register if one is free. -/
theorem assign_new (hr : r ∉ held) :
    (pool.assign r = none ∧ poolSize ≤ held.card) ∨
      ∃ q pool', pool.assign r = some (q, pool') ∧ pool'.Serves (Insert.insert r held) := by
  have hnone : pool.assigned.find? r = none := by
    have := mt (h.holds r).1 hr
    simpa using this
  rw [assign, hnone]
  cases hfree : pool.firstFree? with
  | none =>
    refine .inl ⟨rfl, h.le_card fun q hq => ?_⟩
    have := List.find?_eq_none.1 hfree q hq
    simpa using this
  | some q =>
    refine .inr ⟨q, _, rfl, h.insert (List.mem_of_find?_eq_some hfree) ?_⟩
    have := List.find?_some hfree
    simpa using this

/-- A register that is freed is no longer held. -/
theorem free (r : RegisterId) : (pool.free r).Serves (held.erase r) := by
  have hfind : ∀ r' q, (pool.free r).assigned.find? r' = some q →
      pool.assigned.find? r' = some q := by
    intro r' q hq
    rw [Pool.free, Table.find?_erase] at hq
    split at hq
    · cases hq
    · exact hq
  constructor
  · intro r'
    rw [Pool.free, Table.find?_erase, Finset.mem_erase]
    split
    · next heq => simp [heq]
    · next hne => simp [hne, h.holds r']
  · exact fun r' q hq => h.preferred r' q (hfind r' q hq)
  · exact fun r₁ r₂ q h₁ h₂ => h.distinct r₁ r₂ q (hfind _ _ h₁) (hfind _ _ h₂)

end Serves

end Pool

/-! ## Instructions -/

/-- The slots below `slots` have a place in the frame. -/
def GenerateContext.Places (c : GenerateContext) (slots : Nat) : Prop :=
  ∀ r < slots, (c.layout.offset? r).isSome

namespace Generate

variable {c : GenerateContext} {pool : Pool} {held : Finset RegisterId} {r : RegisterId}

/-- The failure for want of a register, where more registers would be held than there are. -/
def TooMany (c : GenerateContext) (held : Finset RegisterId) (failure : Failure) : Prop :=
  failure = .outOfRegisters c.label ∧ poolSize < held.card

theorem register_held (h : pool.Serves held) (hr : r ∈ held) :
    Ensures (register c r) pool (fun _ pool' => pool'.Serves held) fails := by
  obtain ⟨q, hq⟩ := h.assign_held hr
  have hrun : register c r pool = .ok q pool := by
    rw [register, run_get_bind, hq]
    rfl
  exact .of_ok hrun h

/-- A register whose life starts gets a machine register, unless all are taken. -/
theorem register_new (h : pool.Serves (held.erase r)) (hr : r ∈ held) :
    Ensures (register c r) pool (fun _ pool' => pool'.Serves held) (TooMany c held) := by
  rcases h.assign_new (Finset.notMem_erase r held) with ⟨hnone, hcard⟩ | ⟨q, pool', hq, h'⟩
  · have hrun : register c r pool = .error (.outOfRegisters c.label) pool := by
      rw [register, run_get_bind, hnone]
      rfl
    have hpos : 0 < held.card := Finset.card_pos.2 ⟨r, hr⟩
    rw [Finset.card_erase_of_mem hr] at hcard
    simp only [Ensures, hrun]
    exact ⟨rfl, by omega⟩
  · have hrun : register c r pool = .ok q pool' := by
      rw [register, run_get_bind, hq]
      rfl
    rw [Finset.insert_erase hr] at h'
    exact .of_ok hrun h'

theorem slot_ensures {slots : Nat} (hc : c.Places slots) (hr : r < slots) :
    Ensures (slot c r) pool (fun _ pool' => pool' = pool) fails := by
  obtain ⟨offset, hoffset⟩ := Option.isSome_iff_exists.1 (hc r hr)
  rw [slot, hoffset]
  exact .pure rfl

theorem symbol_ensures {id : FunctionId} (hid : id < c.program.functions.length) :
    Ensures (symbol c id) pool (fun _ pool' => pool' = pool) fails := by
  rw [symbol, List.getElem?_eq_getElem hid]
  exact .pure rfl

theorem nothingLive_ensures (h : pool.Serves held) {exception : Option RegisterId}
    (hheld : ∀ r ∈ held, some r = exception) :
    Ensures (nothingLive c exception) pool (fun _ pool' => pool' = pool) fails := by
  have hfilter : pool.live.filter (fun r => some r ≠ exception) = [] := by
    refine List.filter_eq_nil_iff.2 fun r hr => ?_
    simpa using hheld r (h.mem_live.1 hr)
  have hrun : nothingLive c exception pool = .ok () pool := by
    rw [nothingLive, run_get_bind, hfilter]
    rfl
  exact .of_ok hrun rfl

end Generate

section

variable {c : GenerateContext} {pool : Pool} {slots : Nat}

open Generate

/-- Code for an instruction takes a pool that serves the registers that are live before it to one
that serves those that are live after it. -/
theorem instruction_ensures (hc : c.Places slots) {i : Linear.Instruction} {rest : List Linear.Line}
    (hi : i.Orderly slots rest) (hslot : i.slot? = none)
    (hf : ∀ id, i.function? = some id → id < c.program.functions.length)
    (h : pool.Serves (i.liveBefore (live rest))) :
    Ensures (instruction c i) pool (fun _ pool' => pool'.Serves (live rest))
      (TooMany c (live rest)) := by
  cases i with
  | nop | jump | «return» => exact .pure h
  | allocParam | allocLocal => cases hslot
  | moveInt r value => exact (register_new h hi.2).bind_of fun _ _ h' => .pure h'
  | moveString r string => exact (register_new h hi.2).bind_of fun _ _ h' => .pure h'
  | moveFunction r id =>
    refine (symbol_ensures (hf id rfl)).bind_of ?_
    rintro symbol pool rfl
    exact (register_new h hi.2).bind_of fun _ _ h' => .pure h'
  | push r => exact (register_held h hi.1).bind_of fun _ _ h' => .pure h'
  | pop r => exact (register_new h hi.2).bind_of fun _ _ h' => .pure h'
  | load r slot =>
    refine (slot_ensures hc hi.2.2).bind_of ?_
    rintro operand pool rfl
    exact (register_new h hi.2.1).bind_of fun _ _ h' => .pure h'
  | storeRegister slot r =>
    refine (slot_ensures hc hi.1).bind_of ?_
    rintro operand pool rfl
    exact (register_held h hi.2).bind_of fun _ _ h' => .pure h'
  | storeImmediate slot value =>
    refine (slot_ensures hc hi).bind_of ?_
    rintro operand pool rfl
    exact .pure h
  | callRegister r arguments =>
    -- Only the callee is live.
    have hlive : live rest = {r} := hi.1
    have hserves : pool.Serves {r} := hlive ▸ h
    rw [hlive]
    refine (nothingLive_ensures hserves ?_).bind_of ?_
    · intro r' hr'
      rw [Finset.mem_singleton.1 hr']
    · rintro - pool rfl
      exact (register_held hserves (Finset.mem_singleton_self r)).bind_of fun _ _ h' => .pure h'
  | callImmediate id arguments =>
    have hlive : live rest = ∅ := hi
    have hserves : pool.Serves ∅ := hlive ▸ h
    rw [hlive]
    refine (nothingLive_ensures hserves fun r hr => absurd hr (Finset.notMem_empty r)).bind_of ?_
    rintro - pool rfl
    refine (symbol_ensures (hf id rfl)).bind_of ?_
    rintro symbol pool rfl
    exact .pure hserves
  | jumpIfNonZero r target =>
    have hr : r ∈ live rest := by simp [hi.1]
    exact (register_held h hr).bind_of fun _ _ h' => .pure h'
  | binary op destination source =>
    refine (register_held h hi.1).bind_of fun _ _ h' => ?_
    refine (register_held h' hi.2).bind_of fun _ _ hserves => ?_
    exact Ensures.bind_of (.get hserves) fun _ _ hserves => .pure hserves
  | kill r =>
    refine Ensures.bind_of (.modify ?_) fun _ _ h' => .pure h'
    have h' := h.free r
    rwa [Linear.Instruction.liveBefore, Finset.erase_insert hi.2] at h'

/-! ## Bodies -/

theorem lineLines_ensures (hc : c.Places slots) (comments : Comments) {line : Linear.Line}
    {rest : List Linear.Line} (ho : Linear.Orderly slots (line :: rest))
    (hslot : line.instruction.slot? = none)
    (hf : ∀ id, line.instruction.function? = some id → id < c.program.functions.length)
    (h : pool.Serves (live (line :: rest))) :
    Ensures (lineLines c comments line) pool (fun _ pool' => pool'.Serves (live rest))
      (TooMany c (live rest)) :=
  (instruction_ensures hc ho.2.1 hslot hf h).bind_of fun _ _ h' => .pure h'

theorem bodyLines_serves (hc : c.Places slots) (comments : Comments)
    {before rest : List Linear.Line} (ho : Linear.Orderly slots (before ++ rest))
    (hslots : ∀ line ∈ before, line.instruction.slot? = none)
    (hf : Linear.RefersBelow c.program.functions.length before)
    (h : pool.Serves (live (before ++ rest))) :
    Ensures (bodyLines c comments before) pool (fun _ pool' => pool'.Serves (live rest))
      fun failure => failure = .outOfRegisters c.label := by
  induction before generalizing pool with
  | nil => exact .pure h
  | cons line before ih =>
    have hline := lineLines_ensures hc comments ho (hslots line List.mem_cons_self)
      (hf line List.mem_cons_self) h
    refine Ensures.bind (hline.mono (fun _ pool' h' => ?_) fun _ hfailure => hfailure.1)
    exact (ih ho.2.2 (fun l hl => hslots l (List.mem_cons_of_mem _ hl))
      (fun l hl => hf l (List.mem_cons_of_mem _ hl)) h').bind_of fun _ _ h'' => .pure h''

/-- Code for orderly lines is generated exactly if there are enough machine registers. -/
theorem bodyLines_ensures (hc : c.Places slots) (comments : Comments)
    (ho : Linear.Orderly slots lines) (hslots : ∀ line ∈ lines, line.instruction.slot? = none)
    (hf : Linear.RefersBelow c.program.functions.length lines) (h : pool.Serves (live lines)) :
    Ensures (bodyLines c comments lines) pool (fun _ _ => Linear.Narrow poolSize lines) fun failure =>
      failure = .outOfRegisters c.label ∧ ¬Linear.Narrow poolSize lines := by
  induction lines generalizing pool with
  | nil => exact .pure trivial
  | cons line rest ih =>
    have hline := lineLines_ensures hc comments ho (hslots line List.mem_cons_self)
      (hf line List.mem_cons_self) h
    have hfirst := h.card_le
    refine Ensures.bind (hline.mono ?_ ?_)
    · intro first pool' h'
      have hrest := ih ho.2.2 (fun l hl => hslots l (List.mem_cons_of_mem _ hl))
        (fun l hl => hf l (List.mem_cons_of_mem _ hl)) h'
      refine Ensures.bind (hrest.mono ?_ ?_)
      · exact fun _ _ hnarrow => .pure ⟨hfirst, hnarrow⟩
      · exact fun _ hfailure => ⟨hfailure.1, fun hnarrow => hfailure.2 hnarrow.2⟩
    · rintro failure ⟨rfl, hcard⟩
      refine ⟨rfl, fun hnarrow => ?_⟩
      have := hnarrow.2.card_le
      omega

end

def SlotDecls.names (decls : SlotDecls) : List RegisterId :=
  decls.params.map Prod.fst ++ decls.locals.map Prod.fst

theorem keys_offsetsAbove (base : Nat) (slots : List (RegisterId × Nat)) :
    (offsetsAbove base slots).map Prod.fst = slots.map Prod.fst := by
  induction slots generalizing base with
  | nil => rfl
  | cons slot slots ih => simp [offsetsAbove, ih]

theorem offsetsBelow_eq (base : Nat) (slots : List (RegisterId × Nat)) :
    offsetsBelow base slots = (offsetsAbove base slots).map fun e => (e.1, -e.2) := by
  induction slots generalizing base with
  | nil => rfl
  | cons slot slots ih => rw [offsetsBelow, ih, offsetsAbove, List.map_cons]

theorem keys_offsetsBelow (base : Nat) (slots : List (RegisterId × Nat)) :
    (offsetsBelow base slots).map Prod.fst = slots.map Prod.fst := by
  rw [offsetsBelow_eq, List.map_map, ← keys_offsetsAbove base]
  rfl

theorem SlotDecls.isSome_offset? {decls : SlotDecls} {r : RegisterId} (h : r ∈ decls.names) :
    (decls.layout.offset? r).isSome := by
  refine Table.find?_ofList_isSome ?_
  rw [List.map_append, keys_offsetsAbove, keys_offsetsBelow, List.map_reverse]
  simpa [names] using h

theorem mem_names_foldl {step : SlotDecls → Linear.Line → SlotDecls}
    (hkeep : ∀ decls line, decls.names ⊆ (step decls line).names)
    (hadd : ∀ decls line r, line.instruction.slot? = some r → r ∈ (step decls line).names)
    {decls : SlotDecls} {r : RegisterId}
    (h : r ∈ decls.names ∨ ∃ line ∈ lines, line.instruction.slot? = some r) :
    r ∈ (lines.foldl step decls).names := by
  induction lines generalizing decls with
  | nil => simpa using h
  | cons line lines ih =>
    refine ih ?_
    rcases h with h | ⟨line', hmem, hr⟩
    · exact .inl (hkeep decls line h)
    · rcases List.mem_cons.1 hmem with rfl | hmem
      · exact .inl (hadd decls line' r hr)
      · exact .inr ⟨line', hmem, hr⟩

theorem mem_names_headSlots {r : RegisterId}
    (h : ∃ line ∈ lines.takeWhile declaresSlot, line.instruction.slot? = some r) :
    r ∈ (headSlots lines).names := by
  unfold headSlots
  refine mem_names_foldl ?_ ?_ (.inr h)
  · intro decls line
    split <;> simp [SlotDecls.names, SlotDecls.addParam, SlotDecls.addLocal]
  · intro decls line r hr
    cases hi : line.instruction <;> rw [hi] at hr <;> cases hr <;>
      simp [SlotDecls.names, SlotDecls.addParam, SlotDecls.addLocal]

theorem slot?_of_mem_dropWhile (h : Linear.SlotsFirst lines)
    {line : Linear.Line} (hline : line ∈ lines.dropWhile declaresSlot) :
    line.instruction.slot? = none := by
  induction lines with
  | nil => simp at hline
  | cons first rest ih =>
    obtain ⟨hfirst, hrest⟩ := List.pairwise_cons.1 h
    by_cases hd : declaresSlot first = true
    · rw [List.dropWhile_cons_of_pos hd] at hline
      exact ih hrest hline
    · rw [List.dropWhile_cons_of_neg hd] at hline
      rcases List.mem_cons.1 hline with rfl | hmem
      · simpa [declaresSlot] using hd
      · have := mt (hfirst line hmem) hd
        simpa using this

section Heads

variable {b : Linear.Body} {slots : Nat} (hb : b.Orderly slots)
include hb

theorem places_headSlots (p : Linear.Program) (label : String) :
    GenerateContext.Places ⟨p, label, (headSlots b.lines).layout⟩ slots := by
  intro r hr
  obtain ⟨line, hline, hslot⟩ := hb.declared r hr
  refine SlotDecls.isSome_offset? (mem_names_headSlots ⟨line, ?_, hslot⟩)
  rw [← List.takeWhile_append_dropWhile (p := declaresSlot) (l := b.lines), List.mem_append] at hline
  refine hline.resolve_right fun hline => ?_
  rw [slot?_of_mem_dropWhile hb.slotsFirst hline] at hslot
  cases hslot

/-- No register is live after the head of an orderly body. -/
theorem live_dropWhile : live (b.lines.dropWhile declaresSlot) = ∅ := by
  have hdeclares : ∀ line ∈ b.lines.takeWhile declaresSlot, line.instruction.slot?.isSome :=
    fun line hl => (List.mem_takeWhile_imp hl : declaresSlot line = true)
  rw [← live_declares hdeclares, List.takeWhile_append_dropWhile, hb.start]

end Heads

/-- What generation gives if it can only fail for want of a register. -/
def Generates {α : Type} (label : String) (enough : Prop) (x : Except Failure α) : Prop :=
  ((∃ a, x = .ok a) ∧ enough) ∨ (x = .error (.outOfRegisters label) ∧ ¬enough)

theorem generateFunction_ensures {p : Linear.Program} (comments : Comments) (label : String)
    {b : Linear.Body} {slots : Nat} (hb : b.Regular slots p.functions.length) :
    Ensures (generateFunction ⟨p, label, (headSlots b.lines).layout⟩ comments b) {}
      (fun _ _ => Linear.Narrow poolSize b.lines) fun failure =>
        failure = .outOfRegisters label ∧ ¬Linear.Narrow poolSize b.lines := by
  obtain ⟨hb, hrefers⟩ := hb
  have hsplit : b.lines.takeWhile declaresSlot ++ b.lines.dropWhile declaresSlot = b.lines :=
    List.takeWhile_append_dropWhile
  have hdeclares : ∀ line ∈ b.lines.takeWhile declaresSlot, line.instruction.slot?.isSome :=
    fun line hl => (List.mem_takeWhile_imp hl : declaresSlot line = true)
  have hplaces := places_headSlots hb p label
  have hlive := live_dropWhile hb
  have hnarrow : Linear.Narrow poolSize (b.lines.dropWhile declaresSlot) ↔
      Linear.Narrow poolSize b.lines := by
    constructor
    · intro h
      rw [← hsplit]
      exact Linear.narrow_declares hdeclares hlive h
    · intro h
      rw [← hsplit] at h
      exact h.of_append
  have hsuffix : b.lines.dropWhile declaresSlot <:+ b.lines := List.dropWhile_suffix _
  have hserves : ({} : Pool).Serves (live (b.lines.dropWhile declaresSlot)) :=
    hlive ▸ Pool.serves_empty
  have hbody := bodyLines_ensures hplaces comments (hb.lines.of_suffix hsuffix)
    (fun _ => slot?_of_mem_dropWhile hb.slotsFirst)
    (fun line hl => hrefers line (hsuffix.subset hl)) hserves
  rw [hnarrow] at hbody
  refine (Generate.slot_ensures hplaces hb.result).bind_of ?_
  rintro result pool rfl
  exact hbody.bind_of fun _ _ h => .pure h

theorem functionLines_generates {p : Linear.Program} (comments : Comments) (label : String)
    {b : Linear.Body} {slots : Nat} (hb : b.Regular slots p.functions.length) :
    Generates label (Linear.Narrow poolSize b.lines) (functionLines p comments label b) := by
  have hgenerate := generateFunction_ensures comments label hb
  rw [functionLines, EStateM.run]
  rw [Ensures] at hgenerate
  split <;> rename_i hrun <;> rw [hrun] at hgenerate
  · exact .inl ⟨⟨_, rfl⟩, hgenerate⟩
  · exact .inr ⟨by rw [hgenerate.1], hgenerate.2⟩

/-! ## Programs -/

theorem Generates.bind {α β : Type} {label : String} {enough : Prop} {x : Except Failure α}
    {k : α → Except Failure β} (h : Generates label enough x) (hk : ∀ a, ∃ b, k a = .ok b) :
    Generates label enough (x >>= k) := by
  rcases h with ⟨⟨a, rfl⟩, henough⟩ | ⟨rfl, hnot⟩
  · exact .inl ⟨hk a, henough⟩
  · exact .inr ⟨rfl, hnot⟩

theorem exists_bridges {f : Linear.Function} (h : f.arity ≤ Register.arguments.length)
    (symbol : String) :
    (∃ lines, foreignBridge f symbol = .ok lines) ∧ ∃ lines, exportBridge f symbol = .ok lines := by
  have hregisters : argumentRegisters f = .ok (Register.arguments.take f.arity) := if_pos h
  constructor
  · exact ⟨_, by rw [foreignBridge, hregisters]; rfl⟩
  · exact ⟨_, by rw [exportBridge, hregisters]; rfl⟩

variable {p : Linear.Program}

theorem definitionLines_generates (comments : Comments) {f : Linear.Function}
    (hregular : ∀ b, f.definition = .body b → ∃ slots, b.Regular slots p.functions.length)
    (hbridged : f.Bridged) :
    Generates f.label (f.Narrow poolSize) (definitionLines p comments f) := by
  refine Generates.bind ?_ fun lines => ?_
  · cases hd : f.definition with
    | foreign symbol =>
      rw [ownLines, hd]
      refine .inl ⟨(exists_bridges (hbridged (.inr ⟨symbol, hd⟩)) symbol).1, ?_⟩
      intro b hb
      rw [hd] at hb
      cases hb
    | body b =>
      have hnarrow : f.Narrow poolSize ↔ Linear.Narrow poolSize b.lines := by
        constructor
        · exact fun h => h b hd
        · intro h b' hb'
          rw [hd] at hb'
          cases hb'
          exact h
      obtain ⟨slots, hb⟩ := hregular b hd
      rw [ownLines, hd, hnarrow]
      exact functionLines_generates comments f.label hb
  · have hexport : ∃ bridge, exportLines f = .ok bridge := by
      unfold exportLines
      split
      · next symbol he => exact (exists_bridges (hbridged (.inl (by rw [he]; rfl))) symbol).2
      · exact ⟨[], rfl⟩
    obtain ⟨bridge, hbridge⟩ := hexport
    exact ⟨_, by rw [hbridge]; rfl⟩

/-- Code for functions is generated up to the first one with too many live registers. -/
theorem definitionsLines_cases (comments : Comments) {fs : List Linear.Function}
    (hregular : ∀ f ∈ fs, ∀ b, f.definition = .body b → ∃ slots, b.Regular slots p.functions.length)
    (hbridged : ∀ f ∈ fs, f.Bridged) :
    ((∃ lines, definitionsLines p comments fs = .ok lines) ∧ ∀ f ∈ fs, f.Narrow poolSize) ∨
      ∃ before f after, fs = before ++ f :: after ∧ (∀ g ∈ before, g.Narrow poolSize) ∧
        ¬f.Narrow poolSize ∧ definitionsLines p comments fs = .error (.outOfRegisters f.label) := by
  induction fs with
  | nil => exact .inl ⟨⟨[], rfl⟩, fun f hf => absurd hf List.not_mem_nil⟩
  | cons f fs ih =>
    have hfirst := definitionLines_generates comments (hregular f List.mem_cons_self)
      (hbridged f List.mem_cons_self)
    have hrest := ih (fun g hg => hregular g (List.mem_cons_of_mem _ hg))
      (fun g hg => hbridged g (List.mem_cons_of_mem _ hg))
    rw [definitionsLines]
    rcases hfirst with ⟨⟨first, hrun⟩, hnarrow⟩ | ⟨hrun, hwide⟩
    · rw [hrun]
      rcases hrest with ⟨⟨lines, hlines⟩, hall⟩ | ⟨before, g, after, rfl, hbefore, hwide, hlines⟩
      · refine .inl ⟨⟨_, by rw [hlines]; rfl⟩, ?_⟩
        exact List.forall_mem_cons.2 ⟨hnarrow, hall⟩
      · refine .inr ⟨f :: before, g, after, rfl, ?_, hwide, by rw [hlines]; rfl⟩
        exact List.forall_mem_cons.2 ⟨hnarrow, hbefore⟩
    · refine .inr ⟨[], f, fs, rfl, fun g hg => absurd hg List.not_mem_nil, hwide, ?_⟩
      rw [hrun]
      rfl

theorem ofProgram_cases (comments : Comments) (hregular : p.Regular)
    (hbridged : ∀ f ∈ p.functions, f.Bridged) :
    ((∃ text, ofProgram p comments = .ok text) ∧ ∀ f ∈ p.functions, f.Narrow poolSize) ∨
      ∃ before f after, p.functions = before ++ f :: after ∧ (∀ g ∈ before, g.Narrow poolSize) ∧
        ¬f.Narrow poolSize ∧ ofProgram p comments = .error (.outOfRegisters f.label) := by
  rw [ofProgram, programLines]
  rcases definitionsLines_cases comments hregular hbridged with
    ⟨⟨lines, hlines⟩, hall⟩ | ⟨before, f, after, hsplit, hbefore, hwide, hlines⟩
  · exact .inl ⟨⟨_, by rw [hlines]; rfl⟩, hall⟩
  · exact .inr ⟨before, f, after, hsplit, hbefore, hwide, by rw [hlines]; rfl⟩

end Assembly

end WordLang
