import Mathlib.Data.Set.Function
import WordLang.Proofs.Linear.Life
import WordLang.Proofs.Linear.Refinement

/-!
# Lines with renamed registers

An activation copies another if it holds the values of its registers under other names. A line and
the same line with renamed registers do the same in an activation and its copy, as long as no two
live registers get one name.

## Main definitions

* `Linear.Copies ρ f g`: the activation `g` holds the values of `f` under the names that `ρ` gives
* `Linear.Twins`: bodies with corresponding places and the same slots

## Main results

* `Linear.Twins.act_instruction`, `Linear.Twins.act`: an instruction or a line and its renamed copy
  do the same
-/

namespace WordLang.Linear

/-- A line with its registers and slots changed. -/
def Line.mapRegisters (ρ : RegisterId → RegisterId) (line : Line) : Line :=
  { line with instruction := line.instruction.mapRegisters ρ }

/-- The activation `g` holds the values of `f` under the names that `ρ` gives to registers. -/
structure Copies (ρ : RegisterId → RegisterId) (f g : Frame) : Prop where
  label : g.label = f.label
  arguments : g.arguments = f.arguments
  slots : g.slots = f.slots
  base : g.base = f.base
  value : ∀ {r v}, f.registers.find? r = some v → g.registers.find? (ρ r) = some v
  source : ∀ {r}, (g.registers.find? r).isSome → ∃ r', ρ r' = r ∧ (f.registers.find? r').isSome

namespace Copies

variable {ρ : RegisterId → RegisterId} {f g : Frame}

/-- Activations without values in registers copy each other. -/
theorem of_empty (hlabel : g.label = f.label) (harguments : g.arguments = f.arguments)
    (hslots : g.slots = f.slots) (hbase : g.base = f.base) (hf : f.registers = Table.empty)
    (hg : g.registers = Table.empty) : Copies ρ f g := by
  refine ⟨hlabel, harguments, hslots, hbase, fun h => ?_, fun h => ?_⟩
  · rw [hf] at h; cases h
  · rw [hg] at h; cases h

theorem registers_eq_empty (h : Copies ρ f g) (hf : f.registers = Table.empty) :
    g.registers = Table.empty := by
  refine Table.eq_empty_of_find? fun r => ?_
  by_contra hr
  obtain ⟨r', -, hr'⟩ := h.source (Option.isSome_iff_ne_none.2 hr)
  rw [hf] at hr'
  cases hr'

variable {r : RegisterId}

/-- A register and its copy change alike, and the others stay. -/
theorem update {registers registers' : Table Int64} (h : Copies ρ f g)
    (hρ : ∀ x, (f.registers.find? x).isSome → x ≠ r → ρ x ≠ ρ r)
    (hsame : registers'.find? (ρ r) = registers.find? r)
    (hstay : ∀ x ≠ r, registers.find? x = f.registers.find? x)
    (hstay' : ∀ y ≠ ρ r, registers'.find? y = g.registers.find? y) :
    Copies ρ { f with registers } { g with registers := registers' } := by
  refine ⟨h.label, h.arguments, h.slots, h.base, fun {x w} hx => ?_, fun {y} hy => ?_⟩
  · by_cases hxr : x = r
    · subst hxr
      exact hsame.trans hx
    · rw [hstay x hxr] at hx
      rw [hstay' _ (hρ x (by simp [hx]) hxr)]
      exact h.value hx
  · by_cases hyr : y = ρ r
    · exact ⟨r, hyr.symm, hsame ▸ hyr ▸ hy⟩
    · rw [hstay' y hyr] at hy
      obtain ⟨x, rfl, hx⟩ := h.source hy
      exact ⟨x, rfl, (hstay x fun hxr => hyr (congrArg ρ hxr)).symm ▸ hx⟩

theorem write (h : Copies ρ f g) (hρ : ∀ x, (f.registers.find? x).isSome → x ≠ r → ρ x ≠ ρ r)
    (v : Int64) : Copies ρ (f.write r v) (g.write (ρ r) v) :=
  h.update hρ (by simp) (fun _ hx => Table.find?_insert_of_ne hx ..)
    fun _ hy => Table.find?_insert_of_ne hy ..

theorem erase (h : Copies ρ f g) (hρ : ∀ x, (f.registers.find? x).isSome → x ≠ r → ρ x ≠ ρ r) :
    Copies ρ { f with registers := f.registers.erase r }
      { g with registers := g.registers.erase (ρ r) } :=
  h.update hρ (by simp) (fun _ hx => Table.find?_erase_of_ne hx ..)
    fun _ hy => Table.find?_erase_of_ne hy ..

end Copies

/-- Activations at corresponding places, of which the second copies the first. -/
structure AtCopies (ρ : RegisterId → RegisterId) (places : List Line → List Line → Prop)
    (b b' : Body) (f g : Frame) : Prop where
  body : f.body = b
  body' : g.body = b'
  rest : places f.rest g.rest
  copies : Copies ρ f g

/-- What corresponding lines have to do: the same, and to go on at corresponding places. -/
def SameAction (ρ : RegisterId → RegisterId) (places : List Line → List Line → Prop)
    (b b' : Body) : Action → Action → Prop
  | .go f stack, .go g stack' => stack' = stack ∧ AtCopies ρ places b b' f g
  | .call f id arguments, .call g id' arguments' =>
    id' = id ∧ arguments' = arguments ∧ AtCopies ρ places b b' f g
  | .finish value, .finish value' => value' = value
  | .fail e, .fail e' => e' = e
  | _, _ => False

structure Twins (ρ : RegisterId → RegisterId) (slots : Nat) (places : List Line → List Line → Prop)
    (b b' : Body) : Prop where
  orderly : b.Orderly slots
  fixes : ∀ {r}, r < slots → ρ r = r
  result : b'.result = b.result
  declares : ∀ r, (b'.lines.any fun line => line.instruction.slot? = some r) =
    b.lines.any fun line => line.instruction.slot? = some r
  seek : ∀ label, (seek label b.lines = none ∧ seek label b'.lines = none) ∨
    ∃ lines lines', seek label b.lines = some lines ∧ seek label b'.lines = some lines' ∧
      places lines lines'

namespace Twins

theorem mono {ρ : RegisterId → RegisterId} {slots : Nat} {places places' : List Line → List Line → Prop}
    {b b' : Body} (tw : Twins ρ slots places b b')
    (h : ∀ lines lines', places lines lines' → places' lines lines') :
    Twins ρ slots places' b b' := by
  refine ⟨tw.orderly, tw.fixes, tw.result, tw.declares, fun label => ?_⟩
  rcases tw.seek label with hnone | ⟨lines, lines', hs, hs', hp⟩
  · exact .inl hnone
  · exact .inr ⟨lines, lines', hs, hs', h lines lines' hp⟩

variable {ρ : RegisterId → RegisterId} {slots : Nat} {places : List Line → List Line → Prop}
  {b b' : Body} (tw : Twins ρ slots places b b') {f g : Frame}
include tw

/-- Slots have the same values in an activation and its copy. -/
theorem slot_eq (h : AtCopies ρ places b b' f g) (r : RegisterId) : g.slot r = f.slot r := by
  simp only [Frame.slot, h.copies.slots, h.body, h.body', tw.declares]

theorem goto (h : AtCopies ρ places b b' f g) (label : LabelId) (stack : List Int64) :
    SameAction ρ places b b' (f.goto label stack) (g.goto label stack) := by
  rcases tw.seek label with ⟨hs, hs'⟩ | ⟨lines, lines', hs, hs', hp⟩
  · simp [Frame.goto, h.body, h.body', hs, hs', SameAction]
  · simp only [Frame.goto, h.body, h.body', hs, hs']
    obtain ⟨hlabel, harguments, hslots, hbase, hvalue, hsource⟩ := h.copies
    exact ⟨rfl, rfl, rfl, hp, hlabel, harguments, hslots, hbase, hvalue, hsource⟩

theorem readingSlot (h : AtCopies ρ places b b' f g) (r : RegisterId) {k k' : Int64 → Action}
    (hk : ∀ v, SameAction ρ places b b' (k v) (k' v)) :
    SameAction ρ places b b' (f.readingSlot r k) (g.readingSlot r k') := by
  simp only [Frame.readingSlot, tw.slot_eq h]
  cases f.slot r with
  | ok v => exact hk v
  | error e => rfl

end Twins

section Act

variable {ρ : RegisterId → RegisterId} {places : List Line → List Line → Prop} {b b' : Body}
  {f g : Frame} {r : RegisterId}

theorem AtCopies.reading (h : AtCopies ρ places b b' f g) (hr : (f.registers.find? r).isSome)
    {k k' : Int64 → Action}
    (hk : ∀ v, f.registers.find? r = some v → SameAction ρ places b b' (k v) (k' v)) :
    SameAction ρ places b b' (f.reading r k) (g.reading (ρ r) k') := by
  obtain ⟨v, hv⟩ := Option.isSome_iff_exists.1 hr
  simp only [Frame.reading, hv, h.copies.value hv]
  exact hk v hv

theorem AtCopies.write (h : AtCopies ρ places b b' f g)
    (hρ : ∀ x, (f.registers.find? x).isSome → x ≠ r → ρ x ≠ ρ r) (v : Int64)
    (stack : List Int64) :
    SameAction ρ places b b' (.go (f.write r v) stack) (.go (g.write (ρ r) v) stack) :=
  ⟨rfl, h.body, h.body', h.rest, h.copies.write hρ v⟩

theorem AtCopies.store (h : AtCopies ρ places b b' f g) (v : Int64) :
    AtCopies ρ places b b' (f.store r v) (g.store r v) := by
  obtain ⟨hlabel, harguments, hslots, hbase, hvalue, hsource⟩ := h.copies
  refine ⟨h.body, h.body', h.rest, hlabel, harguments, ?_, hbase, hvalue, hsource⟩
  simp only [Frame.store, hslots]

theorem Frame.killAfterBranch_of_rest {labels : List LabelId} {rest : List Line}
    (h : f.rest = ⟨labels, .kill r⟩ :: rest) :
    f.killAfterBranch r = { f with registers := f.registers.erase r } := by
  simp only [Frame.killAfterBranch]
  split
  · next hr =>
    rw [h] at hr
    cases hr
    rw [if_pos rfl]
  · next hr => exact (hr labels r rest h).elim

/-- An instruction and its renamed copy do the same, if no two values get one name. The activations
are at the lines after it. -/
theorem Twins.act_instruction {slots : Nat} (tw : Twins ρ slots places b b')
    (h : AtCopies ρ places b b' f g) {i : Instruction} (ho : i.Orderly slots f.rest)
    (hlive : ∀ x ∈ i.liveBefore (live f.rest), (f.registers.find? x).isSome)
    (hinj : Set.InjOn ρ {x | (f.registers.find? x).isSome ∨ i.born? = some x})
    (hreturn : i = .return → f.registers = Table.empty)
    (hkill : ∀ r target rest, i = .jumpIfNonZero r target → f.rest = ⟨[], .kill r⟩ :: rest →
      ∃ rest', g.rest = ⟨[], .kill (ρ r)⟩ :: rest')
    (stack : List Int64) :
    SameAction ρ places b b' (i.act f stack) ((i.mapRegisters ρ).act g stack) := by
  -- The renaming keeps a register apart from those with values, be it new or one of them.
  have hborn : ∀ {r}, i.born? = some r →
      ∀ x, (f.registers.find? x).isSome → x ≠ r → ρ x ≠ ρ r :=
    fun hr x hx hne heq => hne (hinj (.inl hx) (.inr hr) heq)
  have hheld : ∀ {r}, (f.registers.find? r).isSome →
      ∀ x, (f.registers.find? x).isSome → x ≠ r → ρ x ≠ ρ r :=
    fun hr x hx hne heq => hne (hinj (.inl hx) (.inl hr) heq)
  cases i with
  | nop => exact ⟨rfl, h⟩
  | allocParam r size =>
    simp only [Instruction.mapRegisters, Instruction.act, h.copies.arguments, tw.fixes ho]
    cases f.arguments with
    | nil => rfl
    | cons v rest =>
      obtain ⟨hlabel, harguments, hslots, hbase, hvalue, hsource⟩ := (h.store (r := r) v).copies
      exact ⟨rfl, h.body, h.body', h.rest, hlabel, rfl, hslots, hbase, hvalue, hsource⟩
  | allocLocal r size => exact ⟨rfl, h⟩
  | moveInt r v => exact h.write (hborn rfl) v stack
  | moveString r s => exact h.write (hborn rfl) _ stack
  | moveFunction r fn => exact h.write (hborn rfl) _ stack
  | push r => exact h.reading (hlive r ho.1) fun v _ => ⟨rfl, h⟩
  | pop r =>
    cases stack with
    | nil => rfl
    | cons v stack => exact h.write (hborn rfl) v stack
  | load r slot =>
    simp only [Instruction.mapRegisters, Instruction.act, tw.fixes ho.2.2]
    exact tw.readingSlot h slot fun v =>
      h.write (hborn rfl) v stack
  | storeRegister slot r =>
    simp only [Instruction.mapRegisters, Instruction.act, tw.fixes ho.1]
    exact h.reading (hlive r ho.2) fun v _ => ⟨rfl, h.store v⟩
  | storeImmediate slot v =>
    simp only [Instruction.mapRegisters, Instruction.act, tw.fixes ho]
    exact ⟨rfl, h.store v⟩
  | callRegister r n =>
    have hr : r ∈ live f.rest := by rw [show live f.rest = {r} from ho.1]; simp
    refine h.reading (hlive r hr) fun v _ => ?_
    split
    · rfl
    · exact ⟨rfl, rfl, h⟩
  | callImmediate fn n => exact ⟨rfl, rfl, h⟩
  | jump target => exact tw.goto h target stack
  | jumpIfNonZero r target =>
    obtain ⟨hr, target', rest, hrest⟩ := ho
    replace hr : r ∈ live f.rest := by rw [hr]; simp
    obtain ⟨rest', hrest'⟩ := hkill r target _ rfl hrest
    refine h.reading (hlive r hr) fun v _ => ?_
    split
    · refine tw.goto ?_ target stack
      rw [Frame.killAfterBranch_of_rest hrest, Frame.killAfterBranch_of_rest hrest']
      exact ⟨h.body, h.body', h.rest, h.copies.erase (hheld (hlive r hr))⟩
    · exact ⟨rfl, h⟩
  | «return» =>
    have hempty := hreturn rfl
    simp only [Instruction.mapRegisters, Instruction.act, hempty, h.copies.registers_eq_empty hempty,
      Table.keys_empty, h.copies.base, h.copies.label, h.body, h.body', tw.result]
    split
    · rfl
    · exact tw.readingSlot h b.result fun v => rfl
  | binary op destination source =>
    refine h.reading (hlive _ ho.1) fun lhs _ => h.reading (hlive _ ho.2) fun rhs _ => ?_
    cases evaluate op lhs rhs with
    | error e => rfl
    | ok v => exact h.write (hheld (hlive _ ho.1)) v stack
  | kill r =>
    have hr := hlive r (Finset.mem_insert_self _ _)
    obtain ⟨v, hv⟩ := Option.isSome_iff_exists.1 hr
    simp only [Instruction.mapRegisters, Instruction.act, hv, h.copies.value hv]
    exact ⟨rfl, h.body, h.body', h.rest, h.copies.erase (hheld hr)⟩

/-- A line and its renamed copy do the same, if no two live registers get one name. -/
theorem Twins.act {slots : Nat} (tw : Twins ρ slots places b b') (hf : f.Healthy slots)
    (hbody : f.body = b) (hbody' : g.body = b') (hc : Copies ρ f g) {line : Line}
    {rest rest' : List Line} (hrest : f.rest = line :: rest)
    (hrest' : g.rest = line.mapRegisters ρ :: rest') (hp : places rest rest')
    (hbefore : Set.InjOn ρ (live (line :: rest))) (hafter : Set.InjOn ρ (live rest))
    (hkill : ∀ r rest₁, rest = ⟨[], .kill r⟩ :: rest₁ →
      ∃ rest₂, rest' = ⟨[], .kill (ρ r)⟩ :: rest₂)
    (stack : List Int64) : SameAction ρ places b b' (act f stack) (act g stack) := by
  have horder := hf.orderly
  have htracks := hf.tracks
  rw [Frame.Tracks, hrest] at htracks
  rw [hrest] at horder
  obtain ⟨hlabel, harguments, hslots, hbase, hvalue, hsource⟩ := hc
  have hat : AtCopies ρ places b b' { f with rest } { g with rest := rest' } :=
    ⟨hbody, hbody', hp, hlabel, harguments, hslots, hbase, hvalue, hsource⟩
  simp only [Linear.act, hrest, hrest']
  refine tw.act_instruction hat horder.2.1 (fun x hx => (htracks x).2 hx) ?_ ?_
    (fun r _ rest₁ _ => hkill r rest₁) stack
  · -- Before a birth, the live registers are some of those that are live after it.
    cases hb : line.instruction.born? with
    | none =>
      refine hbefore.mono ?_
      rintro x (hx | hx)
      · exact (htracks x).1 hx
      · cases hx
    | some r =>
      refine hafter.mono ?_
      rintro x (hx | hx)
      · have hx := (htracks x).1 hx
        rw [live_cons, Instruction.mem_liveBefore] at hx
        rcases hx with hx | ⟨hx, -⟩
        · rw [hx] at hb
          cases hb
        · exact hx
      · exact horder.2.1.mem_live_of_born? (hb.trans hx)
  · intro hi
    refine hf.registers_eq_empty ?_
    have hreturn := horder.2.1
    rw [hi] at hreturn
    rw [hrest, live_cons, hi]
    exact hreturn.1

end Act

end WordLang.Linear
