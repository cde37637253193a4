import WordLang.Proofs.Assembly.Calls
import WordLang.Proofs.Assembly.Operators

/-!
# What lines do on the processor

The instructions of a line that goes on with the next one do to the processor what the line does to
its activation: a virtual register that is still needed has its value in its machine register, and
the stack holds the operands and slots. Machine registers are shared by no two live registers, so
writing to one of them changes one value only.

## Main definitions

* `Assembly.Registered`: the machine registers hold the values that are still needed
* `Assembly.Ready`: the processor before the instructions of a line
* `Assembly.Advances`: the processor gets to the end of them, with the activation changed

## Main results

* `Assembly.Ready.advances`: what a line does that goes on with the next one
-/

namespace WordLang.Assembly

/-! ## The register pool -/

theorem ne_of_mem_preferred {q : Register} (h : q ∈ Register.preferred) : q ≠ .rsp ∧ q ≠ .rbp :=
  (by decide : ∀ q ∈ Register.preferred, q ≠ .rsp ∧ q ≠ .rbp) q h

section

variable {g : GenerateContext} {pool pool' : Pool} {r : RegisterId} {q : Register}

theorem assign_of_register (h : Generate.register g r pool = .ok q pool') :
    pool.assign r = some (q, pool') := by
  obtain ⟨pool₁, pool₂, hget, h⟩ := exists_of_run_bind_eq_ok h
  cases hget
  cases hassign : pool.assign r with
  | none =>
    simp only [hassign] at h
    cases h
  | some result =>
    obtain ⟨q', pool'⟩ := result
    simp only [hassign] at h
    cases h
    rfl

theorem assign_of_find? (h : pool.assigned.find? r = some q) : pool.assign r = some (q, pool) := by
  rw [Pool.assign, h]

theorem find?_of_assign (h : pool.assign r = some (q, pool')) :
    pool'.assigned.find? r = some q ∧
      ∀ r' ≠ r, pool'.assigned.find? r' = pool.assigned.find? r' := by
  unfold Pool.assign at h
  cases hfind : pool.assigned.find? r with
  | some q' =>
    simp only [hfind, Option.some.injEq, Prod.mk.injEq] at h
    obtain ⟨rfl, rfl⟩ := h
    exact ⟨hfind, fun _ _ => rfl⟩
  | none =>
    simp only [hfind, Option.map_eq_some_iff, Prod.mk.injEq] at h
    obtain ⟨q', -, rfl, rfl⟩ := h
    exact ⟨Table.find?_insert_self .., fun r' hr' => Table.find?_insert_of_ne hr' ..⟩

theorem slot_eq_ok {operand : Operand} (h : Generate.slot g r pool = .ok operand pool') :
    ∃ offset, g.layout.offset? r = some offset ∧ operand = .frame offset ∧ pool' = pool := by
  unfold Generate.slot at h
  cases hoffset : g.layout.offset? r with
  | none =>
    simp only [hoffset] at h
    cases h
  | some offset =>
    simp only [hoffset] at h
    cases h
    exact ⟨offset, rfl, rfl, rfl⟩

theorem symbol_eq_ok {id : FunctionId} {operand : Operand}
    (h : Generate.symbol g id pool = .ok operand pool') :
    ∃ f, g.program.functions[id]? = some f ∧ operand = .symbol f.label ∧ pool' = pool := by
  unfold Generate.symbol at h
  cases hf : g.program.functions[id]? with
  | none =>
    simp only [hf] at h
    cases h
  | some f =>
    simp only [hf] at h
    cases h
    exact ⟨f, rfl, rfl, rfl⟩

theorem nothingLive_eq_ok {exception : Option RegisterId} {u : Unit}
    (h : Generate.nothingLive g exception pool = .ok u pool') : pool' = pool := by
  obtain ⟨pool₁, pool₂, hget, h⟩ := exists_of_run_bind_eq_ok h
  cases hget
  cases hlive : pool.live.filter fun r => some r ≠ exception with
  | nil =>
    simp only [hlive] at h
    cases h
    rfl
  | cons r live =>
    simp only [hlive] at h
    cases h

end

theorem signExtend_of_isSmall {value : Int64} (h : Linear.isSmall value = true) :
    (BitVec.ofInt 32 value.toInt).signExtend 64 = value.toBitVec := by
  simp only [Linear.isSmall, Bool.and_eq_true, decide_eq_true_eq] at h
  have hhalf : (BitVec.ofInt 32 value.toInt).toInt = value.toInt := by
    rw [BitVec.toInt_ofInt]
    exact Int.bmod_eq_of_le (by omega) (by omega)
  rw [BitVec.signExtend, hhalf]
  exact BitVec.ofInt_toInt

/-! ## Values in registers -/

variable {p : Linear.Program} {sig : FunctionId → Option Signature} {comments : Comments}
  {lines : List Line} {img : Image lines}

section

variable (p img) (kind : RegisterId → Kind)

def Registered (rest : List Linear.Line) (registers : Table Int64) (pool : Pool) (c : Core) : Prop :=
  ∀ r v q, registers.find? r = some v → pool.assigned.find? r = some q →
    ¬Linear.OnlyKilled r rest → Means p img (kind r) v (c.registers q)

end

namespace Registered

variable {kind : RegisterId → Kind} {line : Linear.Line} {rest : List Linear.Line}
  {registers : Table Int64} {pool pool' : Pool} {c c' : Core} {r : RegisterId} {q : Register}
  {v : Int64}

/-- A register that is needed after a line was needed before it. -/
theorem not_onlyKilled_cons (h : ¬Linear.OnlyKilled r rest) (hline : line.instruction ≠ .kill r) :
    ¬Linear.OnlyKilled r (line :: rest) := fun hkilled =>
  hkilled.elim hline fun hlater => h hlater.2

theorem not_onlyKilled_of_mem (hr : r ∈ line.instruction.registers)
    (hline : line.instruction ≠ .kill r) : ¬Linear.OnlyKilled r (line :: rest) := fun hkilled =>
  hkilled.elim hline fun hlater => hlater.1 hr

theorem keep (h : Registered p img kind (line :: rest) registers pool c)
    (hline : ∀ r, line.instruction ≠ .kill r)
    (hkeep : ∀ r q, pool.assigned.find? r = some q → c'.registers q = c.registers q) :
    Registered p img kind rest registers pool c' := by
  intro r v q hv hq hneeded
  rw [hkeep r q hq]
  exact h r v q hv hq (not_onlyKilled_cons hneeded (hline r))

theorem write {held : Finset RegisterId} (h : Registered p img kind (line :: rest) registers pool c)
    (hline : ∀ r, line.instruction ≠ .kill r) (hserves : pool'.Serves held)
    (hassign : pool.assign r = some (q, pool')) (hmeans : Means p img (kind r) v (c'.registers q))
    (hkeep : ∀ r' q', pool'.assigned.find? r' = some q' → q' ≠ q → c'.registers q' = c.registers q') :
    Registered p img kind rest (registers.insert r v) pool' c' := by
  obtain ⟨hself, hothers⟩ := find?_of_assign hassign
  intro r' v' q' hv' hq' hneeded
  by_cases hr : r' = r
  · subst hr
    rw [Table.find?_insert_self] at hv'
    cases hv'
    cases hself.symm.trans hq'
    exact hmeans
  · rw [Table.find?_insert_of_ne hr] at hv'
    -- Two registers do not share a machine register.
    have hne : q' ≠ q := fun heq => hr (hserves.distinct r' r q (heq ▸ hq') hself)
    rw [hkeep r' q' hq' hne]
    rw [hothers r' hr] at hq'
    exact h r' v' q' hv' hq' (not_onlyKilled_cons hneeded (hline r'))

theorem kill (h : Registered p img kind (line :: rest) registers pool c)
    (hline : line.instruction = .kill r) :
    Registered p img kind rest (registers.erase r) (pool.free r) c := by
  intro r' v' q' hv' hq' hneeded
  by_cases hr : r' = r
  · rw [hr, Table.find?_erase_self] at hv'
    cases hv'
  · rw [Table.find?_erase_of_ne hr] at hv'
    rw [Pool.free, Table.find?_erase_of_ne hr] at hq'
    refine h r' v' q' hv' hq' (not_onlyKilled_cons hneeded ?_)
    rw [hline]
    exact fun heq => hr (Linear.Instruction.kill.inj heq).symm

end Registered

/-! ## Lines -/

section

variable (p img) (home : Home) (S : Site p sig comments lines)

/-- The processor is about to run the instructions of a line, in the activation `f`, which is at the
line after it. -/
structure Ready (line : Linear.Line) (f : Linear.Frame) (ks : List Kind) (stack : List Int64)
    (callers : List Linear.Frame) (pool pool' : Pool) (instrs : List Instr) (j : Nat) (c : Core) :
    Prop where
  before : pool.Serves (Linear.live (line :: f.rest))
  after : pool'.Serves (Linear.live f.rest)
  orderly : line.instruction.Orderly S.slots f.rest
  generated : instruction S.context line.instruction pool = .ok instrs pool'
  placed : Placed lines j (code instrs)
  registered : Registered p img S.kind (line :: f.rest) f.registers pool c
  stacked : Stacked p img home S f.slots ks stack callers c
  room : 48 ≤ (c.registers .rsp).toNat

/-- The processor gets to the end of the instructions of a line, with the activation `f`. -/
def Advances (f : Linear.Frame) (ks : List Kind) (stack : List Int64) (callers : List Linear.Frame)
    (pool : Pool) (instrs : List Instr) (j : Nat) (c : Core) : Prop :=
  ∃ c', img.Reaches ⟨img.address j, c⟩ ⟨img.address (j + instrs.length), c'⟩ ∧
    Registered p img S.kind f.rest f.registers pool c' ∧
    Stacked p img home S f.slots ks stack callers c' ∧
    (c.registers .rsp).toNat ≤ (c'.registers .rsp).toNat + 8

end

namespace Ready

variable {home : Home} {S : Site p sig comments lines} {line : Linear.Line} {f : Linear.Frame}
  {ks : List Kind} {k : Kind} {stack : List Int64} {callers : List Linear.Frame}
  {pool pool' : Pool} {instrs : List Instr} {j : Nat} {c : Core}
  (h : Ready p img home S line f ks stack callers pool pool' instrs j c)
  {r slot : RegisterId} {v : Int64} {q : Register} {w : Word}
include h

theorem of_eq {i : Linear.Instruction} (hi : line.instruction = i) :
    i.Orderly S.slots f.rest ∧ instruction S.context i pool = .ok instrs pool' :=
  hi ▸ ⟨h.orderly, h.generated⟩

theorem reads {g : GenerateContext} {pool₁ : Pool} {i : Linear.Instruction}
    (hregister : Generate.register g r pool = .ok q pool₁) (hi : line.instruction = i)
    (hr : r ∈ i.registers) (hline : i ≠ .kill r) (hlive : r ∈ i.liveBefore (Linear.live f.rest))
    (hv : f.registers.find? r = some v) : pool = pool₁ ∧ pool.assigned.find? r = some q ∧
      q ≠ .rsp ∧ q ≠ .rbp ∧ Means p img (S.kind r) v (c.registers q) := by
  subst hi
  obtain ⟨q', hq⟩ := Option.isSome_iff_exists.1 ((h.before.holds r).2 hlive)
  cases (assign_of_find? hq).symm.trans (assign_of_register hregister)
  obtain ⟨hrsp, hrbp⟩ := ne_of_mem_preferred (h.before.preferred r q hq)
  exact ⟨rfl, hq, hrsp, hrbp,
    h.registered r v q hv hq (Registered.not_onlyKilled_of_mem hr hline)⟩

theorem advances_mov {g : GenerateContext} {operand : Operand}
    (hline : ∀ r, line.instruction ≠ .kill r) (hgenerated : (Generate.register g r >>= fun q =>
      pure [Instr.mov (.register q) operand] : Generate _) pool = .ok instrs pool')
    (heffect : ∀ q, img.effect? c (.mov (.register q) operand) = some (c.set q w))
    (hmeans : Means p img (S.kind r) v w) :
    Advances p img home S (f.write r v) ks stack callers pool' instrs j c := by
  obtain ⟨q, _, hq, hlast⟩ := exists_of_run_bind_eq_ok hgenerated
  cases hlast
  have hassign := assign_of_register hq
  obtain ⟨hrsp, hrbp⟩ := ne_of_mem_preferred (h.after.preferred r q (find?_of_assign hassign).1)
  refine ⟨c.set q w, (Image.Effects.single (heffect q)).reaches h.placed, ?_,
    h.stacked.set hrsp hrbp, ?_⟩
  · refine h.registered.write hline h.after hassign ?_ fun r' q' _ hne => ?_
    · rwa [Core.registers_set_self]
    · rw [Core.registers_set_of_ne hne]
  · rw [Core.registers_set_of_ne hrsp.symm]
    exact Nat.le_add_right ..

theorem advances_nop (hi : line.instruction = .nop) :
    Advances p img home S f ks stack callers pool' instrs j c := by
  have hgenerated := (h.of_eq hi).2
  cases hgenerated
  refine ⟨c, (Image.Effects.single rfl).reaches h.placed, ?_, h.stacked, Nat.le_add_right ..⟩
  exact h.registered.keep (by simp [hi]) fun _ _ _ => rfl

theorem advances_moveInt {value : Int64} (hi : line.instruction = .moveInt r value)
    (hkind : S.kind r = .word) :
    Advances p img home S (f.write r value) ks stack callers pool' instrs j c := by
  have hgenerated := (h.of_eq hi).2
  refine h.advances_mov (by simp [hi]) hgenerated (fun _ => rfl) ?_
  rw [hkind]
  exact BitVec.ofInt_toInt

theorem advances_moveString {id : StringId} (hi : line.instruction = .moveString r id)
    (hkind : S.kind r = .any) :
    Advances p img home S (f.write r (Int64.ofNat id)) ks stack callers pool' instrs j c := by
  have hgenerated := (h.of_eq hi).2
  refine h.advances_mov (by simp [hi]) hgenerated (fun _ => rfl) ?_
  rw [hkind]
  trivial

theorem advances_moveFunction {id : FunctionId} (hi : line.instruction = .moveFunction r id)
    (hkind : S.kind r = .code id) :
    Advances p img home S (f.write r (Int64.ofNat id)) ks stack callers pool' instrs j c := by
  have hgenerated := (h.of_eq hi).2
  obtain ⟨operand, pool₁, hsymbol, hrest⟩ := exists_of_run_bind_eq_ok hgenerated
  obtain ⟨callee, hcallee, rfl, rfl⟩ := symbol_eq_ok hsymbol
  refine h.advances_mov (by simp [hi]) hrest (fun _ => rfl) ?_
  rw [hkind]
  exact ⟨rfl, callee, hcallee, rfl⟩

theorem advances_load (hi : line.instruction = .load r slot) (hkind : S.kind r = S.kind slot)
    (hv : f.slots.find? slot = some v ∨ S.kind slot = .any) :
    Advances p img home S (f.write r v) ks stack callers pool' instrs j c := by
  obtain ⟨horderly, hgenerated⟩ := h.of_eq hi
  obtain ⟨-, -, hslot⟩ := horderly
  obtain ⟨operand, pool₁, hplace, hrest⟩ := exists_of_run_bind_eq_ok hgenerated
  obtain ⟨offset, hoffset, rfl, rfl⟩ := slot_eq_ok hplace
  cases (S.offset? hslot).symm.trans hoffset
  refine h.advances_mov (by simp [hi]) hrest (fun _ => rfl) ?_
  rw [hkind]
  rcases hv with hv | hany
  · exact h.stacked.read hslot hv
  · rw [hany]
    trivial

theorem advances_push (hi : line.instruction = .push r) (hv : f.registers.find? r = some v) :
    Advances p img home S f (S.kind r :: ks) (v :: stack) callers pool' instrs j c := by
  obtain ⟨horderly, hgenerated⟩ := h.of_eq hi
  have hroom := h.room
  obtain ⟨q, pool₁, hregister, hlast⟩ := exists_of_run_bind_eq_ok hgenerated
  obtain ⟨rfl, -, hrsp, hrbp, hmeans⟩ := h.reads hregister hi List.mem_cons_self nofun horderly.1 hv
  cases hlast
  refine ⟨c.push (c.registers q), (Image.Effects.single rfl).reaches h.placed, ?_,
    h.stacked.push hmeans (by omega), ?_⟩
  · refine h.registered.keep (by simp [hi]) fun r' q' hq' => ?_
    exact Core.registers_push_of_ne (ne_of_mem_preferred (h.before.preferred r' q' hq')).1
  · rw [Core.toNat_rsp_push (by omega)]
    omega

omit h in
theorem advances_pop (h : Ready p img home S line f (S.kind r :: ks) stack callers pool pool' instrs j c)
    (hi : line.instruction = .pop r) :
    ∃ v stack', stack = v :: stack' ∧
      Advances p img home S (f.write r v) ks stack' callers pool' instrs j c := by
  have hgenerated := (h.of_eq hi).2
  obtain ⟨q, pool₁, hregister, hlast⟩ := exists_of_run_bind_eq_ok hgenerated
  cases hlast
  have hassign := assign_of_register hregister
  obtain ⟨hrsp, hrbp⟩ := ne_of_mem_preferred (h.after.preferred r q (find?_of_assign hassign).1)
  obtain ⟨v, stack', rfl, hmeans, hstacked, hle⟩ := h.stacked.pop
  refine ⟨v, stack', rfl, c.drop.set q c.top, (Image.Effects.single rfl).reaches h.placed, ?_,
    hstacked.set hrsp hrbp, ?_⟩
  · refine h.registered.write (by simp [hi]) h.after hassign ?_ fun r' q' hq' hne => ?_
    · rwa [Core.registers_set_self]
    · rw [Core.registers_set_of_ne hne,
        Core.registers_drop_of_ne (ne_of_mem_preferred (h.after.preferred r' q' hq')).1]
  · rw [Core.registers_set_of_ne hrsp.symm]
    exact hle.trans (Nat.le_add_right ..)

theorem advances_store {offset : Int64} {instr : Instr} (hline : ∀ r, line.instruction ≠ .kill r)
    (hpool : pool' = pool) (hslot : slot < S.slots) (hoffset : offset = slotOffset S.params slot)
    (hinstrs : instrs = [instr])
    (heffect : img.effect? c instr = some (c.store (c.registers .rbp + offset.toBitVec) w))
    (hmeans : Means p img (S.kind slot) v w) :
    Advances p img home S (f.store slot v) ks stack callers pool' instrs j c := by
  subst hinstrs hoffset hpool
  exact ⟨_, (Image.Effects.single heffect).reaches h.placed,
    h.registered.keep hline fun _ _ _ => rfl, h.stacked.store hslot hmeans, Nat.le_add_right ..⟩

theorem advances_storeRegister (hi : line.instruction = .storeRegister slot r)
    (hkind : S.kind slot = S.kind r) (hv : f.registers.find? r = some v) :
    Advances p img home S (f.store slot v) ks stack callers pool' instrs j c := by
  obtain ⟨horderly, hgenerated⟩ := h.of_eq hi
  obtain ⟨operand, pool₁, hplace, hrest⟩ := exists_of_run_bind_eq_ok hgenerated
  obtain ⟨offset, hoffset, rfl, rfl⟩ := slot_eq_ok hplace
  cases (S.offset? horderly.1).symm.trans hoffset
  obtain ⟨q, pool₂, hregister, hlast⟩ := exists_of_run_bind_eq_ok hrest
  obtain ⟨rfl, -, -, -, hmeans⟩ := h.reads hregister hi (by simp [Linear.Instruction.registers]) nofun
    horderly.2 hv
  cases hlast
  refine h.advances_store (by simp [hi]) rfl horderly.1 rfl rfl rfl ?_
  rwa [hkind]

theorem advances_storeImmediate {value : Int64} (hi : line.instruction = .storeImmediate slot value)
    (hkind : S.kind slot = .word) (hsmall : Linear.isSmall value = true) :
    Advances p img home S (f.store slot value) ks stack callers pool' instrs j c := by
  obtain ⟨horderly, hgenerated⟩ := h.of_eq hi
  obtain ⟨operand, pool₁, hplace, hlast⟩ := exists_of_run_bind_eq_ok hgenerated
  obtain ⟨offset, hoffset, rfl, rfl⟩ := slot_eq_ok hplace
  cases (S.offset? horderly).symm.trans hoffset
  cases hlast
  refine h.advances_store (by simp [hi]) rfl horderly rfl rfl rfl ?_
  rw [hkind]
  exact signExtend_of_isSmall hsmall

theorem advances_binary {op : BinaryOp} {d : RegisterId} {lhs rhs : Int64}
    (hsymbols : (definedSymbols lines).Nodup) (hroutines : routines <:+: lines)
    (hi : line.instruction = .binary op d r) (hd : S.kind d = .word) (hr : S.kind r = .word)
    (hlhs : f.registers.find? d = some lhs) (hrhs : f.registers.find? r = some rhs)
    (hop : Linear.evaluate op lhs rhs = .ok v) :
    Advances p img home S (f.write d v) ks stack callers pool' instrs j c := by
  obtain ⟨horderly, hgenerated⟩ := h.of_eq hi
  obtain ⟨qd, pool₁, hfirst, hrest⟩ := exists_of_run_bind_eq_ok hgenerated
  obtain ⟨rfl, hqd, hdrsp, hdrbp, hmeansd⟩ := h.reads hfirst hi List.mem_cons_self nofun horderly.1 hlhs
  obtain ⟨qr, pool₂, hsecond, hlast⟩ := exists_of_run_bind_eq_ok hrest
  obtain ⟨rfl, -, hrrsp, -, hmeansr⟩ := h.reads hsecond hi (by simp [Linear.Instruction.registers])
    nofun horderly.2 hrhs
  cases hlast
  rw [hd] at hmeansd
  rw [hr] at hmeansr
  obtain ⟨ws, below, view, back, hws, hsegment, hwaiting⟩ := h.stacked
  obtain ⟨c', hreaches, hvalue, hothers, hc'⟩ := Image.reaches_binary hsymbols hroutines hop hmeansd
    hmeansr hdrsp hrrsp (fun hsave => by simpa using (Bool.and_eq_true_iff.1 hsave).1) h.placed hws
    h.room
  have hrsp := hothers .rsp hdrsp.symm fun heq => by cases heq
  have hrbp := hothers .rbp hdrbp.symm fun heq => by cases heq
  refine ⟨c', hreaches, ?_, ⟨ws, below, view, back, hc', by rwa [hrsp, hrbp], hwaiting⟩, ?_⟩
  · refine h.registered.write (by simp [hi]) h.before (assign_of_find? hqd) ?_ fun r' q' hq' hne => ?_
    · rw [hd]
      exact hvalue
    · -- If the register in question is `rax`, it is occupied and saved.
      refine hothers q' hne fun hrax => ?_
      subst hrax
      simp [hne.symm, Pool.isOccupied_iff.2 ⟨r', hq'⟩]
  · rw [hrsp]
    exact Nat.le_add_right ..

theorem advances_kill (hi : line.instruction = .kill r) :
    Advances p img home S { f with registers := f.registers.erase r } ks stack callers pool' instrs j
      c := by
  have hgenerated := (h.of_eq hi).2
  cases hgenerated
  exact ⟨c, .refl, h.registered.kill hi, h.stacked, Nat.le_add_right ..⟩

/-- What a line does that goes on with the next one: what it does in its activation. Slots are
loaded that were written to, or of which nothing is known. -/
theorem advances (hsymbols : (definedSymbols lines).Nodup) (hroutines : routines <:+: lines)
    {ks' : List Kind} (hkinded : line.instruction.Kinded S.kind sig ks ks') {g : Linear.Frame}
    {stack' : List Int64} (hgo : line.instruction.act f stack = .go g stack')
    (hjump : ∀ label, line.instruction ≠ .jump label)
    (hbranch : ∀ r label, line.instruction ≠ .jumpIfNonZero r label)
    (hloads : ∀ r slot, line.instruction = .load r slot →
      (f.slots.find? slot).isSome ∨ S.kind slot = .any) :
    g.label = f.label ∧ g.body = f.body ∧ g.rest = f.rest ∧
      Advances p img home S g ks' stack' callers pool' instrs j c := by
  have hsuccess : ∀ e, Linear.Action.go g stack' ≠ .fail e := fun e heq => by cases heq
  generalize hi : line.instruction = i at hkinded hgo
  cases hkinded with
  | nop =>
    cases hgo
    exact ⟨rfl, rfl, rfl, h.advances_nop hi⟩
  | moveInt value _ hkind =>
    cases hgo
    exact ⟨rfl, rfl, rfl, h.advances_moveInt hi hkind⟩
  | moveString id _ hkind =>
    cases hgo
    exact ⟨rfl, rfl, rfl, h.advances_moveString hi hkind⟩
  | moveFunction _ hkind =>
    cases hgo
    exact ⟨rfl, rfl, rfl, h.advances_moveFunction hi hkind⟩
  | push r =>
    obtain ⟨v, hv, hgo⟩ := Linear.Frame.exists_of_reading hsuccess hgo
    cases hgo
    exact ⟨rfl, rfl, rfl, h.advances_push hi hv⟩
  | pop r =>
    obtain ⟨v, stack₁, rfl, hadvances⟩ := h.advances_pop hi
    cases hgo
    exact ⟨rfl, rfl, rfl, hadvances⟩
  | @load r slot _ hkind =>
    obtain ⟨v, hv, hgo⟩ := Linear.Frame.exists_of_readingSlot hsuccess hgo
    cases hgo
    refine ⟨rfl, rfl, rfl, h.advances_load hi hkind ?_⟩
    refine (hloads r slot hi).imp_left fun hsome => ?_
    obtain ⟨v', hv'⟩ := Option.isSome_iff_exists.1 hsome
    simp only [Linear.Frame.slot, hv', Except.ok.injEq] at hv
    rw [hv', hv]
  | storeRegister _ hkind =>
    obtain ⟨v, hv, hgo⟩ := Linear.Frame.exists_of_reading hsuccess hgo
    cases hgo
    exact ⟨rfl, rfl, rfl, h.advances_storeRegister hi hkind hv⟩
  | storeImmediate _ hkind hsmall =>
    cases hgo
    exact ⟨rfl, rfl, rfl, h.advances_storeImmediate hi hkind hsmall⟩
  -- Calls and returns do not go on in this activation.
  | callRegister =>
    obtain ⟨v, -, hgo⟩ := Linear.Frame.exists_of_reading hsuccess hgo
    split at hgo <;> cases hgo
  | callImmediate => cases hgo
  | jump target => exact absurd hi (hjump target)
  | jumpIfNonZero target => exact absurd hi (hbranch _ target)
  | «return» =>
    obtain ⟨v, -, hgo⟩ := Linear.Instruction.exists_of_return hsuccess hgo
    cases hgo
  | binary op _ hd hr =>
    obtain ⟨lhs, hlhs, hgo⟩ := Linear.Frame.exists_of_reading hsuccess hgo
    obtain ⟨rhs, hrhs, hgo⟩ := Linear.Frame.exists_of_reading hsuccess hgo
    split at hgo
    · next hop =>
      cases hgo
      exact ⟨rfl, rfl, rfl, h.advances_binary hsymbols hroutines hi hd hr hlhs hrhs hop⟩
    · cases hgo
  | kill r =>
    simp only [Linear.Instruction.act] at hgo
    split at hgo
    · cases hgo
    · cases hgo
      exact ⟨rfl, rfl, rfl, h.advances_kill hi⟩

end Ready

end WordLang.Assembly
