import WordLang.Proofs.Assembly.Steps

/-!
# Linear code on the processor

The processor that runs the text of a program follows the machine that runs its linear code. Lines
that go on, jumps, calls and returns are matched by their instructions; the declarations of slots,
which are lines too, have no instructions, because a call leaves the arguments in their slots. As
long as only slots are read that were written to, the processor goes back to its caller with the
value that linear code ends with.

## Main definitions

* `Linear.Frame.reads?`, `Linear.ReadsWritten`: the slots that a run reads
* `Assembly.Matches`: a state of the machine that runs linear code and one of the processor

## Main results

* `Assembly.Matches.go_line`, `Assembly.Matches.call`, `Assembly.Matches.back`: one line
* `Assembly.Matches.reaches_home`: a whole run
-/

namespace WordLang

variable {label : LabelId} {n : Nat} {k : Nat}

/-! ## Slots that are read -/

namespace Linear

/-- The slot that the next line of an activation reads. -/
def Frame.reads? (f : Frame) : Option RegisterId :=
  match f.rest with
  | ⟨_, .load _ slot⟩ :: _ => some slot
  | ⟨_, .return⟩ :: _ => some f.body.result
  | _ => none

/-- A run reads slots only that were written to in their activation, or that are exempt. -/
def ReadsWritten (p : Program) (exempt : Frame → RegisterId → Prop) (s : State) : Prop :=
  ∀ k t, (machine p).Steps k s t → ∀ slot, t.frame.reads? = some slot →
    (t.frame.slots.find? slot).isSome ∨ exempt t.frame slot

theorem ReadsWritten.steps {p : Program} {exempt : Frame → RegisterId → Prop} {s t : State}
    (h : ReadsWritten p exempt s) (hsteps : (machine p).Steps k s t) : ReadsWritten p exempt t :=
  fun _ _ hsteps' => h _ _ (hsteps.trans hsteps')

/-- A test for what a run reads, which fails if the run has more than `n` lines. -/
def testReads (p : Program) (exempt : Frame → RegisterId → Bool) : Nat → State → Bool
  | 0, _ => false
  | n + 1, s =>
    (s.frame.reads?.all fun slot => (s.frame.slots.find? slot).isSome || exempt s.frame slot) &&
      match step p s with
      | .ok (.next t) => testReads p exempt n t
      | _ => true

def Function.lineCount (f : Function) : Nat :=
  match f.definition with
  | .body b => b.lines.length
  | .foreign _ => 0

def Program.lineCount (p : Program) : Nat := (p.functions.map Function.lineCount).sum

theorem Program.length_le_lineCount {p : Program} {f : Function} {b : Body} (hf : f ∈ p.functions)
    (hb : f.definition = .body b) : b.lines.length ≤ p.lineCount := by
  have hcount : f.lineCount = b.lines.length := by simp only [Function.lineCount, hb]
  rw [← hcount]
  exact List.le_sum_of_mem (List.mem_map_of_mem hf)

theorem Frame.killAfterBranch_eq (f : Frame) (r : RegisterId) :
    ∃ registers, f.killAfterBranch r = { f with registers } := by
  unfold Frame.killAfterBranch
  split
  · split
    · exact ⟨_, rfl⟩
    · exact ⟨_, rfl⟩
  · exact ⟨_, rfl⟩

/-- What a call needs: a body, as many arguments as parameters, and enough operands. -/
theorem activate_eq_ok {f : Function} {stack below : List Int64} {frame : Frame}
    (h : activate f n stack = .ok (frame, below)) :
    ∃ b, f.definition = .body b ∧ n = f.arity ∧ n ≤ stack.length ∧ below = stack.drop n ∧
      frame = b.activation f.label (stack.take n).reverse below.length := by
  unfold activate at h
  split at h
  · cases h
  · next b hb =>
    split at h
    · cases h
    · next harity =>
      split at h
      · cases h
      · next hlength =>
        cases h
        exact ⟨b, hb, not_not.1 harity, Nat.not_lt.1 hlength, rfl, rfl⟩

end Linear

namespace Assembly

variable {p : Linear.Program} {sig : FunctionId → Option Signature} {comments : Comments}
  {lines : List Line}

/-- The bytes of stack that suffice for any line of a run: a call opens a frame, and everything else
takes a few words only. -/
def lineRoom (p : Linear.Program) : Nat := 8 * (p.lineCount + 8)

/-- The bytes of stack that suffice for a run of at most `fuel` lines after `n` arguments were
pushed. -/
def stackRoom (p : Linear.Program) (fuel n : Nat) : Nat := lineRoom p * (fuel + 2) + 8 * n

theorem Site.slots_le_lineRoom (S : Site p sig comments lines) : 8 * (S.slots + 8) ≤ lineRoom p := by
  -- Every slot has a line that declares it.
  have hle := Linear.Program.length_le_lineCount (List.mem_of_getElem? S.found) S.defined
  rw [S.lines_eq, Linear.declarations, List.length_append, List.length_map, List.length_range] at hle
  rw [lineRoom]
  omega

structure Matches (img : Image lines) (home : Home) (S : Site p sig comments lines) (pool : Pool)
    (i : Nat) (ks : List Kind) (s : Linear.State) (cpu : Cpu) : Prop where
  label : s.frame.label = S.function.label
  body : s.frame.body = S.body
  /-- The activation and the processor are at the same place in it. -/
  place : S.At s.frame.rest pool i
  pc : cpu.pc = img.address i
  kinds : Linear.LinesKinded S.kind sig s.frame.rest ks []
  registered : Registered p img S.kind s.frame.rest s.frame.registers pool cpu.core
  stacked : Stacked p img home S s.frame.slots ks s.stack s.callers cpu.core

/-- The processor gets to the place of a state of the machine, and takes at most one word of stack. -/
def ComesTo (img : Image lines) (home : Home) (S : Site p sig comments lines) (s : Linear.State)
    (cpu : Cpu) : Prop :=
  ∃ pool i ks cpu', img.Reaches cpu cpu' ∧ Matches img home S pool i ks s cpu' ∧
    (cpu.core.registers .rsp).toNat ≤ (cpu'.core.registers .rsp).toNat + 8

variable {img : Image lines} {home : Home} {S : Site p sig comments lines} {pool : Pool} {i : Nat}
  {ks : List Kind} {s : Linear.State} {cpu : Cpu}

theorem Registered.of_live_eq_empty {kind : RegisterId → Kind} {rest : List Linear.Line}
    {registers : Table Int64} {c : Core} (hserves : pool.Serves (Linear.live rest))
    (hlive : Linear.live rest = ∅) : Registered p img kind rest registers pool c := by
  intro r v q _ hq _
  have hheld := (hserves.holds r).1 (Option.isSome_iff_exists.2 ⟨q, hq⟩)
  rw [hlive] at hheld
  exact absurd hheld (Finset.notMem_empty r)

namespace Matches

theorem exists_ready (h : Matches img home S pool i ks s cpu) {line : Linear.Line}
    {rest : List Linear.Line} (hrest : s.frame.rest = line :: rest)
    (hroom : 48 ≤ (cpu.core.registers .rsp).toNat) :
    ∃ instrs pool' j ks', line.instruction.Kinded S.kind sig ks ks' ∧
      Linear.LinesKinded S.kind sig rest ks' [] ∧ cpu.pc = img.address j ∧
      S.At rest pool' (j + instrs.length) ∧
      (∀ m, j ≤ m → m ≤ j + instrs.length → S.Within m) ∧
      Ready p img home S line { s.frame with rest } ks s.stack s.callers pool pool' instrs j
        cpu.core := by
  have hplace := h.place
  have hkinds := h.kinds
  have hregistered := h.registered
  rw [hrest] at hplace hkinds hregistered
  obtain ⟨instrs, pool', j, hgenerated, hij, haddress, hplaced, hnext⟩ := hplace.next
  cases hkinds with
  | @cons _ _ _ ks' _ _ hkinded hkinds =>
    refine ⟨instrs, pool', j, ks', hkinded, hkinds, h.pc.trans (haddress img).symm, hnext,
      fun m hm hm' => hplace.within.between hnext.within (hij.trans hm) hm', ?_⟩
    exact ⟨hplace.serves, hnext.serves, hplace.orderly.2.1, hgenerated, hplaced, hregistered,
      h.stacked, hroom⟩

section Go

variable {g : Linear.Frame} {stack : List Int64} (h : Matches img home S pool i ks s cpu)
include h

theorem goto {found : List Linear.Line} {registers : Table Int64} {c : Core} {m : Nat}
    (hks : ks = []) (hfound : Linear.seek label s.frame.body.lines = some found) (hm : S.Within m)
    (hc : ∀ ws, cpu.core.Holds ws → c.Holds ws) (hrsp : c.registers .rsp = cpu.core.registers .rsp)
    (hrbp : c.registers .rbp = cpu.core.registers .rbp)
    (hjump : ∀ j, jumpTarget? lines m (.label label) = some j →
      img.Reaches cpu ⟨img.address j, c⟩) :
    ComesTo img home S { s with frame := { s.frame with rest := found, registers } } cpu := by
  rw [h.body] at hfound
  obtain ⟨pool', i', hat, hkinds, htarget⟩ := S.exists_at_of_seek hfound
  obtain ⟨j, hj, haddress⟩ := htarget m hm
  refine ⟨pool', i', [], ⟨img.address j, c⟩, hjump j hj, ?_, by
    rw [hrsp]
    exact Nat.le_add_right ..⟩
  have hlive := S.regular.orderly.lines.live_seek hfound
  have hstacked := h.stacked
  rw [hks] at hstacked
  exact ⟨h.label, h.body, hat, haddress img, hkinds, .of_live_eq_empty hat.serves hlive,
    hstacked.of_holds hc hrsp hrbp⟩

variable {line : Linear.Line} {rest : List Linear.Line} (hrest : s.frame.rest = line :: rest)
  (hroom : 48 ≤ (cpu.core.registers .rsp).toNat)
  (hact : line.instruction.act { s.frame with rest } s.stack = .go g stack)
include hrest hroom hact

theorem go_jump (hi : line.instruction = .jump label) :
    ComesTo img home S { s with frame := g, stack } cpu := by
  obtain ⟨instrs, pool', j, ks', hkinded, -, hpc, -, hwithin, hready⟩ := h.exists_ready hrest hroom
  have hgenerated := hready.generated
  rw [hi] at hkinded hgenerated hact
  cases hkinded
  cases hgenerated
  obtain ⟨found, hfound, hgo⟩ := Linear.Frame.exists_of_goto (fun e heq => by cases heq) hact
  cases hgo
  refine h.goto rfl hfound (hwithin j le_rfl (Nat.le_add_right ..)) (fun _ hws => hws) rfl rfl
    fun m hm => ?_
  rw [show cpu = ⟨cpu.pc, cpu.core⟩ from rfl, hpc]
  exact .single (img.step_jmp _ hready.placed.head hm)

theorem go_branch {r : RegisterId} (hi : line.instruction = .jumpIfNonZero r label) :
    ComesTo img home S { s with frame := g, stack } cpu := by
  obtain ⟨instrs, pool', j, ks', hkinded, hkinds, hpc, hnext, hwithin, hready⟩ :=
    h.exists_ready hrest hroom
  have hgenerated := hready.generated
  have horderly := hready.orderly
  rw [hi] at hkinded hgenerated hact horderly
  cases hkinded with
  | jumpIfNonZero _ hkind =>
    obtain ⟨v, hv, hact⟩ := Linear.Frame.exists_of_reading (fun e heq => by cases heq) hact
    obtain ⟨q, pool₁, hregister, hlast⟩ := exists_of_run_bind_eq_ok hgenerated
    obtain ⟨rfl, -, -, -, hmeans⟩ := hready.reads hregister hi List.mem_cons_self nofun
      (horderly.1.symm ▸ Finset.mem_singleton_self r : r ∈ Linear.live rest) hv
    cases hlast
    rw [hkind] at hmeans
    -- The comparison with zero tells whether the branch is taken.
    let flags := Flags.ofComparison v.toBitVec 0
    let c : Core := { cpu.core with flags := some flags }
    have hcompare : img.Step cpu ⟨img.address (j + 1), c⟩ := by
      refine ⟨j, _, hready.placed.head, hpc, ?_⟩
      exact Image.execute?_of_effect? (by rw [Image.effect?, hmeans]; rfl)
    have hzero : flags.zero = decide (v = 0) := holds_ofComparison .equal v 0
    split at hact
    · next hv' =>
      obtain ⟨registers, hkilled⟩ := Linear.Frame.killAfterBranch_eq { s.frame with rest } r
      rw [hkilled] at hact
      obtain ⟨found, hfound, hgo⟩ := Linear.Frame.exists_of_goto (fun e heq => by cases heq) hact
      cases hgo
      refine h.goto (c := c) rfl hfound (hwithin (j + 1) (Nat.le_add_right ..) (Nat.le_succ _))
        (fun _ hws => hws) rfl rfl fun m hm => .head hcompare (.single ?_)
      refine Image.step_jne_taken (hready.placed.get (j := 1) rfl) rfl ?_ hm
      rw [hzero, decide_eq_false_iff_not]
      exact hv'
    · next hv' =>
      cases hact
      have hjne : img.Step ⟨img.address (j + 1), c⟩ ⟨img.address (j + 2), c⟩ := by
        refine Image.step_jne_passed (hready.placed.get (j := 1) rfl) rfl ?_
        rw [hzero, decide_eq_true_iff]
        exact not_not.1 hv'
      refine ⟨pool, j + 2, [], ⟨img.address (j + 2), c⟩, .head hcompare (.single hjne),
        ⟨h.label, h.body, hnext, rfl, hkinds, ?_, ?_⟩, Nat.le_add_right ..⟩
      · exact hready.registered.keep (by simp [hi]) fun _ _ _ => rfl
      · exact h.stacked.of_holds (fun _ hws => hws) rfl rfl

/-- A line that goes on is matched by its instructions. -/
theorem go_line (hsymbols : (definedSymbols lines).Nodup) (hroutines : routines <:+: lines)
    (hreads : ∀ slot, s.frame.reads? = some slot →
      (s.frame.slots.find? slot).isSome ∨ S.kind slot = .any) :
    ComesTo img home S { s with frame := g, stack } cpu := by
  by_cases hjump : ∃ label, line.instruction = .jump label
  · obtain ⟨label, hi⟩ := hjump
    exact h.go_jump hrest hroom hact hi
  by_cases hbranch : ∃ r label, line.instruction = .jumpIfNonZero r label
  · obtain ⟨r, label, hi⟩ := hbranch
    exact h.go_branch hrest hroom hact hi
  obtain ⟨instrs, pool', j, ks', hkinded, hkinds, hpc, hnext, -, hready⟩ := h.exists_ready hrest hroom
  obtain ⟨hlabel, hbody, hrest', c', hreaches, hregistered, hstacked, hle⟩ :=
    hready.advances hsymbols hroutines hkinded hact (fun label hi => hjump ⟨label, hi⟩)
      (fun r label hi => hbranch ⟨r, label, hi⟩) fun r slot hi => hreads slot (by
        obtain ⟨labels, i⟩ := line
        simp only at hi
        simp only [Linear.Frame.reads?, hrest, hi])
  refine ⟨pool', j + instrs.length, ks', ⟨_, c'⟩, ?_, ⟨hlabel.trans h.label, hbody.trans h.body, ?_,
    rfl, ?_, hregistered, hstacked⟩, hle⟩
  · rw [show cpu = ⟨cpu.pc, cpu.core⟩ from rfl, hpc]
    exact hreaches
  · rw [hrest']
    exact hnext
  · rw [hrest']
    exact hkinds

end Go

/-! ### Calls -/

section Call

variable {line : Linear.Line} {f : Linear.Frame} {stack : List Int64} {callers : List Linear.Frame}
  {pool' : Pool} {instrs : List Instr} {j : Nat} {c : Core} {ks' : List Kind}

theorem exists_of_call (hready : Ready p img home S line f ks stack callers pool pool' instrs j c)
    (hbound : p.functions.length ≤ idCount) (hkinded : line.instruction.Kinded S.kind sig ks ks')
    {g : Linear.Frame} {id : FunctionId}
    (hact : line.instruction.act f stack = .call g id n) {callee : Linear.Function}
    (hcallee : p.functions[id]? = some callee) :
    g = f ∧ ∃ signature ks₀ operand, sig id = some signature ∧ n = signature.params.length ∧
      ks = signature.params.reverse ++ ks₀ ∧ ks' = signature.result :: ks₀ ∧
      instrs = .call operand :: finishCall n ∧ img.value c operand = img.symbol callee.label ∧
      ∀ r ∈ Linear.live f.rest, Linear.OnlyKilled r f.rest := by
  obtain ⟨rfl, hi | ⟨r, v, hi, hv, rfl⟩⟩ := Linear.Instruction.of_act_call hact
  · have hgenerated := hready.generated
    have horderly := hready.orderly
    rw [hi] at hkinded hgenerated horderly
    obtain ⟨u, pool₁, hnothing, hrest⟩ := exists_of_run_bind_eq_ok hgenerated
    cases nothingLive_eq_ok hnothing
    obtain ⟨operand, pool₂, hsymbol, hlast⟩ := exists_of_run_bind_eq_ok hrest
    obtain ⟨callee', hcallee', rfl, rfl⟩ := symbol_eq_ok hsymbol
    cases hcallee.symm.trans hcallee'
    cases hlast
    cases hkinded with
    | callImmediate ks₀ hsignature =>
      refine ⟨rfl, _, ks₀, _, hsignature, rfl, rfl, rfl, rfl, rfl, fun r hr => ?_⟩
      rw [horderly] at hr
      exact absurd hr (Finset.notMem_empty r)
  · have hgenerated := hready.generated
    have horderly := hready.orderly
    rw [hi] at hkinded hgenerated horderly
    obtain ⟨hlive, hkilled⟩ := horderly
    obtain ⟨u, pool₁, hnothing, hrest⟩ := exists_of_run_bind_eq_ok hgenerated
    cases nothingLive_eq_ok hnothing
    obtain ⟨q, pool₂, hregister, hlast⟩ := exists_of_run_bind_eq_ok hrest
    obtain ⟨rfl, -, -, -, hmeans⟩ := hready.reads hregister hi List.mem_cons_self nofun
      (hlive.symm ▸ Finset.mem_singleton_self r : r ∈ Linear.live g.rest) hv
    cases hlast
    cases hkinded with
    | callRegister ks₀ hkind hsignature =>
      rw [hkind] at hmeans
      obtain ⟨rfl, callee', hcallee', hsymbol⟩ := hmeans
      have hlt := (List.getElem?_eq_some_iff.1 hcallee').1
      rw [(Linear.functionId_of_word (hlt.trans_le hbound)).2] at hcallee ⊢
      cases hcallee.symm.trans hcallee'
      refine ⟨rfl, _, ks₀, _, hsignature, rfl, rfl, rfl, rfl, hsymbol, fun r' hr' => ?_⟩
      rw [hlive, Finset.mem_singleton] at hr'
      rw [hr']
      exact hkilled

variable {T : Site p sig comments lines}

/-- The processor enters a function: it opens the frame and goes to the entry. -/
theorem reaches_entry {c' : Core} (hc : img.Effects (prologue (8 * (T.slots - T.params))) c c') :
    img.Reaches ⟨img.address (T.start + 1), c⟩ ⟨img.address T.bodyStart, c'⟩ := by
  have hplaced := T.placed_head
  rw [Site.head, opening, code, List.map_append] at hplaced
  have hposition : T.start + 1 + (prologue (8 * (T.slots - T.params))).length < T.bodyStart := by
    rw [Site.bodyStart, Site.head, opening, List.length_append, List.length_singleton]
    omega
  obtain ⟨j, hj, haddress⟩ := T.jumpTarget?_entry
    (m := T.start + 1 + (prologue (8 * (T.slots - T.params))).length) ⟨by omega, by omega⟩
  have hjump := hplaced.right.head
  rw [List.length_map] at hjump
  have hstep := img.step_jmp c' hjump hj
  rw [haddress img] at hstep
  exact (hc.reaches hplaced.left).tail hstep

theorem exists_steps_entry (words stack : List Int64) (callers : List Linear.Frame) (base : Nat)
    (hwords : words.length = T.params) :
    ∃ arguments slots, (Linear.machine p).Steps T.slots
        ⟨T.body.activation T.function.label words base, callers, stack⟩
        ⟨{ T.body.activation T.function.label words base with rest := T.code, arguments, slots },
          callers, stack⟩ ∧
      ∀ r v, slots.find? r = some v → words[r]? = some v := by
  have hrest : (T.body.activation T.function.label words base).rest =
      (List.range' 0 T.slots).map (Linear.slotLine words.length) ++ T.code := by
    rw [hwords, ← List.range_eq_range']
    exact T.lines_eq
  obtain ⟨arguments, slots, hsteps, hslots⟩ :=
    Linear.steps_slotLine p callers stack T.slots 0 hrest rfl
  refine ⟨arguments, slots, hsteps, fun r v hv => ?_⟩
  rw [hslots r] at hv
  split at hv
  · exact hv
  · cases hv

theorem entry {arguments : List Int64} {slots : Table Int64} {words : List Int64} {base : Nat}
    (h : Stacked p img home T slots [] stack callers c) :
    Matches img home T ⟨Table.empty⟩ T.bodyStart []
      ⟨{ T.body.activation T.function.label words base with rest := T.code, arguments, slots },
        callers, stack⟩ ⟨img.address T.bodyStart, c⟩ where
  label := rfl
  body := rfl
  place := T.at_entry
  pc := rfl
  kinds := T.code_kinded.kinds
  registered := .of_live_eq_empty T.at_entry.serves T.live_code
  stacked := h

/-- A call is matched by its instructions and those that open the frame of the callee; the machine
also runs the declarations of slots of the callee. -/
theorem call (h : Matches img home S pool i ks s cpu) (hp : p.Kinded sig)
    (hlines : programLines p comments = .ok lines) (hbound : p.functions.length ≤ idCount)
    (hsymbols : (definedSymbols lines).Nodup) {rest : List Linear.Line}
    (hrest : s.frame.rest = line :: rest) {g : Linear.Frame} {id : FunctionId}
    (hact : line.instruction.act { s.frame with rest } s.stack = .call g id n)
    {callee : Linear.Function} (hcallee : p.functions[id]? = some callee) {frame : Linear.Frame}
    {below : List Int64} (hactivate : Linear.activate callee n s.stack = .ok (frame, below))
    (hroom : lineRoom p ≤ (cpu.core.registers .rsp).toNat) :
    ∃ (T : Site p sig comments lines) (k : Nat) (t : Linear.State) (pool' : Pool) (i' : Nat)
      (cpu' : Cpu), (Linear.machine p).Steps k ⟨frame, g :: s.callers, below⟩ t ∧
      img.Reaches cpu cpu' ∧ Matches img home T pool' i' [] t cpu' ∧
      (cpu.core.registers .rsp).toNat ≤ (cpu'.core.registers .rsp).toNat + lineRoom p := by
  obtain ⟨b, hb, harity, hlength, rfl, rfl⟩ := Linear.activate_eq_ok hactivate
  obtain ⟨T, rfl, rfl, rfl⟩ := exists_site hp hlines hcallee hb
  have hT := T.slots_le_lineRoom
  obtain ⟨instrs, pool', j, ks', hkinded, hkinds, hpc, hnext, -, hready⟩ :=
    h.exists_ready hrest (by omega)
  obtain ⟨rfl, signature, ks₀, operand, hsignature, hn, rfl, rfl, rfl, hvalue, hdead⟩ :=
    exists_of_call hready hbound hkinded hact hcallee
  cases T.signed.symm.trans hsignature
  change n = T.params at hn
  subst hn
  rw [List.length_cons, Nat.add_comm _ 1, ← Nat.add_assoc] at hnext
  obtain ⟨args, below, hstack, hargs, c', heffects, hrsp, hstacked⟩ :=
    Stacked.enter (f := { s.frame with rest }) h.stacked h.label h.body hnext hready.placed.tail hkinds
      hdead (by omega)
  have htake : s.stack.take T.params = args := by rw [hstack, List.take_left' hargs]
  have hdrop : s.stack.drop T.params = below := by rw [hstack, List.drop_left' hargs]
  rw [htake, hdrop]
  obtain ⟨arguments, slots, hsteps, hslots⟩ := exists_steps_entry (T := T) args.reverse below
    ({ s.frame with rest } :: s.callers) below.length (by rw [List.length_reverse, hargs])
  have hcall := img.step_call cpu.core hready.placed.head
  rw [hvalue, T.symbol_eq img hsymbols, ← hpc] at hcall
  refine ⟨T, T.slots, _, _, _, _, hsteps, .head hcall (reaches_entry heffects),
    entry (hstacked slots hslots), ?_⟩
  have hle := toNat_above_le (a := c'.registers .rsp) (n := T.slots - T.params + 2)
  rw [← hrsp] at hle
  change _ ≤ (c'.registers .rsp).toNat + lineRoom p
  omega

end Call

/-! ### Returns -/

section Return

variable {line : Linear.Line} {rest : List Linear.Line} {v : Int64}
  (h : Matches img home S pool i ks s cpu) (hrest : s.frame.rest = line :: rest)
  (hact : line.instruction.act { s.frame with rest } s.stack = .finish v)
  (hreads : ∀ slot, s.frame.reads? = some slot →
    (s.frame.slots.find? slot).isSome ∨ S.kind slot = .any)
  (hroom : 48 ≤ (cpu.core.registers .rsp).toNat)
include h hrest hact hreads hroom

theorem exists_back : ∃ view back args c', img.Reaches cpu ⟨back, c'⟩ ∧
    Waiting p img sig comments home S.signature.result S.params s.callers s.stack view back ∧
    args.length = S.params ∧ Means p img S.signature.result v (c'.registers .rax) ∧
    c'.registers .rbp = view.frame ∧ view.start = above (c'.registers .rsp) args.length ∧
    c'.Holds (args ++ view.words) ∧
    (cpu.core.registers .rsp).toNat ≤ (c'.registers .rsp).toNat := by
  have hi := Linear.Instruction.eq_return_of_act hact
  obtain ⟨instrs, pool', j, ks', hkinded, -, hpc, -, hwithin, hready⟩ := h.exists_ready hrest hroom
  have hgenerated := hready.generated
  rw [hi] at hkinded hgenerated hact
  cases hkinded
  cases hgenerated
  obtain ⟨v', hv, hfinish⟩ := Linear.Instruction.exists_of_return (fun e heq => by cases heq) hact
  cases hfinish
  -- The processor goes to the end of the function, and from there back.
  have hexit := img.step_jmp cpu.core hready.placed.head
    (S.jumpTarget?_exit (hwithin j le_rfl (Nat.le_add_right ..)))
  rw [← hpc] at hexit
  obtain ⟨view, back, args, c', hwaiting, hargs, hreaches, hrax, hrbp, hstart, hholds, hle⟩ :=
    h.stacked.reaches_back
  refine ⟨view, back, args, c', .head hexit hreaches, hwaiting, hargs, ?_, hrbp, hstart, hholds, hle⟩
  rw [hrax, ← S.kinded.result]
  change s.frame.slot s.frame.body.result = .ok v at hv
  rw [h.body] at hv
  rcases hreads S.body.result (by
    obtain ⟨labels, instruction⟩ := line
    simp only at hi
    simp only [Linear.Frame.reads?, hrest, hi, h.body]) with hsome | hany
  · obtain ⟨v', hv'⟩ := Option.isSome_iff_exists.1 hsome
    simp only [Linear.Frame.slot, hv', Except.ok.injEq] at hv
    exact h.stacked.read S.result_lt (hv ▸ hv')
  · rw [hany]
    trivial

/-- The first activation ends: the processor is back where it was called from. -/
theorem reaches_home_of_finish (hcallers : s.callers = []) :
    ∃ c', img.Reaches cpu ⟨home.address, c'⟩ ∧ Means p img home.kind v (c'.registers .rax) ∧
      c'.registers .rsp = home.rsp ∧ c'.registers .rbp = home.rbp := by
  obtain ⟨view, back, args, c', hreaches, hwaiting, hargs, hrax, hrbp, hstart, -⟩ :=
    h.exists_back hrest hact hreads hroom
  rw [hcallers] at hwaiting
  generalize S.signature.result = k at hwaiting hrax
  generalize S.params = n at hwaiting hargs
  generalize s.stack = stack at hwaiting
  cases hwaiting with
  | home =>
    refine ⟨c', hreaches, hrax, ?_, hrbp⟩
    rw [hargs] at hstart
    exact (BitVec.add_left_inj _).1 hstart.symm

/-- The end of another activation is matched by instructions of the caller. -/
theorem back {caller : Linear.Frame} {callers : List Linear.Frame}
    (hcallers : s.callers = caller :: callers) :
    ∃ T : Site p sig comments lines, ComesTo img home T ⟨caller, callers, v :: s.stack⟩ cpu := by
  obtain ⟨view, back, args, c', hreaches, hwaiting, hargs, hrax, hrbp, hstart, hholds, hle⟩ :=
    h.exists_back hrest hact hreads hroom
  rw [hcallers] at hwaiting
  generalize S.signature.result = k at hwaiting hrax
  generalize S.params = n at hwaiting hargs
  generalize s.stack = stack at hwaiting ⊢
  cases hwaiting with
  | @caller _ _ _ _ T pool' i' ks' _ below _ view' back' hlabel hbody hat hplaced hkinds hdead hsegment
      hwaiting =>
    obtain ⟨c₁, heffects, hc₁, hrsp₁, hrbp₁⟩ := img.effects_finishCall hholds hargs
    have hfits := hholds.fits
    rw [List.length_append] at hfits
    have hrsp : (c₁.registers .rsp).toNat = (c'.registers .rsp).toNat + 8 * n := by
      rw [hrsp₁, toNat_above (by omega)]
    have hview : (⟨c₁.registers .rsp, view.words, c₁.registers .rbp⟩ : View) = view := by
      rw [hrsp₁, ← hargs, ← hstart, hrbp₁, hrbp]
    have hstacked : Stacked p img home T caller.slots ks' stack callers c₁ :=
      ⟨view.words, below, view', back', hc₁, hview.symm ▸ hsegment, hwaiting⟩
    refine ⟨T, pool', i' + (finishCall n).length, k :: ks', ⟨_, c₁.push (c'.registers .rax)⟩,
      hreaches.trans (heffects.reaches hplaced), ⟨hlabel, hbody, hat, rfl, hkinds, ?_,
        hstacked.push hrax (by omega)⟩, ?_⟩
    · -- What was in registers is not needed after a call.
      intro r v q _ hq hneeded
      refine absurd (hdead r ?_) hneeded
      exact (hat.serves.holds r).1 (Option.isSome_iff_exists.2 ⟨q, hq⟩)
    · change _ ≤ ((c₁.push (c'.registers .rax)).registers .rsp).toNat + 8
      rw [Core.toNat_rsp_push (by omega)]
      omega

end Return

/-! ### Runs -/

/-- If linear code ends with a value and reads only slots that were written to, and there is room on
the stack for every line of the run, the processor goes back to its caller with the value in `rax`
and with the pointers as they were. -/
theorem reaches_home (hp : p.Kinded sig) (hlines : programLines p comments = .ok lines)
    (hbound : p.functions.length ≤ idCount) (hsymbols : (definedSymbols lines).Nodup)
    {exempt : Linear.Frame → RegisterId → Prop}
    (hexempt : ∀ (T : Site p sig comments lines) (f : Linear.Frame) (slot : RegisterId),
    f.label = T.function.label → f.body = T.body → exempt f slot → T.kind slot = .any)
    {v : Int64} {left : List Int64} (h : Matches img home S pool i ks s cpu)
    (hends : (Linear.machine p).Ends k s (.ok (v, left))) (hreads : Linear.ReadsWritten p exempt s)
    (hroom : lineRoom p * (k + 1) ≤ (cpu.core.registers .rsp).toNat) :
    ∃ c', img.Reaches cpu ⟨home.address, c'⟩ ∧ Means p img home.kind v (c'.registers .rax) ∧
      c'.registers .rsp = home.rsp ∧ c'.registers .rbp = home.rbp := by
  -- Every line of the run pays for the room that its instructions take.
  induction k using Nat.strong_induction_on generalizing S pool i ks s cpu with
  | _ k ih =>
    have hslots := S.slots_le_lineRoom
    have hnow : ∀ slot, s.frame.reads? = some slot →
        (s.frame.slots.find? slot).isSome ∨ S.kind slot = .any := fun slot hslot =>
      (hreads 0 s (.refl s) slot hslot).imp_right (hexempt S s.frame slot h.label h.body)
    cases hends with
    | done hdone =>
      obtain ⟨e, -, hr⟩ | ⟨value, stack, hdone, hr⟩ := Linear.ending_of_machine_step hdone
      · cases hr
      cases hr
      obtain ⟨line, rest, hrest, hperform⟩ := Linear.exists_perform_of_step hdone
      obtain ⟨hact, hcallers⟩ := Linear.perform_eq_done hperform
      refine h.reaches_home_of_finish hrest hact hnow ?_ hcallers
      exact le_trans (by omega) ((Nat.le_mul_of_pos_right _ (Nat.succ_pos _)).trans hroom)
    | @head _ t k' _ hstep hends =>
      have hnext := Linear.step_of_machine_step hstep
      obtain ⟨line, rest, hrest, hperform⟩ := Linear.exists_perform_of_step hnext
      have hreads' := hreads.steps (.single hstep)
      rw [Linear.machine_cost_cons hrest] at ih hroom
      rw [show lineRoom p * (1 + k' + 1) = lineRoom p * (k' + 1) + lineRoom p by ring] at hroom
      have hwide : 48 ≤ (cpu.core.registers .rsp).toNat := by omega
      obtain ⟨g, stack, hact, rfl⟩ | ⟨g, id, n, callee, frame, below, hact, hcallee, hactivate, rfl⟩ |
        ⟨value, caller, callers, hact, hcallers, rfl⟩ := Linear.perform_eq_next hperform
      · obtain ⟨pool', i', ks', cpu', hreaches, hmatches, hrsp⟩ :=
          h.go_line hrest hwide hact hsymbols (routines_infix_of_programLines hlines) hnow
        obtain ⟨c', hhome, hc'⟩ := ih k' (by omega) hmatches hends hreads' (by omega)
        exact ⟨c', hreaches.trans hhome, hc'⟩
      · obtain ⟨T, m, t, pool', i', cpu', hsteps, hreaches, hmatches, hrsp⟩ :=
          h.call hp hlines hbound hsymbols hrest hact hcallee hactivate (by omega)
        obtain ⟨k'', rfl, hends'⟩ := hends.after_steps hsteps
        have hle : lineRoom p * (k'' + 1) ≤ lineRoom p * (m + k'' + 1) :=
          Nat.mul_le_mul_left _ (by omega)
        obtain ⟨c', hhome, hc'⟩ :=
          ih k'' (by omega) hmatches hends' (hreads'.steps hsteps) (by omega)
        exact ⟨c', hreaches.trans hhome, hc'⟩
      · obtain ⟨T, pool', i', ks', cpu', hreaches, hmatches, hrsp⟩ :=
          h.back hrest hact hnow hwide hcallers
        obtain ⟨c', hhome, hc'⟩ := ih k' (by omega) hmatches hends hreads' (by omega)
        exact ⟨c', hreaches.trans hhome, hc'⟩

end Matches

/-! ## Calls from outside -/

/-- Words can be passed as parameters of a kind. -/
def Passable : Kind → Prop
  | .code _ => False
  | _ => True

theorem means_of_passable {k : Kind} (h : Passable k) (v : Int64) : Means p img k v v.toBitVec := by
  cases k with
  | word => rfl
  | code => exact h.elim
  | any => trivial

theorem Operands.of_passable {ks : List Kind} (hks : ∀ k ∈ ks, Passable k) {vs : List Int64}
    (hlength : vs.length = ks.length) : Operands p img ks vs (vs.map Int64.toBitVec) := by
  induction ks generalizing vs with
  | nil =>
    obtain rfl := List.eq_nil_of_length_eq_zero hlength
    exact .nil
  | cons k ks ih =>
    obtain ⟨v, vs, rfl⟩ := List.exists_cons_of_length_eq_add_one hlength
    exact .cons (means_of_passable (hks k List.mem_cons_self) v)
      (ih (fun k hk => hks k (List.mem_cons_of_mem _ hk)) (Nat.succ.inj hlength))

/-- If a call of a function from outside ends with a value and reads only slots that were written to,
then, given enough stack, the processor comes back from the code of the function with the value. -/
theorem Site.returns (T : Site p sig comments lines) (hp : p.Kinded sig)
    (hlines : programLines p comments = .ok lines) (hbound : p.functions.length ≤ idCount)
    (hsymbols : (definedSymbols lines).Nodup) {exempt : Linear.Frame → RegisterId → Prop}
    (hexempt : ∀ (S : Site p sig comments lines) (f : Linear.Frame) (slot : RegisterId),
    f.label = S.function.label → f.body = S.body → exempt f slot → S.kind slot = .any)
    (hpassable : ∀ k ∈ T.signature.params, Passable k) {args : List Int64}
    (hargs : args.length = T.params) {v : Int64} {left : List Int64}
    (hends : (Linear.machine p).Ends k ⟨T.body.activation T.function.label args 0, [], []⟩
    (.ok (v, left)))
    (hreads : Linear.ReadsWritten p exempt ⟨T.body.activation T.function.label args 0, [], []⟩)
    {fuel : Nat} (hfuel : k ≤ fuel) (img : Image lines) {c : Core}
    (hroom : stackRoom p fuel args.length ≤ (c.registers .rsp).toNat) (back : Word) :
    ∃ c', img.Reaches ⟨img.symbol T.function.label,
        (c.pushAll (args.map Int64.toBitVec)).push back⟩ ⟨back, c'⟩ ∧
      Means p img T.signature.result v (c'.registers .rax) ∧
      c'.registers .rsp = (c.pushAll (args.map Int64.toBitVec)).registers .rsp ∧
      c'.registers .rbp = c.registers .rbp := by
  have hslots := T.slots_le_lineRoom
  have hlines' : lineRoom p * (k + 1) ≤ lineRoom p * (fuel + 1) := Nat.mul_le_mul_left _ (by omega)
  rw [stackRoom, show lineRoom p * (fuel + 2) = lineRoom p * (fuel + 1) + lineRoom p by ring] at hroom
  -- The words of the arguments are all that is known of the stack.
  have hempty : c.Holds [] := ⟨(c.registers .rsp).isLt, fun i w hw => by cases hw⟩
  have hbytes : 8 * (args.map Int64.toBitVec).length ≤ (c.registers .rsp).toNat := by
    rw [List.length_map]
    omega
  have hholds := hempty.pushAll hbytes
  have hpushed := Core.toNat_rsp_pushAll hbytes
  have hrbp := Core.registers_pushAll_of_ne c (args.map Int64.toBitVec) (q := .rbp) (by decide)
  rw [← List.map_reverse] at hholds
  rw [List.length_map] at hpushed
  generalize c.pushAll (args.map Int64.toBitVec) = d at hholds hpushed hrbp ⊢
  have hoperands : Operands p img T.signature.params.reverse args.reverse
      (args.reverse.map Int64.toBitVec) :=
    .of_passable (fun k hk => hpassable k (List.mem_reverse.1 hk)) (by
      rw [List.length_reverse, List.length_reverse, hargs]
      rfl)
  let home : Home := ⟨d.registers .rsp, d.registers .rbp, back, T.signature.result⟩
  have hwaiting : Waiting p img sig comments home T.signature.result T.params [] []
      ⟨above (d.registers .rsp) T.params, [], d.registers .rbp⟩ back := .home T.params
  obtain ⟨c₁, heffects, hrsp, hstacked⟩ := Stacked.entry _ hholds hoperands
    (by rw [List.length_map, List.length_reverse, hargs]) rfl hwaiting (by omega)
  obtain ⟨arguments, slots, hsteps, hwritten⟩ :=
    Matches.exists_steps_entry (T := T) args [] [] 0 hargs
  have hentry : Stacked p img home T slots [] [] [] c₁ := hstacked slots fun r v hv => by
    rw [List.reverse_reverse]
    exact hwritten r v hv
  obtain ⟨k, rfl, hends'⟩ := hends.after_steps hsteps
  have hle := toNat_above_le (a := c₁.registers .rsp) (n := T.slots - T.params + 2)
  rw [← hrsp] at hle
  have hcost : lineRoom p * (k + 1) ≤ lineRoom p * (T.slots + k + 1) :=
    Nat.mul_le_mul_left _ (by omega)
  obtain ⟨c', hreaches, hrax, hrsp', hrbp'⟩ := (Matches.entry hentry).reaches_home hp hlines hbound
    hsymbols hexempt hends' (hreads.steps hsteps) (hcost.trans (by dsimp only; omega))
  refine ⟨c', ?_, hrax, hrsp', hrbp'.trans hrbp⟩
  rw [T.symbol_eq img hsymbols]
  exact (Matches.reaches_entry heffects).trans hreaches

end Assembly

end WordLang
