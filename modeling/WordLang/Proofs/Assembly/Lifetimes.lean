import WordLang.Proofs.Assembly.Generation
import WordLang.Proofs.Linear.Programs

/-!
# Lifetimes in lowered programs

In a lowered program, shortened or not, slots are declared at the head of a body, and every other
register lives on a piece of straight-line code, from the one line that defines it to the one line
that kills it. Code is generated line by line, in the order of the lines and not in the order in
which they run; as no life crosses a label, a jump or the end of an activation, the register pool is
empty there, so it does not matter where the machine came from.

## Main definitions

* `Linear.Instruction.temporaries`: the registers that an instruction mentions other than as slots
* `Linear.Life`: the life of a register as a piece of lines
* `Linear.Body.StraightLine`: bodies in which every register is a slot or has one life
* `Assembly.EmptyAtJoints`: bodies for which the register pool is empty at labels and jumps

## Main results

* `Linear.Body.Orderly.straightLine`: orderly bodies are straight-line
* `Assembly.emptyAtJoints`: the register pool is empty at labels and jumps of regular bodies
* `Assembly.lifetimes_of_lowerProgram`: both hold of lowered programs, however often shortened
-/

namespace WordLang

namespace Linear

/-! ## Lives -/

/-- The registers that an instruction mentions other than as slots. -/
def Instruction.temporaries : Instruction → List RegisterId
  | .load r _ => [r]
  | .storeRegister _ r => [r]
  | .storeImmediate _ _ => []
  | .allocParam _ _ => []
  | .allocLocal _ _ => []
  | i => i.registers

/-- Whether control leaves the place after an instruction in any case. -/
def Instruction.Leaves : Instruction → Prop
  | .jump _ => True
  | .return => True
  | _ => False

/-- The life of a register: `birth` defines it, the lines of `middle` follow, and `death` kills
it. -/
structure Life (r : RegisterId) (birth : Line) (middle : List Line) (death : Line) : Prop where
  /-- The life starts where a value is moved, loaded or popped. -/
  born : birth.instruction.born? = some r
  killed : death.instruction = .kill r
  /-- The register is neither defined nor killed in between. -/
  once : ∀ line ∈ middle, line.instruction.born? ≠ some r ∧ line.instruction ≠ .kill r
  unlabelled : death.labels = [] ∧ ∀ line ∈ middle, line.labels = []
  straight : ∀ line ∈ middle, ¬line.instruction.Leaves
  branch : ∀ passed line rest s target, middle = passed ++ line :: rest →
    line.instruction = .jumpIfNonZero s target → s = r ∧ rest = []
  call : ∀ line ∈ middle, (∀ id arguments, line.instruction ≠ .callImmediate id arguments) ∧
    ∀ s arguments, line.instruction = .callRegister s arguments → s = r

/-- A body whose slots are declared at its head, and all of whose other registers have one life, in
which everything happens that mentions them. -/
structure Body.StraightLine (b : Body) : Prop where
  head : ∃ head rest, b.lines = head ++ rest ∧ (∀ line ∈ head, line.instruction.slot?.isSome) ∧
    ∀ line ∈ rest, line.instruction.slot? = none
  slot : ∀ line ∈ b.lines, ∀ r, line.instruction.slot? = some r →
    ∀ other ∈ b.lines, r ∉ other.instruction.temporaries
  life : ∀ r ∈ mentioned b.lines, (∀ line ∈ b.lines, line.instruction.slot? ≠ some r) →
    ∃ before birth middle death after,
      b.lines = before ++ birth :: (middle ++ death :: after) ∧ Life r birth middle death ∧
        r ∉ mentioned before ∧ r ∉ mentioned after

section Orderly

variable {slots : Nat} {r : RegisterId}

theorem Instruction.Orderly.le_of_mem_temporaries {i : Instruction} {rest : List Line}
    (h : i.Orderly slots rest) (hrest : Linear.Orderly slots rest) (hr : r ∈ i.temporaries) :
    slots ≤ r := by
  have hlive : ∀ {s : RegisterId}, s ∈ live rest → slots ≤ s := hrest.le_of_mem_live
  cases i <;> simp only [Instruction.temporaries, Instruction.registers, Instruction.Orderly,
    List.mem_cons, List.not_mem_nil, or_false] at h hr
  case push | moveInt | moveString | moveFunction | pop | load | kill => subst hr; grind
  case storeRegister => subst hr; exact hlive h.2
  case callRegister => subst hr; exact hlive (by simp [h.1])
  case jumpIfNonZero => subst hr; exact hlive (by simp [h.1])
  case binary => rcases hr with rfl | rfl <;> grind

theorem Orderly.lt_of_slot? {lines : List Line} (h : Orderly slots lines) {line : Line}
    (hline : line ∈ lines) (hr : line.instruction.slot? = some r) : r < slots := by
  obtain ⟨before, after, rfl⟩ := List.append_of_mem hline
  have hi := h.of_append.2.1
  cases hinstr : line.instruction <;> rw [hinstr] at hi hr <;> cases hr <;> exact hi

theorem Orderly.exists_life {lines : List Line} (h : Orderly slots lines) (hr : r ∈ live lines)
    {birth : Line} (hbirth : birth.instruction.born? = some r) :
    ∃ middle death after, lines = middle ++ death :: after ∧ Life r birth middle death ∧
      r ∉ live after := by
  induction lines with
  | nil => exact absurd hr (Finset.notMem_empty r)
  | cons line rest ih =>
    obtain ⟨hlabels, hi, horderly⟩ := h
    -- A label would have to stand where nothing is live.
    have hunlabelled : line.labels = [] := by
      by_contra hne
      rw [hlabels hne] at hr
      exact absurd hr (Finset.notMem_empty r)
    rcases Instruction.mem_liveBefore.1 hr with hkill | ⟨hlive, hborn⟩
    · rw [hkill] at hi
      refine ⟨[], line, rest, rfl, ⟨hbirth, hkill, ?_, ⟨hunlabelled, ?_⟩, ?_, ?_, ?_⟩, hi.2⟩
      all_goals simp
    · obtain ⟨middle, death, after, hlines, hlife, hafter⟩ := ih horderly hlive
      by_cases hkill : line.instruction = .kill r
      · rw [hkill] at hi
        exact absurd hlive hi.2
      have hempty : live rest ≠ ∅ := Finset.ne_empty_of_mem hlive
      have hsingle : ∀ s, live rest = {s} → s = r := by
        intro s hs
        rw [hs, Finset.mem_singleton] at hlive
        exact hlive.symm
      refine ⟨line :: middle, death, after, by rw [hlines]; rfl,
        ⟨hbirth, hlife.killed, ?_, ⟨hlife.unlabelled.1, ?_⟩, ?_, ?_, ?_⟩, hafter⟩
      · exact List.forall_mem_cons.2 ⟨⟨hborn, hkill⟩, hlife.once⟩
      · exact List.forall_mem_cons.2 ⟨hunlabelled, hlife.unlabelled.2⟩
      · refine List.forall_mem_cons.2 ⟨fun hleaves => ?_, hlife.straight⟩
        cases hinstr : line.instruction <;> rw [hinstr] at hleaves hi <;> try exact hleaves
        all_goals exact hempty hi.1
      · intro passed first following s target hsplit hinstr
        cases passed with
        | cons passed₁ passed =>
          exact hlife.branch passed first following s target (List.cons.inj hsplit).2 hinstr
        | nil =>
          obtain ⟨rfl, rfl⟩ := List.cons.inj hsplit
          rw [hinstr] at hi
          obtain ⟨hs, target', rest', hrest⟩ := hi
          obtain rfl := hsingle s hs
          refine ⟨rfl, ?_⟩
          -- The register is killed by the line after the branch.
          cases hmiddle : middle with
          | nil => rfl
          | cons next following =>
            rw [hmiddle, hrest] at hlines
            refine absurd ?_ (hlife.once next (by rw [hmiddle]; exact List.mem_cons_self)).2
            rw [← (List.cons.inj hlines).1]
      · refine List.forall_mem_cons.2 ⟨⟨?_, ?_⟩, hlife.call⟩
        · intro id arguments hinstr
          rw [hinstr] at hi
          exact hempty hi
        · intro s arguments hinstr
          rw [hinstr] at hi
          exact hsingle s hi.1

theorem Body.Orderly.exists_life {b : Body} (h : b.Orderly slots) (hr : r ∈ mentioned b.lines)
    (hslot : slots ≤ r) :
    ∃ before birth middle death after,
      b.lines = before ++ birth :: (middle ++ death :: after) ∧ Life r birth middle death ∧
        r ∉ mentioned before ∧ r ∉ mentioned after := by
  have hborn : r ∈ born b.lines := by
    rcases h.lines.mem_mentioned hr with hr | hr | hr
    · exact absurd hr (Nat.not_lt.2 hslot)
    · rw [h.start] at hr
      exact absurd hr (Finset.notMem_empty r)
    · exact hr
  obtain ⟨birth, hmem, hbirth⟩ := List.mem_filterMap.1 hborn
  obtain ⟨before, rest, hlines⟩ := List.append_of_mem hmem
  have horderly : Linear.Orderly slots (birth :: rest) := by
    have := h.lines
    rw [hlines] at this
    exact this.of_append
  have hlive := horderly.2.1.mem_live_of_born? hbirth
  obtain ⟨middle, death, after, rfl, hlife, hdead⟩ := horderly.2.2.exists_life hlive hbirth
  refine ⟨before, birth, middle, death, after, hlines, hlife, ?_, ?_⟩
  · refine h.not_mem_mentioned hlines ?_
    rw [born_cons, hbirth]
    exact List.mem_cons_self
  · intro hafter
    have hsplit : b.lines = (before ++ birth :: (middle ++ [death])) ++ after := by
      simp [hlines]
    have horderly' : Linear.Orderly slots after := by
      have := h.lines
      rw [hsplit] at this
      exact this.of_append
    have hbefore : r ∈ born (before ++ birth :: (middle ++ [death])) := by
      rw [born_append, born_cons, hbirth]
      exact List.mem_append_right _ List.mem_cons_self
    rcases horderly'.mem_mentioned hafter with hr | hr | hr
    · exact absurd hr (Nat.not_lt.2 hslot)
    · exact hdead hr
    · exact h.not_mem_born hsplit hbefore hr

theorem Body.Orderly.straightLine {b : Body} (h : b.Orderly slots) : b.StraightLine where
  head := ⟨b.lines.takeWhile Assembly.declaresSlot, b.lines.dropWhile Assembly.declaresSlot,
    List.takeWhile_append_dropWhile.symm,
    fun line hl => (List.mem_takeWhile_imp hl : Assembly.declaresSlot line = true),
    fun _ => Assembly.slot?_of_mem_dropWhile h.slotsFirst⟩
  slot := by
    intro line hline r hr other hother htemp
    obtain ⟨before, after, hlines⟩ := List.append_of_mem hother
    have horderly : Linear.Orderly slots (other :: after) := by
      have := h.lines
      rw [hlines] at this
      exact this.of_append
    exact absurd (h.lines.lt_of_slot? hline hr)
      (Nat.not_lt.2 (horderly.2.1.le_of_mem_temporaries horderly.2.2 htemp))
  life := by
    intro r hr hslot
    refine h.exists_life hr (Nat.le_of_not_lt fun hlt => ?_)
    obtain ⟨line, hline, hline'⟩ := h.declared r hlt
    exact hslot line hline hline'

end Orderly

theorem regular_iterate_optimize {p : Program} {functions : Nat}
    (h : ∀ f ∈ p.functions, ∀ b, f.definition = .body b → ∃ slots, b.Regular slots functions)
    (n : Nat) {f : Function} (hf : f ∈ (Program.optimize^[n] p).functions) {b : Body}
    (hb : f.definition = .body b) : ∃ slots, b.Regular slots functions := by
  induction n generalizing f b with
  | zero => exact h f hf b hb
  | succ n ih =>
    rw [Function.iterate_succ_apply'] at hf
    exact regular_optimize (fun f hf b hb => ih hf hb) hf hb

theorem length_iterate_optimize (p : Program) (n : Nat) :
    (Program.optimize^[n] p).functions.length = p.functions.length := by
  induction n with
  | zero => rfl
  | succ n ih =>
    rw [Function.iterate_succ_apply', Program.optimize, Program.functions_mapBodies, List.length_map,
      ih]

end Linear

/-! ## The register pool -/

namespace Assembly

open Linear (live)

/-- Lines at which the machine may come from elsewhere or go elsewhere for good. -/
def Joint (line : Linear.Line) : Prop := line.labels ≠ [] ∨ line.instruction.Leaves

/-- While code for a body is generated, which fails only for want of a register, the register pool
is empty at labels, jumps and returns. -/
def EmptyAtJoints (p : Linear.Program) (label : String) (b : Linear.Body) : Prop :=
  ∀ comments before line rest, b.lines.dropWhile declaresSlot = before ++ line :: rest →
    Joint line →
      Ensures (bodyLines ⟨p, label, (headSlots b.lines).layout⟩ comments before) ⟨Table.empty⟩
        (fun _ pool => pool.live = []) fun failure => failure = .outOfRegisters label

theorem Joint.live_eq {slots : Nat} {line : Linear.Line} {rest : List Linear.Line} (h : Joint line)
    (ho : Linear.Orderly slots (line :: rest)) : live (line :: rest) = ∅ := by
  rcases h with hlabels | hleaves
  · exact ho.1 hlabels
  · have hi := ho.2.1
    rw [Linear.live_cons]
    cases hinstr : line.instruction <;> rw [hinstr] at hleaves hi <;> first
      | exact hi.1
      | cases hleaves

theorem emptyAtJoints {p : Linear.Program} (label : String) {b : Linear.Body} {slots : Nat}
    (hb : b.Regular slots p.functions.length) : EmptyAtJoints p label b := by
  intro comments before line rest hlines hjoint
  have hsuffix : b.lines.dropWhile declaresSlot <:+ b.lines := List.dropWhile_suffix _
  have horderly := hb.orderly.lines.of_suffix hsuffix
  have hserves : ({} : Pool).Serves (live (before ++ line :: rest)) := by
    rw [← hlines, live_dropWhile hb.orderly]
    exact Pool.serves_empty
  rw [hlines] at horderly hsuffix
  have hmem : ∀ l ∈ before, l ∈ b.lines.dropWhile declaresSlot := fun l hl => by
    rw [hlines]
    exact List.mem_append_left _ hl
  have hpool := bodyLines_serves (places_headSlots hb.orderly p label) comments horderly
    (fun l hl => slot?_of_mem_dropWhile hb.orderly.slotsFirst (hmem l hl))
    (fun l hl => hb.refers l (hsuffix.subset (List.mem_append_left _ hl))) hserves
  rw [hjoint.live_eq horderly.of_append] at hpool
  refine hpool.mono (fun _ pool h => ?_) fun _ hfailure => hfailure
  exact List.eq_nil_iff_forall_not_mem.2 fun r hr => Finset.notMem_empty r (h.mem_live.1 hr)

/-! ## Lowered programs -/

/-- In a program that was lowered from graphs with registers enough and shortened any number of times,
the lives of registers are straight-line, and the register pool is empty at labels, jumps and
returns. -/
theorem lifetimes_of_lowerProgram {m : Module} {r : Resolutions} {graphs : List Flow.Function}
    (hids : ∀ g ∈ graphs, g.registerCount ≤ idCount) {p : Linear.Program}
    (h : Linear.lowerProgram m r graphs = .ok p) (n : Nat)
    {f : Linear.Function} (hf : f ∈ (Linear.Program.optimize^[n] p).functions) {b : Linear.Body}
    (hb : f.definition = .body b) :
    b.StraightLine ∧ EmptyAtJoints (Linear.Program.optimize^[n] p) f.label b := by
  obtain ⟨slots, hregular⟩ := Linear.regular_iterate_optimize
    (fun f hf b hb => Linear.regular_of_lowerProgram hids h hf hb) n hf hb
  refine ⟨hregular.orderly.straightLine, emptyAtJoints f.label (hregular.mono ?_)⟩
  rw [Linear.length_iterate_optimize]
  exact min_le_left _ _

theorem sample_lines : Linear.Sample.program.toOption.any fun p =>
    p.functions.any fun f => f.body?.any fun b => b.lines.length = 29 := by
  decide +kernel

/-- The lives of registers are straight-line in the body of the sample and in what it is shortened
to. -/
theorem lifetimes_of_lowerProgram_sample : ∃ p f b, Linear.Sample.program = .ok p ∧
    f ∈ p.functions ∧ f.definition = .body b ∧ b.lines.length = 29 ∧
    b.StraightLine ∧ EmptyAtJoints p f.label b ∧
    b.optimize.StraightLine ∧ EmptyAtJoints p.optimize f.label b.optimize := by
  obtain ⟨p, hp, hany⟩ := exists_ok_of_any sample_lines
  obtain ⟨f, hf, hbody⟩ := List.any_eq_true.1 hany
  obtain ⟨b, hb, hlength⟩ := (Option.any_eq_true _ _).1 hbody
  have hb := Linear.Function.body?_eq_some.1 hb
  obtain ⟨hstraight, hempty⟩ := lifetimes_of_lowerProgram Linear.Sample.registers_le hp 0 hf hb
  have hf' : { f with definition := .body b.optimize } ∈ p.optimize.functions := by
    refine List.mem_map.2 ⟨f, hf, ?_⟩
    rw [hb]
  obtain ⟨hstraight', hempty'⟩ := lifetimes_of_lowerProgram Linear.Sample.registers_le hp 1 hf' rfl
  exact ⟨p, f, b, hp, hf, hb, by simpa using hlength, hstraight, hempty, hstraight', hempty'⟩

end Assembly

end WordLang
