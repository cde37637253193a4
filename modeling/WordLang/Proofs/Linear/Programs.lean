import WordLang.Proofs.Linear.Lowered

/-!
# Lowered programs

A program can be lowered from any graphs, not only from those of a checked module. Wherever lowering
succeeds and there are identifiers for all registers, every body is the code of one of the graphs. So
every body is regular, whatever the graph does, and a program that is shortened answers every call as
before and takes no more fuel.

## Main results

* `Linear.exists_bodyCode_of_lowerProgram`: the bodies of a lowered program are the code of graphs
* `Linear.lowerProgram_call_optimize`: shortening keeps the answers of lowered programs
-/

namespace WordLang.Linear

theorem lowerDefinition_ensures_body {functions : List StmtId} (decl : FnDecl) (linkage : Linkage)
    {graph : Option Flow.Function} (hids : ∀ g ∈ graph, g.registerCount ≤ idCount)
    (σ : LowerState) :
    Ensures (lowerDefinition functions decl linkage graph) σ
      (fun definition _ => ∀ b, definition = .body b → ∃ g, BodyCode functions g b)
      fun _ => True := by
  match hforeign : linkage.foreign, graph with
  | some symbol, none =>
    simp only [lowerDefinition, hforeign]
    exact .pure fun b hb => by cases hb
  | none, some g =>
    simp only [lowerDefinition, hforeign]
    refine .bind_of (lowerFunction_ensures (fun h => (h trivial).elim) (hids g rfl) σ)
      fun b _ hb => ?_
    refine .pure fun b' hb' => ?_
    cases hb'
    exact ⟨g, hb⟩
  | some symbol, some g =>
    simp only [lowerDefinition, hforeign]
    exact .throw trivial
  | none, none =>
    simp only [lowerDefinition, hforeign]
    exact .throw trivial

theorem lowerFunctions_ensures_bodies (m : Module) (r : Resolutions) {graphs : List Flow.Function}
    (hids : ∀ g ∈ graphs, g.registerCount ≤ idCount) (ids : List StmtId) (σ : LowerState) :
    Ensures (lowerFunctions m r graphs ids) σ
      (fun fs _ => fs.length = ids.length ∧ ∀ f ∈ fs, ∀ b, f.definition = .body b →
        ∃ g, BodyCode r.functions g b)
      fun _ => True := by
  induction ids generalizing σ with
  | nil => exact .pure ⟨rfl, fun f hf => absurd hf List.not_mem_nil⟩
  | cons id ids ih =>
    rw [lowerFunctions]
    split
    · exact .throw trivial
    · split
      · exact .throw trivial
      · have hgraph : ∀ g ∈ graphs.reverse.find? fun g => g.decl = id, g.registerCount ≤ idCount :=
          fun g hg => hids g (List.mem_reverse.1 (List.mem_of_find?_eq_some hg))
        refine .bind_of (lowerDefinition_ensures_body _ _ hgraph σ) fun d σ₁ hd => ?_
        refine .bind_of (ih σ₁) fun fs _ hfs => .pure ⟨congrArg (· + 1) hfs.1, ?_⟩
        rintro f (_ | ⟨_, hf⟩)
        · exact hd
        · exact hfs.2 f hf

variable {m : Module} {r : Resolutions} {graphs : List Flow.Function} {p : Program}
  (hids : ∀ g ∈ graphs, g.registerCount ≤ idCount)
include hids

/-- A lowered program has the functions of its module, and its bodies are the code of graphs. -/
theorem exists_bodyCode_of_lowerProgram (h : lowerProgram m r graphs = .ok p) :
    p.functions.length = r.functions.length ∧ ∀ f ∈ p.functions, ∀ b, f.definition = .body b →
      ∃ g, BodyCode r.functions g b := by
  have hfunctions := lowerFunctions_ensures_bodies m r hids r.functions ⟨0, []⟩
  rw [lowerProgram, EStateM.run] at h
  rw [Ensures] at hfunctions
  split at h <;> rename_i hrun <;> rw [hrun] at hfunctions <;> cases h
  exact hfunctions

theorem regular_of_lowerProgram (h : lowerProgram m r graphs = .ok p) {f : Function}
    (hf : f ∈ p.functions) {b : Body} (hb : f.definition = .body b) :
    ∃ slots, b.Regular slots (min p.functions.length idCount) := by
  obtain ⟨hlength, hcode⟩ := exists_bodyCode_of_lowerProgram hids h
  obtain ⟨g, hg⟩ := hcode f hf b hb
  exact ⟨_, hlength ▸ hg.regular_min⟩

/-! ## Shortened programs -/

/-- A call of a program that was lowered from graphs with registers enough, and that does not run out
of fuel, has the same answer after the program was shortened, and leaves no less fuel. -/
theorem lowerProgram_call_optimize (h : lowerProgram m r graphs = .ok p) (label : String)
    (args : List Int64) (fuel : Nat)
    (hcall : (Session.call p { fuel } label args).1 ≠ .error .outOfFuel) :
    (Session.call p.optimize { fuel } label args).1 = (Session.call p { fuel } label args).1 ∧
      (Session.call p { fuel } label args).2.fuel ≤
        (Session.call p.optimize { fuel } label args).2.fuel := by
  refine Refines.call_eq_and_fuel_le (.optimize_of_becomes fun f hf b hb => ?_) hcall
  obtain ⟨slots, hregular⟩ := regular_of_lowerProgram hids h hf hb
  exact hregular.optimize.1 (min_le_right _ _)

omit hids

namespace Sample

/-- The declaration of a function with one parameter. -/
def decl : FnDecl :=
  { ident := ⟨"f", default⟩, attrs := [], params := [⟨⟨"n", default⟩, 1, .void ⟨0, 1⟩⟩]
    result := .void ⟨1, 1⟩, body := none }

/-- What is known about a module with that function only. -/
def resolutions : Resolutions :=
  { bindings := .empty, breakTargets := .empty, functions := [0]
    declarations := Table.empty.insert 0 (.function ⟨0, 1⟩ decl) }

/-- A graph that adds five to an argument that is not zero, and leaves a value on the stack for
zero. -/
def graph : Flow.Function :=
  { decl := 0, name := "f", locals := [⟨0, .int, some "n"⟩, ⟨1, .int, none⟩], params := [0]
    result := 1, entry := 0, exit := 2
    blocks :=
      [⟨0, [.load 0], .branch 1 2⟩,
        ⟨1, [.push (.int 5), .load 0, .binary .add, .store 1], .return⟩,
        ⟨2, [.push (.int 7)], .return⟩] }

/-- The graph as a program. -/
def program : Except Failure Program :=
  lowerProgram ⟨[.function ⟨0, 1⟩ decl]⟩ resolutions [graph]

theorem program_runs : program.toOption.any fun p =>
    (Session.call p {} "sbc__f" [4]).1 = .ok 9 &&
      (Session.call p {} "sbc__f" [0]).1 = .error (.unbalancedStack "sbc__f") := by
  decide +kernel

theorem registers_le : ∀ g ∈ [graph], g.registerCount ≤ idCount := by decide +kernel

end Sample

/-- The shortened sample has the answers of the sample, a value and an error, and takes no more
fuel. -/
theorem lowerProgram_call_optimize_sample : ∃ p, Sample.program = .ok p ∧
    (Session.call p.optimize {} "sbc__f" [4]).1 = .ok 9 ∧
    (Session.call p {} "sbc__f" [4]).2.fuel ≤ (Session.call p.optimize {} "sbc__f" [4]).2.fuel ∧
    (Session.call p.optimize {} "sbc__f" [0]).1 = .error (.unbalancedStack "sbc__f") := by
  obtain ⟨p, hp, hruns⟩ := exists_ok_of_any Sample.program_runs
  simp only [Bool.and_eq_true, decide_eq_true_eq] at hruns
  obtain ⟨hvalue, herror⟩ := hruns
  have hfour := lowerProgram_call_optimize Sample.registers_le hp "sbc__f" [4] _ (by rw [hvalue]; simp)
  have hzero := lowerProgram_call_optimize Sample.registers_le hp "sbc__f" [0] _ (by rw [herror]; simp)
  exact ⟨p, hp, hfour.1.trans hvalue, hfour.2, hzero.1.trans herror⟩

end WordLang.Linear
