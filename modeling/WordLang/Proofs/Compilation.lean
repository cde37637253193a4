import WordLang.Proofs.Assembly.Generation
import WordLang.Proofs.Checked

/-!
# What can go wrong in a compilation

A compilation fails because of its source text, or because a function needs more machine registers
at once than there are. Code that was not shortened keeps at most two registers live, so the second
kind of failure is a matter of optimisation only: shortened code keeps operands in registers that
would have been pushed on the stack.

## Main definitions

* `CompileOptions.commentsMode`: the comments that go with the instructions

## Main results

* `compile_cases`: a compilation fails in the check, or is the generation of code for a regular
  program
* `compile_faultless`: no invariant is violated, and registers suffice without optimisation
* `compile_optimized`: with optimisation, registers suffice exactly if the code is narrow enough
-/

namespace WordLang

namespace Linear.Function

variable {f : Linear.Function}

theorem Bridged.mapBody (h : f.Bridged) (change : Body → Body) : (f.mapBody change).Bridged := by
  unfold Function.mapBody
  split
  · next body hbody =>
    rintro (he | ⟨symbol, hs⟩)
    · exact h (.inl he)
    · cases hs
  · exact h

theorem Narrow.mono {width width' : Nat} (hle : width ≤ width') (h : f.Narrow width) :
    f.Narrow width' := fun b hb => (h b hb).mono hle

end Linear.Function

namespace Checked.LowersTo

variable {c : Checked} {simplify : Bool} {p : Linear.Program} (hp : c.LowersTo simplify p)
include hp

/-- Functions that foreign code defines or calls take few arguments. -/
theorem bridged {f : Linear.Function} (hf : f ∈ p.functions) : f.Bridged := by
  obtain ⟨i, id, hid, hi⟩ := hp.exists_lowered hf
  obtain ⟨decl, linkage, hlowered⟩ := hp.lowered hid hi
  intro hforeign
  rw [hlowered.arity]
  refine hlowered.linked.arity ?_
  rcases hforeign with he | ⟨symbol, hs⟩
  · exact .inr (hlowered.exported ▸ he)
  · refine .inl ?_
    obtain ⟨d, hflow, hd⟩ := hlowered.definition
    -- A graph would have been lowered to a body.
    cases d with
    | graph g =>
      obtain ⟨-, -, b, hb, -⟩ := hd
      rw [hs] at hb
      cases hb
    | foreign symbol' =>
      simp only [flow, hlowered.declared, Option.map_some, hlowered.linked.stated] at hflow
      split at hflow
      · cases hflow
      · split at hflow
        · next hlinkage =>
          cases hlinkage
          rfl
        · cases hflow

/-- At most two registers are live at once. -/
theorem narrow {f : Linear.Function} (hf : f ∈ p.functions) : f.Narrow 2 := by
  intro b hb
  obtain ⟨g, hg⟩ := hp.bodyCode hf hb
  exact hg.narrow

end Checked.LowersTo

def CompileOptions.commentsMode (options : CompileOptions) : Assembly.Comments :=
  if options.comments then .listing false else .none

theorem compile_eq (options : CompileOptions) (source : List Char) :
    compile options source = (do
      let c ← Checked.ofSource? source
      let p ← c.linear options.optimize options.optimize
      Assembly.ofProgram p options.commentsMode) := by
  unfold compile compileReport
  cases Checked.ofSource? source with
  | error failure => rfl
  | ok c =>
    show _ = c.linear options.optimize options.optimize >>= _
    unfold Checked.linear
    dsimp only
    generalize c.graphs options.optimize = built
    obtain ⟨graphs, _ | failure⟩ := built
    · dsimp only
      cases c.linearOf options.optimize graphs with
      | error failure => rfl
      | ok p => rfl
    · rfl

theorem compile_eq_render {source : List Char} {c : Checked} {p : Linear.Program}
    {lines : List Assembly.Line} (hc : Checked.ofSource? source = .ok c)
    (hp : c.linear true true = .ok p) (hlines : Assembly.programLines p .none = .ok lines) :
    compile {} source = .ok (Assembly.render lines) := by
  rw [compile_eq, hc, ok_bind, hp, ok_bind]
  show Assembly.programLines p .none >>= _ = _
  rw [hlines]
  rfl

theorem Checked.EnoughIds.of_ofSource? {source : List Char} {c : Checked} (henough : c.EnoughIds)
    (h : Checked.ofSource? source = .ok c) : ∀ c', Checked.ofSource? source = .ok c' → c'.EnoughIds := by
  intro c' h'
  cases h.symm.trans h'
  exact henough

theorem compile_cases (options : CompileOptions) {source : List Char}
    (henough : ∀ c, Checked.ofSource? source = .ok c → c.EnoughIds) :
    (∃ failure, Checked.ofSource? source = .error failure ∧ failure.OfSource ∧
        compile options source = .error failure) ∨
      ∃ c p, Checked.ofSource? source = .ok c ∧
        c.linear options.optimize options.optimize = .ok p ∧
        compile options source = Assembly.ofProgram p options.commentsMode ∧ p.Regular ∧
        (∀ f ∈ p.functions, f.Bridged) ∧
        (options.optimize = true ∨ ∀ f ∈ p.functions, f.Narrow 2) := by
  rw [compile_eq]
  cases h : Checked.ofSource? source with
  | error failure => exact .inl ⟨failure, rfl, Checked.ofSource_of_ofSource? h, rfl⟩
  | ok c =>
    have hc := Checked.valid_of_ofSource? h
    obtain ⟨p, -, hlinear, -, hp⟩ := hc.exists_program (henough c h) options.optimize
    refine .inr ⟨c, _, rfl, hlinear options.optimize, ?_, ?_⟩
    · show c.linear options.optimize options.optimize >>= _ = _
      rw [hlinear]
      rfl
    · cases options.optimize with
      | false => exact ⟨hp.regular, fun f hf => hp.bridged hf, .inr fun f hf => hp.narrow hf⟩
      | true =>
        refine ⟨hp.regular.optimize, fun f hf => ?_, .inl rfl⟩
        obtain ⟨g, hg, rfl⟩ := List.mem_map.1 hf
        exact (hp.bridged hg).mapBody _

theorem exists_compile_of_ofSource? (options : CompileOptions) {source : List Char} {c : Checked}
    (h : Checked.ofSource? source = .ok c) (henough : c.EnoughIds) :
    ∃ text, compile { options with optimize := false } source = .ok text := by
  rcases compile_cases { options with optimize := false } (henough.of_ofSource? h) with
    ⟨failure, hfailure, -⟩ | ⟨c', p, -, -, hcompile, hregular, hbridged, hwidth⟩
  · rw [h] at hfailure
    cases hfailure
  · have hnarrow : ∀ f ∈ p.functions, f.Narrow Assembly.poolSize := fun f hf =>
      (hwidth.resolve_left Bool.false_ne_true f hf).mono (by decide)
    rw [hcompile]
    rcases Assembly.ofProgram_cases _ hregular hbridged with
      ⟨htext, -⟩ | ⟨before, f, after, hsplit, -, hwide, -⟩
    · exact htext
    · exact absurd (hnarrow f (by rw [hsplit]; simp)) hwide

theorem Checked.exists_ofSource?_iff {source : List Char} :
    (∃ c, Checked.ofSource? source = .ok c) ↔ ∃ m r answers, Module.ofSource? source = .ok m ∧
      m.resolve = .ok r ∧ (Query.checkProgram r m).run {} = .ok () answers := by
  constructor
  · rintro ⟨c, h⟩
    obtain ⟨m, hm, h⟩ := exists_of_bind_eq_ok h
    obtain ⟨r, hr, h⟩ := exists_of_bind_eq_ok h
    split at h
    · next answers hcheck => exact ⟨m, r, answers, hm, hr, hcheck⟩
    · cases h
  · rintro ⟨m, r, answers, hm, hr, hcheck⟩
    refine ⟨⟨m, r, answers⟩, ?_⟩
    rw [Checked.ofSource?, hm, ok_bind, hr, ok_bind, hcheck]
    rfl

/-- As long as identifiers last, no compilation finds an invariant violated. Without optimisation it
does not run out of registers either, so it succeeds exactly if reading, resolving and checking do. -/
theorem compile_faultless (options : CompileOptions) {source : List Char}
    (henough : ∀ c, Checked.ofSource? source = .ok c → c.EnoughIds) :
    (∀ defect, compile options source ≠ .error (.internal defect)) ∧
      (∀ label, compile { options with optimize := false } source ≠
        .error (.outOfRegisters label)) ∧
      ((∃ text, compile { options with optimize := false } source = .ok text) ↔
        ∃ m r answers, Module.ofSource? source = .ok m ∧ m.resolve = .ok r ∧
          (Query.checkProgram r m).run {} = .ok () answers) := by
  refine ⟨fun defect => ?_, fun label => ?_, ?_⟩
  · rcases compile_cases options henough with
      ⟨failure, -, hsource, hcompile⟩ | ⟨c, p, -, -, hcompile, hregular, hbridged, -⟩
    · rw [hcompile]
      rintro ⟨⟩
      cases hsource
    · rw [hcompile]
      rcases Assembly.ofProgram_cases _ hregular hbridged with
        ⟨⟨text, htext⟩, -⟩ | ⟨before, f, after, -, -, -, hout⟩
      · rw [htext]
        rintro ⟨⟩
      · rw [hout]
        rintro ⟨⟩
  · cases hsource : Checked.ofSource? source with
    | error failure =>
      rw [compile_eq, hsource]
      rintro ⟨⟩
      cases Checked.ofSource_of_ofSource? hsource
    | ok c =>
      obtain ⟨text, htext⟩ := exists_compile_of_ofSource? options hsource (henough c hsource)
      rw [htext]
      rintro ⟨⟩
  · rw [← Checked.exists_ofSource?_iff]
    constructor
    · rintro ⟨text, htext⟩
      rw [compile_eq] at htext
      obtain ⟨c, hc, -⟩ := exists_of_bind_eq_ok htext
      exact ⟨c, hc⟩
    · rintro ⟨c, hc⟩
      exact exists_compile_of_ofSource? options hc (henough c hc)

/-- A program with an expression that is nested too deep for the machine registers. -/
def nestedSums : List Char := "fn f() { 1+(1+(1+(1+(1+(1+(1+(1+(1+1)))))))); }".toList

theorem nestedSums_passes :
    (Checked.ofSource? nestedSums).toOption.any fun c => c.EnoughIds := by
  decide +kernel

theorem exists_nestedSums : ∃ c, Checked.ofSource? nestedSums = .ok c ∧ c.EnoughIds := by
  obtain ⟨c, hc, henough⟩ := exists_ok_of_any nestedSums_passes
  exact ⟨c, hc, of_decide_eq_true henough⟩

theorem compile_nestedSums : compile {} nestedSums = .error (.outOfRegisters "sbc__f") := by
  decide +kernel

/-- Nested sums are compiled without optimisation, and no invariant is violated with it. -/
theorem compile_faultless_nestedSums :
    (∀ defect, compile {} nestedSums ≠ .error (.internal defect)) ∧
      ∃ text, compile { optimize := false } nestedSums = .ok text := by
  obtain ⟨c, hc, henough⟩ := exists_nestedSums
  obtain ⟨hdefect, -, hiff⟩ := compile_faultless {} (henough.of_ofSource? hc)
  exact ⟨hdefect, hiff.2 (Checked.exists_ofSource?_iff.1 ⟨c, hc⟩)⟩

/-! ## Optimisation -/

/-- Optimisation can make a program run out of registers. -/
theorem nestedSums_out_of_registers :
    (∃ text, compile { optimize := false } nestedSums = .ok text) ∧
      compile { optimize := true } nestedSums = .error (.outOfRegisters "sbc__f") := by
  obtain ⟨c, hc, henough⟩ := exists_nestedSums
  exact ⟨exists_compile_of_ofSource? {} hc henough, compile_nestedSums⟩

/-- With optimisation, a program that compiles without it is compiled exactly if at most nine
registers are live at once in its shortened code; otherwise the first function with more of them is
reported. Identifiers have to last. -/
theorem compile_optimized {options : CompileOptions} {source : List Char}
    (henough : ∀ c, Checked.ofSource? source = .ok c → c.EnoughIds)
    (h : ∃ text, compile { options with optimize := false } source = .ok text) :
    ∃ c p, Checked.ofSource? source = .ok c ∧ c.linear true true = .ok p ∧
      ((∃ text, compile { options with optimize := true } source = .ok text) ∧
          (∀ f ∈ p.functions, f.Narrow 9) ∨
        ∃ before f after, p.functions = before ++ f :: after ∧ (∀ g ∈ before, g.Narrow 9) ∧
          ¬f.Narrow 9 ∧ compile { options with optimize := true } source =
            .error (.outOfRegisters f.label)) := by
  rcases compile_cases { options with optimize := true } henough with
    ⟨failure, hfailure, -⟩ | ⟨c, p, hc, hp, hcompile, hregular, hbridged, -⟩
  · obtain ⟨text, htext⟩ := h
    rw [compile_eq, hfailure] at htext
    cases htext
  · refine ⟨c, p, hc, hp, ?_⟩
    rw [hcompile]
    exact Assembly.ofProgram_cases _ hregular hbridged

/-- In the shortened code of nested sums, too many registers are live. -/
theorem compile_optimized_nestedSums : ∃ c p f, Checked.ofSource? nestedSums = .ok c ∧
    c.linear true true = .ok p ∧ f ∈ p.functions ∧ f.label = "sbc__f" ∧ ¬f.Narrow 9 := by
  obtain ⟨c', hc', henough⟩ := exists_nestedSums
  obtain ⟨c, p, hc, hp, ⟨⟨text, htext⟩, -⟩ | ⟨before, f, after, hsplit, -, hwide, hout⟩⟩ :=
    compile_optimized (henough.of_ofSource? hc') (exists_compile_of_ofSource? {} hc' henough)
  · cases htext.symm.trans compile_nestedSums
  · have hlabel := Failure.outOfRegisters.inj (Except.error.inj (hout.symm.trans compile_nestedSums))
    exact ⟨c, p, f, hc, hp, by rw [hsplit]; simp, hlabel, hwide⟩

end WordLang
