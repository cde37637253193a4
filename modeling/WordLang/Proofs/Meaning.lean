import WordLang.Proofs.Checked

/-!
# Linear code means what the source means

The linear code of a checked program computes what the evaluation of its tree computes, whether or
not graphs are simplified and code is shortened. A call of a function answers with a value, or with
the first operation that fails, or it runs out of fuel; it does not fail in any other way.

## Main definitions

* `Checked.selected?`: the function that a label selects
* `Evaluation.Settles`: the result of a function on words, whatever the bound, if it is high enough

## Main results

* `Checked.call_optimized`: optimisation keeps the answers of functions that return words
* `Checked.call_evaluates`: calls of linear code answer with the result of evaluation
* `Checked.call_never_stuck`: the ways in which a call can fail
-/

namespace WordLang

open Linear (Session find?_of_forall₂)

variable {args : List Int64} {out : Flow.Outcome}

/-! ## Labels and errors -/

namespace Linear

theorem symbolOf_item {m : Module} {tag : Tag} {decl : FnDecl}
    (hitem : .function tag decl ∈ m.items) :
    symbolOf m tag.id decl = "sbc__" ++ decl.ident.name := by
  have hany : (m.items.any fun item => item.id = tag.id) = true :=
    List.any_eq_true.2 ⟨_, hitem, decide_eq_true rfl⟩
  rw [symbolOf, if_pos hany]

/-- The errors that running the code of a checked program may end with. -/
def RunError.Ordinary : RunError → Prop
  | .outOfFuel => True
  | .undefinedQuotient _ _ => True
  | .undefinedRemainder _ _ => True
  | .foreign _ => True
  | _ => False

end Linear

/-! ## Evaluation on words -/

/-- The result of a function on words, as a result of evaluation. -/
def Evaluation.ofWords : Except Fault Int64 → Except Stop Flow.Value
  | .ok value => .ok (.int value)
  | .error fault => .error (.fault fault)

/-- The evaluation of a function on words has a result, which every bound gives that is high
enough. -/
def Evaluation.Settles (r : Resolutions) (id : StmtId) (args : List Int64)
    (result : Except Fault Int64) : Prop :=
  ∃ n, ∀ m ≥ n, Evaluation.function r m id (args.map .int) = ofWords result

theorem Evaluation.ofWords_injective : Function.Injective Evaluation.ofWords := by
  intro x y h
  cases x <;> cases y <;> cases h <;> rfl

theorem Evaluation.Settles.unique {r : Resolutions} {id : StmtId}
    {result result' : Except Fault Int64} (h : Settles r id args result)
    (h' : Settles r id args result') : result = result' := by
  obtain ⟨n, hn⟩ := h
  obtain ⟨n', hn'⟩ := h'
  apply ofWords_injective
  rw [← hn (n + n') (by omega), hn' (n + n') (by omega)]

theorem fits_words {params : List Ty} (hplain : ∀ ty ∈ params, ty.Plain)
    (hlen : args.length = params.length) : List.Forall₂ Flow.Value.Fits (args.map .int) params := by
  induction params generalizing args with
  | nil =>
    rw [List.length_eq_zero_iff.1 hlen]
    exact .nil
  | cons ty params ih =>
    obtain ⟨w, args, rfl⟩ := List.exists_cons_of_length_eq_add_one hlen
    refine .cons ?_ (ih (fun t ht => hplain t (List.mem_cons_of_mem _ ht)) (Nat.succ.inj hlen))
    have hty := hplain ty List.mem_cons_self
    cases ty with
    | int => exact ⟨w, rfl⟩
    | function => exact hty.elim
    | _ => trivial

namespace Checked

/-! ## Graphs of checked programs -/

/-- The graph of a function, started with words as arguments, ends at a cost. -/
def Ends (c : Checked) (id : StmtId) (args : List Int64) (cost : Nat) (out : Flow.Outcome) : Prop :=
  ∃ s, (c.flow false).start? id (args.map .int) = some s ∧
    (Flow.machine (c.flow false)).Ends cost s out

namespace Valid

variable {c : Checked} (hc : c.Valid) {id : StmtId} {decl : FnDecl}
include hc

theorem safe (hdecl : c.resolutions.function? id = some decl)
    (hlen : args.length = decl.params.length) {result : Ty}
    (hresult : decl.result.meaning? = some result) (n : Nat) :
    Evaluation.Safe (Evaluation.function c.resolutions n id (args.map .int))
      fun v => v.Fits result := by
  obtain ⟨-, params, result', hchecked⟩ := hc.functionChecked hdecl
  obtain ⟨decl', params', result'', hdecl', hparams, hresult', heq⟩ :=
    Resolutions.functionType?_eq_some.1 hchecked.type
  cases heq
  cases hdecl.symm.trans hdecl'
  cases hresult.symm.trans hresult'
  obtain ⟨henough, hplain⟩ := Param.plain_of_meanings? hparams
  exact Evaluation.function_safe hc.resolved hc.checked n hchecked.type
    (fits_words hplain (hlen.trans henough.symm))

theorem exists_result (hdecl : c.resolutions.function? id = some decl) :
    ∃ result, decl.result.meaning? = some result := by
  obtain ⟨-, params, result, hchecked⟩ := hc.functionChecked hdecl
  obtain ⟨decl', params', result', hdecl', -, hresult, -⟩ :=
    Resolutions.functionType?_eq_some.1 hchecked.type
  cases hdecl.symm.trans hdecl'
  exact ⟨result', hresult⟩

variable (henough : c.EnoughIds)
include henough

theorem exists_start (hdecl : c.resolutions.function? id = some decl) {body : Block}
    (hbody : decl.body = some body) (hlen : args.length = decl.params.length) :
    ∃ s, (c.flow false).start? id (args.map .int) = some s := by
  obtain ⟨g, -, hgraph?, hgraph⟩ := hc.graph?_of_body henough hdecl hbody
  have hwords : (args.map Flow.Value.int).length = decl.params.length := by rwa [List.length_map]
  obtain ⟨frame, hframe⟩ := hgraph.exists_activation hwords
  exact ⟨{ frame }, by simp [Flow.Program.start?, flow, hgraph?, hframe]⟩

theorem evaluation_of_ends (hdecl : c.resolutions.function? id = some decl)
    (hlen : args.length = decl.params.length) {k : Nat} (h : c.Ends id args k out) :
    ¬Linear.Void out ∧
      ∀ n, k + 1 < n → Evaluation.function c.resolutions n id (args.map .int) = out := by
  obtain ⟨s, hs, hends⟩ := h
  obtain ⟨result, hresult⟩ := hc.exists_result hdecl
  have hsafe : ∀ n, Evaluation.function c.resolutions n id (args.map .int) ≠ .error .stuck := by
    intro n hstuck
    have := hc.safe hdecl hlen hresult n
    rw [hstuck] at this
    exact this rfl
  obtain ⟨hbound, hall⟩ := Flow.evaluation_of_ends hc.resolved (hc.implements henough) hsafe hs hends
  refine ⟨?_, hall⟩
  match out, hall (k + 2) (by omega) with
  | .ok v, _ => exact fun h => h
  | .error (.fault e), _ => exact fun h => h
  | .error .bound, _ => exact (hbound rfl).elim
  | .error .stuck, heq => exact (hsafe _ heq).elim

theorem ends_of_settles (hdecl : c.resolutions.function? id = some decl) {body : Block}
    (hbody : decl.body = some body) (hlen : args.length = decl.params.length)
    {result : Except Fault Int64} (h : Evaluation.Settles c.resolutions id args result) :
    ∃ k, c.Ends id args k (Evaluation.ofWords result) := by
  obtain ⟨s, hs⟩ := hc.exists_start henough hdecl hbody hlen
  obtain ⟨n, hn⟩ := h
  have hfollows := Flow.start_follows hc.resolved (hc.implements henough) hs n
  rw [hn (n + 1) (by omega)] at hfollows
  cases result with
  | ok w =>
    obtain ⟨k, hk⟩ := hfollows.ends_ok
    exact ⟨k, s, hs, hk⟩
  | error e =>
    obtain ⟨k, hk⟩ := hfollows
    exact ⟨k, s, hs, hk⟩

theorem refines_flow (simplify : Bool) : Flow.Refines (c.flow false) (c.flow simplify) := by
  cases simplify with
  | false => exact .refl _
  | true =>
    have hflow : c.flow true = (c.flow false).simplify c.resolutions.functions := by
      funext d
      cases hd : c.resolutions.function? d with
      | none =>
        have hnone : ∀ simplify, c.flow simplify d = none := by
          intro simplify
          simp [flow, graph?, hd]
        simp [Flow.Program.simplify, hnone]
      | some decl =>
        have hmem := (hc.functionChecked hd).1
        cases hbody : decl.body with
        | some body =>
          obtain ⟨f, -, hgraph, -⟩ := hc.graph?_of_body henough hd hbody
          simp [Flow.Program.simplify, flow, hgraph, hmem, Flow.Definition.simplify]
        | none =>
          obtain ⟨symbol, exported, hlinkage, -, hforeign⟩ := hc.flow_of_no_body hd hbody true
          obtain ⟨symbol', exported', hlinkage', -, hforeign'⟩ := hc.flow_of_no_body hd hbody false
          cases hlinkage.symm.trans hlinkage'
          simp [Flow.Program.simplify, hforeign, hforeign', hmem, Flow.Definition.simplify]
    rw [hflow]
    refine Flow.refines_simplify (fun d f hf => ?_) _
    cases hd : c.resolutions.function? d with
    | none => simp [flow, graph?, hd] at hf
    | some decl =>
      cases hbody : decl.body with
      | some body =>
        obtain ⟨g, -, hgraph, hof⟩ := hc.graph?_of_body henough hd hbody
        simp only [flow, hgraph, Bool.false_eq_true, if_false, Option.some.injEq,
          Flow.Definition.graph.injEq] at hf
        subst hf
        exact ⟨_, hof.lowerable.tidy⟩
      | none =>
        obtain ⟨symbol, exported, -, -, hforeign⟩ := hc.flow_of_no_body hd hbody false
        cases hforeign.symm.trans hf

end Valid

/-! ## Linear code of checked programs -/

/-- What a function of linear code does when it is called with words as arguments: it ends when the
graph of the function ends, with the result of the graph. -/
structure Runs (c : Checked) (p : Linear.Program) (id : StmtId) (args : List Int64) (slots : Nat)
    (frame : Linear.Frame) : Prop where
  ends : ∀ {k out}, c.Ends id args k out → ∃ j ending, j ≤ slots + k ∧
    (Linear.machine p).Ends j ⟨frame, [], []⟩ ending ∧
    Linear.SameResult c.resolutions.functions out ending
  ends_back : ∀ {j ending}, (Linear.machine p).Ends j ⟨frame, [], []⟩ ending →
    ∃ k out, c.Ends id args k out ∧ Linear.SameResult c.resolutions.functions out ending

section

variable {c : Checked} (hc : c.Valid) (henough : c.EnoughIds)
  {simplify : Bool} {p : Linear.Program} (hp : c.LowersTo simplify p) {i : Nat} {id : StmtId}
  (hid : c.resolutions.functions[i]? = some id) {decl : FnDecl}
  (hdecl : c.resolutions.function? id = some decl) {body : Block} (hbody : decl.body = some body)
  (hlen : args.length = decl.params.length)
include hc henough hp hid hdecl hbody hlen

/-- A function with a body, called with as many words as it has parameters, does what its graph
does. -/
theorem LowersTo.runs {f : Linear.Function} (hf : p.functions[i]? = some f) :
    ∃ g frame, c.graph? false id = some g ∧
      Linear.activate f args.length args.reverse = .ok (frame, []) ∧
      c.Runs p id args g.slotCount frame ∧
      (simplify = false → ∀ {j ending}, (Linear.machine p).Ends j ⟨frame, [], []⟩ ending →
        ∃ k out, j = g.slotCount + k ∧ c.Ends id args k out ∧
          Linear.SameResult c.resolutions.functions out ending) := by
  obtain ⟨g, -, hgraph?, hgraph⟩ := hc.graph?_of_body henough hdecl hbody
  have hflow : ∀ simplify, c.flow simplify id = some (.graph (if simplify then g.simplify else g)) :=
    fun simplify => by simp [flow, hgraph?]
  have hslots : (if simplify then g.simplify else g).slotCount = g.slotCount := by
    split
    · exact congrArg List.length (Linear.slotCells_simplify hgraph.lowerable.tidy)
    · rfl
  have hi := idxOf?_of_getElem? hc.resolved.nodup hid
  have hargs : List.Forall₂ (Linear.Stands c.resolutions.functions) (args.map .int) args := by
    rw [List.forall₂_map_left_iff]
    exact List.forall₂_same.2 fun _ _ => rfl
  obtain ⟨s₀, hs₀⟩ := hc.exists_start henough hdecl hbody hlen
  -- The simplified graph starts too, and does what the graph does.
  have hrefines := hc.refines_flow henough simplify id (args.map .int)
  rw [hs₀] at hrefines
  obtain ⟨s, hs⟩ : ∃ s, (c.flow simplify).start? id (args.map .int) = some s := by
    cases hs : (c.flow simplify).start? id (args.map .int) with
    | none => rw [hs] at hrefines; exact hrefines.elim
    | some s => exact ⟨s, rfl⟩
  rw [hs] at hrefines
  obtain ⟨hthere, hback⟩ := hrefines
  have hlowers := hp.lowers (hc.functions_le henough)
  obtain ⟨f', b, t, hf', hb, hactivate, -, -⟩ := hlowers.start hi (hflow simplify) hargs hs
  cases hf.symm.trans hf'
  refine ⟨g, _, hgraph? false, hactivate, ⟨?_, ?_⟩, ?_⟩
  · rintro k out hends
    have hvoid := (hc.evaluation_of_ends henough hdecl hlen hends).1
    obtain ⟨s', hs', hk⟩ := hends
    cases hs₀.symm.trans hs'
    obtain ⟨j, hj, hends⟩ := hthere k out hk
    obtain ⟨f'', b', ending, hf'', hb', -, hends', hsame⟩ :=
      hlowers.ends hi (hflow simplify) hargs hs hends hvoid
    cases hf.symm.trans hf''
    cases hb.symm.trans hb'
    exact ⟨_, ending, by rw [hslots]; omega, hends', hsame⟩
  · intro j ending hj
    obtain ⟨k, out, hk, hout⟩ := hlowers.ends_back hi (hflow simplify) hargs hs hf hb hj
    obtain ⟨k', hk'⟩ := hback k out hk
    have hends : c.Ends id args k' out := ⟨_, hs₀, hk'⟩
    rcases hout with hvoid | ⟨-, hsame⟩
    · exact ((hc.evaluation_of_ends henough hdecl hlen hends).1 hvoid).elim
    · exact ⟨k', out, hends, hsame⟩
  · rintro rfl j ending hj
    obtain ⟨k, out, hk, hout⟩ := hlowers.ends_back hi (hflow false) hargs hs hf hb hj
    have hends : c.Ends id args k out := ⟨_, hs, hk⟩
    rcases hout with hvoid | ⟨hj, hsame⟩
    · exact ((hc.evaluation_of_ends henough hdecl hlen hends).1 hvoid).elim
    · exact ⟨k, out, hj, hends, hsame⟩

end

/-! ## Labels -/

/-- The function that a label selects: the first listed one that has it. -/
def selected? (c : Checked) (label : String) : Option StmtId :=
  c.resolutions.functions.find? fun id =>
    (c.resolutions.function? id).any fun decl => Linear.symbolOf c.module id decl = label

section

variable {c : Checked} {simplify : Bool} {p : Linear.Program} {label : String} {id : StmtId}
  {decl : FnDecl}

theorem LowersTo.function?_cases (hp : c.LowersTo simplify p) (label : String) :
    (c.selected? label = none ∧ p.function? label = none) ∨
      ∃ (i : Nat) (id : StmtId) (f : Linear.Function), c.selected? label = some id ∧
        p.function? label = some f ∧ c.resolutions.functions[i]? = some id ∧
        p.functions[i]? = some f ∧ ∃ decl linkage, c.Lowered simplify id decl linkage f := by
  refine find?_of_forall₂ hp ?_
  rintro id f ⟨decl, linkage, hlowered⟩
  rw [hlowered.declared, hlowered.label]
  rfl

theorem LowersTo.function?_of_selected? (hp : c.LowersTo simplify p)
    (h : c.selected? label = some id) (hdecl : c.resolutions.function? id = some decl) :
    ∃ (i : Nat) (f : Linear.Function), p.function? label = some f ∧
      c.resolutions.functions[i]? = some id ∧ p.functions[i]? = some f ∧
      ∃ linkage, c.Lowered simplify id decl linkage f := by
  rcases hp.function?_cases label with ⟨hnone, -⟩ | ⟨i, id', f, hid', hf, hi, hi', decl', linkage, hl⟩
  · cases hnone.symm.trans h
  · cases hid'.symm.trans h
    cases hl.declared.symm.trans hdecl
    exact ⟨i, f, hf, hi, hi', linkage, hl⟩

end

namespace Valid

variable {c : Checked} (hc : c.Valid) {tag : Tag} {decl : FnDecl}
include hc

theorem selected?_of_item (hitem : .function tag decl ∈ c.module.items) :
    c.selected? ("sbc__" ++ decl.ident.name) = some tag.id := by
  have hmem : (tag.id, decl) ∈ Stmt.declared c.module.items :=
    List.mem_filterMap.2 ⟨_, hitem, rfl⟩
  obtain ⟨before, after, hsplit⟩ := List.append_of_mem hmem
  obtain ⟨others, hfunctions⟩ := hc.resolved.outside
  have hnames := hc.resolved.names
  rw [hsplit] at hfunctions hnames
  simp only [List.map_append, List.map_cons, List.append_assoc, List.cons_append] at hfunctions hnames
  refine List.find?_eq_some_iff_append.2 ⟨?_, _, _, hfunctions.symm, ?_⟩
  · rw [hc.function?_of_item hitem, Option.any_some, Linear.symbolOf_item hitem]
    exact decide_eq_true rfl
  · -- The functions before it are outside blocks too, and have other names.
    intro id hid
    obtain ⟨⟨id, decl'⟩, hbefore, rfl⟩ := List.mem_map.1 hid
    have hmem' : (id, decl') ∈ Stmt.declared c.module.items := by
      rw [hsplit]
      exact List.mem_append_left _ hbefore
    obtain ⟨s, hs, hs'⟩ := List.mem_filterMap.1 hmem'
    obtain ⟨tag', hs''⟩ : ∃ tag', s = .function tag' decl' ∧ tag'.id = id := by
      obtain ⟨d, hd, heq⟩ := Option.map_eq_some_iff.1 hs'
      cases s with
      | function tag' decl'' =>
        cases hd
        cases heq
        exact ⟨tag', rfl, rfl⟩
      | _ => cases hd
    obtain ⟨rfl, rfl⟩ := hs''
    rw [hc.function?_of_item hs, Option.any_some, Linear.symbolOf_item hs]
    have hne : decl'.ident.name ≠ decl.ident.name := by
      intro heq
      refine (List.nodup_append.1 hnames).2.2 _ (List.mem_map_of_mem hbefore) _ ?_ heq
      exact List.mem_cons_self
    simpa using hne

end Valid

/-! ## Calls -/

theorem answer_of_sameResult {functions : List StmtId} {result : Except Fault Int64}
    {ending : Linear.Ending} (h : Linear.SameResult functions (Evaluation.ofWords result) ending) :
    ending.answer = result.mapError Fault.runError := by
  match result, ending, h with
  | .ok w, .ok (w', stack), h =>
    obtain ⟨rfl, rfl⟩ : w' = w ∧ stack = [] := h
    rfl
  | .error e, .error e', h =>
    obtain rfl : e' = e.runError := h
    rfl

theorem Valid.ofWords_of_ends {c : Checked} (hc : c.Valid) (henough : c.EnoughIds) {id : StmtId}
    {decl : FnDecl} (hdecl : c.resolutions.function? id = some decl)
    (hint : decl.result.meaning? = some .int) (hlen : args.length = decl.params.length) {k : Nat}
    (h : c.Ends id args k out) : ∃ result, out = Evaluation.ofWords result ∧
      Evaluation.Settles c.resolutions id args result := by
  obtain ⟨hvoid, hall⟩ := hc.evaluation_of_ends henough hdecl hlen h
  have hsafe := hc.safe hdecl hlen hint (k + 2)
  rw [hall (k + 2) (by omega)] at hsafe
  have hsettles : ∀ result, out = Evaluation.ofWords result →
      Evaluation.Settles c.resolutions id args result := by
    rintro result rfl
    exact ⟨k + 2, fun m hm => hall m (by omega)⟩
  match out, hvoid, hsafe, hsettles with
  | .ok v, _, hv, hsettles =>
    obtain ⟨w, rfl⟩ := hv
    exact ⟨.ok w, rfl, hsettles _ rfl⟩
  | .error (.fault e), _, _, hsettles => exact ⟨.error e, rfl, hsettles _ rfl⟩
  | .error .bound, hvoid, _, _ => exact (hvoid trivial).elim
  | .error .stuck, hvoid, _, _ => exact (hvoid trivial).elim

section

variable {c : Checked} {simplify : Bool} {id : StmtId} {decl : FnDecl} {linkage : Linkage}
  {f : Linear.Function}

theorem Lowered.activate_foreign (h : c.Lowered simplify id decl linkage f) (hc : c.Valid)
    (hbody : decl.body = none) : ∃ symbol exported, decl.linkage = .ok ⟨some symbol, exported⟩ ∧
      ∀ arguments stack, Linear.activate f arguments stack = .error (.foreign symbol) := by
  obtain ⟨symbol, exported, hlinkage, -, hflow⟩ := hc.flow_of_no_body h.declared hbody simplify
  obtain ⟨d, hd, hfrom⟩ := h.definition
  cases hflow.symm.trans hd
  have hforeign : f.definition = .foreign symbol := hfrom
  exact ⟨symbol, exported, hlinkage, fun _ _ => by simp only [Linear.activate, hforeign]⟩

theorem Lowered.activate_mismatch (h : c.Lowered simplify id decl linkage f) (hc : c.Valid)
    (henough : c.EnoughIds) {body : Block} (hbody : decl.body = some body) {arguments : Nat}
    (hne : arguments ≠ decl.params.length) (stack : List Int64) :
    Linear.activate f arguments stack = .error (.argumentCount (Linear.symbolOf c.module id decl)
      decl.params.length arguments) := by
  obtain ⟨g, -, hgraph, -⟩ := hc.graph?_of_body henough h.declared hbody
  obtain ⟨d, hd, hfrom⟩ := h.definition
  simp only [flow, hgraph, Option.some.injEq] at hd
  subst hd
  obtain ⟨-, -, b, hb, -⟩ := hfrom
  simp only [Linear.activate, hb, h.arity, h.label, if_pos hne]

end

/-! ## A sample program -/

/-- A function with a loop and a quotient that may be undefined. -/
def sample : List Char := "fn f(n: int) -> int { while n > 9 { n = n / 2; } return 100 / n; }".toList

/-- What is to be known about the sample, as a test. -/
def sampleTest (c : Checked) : Bool :=
  c.EnoughIds &&
    ((Stmt.declared c.module.items).any fun f => f.2.ident.name = "f" && f.2.params.length = 1 &&
      f.2.result.meaning? matches some .int) &&
    ((c.linear false false).toOption.any fun p =>
      (Session.call p {} "sbc__f" [100]).1 = .ok 16 &&
        (Session.call p {} "sbc__f" [0]).1 = .error (.undefinedQuotient 100 0)) &&
    (c.linear true true).toOption.any fun q => (q.function? "sbc__f").isSome

theorem sample_passes : ((ofSource? sample).toOption.any sampleTest) = true := by
  decide +kernel

/-- The sample passes the check; its function divides by six for one argument and by zero for
another. -/
theorem sample_runs : ∃ c tag decl p q, ofSource? sample = .ok c ∧ c.EnoughIds ∧
    .function tag decl ∈ c.module.items ∧
    decl.ident.name = "f" ∧ decl.params.length = 1 ∧ decl.result.meaning? = some .int ∧
    c.linear false false = .ok p ∧ c.linear true true = .ok q ∧
    (q.function? "sbc__f").isSome = true ∧
    (Session.call p {} "sbc__f" [100]).1 = .ok 16 ∧
    (Session.call p {} "sbc__f" [0]).1 = .error (.undefinedQuotient 100 0) := by
  obtain ⟨c, hc, htest⟩ := exists_ok_of_any sample_passes
  simp only [sampleTest, Bool.and_eq_true, decide_eq_true_eq, Option.any_eq_true,
    List.any_eq_true] at htest
  obtain ⟨⟨⟨henough, ⟨id, decl⟩, hmem, ⟨hname, hparams⟩, hresult⟩, p, hp, hfirst, hsecond⟩, q, hq, hq'⟩ :=
    htest
  obtain ⟨s, hs, hs'⟩ := List.mem_filterMap.1 hmem
  obtain ⟨decl', hdecl', heq⟩ := Option.map_eq_some_iff.1 hs'
  cases heq
  cases s with
  | function tag decl' =>
    cases hdecl'
    refine ⟨c, tag, decl, p, q, hc, henough, hs, hname, hparams, ?_,
      eq_ok_of_toOption hp, eq_ok_of_toOption hq, hq', hfirst, hsecond⟩
    split at hresult
    · assumption
    · cases hresult
  | _ => cases hdecl'

/-! ## Optimisation -/

/-- Simplified graphs give code with the same answers. -/
theorem LowersTo.call_eq {c : Checked} (hc : c.Valid)
    (henough : c.EnoughIds) {simplify : Bool} {p p' : Linear.Program}
    (hp : c.LowersTo false p) (hp' : c.LowersTo simplify p') {label : String} {id : StmtId}
    {decl : FnDecl} (hsel : c.selected? label = some id)
    (hdecl : c.resolutions.function? id = some decl) (hint : decl.result.meaning? = some .int)
    {fuel : Nat} (hcall : (Session.call p { fuel } label args).1 ≠ .error .outOfFuel) :
    (Session.call p' { fuel } label args).1 = (Session.call p { fuel } label args).1 := by
  have hstack : ({ fuel } : Session).stack = [] := rfl
  obtain ⟨i, f, hfind, hid, hf, linkage, hlowered⟩ := hp.function?_of_selected? hsel hdecl
  obtain ⟨i', f', hfind', hid', hf', linkage', hlowered'⟩ := hp'.function?_of_selected? hsel hdecl
  cases hbody : decl.body with
  | none =>
    obtain ⟨symbol, exported, hlinkage, ha⟩ := hlowered.activate_foreign hc hbody
    obtain ⟨symbol', exported', hlinkage', ha'⟩ := hlowered'.activate_foreign hc hbody
    cases hlinkage.symm.trans hlinkage'
    rw [Linear.call_of_activate_error hfind hstack (ha _ _),
      Linear.call_of_activate_error hfind' hstack (ha' _ _)]
  | some body =>
    by_cases hlen : args.length = decl.params.length
    · obtain ⟨g, frame, hg, hactivate, -, hcost⟩ :=
        hp.runs hc henough hid hdecl hbody hlen hf
      obtain ⟨g', frame', hg', hactivate', hruns', -⟩ :=
        hp'.runs hc henough hid' hdecl hbody hlen hf'
      cases hg.symm.trans hg'
      rcases Linear.call_outOfFuel_or_ends hfind hstack hactivate with hout | ⟨j, ending, hj, hends⟩
      · exact (hcall hout).elim
      obtain ⟨k, out, rfl, hk, hsame⟩ := hcost rfl hends
      obtain ⟨result, rfl, -⟩ := hc.ofWords_of_ends henough hdecl hint hlen hk
      obtain ⟨j', ending', hj', hends', hsame'⟩ := hruns'.ends hk
      rw [Linear.call_of_ends hfind hstack hactivate hends hj,
        Linear.call_of_ends hfind' hstack hactivate' hends' (hj'.trans hj),
        answer_of_sameResult hsame, answer_of_sameResult hsame']
    · rw [Linear.call_of_activate_error hfind hstack (hlowered.activate_mismatch hc henough hbody hlen _),
        Linear.call_of_activate_error hfind' hstack (hlowered'.activate_mismatch hc henough hbody hlen _)]

/-- Optimisation keeps answers: for every label that selects a function which returns a word, calls of
code with simplified graphs or shortened lines have the answer of the code without either, unless
that runs out of fuel. -/
theorem call_optimized {source : List Char} {c : Checked} (h : ofSource? source = .ok c)
    (henough : c.EnoughIds) (simplify optimize : Bool) :
    ∃ p q, c.linear false false = .ok p ∧ c.linear simplify optimize = .ok q ∧
      ∀ label id decl, c.selected? label = some id → c.resolutions.function? id = some decl →
        decl.result.meaning? = some .int → ∀ (args : List Int64) (fuel : Nat),
          (Session.call p { fuel } label args).1 ≠ .error .outOfFuel →
          (Session.call q { fuel } label args).1 = (Session.call p { fuel } label args).1 := by
  have hc := valid_of_ofSource? h
  obtain ⟨p, -, hlinear, -, hp⟩ := hc.exists_program henough false
  obtain ⟨p', -, hlinear', -, hp'⟩ := hc.exists_program henough simplify
  refine ⟨p, _, hlinear false, hlinear' optimize, ?_⟩
  intro label id decl hsel hdecl hint args fuel hcall
  have hsimplified := hp.call_eq hc henough hp' hsel hdecl hint hcall
  cases optimize with
  | false => exact hsimplified
  | true =>
    have hrefines := hp'.regular.refines_optimize (hp'.length_eq.trans_le (hc.functions_le henough))
    rw [← hsimplified] at hcall ⊢
    exact hrefines.call_eq hcall

/-- The optimised code of the sample has the answers of its code, a quotient and a fault. -/
theorem call_optimized_sample : ∃ c q, ofSource? sample = .ok c ∧ c.linear true true = .ok q ∧
    (Session.call q {} "sbc__f" [100]).1 = .ok 16 ∧
    (Session.call q {} "sbc__f" [0]).1 = .error (.undefinedQuotient 100 0) := by
  obtain ⟨c, tag, decl, p, -, hc, henough, hitem, hname, -, hint, hp, -, -, hfirst, hsecond⟩ := sample_runs
  have hvalid := valid_of_ofSource? hc
  obtain ⟨p', q, hp', hq, hcall⟩ := call_optimized hc henough true true
  cases hp.symm.trans hp'
  have hlabel : "sbc__" ++ decl.ident.name = "sbc__f" := by rw [hname]; rfl
  have hsel := hlabel ▸ hvalid.selected?_of_item hitem
  have hdecl := hvalid.function?_of_item hitem
  refine ⟨c, q, hc, hq, ?_, ?_⟩
  · rw [← hfirst]
    exact hcall _ _ _ hsel hdecl hint [100] _ (by rw [hfirst]; simp)
  · rw [← hsecond]
    exact hcall _ _ _ hsel hdecl hint [0] _ (by rw [hsecond]; simp)

/-! ## Evaluation -/

/-- Calls of the code of a function outside blocks that returns a word answer with the result of its
evaluation, or run out of fuel; and they do not run out of fuel if evaluation has a result and there
is enough. -/
theorem call_evaluates {source : List Char} {c : Checked} (h : ofSource? source = .ok c)
    (henough : c.EnoughIds) {tag : Tag} {decl : FnDecl}
    (hitem : .function tag decl ∈ c.module.items) (hint : decl.result.meaning? = some .int)
    {args : List Int64} (hlen : args.length = decl.params.length) :
    ∃ p, c.linear false false = .ok p ∧
      (∀ fuel, (Session.call p { fuel } ("sbc__" ++ decl.ident.name) args).1 = .error .outOfFuel ∨
        ∃ result, Evaluation.Settles c.resolutions tag.id args result ∧
          (Session.call p { fuel } ("sbc__" ++ decl.ident.name) args).1 =
            result.mapError Fault.runError) ∧
      ∀ result, Evaluation.Settles c.resolutions tag.id args result →
        ∃ enough, ∀ fuel ≥ enough,
          (Session.call p { fuel } ("sbc__" ++ decl.ident.name) args).1 =
            result.mapError Fault.runError := by
  have hc := valid_of_ofSource? h
  have hdecl := hc.function?_of_item hitem
  obtain ⟨p, -, hlinear, -, hp⟩ := hc.exists_program henough false
  obtain ⟨i, f, hfind, hid, hf, linkage, hlowered⟩ :=
    hp.function?_of_selected? (hc.selected?_of_item hitem) hdecl
  have hstack : ∀ fuel, ({ fuel } : Session).stack = [] := fun _ => rfl
  refine ⟨p, hlinear false, ?_⟩
  cases hbody : decl.body with
  | none =>
    obtain ⟨symbol, exported, hlinkage, ha⟩ := hlowered.activate_foreign hc hbody
    have hcall : ∀ fuel, (Session.call p { fuel } ("sbc__" ++ decl.ident.name) args).1 =
        .error (.foreign symbol) := fun fuel =>
      Linear.call_of_activate_error hfind (hstack fuel) (ha _ _)
    have hsettles : Evaluation.Settles c.resolutions tag.id args (.error (.foreign symbol)) := by
      refine ⟨1, fun m hm => ?_⟩
      obtain ⟨m, rfl⟩ : ∃ i, m = i + 1 := ⟨m - 1, by omega⟩
      simp only [Evaluation.function, hdecl, hbody, hlinkage]
      rfl
    refine ⟨fun fuel => .inr ⟨_, hsettles, hcall fuel⟩, fun result hresult => ⟨0, fun fuel _ => ?_⟩⟩
    rw [hresult.unique hsettles, hcall]
    rfl
  | some body =>
    obtain ⟨g, frame, -, hactivate, hruns, -⟩ := hp.runs hc henough hid hdecl hbody hlen hf
    constructor
    · intro fuel
      rcases Linear.call_outOfFuel_or_ends hfind (hstack fuel) hactivate with
        hout | ⟨j, ending, hj, hends⟩
      · exact .inl hout
      · obtain ⟨k, out, hk, hsame⟩ := hruns.ends_back hends
        obtain ⟨result, rfl, hsettles⟩ := hc.ofWords_of_ends henough hdecl hint hlen hk
        refine .inr ⟨result, hsettles, ?_⟩
        rw [Linear.call_of_ends hfind (hstack fuel) hactivate hends hj, answer_of_sameResult hsame]
    · intro result hresult
      obtain ⟨k, hk⟩ := hc.ends_of_settles henough hdecl hbody hlen hresult
      obtain ⟨j, ending, hj, hends, hsame⟩ := hruns.ends hk
      refine ⟨g.slotCount + k, fun fuel hfuel => ?_⟩
      rw [Linear.call_of_ends hfind (hstack fuel) hactivate hends (hj.trans hfuel),
        answer_of_sameResult hsame]

/-- The evaluation of the sample fails at the quotient at which its code fails. -/
theorem call_evaluates_sample : ∃ c tag decl, ofSource? sample = .ok c ∧
    .function tag decl ∈ c.module.items ∧
    Evaluation.Settles c.resolutions tag.id [0] (.error (.quotient 100 0)) := by
  obtain ⟨c, tag, decl, p, -, hc, henough, hitem, hname, hparams, hint, hp, -, -, -, hsecond⟩ :=
    sample_runs
  have hlen : ([0] : List Int64).length = decl.params.length := hparams.symm
  obtain ⟨p', hp', hcall, -⟩ := call_evaluates hc henough hitem hint hlen
  cases hp.symm.trans hp'
  refine ⟨c, tag, decl, hc, hitem, ?_⟩
  rw [hname] at hcall
  rcases hcall 1000000 with hout | ⟨result, hsettles, hresult⟩
  · cases hout.symm.trans hsecond
  · have heq := hresult.symm.trans hsecond
    cases result with
    | ok w => cases heq
    | error e =>
      cases e <;> cases heq
      exact hsettles

/-! ## Failures -/

theorem ordinary_of_sameResult {functions : List StmtId}
    {ending : Linear.Ending} (h : Linear.SameResult functions out ending) {e : Linear.RunError}
    (he : ending.answer = .error e) : e.Ordinary := by
  match out, ending, h with
  | .ok v, .ok (w, stack), h =>
    obtain rfl : stack = [] := h.2
    cases he
  | .error (.fault fault), .error e', h =>
    obtain rfl : e' = fault.runError := h
    cases he
    cases fault <;> trivial

/-- Calls of the code of a checked program never get stuck: called with as many arguments as the
selected function has parameters, the code answers with a word, runs out of fuel, or fails at an
undefined quotient or remainder or at a foreign function. -/
theorem call_never_stuck {source : List Char} {c : Checked} (h : ofSource? source = .ok c)
    (henough : c.EnoughIds) (optimize : Bool) :
    ∃ p, c.linear optimize optimize = .ok p ∧ ∀ label, (p.function? label).isSome = true →
      ∃ id decl, c.selected? label = some id ∧ c.resolutions.function? id = some decl ∧
        ∀ args : List Int64, args.length = decl.params.length → ∀ fuel e,
          (Session.call p { fuel } label args).1 = .error e → e.Ordinary := by
  have hc := valid_of_ofSource? h
  obtain ⟨p, -, hlinear, -, hp⟩ := hc.exists_program henough optimize
  refine ⟨_, hlinear optimize, fun label hsome => ?_⟩
  have hrefines : Linear.Refines p (if optimize then p.optimize else p) := by
    split
    · exact hp.regular.refines_optimize (hp.length_eq.trans_le (hc.functions_le henough))
    · exact .refl p
  rcases hrefines.function?_cases label with ⟨-, hnone⟩ | ⟨f, f', hf, hf', halike⟩
  · rw [hnone] at hsome
    cases hsome
  rcases hp.function?_cases label with
    ⟨-, hnone⟩ | ⟨i, id, f₁, hsel, hfind, hid, hi, decl, linkage, hlowered⟩
  · cases hnone.symm.trans hf
  cases hfind.symm.trans hf
  refine ⟨id, decl, hsel, hlowered.declared, fun args hlen fuel e he => ?_⟩
  have hstack : ({ fuel } : Session).stack = [] := rfl
  cases hbody : decl.body with
  | none =>
    obtain ⟨symbol, -, -, ha⟩ := hlowered.activate_foreign hc hbody
    rcases halike args.length args.reverse with ⟨e', hfail, hfail'⟩ | ⟨_, _, _, hok, -⟩
    · cases (ha _ _).symm.trans hfail
      cases he.symm.trans (Linear.call_of_activate_error hf' hstack hfail')
      trivial
    · cases (ha _ _).symm.trans hok
  | some body =>
    obtain ⟨g, frame, -, hactivate, hruns, -⟩ :=
      hp.runs hc henough hid hlowered.declared hbody hlen hi
    rcases halike args.length args.reverse with
      ⟨e', hfail, -⟩ | ⟨frame₁, frame', below, hok, hok', -, hback⟩
    · cases hactivate.symm.trans hfail
    cases hactivate.symm.trans hok
    rcases Linear.call_outOfFuel_or_ends hf' hstack hok' with hout | ⟨j, ending, hj, hends⟩
    · cases he.symm.trans hout
      trivial
    · obtain ⟨k, hk⟩ := hback j ending hends
      obtain ⟨_, out, -, hsame⟩ := hruns.ends_back hk
      rw [Linear.call_of_ends hf' hstack hok' hends hj] at he
      exact ordinary_of_sameResult hsame he

/-- The optimised code of the sample fails in an ordinary way if it fails. -/
theorem call_never_stuck_sample : ∃ c p, ofSource? sample = .ok c ∧ c.linear true true = .ok p ∧
    ∀ fuel e, (Session.call p { fuel } "sbc__f" [0]).1 = .error e → e.Ordinary := by
  obtain ⟨c, tag, decl, -, q, hc, henough, hitem, hname, hparams, -, -, hq, hlabel, -, -⟩ := sample_runs
  have hvalid := valid_of_ofSource? hc
  obtain ⟨q', hq', hcall⟩ := call_never_stuck hc henough true
  cases hq.symm.trans hq'
  obtain ⟨id, decl', hsel, hdecl, hordinary⟩ := hcall "sbc__f" hlabel
  have hname' : "sbc__" ++ decl.ident.name = "sbc__f" := by rw [hname]; rfl
  have hsel' := hname' ▸ hvalid.selected?_of_item hitem
  cases hsel.symm.trans hsel'
  cases hdecl.symm.trans (hvalid.function?_of_item hitem)
  exact ⟨c, q, hc, hq, hordinary [0] hparams.symm⟩

end Checked

end WordLang
