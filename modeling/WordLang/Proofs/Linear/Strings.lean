import WordLang.Proofs.Linear.Peephole
import WordLang.Proofs.Linear.Shape

/-!
# String constants of linear code

Lowering keeps one list of string constants for the whole program and names a constant by its place
in it. A text that is pushed for the first time is put at the end of the list, so the constants are
the pushed texts in the order in which they first come. Shortening moves no constant and drops none.

## Main definitions

* `Flow.Function.texts`, `Linear.Body.strings`: the texts that a graph pushes, and the constants that
  a body refers to
* `FirstUses`: the members of a list, each once, in the order in which they first come

## Main results

* `Linear.lowerFunctions_interns`: the bodies of lowered functions refer to the texts of their graphs
* `Linear.Body.strings_optimize`: shortened bodies refer to the same constants in the same order
* `firstUses_internAll`: the constants are the pushed texts in the order of their first use
-/

namespace WordLang

def Flow.Statement.text? : Flow.Statement → Option String
  | .push (.string text) => some text
  | _ => none

/-- The texts that the statements of blocks push, in order. -/
def Flow.textsOf (blocks : List Flow.Block) : List String :=
  blocks.flatMap fun b => b.statements.filterMap Flow.Statement.text?

/-- The texts that a graph pushes, block by block. -/
def Flow.Function.texts (f : Flow.Function) : List String := Flow.textsOf f.blocks

/-! ## First uses -/

/-- The members of the list `texts`, each once, in the order in which they first come in it. -/
structure FirstUses (texts constants : List String) : Prop where
  mem : ∀ text, text ∈ constants ↔ text ∈ texts
  /-- A constant that comes before another one comes first among the texts. -/
  order : constants.Pairwise fun s t => texts.idxOf s < texts.idxOf t

/-- The known texts with one more, which goes to the end unless it is known. -/
def internOne (known : List String) (text : String) : List String :=
  if text ∈ known then known else known ++ [text]

/-- The known texts with further ones. -/
def internAll (known texts : List String) : List String := texts.foldl internOne known

theorem internAll_append (known texts texts' : List String) :
    internAll known (texts ++ texts') = internAll (internAll known texts) texts' :=
  List.foldl_append

theorem subset_internAll (known texts : List String) : known ⊆ internAll known texts := by
  induction texts generalizing known with
  | nil => exact List.Subset.refl _
  | cons text texts ih =>
    refine List.Subset.trans ?_ (ih (internOne known text))
    unfold internOne
    split
    · exact List.Subset.refl _
    · exact List.subset_append_left _ _

theorem mem_internAll (known : List String) {texts : List String} {text : String}
    (h : text ∈ texts) : text ∈ internAll known texts := by
  obtain ⟨before, after, rfl⟩ := List.append_of_mem h
  rw [internAll_append]
  refine subset_internAll _ after ?_
  unfold internOne
  split
  · assumption
  · simp

theorem idxOf_internAll {known : List String} (texts : List String) {text : String}
    (h : text ∈ known) : (internAll known texts).idxOf text = known.idxOf text := by
  induction texts generalizing known with
  | nil => rfl
  | cons t texts ih =>
    show (internAll (internOne known t) texts).idxOf text = _
    unfold internOne
    split
    · exact ih h
    · rw [ih (List.mem_append_left _ h), List.idxOf_append_of_mem h]

theorem FirstUses.internOne {texts constants : List String} (h : FirstUses texts constants)
    (text : String) : FirstUses (texts ++ [text]) (internOne constants text) := by
  have hstay : ∀ s ∈ constants, (texts ++ [text]).idxOf s = texts.idxOf s := fun s hs =>
    List.idxOf_append_of_mem ((h.mem s).1 hs)
  have horder : constants.Pairwise fun s t =>
      (texts ++ [text]).idxOf s < (texts ++ [text]).idxOf t := by
    refine h.order.imp_of_mem fun hs ht hlt => ?_
    rwa [hstay _ hs, hstay _ ht]
  unfold WordLang.internOne
  split
  · next hmem =>
    refine ⟨fun t => ?_, horder⟩
    rw [h.mem, List.mem_append, List.mem_singleton]
    refine ⟨.inl, fun ht => ht.elim id ?_⟩
    rintro rfl
    exact (h.mem t).1 hmem
  · next hnew =>
    refine ⟨fun t => ?_, List.pairwise_append.2 ⟨horder, List.pairwise_singleton _ _, ?_⟩⟩
    · rw [List.mem_append, List.mem_append, h.mem]
    · -- The new text comes after all texts before it.
      intro s hs t ht
      obtain rfl := List.mem_singleton.1 ht
      have hs' := (h.mem s).1 hs
      have hnot : t ∉ texts := fun hmem => hnew ((h.mem t).2 hmem)
      rw [hstay s hs, List.idxOf_append_of_notMem hnot]
      have hlt := List.idxOf_lt_length_iff.2 hs'
      omega

theorem firstUses_internAll (texts : List String) : FirstUses texts (internAll [] texts) := by
  induction texts using List.reverseRecOn with
  | nil => exact ⟨fun _ => Iff.rfl, .nil⟩
  | append_singleton texts text ih =>
    rw [internAll_append]
    exact ih.internOne text

namespace Linear

/-! ## Lowering -/

/-- The string constant that an instruction refers to. -/
def Instruction.string? : Instruction → Option StringId
  | .moveString _ string => some string
  | _ => none

/-- The string constants that instructions refer to, in order. -/
def stringsOf (code : List Instruction) : List StringId := code.filterMap Instruction.string?

/-- The string constants that lines refer to, in order. -/
def lineStrings (lines : List Line) : List StringId :=
  lines.filterMap fun line => line.instruction.string?

/-- The string constants that a body refers to, in order. -/
def Body.strings (b : Body) : List StringId := lineStrings b.lines

@[simp] theorem stringsOf_append (code rest : List Instruction) :
    stringsOf (code ++ rest) = stringsOf code ++ stringsOf rest := List.filterMap_append

@[simp] theorem lineStrings_append (lines rest : List Line) :
    lineStrings (lines ++ rest) = lineStrings lines ++ lineStrings rest := List.filterMap_append

theorem lineStrings_labelled (labels : List LabelId) (code : List Instruction) :
    lineStrings (Lower.labelled labels code) = stringsOf code := by
  cases code with
  | nil => rfl
  | cons i code =>
    simp only [Lower.labelled, lineStrings, stringsOf, List.filterMap_cons, List.filterMap_map,
      Function.comp_def]

theorem lineStrings_slotLines (f : Flow.Function) : lineStrings (slotLines f) = [] := by
  refine List.filterMap_eq_nil_iff.2 fun line hl => ?_
  obtain ⟨r, -, rfl⟩ := List.mem_map.1 hl
  show (if _ then _ else _ : Instruction).string? = none
  split <;> rfl

/-- Texts are pushed when the texts `known` are constants. They become constants as well, and `ids`
are their places. -/
structure Interned (known texts : List String) (ids : List StringId) (known' : List String) :
    Prop where
  known_eq : known' = internAll known texts
  ids_eq : ids = texts.map known'.idxOf

theorem Interned.nil (known : List String) : Interned known [] [] known := ⟨rfl, rfl⟩

theorem Interned.append {known texts texts' known₁ known₂ : List String} {ids ids' : List StringId}
    (h : Interned known texts ids known₁) (h' : Interned known₁ texts' ids' known₂) :
    Interned known (texts ++ texts') (ids ++ ids') known₂ := by
  refine ⟨by rw [h'.known_eq, h.known_eq, internAll_append], ?_⟩
  rw [List.map_append, ← h'.ids_eq, h.ids_eq]
  refine congrArg (· ++ ids') (List.map_congr_left fun text htext => ?_)
  -- The texts that were pushed first are known by then.
  rw [h'.known_eq, idxOf_internAll _ (h.known_eq ▸ mem_internAll known htext)]

/-- A step of lowering that pushes the texts `texts`; `view` are the constants in what it gives. -/
def Lower.Interns {α : Type} (x : Lower α) (view : α → List StringId) (texts : List String) : Prop :=
  ∀ σ, Ensures x σ (fun a σ' => Interned σ.strings texts (view a) σ'.strings) fun _ => True

/-- A step of lowering after which the constants are the same. -/
def Lower.KeepsStrings {α : Type} (x : Lower α) : Prop :=
  ∀ σ, Ensures x σ (fun _ σ' => σ'.strings = σ.strings) fun _ => True

section

variable {α β : Type} {x : Lower α} {view : α → List StringId} {texts : List String}

theorem Lower.Interns.pure {a : α} (h : view a = []) : Interns (Pure.pure a) view [] := fun σ =>
  .pure (h ▸ .nil σ.strings)

theorem Lower.Interns.violated (defect : Defect) : Interns (violated defect) view texts := fun _ =>
  Ensures.throw True.intro

theorem Lower.Interns.after {y : Lower β} {k : β → Lower α} (hy : KeepsStrings y)
    (hk : ∀ b, Interns (k b) view texts) : Interns (y >>= k) view texts := fun σ =>
  (hy σ).bind_of fun b σ' hσ' => hσ' ▸ hk b σ'

theorem Lower.fresh_keeps : KeepsStrings fresh := fun _ => .modifyGet rfl

theorem Lower.labelOf_keeps (c : LowerContext) (block : BlockId) : KeepsStrings (labelOf c block) := by
  intro σ
  unfold labelOf
  split
  · exact .pure rfl
  · exact .throw True.intro

theorem Lower.slotOf_keeps (c : LowerContext) (cell : LocalId) : KeepsStrings (slotOf c cell) := by
  intro σ
  unfold slotOf
  split
  · exact .pure rfl
  · exact .throw True.intro

theorem Lower.functionOf_keeps (c : LowerContext) (decl : StmtId) :
    KeepsStrings (functionOf c decl) := by
  intro σ
  unfold functionOf
  split
  · exact .pure rfl
  · exact .throw True.intro

end

theorem Lower.intern_interns (text : String) : Interns (intern text) (fun id => [id]) [text] := by
  intro σ
  refine .modifyGet ?_
  cases hid : σ.strings.idxOf? text with
  | some id =>
    obtain ⟨hlt, hget, hbefore⟩ := List.idxOf?_eq_some_iff.1 hid
    have hmem : text ∈ σ.strings := hget ▸ List.getElem_mem hlt
    refine ⟨by simp [internAll, internOne, hmem], ?_⟩
    rw [List.map_singleton, List.idxOf_eq_getD_idxOf?, hid]
    rfl
  | none =>
    have hnot : text ∉ σ.strings := List.idxOf?_eq_none_iff.1 hid
    refine ⟨by simp [internAll, internOne, hnot], ?_⟩
    simp [List.idxOf_append_of_notMem hnot]

theorem Lower.statement_interns (c : LowerContext) (s : Flow.Statement) :
    Interns (statement c s) stringsOf s.text?.toList := by
  cases s with
  | push value =>
    cases value with
    | int value => exact .after fresh_keeps fun r => .pure rfl
    | string text =>
      intro σ
      refine (intern_interns text σ).bind_of fun id σ' hid => ?_
      exact Ensures.bind (.modifyGet (.pure hid))
    | function decl =>
      exact .after (functionOf_keeps c decl) fun id => .after fresh_keeps fun r => .pure rfl
  | pop => exact .after fresh_keeps fun r => .pure rfl
  | load cell => exact .after (slotOf_keeps c cell) fun slot => .after fresh_keeps fun r => .pure rfl
  | store cell => exact .after (slotOf_keeps c cell) fun slot => .after fresh_keeps fun r => .pure rfl
  | call arguments => exact .after fresh_keeps fun r => .pure rfl
  | binary op => exact .after fresh_keeps fun source => .after fresh_keeps fun r => .pure rfl

theorem Lower.terminator_interns (c : LowerContext) (t : Flow.Terminator) :
    Interns (terminator c t) stringsOf [] := by
  cases t with
  | error => exact .violated _
  | unset => exact .violated _
  | «return» => exact .pure rfl
  | goto target => exact .after (labelOf_keeps c target) fun label => .pure rfl
  | branch truthy falsy =>
    exact .after (labelOf_keeps c truthy) fun label => .after (labelOf_keeps c falsy) fun label' =>
      .after fresh_keeps fun r => .pure rfl

theorem Lower.statements_interns (c : LowerContext) (ss : List Flow.Statement) :
    Interns (statements c ss) stringsOf (ss.filterMap Flow.Statement.text?) := by
  induction ss with
  | nil => exact .pure rfl
  | cons s ss ih =>
    intro σ
    refine (statement_interns c s σ).bind_of fun first σ₁ hfirst => ?_
    refine (ih σ₁).bind_of fun rest σ₂ hrest => .pure ?_
    rw [stringsOf_append, ← List.singleton_append, List.filterMap_append]
    refine Interned.append ?_ hrest
    cases htext : s.text? <;> simpa [htext] using hfirst

theorem Lower.blocks_interns (c : LowerContext) (blocks : List Flow.Block) :
    Interns (Lower.blocks c blocks) lineStrings (Flow.textsOf blocks) := by
  induction blocks with
  | nil => exact .pure rfl
  | cons b rest ih =>
    intro σ
    have hblock : Interns (block c b) lineStrings (b.statements.filterMap Flow.Statement.text?) := by
      refine .after (labelOf_keeps c b.id) fun label σ => ?_
      refine (statements_interns c b.statements σ).bind_of fun code σ₁ hcode => ?_
      refine (terminator_interns c b.terminator σ₁).bind_of fun last σ₂ hlast => .pure ?_
      rw [lineStrings_labelled, stringsOf_append]
      simpa using hcode.append hlast
    refine (hblock σ).bind_of fun first σ₁ hfirst => ?_
    refine (ih σ₁).bind_of fun lines σ₂ hlines => .pure ?_
    rw [lineStrings_append]
    exact hfirst.append hlines

theorem lowerFunction_interns (functions : List StmtId) (f : Flow.Function) :
    Lower.Interns (lowerFunction functions f) Body.strings f.texts := by
  intro σ
  refine .bind (.modify ?_)
  refine (Lower.blocks_interns _ f.blocks _).bind_of fun lines σ₁ hlines => ?_
  refine (Lower.slotOf_keeps _ f.result σ₁).bind_of fun result σ₂ hσ₂ => ?_
  refine (Lower.labelOf_keeps _ f.entry σ₂).bind_of fun entry σ₃ hσ₃ => .pure ?_
  rw [hσ₃, hσ₂, Body.strings, lineStrings_append, lineStrings_slotLines]
  exact hlines

/-- The bodies of functions, in order. -/
def bodies (fs : List Function) : List Body := fs.filterMap Function.body?

/-- Functions are lowered from graphs when the texts `known` are constants: the texts that the graphs
push become constants as well, and each body refers to those of its graph. -/
structure BodiesInterned (known : List String) (graphs : List Flow.Function) (fs : List Function)
    (known' : List String) : Prop where
  known_eq : known' = internAll known (graphs.flatMap Flow.Function.texts)
  bodies_eq : (bodies fs).map Body.strings = graphs.map fun g => g.texts.map known'.idxOf

theorem lowerFunctions_interns (m : Module) (r : Resolutions) (graphs : List Flow.Function)
    (ids : List StmtId) (σ : LowerState) :
    Ensures (lowerFunctions m r graphs ids) σ
      (fun fs σ' => BodiesInterned σ.strings
        (ids.filterMap fun id => graphs.reverse.find? fun g => g.decl = id) fs σ'.strings)
      fun _ => True := by
  induction ids generalizing σ with
  | nil => exact .pure ⟨rfl, rfl⟩
  | cons id ids ih =>
    simp only [lowerFunctions]
    split
    · exact .throw True.intro
    next decl hdecl =>
    split
    · exact .throw True.intro
    next linkage hlinkage =>
    generalize hgraph : (graphs.reverse.find? fun g => g.decl = id) = graph
    -- A function has a graph or is foreign.
    have hdefinition : Ensures (lowerDefinition r.functions decl linkage graph) σ
        (fun definition σ' => ∀ f : Function, f.definition = definition →
          (graph = none ∧ f.body? = none ∧ σ'.strings = σ.strings) ∨
            ∃ g b, graph = some g ∧ f.body? = some b ∧
              Interned σ.strings g.texts b.strings σ'.strings) fun _ => True := by
      cases hforeign : linkage.foreign <;> cases graph <;> simp only [lowerDefinition, hforeign]
      case none.some g =>
        refine (lowerFunction_interns r.functions g σ).bind_of fun b σ' hb => ?_
        refine .pure fun f hf => .inr ⟨g, b, rfl, by simp [Function.body?, hf], hb⟩
      case some.none => exact .pure fun f hf => .inl ⟨True.intro, by simp [Function.body?, hf], rfl⟩
      all_goals exact .throw True.intro
    refine hdefinition.bind_of fun definition σ₁ hd => ?_
    refine (ih σ₁).bind_of fun fs σ₂ hfs => .pure ?_
    rcases hd ⟨symbolOf m id decl, decl.params.length, linkage.exported, definition⟩ rfl with
      ⟨rfl, hbody, hσ₁⟩ | ⟨g, b, rfl, hbody, hb⟩
    · simp only [List.filterMap_cons, hgraph]
      refine ⟨hσ₁ ▸ hfs.known_eq, ?_⟩
      rw [bodies, List.filterMap_cons_none hbody]
      exact hfs.bodies_eq
    · simp only [List.filterMap_cons, hgraph]
      refine ⟨?_, ?_⟩
      · rw [hfs.known_eq, hb.known_eq, List.flatMap_cons, internAll_append]
      · rw [bodies, List.filterMap_cons_some hbody, List.map_cons, List.map_cons]
        refine congrArg₂ List.cons ?_ hfs.bodies_eq
        rw [hb.ids_eq]
        refine List.map_congr_left fun text htext => ?_
        rw [hfs.known_eq, idxOf_internAll _ (hb.known_eq ▸ mem_internAll _ htext)]

/-! ## Shortening -/

theorem Instruction.string?_mapRegisters (ρ : RegisterId → RegisterId) (i : Instruction) :
    (i.mapRegisters ρ).string? = i.string? := by
  cases i <;> rfl

theorem lineStrings_handOver (labels : List LabelId) (lines : List Line) :
    lineStrings (handOver labels lines) = lineStrings lines := by
  cases lines with
  | nil =>
    show lineStrings (if labels = [] then [] else [⟨labels, .nop⟩]) = []
    split <;> rfl
  | cons line rest => rfl

theorem Fold.lineStrings_apply (fold : Fold) (lines : List Line) :
    lineStrings (fold.apply lines) = lineStrings lines := by
  unfold Fold.apply
  split
  · simp only [lineStrings, List.filterMap_map, Function.comp_def, Line.rename, Instruction.rename,
      Instruction.string?_mapRegisters]
  · rfl

theorem Rule.keeps_lineStrings {rule : Rule} (h : ∀ lines fold, rule.fold? lines = some fold →
    lineStrings fold.lines = lineStrings lines) (strings : List StringId) :
    rule.Keeps fun lines => lineStrings lines = strings := by
  intro before lines fold hfold hlines
  rw [Fold.lineStrings_apply, lineStrings_append, h lines fold hfold, ← lineStrings_append, hlines]

theorem lineStrings_optimizeLines (lines : List Line) :
    lineStrings (optimizeLines lines) = lineStrings lines := by
  refine optimizeLines_induction (Q := fun l => lineStrings l = lineStrings lines)
    (Rule.keeps_lineStrings ?_ _) (Rule.keeps_lineStrings ?_ _) (Rule.keeps_lineStrings ?_ _) rfl
  · intro old fold hfold
    obtain ⟨labels, r, id, arguments, rest, rfl, rfl⟩ := foldDirectCall_eq_some hfold
    rfl
  · intro old fold hfold
    obtain ⟨labels, r, value, slot, rest, -, rfl, rfl⟩ := foldDirectStore_eq_some hfold
    rfl
  · intro old fold hfold
    obtain ⟨labels, pushed, popped, first, second, after, -, rfl, rfl⟩ :=
      foldShadowedPop_eq_some hfold
    rw [lineStrings_handOver]
    simp [lineStrings, Instruction.string?]

theorem Body.strings_optimize (b : Body) : b.optimize.strings = b.strings :=
  lineStrings_optimizeLines b.lines

theorem map_strings_bodies_optimize (p : Program) :
    (bodies p.optimize.functions).map Body.strings = (bodies p.functions).map Body.strings := by
  have hbody : ∀ f : Function, (f.mapBody Body.optimize).body? = f.body?.map Body.optimize := by
    intro f
    unfold Function.mapBody Function.body?
    cases hf : f.definition <;> simp [hf]
  rw [Program.optimize, Program.functions_mapBodies, bodies, bodies, List.filterMap_map,
    List.map_filterMap, List.map_filterMap]
  refine List.filterMap_congr fun f _ => ?_
  simp only [Function.comp_apply, hbody, Option.map_map, Function.comp_def, Body.strings_optimize]

end Linear

end WordLang
