import WordLang.Proofs.Assembly.Rows
import WordLang.Proofs.Compilation

/-!
# The symbols that assembly text defines

Symbols are made from names and numbers: that of a function outside blocks from its name, that of
one within a block from its name and the number of its declaration, and that of a string constant
from the number of the constant. Numbers tell two functions within blocks apart and two constants,
and the routines have a beginning of their own. But a name may itself end in a number, so a function
outside blocks may get the symbol of another definition, and so may a function within a block that
is called `string`. These are all the ways in which a symbol can be defined twice, unless the symbol
of a foreign function has line ends and so rows of its own.

## Main definitions

* `Assembly.Shows`: the symbols that the text of a program may show
* `Assembly.Defines`: lines that such a text may have, with the symbols that they define
* `Checked.Clash`: the ways in which two definitions get one symbol
* `Checked.Imports`, `Checked.Exports`: the symbols of foreign code
* `Checked.Links`: linear code with the symbols that the program states

## Main results

* `Assembly.programLines_defines`: the symbols that the text of a program defines
* `Checked.Links.isSymbol_label`: labels are symbols that can be read
* `compile_symbols`: every symbol is defined once, unless names clash
-/

namespace WordLang

open Assembly (Comments Line)

variable {p : Linear.Program} {lines : List Line} {comments : Comments} {f : Linear.Function}

namespace Assembly

/-! ## Symbols of lines -/

@[simp] theorem definedSymbols_append (lines rest : List Line) :
    definedSymbols (lines ++ rest) = definedSymbols lines ++ definedSymbols rest :=
  List.filterMap_append

@[simp] theorem definedSymbols_label (symbol : String) (rest : List Line) :
    definedSymbols (.label symbol :: rest) = symbol :: definedSymbols rest := rfl

@[simp] theorem definedSymbols_code (instrs : List Instr) : definedSymbols (code instrs) = [] := by
  simp [definedSymbols, code, List.filterMap_map, Function.comp_def, Line.defined?]

/-- The symbols that the text of a program may show. -/
inductive Shows (p : Linear.Program) : String → Prop where
  | divide : Shows p divideSymbol
  | modulus : Shows p modulusSymbol
  | string (k : StringId) : Shows p (stringSymbol k)
  | label {f : Linear.Function} : f ∈ p.functions → Shows p f.label
  | exported {f : Linear.Function} {symbol : String} : f ∈ p.functions → f.exported = some symbol →
    Shows p symbol
  | foreign {f : Linear.Function} {symbol : String} : f ∈ p.functions →
    f.definition = .foreign symbol → Shows p symbol

def CodeOf (p : Linear.Program) (instrs : List Instr) : Prop :=
  ∀ instr ∈ instrs, ∀ s ∈ instr.symbols, Shows p s

structure Defines (p : Linear.Program) (comments : Comments) (lines : List Line)
    (symbols : List String) : Prop where
  defined : definedSymbols lines = symbols
  /-- A line can be read, apart from its symbols, or is a comment. -/
  regular : ∀ line ∈ lines, line.Regular ∨ ∃ i, line ∈ comments.lines p i
  shows : ∀ line ∈ lines, ∀ s ∈ line.symbols, Shows p s

namespace Defines

variable {symbols symbols' : List String}

theorem nil : Defines p comments [] [] := ⟨rfl, List.forall_mem_nil _, List.forall_mem_nil _⟩

theorem append {rest : List Line} (h : Defines p comments lines symbols)
    (h' : Defines p comments rest symbols') :
    Defines p comments (lines ++ rest) (symbols ++ symbols') where
  defined := by rw [definedSymbols_append, h.defined, h'.defined]
  regular := List.forall_mem_append.2 ⟨h.regular, h'.regular⟩
  shows := List.forall_mem_append.2 ⟨h.shows, h'.shows⟩

theorem cons {line : Line} (hregular : line.Regular) (hshows : ∀ s ∈ line.symbols, Shows p s)
    (h : Defines p comments lines symbols) :
    Defines p comments (line :: lines) (line.defined?.toList ++ symbols) := by
  have hline : Defines p comments [line] line.defined?.toList := by
    refine ⟨?_, ?_, List.forall_mem_singleton.2 hshows⟩
    · cases line <;> rfl
    · exact List.forall_mem_singleton.2 (.inl hregular)
  exact hline.append h

theorem code {instrs : List Instr} (h : CodeOf p instrs) : Defines p comments (code instrs) [] where
  defined := definedSymbols_code instrs
  regular := List.forall_mem_map.2 fun _ _ => .inl trivial
  shows := List.forall_mem_map.2 h

end Defines

theorem codeOf_binary (op : BinaryOp) (d s : Register) (saveRax : Bool) :
    CodeOf p (binary op d s saveRax) := by
  have hdivision : ∀ routine, Shows p routine → CodeOf p (division routine d s saveRax) := by
    intro routine hroutine
    unfold division
    split_ifs <;> simp [CodeOf, hroutine]
  cases op with
  | div => exact hdivision _ .divide
  | mod => exact hdivision _ .modulus
  | _ => simp [binary, comparison, CodeOf]

theorem codeOf_finishCall (arguments : Nat) : CodeOf p (finishCall arguments) := by
  unfold finishCall
  split <;> simp [CodeOf]

theorem symbol_shows (c : GenerateContext) (id : FunctionId) (pool : Pool) :
    Ensures (Generate.symbol c id) pool (fun o _ => ∀ s ∈ o.symbols, Shows c.program s)
      fun _ => True := by
  unfold Generate.symbol
  split
  · next f hf => exact .pure (List.forall_mem_singleton.2 (.label (List.mem_of_getElem? hf)))
  · exact .throw trivial

theorem slot_shows (c : GenerateContext) (r : RegisterId) (pool : Pool) :
    Ensures (Generate.slot c r) pool (fun o _ => ∃ offset, o = .frame offset) fun _ => True := by
  unfold Generate.slot
  split
  · exact .pure ⟨_, rfl⟩
  · exact .throw trivial

/-- Instructions show symbols of functions, string constants and routines only. -/
theorem instruction_codeOf (c : GenerateContext) (i : Linear.Instruction) (pool : Pool) :
    Ensures (instruction c i) pool (fun instrs _ => CodeOf c.program instrs) fun _ => True := by
  have hregister : ∀ {r : RegisterId} {k : Register → Generate (List Instr)} {pool : Pool},
      (∀ q pool', Ensures (k q) pool' (fun instrs _ => CodeOf c.program instrs) fun _ => True) →
      Ensures (Generate.register c r >>= k) pool (fun instrs _ => CodeOf c.program instrs)
        fun _ => True := fun hk => (Ensures.trivial _ _).bind_of fun q pool' _ => hk q pool'
  cases i with
  | nop | jump | «return» => exact .pure (by simp [CodeOf])
  | allocParam | allocLocal => exact .throw trivial
  | moveInt | push | pop | jumpIfNonZero =>
    exact hregister fun q pool' => .pure (by simp [CodeOf])
  | moveString r string => exact hregister fun q pool' => .pure (by simp [CodeOf, Shows.string])
  | moveFunction r function =>
    refine (symbol_shows c function pool).bind_of fun o pool' ho => hregister fun q pool'' => .pure ?_
    simpa [CodeOf] using ho
  | load r slot | storeRegister slot r =>
    refine (slot_shows c _ pool).bind_of fun o pool' ho => hregister fun q pool'' => .pure ?_
    obtain ⟨offset, rfl⟩ := ho
    simp [CodeOf]
  | storeImmediate slot value =>
    refine (slot_shows c slot pool).bind_of fun o pool' ho => .pure ?_
    obtain ⟨offset, rfl⟩ := ho
    simp [CodeOf]
  | callRegister r arguments =>
    refine (Ensures.trivial _ _).bind_of fun _ pool' _ => hregister fun q pool'' => .pure ?_
    exact List.forall_mem_cons.2 ⟨List.forall_mem_nil _, codeOf_finishCall _⟩
  | callImmediate function arguments =>
    refine (Ensures.trivial _ _).bind_of fun _ pool' _ => ?_
    refine (symbol_shows c function pool').bind_of fun o pool'' ho => .pure ?_
    exact List.forall_mem_cons.2 ⟨ho, codeOf_finishCall _⟩
  | binary op d s =>
    refine hregister fun q pool' => hregister fun q' pool'' => ?_
    exact (Ensures.trivial _ _).bind_of fun _ _ _ => .pure (codeOf_binary op q q' _)
  | kill r => exact (Ensures.trivial _ _).bind_of fun _ _ _ => .pure (List.forall_mem_nil _)

theorem bodyLines_defines (c : GenerateContext) (comments : Comments)
    (lines : List Linear.Line) (pool : Pool) :
    Ensures (bodyLines c comments lines) pool
      (fun code _ => Defines c.program comments code []) fun _ => True := by
  induction lines generalizing pool with
  | nil => exact .pure .nil
  | cons line rest ih =>
    have htargets : Defines c.program comments
        (line.labels.map fun l => Line.target (.label l)) [] := by
      induction line.labels with
      | nil => exact .nil
      | cons l labels ih => exact .cons trivial (List.forall_mem_nil _) ih
    have hcomment : Defines c.program comments
        (comments.lines c.program line.instruction) [] := by
      refine ⟨?_, fun _ hmem => .inr ⟨_, hmem⟩, ?_⟩ <;> cases comments
      · rfl
      · rfl
      · exact List.forall_mem_nil _
      · exact List.forall_mem_singleton.2 (List.forall_mem_nil _)
    have hline : Ensures (lineLines c comments line) pool
        (fun code _ => Defines c.program comments code []) fun _ => True :=
      (instruction_codeOf c _ pool).bind_of fun instrs _ hinstrs =>
        .pure ((htargets.append hcomment).append (.code hinstrs))
    exact hline.bind_of fun first pool' hfirst => (ih pool').bind_of fun code _ hcode =>
      .pure (hfirst.append hcode)

theorem functionLines_defines {body : Linear.Body} (hf : f ∈ p.functions)
    (h : functionLines p comments f.label body = .ok lines) :
    Defines p comments lines [f.label] := by
  have hgenerate : Ensures
      (generateFunction ⟨p, f.label, (headSlots body.lines).layout⟩ comments body) {}
      (fun lines _ => Defines p comments lines [f.label]) fun _ => True := by
    refine (slot_shows ..).bind_of fun result pool hresult => ?_
    obtain ⟨offset, rfl⟩ := hresult
    refine (bodyLines_defines _ comments _ pool).bind_of fun lines pool' hlines => .pure ?_
    have hopen : CodeOf p
        (prologue (headSlots body.lines).layout.frameSize ++ [.jmp (.label body.entry)]) := by
      unfold prologue
      split <;> simp [CodeOf]
    have hclose : CodeOf p (.mov (.register .rax) (.frame offset) :: epilogue) := by
      simp [epilogue, CodeOf]
    have hlabel : Defines p comments (.label f.label :: Assembly.code _) [f.label] :=
      .cons trivial (List.forall_mem_singleton.2 (.label hf)) (.code hopen)
    have hexit : Defines p comments (.target .exit :: Assembly.code _) [] :=
      .cons trivial (List.forall_mem_nil _) (.code hclose)
    exact (hlabel.append hlines).append hexit
  rw [functionLines, EStateM.run] at h
  rw [Ensures] at hgenerate
  split at h <;> rename_i hrun <;> rw [hrun] at hgenerate <;> cases h
  exact hgenerate

theorem foreignBridge_defines {symbol : String} (hf : f ∈ p.functions)
    (hforeign : f.definition = .foreign symbol) (h : foreignBridge f symbol = .ok lines) :
    Defines p comments lines [f.label] := by
  obtain ⟨registers, -, h⟩ := exists_of_bind_eq_ok h
  cases h
  have hsymbol := Shows.foreign hf hforeign
  refine .cons trivial (List.forall_mem_singleton.2 hsymbol) (.cons trivial
    (List.forall_mem_singleton.2 (.label hf)) (.code ?_))
  refine List.forall_mem_append.2 ⟨List.forall_mem_append.2 ⟨List.forall_mem_append.2 ⟨?_, ?_⟩, ?_⟩, ?_⟩
  · simp [openFrame]
  · refine List.forall_mem_flatMap.2 fun index _ => ?_
    simp
  · exact List.forall_mem_map.2 fun r _ => List.forall_mem_nil _
  · simp [epilogue, hsymbol]

theorem exportBridge_defines {symbol : String} (hf : f ∈ p.functions)
    (hexported : f.exported = some symbol) (h : exportBridge f symbol = .ok lines) :
    Defines p comments lines [symbol] := by
  obtain ⟨registers, -, h⟩ := exists_of_bind_eq_ok h
  cases h
  have hsymbol := List.forall_mem_singleton.2 (Shows.exported hf hexported)
  refine .cons trivial hsymbol (.cons trivial hsymbol (.code ?_))
  simp [CodeOf, openFrame, epilogue, or_imp, forall_and, Shows.label hf]

theorem definitionLines_defines (hf : f ∈ p.functions)
    (h : definitionLines p comments f = .ok lines) :
    Defines p comments lines (f.label :: f.exported.toList) := by
  obtain ⟨own, hown, h⟩ := exists_of_bind_eq_ok h
  obtain ⟨bridge, hbridge, h⟩ := exists_of_bind_eq_ok h
  cases h
  have hfirst : Defines p comments own [f.label] := by
    unfold ownLines at hown
    split at hown
    · next symbol hforeign => exact foreignBridge_defines hf hforeign hown
    · exact functionLines_defines hf hown
  refine hfirst.append ?_
  unfold exportLines at hbridge
  split at hbridge
  · next symbol he =>
    rw [he]
    exact exportBridge_defines hf he hbridge
  · next he =>
    cases hbridge
    rw [he]
    exact .nil

theorem definitionsLines_defines {fs : List Linear.Function} (hfs : fs ⊆ p.functions)
    (h : definitionsLines p comments fs = .ok lines) :
    Defines p comments lines (fs.flatMap fun f => f.label :: f.exported.toList) := by
  induction fs generalizing lines with
  | nil =>
    cases h
    exact .nil
  | cons f fs ih =>
    obtain ⟨first, hfirst, h⟩ := exists_of_bind_eq_ok h
    obtain ⟨rest, hrest, h⟩ := exists_of_bind_eq_ok h
    cases h
    obtain ⟨hf, hfs⟩ := List.cons_subset.1 hfs
    exact (definitionLines_defines hf hfirst).append (ih hfs hrest)

theorem strings_defines (entries : List (StringId × String)) :
    Defines p comments (entries.flatMap fun e => stringLines e.1 e.2)
      ((entries.map Prod.fst).map stringSymbol) := by
  induction entries with
  | nil => exact .nil
  | cons e entries ih =>
    have hfirst : Defines p comments (stringLines e.1 e.2) [stringSymbol e.1] := by
      unfold stringLines
      split
      · exact ⟨rfl, by simp [Line.Regular], by simp [Shows.string]⟩
      · exact ⟨rfl, by simp [Line.Regular], by simp [Shows.string]⟩
    exact hfirst.append ih

/-- The text of a program defines the symbols of its string constants, its functions and the two
routines. -/
theorem programLines_defines (h : programLines p comments = .ok lines) :
    Defines p comments lines (p.strings.keys.map stringSymbol ++
      (p.functions.flatMap fun f => f.label :: f.exported.toList) ++
      [divideSymbol, modulusSymbol]) := by
  obtain ⟨functions, hfunctions, h⟩ := exists_of_bind_eq_ok h
  cases h
  have hdirective : ∀ {text lines symbols}, text ∈ directives → Defines p comments lines symbols →
      Defines p comments (.verbatim text :: lines) symbols :=
    fun htext => .cons htext (List.forall_mem_nil _)
  have hroutines : Defines p comments routines [divideSymbol, modulusSymbol] := by
    refine ⟨rfl, ?_, ?_⟩
    · simp [routines, divisionRoutine, Assembly.code, Line.Regular]
    · simp [routines, divisionRoutine, Assembly.code, Shows.divide, Shows.modulus]
  exact (((hdirective (by decide) (hdirective (by decide) .nil)).append (strings_defines _)).append
    (hdirective (by decide) (definitionsLines_defines (List.Subset.refl _) hfunctions))).append
    hroutines

/-! ## Comments -/

theorem not_mem_dropControls {text : List Char} (h : '\n' ∉ text) (state : Text.ControlState) :
    '\n' ∉ Text.dropControls state text := by
  induction text generalizing state with
  | nil => exact List.not_mem_nil
  | cons c text ih =>
    rw [List.mem_cons, not_or] at h
    rw [Text.dropControls, List.mem_append, not_or]
    refine ⟨?_, ih h.2 _⟩
    have hne : c ≠ '\n' := Ne.symm h.1
    unfold Text.ControlState.step
    split_ifs
    · exact List.not_mem_nil
    · exact List.not_mem_nil
    · cases state with
      | text =>
        simp only [Text.ControlState.advance]
        split_ifs <;> simp [h.1]
      | deviceData =>
        simp only [Text.ControlState.advance]
        split <;> simp [Text.strayBytes]
      | _ => simp [Text.ControlState.advance, hne]

theorem not_mem_listing (hlabels : ∀ f ∈ p.functions, '\n' ∉ f.label.toList) (i : Linear.Instruction) :
    ∀ fragment ∈ i.listing p, '\n' ∉ fragment.text.toList := by
  have hnat : ∀ n : Nat, '\n' ∉ Nat.toDigits 10 n := fun n => by
    simpa using Divides.not_mem_toString (.inr rfl) n
  have hint : ∀ n : Int, '\n' ∉ n.repr.toList := Divides.not_mem_toString_int (.inr rfl)
  have hname : ∀ id, '\n' ∉ (p.functionName id).text.toList := by
    intro id
    unfold Linear.Program.functionName
    cases hf : p.functions[id]? with
    | none => simp [Text.paint, hnat]
    | some f => exact hlabels f (List.mem_of_getElem? hf)
  cases i with
  | binary op d s =>
    cases op <;> simp [Linear.Instruction.listing, Text.paint, Text.plain, Linear.registerText, hnat,
      BinaryOp.name]
  | _ =>
    simp [Linear.Instruction.listing, Text.paint, Text.plain, Linear.registerText, Linear.slotText,
      Linear.labelName, Linear.wordText, hnat, hint, hname]

theorem regular_of_mem_comments (hlabels : ∀ f ∈ p.functions, '\n' ∉ f.label.toList)
    {options : CompileOptions} {i : Linear.Instruction} {line : Line}
    (h : line ∈ options.commentsMode.lines p i) : line.Regular := by
  unfold CompileOptions.commentsMode at h
  split at h
  · obtain rfl := List.mem_singleton.1 h
    show '\n' ∉ (Text.withoutControls _).toList
    rw [Text.withoutControls, String.toList_ofList]
    refine not_mem_dropControls (fun hmem => ?_) _
    simp only [Text.render, String.toList_join, List.mem_flatMap, List.mem_map] at hmem
    obtain ⟨text, ⟨fragment, hfragment, rfl⟩, hmem⟩ := hmem
    exact not_mem_listing hlabels i fragment hfragment hmem
  · cases h

theorem regular_of_mem_programLines (hlabels : ∀ f ∈ p.functions, '\n' ∉ f.label.toList)
    {options : CompileOptions} (h : programLines p options.commentsMode = .ok lines) :
    ∀ line ∈ lines, line.Regular := by
  intro line hline
  rcases (programLines_defines h).regular line hline with hregular | ⟨i, hi⟩
  · exact hregular
  · exact regular_of_mem_comments hlabels hi

end Assembly

/-! ## Names and numbers -/

/-- Lists are cut at the last occurrence of an element in one way. -/
theorem append_cons_inj {α : Type} {x : α} {as bs ds es : List α} (hd : x ∉ ds) (he : x ∉ es)
    (h : as ++ x :: ds = bs ++ x :: es) : as = bs ∧ ds = es := by
  rcases List.append_eq_append_iff.1 h with ⟨cs, rfl, hcut⟩ | ⟨cs, rfl, hcut⟩
  · cases cs with
    | nil => exact ⟨(List.append_nil as).symm, (List.cons.inj hcut).2⟩
    | cons c cs =>
      refine absurd ?_ hd
      rw [(List.cons.inj hcut).2]
      simp
  · cases cs with
    | nil => exact ⟨List.append_nil bs, (List.cons.inj hcut).2.symm⟩
    | cons c cs =>
      refine absurd ?_ he
      rw [(List.cons.inj hcut).2]
      simp

theorem numbered_inj {name name' : String} {n n' : Nat} :
    name ++ "_" ++ toString n = name' ++ "_" ++ toString n' ↔ name = name' ∧ n = n' := by
  constructor
  · intro h
    have hchars := congrArg String.toList h
    simp only [String.toList_append, Nat.toString_eq_ofList_toDigits, String.toList_ofList,
      List.append_assoc] at hchars
    obtain ⟨hname, hdigits⟩ := append_cons_inj Nat.underscore_not_in_toDigits
      Nat.underscore_not_in_toDigits hchars
    refine ⟨String.toList_inj.1 hname, ?_⟩
    rw [← Nat.ofDigitChars_ten_toDigits (n := n), hdigits, Nat.ofDigitChars_ten_toDigits]
  · rintro ⟨rfl, rfl⟩
    rfl

/-! ## Symbols of functions -/

/-- The function that `id` declares, outside blocks. -/
def Checked.Outside (c : Checked) (id : StmtId) (decl : FnDecl) : Prop :=
  c.resolutions.function? id = some decl ∧ ∃ item ∈ c.module.items, item.id = id

/-- The function that `id` declares, within a block. -/
def Checked.Within (c : Checked) (id : StmtId) (decl : FnDecl) : Prop :=
  c.resolutions.function? id = some decl ∧ ∀ item ∈ c.module.items, item.id ≠ id

/-- Two definitions get one symbol, because a name looks like another name with a number. -/
inductive Checked.Clash (c : Checked) (p : Linear.Program) : Prop where
  /-- A function outside blocks is named like one within a block, with its number. -/
  | functions {id id' : StmtId} {decl decl' : FnDecl} (outside : c.Outside id decl)
      (within : c.Within id' decl') (name : decl.ident.name = decl'.ident.name ++ "_" ++ toString id')
  | constant {id : StmtId} {decl : FnDecl} {k : StringId} (outside : c.Outside id decl)
      (constant : k ∈ p.strings.keys) (name : decl.ident.name = "string" ++ "_" ++ toString k)
  /-- A function within a block is called `string`, and its number is that of a constant. -/
  | string {id : StmtId} {decl : FnDecl} (within : c.Within id decl) (constant : id ∈ p.strings.keys)
      (name : decl.ident.name = "string")

namespace Checked

variable {c : Checked} {id id' : StmtId} {decl decl' : FnDecl}

theorem stringSymbol_eq (k : StringId) :
    Assembly.stringSymbol k = "sbc__" ++ ("string" ++ "_" ++ toString k) := by
  rw [Assembly.stringSymbol, ← String.append_assoc, ← String.append_assoc]
  rfl

/-- The symbol of the function that `id` declares. -/
def symbol (c : Checked) (id : StmtId) : String :=
  (c.resolutions.function? id).elim "" (Linear.symbolOf c.module id)

theorem symbol_of_declared (h : c.resolutions.function? id = some decl) :
    c.symbol id = Linear.symbolOf c.module id decl := by
  rw [symbol, h, Option.elim_some]

theorem Outside.symbol_eq (h : c.Outside id decl) : c.symbol id = "sbc__" ++ decl.ident.name := by
  obtain ⟨hdecl, item, hmem, hid⟩ := h
  rw [symbol_of_declared hdecl]
  exact if_pos (List.any_eq_true.2 ⟨item, hmem, decide_eq_true hid⟩)

theorem Within.symbol_eq (h : c.Within id decl) :
    c.symbol id = "sbc__" ++ (decl.ident.name ++ "_" ++ toString id) := by
  have hany : ¬(c.module.items.any fun item => item.id = id) = true := by
    intro hany
    obtain ⟨item, hmem, hid⟩ := List.any_eq_true.1 hany
    exact h.2 item hmem (of_decide_eq_true hid)
  rw [symbol_of_declared h.1, Linear.symbolOf, if_neg hany, String.append_assoc,
    String.append_assoc, String.append_assoc]

theorem LowersTo.labels_eq {simplify : Bool} (hp : c.LowersTo simplify p) :
    p.functions.map Linear.Function.label = c.resolutions.functions.map c.symbol := by
  have hlabels : List.Forall₂ (fun id f => Linear.Function.label f = c.symbol id)
      c.resolutions.functions p.functions := by
    refine List.Forall₂.imp ?_ hp
    rintro id f ⟨decl, linkage, hlowered⟩
    rw [hlowered.label, symbol_of_declared hlowered.declared]
  rw [← List.forall₂_eq_eq_eq, List.forall₂_map_left_iff, List.forall₂_map_right_iff]
  exact hlabels.flip

namespace Valid

variable (hc : c.Valid)
include hc

theorem outside_or_within (hid : id ∈ c.resolutions.functions) :
    ∃ decl, c.Outside id decl ∨ c.Within id decl := by
  obtain ⟨tag, decl, -, hfind, -⟩ := hc.resolved.function id hid
  have hdecl := Resolutions.function?_eq_some.2 ⟨tag, hfind⟩
  by_cases hitem : ∃ item ∈ c.module.items, item.id = id
  · exact ⟨decl, .inl ⟨hdecl, hitem⟩⟩
  · exact ⟨decl, .inr ⟨hdecl, fun item hmem hid => hitem ⟨item, hmem, hid⟩⟩⟩

theorem outside_inj (h : c.Outside id decl) (h' : c.Outside id' decl')
    (hname : decl.ident.name = decl'.ident.name) : id = id' := by
  have hmem : ∀ {id decl}, c.Outside id decl → (id, decl) ∈ Stmt.declared c.module.items := by
    rintro id decl ⟨hdecl, item, hitem, rfl⟩
    obtain ⟨tag, decl', rfl⟩ := hc.items item hitem
    cases hdecl.symm.trans (hc.function?_of_item hitem)
    exact List.mem_filterMap.2 ⟨_, hitem, rfl⟩
  exact congrArg Prod.fst (List.inj_on_of_nodup_map hc.resolved.names (hmem h) (hmem h') hname)

theorem nodup_symbols_iff : (c.resolutions.functions.map c.symbol).Nodup ↔
    ∀ {id id' : StmtId} {decl decl' : FnDecl}, c.Outside id decl → c.Within id' decl' →
      decl.ident.name ≠ decl'.ident.name ++ "_" ++ toString id' := by
  rw [List.nodup_map_iff_inj_on hc.resolved.nodup]
  have hlisted : ∀ {id decl}, c.resolutions.function? id = some decl → id ∈ c.resolutions.functions :=
    fun hdecl => (hc.functionChecked hdecl).1
  constructor
  · intro hinj id id' decl decl' hout hwithin hname
    have heq : id = id' := by
      refine hinj id (hlisted hout.1) id' (hlisted hwithin.1) ?_
      rw [hout.symbol_eq, hwithin.symbol_eq, hname]
    obtain ⟨item, hmem, hid⟩ := hout.2
    exact hwithin.2 item hmem (hid.trans heq)
  · intro hapart id hid id' hid' hsymbols
    obtain ⟨decl, h | h⟩ := hc.outside_or_within hid <;>
      obtain ⟨decl', h' | h'⟩ := hc.outside_or_within hid' <;>
      rw [h.symbol_eq, h'.symbol_eq, String.append_right_inj] at hsymbols
    · exact hc.outside_inj h h' hsymbols
    · exact (hapart h h' hsymbols).elim
    · exact (hapart h' h hsymbols.symm).elim
    · exact (numbered_inj.1 hsymbols).2

theorem symbol_eq_stringSymbol_iff (hid : id ∈ c.resolutions.functions) (k : StringId) :
    c.symbol id = Assembly.stringSymbol k ↔
      (∃ decl, c.Outside id decl ∧ decl.ident.name = "string" ++ "_" ++ toString k) ∨
        ∃ decl, c.Within id decl ∧ decl.ident.name = "string" ∧ id = k := by
  rw [stringSymbol_eq]
  constructor
  · intro hsymbols
    obtain ⟨decl, h | h⟩ := hc.outside_or_within hid <;>
      rw [h.symbol_eq, String.append_right_inj] at hsymbols
    · exact .inl ⟨decl, h, hsymbols⟩
    · exact .inr ⟨decl, h, numbered_inj.1 hsymbols⟩
  · rintro (⟨decl, h, hname⟩ | ⟨decl, h, hname, rfl⟩) <;> rw [h.symbol_eq, hname]

theorem symbol_ne_routine {keys : List StringId} {a : String}
    (ha : a ∈ keys.map Assembly.stringSymbol ++ c.resolutions.functions.map c.symbol) :
    a ∉ [Assembly.divideSymbol, Assembly.modulusSymbol] := by
  have hstart : ∃ rest, a = "sbc__" ++ rest := by
    rcases List.mem_append.1 ha with ha | ha
    · obtain ⟨k, -, rfl⟩ := List.mem_map.1 ha
      exact ⟨_, stringSymbol_eq k⟩
    · obtain ⟨id, hid, rfl⟩ := List.mem_map.1 ha
      obtain ⟨decl, h | h⟩ := hc.outside_or_within hid
      · exact ⟨_, h.symbol_eq⟩
      · exact ⟨_, h.symbol_eq⟩
  obtain ⟨rest, rfl⟩ := hstart
  -- The fifth character of the symbols of routines is no underscore.
  intro hmem
  have hfifth : ("sbc__" ++ rest).toList[4]? = some '_' := by simp [String.toList_append]
  simp only [List.mem_cons, List.not_mem_nil, or_false] at hmem
  rcases hmem with h | h <;> rw [h] at hfifth <;> revert hfifth <;> decide

theorem nodup_all_iff
    (hlabels : p.functions.map Linear.Function.label = c.resolutions.functions.map c.symbol) :
    (p.strings.keys.map Assembly.stringSymbol ++ p.functions.map Linear.Function.label ++
      [Assembly.divideSymbol, Assembly.modulusSymbol]).Nodup ↔ ¬c.Clash p := by
  rw [hlabels]
  have hlisted : ∀ {id decl}, c.resolutions.function? id = some decl → id ∈ c.resolutions.functions :=
    fun hdecl => (hc.functionChecked hdecl).1
  constructor
  · intro hnodup hclash
    obtain ⟨-, hfunctions, hapart⟩ := List.nodup_append.1 (List.nodup_append.1 hnodup).1
    have hne : ∀ {k id}, k ∈ p.strings.keys → id ∈ c.resolutions.functions →
        c.symbol id ≠ Assembly.stringSymbol k := fun hk hid heq =>
      hapart _ (List.mem_map_of_mem hk) _ (List.mem_map_of_mem hid) heq.symm
    cases hclash with
    | functions hout hwithin hname => exact hc.nodup_symbols_iff.1 hfunctions hout hwithin hname
    | constant hout hk hname =>
      refine hne hk (hlisted hout.1) ?_
      exact (hc.symbol_eq_stringSymbol_iff (hlisted hout.1) _).2 (.inl ⟨_, hout, hname⟩)
    | string hwithin hk hname =>
      refine hne hk (hlisted hwithin.1) ?_
      exact (hc.symbol_eq_stringSymbol_iff (hlisted hwithin.1) _).2 (.inr ⟨_, hwithin, hname, rfl⟩)
  · intro hclash
    have hconstants : (p.strings.keys.map Assembly.stringSymbol).Nodup := by
      refine List.Nodup.map ?_ p.strings.nodup_keys
      intro k k' h
      rw [stringSymbol_eq, stringSymbol_eq, String.append_right_inj] at h
      exact (numbered_inj.1 h).2
    have hfunctions : (c.resolutions.functions.map c.symbol).Nodup :=
      hc.nodup_symbols_iff.2 fun hout hwithin hname => hclash (.functions hout hwithin hname)
    refine List.nodup_append.2 ⟨List.nodup_append.2 ⟨hconstants, hfunctions, ?_⟩, by decide, ?_⟩
    · intro a ha b hb heq
      obtain ⟨k, hk, rfl⟩ := List.mem_map.1 ha
      obtain ⟨id, hid, rfl⟩ := List.mem_map.1 hb
      rcases (hc.symbol_eq_stringSymbol_iff hid k).1 heq.symm with
        ⟨decl, hout, hname⟩ | ⟨decl, hwithin, hname, rfl⟩
      · exact hclash (.constant hout hk hname)
      · exact hclash (.string hwithin hk hname)
    · rintro a ha b hb rfl
      exact hc.symbol_ne_routine ha hb

end Valid

end Checked

/-! ## Symbols that are read -/

namespace Assembly

theorem isSymbol_append {rest : String} (h : ∀ c ∈ rest.toList, isWordPart c = true) :
    isSymbol ("sbc__" ++ rest).toList = true := by
  have hregister : Register.ofName? ("sbc__" ++ rest) = none := by
    refine List.find?_eq_none.2 fun r _ heq => ?_
    have hfirst : r.name.toList.head? = some 's' := by
      rw [of_decide_eq_true heq, String.toList_append]
      rfl
    cases r <;> revert hfirst <;> decide
  have hpart : ∀ c ∈ rest.toList, isSymbolChar c = true := by
    intro c hc
    rw [isSymbolChar, Bool.or_eq_true]
    refine (Bool.or_eq_true _ _ ▸ h c hc).imp_right fun h => ?_
    rw [of_decide_eq_true h]
    decide
  have hall : ("sbc__" ++ rest).toList.all isSymbolChar = true := by
    rw [String.toList_append, List.all_append, Bool.and_eq_true]
    exact ⟨rfl, List.all_eq_true.2 hpart⟩
  rw [isSymbol, hall, String.ofList_toList, hregister, String.toList_append]
  rfl

theorem isSymbol_numbered {name : String} (h : ∀ c ∈ name.toList, isWordPart c = true) (n : Nat) :
    isSymbol ("sbc__" ++ (name ++ "_" ++ toString n)).toList = true := by
  refine isSymbol_append fun c hc => ?_
  rw [String.toList_append, String.toList_append, List.mem_append, List.mem_append] at hc
  rcases hc with (hc | hc) | hc
  · exact h c hc
  · rw [List.mem_singleton.1 hc]
    rfl
  · rw [isWordPart, Char.isAlphanum, isDigit_of_mem_toString hc, Bool.or_true, Bool.true_or]

theorem isSymbol_stringSymbol (k : StringId) : isSymbol (stringSymbol k).toList = true := by
  rw [Checked.stringSymbol_eq]
  exact isSymbol_numbered (List.all_eq_true.1 rfl) k

end Assembly

namespace Checked

variable {c : Checked}

theorem Valid.isSymbol_symbol (hc : c.Valid) {id : StmtId} (hid : id ∈ c.resolutions.functions) :
    Assembly.isSymbol (c.symbol id).toList = true := by
  have hname : ∀ {decl}, c.resolutions.function? id = some decl →
      ∀ d ∈ decl.ident.name.toList, isWordPart d = true := by
    intro decl hdecl
    obtain ⟨tag, hfind⟩ := Resolutions.function?_eq_some.1 hdecl
    exact hc.words (hc.resolved.declared hfind).1
  obtain ⟨decl, h | h⟩ := hc.outside_or_within hid <;> rw [h.symbol_eq]
  · exact Assembly.isSymbol_append (hname h.1)
  · exact Assembly.isSymbol_numbered (hname h.1) id

/-- The symbols of foreign functions that functions stand for. -/
def Imports (c : Checked) (symbol : String) : Prop :=
  ∃ id decl linkage, c.resolutions.function? id = some decl ∧ decl.linkage = .ok linkage ∧
    linkage.foreign = some symbol

/-- The symbols under which foreign code may call functions. -/
def Exports (c : Checked) (symbol : String) : Prop :=
  ∃ id decl linkage, c.resolutions.function? id = some decl ∧ decl.linkage = .ok linkage ∧
    linkage.exported = some symbol

/-! ## Linear code -/

structure Links (c : Checked) (p : Linear.Program) : Prop where
  labels : p.functions.map Linear.Function.label = c.resolutions.functions.map c.symbol
  foreign : ∀ f ∈ p.functions, ∀ symbol, f.definition = .foreign symbol → c.Imports symbol
  exported : ∀ f ∈ p.functions, ∀ symbol, f.exported = some symbol → c.Exports symbol

theorem LowersTo.links {simplify : Bool} (hp : c.LowersTo simplify p) : c.Links p where
  labels := hp.labels_eq
  foreign := by
    intro f hf symbol hforeign
    obtain ⟨i, id, hid, hi⟩ := hp.exists_lowered hf
    obtain ⟨decl, linkage, hlowered⟩ := hp.lowered hid hi
    obtain ⟨d, hd, hfrom⟩ := hlowered.definition
    cases d with
    | graph g =>
      obtain ⟨-, -, b, hb, -⟩ := hfrom
      cases hforeign.symm.trans hb
    | foreign symbol' =>
      cases hforeign.symm.trans hfrom
      simp only [flow, hlowered.declared, hlowered.linked.stated, Option.map_some] at hd
      split at hd
      · cases hd
      · split at hd
        · next heq =>
          cases heq
          cases hd
          exact ⟨id, decl, _, hlowered.declared, hlowered.linked.stated, rfl⟩
        · cases hd
  exported := by
    intro f hf symbol hexported
    obtain ⟨i, id, hid, hi⟩ := hp.exists_lowered hf
    obtain ⟨decl, linkage, hlowered⟩ := hp.lowered hid hi
    exact ⟨id, decl, linkage, hlowered.declared, hlowered.linked.stated, hlowered.exported ▸ hexported⟩

theorem Links.optimize (h : c.Links p) : c.Links p.optimize := by
  have hfunctions : p.optimize.functions = p.functions.map (·.mapBody Linear.Body.optimize) :=
    Linear.Program.functions_mapBodies p _
  have hkept : ∀ f : Linear.Function, (f.mapBody Linear.Body.optimize).label = f.label ∧
      (f.mapBody Linear.Body.optimize).exported = f.exported ∧
      ∀ symbol, (f.mapBody Linear.Body.optimize).definition = .foreign symbol →
        f.definition = .foreign symbol := by
    intro f
    unfold Linear.Function.mapBody
    split
    · refine ⟨rfl, rfl, fun symbol h => ?_⟩
      cases h
    · exact ⟨rfl, rfl, fun _ h => h⟩
  constructor
  · rw [hfunctions, List.map_map, ← h.labels]
    exact List.map_congr_left fun f _ => (hkept f).1
  · rw [hfunctions]
    refine List.forall_mem_map.2 fun f hf symbol hforeign => ?_
    exact h.foreign f hf symbol ((hkept f).2.2 symbol hforeign)
  · rw [hfunctions]
    refine List.forall_mem_map.2 fun f hf symbol hexported => ?_
    exact h.exported f hf symbol ((hkept f).2.1 ▸ hexported)

/-- The linear code of a checked program, shortened or not, has the symbols that are stated. -/
theorem Valid.exists_linear (hc : c.Valid) (henough : c.EnoughIds) (optimize : Bool) :
    ∃ p, c.linear optimize optimize = .ok p ∧ c.Links p := by
  obtain ⟨p, -, hlinear, -, hp⟩ := hc.exists_program henough optimize
  refine ⟨_, hlinear optimize, ?_⟩
  cases optimize with
  | false => exact hp.links
  | true => exact hp.links.optimize

theorem Links.isSymbol_label (h : c.Links p) (hc : c.Valid) (hf : f ∈ p.functions) :
    Assembly.isSymbol f.label.toList = true := by
  have hlabel : f.label ∈ c.resolutions.functions.map c.symbol := h.labels ▸ List.mem_map_of_mem hf
  obtain ⟨id, hid, hsymbol⟩ := List.mem_map.1 hlabel
  exact hsymbol ▸ hc.isSymbol_symbol hid

theorem Links.of_shows (h : c.Links p) (hc : c.Valid) (good : String → Prop)
    (hgood : ∀ symbol : String, Assembly.isSymbol symbol.toList = true → good symbol)
    (hforeign : ∀ symbol, c.Imports symbol ∨ c.Exports symbol → good symbol) {symbol : String}
    (hshows : Assembly.Shows p symbol) : good symbol := by
  cases hshows with
  | divide => exact hgood _ (by decide)
  | modulus => exact hgood _ (by decide)
  | string k => exact hgood _ (Assembly.isSymbol_stringSymbol k)
  | label hf => exact hgood _ (h.isSymbol_label hc hf)
  | exported hf hexported => exact hforeign _ (.inr (h.exported _ hf _ hexported))
  | foreign hf hdefinition => exact hforeign _ (.inl (h.foreign _ hf _ hdefinition))

theorem Links.regular (h : c.Links p) (hc : c.Valid) {options : CompileOptions}
    (hlines : Assembly.programLines p options.commentsMode = .ok lines) : ∀ line ∈ lines, line.Regular :=
  Assembly.regular_of_mem_programLines
    (fun _ hf => Assembly.not_mem_of_isSymbol (h.isSymbol_label hc hf) (by decide)) hlines

/-- A program none of whose functions is exported under a symbol of its own. -/
def Unexported (c : Checked) : Prop :=
  ∀ id decl, c.resolutions.function? id = some decl → ¬Attr.Named decl.attrs "c_export"

theorem Unexported.not_exports (hc : c.Unexported) {symbol : String} : ¬c.Exports symbol := by
  rintro ⟨id, decl, linkage, hdecl, hlinkage, hexported⟩
  refine hc id decl hdecl ((FnDecl.exported_iff hlinkage).1 ?_)
  rw [hexported]
  rfl

end Checked

theorem flatMap_symbols {fs : List Linear.Function} (h : ∀ f ∈ fs, f.exported = none) :
    (fs.flatMap fun f => f.label :: f.exported.toList) = fs.map Linear.Function.label := by
  rw [List.map_eq_flatMap]
  refine List.flatMap_congr fun f hf => ?_
  rw [h f hf]
  rfl

theorem exists_labelRows {options : CompileOptions} {source : List Char} {c : Checked} {text : String}
    (hc : Checked.ofSource? source = .ok c) (henough : c.EnoughIds) (hexports : c.Unexported)
    (himports : ∀ symbol, c.Imports symbol → '\n' ∉ symbol.toList)
    (h : compile options source = .ok text) :
    ∃ p, c.linear options.optimize options.optimize = .ok p ∧ c.Links p ∧
    Assembly.labelRows text = p.strings.keys.map Assembly.stringSymbol ++
      p.functions.map Linear.Function.label ++ [Assembly.divideSymbol, Assembly.modulusSymbol] := by
  have hvalid := Checked.valid_of_ofSource? hc
  obtain ⟨p, hlinear, hlinks⟩ := hvalid.exists_linear henough options.optimize
  rw [compile_eq, hc, ok_bind, hlinear, ok_bind] at h
  obtain ⟨lines, hlines, htext⟩ := exists_of_bind_eq_ok h
  cases htext
  have hnone : ∀ f ∈ p.functions, f.exported = none := fun f hf =>
    Option.eq_none_iff_forall_ne_some.2 fun symbol he =>
      hexports.not_exports (hlinks.exported f hf symbol he)
  have hdefines := Assembly.programLines_defines hlines
  rw [flatMap_symbols hnone] at hdefines
  refine ⟨p, hlinear, hlinks, ?_⟩
  rw [← hdefines.defined]
  refine Assembly.labelRows_render (hlinks.regular hvalid hlines) (fun line hline s hs => ?_) ?_
  · refine hlinks.of_shows hvalid (fun s => '\n' ∉ s.toList)
      (fun _ hs => Assembly.not_mem_of_isSymbol hs (by decide)) (fun s hs => ?_)
      (hdefines.shows line hline s hs)
    exact hs.elim (himports s) fun hs => absurd hs hexports.not_exports
  · rw [hdefines.defined]
    refine List.forall_mem_append.2 ⟨List.forall_mem_append.2 ⟨?_, ?_⟩, by decide⟩
    · exact List.forall_mem_map.2 fun k _ => Assembly.isSymbol_stringSymbol k
    · exact List.forall_mem_map.2 fun f hf => hlinks.isSymbol_label hvalid hf

/-- The text of a program without exports defines the symbols of its string constants, its functions
and the two routines. Each of them is defined once, unless names clash. -/
theorem compile_symbols {options : CompileOptions} {source : List Char} {c : Checked} {text : String}
    (hc : Checked.ofSource? source = .ok c) (henough : c.EnoughIds) (hexports : c.Unexported)
    (himports : ∀ symbol, c.Imports symbol → '\n' ∉ symbol.toList)
    (h : compile options source = .ok text) :
    ∃ p, c.linear options.optimize options.optimize = .ok p ∧
    Assembly.labelRows text = p.strings.keys.map Assembly.stringSymbol ++
      p.functions.map Linear.Function.label ++ [Assembly.divideSymbol, Assembly.modulusSymbol] ∧
    ((Assembly.labelRows text).Nodup ↔ ¬c.Clash p) := by
  obtain ⟨p, hlinear, hlinks, hrows⟩ := exists_labelRows hc henough hexports himports h
  refine ⟨p, hlinear, hrows, ?_⟩
  rw [hrows]
  exact (Checked.valid_of_ofSource? hc).nodup_all_iff hlinks.labels

/-! ## A sample program -/

/-- A program whose functions have no attributes. -/
def Checked.unattributed (c : Checked) : Bool :=
  c.resolutions.functions.all fun id => (c.resolutions.function? id).all fun decl => decl.attrs.isEmpty

theorem Checked.Valid.of_unattributed {c : Checked} (hc : c.Valid) (h : c.unattributed = true) :
    c.Unexported ∧ ∀ symbol, ¬c.Imports symbol ∧ ¬c.Exports symbol := by
  have hattrs : ∀ {id decl}, c.resolutions.function? id = some decl → decl.attrs = [] := by
    intro id decl hdecl
    have hall := List.all_eq_true.1 h id (hc.functionChecked hdecl).1
    rw [hdecl] at hall
    exact List.isEmpty_iff.1 hall
  have hlinkage : ∀ {id decl linkage}, c.resolutions.function? id = some decl →
      decl.linkage = .ok linkage → linkage = {} := by
    intro id decl linkage hdecl hlinkage
    rw [FnDecl.linkage, hattrs hdecl] at hlinkage
    exact (Except.ok.inj hlinkage).symm
  refine ⟨?_, fun symbol => ⟨?_, ?_⟩⟩
  · rintro id decl hdecl ⟨attr, hattr, -⟩
    rw [hattrs hdecl] at hattr
    cases hattr
  · rintro ⟨id, decl, linkage, hdecl, hok, hforeign⟩
    cases hlinkage hdecl hok
    cases hforeign
  · rintro ⟨id, decl, linkage, hdecl, hok, hexported⟩
    cases hlinkage hdecl hok
    cases hexported

/-- A function whose name is that of the function within it, with its number. -/
def numberedName : List Char := "fn b_0() { fn b() {} }".toList

theorem numberedName_passes : ((Checked.ofSource? numberedName).toOption.any fun c =>
    c.EnoughIds && c.unattributed && (c.linear true true).toOption.any fun p =>
      (Assembly.programLines p .none).toOption.isSome &&
      p.functions.map Linear.Function.label = ["sbc__b_0", "sbc__b_0"]) = true := by
  decide +kernel

theorem numberedName_compiles : ∃ c text before after, Checked.ofSource? numberedName = .ok c ∧
    c.EnoughIds ∧ c.Unexported ∧ (∀ symbol, ¬c.Imports symbol) ∧
    compile {} numberedName = .ok text ∧
    Assembly.labelRows text = before ++ ["sbc__b_0", "sbc__b_0"] ++ after := by
  obtain ⟨c, hc, htest⟩ := exists_ok_of_any numberedName_passes
  simp only [Bool.and_eq_true, Option.any_eq_true, decide_eq_true_eq] at htest
  obtain ⟨⟨henough, hunattributed⟩, p, hp, hlines, hlabels⟩ := htest
  obtain ⟨lines, hlines⟩ := Option.isSome_iff_exists.1 hlines
  have hp := eq_ok_of_toOption hp
  have htext := compile_eq_render hc hp (eq_ok_of_toOption hlines)
  obtain ⟨hexports, hforeign⟩ := (Checked.valid_of_ofSource? hc).of_unattributed hunattributed
  have himports : ∀ symbol, ¬c.Imports symbol := fun symbol => (hforeign symbol).1
  obtain ⟨p', hp', -, hrows⟩ := exists_labelRows hc henough hexports
    (fun symbol h => absurd h (himports symbol)) htext
  cases hp.symm.trans hp'
  rw [hlabels] at hrows
  exact ⟨c, _, _, _, hc, henough, hexports, himports, htext, hrows⟩

theorem not_nodup_of_twice {before after : List String} {symbol : String} :
    ¬(before ++ [symbol, symbol] ++ after).Nodup := by
  intro h
  have hboth := (List.nodup_append.1 (List.nodup_append.1 h).1).2.1
  simp at hboth

/-- The sample is compiled to a text that defines a symbol twice. -/
theorem numberedName_symbols : ∃ c text, Checked.ofSource? numberedName = .ok c ∧ c.EnoughIds ∧
    c.Unexported ∧ (∀ symbol, ¬c.Imports symbol) ∧ compile {} numberedName = .ok text ∧
    ¬(Assembly.labelRows text).Nodup := by
  obtain ⟨c, text, before, after, hc, henough, hexports, himports, htext, hrows⟩ :=
    numberedName_compiles
  exact ⟨c, text, hc, henough, hexports, himports, htext, hrows ▸ not_nodup_of_twice⟩

/-- In the sample, names clash. -/
theorem compile_symbols_numberedName : ∃ c p, Checked.ofSource? numberedName = .ok c ∧
    c.linear true true = .ok p ∧ c.Clash p := by
  obtain ⟨c, text, before, after, hc, henough, hexports, himports, htext, hrows⟩ :=
    numberedName_compiles
  obtain ⟨p, hp, -, hnodup⟩ := compile_symbols hc henough hexports
    (fun symbol h => absurd h (himports symbol)) htext
  refine ⟨c, p, hc, hp, by_contra fun hclash => ?_⟩
  exact not_nodup_of_twice (hrows ▸ hnodup.2 hclash)

end WordLang
