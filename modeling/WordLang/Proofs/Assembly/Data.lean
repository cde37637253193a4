import WordLang.Proofs.Assembly.Rows
import WordLang.Proofs.Compilation
import WordLang.Proofs.Linear.Strings

/-!
# String constants of assembly text

The data section has one entry for each string constant: the number of its bytes, and the bytes as a
literal between backquotes. An assembler reads the escapes of such a literal; what it reads are the
bytes of the constant.

## Main definitions

* `Assembly.DataEntry`: the entry of a string constant

## Main results

* `compile_strings`: pushed texts, string constants and the data section of a compiled program
-/

namespace WordLang

namespace Assembly

/-! ## Entries -/

/-- The beginning of the entry of a string constant, up to the number of its bytes. -/
def entryHead (id : StringId) (size : Nat) : String :=
  "    align 8\n" ++ stringSymbol id ++ ":\n" ++ "    dq " ++ toString size ++ "\n"

/-- The entry of a string constant: the number of its bytes, and unless there are none a literal on
one line that stands for them. -/
inductive DataEntry (id : StringId) (text : String) : String → Prop where
  | empty : text = "" → DataEntry id text (entryHead id 0)
  | literal (operand : List Char) : text ≠ "" →
    (∀ c ∈ operand, 0x20 ≤ c.toNat ∧ c.toNat ≠ 0x7f) →
    (decode? operand).map List.toByteArray = some text.toUTF8 →
    DataEntry id text
      (entryHead id text.toUTF8.size ++ "    db " ++ String.ofList operand ++ "\n")

theorem byteLength_eq_size (text : String) : byteLength text.toList = text.toUTF8.size := by
  have hgeneral : ∀ cs : List Char, byteLength cs = (cs.flatMap String.utf8EncodeChar).length := by
    intro cs
    induction cs with
    | nil => rfl
    | cons c cs ih =>
      rw [byteLength_cons, ih, List.flatMap_cons, List.length_append, String.length_utf8EncodeChar]
  rw [hgeneral, ← List.size_toByteArray]
  exact congrArg ByteArray.size String.utf8Encode_toList

theorem render_append (lines rest : List Line) : render (lines ++ rest) = render lines ++ render rest := by
  simp [render]

theorem render_cons (line : Line) (rest : List Line) :
    render (line :: rest) = line.render ++ render rest := by
  simp [render]

theorem render_flatMap {α : Type} (xs : List α) (f : α → List Line) :
    render (xs.flatMap f) = String.join (xs.map fun x => render (f x)) := by
  induction xs with
  | nil => rfl
  | cons x xs ih => rw [List.flatMap_cons, render_append, ih, List.map_cons, String.join_cons]

theorem dataEntry_stringLines (id : StringId) (text : String) :
    DataEntry id text (render (stringLines id text)) := by
  have hhead : ∀ rest, render ([.indented "align 8", .label (stringSymbol id),
      .quad (byteLength text.toList)] ++ rest) = entryHead id text.toUTF8.size ++ render rest := by
    intro rest
    have halign : Line.render (.indented "align 8") = "    align 8\n" := rfl
    have hcolon : ∀ rest : String, ":" ++ ("\n" ++ rest) = ":\n" ++ rest := fun rest =>
      (String.append_assoc ..).symm
    rw [byteLength_eq_size, List.cons_append, render_cons, halign]
    delta entryHead
    simp only [List.cons_append, List.nil_append, render_cons, Line.render, Line.row, hcolon,
      String.append_assoc]
  unfold stringLines
  rw [hhead]
  split
  · next hempty =>
    obtain rfl := String.isEmpty_iff.1 hempty
    have hentry : DataEntry id "" (entryHead id 0) := .empty rfl
    simpa [render] using hentry
  · next hne =>
    have hdecode : (decode? (literal text.toList)).map List.toByteArray = some text.toUTF8 := by
      rw [decode?_literal]
      exact congrArg some String.utf8Encode_toList
    have hentry : DataEntry id text (entryHead id text.toUTF8.size ++ "    db " ++
        String.ofList (literal text.toList) ++ "\n") :=
      .literal _ (fun h => hne (String.isEmpty_iff.2 h)) (literal_printable _) hdecode
    simpa [render, Line.render, Line.row, String.append_assoc] using hentry

end Assembly

/-! ## Programs -/

theorem Table.insertEntry_of_lt {β : Type} {k : Nat} (v : β) {es : List (Nat × β)}
    (h : ∀ e ∈ es, e.1 < k) : insertEntry k v es = es ++ [(k, v)] := by
  induction es with
  | nil => rfl
  | cons e es ih =>
    have hlt := h e List.mem_cons_self
    rw [insertEntry, if_neg (by omega), if_neg (by omega),
      ih fun e he => h e (List.mem_cons_of_mem _ he)]
    rfl

theorem Table.entries_ofList {β : Type} {es : List (Nat × β)}
    (h : (es.map Prod.fst).Pairwise (· < ·)) : (Table.ofList es).entries = es := by
  induction es using List.reverseRecOn with
  | nil => rfl
  | append_singleton es e ih =>
    rw [List.map_append, List.pairwise_append] at h
    rw [Table.ofList_append_singleton]
    show insertEntry e.1 e.2 (Table.ofList es).entries = _
    rw [ih h.1, insertEntry_of_lt]
    exact fun d hd => h.2.2 d.1 (List.mem_map_of_mem hd) e.1 (by simp)

theorem Table.entries_ofList_zipIdx (texts : List String) :
    (Table.ofList (texts.zipIdx.map fun e => (e.2, e.1))).entries =
      texts.zipIdx.map fun e => (e.2, e.1) := by
  refine Table.entries_ofList ?_
  have hkeys : (texts.zipIdx.map fun e => (e.2, e.1)).map Prod.fst = List.range texts.length := by
    simp [List.map_map, Function.comp_def, List.zipIdx_map_snd, List.range_eq_range']
  rw [hkeys]
  exact List.pairwise_lt_range

theorem Flow.decl_of_buildFunction {r : Resolutions} {id : StmtId} {a a' : Answers}
    {f : Flow.Function} (h : (Flow.buildFunction r id).run a = .ok f a') : f.decl = id := by
  have hensures : Ensures (Flow.buildFunction r id) a (fun f _ => f.decl = id) fun _ => True := by
    unfold Flow.buildFunction
    split
    · exact .throw trivial
    · split
      · exact .throw trivial
      · refine .bind ((Ensures.trivial _ a).mono (fun ty a₁ _ => ?_) fun _ h => h)
        split
        · exact .bind ((Ensures.trivial _ a₁).mono (fun _ _ _ => .pure rfl) fun _ h => h)
        · exact .throw trivial
  rwa [Ensures, show Flow.buildFunction r id a = _ from h] at hensures

theorem decls_graphsFrom_sublist {r : Resolutions} {simplify : Bool} {ids : List StmtId} {a : Answers}
    {graphs : List Flow.Function} {failure : Option Failure}
    (h : graphsFrom r simplify ids a = (graphs, failure)) :
    (graphs.map Flow.Function.decl).Sublist ids := by
  induction ids generalizing a graphs failure with
  | nil =>
    cases h
    exact .slnil
  | cons id ids ih =>
    rw [graphsFrom] at h
    split at h
    · split at h
      · cases h
        exact List.nil_sublist _
      · next graph a' hbuild =>
        cases h
        have hdecl : (if simplify then graph.simplify else graph).decl = id := by
          rw [← Flow.decl_of_buildFunction hbuild]
          split
          · exact graph.decl_simplify
          · rfl
        rw [List.map_cons, hdecl]
        exact (ih rfl).cons_cons id
    · exact (ih h).cons id

theorem filterMap_eq_of_decls {find : StmtId → Option Flow.Function} {graphs : List Flow.Function}
    {ids : List StmtId} (hids : ids.Nodup) (h : (graphs.map Flow.Function.decl).Sublist ids)
    (hsome : ∀ g ∈ graphs, find g.decl = some g)
    (hnone : ∀ id ∈ ids, id ∉ graphs.map Flow.Function.decl → find id = none) :
    ids.filterMap find = graphs := by
  induction ids generalizing graphs with
  | nil => exact (List.map_eq_nil_iff.1 (List.sublist_nil.1 h)).symm
  | cons id ids ih =>
    obtain ⟨hnot, hrest⟩ := List.nodup_cons.1 hids
    rcases List.sublist_cons_iff.1 h with h | ⟨decls, heq, h⟩
    · rw [List.filterMap_cons_none (hnone id List.mem_cons_self fun hmem => hnot (h.subset hmem))]
      exact ih hrest h hsome fun id' hid' => hnone id' (List.mem_cons_of_mem _ hid')
    · obtain ⟨g, graphs, rfl, rfl, rfl⟩ := List.map_eq_cons_iff.1 heq
      rw [List.filterMap_cons_some (hsome g List.mem_cons_self)]
      refine congrArg (g :: ·) (ih hrest h (fun g' hg' => hsome g' (List.mem_cons_of_mem _ hg')) ?_)
      intro id' hid' hnot'
      refine hnone id' (List.mem_cons_of_mem _ hid') fun hmem => ?_
      rcases List.mem_cons.1 hmem with rfl | hmem
      · exact hnot hid'
      · exact hnot' hmem

theorem filterMap_find?_decl {graphs : List Flow.Function} {ids : List StmtId} (hids : ids.Nodup)
    (h : (graphs.map Flow.Function.decl).Sublist ids) :
    (ids.filterMap fun id => graphs.reverse.find? fun g => g.decl = id) = graphs := by
  refine filterMap_eq_of_decls hids h (fun g hmem => ?_) fun id _ hnot => ?_
  · cases hg : graphs.reverse.find? fun g' => g'.decl = g.decl with
    | none => simpa using List.find?_eq_none.1 hg g (List.mem_reverse.2 hmem)
    | some g' =>
      have hmem' := List.mem_reverse.1 (List.mem_of_find?_eq_some hg)
      have hdecl : g'.decl = g.decl := by simpa using List.find?_some hg
      rw [List.inj_on_of_nodup_map (hids.sublist h) hmem' hmem hdecl]
  · refine List.find?_eq_none.2 fun g hg heq => hnot ?_
    rw [← of_decide_eq_true heq]
    exact List.mem_map_of_mem (List.mem_reverse.1 hg)

theorem Checked.exists_strings {c : Checked} (hnodup : c.resolutions.functions.Nodup)
    {simplify optimize : Bool} {p : Linear.Program} (h : c.linear simplify optimize = .ok p) :
    ∃ graphs constants, c.graphs simplify = (graphs, none) ∧ c.linearOf optimize graphs = .ok p ∧
      FirstUses (graphs.flatMap Flow.Function.texts) constants ∧
      (Linear.bodies p.functions).map Linear.Body.strings =
        graphs.map (fun g => g.texts.map constants.idxOf) ∧
      p.strings.entries = constants.zipIdx.map fun e => (e.2, e.1) := by
  rw [linear] at h
  split at h
  · next graphs hgraphs =>
    have hlinearOf := h
    obtain ⟨q, hq, h⟩ := exists_of_bind_eq_ok h
    rw [Linear.lowerProgram, EStateM.run] at hq
    have hinterned := Linear.lowerFunctions_interns c.module c.resolutions graphs
      c.resolutions.functions ⟨0, []⟩
    rw [Ensures, filterMap_find?_decl hnodup (decls_graphsFrom_sublist hgraphs)] at hinterned
    split at hq <;> rename_i hrun <;> rw [hrun] at hinterned <;> cases hq
    next functions σ =>
    cases h
    refine ⟨graphs, σ.strings, hgraphs, hlinearOf, ?_, ?_, ?_⟩
    · rw [hinterned.known_eq]
      exact firstUses_internAll _
    · refine Eq.trans ?_ hinterned.bodies_eq
      split
      · exact Linear.map_strings_bodies_optimize _
      · rfl
    · refine Eq.trans ?_ (Table.entries_ofList_zipIdx σ.strings)
      split <;> rfl
  · cases h

/-- The texts that a compiled program pushes become string constants, each text one, numbered in the
order of their first use. The code refers to a text by its number, and the data section holds one
entry for each constant. -/
theorem compile_strings {options : CompileOptions} {source : List Char} {text : String}
    (h : compile options source = .ok text) :
    ∃ (c : Checked) (graphs : List Flow.Function) (p : Linear.Program) (constants : List String),
      Checked.ofSource? source = .ok c ∧ c.graphs options.optimize = (graphs, none) ∧
      c.linearOf options.optimize graphs = .ok p ∧
      FirstUses (graphs.flatMap Flow.Function.texts) constants ∧
      (∀ s ∈ graphs.flatMap Flow.Function.texts, ∀ t ∈ graphs.flatMap Flow.Function.texts,
        constants.idxOf s = constants.idxOf t ↔ s = t) ∧
      (Linear.bodies p.functions).map Linear.Body.strings =
        graphs.map (fun g => g.texts.map constants.idxOf) ∧
      ∃ (entries : List String) (code : String),
        text = "bits 64\n" ++ "section .data\n" ++ String.join entries ++ "section .text\n" ++ code ∧
        List.Forall₂ (fun e entry => Assembly.DataEntry e.2 e.1 entry) constants.zipIdx entries := by
  rw [compile_eq] at h
  obtain ⟨c, hc, h⟩ := exists_of_bind_eq_ok h
  obtain ⟨p, hp, h⟩ := exists_of_bind_eq_ok h
  obtain ⟨graphs, constants, hgraphs, hlinearOf, huses, hbodies, hentries⟩ :=
    Checked.exists_strings (Checked.valid_of_ofSource? hc).resolved.nodup hp
  refine ⟨c, graphs, p, constants, hc, hgraphs, hlinearOf, huses, ?_, hbodies, ?_⟩
  · intro s hs t _
    exact List.idxOf_inj ((huses.mem s).2 hs)
  · obtain ⟨lines, hlines, htext⟩ := exists_of_bind_eq_ok h
    cases htext
    obtain ⟨functions, -, hlines⟩ := exists_of_bind_eq_ok hlines
    cases hlines
    refine ⟨constants.zipIdx.map fun e => Assembly.render (Assembly.stringLines e.2 e.1),
      Assembly.render (functions ++ Assembly.routines), ?_, ?_⟩
    · have hdata : Assembly.render (p.strings.entries.flatMap fun e => Assembly.stringLines e.1 e.2) =
          String.join (constants.zipIdx.map fun e =>
            Assembly.render (Assembly.stringLines e.2 e.1)) := by
        rw [hentries, List.flatMap_map, Assembly.render_flatMap]
      simp only [List.append_assoc, List.cons_append, List.nil_append, Assembly.render_append,
        Assembly.render_cons, hdata, Assembly.Line.render, String.append_assoc]
      rfl
    · rw [List.forall₂_map_right_iff]
      exact List.forall₂_same.2 fun e _ => Assembly.dataEntry_stringLines e.2 e.1

/-- A function that pushes a text twice, one with characters that literals escape, and an empty one. -/
def repeatedTexts : List Char := "fn f() \x7b \"b\"; \"a`1\\n\"; \"b\"; \"\"; \x7d".toList

/-- What is to be known about the sample, as a test. -/
def repeatedTextsTest (c : Checked) : Bool :=
  (c.graphs true).1.flatMap Flow.Function.texts == ["b", "a`1\n", "b", ""]

theorem repeatedTexts_passes :
    ((Checked.ofSource? repeatedTexts).toOption.any repeatedTextsTest) = true ∧
      (compile {} repeatedTexts).toOption.isSome = true := by
  decide +kernel

/-- In the sample, the text that is pushed twice is one of three constants. -/
theorem compile_strings_repeatedTexts : ∃ text, compile {} repeatedTexts = .ok text ∧
    ∃ (p : Linear.Program) (constants : List String),
      FirstUses ["b", "a`1\n", "b", ""] constants ∧
      (Linear.bodies p.functions).flatMap Linear.Body.strings =
        ["b", "a`1\n", "b", ""].map constants.idxOf := by
  obtain ⟨hpasses, hcompiles⟩ := repeatedTexts_passes
  obtain ⟨text, htext⟩ := Option.isSome_iff_exists.1 hcompiles
  refine ⟨text, eq_ok_of_toOption htext, ?_⟩
  obtain ⟨c, graphs, p, constants, hc, hgraphs, -, huses, -, hbodies, -⟩ :=
    compile_strings (eq_ok_of_toOption htext)
  obtain ⟨c', hc', htest⟩ := exists_ok_of_any hpasses
  cases hc.symm.trans hc'
  have htexts : graphs.flatMap Flow.Function.texts = ["b", "a`1\n", "b", ""] := by
    rw [repeatedTextsTest, show c.graphs true = _ from hgraphs] at htest
    exact beq_iff_eq.1 htest
  refine ⟨p, constants, htexts ▸ huses, ?_⟩
  rw [List.flatMap_def, hbodies, ← htexts, List.map_flatMap, List.flatMap_def]

end WordLang
