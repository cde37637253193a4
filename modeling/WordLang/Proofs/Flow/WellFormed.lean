import WordLang.Proofs.Checked

/-!
# Well-formed graphs

The graph of every checked function is well formed, and however often it is simplified it stays so.
Of the heights of the operand stack only the kinds of values are known while a graph is built; a
block whose statements have kinds leaves the stack at the height at which its terminator takes it.
After simplification no two blocks can be fused any more.

## Main definitions

* `Flow.heightAfter?`: the height of the operand stack after statements
* `Flow.Function.WellFormed`: graphs with sound edges, cells and stacks

## Main results

* `Flow.Function.WellFormed.simplify`: simplified graphs are well formed
* `Flow.Function.Closed.not_fusible_simplify`: no two blocks of a simplified graph can be fused
* `Checked.wellFormed_graphs`: the graphs of checked functions, however often they are simplified
-/

namespace WordLang

namespace Flow

/-- The storage cell that a statement loads or stores. -/
def Statement.cell? : Statement → Option LocalId
  | .load cell => some cell
  | .store cell => some cell
  | _ => none

/-- The height of the operand stack after a statement, if the stack is high enough before it. -/
def Statement.heightAfter? : Statement → Nat → Option Nat
  | .push _, height => some (height + 1)
  | .load _, height => some (height + 1)
  | .pop, height + 1 => some height
  | .store _, height + 1 => some height
  | .call arguments, height => if arguments < height then some (height - arguments) else none
  | .binary _, height + 2 => some (height + 1)
  | _, _ => none

/-- The height of the operand stack after statements, if it is high enough for each of them. -/
def heightAfter? : List Statement → Nat → Option Nat
  | [], height => some height
  | s :: ss, height => (s.heightAfter? height).bind (heightAfter? ss)

theorem heightAfter?_append {ss ss' : List Statement} {height : Nat} :
    heightAfter? (ss ++ ss') height = (heightAfter? ss height).bind (heightAfter? ss') := by
  induction ss generalizing height with
  | nil => rfl
  | cons s ss ih =>
    rw [List.cons_append, heightAfter?, heightAfter?, Option.bind_assoc]
    exact congrArg _ (funext fun _ => ih)

/-- The height of the operand stack that a terminator takes: a branch pops what it tests. -/
def Terminator.height : Terminator → Nat
  | .branch _ _ => 1
  | _ => 0

/-- A well-formed graph. -/
structure Function.WellFormed (f : Function) : Prop where
  /-- Blocks are listed by identifiers, and no two have one identifier. -/
  ids : (f.blocks.map Block.id).Pairwise (· < ·)
  entry : f.entry ∈ f.blocks.map Block.id ∧ ∀ b ∈ f.blocks, f.entry ≤ b.id
  targets : ∀ b ∈ f.blocks, ∀ s ∈ b.terminator.successors, s ∈ f.blocks.map Block.id
  finished : ∀ b ∈ f.blocks, b.terminator ≠ .unset ∧ b.terminator ≠ .error
  branches : ∀ b ∈ f.blocks, ∀ s, b.terminator ≠ .branch s s
  /-- The exit ends the activation, as long as it is a block, and no other block does. -/
  returns : ∀ b ∈ f.blocks, b.terminator = .return ↔ b.id = f.exit
  localIds : f.locals.map Local.id = List.range f.locals.length
  cells : ∀ b ∈ f.blocks, ∀ s ∈ b.statements, ∀ cell, s.cell? = some cell → cell < f.locals.length
  /-- Blocks lead from an empty operand stack to what their terminators take. -/
  heights : ∀ b ∈ f.blocks, heightAfter? b.statements 0 = some b.terminator.height

/-! ## Heights and kinds -/

section

variable {r : Resolutions} {locals : List Local}

/-- A statement that has kinds finds its operands. -/
theorem Statement.Kinded.heightAfter? {s : Statement} {ks ks' : List Kind}
    (h : s.Kinded r locals ks ks') : s.heightAfter? ks.length = some ks'.length := by
  cases h with
  | int | string | function | pop | load | store | binary => rfl
  | @call id sig ks hsig =>
    have hlength : (Kind.code id :: (sig.params.reverse ++ ks)).length =
        sig.params.length + (ks.length + 1) := by
      simp only [List.length_cons, List.length_append, List.length_reverse]
      omega
    rw [hlength, Statement.heightAfter?, if_pos (by omega), Nat.add_sub_cancel_left,
      List.length_cons]

theorem StatementsKinded.heightAfter? {ss : List Statement} {ks ks' : List Kind}
    (h : StatementsKinded r locals ss ks ks') : heightAfter? ss ks.length = some ks'.length := by
  induction h with
  | nil => rfl
  | cons hs _ ih =>
    rw [Flow.heightAfter?, hs.heightAfter?, Option.bind_some]
    exact ih

theorem StatementsKinded.cell_lt {ss : List Statement} {ks ks' : List Kind}
    (h : StatementsKinded r locals ss ks ks') {s : Statement} (hs : s ∈ ss) {cell : LocalId}
    (hcell : s.cell? = some cell) : cell < locals.length := by
  induction h with
  | nil => cases hs
  | cons hfirst _ ih =>
    rcases List.mem_cons.1 hs with rfl | hs
    · cases hfirst <;> cases hcell
      all_goals
        rename_i hkind
        obtain ⟨l, hl, -⟩ := hkind
        exact (List.getElem?_eq_some_iff.1 hl).1
    · exact ih hs

theorem Terminator.Takes.length_eq {t : Terminator} {ks : List Kind} (h : t.Takes ks) :
    ks.length = t.height := by
  cases t <;> rw [Terminator.Takes.eq_def] at h <;> rw [h] <;> rfl

end

/-! ## Graphs of checked functions -/

/-- The graph of a function whose blocks have kinds is well formed. -/
theorem GraphOf.wellFormed {r : Resolutions} {id : StmtId} {decl : FnDecl} {body : WordLang.Block}
    {f : Function} (h : GraphOf r id decl body f) {s : Signature} (hkinded : f.Kinded r s) :
    f.WellFormed where
  ids := h.ids ▸ List.pairwise_lt_range
  entry := by
    refine ⟨h.lowerable.tidy.closed.entry, fun b _ => ?_⟩
    have hentry := h.lowerable.tidy.entry
    rw [h.ids, List.head?_range] at hentry
    split at hentry
    · cases hentry
    · rw [← Option.some.inj hentry]
      exact Nat.zero_le _
  targets := h.lowerable.tidy.targets
  finished := h.lowerable.tidy.finished
  branches := h.lowerable.tidy.branches
  returns := by
    intro b hb
    refine ⟨h.returns.2 b hb, fun hid => ?_⟩
    have hexit := h.exit
    rw [← h.returns.1, ← hid, Function.code, findBlock?_eq_some h.lowerable.tidy.ids hb] at hexit
    exact congrArg Prod.snd (Option.some.inj hexit)
  localIds := h.localIds
  cells := by
    intro b hb s hs cell hcell
    obtain ⟨ks, hss, -⟩ := hkinded.blocks b hb
    exact hss.cell_lt hs hcell
  heights := by
    intro b hb
    obtain ⟨ks, hss, hks⟩ := hkinded.blocks b hb
    rw [← hks.length_eq]
    exact hss.heightAfter?

/-! ## Simplified graphs -/

namespace Function

variable {f : Function} {first second : Block}

namespace WellFormed

theorem closed (h : f.WellFormed) : f.Closed :=
  ⟨h.ids.imp Nat.ne_of_lt, h.entry.1, h.targets, h.branches⟩

theorem dropUnreferenced (h : f.WellFormed) : f.dropUnreferenced.WellFormed :=
  { h.closed.dropUnreferenced with
    ids := h.ids.sublist (List.filter_sublist.map _)
    entry := ⟨h.closed.dropUnreferenced.entry,
      fun b hb => h.entry.2 b (mem_dropUnreferenced.1 hb).1⟩
    finished := fun b hb => h.finished b (mem_dropUnreferenced.1 hb).1
    returns := fun b hb => h.returns b (mem_dropUnreferenced.1 hb).1
    localIds := h.localIds
    cells := fun b hb => h.cells b (mem_dropUnreferenced.1 hb).1
    heights := fun b hb => h.heights b (mem_dropUnreferenced.1 hb).1 }

theorem returns_fuse (h : f.WellFormed) (hf : f.Fusible first second) {b : Block}
    (hb : b ∈ f.blocks) (hne : b.id ≠ second.id) :
    (b.fused first second).terminator = .return ↔ b.id = (f.fuse first second).exit := by
  have hfirst : first.id ≠ f.exit := by
    intro hid
    have hterm := (h.returns first hf.first_mem).2 hid
    rw [hf.edge] at hterm
    cases hterm
  have hsecond := h.returns second hf.second_mem
  rcases h.closed.fused_cases hf hb with ⟨rfl, heq⟩ | ⟨hnot, heq⟩
  · rw [heq]
    show second.terminator = .return ↔ b.id = if f.exit = second.id then b.id else f.exit
    split
    · next hexit => simp [hsecond, hexit]
    · next hexit => simp [hsecond, Ne.symm hexit, hfirst]
  · rw [heq, h.returns b hb]
    show b.id = f.exit ↔ b.id = if f.exit = second.id then first.id else f.exit
    split
    · next hexit =>
      -- Then the block is neither the exit nor the block that absorbs it.
      refine iff_of_false (fun hid => hne (hid.trans hexit)) fun hid => hnot ?_
      have hfind := findBlock?_eq_some h.closed.ids hb
      rw [hid, findBlock?_eq_some h.closed.ids hf.first_mem] at hfind
      cases hfind
      rw [hf.edge]
      exact List.mem_singleton_self _
    · rfl

theorem fuse (h : f.WellFormed) (hf : f.Fusible first second) : (f.fuse first second).WellFormed :=
  { h.closed.fuse hf with
    ids := by
      rw [ids_fuse]
      exact h.ids.sublist (List.filter_sublist.map _)
    entry := by
      refine ⟨(h.closed.fuse hf).entry, fun c hc => ?_⟩
      obtain ⟨b, hb, -, rfl⟩ := of_mem_fuse hc
      rw [Block.id_fused]
      exact h.entry.2 b hb
    finished := h.closed.forall_mem_fuse hf h.finished (h.finished second hf.second_mem)
    returns := by
      intro c hc
      obtain ⟨b, hb, hne, rfl⟩ := of_mem_fuse hc
      rw [Block.id_fused]
      exact h.returns_fuse hf hb hne
    localIds := h.localIds
    cells := h.closed.forall_mem_fuse hf h.cells (List.forall_mem_append.2
      ⟨h.cells first hf.first_mem, h.cells second hf.second_mem⟩)
    heights := by
      refine h.closed.forall_mem_fuse hf h.heights ?_
      -- The first block leaves an empty stack to the one it absorbs.
      have hempty := h.heights first hf.first_mem
      rw [hf.edge] at hempty
      show heightAfter? (first.statements ++ second.statements) 0 = some second.terminator.height
      rw [heightAfter?_append, hempty]
      exact h.heights second hf.second_mem }

theorem simplify (h : f.WellFormed) : f.simplify.WellFormed :=
  (Closed.simplify_induction (Q := WellFormed) (fun _ => dropUnreferenced)
    (fun _ hf hg => hg.fuse hf) h.closed h).2

theorem iterate_simplify (h : f.WellFormed) (n : Nat) : (Function.simplify^[n] f).WellFormed := by
  induction n with
  | zero => exact h
  | succ n ih =>
    rw [Function.iterate_succ_apply']
    exact ih.simplify

end WellFormed

/-! ## Nothing is left to fuse -/

theorem edgeCount_eq_one {blocks : List Block} (hids : (blocks.map Block.id).Nodup) {b : Block}
    (hb : b ∈ blocks) {s : BlockId} (hs : b.terminator.successors = [s])
    (honly : ∀ c ∈ blocks, s ∈ c.terminator.successors → c = b) : edgeCount blocks s = 1 := by
  obtain ⟨before, after, rfl⟩ := List.append_of_mem hb
  have hother : ∀ c ∈ before ++ after, s ∉ c.terminator.successors := by
    intro c hc hmem
    have heq := honly c (by simp only [List.mem_append, List.mem_cons] at hc ⊢; tauto) hmem
    rw [List.map_append, List.map_cons, List.nodup_middle, List.nodup_cons, ← List.map_append] at hids
    exact hids.1 (heq ▸ List.mem_map_of_mem hc)
  have hzero : ∀ cs : List Block, (∀ c ∈ cs, s ∉ c.terminator.successors) →
      (cs.flatMap fun c => c.terminator.successors).count s = 0 := by
    intro cs hcs
    refine List.count_eq_zero.2 fun hmem => ?_
    obtain ⟨c, hc, hsc⟩ := List.mem_flatMap.1 hmem
    exact hcs c hc hsc
  simp only [edgeCount, List.flatMap_append, List.flatMap_cons, List.count_append, hs,
    hzero before fun c hc => hother c (List.mem_append_left _ hc),
    hzero after fun c hc => hother c (List.mem_append_right _ hc), List.count_singleton_self]

/-- Blocks that can be fused are found. -/
theorem Closed.not_fusible (h : f.Closed) (hnone : f.fusible? = none) : ¬f.Fusible first second := by
  intro hf
  have hsucc : first.terminator.successors = [second.id] := by rw [hf.edge]; rfl
  have hcount := edgeCount_eq_one h.ids hf.first_mem hsucc hf.only
  have hfirst := List.findSome?_eq_none_iff.1 hnone first hf.first_mem
  simp only [fusibleSuccessor?, hsucc] at hfirst
  rw [if_pos ⟨hf.ne, hf.ne_entry, hcount⟩] at hfirst
  cases hfirst

theorem Closed.fusible?_fuseAll (h : f.Closed) : f.fuseAll.fusible? = none := by
  fun_induction fuseAll f with
  | case1 f hnone => exact hnone
  | case2 f i j hij hnone =>
    -- The block that is to be absorbed exists, because an edge leads to it.
    obtain ⟨b, hb, -, hsucc, -⟩ := exists_of_fusible? hij
    obtain ⟨c, -, -, hfind⟩ := h.find_target hb (s := j) (by simp [hsucc])
    rw [fuse?, hfind] at hnone
    cases hnone
  | case3 f i j hij g hg ih =>
    obtain ⟨first, second, hf, rfl⟩ := h.fuse_of_fusible? hij hg
    exact ih (h.fuse hf)

theorem Closed.fusible?_simplifyRounds (h : f.Closed) (weight n : Nat) (seen : List Nat) :
    (simplifyRounds weight (n + 1) seen f).fusible? = none := by
  induction n generalizing f seen with
  | zero =>
    have hround : f.simplifyRound.fusible? = none := h.dropUnreferenced.fusible?_fuseAll
    simp only [simplifyRounds, ite_self]
    exact hround
  | succ n ih =>
    rw [simplifyRounds]
    split
    · exact h.dropUnreferenced.fusible?_fuseAll
    · exact ih (fuseAll_induction (Q := fun _ => True) (fun _ _ _ => trivial) h.dropUnreferenced
        trivial).1 _

theorem Closed.not_fusible_simplify (h : f.Closed) : ¬f.simplify.Fusible first second := by
  have hclosed : f.simplify.Closed := (Closed.simplify_induction (Q := fun _ => True)
    (fun _ _ => trivial) (fun _ _ _ => trivial) h trivial).1
  exact hclosed.not_fusible (h.fusible?_simplifyRounds ..)

end Function

end Flow

/-! ## Checked programs -/

namespace Checked

/-- The graph of a checked function with a body is built, it is well formed however often it is
simplified, and after simplification no two blocks can be fused. -/
theorem wellFormed_graphs {source : List Char} {c : Checked} (h : ofSource? source = .ok c)
    (henough : c.EnoughIds) {id : StmtId} {decl : FnDecl} (hdecl : c.resolutions.function? id = some decl)
    (hbody : decl.body.isSome) :
    ∃ f, (Flow.buildFunction c.resolutions id).run c.answers = .ok f c.answers ∧
      ∀ n, (Flow.Function.simplify^[n] f).WellFormed ∧
        (0 < n → ∀ first second, ¬(Flow.Function.simplify^[n] f).Fusible first second) := by
  have hc := valid_of_ofSource? h
  obtain ⟨body, hbody⟩ := Option.isSome_iff_exists.1 hbody
  obtain ⟨f, hf, -, hgraph⟩ := hc.graph?_of_body henough hdecl hbody
  obtain ⟨-, params, result, hchecked⟩ := hc.functionChecked hdecl
  have hformed := hgraph.wellFormed (hgraph.kinded hchecked.type)
  refine ⟨f, hf, fun n => ⟨hformed.iterate_simplify n, fun hn first second => ?_⟩⟩
  obtain ⟨n, rfl⟩ : ∃ m, n = m + 1 := ⟨n - 1, by omega⟩
  rw [Function.iterate_succ_apply']
  exact (hformed.iterate_simplify n).closed.not_fusible_simplify

/-- A function with a loop that is left in two ways, and with statements that are never reached. -/
def leftLoop : List Char :=
  "fn f(n: int) -> int { loop { if n > 9 { return n; } else { break; } n = 1; } return 0; }".toList

theorem leftLoop_passes : (ofSource? leftLoop).toOption.any fun c => c.EnoughIds &&
    (c.resolutions.function? 6).any fun decl => decl.body.isSome := by
  decide +kernel

/-- The graph of the function with the loop is well formed, before and after simplification. -/
theorem wellFormed_graphs_leftLoop : ∃ c decl f, ofSource? leftLoop = .ok c ∧
    c.resolutions.function? 6 = some decl ∧ decl.body.isSome ∧
    (Flow.buildFunction c.resolutions 6).run c.answers = .ok f c.answers ∧ f.WellFormed ∧
    f.simplify.WellFormed ∧ ∀ first second, ¬f.simplify.Fusible first second := by
  obtain ⟨c, hc, hany⟩ := exists_ok_of_any leftLoop_passes
  rw [Bool.and_eq_true, decide_eq_true_eq] at hany
  obtain ⟨decl, hdecl, hbody⟩ := (Option.any_eq_true _ _).1 hany.2
  obtain ⟨f, hf, hformed⟩ := wellFormed_graphs hc hany.1 hdecl hbody
  have hsimplified := hformed 1
  exact ⟨c, decl, f, hc, hdecl, hbody, hf, (hformed 0).1, hsimplified.1,
    hsimplified.2 Nat.zero_lt_one⟩

end Checked

end WordLang
