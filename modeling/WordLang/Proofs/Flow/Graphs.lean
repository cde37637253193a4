import WordLang.Proofs.Flow.Building

/-!
# The graphs of checked functions

The graph of a function that passed the check can be built without asking for further types. It can
be lowered to linear code, the body of the function is found in it, and every block leads from an empty
stack to an empty stack, or to the number that a branch tests. Simplifying a graph keeps the latter.

## Main definitions

* `Flow.Build.MakesStmt`, `Flow.Build.MakesBlock`: what is added wherever a statement may stand
* `Flow.GraphOf`: a graph of a function

## Main results

* `Flow.Build.statement_makes`: what is added to a graph for a statement
* `Flow.buildFunction_makes`: the graph of a function
* `Flow.Function.Kinded.simplify`: a simplified graph is kinded
-/

namespace WordLang.Flow

namespace Build

variable {r : Resolutions} {answers : Answers} {b : Builder}

theorem get_run : (get : Build Builder) b answers = .ok (b, b) answers := rfl

/-- The type of a storage cell that is known is given without further questions. -/
theorem ofCell_run {id : StmtId} {s : Stmt} {ty : Ty} (hs : r.declarations.find? id = some s)
    (hty : answers.cells.find? id = some ty) (hne : ty ≠ .unknown) :
    (liftM (Query.ofCell r id) : Build Ty) b answers = .ok (ty, b) answers := by
  have hrun : Query.ofCell r id answers = .ok ty answers := by
    simp only [Query.ofCell, Query.ofCellWithin, hs, run_get_bind, hty]
    cases ty with
    | unknown => exact absurd rfl hne
    | _ => rfl
  show EStateM.bind (Query.ofCell r id) (fun ty => pure (ty, b)) answers = _
  rw [EStateM.bind, hrun]
  rfl

section

variable (r : Resolutions) (owner : StmtId) (arity : Nat) (result : Ty) (answers : Answers)
  (visible loops : List StmtId)

/-- A statement that draws `d` is added to every graph that is ready for it, and the declarations
`declared` become visible. -/
def MakesStmt (declared : List StmtId) (d : Draws) (s : Stmt) : Prop :=
  ∀ (b : Builder) (exit? : Option BlockId),
    b.Ready r owner arity result visible loops d exit? [] →
    Makes answers (statement r s) b fun _ b' => b.Adds r owner arity result declared d
      (fun code cells k k' => Compiled r code cells exit? s k k') [] b'

/-- The same for a block. -/
def MakesBlock (d : Draws) (body : WordLang.Block) : Prop :=
  ∀ (b : Builder) (exit? : Option BlockId),
    b.Ready r owner arity result visible loops d exit? [] →
    Makes answers (block r body) b fun _ b' => b.Adds r owner arity result [] d
      (fun code cells k k' => CompiledBlock r code cells exit? body k k') [] b'

end

section

variable {m : Module} {owner : StmtId} {arity : Nat} {result : Ty} {visible loops : List StmtId}
  {d d' : Draws} {exit? : Option BlockId} {stack : List Kind} {tag : Tag}

theorem turn_makes (h : b.Ready r owner arity result visible loops d exit? []) (hd : 0 < d.blocks)
    {target : BlockId} (htarget : target ≤ b.blocks.length) :
    Makes answers (goto target >>= fun _ => newBlock >>= fun id => continueAt id) b fun _ b' =>
      b.Adds r owner arity result [] { blocks := 1 } (fun _ _ k _ => k = ([], .goto target)) [] b' := by
  have hnew := newBlock_run answers (h.valid.named.close b.current (.goto target))
    (by rw [Builder.length_close]; exact h.blocks_lt hd)
  refine Makes.step (goto_run h.opens.lt) (Makes.step hnew (Makes.of_eq continueAt_run ?_))
  rw [Builder.length_close]
  exact (Builder.adds_turn h.valid h.opens htarget).mono (.refl _) (List.Subset.refl _) fun hk => hk.1

theorem break_makes (hscoped : Stmt.Scoped r owner arity visible loops (.break tag)) :
    MakesStmt r owner arity result answers visible loops [] { ids := [tag.id], blocks := 1 }
      (.break tag) := by
  intro b exit? h
  obtain ⟨loop, hhead, htarget⟩ := hscoped
  obtain ⟨-, exit, rfl, hexit, hlt⟩ := h.loop loop hhead
  have hrun : loopExit r tag.id b answers = .ok (exit, b) answers := by
    have hfind : (r.breakTargets.find? tag.id).bind b.loopExits.find? = some exit := by
      rw [htarget]
      exact hexit
    rw [loopExit, get_bind, hfind]
    rfl
  refine Makes.step hrun ((turn_makes h Nat.one_pos hlt.le).mono fun _ b' hb' => ?_)
  refine hb'.mono ⟨List.nil_sublist _, le_rfl, le_rfl⟩ (List.Subset.refl _) ?_
  rintro code cells k k' rfl
  exact ⟨exit, rfl, rfl⟩

theorem loop_makes {body : WordLang.Block}
    (hbody : MakesBlock r owner arity result answers visible (tag.id :: loops) d body) :
    MakesStmt r owner arity result answers visible loops [] ({ ids := [tag.id], blocks := 2 } ++ d)
      (.loop tag body) := by
  intro b exit? h
  have hinside : (Terminator.goto b.blocks.length).Valid (b.blocks.length + 2) b.current :=
    Terminator.valid_goto (Nat.lt_add_of_pos_right Nat.two_pos)
  obtain ⟨hnew, hnew'⟩ := newBlocks_run answers h.valid.named (h.room.le_of_blocks (Nat.le_add_right 2 _))
  refine Makes.step hnew (Makes.step hnew' (Makes.step (goto_run h.opens.addBlock.addBlock.lt)
    (Makes.step setLoopExit_run (Makes.step continueAt_run ?_))))
  rw [Builder.length_addBlock]
  refine Makes.bind (hbody _ _ (h.enter hinside (by simp) rfl)) fun _ b' hb' => ?_
  refine Makes.step (goto_run hb'.opens.lt) (Makes.of_eq continueAt_run ?_)
  refine (Builder.adds_loop h.opens (by simp) (Nat.lt_add_of_pos_right Nat.two_pos) hb').mono
    (.refl _) (List.Subset.refl _) ?_
  rintro code cells k k' ⟨rfl, kin, hkin, hexit, hfound⟩
  exact ⟨b.blocks.length, b.blocks.length + 1, kin, rfl, hkin, hexit, hfound⟩

variable (hr : r.Scoped m)
include hr

/-- The statements that compute an expression are added. -/
theorem expression_makes (answers : Answers)
    (h : b.Ready r owner arity result visible loops d exit? stack) {e : Expr} {ty : Ty}
    (hty : HasType r e ty) (hscoped : e.Scoped r owner arity visible) :
    ∃ ss, expression r e b answers = .ok ((), b.emit ss) answers ∧
      b.Adds r owner arity result [] {} (fun _ cells k k' => Flow.expression r cells e = .ok ss ∧
        k = Code.before ss k') (ty.kind r.functions :: stack) (b.emit ss) := by
  obtain ⟨ss, hss, hfits, hext⟩ := expression_spec (h.valid.covers h.visible)
    (fun hf => List.mem_range.2 (h.valid.find_lt hf)) hty hscoped
  have hemit := Builder.adds_emit h.valid h.opens ss hfits
    (expression_kinded hr h.valid.cells hty hscoped hss stack)
  refine ⟨ss, expression_run hss h.opens.lt, { hemit with found := ?_ }⟩
  intro code cells k' hsealed hcells hk
  obtain ⟨k, hk, rfl⟩ := hemit.found hsealed hcells hk
  exact ⟨_, hk, hext hcells, rfl⟩

theorem declare_makes (ha : answers.Sound m r) {ident : Ident} {type : Option TypeExpr}
    {value : Option Expr}
    (hscoped : Stmt.Scoped r owner arity visible loops (.declare tag ident type value))
    (hchecked : Stmt.Checked r result answers (.declare tag ident type value)) :
    MakesStmt r owner arity result answers visible loops [tag.id] { ids := [tag.id], cells := 1 }
      (.declare tag ident type value) := by
  intro b exit? h
  obtain ⟨hvalue, hdecl⟩ := hscoped
  obtain ⟨ty, hty, hne⟩ := hchecked.2 tag.id (List.mem_singleton.2 rfl)
  have hcell := (ha.cells hty hne).1
  have hfresh : b.cells.declared.find? tag.id = none := h.fresh _ (List.mem_singleton.2 rfl)
  have hlt : b.locals.length < idCount := h.room.cells
  refine Makes.step (ofCell_run hdecl hty hne) ?_
  cases value with
  | none =>
    refine Makes.step (newCell_run hlt) (Makes.of_eq rfl ?_)
    refine (Builder.adds_addCell h.valid h.opens hfresh hcell ident.name).mono (.refl _)
      (List.Subset.refl _) ?_
    rintro code cells k k' ⟨rfl, -⟩
    rfl
  | some e =>
    obtain ⟨source, hsource, hfit⟩ := hcell.value hdecl
    have hkind : source.kind r.functions = ty.kind r.functions := by
      rcases hfit with rfl | hfit
      · rfl
      · exact hfit.kind_eq _
    obtain ⟨ss, hrun, hemit⟩ := expression_makes hr answers h hsource hvalue
    rw [hkind] at hemit
    have hadd := Builder.adds_addCell hemit.valid hemit.opens
      (show (b.emit ss).cells.declared.find? tag.id = none from hfresh) hcell ident.name
    have hstore := Builder.adds_emit hadd.valid hadd.opens [.store b.locals.length]
      (by simp [Linear.Fits, Builder.addCell, Builder.emit]) (.singleton (.store _
        ⟨⟨b.locals.length, ty, some ident.name⟩, by simp [Builder.addCell, Builder.emit], rfl⟩))
    refine Makes.step hrun (Makes.step (newCell_run hlt) (Makes.of_eq (emit_run hadd.opens.lt) ?_))
    refine (hemit.trans (hadd.trans hstore)).mono (.refl _) (by simp) ?_
    rintro code cells k k' ⟨k₁, ⟨hss, rfl⟩, k₂, ⟨rfl, hfind⟩, rfl⟩
    exact ⟨ss, _, hss, hfind, (Code.before_append _ _ _).symm⟩

theorem while_makes {condition : Expr} {body : WordLang.Block} (hty : HasType r condition .int)
    (hscoped : condition.Scoped r owner arity visible)
    (hbody : MakesBlock r owner arity result answers visible (tag.id :: loops) d body) :
    MakesStmt r owner arity result answers visible loops [] ({ ids := [tag.id], blocks := 3 } ++ d)
      (.while tag condition body) := by
  intro b exit? h
  have hmove : continueAt b.blocks.length (b.addBlock.close b.current (.goto b.blocks.length)) answers =
      .ok ((), b.turn (.goto b.blocks.length)) answers := by
    rw [continueAt_run, Builder.close_addBlock h.opens.lt]
  have hturn := Builder.adds_turn h.valid h.opens (Nat.le_refl b.blocks.length)
  have hsplit : b.Ready r owner arity result visible loops
      ({ blocks := 1 } ++ ({ ids := [tag.id], blocks := 2 } ++ d)) exit? [] :=
    h.within ⟨.refl _, by simp only [Draws.blocks_append]; omega, by simp⟩
  have hafter := hsplit.after hturn
  obtain ⟨ss, hrun, hemit⟩ := expression_makes hr answers hafter hty hscoped
  have hready := hafter.next hemit
  have hnew := newBlock_run answers h.valid.named
    (hsplit.blocks_lt (Nat.add_pos_left Nat.one_pos _))
  obtain ⟨hnew₁, hnew₂⟩ :=
    newBlocks_run answers hready.valid.named (hready.room.le_of_blocks (Nat.le_add_right 2 _))
  have hlt : b.blocks.length < ((b.turn (.goto b.blocks.length)).emit ss).blocks.length := hready.opens.lt
  refine Makes.step hnew (Makes.step (goto_run h.opens.addBlock.lt) (Makes.step hmove
    (Makes.step hrun (Makes.step hnew₁ (Makes.step hnew₂
      (Makes.step (terminate_run hready.opens.addBlock.addBlock.lt)
        (Makes.step setLoopExit_run (Makes.step continueAt_run ?_))))))))
  rw [Builder.length_addBlock]
  refine Makes.bind (hbody _ _ (hready.enter (Terminator.valid_branch ?_ ?_ ?_) (by simp) rfl))
    fun _ b' hb' => ?_
  · exact Nat.lt_add_of_pos_right Nat.two_pos
  · exact Nat.lt_succ_self _
  · exact (Nat.succ_ne_self _).symm
  refine Makes.step (goto_run hb'.opens.lt) (Makes.of_eq continueAt_run ?_)
  have hloop := Builder.adds_loop hready.opens (by simp) (Nat.lt_add_right 2 hlt) hb'
  refine (hturn.trans (hemit.trans hloop)).mono
    ⟨.refl _, by simp only [Draws.blocks_append]; omega, by simp⟩ (by simp) ?_
  rintro code cells k k' ⟨k₁, ⟨rfl, htest⟩, k₂, ⟨hss, rfl⟩, rfl, kin, hkin, hexit, hfound⟩
  refine ⟨_, _, _, ss, kin, rfl, htest.trans ?_, hss, hkin, hexit, hfound⟩
  simp [Code.before]

theorem return_makes {value : Option Expr} (htyped : Stmt.Typed r result (.return tag value))
    (hscoped : Stmt.Scoped r owner arity visible loops (.return tag value)) :
    MakesStmt r owner arity result answers visible loops [] { ids := [tag.id], blocks := 1 }
      (.return tag value) := by
  intro b exit? h
  cases value with
  | none =>
    exact (turn_makes h Nat.one_pos h.valid.exit.le).mono fun _ _ ha =>
      ha.mono ⟨List.nil_sublist _, le_rfl, le_rfl⟩ (List.Subset.refl _) fun hk => hk
  | some e =>
    obtain ⟨ty, hty, hfit⟩ := htyped
    obtain ⟨ss, hrun, hemit⟩ := expression_makes hr answers h hty hscoped
    rw [hfit.kind_eq] at hemit
    have hstore := Builder.adds_emit hemit.valid hemit.opens [.store resultCell]
      (by simpa [Linear.Fits, resultCell, Builder.emit] using Nat.lt_of_le_of_lt (Nat.zero_le _) h.valid.room)
      (.singleton (.store [] h.valid.result))
    refine Makes.step hrun (Makes.step (emit_run hemit.opens.lt)
      ((turn_makes ((h.next hemit).next hstore) Nat.one_pos hstore.valid.exit.le).mono
        fun _ _ hturn => ?_))
    refine (hemit.trans (hstore.trans hturn)).mono ⟨List.nil_sublist _, le_rfl, le_rfl⟩ (by simp) ?_
    rintro code cells k k' ⟨k₁, ⟨hss, rfl⟩, k₂, rfl, rfl⟩
    exact ⟨ss, hss, by simp [Code.before]⟩

theorem eval_makes {e : Expr} (htyped : Stmt.Typed r result (.eval tag e))
    (hscoped : Stmt.Scoped r owner arity visible loops (.eval tag e)) :
    MakesStmt r owner arity result answers visible loops [] d (.eval tag e) := by
  intro b exit? h
  obtain ⟨ty, hty⟩ := htyped
  obtain ⟨ss, hrun, hemit⟩ := expression_makes hr answers h hty hscoped
  have hpop := Builder.adds_emit hemit.valid hemit.opens [.pop] (by simp [Linear.Fits])
    (.singleton (.pop _ _))
  refine Makes.step hrun (Makes.of_eq (emit_run hemit.opens.lt) ?_)
  refine (hemit.trans hpop).mono (Draws.empty_within _) (by simp) ?_
  rintro code cells k k' ⟨k₁, ⟨hss, rfl⟩, rfl⟩
  exact ⟨ss, hss, (Code.before_append _ _ _).symm⟩

theorem assign_makes {subject value : Expr} (htyped : Stmt.Typed r result (.assign tag subject value))
    (hscoped : Stmt.Scoped r owner arity visible loops (.assign tag subject value)) :
    MakesStmt r owner arity result answers visible loops [] d (.assign tag subject value) := by
  intro b exit? h
  obtain ⟨tag', ident, binding, target, ty, rfl, hbinding, hfun, htarget, hty, hfit⟩ := htyped
  obtain ⟨hvalue, binding', hbinding', hin⟩ := hscoped
  cases hbinding.symm.trans hbinding'
  obtain ⟨cell, hcell⟩ := h.valid.covers h.visible binding hin hfun
  have hsubject : subjectCell r (.name tag' ident) b answers = .ok (cell, b) answers := by
    have hfind : (bindingOf r (.name tag' ident) >>= b.cells.find) = .ok cell := by
      rw [bindingOf_name hbinding]
      exact hcell
    rw [subjectCell, get_bind, hfind]
    rfl
  have hkind : CellKind r b.locals cell (target.kind r.functions) := by
    -- The cell is the one that is loaded for the value of the subject.
    have hload := name_kinded hr h.valid.cells htarget ⟨binding, hbinding, hin⟩
      (expression_cell hbinding hfun hcell) []
    cases hload with
    | cons hs hrest =>
      cases hs with
      | load _ hcell =>
        cases hrest
        exact hcell
  obtain ⟨ss, hrun, hemit⟩ := expression_makes hr answers h hty hvalue
  rw [hfit.kind_eq] at hemit
  have hstore := Builder.adds_emit hemit.valid hemit.opens [.store cell]
    (by simpa [Linear.Fits, Builder.emit] using h.valid.find_lt hcell) (.singleton (.store _ hkind))
  refine Makes.step hsubject (Makes.step hrun (Makes.of_eq (emit_run hemit.opens.lt) ?_))
  have hall : b.Adds r owner arity result [] d _ [] _ :=
    (hemit.trans hstore).mono (Draws.empty_within _) (by simp) fun hk => hk
  refine { hall with found := fun {code cells k'} hsealed hext hk => ?_ }
  obtain ⟨k, hk, k₁, ⟨hss, rfl⟩, rfl⟩ := hall.found hsealed hext hk
  exact ⟨_, hk, tag', ident, ss, binding, cell, rfl, hbinding, hext (hall.leads.cells hcell), hss,
    (Code.before_append _ _ _).symm⟩

theorem choice_makes {condition : Expr} {truthy : WordLang.Block} {falsy : Option WordLang.Block}
    (hty : HasType r condition .int) (hscoped : condition.Scoped r owner arity visible)
    (htruthy : MakesBlock r owner arity result answers visible loops d truthy)
    (hfalsy : ∀ f ∈ falsy, MakesBlock r owner arity result answers visible loops d' f) :
    MakesStmt r owner arity result answers visible loops []
      ({ ids := [tag.id], blocks := if falsy.isSome then 3 else 2 } ++ (d ++ d'))
      (.choose tag condition truthy falsy) := by
  intro b exit? h
  -- One block is for the start of the first alternative, the others come after it.
  have hsplit : b.Ready r owner arity result visible loops
      ({ blocks := 1 } ++ (d ++ ({ blocks := if falsy.isSome then 2 else 1 } ++ d'))) exit? [] := by
    refine h.within ⟨List.sublist_cons_self _ _, ?_, by simp⟩
    simp only [Draws.blocks_append]
    split <;> omega
  obtain ⟨ss, hrun, hemit⟩ := expression_makes hr answers hsplit hty hscoped
  have hnext := hsplit.next hemit
  have hready := hnext.enterBranch
  have hnew := newBlock_run answers hnext.valid.named
    (hnext.blocks_lt (Nat.add_pos_left Nat.one_pos _))
  refine Makes.step hrun (Makes.step get_run (Makes.step hnew (Makes.step continueAt_run ?_)))
  refine Makes.bind (htruthy _ _ (hready.within (Draws.within_append_left _ _))) fun _ b₁ hb₁ => ?_
  obtain ⟨htest, hne⟩ := hb₁.leads.opens_of_enterBranch hemit.opens
  have hrest := hready.after hb₁
  refine Makes.step get_run ?_
  cases falsy with
  | none =>
    have hexit := newBlock_run answers hb₁.valid.named
      (hrest.blocks_lt (Nat.add_pos_left Nat.one_pos _))
    refine Makes.step (x := pure none) rfl (Makes.step hexit
      (Makes.step (terminate_run hb₁.opens.addBlock.lt)
        (Makes.step (terminate_run (htest.addBlock.close hne).lt) (Makes.of_eq continueAt_run ?_))))
    have hchoice := Builder.adds_choice hemit.opens hb₁
    refine (hemit.trans hchoice).mono ⟨by simp, by simp, by simp⟩ (by simp) ?_
    rintro code cells k k' ⟨k₁, ⟨hss, rfl⟩, rfl, kt, hkt, hexit, hfound⟩
    exact ⟨_, _, b₁.blocks.length, ss, kt, k', by simp [Code.before], hss, hkt, hexit, hexit, hfound, rfl⟩
  | some f =>
    have hrest' : b₁.Ready r owner arity result visible loops
        ({ blocks := 1 } ++ (d' ++ { blocks := 1 })) exit? [] := by
      refine hrest.within ⟨by simp, ?_, by simp⟩
      simp only [Draws.blocks_append, Option.isSome_some, if_true]
      omega
    have hready' := hrest'.enterBranch
    have hstart := newBlock_run answers hb₁.valid.named
      (hrest.blocks_lt (Nat.add_pos_left Nat.two_pos _))
    have halt : Makes answers (alternative r (some f)) b₁ fun bounds b₂ =>
        bounds = some (b₁.blocks.length, b₂.current) ∧ Builder.Adds r owner arity result [] d'
          (fun code cells k k' => CompiledBlock r code cells exit? f k k') [] b₁.enterBranch b₂ := by
      refine Makes.step hstart (Makes.step continueAt_run ?_)
      refine Makes.bind (hfalsy f rfl _ _ (hready'.within (Draws.within_append_left _ _)))
        fun _ b₂ hb₂ => ?_
      exact Makes.step get_run (Makes.of_eq rfl ⟨rfl, hb₂⟩)
    refine Makes.bind halt ?_
    rintro _ b₂ ⟨rfl, hb₂⟩
    obtain ⟨hend, hend_ne⟩ := hb₂.leads.opens_of_enterBranch hb₁.opens
    obtain ⟨htest', hne'⟩ := hb₂.leads.opens_of_enterBranch htest
    have hexit := newBlock_run answers hb₂.valid.named
      ((hready'.after hb₂).blocks_lt Nat.one_pos)
    refine Makes.step hexit (Makes.step (terminate_run hend.addBlock.lt)
      (Makes.step (terminate_run (hb₂.opens.addBlock.close hend_ne.symm).lt)
        (Makes.step (terminate_run ((htest'.addBlock.close hne).close hne').lt)
          (Makes.of_eq continueAt_run ?_))))
    have hchoice := Builder.adds_alternatives hemit.opens hb₁ hb₂
    refine (hemit.trans hchoice).mono ⟨by simp, by simp, by simp⟩ (by simp) ?_
    rintro code cells k k' ⟨k₁, ⟨hss, rfl⟩, rfl, kt, kf, hkt, hkf, hexit, hfound, hfound'⟩
    exact ⟨_, _, b₂.blocks.length, ss, kt, kf, by simp [Code.before], hss, hkt, hkf, hexit, hfound,
      hfound'⟩

omit hr

mutual

theorem statement_makes (hr : r.Scoped m) (ha : answers.Sound m r) :
    ∀ (s : Stmt) {visible loops : List StmtId},
    s.Scoped r owner arity visible loops → (∀ s' ∈ s.own, s'.Checked r result answers) →
    MakesStmt r owner arity result answers visible loops s.introduces (Draws.ofStmts s.own) s
  | .error tag, _, _, _, hchecked => (hchecked _ (Stmt.mem_own _)).1.elim
  | .function tag decl, _, _, _, _ => fun _ _ h =>
    Makes.of_eq rfl (h.adds_nothing.mono (Draws.empty_within _) (List.Subset.refl _) fun hk => hk)
  | .declare .., _, _, hscoped, hchecked => declare_makes hr ha hscoped (hchecked _ (Stmt.mem_own _))
  | .loop _ body, _, _, hscoped, hchecked =>
    loop_makes (block_makes hr ha body hscoped fun s' hs' => hchecked s' (List.mem_cons_of_mem _ hs'))
  | .while _ _ body, _, _, hscoped, hchecked =>
    while_makes hr (hchecked _ (Stmt.mem_own _)).1 hscoped.1 (block_makes hr ha body hscoped.2
      fun s' hs' => hchecked s' (List.mem_cons_of_mem _ hs'))
  | .choose tag condition truthy falsy, _, _, hscoped, hchecked => by
    rw [Stmt.own, List.cons_append, Draws.ofStmts, Draws.ofStmts_append]
    exact choice_makes hr (hchecked _ (Stmt.mem_own _)).1 hscoped.1
      (block_makes hr ha truthy hscoped.2.1 fun s' hs' =>
        hchecked s' (List.mem_cons_of_mem _ (List.mem_append_left _ hs')))
      (option_makes hr ha falsy hscoped.2.2 fun s' hs' =>
        hchecked s' (List.mem_cons_of_mem _ (List.mem_append_right _ hs')))
  | .return .., _, _, hscoped, hchecked => return_makes hr (hchecked _ (Stmt.mem_own _)).1 hscoped
  | .break _, _, _, hscoped, _ => break_makes hscoped
  | .assign .., _, _, hscoped, hchecked => assign_makes hr (hchecked _ (Stmt.mem_own _)).1 hscoped
  | .eval .., _, _, hscoped, hchecked => eval_makes hr (hchecked _ (Stmt.mem_own _)).1 hscoped

theorem block_makes (hr : r.Scoped m) (ha : answers.Sound m r) :
    ∀ (list : WordLang.Block) {visible loops : List StmtId},
    list.Scoped r owner arity visible loops →
    (∀ s' ∈ Stmt.ownOfBlock list, s'.Checked r result answers) →
    MakesBlock r owner arity result answers visible loops (Draws.ofStmts (Stmt.ownOfBlock list)) list
  | ⟨_, list⟩, _, _, hscoped, hchecked => fun _ _ h => statements_makes hr ha list hscoped.1 hchecked h

/-- The same for a block that may be absent. -/
theorem option_makes (hr : r.Scoped m) (ha : answers.Sound m r) :
    ∀ (list : Option WordLang.Block) {visible loops : List StmtId},
    Block.OptionScoped r owner arity visible loops list →
    (∀ s' ∈ Stmt.ownOfOption list, s'.Checked r result answers) →
    ∀ f ∈ list,
      MakesBlock r owner arity result answers visible loops (Draws.ofStmts (Stmt.ownOfOption list)) f
  | some f, _, _, hscoped, hchecked, _, rfl => block_makes hr ha f hscoped hchecked

/-- What is added for a list of statements. -/
theorem statements_makes (hr : r.Scoped m) (ha : answers.Sound m r) :
    ∀ (list : List Stmt) {visible loops : List StmtId} {b : Builder}
    {exit? : Option BlockId}, Stmt.AllScoped r owner arity visible loops list →
    (∀ s' ∈ Stmt.ownOfList list, s'.Checked r result answers) →
    b.Ready r owner arity result visible loops (Draws.ofStmts (Stmt.ownOfList list)) exit? [] →
    Makes answers (statements r list) b fun _ b' =>
      b.Adds r owner arity result [] (Draws.ofStmts (Stmt.ownOfList list))
        (fun code cells k k' => CompiledList r code cells exit? list k k') [] b'
  | [], _, _, _, _, _, _, h =>
    Makes.of_eq rfl (h.adds_nothing.mono (Draws.empty_within _) (List.Subset.refl _) fun hk => hk)
  | s :: rest, _, _, _, _, hscoped, hchecked, h => by
    simp only [Stmt.ownOfList, Draws.ofStmts_append] at h ⊢
    refine Makes.bind (statement_makes hr ha s hscoped.1
      (fun s' hs' => hchecked s' (List.mem_append_left _ hs')) _ _
      (h.within (Draws.within_append_left _ _))) fun _ b₁ hb₁ => ?_
    refine (statements_makes hr ha rest hscoped.2
      (fun s' hs' => hchecked s' (List.mem_append_right _ hs')) (h.after hb₁)).mono
      fun _ b₂ hb₂ => ?_
    exact (hb₁.trans hb₂).mono (.refl _) (by simp) fun hk => hk

end

end

end Build

/-! ## Finished graphs -/

/-- The cells of a graph for the function that `owner` declares: no two of its parameters and
declarations share a cell, and none has the cell of the result. -/
structure Cells.Apart (cells : Cells) (owner : StmtId) : Prop where
  injective : ∀ {b b' : Binding} {cell : LocalId}, b.OwnedBy owner → b'.OwnedBy owner →
    cells.find b = .ok cell → cells.find b' = .ok cell → b = b'
  result : ∀ {b : Binding} {cell : LocalId}, cells.find b = .ok cell → cell ≠ Build.resultCell

namespace Builder

variable {r : Resolutions} {owner : StmtId} {arity : Nat} {result : Ty} {b b' : Builder}
  {visible ids : List StmtId} {d : Draws}
  {found : (BlockId → Option Code) → Cells → Code → Code → Prop}

/-- The graph of a function at the start of its body. -/
def begin (b : Builder) : Builder := b.addBlock.addBlock.moveTo Build.entryBlock

/-- The graph of a function after its body. -/
def finish (b : Builder) : Builder :=
  (b.close b.current (.goto Build.exitBlock)).close Build.exitBlock .return

/-- The code of the blocks of a graph. -/
def code (b : Builder) (i : BlockId) : Option Code :=
  b.blocks[i]?.map fun block => (block.statements, block.terminator)

theorem get_begin (hb : b.blocks = []) (i : BlockId) :
    b.begin.blocks[i]? = if i < 2 then some { id := i } else none := by
  simp only [begin, moveTo, addBlock, hb]
  rcases i with _ | _ | i
  · rfl
  · rfl
  · simp

theorem length_begin (hb : b.blocks = []) : b.begin.blocks.length = 2 := by
  simp [begin, moveTo, hb]

theorem opens_begin (r : Resolutions) (hb : b.blocks = []) {i : BlockId} (hi : i < 2) :
    b.begin.Opens r i [] :=
  ⟨{ id := i }, by rw [get_begin hb, if_pos hi], rfl, .nil []⟩

/-- The last block is neither closed nor the current one after the body. -/
theorem Leads.get_exit (hb : b.blocks = []) (h : Leads ids b.begin b') :
    b'.blocks[Build.exitBlock]? = some { id := Build.exitBlock } ∧ b'.current ≠ Build.exitBlock := by
  constructor
  · rw [h.frame Build.exitBlock (by rw [length_begin hb]; decide) Nat.one_ne_zero, get_begin hb]
    rfl
  · rcases h.current with heq | hle
    · rw [heq]
      exact Nat.zero_ne_one
    · rw [length_begin hb] at hle
      exact Nat.ne_of_gt hle

theorem get_finish (i : BlockId) (hne : b.current ≠ Build.exitBlock) : b.finish.blocks[i]? =
    if i = Build.exitBlock then b.blocks[i]?.map fun block => { block with terminator := .return }
    else if i = b.current then
      b.blocks[i]?.map fun block => { block with terminator := .goto Build.exitBlock }
    else b.blocks[i]? := by
  simp only [finish, get_close]
  split
  · next heq => rw [if_neg (heq ▸ Ne.symm hne)]
  · rfl

theorem Leads.closed_finish (hb : b.blocks = []) (h : Leads ids b.begin b') {i : BlockId} {block : Block}
    (hget : b'.finish.blocks[i]? = some block) : block.terminator ≠ .unset := by
  rw [get_finish i (h.get_exit hb).2] at hget
  split at hget
  · rw [Option.map_eq_some_iff] at hget
    obtain ⟨_, -, rfl⟩ := hget
    simp
  · next hexit =>
    split at hget
    · rw [Option.map_eq_some_iff] at hget
      obtain ⟨_, -, rfl⟩ := hget
      simp
    · next hcurrent =>
      intro hunset
      rcases h.closed hget hunset with heq | ⟨hlt, hne⟩
      · exact hcurrent heq
      · rw [length_begin hb] at hlt
        exact hexit (Nat.le_antisymm (Nat.le_of_lt_succ hlt) (Nat.pos_of_ne_zero hne))

theorem Adds.found_finish (hb : b.blocks = [])
    (h : Adds r owner arity result visible d found [] b.begin b') :
    b'.finish.code Build.exitBlock = some ([], .return) ∧
      ∃ k, b'.finish.code Build.entryBlock = some k ∧
        found b'.finish.code b'.cells k ([], .goto Build.exitBlock) := by
  obtain ⟨hexit, hne⟩ := h.leads.get_exit hb
  constructor
  · simp [code, get_finish _ hne, hexit]
  · have hsealed : b'.Sealed b'.finish.code := by
      intro i block hget hset
      have hi : i ≠ Build.exitBlock := by
        rintro rfl
        rw [hexit] at hget
        cases hget
        exact hset rfl
      have hi' : i ≠ b'.current := by
        rintro rfl
        obtain ⟨block', hget', hunset, -⟩ := h.opens
        rw [hget] at hget'
        cases hget'
        exact hset hunset
      simp [code, get_finish _ hne, if_neg hi, if_neg hi', hget]
    have hcontinues : b'.Continues b'.finish.code ([], .goto Build.exitBlock) := by
      obtain ⟨block, hget, -⟩ := h.opens
      refine ⟨block, hget, ?_⟩
      simp [code, get_finish _ hne, if_neg hne, hget, Code.before]
    obtain ⟨k, hk, hfound⟩ := h.found hsealed (Cells.Extends.refl _) hcontinues
    exact ⟨k, hk.code_of_empty (get_begin hb 0), hfound⟩

theorem Adds.valid_finish (hb : b.blocks = [])
    (h : Adds r owner arity result visible d found [] b.begin b') :
    b'.finish.Valid r owner arity result := by
  obtain ⟨hexit, hne⟩ := h.leads.opens Nat.one_ne_zero (opens_begin r hb Nat.one_lt_two)
  exact (h.valid.close h.opens (Terminator.valid_goto h.valid.exit) rfl).close (hexit.close hne)
    Terminator.valid_return rfl

theorem Valid.blockIds (h : b.Valid r owner arity result) :
    b.blocks.map Block.id = List.range b.blocks.length := by
  refine List.ext_getElem? fun i => ?_
  rw [List.getElem?_map]
  by_cases hi : i < b.blocks.length
  · have hget := List.getElem?_eq_getElem hi
    rw [hget, Option.map_some, (h.blocks i _ hget).id, List.getElem?_range hi]
  · rw [List.getElem?_eq_none (Nat.le_of_not_lt hi), List.getElem?_eq_none (by simpa using hi)]
    rfl

theorem Valid.findBlock? (h : b.Valid r owner arity result) (i : BlockId) :
    Flow.findBlock? b.blocks i = b.blocks[i]? := by
  cases hget : b.blocks[i]? with
  | some block =>
    rw [← (h.blocks i block hget).id]
    exact findBlock?_eq_some (h.blockIds ▸ List.nodup_range) (List.mem_of_getElem? hget)
  | none =>
    refine List.find?_eq_none.2 fun block hmem => ?_
    have hid : block.id ∈ List.range b.blocks.length := h.blockIds ▸ List.mem_map_of_mem hmem
    have hlt : block.id < b.blocks.length := List.mem_range.1 hid
    rw [decide_eq_true_eq]
    rintro rfl
    exact absurd hlt (Nat.not_lt.2 (List.getElem?_eq_none_iff.1 hget))

/-- No two parameters or declarations of a function share a cell. -/
theorem Valid.apart (h : b.Valid r owner arity result) : b.cells.Apart owner := by
  have hparam : ∀ {scope : StmtId} {i : Nat} {cell : LocalId},
      b.cells.find (.parameter scope i) = .ok cell → i < arity ∧ cell = 1 + i := by
    intro scope i cell hfind
    have hget := Cells.find_parameter.1 hfind
    rw [h.params, List.getElem?_eq_some_iff] at hget
    obtain ⟨hlt, rfl⟩ := hget
    exact ⟨by simpa using hlt, by simp⟩
  have hdecl : ∀ {decl : StmtId} {cell : LocalId},
      b.cells.find (.local decl) = .ok cell → arity < cell :=
    fun hfind => (h.declared (Cells.find_local.1 hfind)).1
  constructor
  · rintro (decl | ⟨scope, i⟩ | decl) (decl' | ⟨scope', i'⟩ | decl') cell hb hb' hfind hfind'
    case function.function | function.parameter | function.local => cases hfind
    case parameter.function | local.function => cases hfind'
    · obtain ⟨-, rfl⟩ := hparam hfind
      obtain ⟨-, heq⟩ := hparam hfind'
      rw [show scope = owner from hb, show scope' = owner from hb', Nat.add_left_cancel heq]
    · obtain ⟨hlt, rfl⟩ := hparam hfind
      have := hdecl hfind'
      omega
    · obtain ⟨hlt, rfl⟩ := hparam hfind'
      have := hdecl hfind
      omega
    · rw [h.injective (Cells.find_local.1 hfind) (Cells.find_local.1 hfind')]
  · rintro (decl | ⟨scope, i⟩ | decl) cell hfind rfl
    · cases hfind
    · have heq : 0 = 1 + i := (hparam hfind).2
      omega
    · exact Nat.not_lt_zero _ (hdecl hfind)

end Builder

/-- The code of the blocks of a graph. -/
def Function.code (f : Function) (i : BlockId) : Option Code :=
  (findBlock? f.blocks i).map fun block => (block.statements, block.terminator)

/-- The graph of the function that the statement `id` declares. -/
structure GraphOf (r : Resolutions) (id : StmtId) (decl : FnDecl) (body : WordLang.Block)
    (f : Function) : Prop where
  declares : f.decl = id
  lowerable : Linear.Lowerable r.functions f
  ids : f.blocks.map Block.id = List.range f.blocks.length
  localIds : f.locals.map Local.id = List.range f.locals.length
  returns : f.exit = Build.exitBlock ∧ ∀ b ∈ f.blocks, b.terminator = .return → b.id = f.exit
  params : f.params = List.range' 1 decl.params.length
  result : f.result = Build.resultCell
  exit : f.code Build.exitBlock = some ([], .return)
  body : ∃ cells k, cells.params = f.params ∧ cells.Apart id ∧ f.code f.entry = some k ∧
    CompiledBlock r f.code cells none body k ([], .goto Build.exitBlock)
  /-- Every block leads from an empty stack to an empty stack, or to what it tests. -/
  kinded : ∀ {params : List Ty} {result : Ty},
    r.functionType? id = some (.function id params result) →
    f.Kinded r ⟨params.map (Ty.kind r.functions), result.kind r.functions⟩

section

variable {r : Resolutions} {m : Module} {id : StmtId} {decl : FnDecl} {body : WordLang.Block}
  {params : List Ty} {result : Ty} {answers : Answers} {arity : Nat} {b : Builder}

/-- The cells of the parameters of a function are numbered from one on. -/
theorem ids_paramLocals {types : List Ty} {ps : List Param} (h : types.length = ps.length)
    {first : Nat} (hfirst : first + ps.length ≤ idCount) :
    (paramLocals first ps types).map Local.id = List.range' first ps.length := by
  induction ps generalizing first types with
  | nil => simp [paramLocals]
  | cons p ps ih =>
    rw [List.length_cons] at hfirst
    cases types with
    | nil => simp at h
    | cons ty types =>
      simp only [paramLocals, List.map_cons, List.length_cons, List.range'_succ]
      rw [ih (by simpa using h) (by omega), idOfNat_of_lt (by omega)]

/-- The graph of a function at its start. -/
def startBuilder (result : Ty) (cells : List Local) : Builder :=
  { locals := ⟨Build.resultCell, result, none⟩ :: cells,
    cells := { params := cells.map Local.id, declared := .empty }, loopExits := .empty }

theorem get_paramLocals {types : List Ty} {ps : List Param} (h : types.length = ps.length)
    (first : Nat) {i : Nat} {ty : Ty} (hty : types[i]? = some ty) :
    ∃ l, (paramLocals first ps types)[i]? = some l ∧ l.type = ty := by
  induction ps generalizing first types i with
  | nil =>
    rw [List.length_eq_zero_iff.1 h] at hty
    cases hty
  | cons p ps ih =>
    cases types with
    | nil => cases hty
    | cons t types =>
      cases i with
      | zero =>
        cases hty
        exact ⟨_, rfl, rfl⟩
      | succ i => exact ih (by simpa using h) (first + 1) hty

theorem cellKind_param (hlen : params.length = decl.params.length)
    (hids : 1 + decl.params.length ≤ idCount) {i : Nat} {ty : Ty} {cell : LocalId}
    (hty : params[i]? = some ty)
    (hcell : ((paramLocals 1 decl.params params).map Local.id)[i]? = some cell) :
    CellKind r (startBuilder result (paramLocals 1 decl.params params)).locals cell
      (ty.kind r.functions) := by
  obtain ⟨l, hl, htype⟩ := get_paramLocals hlen 1 hty
  rw [ids_paramLocals hlen hids, List.getElem?_eq_some_iff] at hcell
  obtain ⟨_, rfl⟩ := hcell
  refine ⟨l, ?_, by rw [htype]⟩
  rw [startBuilder, List.getElem_range', Nat.one_mul, Nat.add_comm, List.getElem?_cons_succ, hl]

/-- The graph that is made of what was built for a body. -/
def Builder.function (b : Builder) (id : StmtId) (name : String) : Function where
  decl := id
  name := name
  locals := b.locals
  params := b.cells.params
  result := Build.resultCell
  blocks := b.blocks
  entry := Build.entryBlock
  exit := Build.exitBlock

theorem ready_begin (htype : r.functionType? id = some (.function id params result))
    (hlen : params.length = decl.params.length) {d : Draws} (hids : d.ids.Nodup)
    (hblocks : 2 + d.blocks ≤ idCount) (hlocals : 1 + decl.params.length + d.cells ≤ idCount) :
    (startBuilder result (paramLocals 1 decl.params params)).begin.Ready r id decl.params.length result
      [] [] d none [] := by
  have hparams : 1 + decl.params.length ≤ idCount := Nat.le_of_add_right_le hlocals
  have hcells := ids_paramLocals hlen hparams
  have hlength : (paramLocals 1 decl.params params).length = decl.params.length := by
    rw [← List.length_map Local.id, hcells, List.length_range']
  refine ⟨⟨?_, (Builder.length_begin rfl).symm, ?_, hcells, ?_, ?_, ?_, ?_, ⟨?_, ?_⟩, ⟨_, rfl, rfl⟩⟩,
    Builder.opens_begin r rfl Nat.two_pos, by simp, fun id _ => rfl, hids, by simp, ⟨?_, ?_⟩⟩
  · intro i block hget
    rw [Builder.get_begin rfl] at hget
    split at hget
    · cases hget
      exact ⟨rfl, Terminator.valid_unset, by simp, fun hset => absurd rfl hset⟩
    · cases hget
  · rw [Builder.length_begin rfl]
    decide
  · show decl.params.length < (paramLocals 1 decl.params params).length + 1
    omega
  · show Build.resultCell :: (paramLocals 1 decl.params params).map Local.id =
      List.range ((paramLocals 1 decl.params params).length + 1)
    rw [hcells, hlength, List.range_succ_eq_map, List.range'_eq_map_range]
    simp [Build.resultCell, Nat.add_comm]
  · intro id cell hfind
    cases hfind
  · intro id id' cell hfind
    cases hfind
  · intro params' result' ty index cell htype' hty hcell
    cases htype.symm.trans htype'
    exact cellKind_param hlen hparams hty hcell
  · intro id ty cell _ hfind
    cases hfind
  · rwa [Builder.length_begin rfl]
  · show (paramLocals 1 decl.params params).length + 1 + d.cells ≤ idCount
    omega

namespace Builder.Valid

theorem slotCells (h : b.Valid r id arity result) (hids : b.locals.length ≤ idCount)
    (name : String) :
    (Linear.slotCells (b.function id name)).Nodup ∧
      ∀ cell < b.locals.length, cell ∈ Linear.slotCells (b.function id name) := by
  have hslots : Linear.slotCells (b.function id name) = List.range' 1 arity ++ Build.resultCell ::
      (List.range b.locals.length).filter fun cell =>
        cell ≠ Build.resultCell && cell ∉ List.range' 1 arity := by
    simp only [Linear.slotCells, Linear.innerCells, Builder.function, h.params, Numbered.ids,
      map_idOfNat_range hids]
  rw [hslots]
  constructor
  · refine List.nodup_append.2 ⟨List.nodup_range', List.nodup_cons.2 ⟨?_, ?_⟩, ?_⟩
    · simp
    · exact List.nodup_range.filter _
    · rintro cell hcell other hother rfl
      rcases List.mem_cons.1 hother with rfl | hother
      · simp [Build.resultCell] at hcell
      · rw [List.mem_filter] at hother
        simp_all
  · intro cell hcell
    by_cases hparam : cell ∈ List.range' 1 arity
    · exact List.mem_append_left _ hparam
    · refine List.mem_append_right _ ?_
      by_cases hresult : cell = Build.resultCell
      · rw [hresult]
        exact List.mem_cons_self
      · refine List.mem_cons_of_mem _ (List.mem_filter.2 ⟨List.mem_range.2 hcell, ?_⟩)
        simp only [ne_eq, hresult, not_false_eq_true, decide_true, hparam, Bool.and_self]

theorem lowerable (h : b.Valid r id arity result) (hids : b.locals.length ≤ idCount)
    (hclosed : ∀ {i : BlockId} {block : Block}, b.blocks[i]? = some block → block.terminator ≠ .unset)
    (name : String) : Linear.Lowerable r.functions (b.function id name) := by
  obtain ⟨hslots, hcells⟩ := h.slotCells hids name
  have hblock : ∀ {block : Block}, block ∈ b.blocks →
      ∃ i, b.blocks[i]? = some block ∧ block.Valid r b.blocks.length b.locals i := by
    intro block hmem
    obtain ⟨i, hi⟩ := List.mem_iff_getElem?.1 hmem
    exact ⟨i, hi, h.blocks i block hi⟩
  refine ⟨⟨?_, ?_, ?_, ?_, ?_, ?_⟩, hslots⟩
  · show (b.blocks.map Block.id).Nodup
    rw [h.blockIds]
    exact List.nodup_range
  · show (b.blocks.map Block.id).head? = some Build.entryBlock
    have hpos : 1 < b.blocks.length := h.exit
    rw [h.blockIds, List.head?_range, if_neg (by omega)]
    rfl
  · intro block hmem s hs
    obtain ⟨i, -, hvalid⟩ := hblock hmem
    show s ∈ b.blocks.map Block.id
    rw [h.blockIds, List.mem_range]
    exact hvalid.terminator.targets s hs
  · intro block hmem s
    obtain ⟨i, -, hvalid⟩ := hblock hmem
    exact hvalid.terminator.branches s
  · intro block hmem
    obtain ⟨i, hi, hvalid⟩ := hblock hmem
    exact ⟨hclosed hi, hvalid.terminator.noError⟩
  · intro block hmem s hs
    obtain ⟨i, -, hvalid⟩ := hblock hmem
    have hfits := hvalid.statements s hs
    cases s with
    | push value => cases value <;> exact hfits
    | load cell => exact hcells cell (List.mem_range.1 hfits)
    | store cell => exact hcells cell (List.mem_range.1 hfits)
    | _ => trivial

theorem code_function (h : b.Valid r id arity result) (name : String) :
    (b.function id name).code = b.code := by
  funext i
  simp only [Function.code, Builder.code]
  rw [← h.findBlock? i]
  rfl

/-- A finished graph is kinded. -/
theorem kinded (h : b.Valid r id arity result)
    (hclosed : ∀ {i : BlockId} {block : Block}, b.blocks[i]? = some block → block.terminator ≠ .unset)
    (htype : r.functionType? id = some (.function id params result)) (hlen : params.length = arity)
    (name : String) : (b.function id name).Kinded r
      ⟨params.map (Ty.kind r.functions), result.kind r.functions⟩ := by
  refine ⟨fun block hmem => ?_, List.forall₂_iff_get.2 ⟨?_, fun i hi hi' => ?_⟩, h.result⟩
  · obtain ⟨i, hi⟩ := List.mem_iff_getElem?.1 hmem
    exact (h.blocks i block hi).kinded (hclosed hi)
  · show b.cells.params.length = _
    rw [h.params, List.length_range', List.length_map, hlen]
  · have hlt : i < params.length := by simpa using hi'
    have hcell : CellKind r (b.function id name).locals _ _ :=
      h.cells.params htype (List.getElem?_eq_getElem hlt) (List.getElem?_eq_getElem hi)
    simpa only [List.get_eq_getElem, List.getElem_map] using hcell

end Builder.Valid

theorem nodup_ownOfBlock (hm : m.Clean) {tag : Tag}
    (hmem : .function tag decl ∈ m.statements) (hbody : decl.body = some body) :
    ((Stmt.ownOfBlock body).map Stmt.id).Nodup := by
  have hall : (Stmt.allOfBlock body).Sublist m.statements := by
    refine List.Sublist.trans ?_ (Stmt.sublist_allOfList m.items hmem)
    simp only [Stmt.all, Stmt.allOfBody_eq, hbody, Stmt.allOfOption]
    exact List.sublist_cons_self _ _
  exact hm.stmtIds.sublist (((Stmt.ownOfBlock_sublist body).trans hall).map Stmt.id)

theorem Build.body_makes {cells : List Local} (hr : r.Scoped m) (ha : answers.Sound m r)
    (hscoped : body.Scoped r id arity [] [])
    (hchecked : ∀ s ∈ Stmt.ownOfBlock body, s.Checked r result answers)
    (hready : (startBuilder result cells).begin.Ready r id arity result [] []
      (Draws.ofStmts (Stmt.ownOfBlock body)) none []) :
    ∃ b : Builder, Build.body r body (startBuilder result cells) answers = .ok ((), b.finish) answers ∧
      (startBuilder result cells).begin.Adds r id arity result []
        (Draws.ofStmts (Stmt.ownOfBlock body))
        (fun code cells k k' => CompiledBlock r code cells none body k k') [] b := by
  obtain ⟨_, b, hrun, hadds⟩ := Build.block_makes hr ha body hscoped hchecked _ _ hready
  have hexit : Build.exitBlock < b.blocks.length := hadds.valid.exit
  have hend : Build.Makes answers (Build.body r body) (startBuilder result cells)
      fun _ b' => b' = b.finish := by
    have hstart : (startBuilder result cells).Named := ⟨rfl, fun hget => by cases hget⟩
    obtain ⟨hentry, hexit⟩ := newBlocks_run answers hstart (show 0 + 2 ≤ idCount by decide)
    refine .step hentry <| .step hexit <| .step continueAt_run <| .step hrun ?_
    refine .step (goto_run hadds.opens.lt) ?_
    exact .of_eq (terminate_run (by rwa [Builder.length_close])) rfl
  obtain ⟨_, b', hrun', rfl⟩ := hend
  exact ⟨b, hrun', hadds⟩

/-- The graph of a function that passed the check is built without further questions. -/
theorem buildFunction_makes (hm : m.Clean) (hr : r.Scoped m) (ha : answers.Sound m r)
    (hid : id ∈ r.functions) (hdecl : r.function? id = some decl) (hbody : decl.body = some body)
    (hchecked : r.FunctionChecked answers id decl params result) (hids : EnoughIds decl.params body) :
    ∃ f, buildFunction r id answers = .ok f answers ∧ GraphOf r id decl body f := by
  obtain ⟨tag, decl', rfl, hfind, hscoped⟩ := hr.function id hid
  obtain rfl : decl = decl' :=
    Option.some.inj (hdecl.symm.trans (Resolutions.function?_eq_some.2 ⟨tag, hfind⟩))
  have hlen : params.length = decl.params.length := by
    obtain ⟨decl', _, _, hdecl', hparams, -, heq⟩ := Resolutions.functionType?_eq_some.1 hchecked.type
    cases heq
    rw [hdecl, Option.some.injEq] at hdecl'
    subst hdecl'
    exact (Param.plain_of_meanings? hparams).1
  have hready := ready_begin hchecked.type hlen
    (Draws.ids_ofStmts _ ▸ nodup_ownOfBlock hm (hr.declared hfind).1 hbody) hids.blocks hids.cells
  obtain ⟨b, hrun, hadds⟩ :=
    Build.body_makes hr ha (hscoped body hbody) (hchecked.body body hbody) hready
  have hvalid := hadds.valid_finish rfl
  have hparams : b.finish.cells.params = List.range' 1 decl.params.length := hvalid.params
  refine ⟨b.finish.function tag.id decl.ident.name, ?_, ?_⟩
  · have htype : Query.ofFunction r tag.id answers = .ok (.function tag.id params result) answers := by
      rw [Query.ofFunction, run_get_bind, hchecked.known]
      rfl
    simp only [buildFunction, hdecl, hbody]
    show EStateM.bind (Query.ofFunction r tag.id) _ answers = _
    simp only [EStateM.bind, htype]
    show EStateM.bind (Build.body r body (startBuilder result _)) _ answers = _
    simp only [EStateM.bind, hrun]
    rw [ids_paramLocals hlen (Nat.le_of_add_right_le hids.cells), ← hparams]
    rfl
  · obtain ⟨hexit, k, hentry, hfound⟩ := hadds.found_finish rfl
    have hcode := hvalid.code_function decl.ident.name
    have hclosed : ∀ {i : BlockId} {block : Block}, b.finish.blocks[i]? = some block →
        block.terminator ≠ .unset := fun hget => hadds.leads.closed_finish rfl hget
    have hlocals : b.finish.locals.length ≤ idCount := hadds.grows.cells.trans hready.room.cells
    refine ⟨rfl, hvalid.lowerable hlocals hclosed _, hvalid.blockIds, hvalid.localIds,
      ⟨rfl, fun block hmem hreturn => ?_⟩, hparams, rfl, ?_, ⟨b.cells, k, rfl, hvalid.apart, ?_, ?_⟩,
      fun htype => ?_⟩
    · obtain ⟨i, hi⟩ := List.mem_iff_getElem?.1 hmem
      have hblock := hvalid.blocks i block hi
      exact hblock.id.trans (hblock.terminator.returns hreturn)
    · rw [hcode]; exact hexit
    · rw [hcode]; exact hentry
    · rw [hcode]; exact hfound
    · cases hchecked.type.symm.trans htype
      exact hvalid.kinded hclosed hchecked.type hlen _

end

/-! ## Simplified graphs -/

namespace Function.Kinded

variable {r : Resolutions} {s : Signature} {f : Function}

theorem dropUnreferenced (h : f.Kinded r s) : f.dropUnreferenced.Kinded r s :=
  ⟨fun b hb => h.blocks b (mem_dropUnreferenced.1 hb).1, h.params, h.result⟩

/-- A block that goes on with another one leaves it an empty stack. -/
theorem fuse (h : f.Kinded r s) (hf : f.Closed) {first second : Block}
    (hfuse : f.Fusible first second) : (f.fuse first second).Kinded r s := by
  refine ⟨hf.forall_mem_fuse hfuse h.blocks ?_, h.params, h.result⟩
  obtain ⟨ks, hss, hks⟩ := h.blocks first hfuse.first_mem
  obtain ⟨ks', hss', hks'⟩ := h.blocks second hfuse.second_mem
  rw [hfuse.edge] at hks
  obtain rfl : ks = [] := hks
  exact ⟨ks', hss.append hss', hks'⟩

theorem simplify (h : f.Kinded r s) (hf : f.Closed) : f.simplify.Kinded r s :=
  (Closed.simplify_induction (Q := fun g => g.Kinded r s) (fun _ hg => hg.dropUnreferenced)
    (fun hg hfuse hkinded => hkinded.fuse hg hfuse) hf h).2

end Function.Kinded

end WordLang.Flow
