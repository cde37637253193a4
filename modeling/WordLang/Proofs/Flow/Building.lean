import WordLang.Proofs.Flow.Builder
import WordLang.Proofs.Flow.Kinds
import WordLang.Proofs.Typing.Check

/-!
# Building graphs succeeds

The graph of a function that passed the check can be built: every name has a cell, every `break` has
a block to continue at, and the types of all cells are known. The graph is tidy, every statement of
the function is found in it, and every block leads from an empty stack to an empty stack, or to the
number that a branch tests. While a graph is being built the last holds of the blocks that are closed,
and it is known where an open block has led so far.

## Main definitions

* `Flow.Builder.Valid`: graphs whose blocks, edges and cells make sense
* `Flow.Builder.Opens`: where an open block has led so far
* `Flow.Builder.Ready`: graphs that a statement can be added to
* `Flow.Builder.Adds`: what is added for a statement

## Main results

* `Flow.Build.statement_makes`: statements
* `Flow.buildFunction_makes`: functions
-/

namespace WordLang.Flow

/-! ## Valid graphs -/

/-- Where the block `i` of a graph with `n` blocks may go on. -/
structure Terminator.Valid (n : Nat) (i : BlockId) (t : Terminator) : Prop where
  targets : ∀ s ∈ t.successors, s < n
  noError : t ≠ .error
  branches : ∀ s, t ≠ .branch s s
  returns : t = .return → i = Build.exitBlock

section

variable {n : Nat} {i : BlockId}

theorem Terminator.Valid.mono {n' : Nat} {t : Terminator} (h : t.Valid n i) (hn : n ≤ n') :
    t.Valid n' i :=
  { h with targets := fun s hs => Nat.lt_of_lt_of_le (h.targets s hs) hn }

theorem Terminator.valid_unset : Terminator.unset.Valid n i :=
  ⟨by simp [Terminator.successors], by simp, by simp, by simp⟩

theorem Terminator.valid_return : Terminator.return.Valid n Build.exitBlock :=
  ⟨by simp [Terminator.successors], by simp, by simp, fun _ => rfl⟩

theorem Terminator.valid_goto {target : BlockId} (h : target < n) :
    (Terminator.goto target).Valid n i :=
  ⟨by simpa [Terminator.successors] using h, by simp, by simp, by simp⟩

theorem Terminator.valid_branch {onTrue onFalse : BlockId} (ht : onTrue < n) (hf : onFalse < n)
    (hne : onTrue ≠ onFalse) : (Terminator.branch onTrue onFalse).Valid n i := by
  refine ⟨?_, by simp, ?_, by simp⟩
  · simp [Terminator.successors, if_neg hne, ht, hf]
  · rintro s hs
    cases hs
    exact hne rfl

end

theorem fits_mono {functions : List StmtId} {n n' : Nat} (hn : n ≤ n') {s : Statement}
    (h : Linear.Fits functions (List.range n) s) : Linear.Fits functions (List.range n') s := by
  cases s with
  | push value => cases value <;> exact h
  | load cell =>
    exact List.mem_range.2 (Nat.lt_of_lt_of_le (List.mem_range.1 h) hn)
  | store cell =>
    exact List.mem_range.2 (Nat.lt_of_lt_of_le (List.mem_range.1 h) hn)
  | _ => trivial

/-- A block named `i` of a graph with `n` blocks and the storage cells `locals`. -/
structure Block.Valid (r : Resolutions) (n : Nat) (locals : List Local) (i : BlockId) (block : Block) :
    Prop where
  id : block.id = i
  terminator : block.terminator.Valid n i
  statements : ∀ s ∈ block.statements, Linear.Fits r.functions (List.range locals.length) s
  /-- A block that is closed leads to what its terminator takes. -/
  kinded : block.terminator ≠ .unset → block.Kinded r locals

theorem Block.Valid.mono {r : Resolutions} {n n' : Nat} {locals locals' : List Local} {i : BlockId}
    {block : Block} (h : block.Valid r n locals i) (hn : n ≤ n') (hl : locals <+: locals') :
    block.Valid r n' locals' i :=
  ⟨h.id, h.terminator.mono hn, fun s hs => fits_mono hl.length_le (h.statements s hs),
    fun hset => (h.kinded hset).mono hl⟩

/-! ## What is drawn -/

/-- What is drawn for a part of a graph: the identifiers of the statements whose cells and exits are
noted, and numbers of blocks and cells. -/
@[ext]
structure Draws where
  ids : List StmtId := []
  blocks : Nat := 0
  cells : Nat := 0

namespace Draws

instance : Append Draws where
  append d d' := ⟨d.ids ++ d'.ids, d.blocks + d'.blocks, d.cells + d'.cells⟩

@[simp] theorem ids_append (d d' : Draws) : (d ++ d').ids = d.ids ++ d'.ids := rfl

@[simp] theorem blocks_append (d d' : Draws) : (d ++ d').blocks = d.blocks + d'.blocks := rfl

@[simp] theorem cells_append (d d' : Draws) : (d ++ d').cells = d.cells + d'.cells := rfl

structure Within (d d' : Draws) : Prop where
  ids : d.ids.Sublist d'.ids
  blocks : d.blocks ≤ d'.blocks
  cells : d.cells ≤ d'.cells

variable (d d' : Draws)

theorem Within.refl : d.Within d := ⟨.refl _, le_rfl, le_rfl⟩

theorem empty_within : ({} : Draws).Within d := ⟨List.nil_sublist _, Nat.zero_le _, Nat.zero_le _⟩

theorem within_append_left : d.Within (d ++ d') :=
  ⟨List.sublist_append_left _ _, Nat.le_add_right _ _, Nat.le_add_right _ _⟩

theorem within_append_right : d'.Within (d ++ d') :=
  ⟨List.sublist_append_right _ _, Nat.le_add_left _ _, Nat.le_add_left _ _⟩

/-- What is drawn for a statement itself. -/
def ofStmt : Stmt → Draws
  | .declare tag .. => { ids := [tag.id], cells := 1 }
  | .loop tag _ => { ids := [tag.id], blocks := 2 }
  | .while tag .. => { ids := [tag.id], blocks := 3 }
  | .choose tag _ _ falsy => { ids := [tag.id], blocks := if falsy.isSome then 3 else 2 }
  | .return tag _ | .break tag => { ids := [tag.id], blocks := 1 }
  | s => { ids := [s.id] }

/-- What is drawn for statements. -/
def ofStmts : List Stmt → Draws
  | [] => {}
  | s :: rest => ofStmt s ++ ofStmts rest

theorem ofStmts_append (ss ss' : List Stmt) : ofStmts (ss ++ ss') = ofStmts ss ++ ofStmts ss' := by
  induction ss with
  | nil => exact Draws.ext rfl (Nat.zero_add _).symm (Nat.zero_add _).symm
  | cons s ss ih =>
    rw [List.cons_append, ofStmts, ih]
    exact Draws.ext (List.append_assoc ..).symm (Nat.add_assoc ..).symm (Nat.add_assoc ..).symm

theorem ids_ofStmts (ss : List Stmt) : (ofStmts ss).ids = ss.map Stmt.id := by
  induction ss with
  | nil => rfl
  | cons s ss ih =>
    rw [ofStmts, ids_append, ih]
    cases s <;> rfl

end Draws

/-- There are identifiers for the blocks and cells of a function with the parameters `params` and the
body `body`: two blocks and the cell of the result come besides. -/
structure EnoughIds (params : List Param) (body : WordLang.Block) : Prop where
  blocks : 2 + (Draws.ofStmts (Stmt.ownOfBlock body)).blocks ≤ idCount
  cells : 1 + params.length + (Draws.ofStmts (Stmt.ownOfBlock body)).cells ≤ idCount

instance (params : List Param) (body : WordLang.Block) : Decidable (EnoughIds params body) :=
  decidable_of_iff (2 + (Draws.ofStmts (Stmt.ownOfBlock body)).blocks ≤ idCount ∧
      1 + params.length + (Draws.ofStmts (Stmt.ownOfBlock body)).cells ≤ idCount)
    ⟨fun h => ⟨h.1, h.2⟩, fun h => ⟨h.blocks, h.cells⟩⟩

namespace Builder

/-- A graph whose blocks, edges and cells make sense, for the function that `owner` declares, with
`arity` parameters and results of the type `result`. -/
structure Valid (r : Resolutions) (owner : StmtId) (arity : Nat) (result : Ty) (b : Builder) : Prop where
  blocks : ∀ (i : BlockId) (block : Block), b.blocks[i]? = some block →
    block.Valid r b.blocks.length b.locals i
  drawn : b.drawn = b.blocks.length
  exit : Build.exitBlock < b.blocks.length
  params : b.cells.params = List.range' 1 arity
  room : arity < b.locals.length
  localIds : b.locals.map Local.id = List.range b.locals.length
  declared : ∀ {id cell}, b.cells.declared.find? id = some cell → arity < cell ∧ cell < b.locals.length
  injective : ∀ {id id' cell}, b.cells.declared.find? id = some cell →
    b.cells.declared.find? id' = some cell → id = id'
  /-- The cells of parameters and declarations hold values of their types. -/
  cells : b.cells.Kinded r owner b.locals
  result : CellKind r b.locals Build.resultCell (result.kind r.functions)

/-- The block `i` is open and leads from an empty stack to `ks`. -/
def Opens (r : Resolutions) (b : Builder) (i : BlockId) (ks : List Kind) : Prop :=
  ∃ block, b.blocks[i]? = some block ∧ block.terminator = .unset ∧
    StatementsKinded r b.locals block.statements [] ks

section

variable {r : Resolutions} {b b' : Builder} {i j : BlockId} {ks ks' : List Kind} {t : Terminator}
  {ss : List Statement}

namespace Opens

theorem opened (h : b.Opens r b.current ks) : b.Opened := by
  obtain ⟨block, hget, hunset, -⟩ := h
  exact ⟨block, hget, hunset⟩

theorem lt (h : b.Opens r i ks) : i < b.blocks.length := by
  obtain ⟨block, hget, -⟩ := h
  exact (List.getElem?_eq_some_iff.1 hget).1

theorem addBlock (h : b.Opens r i ks) : b.addBlock.Opens r i ks := by
  have hlt := h.lt
  obtain ⟨block, hget, hopen⟩ := h
  exact ⟨block, by rw [get_addBlock, if_neg (Nat.ne_of_lt hlt), hget], hopen⟩

theorem close (h : b.Opens r i ks) (hne : i ≠ j) : (b.close j t).Opens r i ks := by
  obtain ⟨block, hget, hopen⟩ := h
  exact ⟨block, by rw [get_close, if_neg hne, hget], hopen⟩

theorem emit (h : b.Opens r b.current ks) (hss : StatementsKinded r b.locals ss ks ks') :
    (b.emit ss).Opens r b.current ks' := by
  obtain ⟨block, hget, hunset, hkinded⟩ := h
  refine ⟨{ block with statements := block.statements ++ ss }, ?_, hunset, hkinded.append hss⟩
  rw [get_emit, if_pos rfl, hget]
  rfl

theorem addCell (h : b.Opens r i ks) (decl : StmtId) (type : Ty) (name : String) :
    (b.addCell decl type name).Opens r i ks := by
  obtain ⟨block, hget, hunset, hkinded⟩ := h
  exact ⟨block, hget, hunset, hkinded.mono (List.prefix_append _ _)⟩

end Opens

theorem opens_addBlock (r : Resolutions) (b : Builder) : b.addBlock.Opens r b.blocks.length [] :=
  ⟨{ id := b.blocks.length }, by rw [get_addBlock, if_pos rfl], rfl, .nil []⟩

theorem Leads.opens {ids : List StmtId} (h : Leads ids b b') (hne : i ≠ b.current)
    (hi : b.Opens r i ks) : b'.Opens r i ks ∧ i ≠ b'.current := by
  have hlt := hi.lt
  obtain ⟨block, hget, hunset, hkinded⟩ := hi
  refine ⟨⟨block, (h.frame i hlt hne).trans hget, hunset, hkinded.mono h.locals⟩, ?_⟩
  rcases h.current with heq | hle
  · rwa [heq]
  · exact Nat.ne_of_lt (Nat.lt_of_lt_of_le hlt hle)

/-- A block that is open stays so while an alternative is added. -/
theorem Leads.opens_of_enterBranch {ids : List StmtId} (h : Leads ids b.enterBranch b')
    (hi : b.Opens r i ks) : b'.Opens r i ks ∧ i ≠ b'.current :=
  h.opens (Nat.ne_of_lt hi.lt) hi.addBlock

end

namespace Valid

variable {r : Resolutions} {owner : StmtId} {arity : Nat} {result : Ty} {b : Builder} {ks : List Kind}

theorem named (h : b.Valid r owner arity result) : b.Named :=
  ⟨h.drawn, fun hget => (h.blocks _ _ hget).id⟩

theorem addBlock (h : b.Valid r owner arity result) : b.addBlock.Valid r owner arity result := by
  refine { h with blocks := fun i block hget => ?_, drawn := h.named.addBlock.drawn, exit := ?_ }
  · rw [length_addBlock]
    rw [get_addBlock] at hget
    split at hget
    · next heq =>
      cases hget
      exact ⟨heq.symm, Terminator.valid_unset, by simp, fun hset => absurd rfl hset⟩
    · exact (h.blocks i block hget).mono (Nat.le_succ _) List.prefix_rfl
  · rw [length_addBlock]
    exact Nat.lt_succ_of_lt h.exit

/-- A block is closed by a terminator that takes what the block leaves. -/
theorem close (h : b.Valid r owner arity result) {id : BlockId} (hopen : b.Opens r id ks)
    {t : Terminator} (ht : t.Valid b.blocks.length id) (htakes : t.Takes ks) :
    (b.close id t).Valid r owner arity result := by
  refine { h with
    blocks := fun i block hget => ?_, drawn := h.drawn.trans length_close.symm, exit := ?_ }
  · rw [length_close]
    rw [get_close] at hget
    split at hget
    · next heq =>
      subst heq
      obtain ⟨block', hget', -, hkinded⟩ := hopen
      rw [hget', Option.map_some, Option.some.injEq] at hget
      subst hget
      exact { h.blocks i block' hget' with terminator := ht, kinded := fun _ => ⟨ks, hkinded, htakes⟩ }
    · exact h.blocks i block hget
  · rw [length_close]
    exact h.exit

theorem emit (h : b.Valid r owner arity result) (hopen : b.Opens r b.current ks) {ss : List Statement}
    (hss : ∀ s ∈ ss, Linear.Fits r.functions (List.range b.locals.length) s) :
    (b.emit ss).Valid r owner arity result := by
  refine { h with
    blocks := fun i block hget => ?_, drawn := h.drawn.trans length_emit.symm, exit := ?_ }
  · rw [length_emit]
    rw [get_emit] at hget
    split at hget
    · next heq =>
      subst heq
      obtain ⟨block', hget', hunset, -⟩ := hopen
      rw [hget', Option.map_some, Option.some.injEq] at hget
      subst hget
      have hv := h.blocks _ block' hget'
      exact { hv with
        statements := fun s hs => (List.mem_append.1 hs).elim (hv.statements s) (hss s)
        kinded := fun hset => absurd hunset hset }
    · exact h.blocks i block hget
  · rw [length_emit]
    exact h.exit

theorem moveTo (h : b.Valid r owner arity result) (id : BlockId) :
    (b.moveTo id).Valid r owner arity result :=
  { h with }

theorem noteExit (h : b.Valid r owner arity result) (loop : StmtId) (exit : BlockId) :
    (b.noteExit loop exit).Valid r owner arity result :=
  { h with }

theorem addCell (h : b.Valid r owner arity result) {decl : StmtId} {type : Ty}
    (hty : CellType r decl type) (name : String) :
    (b.addCell decl type name).Valid r owner arity result := by
  have hl : b.locals <+: (b.addCell decl type name).locals := List.prefix_append _ _
  have hlen : (b.addCell decl type name).locals.length = b.locals.length + 1 := by
    simp [Builder.addCell]
  refine { h with
    blocks := fun i block hget => (h.blocks i block hget).mono le_rfl hl
    room := hlen ▸ Nat.lt_succ_of_lt h.room
    localIds := ?_
    declared := fun {id cell} hfound => ?_
    injective := fun {id id' cell} hid hid' => ?_
    cells := ⟨(h.cells.mono hl).params, fun {id ty cell} hty' hcell => ?_⟩
    result := h.result.mono hl }
  · have hids : (b.addCell decl type name).locals.map Local.id =
        b.locals.map Local.id ++ [b.locals.length] := by
      simp [Builder.addCell]
    rw [hids, hlen, h.localIds, List.range_succ]
  · rw [hlen]
    simp only [Builder.addCell, Table.find?_insert] at hfound
    split at hfound
    · cases hfound
      exact ⟨h.room, Nat.lt_succ_self _⟩
    · exact ⟨(h.declared hfound).1, Nat.lt_succ_of_lt (h.declared hfound).2⟩
  · simp only [Builder.addCell, Table.find?_insert] at hid hid'
    -- The new cell is none of the cells that were there.
    split at hid
    · next heq =>
      cases hid
      split at hid'
      · next heq' => exact heq.trans heq'.symm
      · exact absurd (h.declared hid').2 (Nat.lt_irrefl _)
    · split at hid'
      · cases hid'
        exact absurd (h.declared hid).2 (Nat.lt_irrefl _)
      · exact h.injective hid hid'
  · simp only [Builder.addCell, Table.find?_insert] at hcell
    split at hcell
    · next heq =>
      subst heq
      cases hcell
      cases hty.unique hty'
      exact ⟨⟨b.locals.length, type, some name⟩, by simp [Builder.addCell], rfl⟩
    · exact (h.cells.declared hty' hcell).mono hl

theorem find_lt (h : b.Valid r owner arity result) {binding : Binding} {cell : LocalId}
    (hfind : b.cells.find binding = .ok cell) : cell < b.locals.length := by
  cases binding with
  | function decl => cases hfind
  | parameter owner index =>
    have hmem := List.mem_of_getElem? (Cells.find_parameter.1 hfind)
    rw [h.params, List.mem_range'_1] at hmem
    have harity := h.room
    exact Nat.lt_of_lt_of_le hmem.2 (by omega)
  | «local» decl => exact (h.declared (Cells.find_local.1 hfind)).2

theorem covers (h : b.Valid r owner arity result) {visible : List StmtId}
    (hv : ∀ id ∈ visible, ∃ cell, b.cells.declared.find? id = some cell) :
    b.cells.Covers r.functions owner arity visible := by
  intro binding hin hfun
  cases binding with
  | function decl => cases hfun
  | parameter scope index =>
    obtain ⟨-, hlt⟩ := hin
    have hget : (List.range' 1 arity)[index]? = some (1 + index) := by
      simp [hlt]
    exact ⟨1 + index, Cells.find_parameter.2 (h.params ▸ hget)⟩
  | «local» decl =>
    obtain ⟨cell, hcell⟩ := hv decl hin
    exact ⟨cell, Cells.find_local.2 hcell⟩

end Valid

/-! ## Parts of a graph -/

theorem Leads.find? {ids : List StmtId} {b b' : Builder} (h : Leads ids b b') {id : StmtId}
    {cell : LocalId} (hid : b.cells.declared.find? id = some cell) :
    b'.cells.declared.find? id = some cell :=
  Cells.find_local.1 (h.cells (Cells.find_local.2 hid))

/-- There are identifiers for what is drawn. -/
structure Room (d : Draws) (b : Builder) : Prop where
  blocks : b.blocks.length + d.blocks ≤ idCount
  cells : b.locals.length + d.cells ≤ idCount

/-- No more is drawn than `d` says. -/
structure Grows (d : Draws) (b b' : Builder) : Prop where
  blocks : b'.blocks.length ≤ b.blocks.length + d.blocks
  cells : b'.locals.length ≤ b.locals.length + d.cells

section

variable {d d' : Draws} {b b' b'' : Builder}

theorem Room.le_of_blocks (h : b.Room d) {n : Nat} (hn : n ≤ d.blocks) :
    b.blocks.length + n ≤ idCount :=
  (Nat.add_le_add_left hn _).trans h.blocks

theorem Room.after (h : b.Room (d ++ d')) (hg : Grows d b b') : b'.Room d' where
  blocks := (Nat.add_le_add_right hg.blocks _).trans ((Nat.add_assoc ..).le.trans h.blocks)
  cells := (Nat.add_le_add_right hg.cells _).trans ((Nat.add_assoc ..).le.trans h.cells)

theorem Grows.trans (h : Grows d b b') (h' : Grows d' b' b'') : Grows (d ++ d') b b'' where
  blocks := h'.blocks.trans ((Nat.add_le_add_right h.blocks _).trans (Nat.add_assoc ..).le)
  cells := h'.cells.trans ((Nat.add_le_add_right h.cells _).trans (Nat.add_assoc ..).le)

theorem Grows.mono (h : Grows d b b') (hd : d.Within d') : Grows d' b b' where
  blocks := h.blocks.trans (Nat.add_le_add_left hd.blocks _)
  cells := h.cells.trans (Nat.add_le_add_left hd.cells _)

theorem grows_enterBranch : Grows { blocks := 1 } b b.enterBranch :=
  ⟨length_addBlock.le, le_rfl⟩

end

/-- Statements that draw `d` can be added to a graph, whose current block leads to `stack`. -/
structure Ready (r : Resolutions) (owner : StmtId) (arity : Nat) (result : Ty)
    (visible loops : List StmtId) (d : Draws) (exit? : Option BlockId) (stack : List Kind)
    (b : Builder) : Prop where
  valid : b.Valid r owner arity result
  opens : b.Opens r b.current stack
  visible : ∀ id ∈ visible, ∃ cell, b.cells.declared.find? id = some cell
  fresh : ∀ id ∈ d.ids, b.cells.declared.find? id = none
  nodup : d.ids.Nodup
  loop : ∀ l, loops.head? = some l → l ∉ d.ids ∧
    ∃ exit, exit? = some exit ∧ b.loopExits.find? l = some exit ∧ exit < b.blocks.length
  room : b.Room d

/-- What was added to a graph draws `d`, makes sense and leads to `stack`, and in the finished graph
`found` holds between what comes at its start and what comes at its end. -/
structure Adds (r : Resolutions) (owner : StmtId) (arity : Nat) (result : Ty)
    (visible : List StmtId) (d : Draws)
    (found : (BlockId → Option Code) → Cells → Code → Code → Prop) (stack : List Kind)
    (b b' : Builder) : Prop where
  valid : b'.Valid r owner arity result
  opens : b'.Opens r b'.current stack
  leads : Leads d.ids b b'
  grows : Grows d b b'
  visible : ∀ id ∈ visible, ∃ cell, b'.cells.declared.find? id = some cell
  found : ∀ {code cells k'}, b'.Sealed code → b'.cells.Extends cells → b'.Continues code k' →
    ∃ k, b.Continues code k ∧ found code cells k k'

section

variable {r : Resolutions} {owner : StmtId} {arity : Nat} {result : Ty}
  {visible visible' loops : List StmtId} {d d' : Draws} {exit? : Option BlockId}
  {stack stack' stack'' : List Kind} {b b' b'' : Builder}
  {found found' : (BlockId → Option Code) → Cells → Code → Code → Prop}

theorem Ready.within (h : b.Ready r owner arity result visible loops d exit? stack)
    (hd : d'.Within d) : b.Ready r owner arity result visible loops d' exit? stack :=
  { h with
    fresh := fun id hid => h.fresh id (hd.ids.subset hid)
    nodup := h.nodup.sublist hd.ids
    loop := fun l hl => ⟨fun hm => (h.loop l hl).1 (hd.ids.subset hm), (h.loop l hl).2⟩
    room := ⟨(Nat.add_le_add_left hd.blocks _).trans h.room.blocks,
      (Nat.add_le_add_left hd.cells _).trans h.room.cells⟩ }

theorem Ready.blocks_lt (h : b.Ready r owner arity result visible loops d exit? stack)
    (hd : 0 < d.blocks) : b.blocks.length < idCount := h.room.le_of_blocks hd

/-- After a part was added, what comes next can be added. -/
theorem Ready.after (h : b.Ready r owner arity result visible loops (d ++ d') exit? stack)
    (ha : Adds r owner arity result visible' d found stack' b b') :
    b'.Ready r owner arity result (visible' ++ visible) loops d' exit? stack' where
  valid := ha.valid
  opens := ha.opens
  visible := by
    intro id hid
    rcases List.mem_append.1 hid with hid | hid
    · exact ha.visible id hid
    · obtain ⟨cell, hcell⟩ := h.visible id hid
      exact ⟨cell, ha.leads.find? hcell⟩
  fresh := by
    intro id hid
    rw [ha.leads.declared id fun hm => (List.nodup_append.1 h.nodup).2.2 id hm id hid rfl]
    exact h.fresh id (List.mem_append_right _ hid)
  nodup := (List.nodup_append.1 h.nodup).2.1
  loop := by
    intro l hl
    obtain ⟨hnot, exit, hexit, hfind, hlt⟩ := h.loop l hl
    rw [Draws.ids_append, List.mem_append, not_or] at hnot
    refine ⟨hnot.2, exit, hexit, ?_, Nat.lt_of_lt_of_le hlt ha.leads.length⟩
    rw [ha.leads.exits l hnot.1, hfind]
  room := h.room.after ha.grows

/-- The same for a part that notes nothing. -/
theorem Ready.next (h : b.Ready r owner arity result visible loops d exit? stack)
    (ha : Adds r owner arity result [] {} found stack' b b') :
    b'.Ready r owner arity result visible loops d exit? stack' :=
  (h.within ⟨.refl _, (Nat.zero_add _).le, (Nat.zero_add _).le⟩ :
    b.Ready r owner arity result visible loops ({} ++ d) exit? stack).after ha

theorem Adds.trans (h : Adds r owner arity result visible d found stack b b')
    (h' : Adds r owner arity result visible' d' found' stack' b' b'') :
    Adds r owner arity result (visible ++ visible') (d ++ d')
      (fun code cells k k'' => ∃ k', found code cells k k' ∧ found' code cells k' k'') stack' b b'' where
  valid := h'.valid
  opens := h'.opens
  leads := h.leads.trans h'.leads
  grows := h.grows.trans h'.grows
  visible := by
    intro id hid
    rcases List.mem_append.1 hid with hid | hid
    · obtain ⟨cell, hcell⟩ := h.visible id hid
      exact ⟨cell, h'.leads.find? hcell⟩
    · exact h'.visible id hid
  found := by
    intro code cells k'' hsealed hext hk
    obtain ⟨k', hk', hfound'⟩ := h'.found hsealed hext hk
    obtain ⟨k, hk, hfound⟩ := h.found (h'.leads.sealed h.opens.opened hsealed)
      (h'.leads.cells.trans hext) hk'
    exact ⟨k, hk, k', hfound, hfound'⟩

theorem Adds.mono (h : Adds r owner arity result visible d found stack b b')
    (hd : d.Within d') (hvisible : visible' ⊆ visible)
    (hfound : ∀ {code cells k k'}, found code cells k k' → found' code cells k k') :
    Adds r owner arity result visible' d' found' stack b b' where
  valid := h.valid
  opens := h.opens
  leads := { h.leads with
    declared := fun id hid => h.leads.declared id fun hm => hid (hd.ids.subset hm)
    exits := fun id hid => h.leads.exits id fun hm => hid (hd.ids.subset hm) }
  grows := h.grows.mono hd
  visible := fun id hid => h.visible id (hvisible hid)
  found := by
    intro code cells k' hsealed hext hk'
    obtain ⟨k, hk, hf⟩ := h.found hsealed hext hk'
    exact ⟨k, hk, hfound hf⟩

theorem Ready.adds_nothing (h : b.Ready r owner arity result visible loops d exit? stack) :
    Adds r owner arity result [] {} (fun _ _ k k' => k = k') stack b b where
  valid := h.valid
  opens := h.opens
  leads := Leads.refl b
  grows := ⟨le_rfl, le_rfl⟩
  visible := by simp
  found := fun _ _ hk => ⟨_, hk, rfl⟩

theorem adds_emit (hvalid : b.Valid r owner arity result) (hopen : b.Opens r b.current stack)
    (ss : List Statement) (hss : ∀ s ∈ ss, Linear.Fits r.functions (List.range b.locals.length) s)
    (hkinded : StatementsKinded r b.locals ss stack stack') :
    Adds r owner arity result [] {} (fun _ _ k k' => k = Code.before ss k') stack' b (b.emit ss) where
  valid := hvalid.emit hopen hss
  opens := hopen.emit hkinded
  leads := Leads.emit b ss
  grows := ⟨length_emit.le, le_rfl⟩
  visible := by simp
  found := fun _ _ hk => ⟨_, hk.emit, rfl⟩

theorem adds_addCell (hvalid : b.Valid r owner arity result) (hopen : b.Opens r b.current stack)
    {decl : StmtId} (hnew : b.cells.declared.find? decl = none) {type : Ty} (hty : CellType r decl type)
    (name : String) :
    Adds r owner arity result [decl] { ids := [decl], cells := 1 } (fun _ cells k k' => k = k' ∧
      cells.find (.local decl) = .ok b.locals.length) stack b (b.addCell decl type name) where
  valid := hvalid.addCell hty name
  opens := hopen.addCell decl type name
  leads := Leads.addCell b hnew type name
  grows := ⟨le_rfl, (List.length_append ..).le⟩
  visible := by
    intro id hid
    rw [List.mem_singleton.1 hid]
    exact ⟨_, Table.find?_insert_self _ _ _⟩
  found := by
    intro code cells k' _ hext hk
    refine ⟨k', hk, rfl, hext ?_⟩
    simp only [Cells.find, Builder.addCell, Table.find?_insert_self]

theorem adds_turn (hvalid : b.Valid r owner arity result) (hopen : b.Opens r b.current [])
    {target : BlockId} (htarget : target ≤ b.blocks.length) :
    Adds r owner arity result [] { blocks := 1 }
      (fun code _ k k' => k = ([], .goto target) ∧ code b.blocks.length = some k') [] b
      (b.turn (.goto target)) where
  valid := by
    rw [← close_addBlock hopen.lt]
    refine (hvalid.addBlock.close hopen.addBlock (Terminator.valid_goto ?_) rfl).moveTo _
    rw [length_addBlock]
    exact Nat.lt_succ_of_le htarget
  opens := by
    have h := opens_addBlock r (b.close b.current (.goto target))
    rw [length_close] at h
    exact h
  leads := Leads.turn (by simp) hopen.lt
  grows := ⟨by simp [Builder.turn, moveTo], le_rfl⟩
  visible := by simp
  found := by
    intro code cells k' hsealed _ hk
    refine ⟨_, Continues.turn hopen.opened (by simp) hsealed, rfl, hk.code_of_empty ?_⟩
    simp only [Builder.turn, moveTo, get_addBlock, length_close, if_true]

/-! ## Loops and choices -/

variable {start : Builder} {id : StmtId} {exit head : BlockId} {t : Terminator}

theorem Valid.enter (h : b.Valid r owner arity result) (hopen : b.Opens r b.current stack)
    (ht : t.Valid (b.blocks.length + 2) b.current) (htakes : t.Takes stack) (id : StmtId) :
    (b.enter id t).Valid r owner arity result := by
  refine ((h.addBlock.addBlock.close hopen.addBlock.addBlock ?_ htakes).noteExit _ _).moveTo _
  rwa [length_addBlock, length_addBlock]

theorem opens_enter (hopen : b.Opens r b.current stack) (id : StmtId) (t : Terminator) :
    (b.enter id t).Opens r (b.enter id t).current [] ∧
      (b.enter id t).Opens r (b.blocks.length + 1) [] := by
  have hexit := opens_addBlock r b.addBlock
  rw [length_addBlock] at hexit
  exact ⟨(opens_addBlock r b).addBlock.close hopen.lt.ne',
    hexit.close (Nat.ne_of_gt (Nat.lt_succ_of_lt hopen.lt))⟩

theorem Ready.enter
    (h : b.Ready r owner arity result visible loops ({ ids := [id], blocks := 2 } ++ d) exit? stack)
    (ht : t.Valid (b.blocks.length + 2) b.current) (hset : t ≠ .unset) (htakes : t.Takes stack) :
    (b.enter id t).Ready r owner arity result visible (id :: loops) d
      (some (b.blocks.length + 1)) [] where
  valid := h.valid.enter h.opens ht htakes id
  opens := (opens_enter h.opens id t).1
  visible := h.visible
  fresh := fun d hd => h.fresh d (List.mem_cons_of_mem _ hd)
  nodup := (List.nodup_cons.1 h.nodup).2
  loop := by
    rintro l ⟨⟩
    have hs := enters_enter (b := b) id hset h.opens.lt
    refine ⟨(List.nodup_cons.1 h.nodup).1, _, rfl, ?_, hs.exitAdded.2.1⟩
    rw [hs.exits, Table.find?_insert_self]
  room := h.room.after ⟨by simp [Builder.enter, moveTo, noteExit], le_rfl⟩

theorem adds_loop (hopen : b.Opens r b.current stack) (hset : t ≠ .unset)
    (hhead : head < b.blocks.length + 2)
    (h : Adds r owner arity result visible d found [] (b.enter id t) b') :
    Adds r owner arity result [] ({ ids := [id], blocks := 2 } ++ d) (fun code cells k k' => k = ([], t) ∧
      ∃ kin, code b.blocks.length = some kin ∧ code (b.blocks.length + 1) = some k' ∧
        found code cells kin ([], .goto head)) [] b (b'.leaveLoop head (b.blocks.length + 1)) := by
  have hs := enters_enter (b := b) id hset hopen.lt
  obtain ⟨hexit, hne⟩ := h.leads.opens hs.exitAdded.2.2 (opens_enter hopen id t).2
  refine ⟨(h.valid.close h.opens (Terminator.valid_goto ?_) rfl).moveTo _, hexit.close hne,
    Leads.loop hs h.leads, ?_, by simp, ?_⟩
  · refine Nat.lt_of_lt_of_le hhead ?_
    have hlen := h.leads.length
    simp only [Builder.enter, moveTo, noteExit, length_close, length_addBlock] at hlen
    exact hlen
  · have hgrows : Grows { ids := [id], blocks := 2 } b (b.enter id t) :=
      ⟨by simp [Builder.enter, moveTo, noteExit], le_rfl⟩
    refine ⟨le_of_eq_of_le ?_ (hgrows.trans h.grows).blocks, (hgrows.trans h.grows).cells⟩
    simp [leaveLoop, moveTo]
  · intro code cells k' hsealed hext hk
    obtain ⟨hexit, hsealed', hk', hstart⟩ := hs.keeps h.leads h.opens.opened hsealed hk
    obtain ⟨kin, hkin, hfound⟩ := h.found hsealed' hext hk'
    refine ⟨_, Continues.of_closed hopen.opened hstart hset ?_, rfl, kin,
      hkin.code_of_empty hs.startEmpty, hexit, hfound⟩
    have hcur := hopen.lt
    simp only [Builder.enter, moveTo, noteExit, length_addBlock, get_close, get_addBlock]
    grind

theorem Ready.enterBranch
    (h : b.Ready r owner arity result visible loops ({ blocks := 1 } ++ d) exit? stack) :
    b.enterBranch.Ready r owner arity result visible loops d exit? [] :=
  { h with
    room := h.room.after grows_enterBranch
    valid := h.valid.addBlock.moveTo _
    opens := opens_addBlock r b
    loop := by
      intro l hl
      obtain ⟨hnot, exit, hexit, hfind, hlt⟩ := h.loop l hl
      refine ⟨hnot, exit, hexit, hfind, ?_⟩
      show exit < b.addBlock.blocks.length
      rw [length_addBlock]
      exact Nat.lt_succ_of_lt hlt }

variable {b₁ b₂ : Builder}

theorem Leads.length_lt_of_enterBranch {ids : List StmtId} (h : Leads ids b.enterBranch b') :
    b.blocks.length < b'.blocks.length := by
  have hlen := h.length
  simp only [Builder.enterBranch, moveTo, length_addBlock] at hlen
  exact hlen

theorem adds_choice (hopen : b.Opens r b.current [.word])
    (h : Adds r owner arity result visible d found [] b.enterBranch b₁) :
    Adds r owner arity result [] ({ blocks := 2 } ++ d)
      (fun code cells k k' => k = ([], .branch b.blocks.length b₁.blocks.length) ∧
        ∃ kt, code b.blocks.length = some kt ∧ code b₁.blocks.length = some k' ∧
          found code cells kt ([], .goto b₁.blocks.length)) [] b
      (b₁.endChoice b.current b.blocks.length b₁.current) where
  valid := by
    obtain ⟨htest, hne⟩ := h.leads.opens_of_enterBranch hopen
    have hlt := h.leads.length_lt_of_enterBranch
    refine (Valid.close (h.valid.addBlock.close h.opens.addBlock (Terminator.valid_goto ?_) rfl)
      (htest.addBlock.close hne) (Terminator.valid_branch ?_ ?_ ?_) rfl).moveTo _
    · simp
    · simp only [length_close, length_addBlock]
      exact Nat.lt_succ_of_lt hlt
    · simp
    · exact Nat.ne_of_lt hlt
  opens := by
    have htest := (h.leads.opens_of_enterBranch hopen).1
    exact ((opens_addBlock r b₁).close h.opens.lt.ne').close htest.lt.ne'
  leads := Leads.choice hopen.opened h.leads
  grows := ⟨by
    have hblocks := (grows_enterBranch.trans h.grows).blocks
    simp only [endChoice, moveTo, length_close, length_addBlock, Draws.blocks_append] at hblocks ⊢
    omega, (grows_enterBranch.trans h.grows).cells⟩
  visible := by simp
  found := by
    intro code cells k' hsealed hext hk
    obtain ⟨hexit, hsealed₁, hk₁, hkb⟩ :=
      Leads.choice_keeps hopen.opened h.leads h.opens.opened hsealed hk
    obtain ⟨kt, hkt, hfound⟩ := h.found hsealed₁ hext hk₁
    exact ⟨_, hkb, rfl, kt, hkt.code_of_enterBranch, hexit, hfound⟩

theorem adds_alternatives (hopen : b.Opens r b.current [.word])
    (h₁ : Adds r owner arity result visible d found [] b.enterBranch b₁)
    (h₂ : Adds r owner arity result visible' d' found' [] b₁.enterBranch b₂) :
    Adds r owner arity result [] ({ blocks := 3 } ++ (d ++ d')) (fun code cells k k' =>
      k = ([], .branch b.blocks.length b₁.blocks.length) ∧
      ∃ kt kf, code b.blocks.length = some kt ∧ code b₁.blocks.length = some kf ∧
        code b₂.blocks.length = some k' ∧ found code cells kt ([], .goto b₂.blocks.length) ∧
        found' code cells kf ([], .goto b₂.blocks.length)) [] b
      (b₂.endAlternatives b.current b.blocks.length b₁.current b₁.blocks.length b₂.current) := by
  obtain ⟨htest, hne⟩ := h₁.leads.opens_of_enterBranch hopen
  obtain ⟨htest', hne'⟩ := h₂.leads.opens_of_enterBranch htest
  obtain ⟨hend, hend_ne⟩ := h₂.leads.opens_of_enterBranch h₁.opens
  have hlt₁ := h₁.leads.length_lt_of_enterBranch
  have hlt₂ := h₂.leads.length_lt_of_enterBranch
  have hgrows := (grows_enterBranch.trans h₁.grows).trans (grows_enterBranch.trans h₂.grows)
  have hleads := Leads.alternatives hopen.opened h₁.leads h₂.leads
  refine ⟨?_, ?_, hleads, ⟨?_, ?_⟩, by simp, ?_⟩
  · refine (Valid.close (Valid.close (h₂.valid.addBlock.close hend.addBlock
      (Terminator.valid_goto ?_) rfl) (h₂.opens.addBlock.close hend_ne.symm)
      (Terminator.valid_goto ?_) rfl) ((htest'.addBlock.close hne).close hne')
      (Terminator.valid_branch ?_ ?_ ?_) rfl).moveTo _
    · simp
    · simp
    · simp only [length_close, length_addBlock]
      exact Nat.lt_succ_of_lt (Nat.lt_trans hlt₁ hlt₂)
    · simp only [length_close, length_addBlock]
      exact Nat.lt_succ_of_lt hlt₂
    · exact Nat.ne_of_lt hlt₁
  · exact (((opens_addBlock r b₂).close hend.lt.ne').close h₂.opens.lt.ne').close htest'.lt.ne'
  · have hblocks := hgrows.blocks
    simp only [endAlternatives, moveTo, length_close, length_addBlock, Draws.blocks_append] at hblocks ⊢
    omega
  · exact hgrows.cells.trans (by simp)
  · intro code cells k' hsealed hext hk
    obtain ⟨hexit, hsealed₂, hk₂, hsealed₁, hk₁, hkb⟩ := Leads.alternatives_keeps hopen.opened
      h₁.leads h₁.opens.opened h₂.leads h₂.opens.opened hsealed hk
    obtain ⟨kf, hkf, hfound'⟩ := h₂.found hsealed₂ hext hk₂
    obtain ⟨kt, hkt, hfound⟩ := h₁.found hsealed₁ (h₂.leads.cells.trans hext) hk₁
    exact ⟨_, hkb, rfl, kt, kf, hkt.code_of_enterBranch, hkf.code_of_enterBranch, hexit, hfound,
      hfound'⟩

end

end Builder

end WordLang.Flow
