import WordLang.Proofs.Flow.Compiled

/-!
# Graphs that are being built

The steps that build a graph change one thing each: they add a block, close a block with a
terminator, add statements to the current block, or move to another block. A block that is closed
is never changed again, and only the current block is open, apart from those that wait for their
turn.

## Main definitions

* `Flow.Builder.addBlock`, `Flow.Builder.close`, `Flow.Builder.emit` and others: the steps
* `Flow.Build.Makes`: what a step makes of a graph without asking for a type that is not known
* `Flow.Builder.Valid`: graphs whose blocks, edges and cells make sense
* `Flow.Builder.Leads`: from one open block to another
* `Flow.Builder.Sealed`, `Flow.Builder.Continues`: what a finished graph keeps

## Main results

* `Flow.Builder.Leads.trans`: parts of a graph one after another
-/

namespace WordLang.Flow

variable {id : BlockId}

namespace Builder

/-! ## Steps -/

/-- Adds a block. -/
def addBlock (b : Builder) : Builder :=
  { b with blocks := b.blocks ++ [{ id := b.blocks.length }], drawn := b.drawn + 1 }

/-- Closes a block with a terminator. -/
def close (b : Builder) (id : BlockId) (terminator : Terminator) : Builder :=
  { b with blocks := b.blocks.modify id fun block => { block with terminator } }

/-- Adds statements to the current block. -/
def emit (b : Builder) (ss : List Statement) : Builder :=
  { b with blocks := b.blocks.modify b.current fun block =>
      { block with statements := block.statements ++ ss } }

def moveTo (b : Builder) (id : BlockId) : Builder := { b with current := id }

def noteExit (b : Builder) (loop : StmtId) (exit : BlockId) : Builder :=
  { b with loopExits := b.loopExits.insert loop exit }

/-- Adds a storage cell for a declaration. -/
def addCell (b : Builder) (decl : StmtId) (type : Ty) (name : String) : Builder :=
  { b with
    locals := b.locals ++ [⟨b.locals.length, type, some name⟩]
    cells := { b.cells with declared := b.cells.declared.insert decl b.locals.length } }

section

variable {b : Builder} {i j : BlockId} {t : Terminator} {ss : List Statement}

@[simp] theorem length_addBlock : b.addBlock.blocks.length = b.blocks.length + 1 := by
  simp [addBlock]

@[simp] theorem length_close : (b.close j t).blocks.length = b.blocks.length := by
  simp [close]

@[simp] theorem length_emit : (b.emit ss).blocks.length = b.blocks.length := by
  simp [emit]

theorem get_addBlock : b.addBlock.blocks[i]? =
    if i = b.blocks.length then some { id := b.blocks.length } else b.blocks[i]? := by
  simp only [addBlock]
  rcases Nat.lt_trichotomy i b.blocks.length with h | h | h
  · rw [List.getElem?_append_left h, if_neg (Nat.ne_of_lt h)]
  · rw [if_pos h, h, List.getElem?_concat_length]
  · rw [if_neg (Nat.ne_of_gt h), List.getElem?_eq_none (by simpa using h),
      List.getElem?_eq_none (Nat.le_of_lt h)]

theorem get_close : (b.close j t).blocks[i]? =
    if i = j then b.blocks[i]?.map fun block => { block with terminator := t } else b.blocks[i]? := by
  simp only [close, List.getElem?_modify]
  by_cases h : j = i
  · simp [h]
  · simp [h, Ne.symm h]

theorem get_emit : (b.emit ss).blocks[i]? =
    if i = b.current then
      b.blocks[i]?.map fun block => { block with statements := block.statements ++ ss }
    else b.blocks[i]? := by
  simp only [emit, List.getElem?_modify]
  by_cases h : b.current = i
  · simp [h]
  · simp [h, Ne.symm h]

end

/-- A graph whose blocks are named by position, in the order in which they were added. -/
structure Named (b : Builder) : Prop where
  drawn : b.drawn = b.blocks.length
  ids : ∀ {i : BlockId} {block : Block}, b.blocks[i]? = some block → block.id = i

theorem Named.addBlock {b : Builder} (h : b.Named) : b.addBlock.Named where
  drawn := (congrArg (· + 1) h.drawn).trans length_addBlock.symm
  ids := by
    intro i block hget
    rw [get_addBlock] at hget
    split at hget
    · next heq =>
      cases hget
      exact heq.symm
    · exact h.ids hget

theorem Named.close {b : Builder} (h : b.Named) (i : BlockId) (t : Terminator) :
    (b.close i t).Named where
  drawn := h.drawn.trans length_close.symm
  ids := by
    intro j block hget
    rw [get_close] at hget
    split at hget
    · obtain ⟨block', hget', rfl⟩ := Option.map_eq_some_iff.1 hget
      exact (h.ids hget' : block'.id = j)
    · exact h.ids hget

end Builder

/-- A block that comes after all others is put at the end. -/
theorem insertBlock_of_lt {block : Block} {blocks : List Block} (h : ∀ b ∈ blocks, b.id < block.id) :
    insertBlock block blocks = blocks ++ [block] := by
  induction blocks with
  | nil => rfl
  | cons b blocks ih =>
    have hlt := h b List.mem_cons_self
    rw [insertBlock, if_neg (Nat.lt_asymm hlt), if_neg (Nat.ne_of_gt hlt),
      ih fun c hc => h c (List.mem_cons_of_mem _ hc), List.cons_append]

/-! ## Steps as computations -/

namespace Build

variable {α β : Type}

/-- A step succeeds without new answers, and what it makes of a graph is `good`. -/
def Makes (answers : Answers) (x : Build α) (b : Builder) (good : α → Builder → Prop) : Prop :=
  ∃ v b', x b answers = .ok (v, b') answers ∧ good v b'

namespace Makes

variable {answers : Answers} {x : Build α} {k : α → Build β} {b : Builder}

theorem bind_run {v : α} {b' : Builder} (hx : x b answers = .ok (v, b') answers) :
    (x >>= k) b answers = k v b' answers := by
  have hbind : (x >>= k) b answers = EStateM.bind (x b) (fun p => k p.1 p.2) answers := rfl
  rw [hbind, EStateM.bind, hx]

theorem of_eq {good : α → Builder → Prop} {v : α} {b' : Builder}
    (h : x b answers = .ok (v, b') answers) (hgood : good v b') : Makes answers x b good :=
  ⟨v, b', h, hgood⟩

/-- A step with a known outcome is followed by further steps. -/
theorem step {good : β → Builder → Prop} {v : α} {b' : Builder}
    (hx : x b answers = .ok (v, b') answers) (hk : Makes answers (k v) b' good) :
    Makes answers (x >>= k) b good := by
  obtain ⟨w, b'', hrun, hgood⟩ := hk
  exact ⟨w, b'', (bind_run hx).trans hrun, hgood⟩

theorem bind {mid : α → Builder → Prop} {good : β → Builder → Prop} (hx : Makes answers x b mid)
    (hk : ∀ v b', mid v b' → Makes answers (k v) b' good) : Makes answers (x >>= k) b good := by
  obtain ⟨v, b', hrun, hmid⟩ := hx
  exact step hrun (hk v b' hmid)

theorem mono {good good' : α → Builder → Prop} (h : Makes answers x b good)
    (hgood : ∀ v b', good v b' → good' v b') : Makes answers x b good' := by
  obtain ⟨v, b', hrun, hv⟩ := h
  exact ⟨v, b', hrun, hgood v b' hv⟩

end Makes

variable {answers : Answers} {b : Builder}

theorem get_bind {α : Type} (k : Builder → Build α) : (get >>= k) b answers = k b b answers := rfl

theorem newBlock_run (answers : Answers) (h : b.Named) (hlt : b.blocks.length < idCount) :
    newBlock b answers = .ok (b.blocks.length, b.addBlock) answers := by
  have hblocks : ∀ block ∈ b.blocks, block.id < b.blocks.length := by
    intro block hmem
    obtain ⟨i, hi⟩ := List.mem_iff_getElem?.1 hmem
    rw [h.ids hi]
    exact (List.getElem?_eq_some_iff.1 hi).1
  have hrun : newBlock b answers = .ok (idOfNat b.drawn, { b with
      blocks := insertBlock { id := idOfNat b.drawn } b.blocks, drawn := b.drawn + 1 }) answers := rfl
  rw [hrun, h.drawn, idOfNat_of_lt hlt, insertBlock_of_lt hblocks, Builder.addBlock, h.drawn]

theorem newBlocks_run (answers : Answers) (h : b.Named) (hle : b.blocks.length + 2 ≤ idCount) :
    newBlock b answers = .ok (b.blocks.length, b.addBlock) answers ∧
      newBlock b.addBlock answers = .ok (b.addBlock.blocks.length, b.addBlock.addBlock) answers := by
  refine ⟨newBlock_run answers h (Nat.lt_of_succ_lt hle), newBlock_run answers h.addBlock ?_⟩
  rwa [Builder.length_addBlock]

theorem update_run {change : Block → Block} (h : id < b.blocks.length) :
    update id change b answers =
      .ok ((), { b with blocks := b.blocks.modify id change }) answers := by
  rw [update, get_bind, if_pos h]
  rfl

theorem emit_run {ss : List Statement} (h : b.current < b.blocks.length) :
    emit ss b answers = .ok ((), b.emit ss) answers := update_run h

theorem terminate_run {t : Terminator} (h : id < b.blocks.length) :
    terminate id t b answers = .ok ((), b.close id t) answers := update_run h

theorem goto_run {target : BlockId} (h : b.current < b.blocks.length) :
    goto target b answers = .ok ((), b.close b.current (.goto target)) answers := update_run h

theorem continueAt_run : continueAt id b answers = .ok ((), b.moveTo id) answers := rfl

theorem setLoopExit_run {loop : StmtId} {exit : BlockId} :
    setLoopExit loop exit b answers = .ok ((), b.noteExit loop exit) answers := rfl

theorem newCell_run {decl : StmtId} {type : Ty} {name : String} (hlt : b.locals.length < idCount) :
    newCell decl type name b answers =
      .ok (b.locals.length, b.addCell decl type name) answers := by
  have hid : Numbered.nextId b.locals = b.locals.length := idOfNat_of_lt hlt
  have hrun : newCell decl type name b answers = .ok (Numbered.nextId b.locals, { b with
      locals := b.locals ++ [⟨Numbered.nextId b.locals, type, some name⟩]
      cells := { b.cells with
        declared := b.cells.declared.insert decl (Numbered.nextId b.locals) } }) answers := rfl
  rw [hrun, hid]
  rfl

theorem expression_run {r : Resolutions} {e : Expr} {ss : List Statement}
    (h : Flow.expression r b.cells e = .ok ss) (hb : b.current < b.blocks.length) :
    expression r e b answers = .ok ((), b.emit ss) answers := by
  rw [expression, get_bind, h]
  exact emit_run hb

end Build

namespace Builder

/-! ## Parts of graphs -/

/-- The part of a graph that grew from `b` to `b'`: the current block of `b` and blocks that were
added. All of them are closed but for the current block of `b'`. Declarations and loops of the part
are among `ids`. -/
structure Leads (ids : List StmtId) (b b' : Builder) : Prop where
  length : b.blocks.length ≤ b'.blocks.length
  /-- Of the blocks that were there only the current one changes. -/
  frame : ∀ i < b.blocks.length, i ≠ b.current → b'.blocks[i]? = b.blocks[i]?
  closed : ∀ {i block}, b'.blocks[i]? = some block → block.terminator = .unset →
    i = b'.current ∨ i < b.blocks.length ∧ i ≠ b.current
  current : b'.current = b.current ∨ b.blocks.length ≤ b'.current
  locals : b.locals <+: b'.locals
  cells : b.cells.Extends b'.cells
  declared : ∀ id ∉ ids, b'.cells.declared.find? id = b.cells.declared.find? id
  exits : ∀ id ∉ ids, b'.loopExits.find? id = b.loopExits.find? id

theorem Leads.trans {ids ids' : List StmtId} {b b' b'' : Builder} (h : Leads ids b b')
    (h' : Leads ids' b' b'') : Leads (ids ++ ids') b b'' where
  length := h.length.trans h'.length
  frame := by
    intro i hi hne
    rw [h'.frame i (Nat.lt_of_lt_of_le hi h.length) ?_, h.frame i hi hne]
    rcases h.current with heq | hle
    · rwa [heq]
    · omega
  closed := by
    intro i block hget hunset
    rcases h'.closed hget hunset with heq | ⟨hlt, hne⟩
    · exact .inl heq
    · rw [h'.frame i hlt hne] at hget
      exact .inr ((h.closed hget hunset).resolve_left hne)
  current := by
    have hlen := h.length
    rcases h'.current with heq | hle
    · rw [heq]
      exact h.current
    · exact .inr (by omega)
  locals := h.locals.trans h'.locals
  cells := h.cells.trans h'.cells
  declared := by
    intro id hid
    rw [List.mem_append, not_or] at hid
    rw [h'.declared id hid.2, h.declared id hid.1]
  exits := by
    intro id hid
    rw [List.mem_append, not_or] at hid
    rw [h'.exits id hid.2, h.exits id hid.1]

theorem Leads.refl (b : Builder) : Leads [] b b where
  length := le_rfl
  frame := fun _ _ _ => rfl
  closed := by
    intro i block hget _
    by_cases h : i = b.current
    · exact .inl h
    · exact .inr ⟨(List.getElem?_eq_some_iff.1 hget).1, h⟩
  current := .inl rfl
  locals := List.prefix_rfl
  cells := Cells.Extends.refl _
  declared := fun _ _ => rfl
  exits := fun _ _ => rfl

theorem Leads.emit (b : Builder) (ss : List Statement) : Leads [] b (b.emit ss) where
  length := by rw [length_emit]
  frame := fun i _ hne => by rw [get_emit, if_neg hne]
  closed := by
    intro i block hget _
    by_cases h : i = b.current
    · exact .inl h
    · rw [get_emit, if_neg h] at hget
      exact .inr ⟨(List.getElem?_eq_some_iff.1 hget).1, h⟩
  current := .inl rfl
  locals := List.prefix_rfl
  cells := Cells.Extends.refl _
  declared := fun _ _ => rfl
  exits := fun _ _ => rfl

theorem Leads.addCell (b : Builder) {decl : StmtId} (hnew : b.cells.declared.find? decl = none)
    (type : Ty) (name : String) : Leads [decl] b (b.addCell decl type name) where
  length := le_rfl
  frame := fun _ _ _ => rfl
  closed := (Leads.refl b).closed
  current := .inl rfl
  locals := List.prefix_append _ _
  cells := by
    intro binding cell h
    cases binding with
    | function d => exact h
    | parameter owner index => exact h
    | «local» d =>
      have hne : d ≠ decl := by
        rintro rfl
        simp only [Cells.find, hnew] at h
        cases h
      simp only [Cells.find, Builder.addCell, Table.find?_insert_of_ne hne] at h ⊢
      exact h
  declared := fun id hid => Table.find?_insert_of_ne (by simpa using hid) _ _
  exits := fun _ _ => rfl

/-- Closes the current block and moves to a new one. -/
def turn (b : Builder) (t : Terminator) : Builder :=
  ((b.close b.current t).addBlock).moveTo b.blocks.length

theorem close_addBlock {b : Builder} {t : Terminator} (hcur : b.current < b.blocks.length) :
    (b.addBlock.close b.current t).moveTo b.blocks.length = b.turn t := by
  have hblocks : (b.addBlock.close b.current t).blocks = (b.close b.current t).addBlock.blocks := by
    refine List.ext_getElem? fun i => ?_
    simp only [get_close, get_addBlock, length_close]
    grind
  exact congrArg (fun blocks => { b with blocks, drawn := b.drawn + 1, current := b.blocks.length })
    hblocks

theorem Leads.turn {b : Builder} {t : Terminator} (ht : t ≠ .unset) (hcur : b.current < b.blocks.length) :
    Leads [] b (b.turn t) where
  length := by simp [Builder.turn, moveTo]
  frame := by
    intro i hi hne
    simp only [Builder.turn, moveTo, get_addBlock, length_close, get_close]
    rw [if_neg (Nat.ne_of_lt hi), if_neg hne]
  closed := by
    intro i block hget hunset
    simp only [Builder.turn, moveTo, get_addBlock, length_close, get_close] at hget ⊢
    grind
  current := .inr le_rfl
  locals := List.prefix_rfl
  cells := Cells.Extends.refl _
  declared := fun _ _ => rfl
  exits := fun _ _ => rfl

/-! ## Loops and choices -/

/-- The graph at the start of the body of the loop `id`: the current block is closed by `t`, and the
block after the loop is added too. -/
def enter (b : Builder) (id : StmtId) (t : Terminator) : Builder :=
  ((b.addBlock.addBlock.close b.current t).noteExit id (b.blocks.length + 1)).moveTo b.blocks.length

/-- The end of the body of a loop, which goes on at `start`; `exit` comes after it. -/
def leaveLoop (b : Builder) (start exit : BlockId) : Builder :=
  (b.close b.current (.goto start)).moveTo exit

/-- The graph at the start of an alternative: a new block, while the current one stays open. -/
def enterBranch (b : Builder) : Builder := b.addBlock.moveTo b.blocks.length

structure Enters (id : StmtId) (exit : BlockId) (b start : Builder) : Prop where
  current : b.blocks.length ≤ start.current ∧ start.current < start.blocks.length
  exitAdded : b.blocks.length ≤ exit ∧ exit < start.blocks.length ∧ exit ≠ start.current
  /-- Of the blocks that were there only the current one changes. -/
  frame : ∀ i < b.blocks.length, i ≠ b.current → start.blocks[i]? = b.blocks[i]?
  closed : ∀ {i block}, start.blocks[i]? = some block → block.terminator = .unset →
    i = start.current ∨ i = exit ∨ i < b.blocks.length ∧ i ≠ b.current
  startEmpty : start.blocks[start.current]? = some { id := start.current }
  exitEmpty : start.blocks[exit]? = some { id := exit }
  locals : start.locals = b.locals
  cells : start.cells = b.cells
  exits : start.loopExits = b.loopExits.insert id exit

theorem enters_enter {b : Builder} (id : StmtId) {t : Terminator} (ht : t ≠ .unset)
    (hcur : b.current < b.blocks.length) : Enters id (b.blocks.length + 1) b (b.enter id t) := by
  constructor
  · simp [enter, moveTo, noteExit]
  · simp [enter, moveTo, noteExit]
  · intro i hi hne
    simp only [enter, moveTo, noteExit, length_addBlock, get_close, get_addBlock]
    grind
  · intro i block hget hunset
    simp only [enter, moveTo, noteExit, length_addBlock, get_close, get_addBlock] at hget ⊢
    grind
  · simp only [enter, moveTo, noteExit, length_addBlock, get_close, get_addBlock]
    grind
  · simp only [enter, moveTo, noteExit, length_addBlock, get_close, get_addBlock]
    grind
  · rfl
  · rfl
  · rfl

theorem Leads.loop {ids : List StmtId} {b start b' : Builder} {id : StmtId} {exit head : BlockId}
    (hs : Enters id exit b start) (h : Leads ids start b') :
    Leads (id :: ids) b (b'.leaveLoop head exit) := by
  have hl := h.length
  have hc := h.current
  have hcur := hs.current
  have hexit := hs.exitAdded
  constructor
  · simp only [leaveLoop, moveTo, length_close]
    exact hcur.1.trans (hcur.2.le.trans hl)
  · intro i hi hne
    have hf := h.frame i
    have hf' := hs.frame i
    simp only [leaveLoop, moveTo, get_close] at hf ⊢
    grind
  · intro i block hget hunset
    have hf := h.frame i
    have hcl := @h.closed i block
    have hcl' := @hs.closed i block
    simp only [leaveLoop, moveTo, get_close] at hget ⊢
    grind
  · exact .inr hexit.1
  · rw [← hs.locals]
    exact h.locals
  · intro binding cell hb
    refine h.cells ?_
    rwa [hs.cells]
  · intro id' hid'
    rw [show (b'.leaveLoop head exit).cells = b'.cells from rfl,
      h.declared id' fun hm => hid' (List.mem_cons_of_mem _ hm), hs.cells]
  · intro id' hid'
    rw [List.mem_cons, not_or] at hid'
    rw [show (b'.leaveLoop head exit).loopExits = b'.loopExits from rfl, h.exits id' hid'.2, hs.exits,
      Table.find?_insert_of_ne hid'.1]

/-! ## What a finished graph keeps -/

/-- The blocks that are closed are blocks of the finished graph. -/
def Sealed (b : Builder) (code : BlockId → Option Code) : Prop :=
  ∀ i block, b.blocks[i]? = some block → block.terminator ≠ .unset →
    code i = some (block.statements, block.terminator)

/-- In the finished graph the current block goes on with `k`. -/
def Continues (b : Builder) (code : BlockId → Option Code) (k : Code) : Prop :=
  ∃ block, b.blocks[b.current]? = some block ∧ code b.current = some (Code.before block.statements k)

def Opened (b : Builder) : Prop :=
  ∃ block, b.blocks[b.current]? = some block ∧ block.terminator = .unset

theorem Opened.lt {b : Builder} (h : b.Opened) : b.current < b.blocks.length := by
  obtain ⟨block, hget, -⟩ := h
  exact (List.getElem?_eq_some_iff.1 hget).1

section

variable {ids : List StmtId} {b b' start : Builder} {code : BlockId → Option Code} {k : Code}

theorem Sealed.mono (hs : b'.Sealed code) (h : ∀ (i : BlockId) (block : Block),
    b.blocks[i]? = some block → block.terminator ≠ .unset → b'.blocks[i]? = some block) :
    b.Sealed code :=
  fun i block hget hset => hs i block (h i block hget hset) hset

theorem Leads.sealed (h : Leads ids b b') (hb : b.Opened) (hs : b'.Sealed code) : b.Sealed code := by
  refine hs.mono fun i block hget hset => ?_
  have hne : i ≠ b.current := by
    rintro rfl
    obtain ⟨block', hget', hunset⟩ := hb
    rw [hget] at hget'
    cases hget'
    exact hset hunset
  rw [h.frame i (List.getElem?_eq_some_iff.1 hget).1 hne, hget]

theorem Continues.emit {ss : List Statement} (h : (b.emit ss).Continues code k) :
    b.Continues code (Code.before ss k) := by
  obtain ⟨block, hget, hcode⟩ := h
  rw [show (b.emit ss).current = b.current from rfl, get_emit, if_pos rfl, Option.map_eq_some_iff] at hget
  obtain ⟨block', hget', rfl⟩ := hget
  refine ⟨block', hget', ?_⟩
  rw [← Code.before_append]
  exact hcode

theorem Continues.of_closed {t : Terminator} (hb : b.Opened) (hs : b'.Sealed code) (ht : t ≠ .unset)
    (h : b'.blocks[b.current]? = b.blocks[b.current]?.map fun block => { block with terminator := t }) :
    b.Continues code ([], t) := by
  obtain ⟨block, hget, -⟩ := hb
  rw [hget, Option.map_some] at h
  refine ⟨block, hget, ?_⟩
  rw [hs _ _ h ht]
  simp [Code.before]

theorem Continues.code_of_empty (h : b.Continues code k)
    (hempty : b.blocks[b.current]? = some { id := b.current }) : code b.current = some k := by
  obtain ⟨block, hget, hcode⟩ := h
  rw [hempty] at hget
  cases hget
  exact hcode

/-- What a finished graph keeps of a return or of a `break`. -/
theorem Continues.turn {t : Terminator} (hb : b.Opened) (ht : t ≠ .unset)
    (hs : (b.turn t).Sealed code) : b.Continues code ([], t) := by
  refine Continues.of_closed hb hs ht ?_
  simp only [Builder.turn, moveTo, get_addBlock, length_close, get_close, if_true]
  rw [if_neg (Nat.ne_of_lt hb.lt)]

/-- What a finished graph keeps of a loop. -/
theorem Enters.keeps {id : StmtId} {exit head : BlockId} (hs : Enters id exit b start)
    (h : Leads ids start b') (hb' : b'.Opened) (hsealed : (b'.leaveLoop head exit).Sealed code)
    (hk : (b'.leaveLoop head exit).Continues code k) :
    code exit = some k ∧ b'.Sealed code ∧ b'.Continues code ([], .goto head) ∧ start.Sealed code := by
  have hexit := hs.exitAdded
  have hget : ∀ i, i ≠ b'.current → (b'.leaveLoop head exit).blocks[i]? = b'.blocks[i]? := by
    intro i hne
    simp only [leaveLoop, moveTo, get_close, if_neg hne]
  have hne : exit ≠ b'.current := by
    rcases h.current with heq | hle
    · rw [heq]
      exact hexit.2.2
    · exact Nat.ne_of_lt (Nat.lt_of_lt_of_le hexit.2.1 hle)
  have hsealed' : b'.Sealed code := by
    refine hsealed.mono fun i block hi hset => ?_
    rw [hget i ?_, hi]
    rintro rfl
    obtain ⟨block', hi', hunset⟩ := hb'
    rw [hi] at hi'
    cases hi'
    exact hset hunset
  refine ⟨?_, hsealed', ?_, ?_⟩
  · refine hk.code_of_empty ?_
    rw [show (b'.leaveLoop head exit).current = exit from rfl, hget exit hne,
      h.frame exit hexit.2.1 hexit.2.2, hs.exitEmpty]
  · refine Continues.of_closed hb' hsealed (by simp) ?_
    simp only [leaveLoop, moveTo, get_close, if_true]
  · exact h.sealed ⟨_, hs.startEmpty, rfl⟩ hsealed'

/-! ## Choices -/

/-- The end of a choice without an alternative, whose condition is at the end of the block `test`. -/
def endChoice (b : Builder) (test onTrue endTrue : BlockId) : Builder :=
  ((b.addBlock.close endTrue (.goto b.blocks.length)).close test
    (.branch onTrue b.blocks.length)).moveTo b.blocks.length

/-- The end of a choice between two blocks, whose condition is at the end of the block `test`. -/
def endAlternatives (b : Builder) (test onTrue endTrue onFalse endFalse : BlockId) : Builder :=
  (((b.addBlock.close endTrue (.goto b.blocks.length)).close endFalse
    (.goto b.blocks.length)).close test (.branch onTrue onFalse)).moveTo b.blocks.length

variable {ids' : List StmtId} {b₁ b₂ : Builder}

theorem Leads.choice (hb : b.Opened) (h : Leads ids b.enterBranch b₁) :
    Leads ids b (b₁.endChoice b.current b.blocks.length b₁.current) := by
  have hcur := hb.lt
  have hl := h.length
  have hc := h.current
  simp only [enterBranch, moveTo, length_addBlock] at hl hc
  constructor
  · simp only [endChoice, moveTo, length_close, length_addBlock]
    omega
  · intro i hi hne
    have hf := h.frame i
    simp only [enterBranch, endChoice, moveTo, length_addBlock, get_close, get_addBlock] at hf ⊢
    grind
  · intro i block hget hunset
    have hf := h.frame i
    have hcl := @h.closed i block
    simp only [enterBranch, endChoice, moveTo, length_addBlock, get_close, get_addBlock] at hf hget hcl ⊢
    grind
  · right
    simp only [endChoice, moveTo]
    omega
  · exact h.locals
  · exact h.cells
  · exact h.declared
  · exact h.exits

theorem Leads.alternatives (hb : b.Opened) (h₁ : Leads ids b.enterBranch b₁)
    (h₂ : Leads ids' b₁.enterBranch b₂) :
    Leads (ids ++ ids') b
      (b₂.endAlternatives b.current b.blocks.length b₁.current b₁.blocks.length b₂.current) := by
  have hcur := hb.lt
  have hl₁ := h₁.length
  have hc₁ := h₁.current
  have hl₂ := h₂.length
  have hc₂ := h₂.current
  simp only [enterBranch, moveTo, length_addBlock] at hl₁ hc₁ hl₂ hc₂
  constructor
  · simp only [endAlternatives, moveTo, length_close, length_addBlock]
    omega
  · intro i hi hne
    have hf₁ := h₁.frame i
    have hf₂ := h₂.frame i
    simp only [enterBranch, endAlternatives, moveTo, length_addBlock, get_close, get_addBlock] at hf₁ hf₂ ⊢
    grind
  · intro i block hget hunset
    have hf₁ := h₁.frame i
    have hcl₁ := @h₁.closed i block
    have hf₂ := h₂.frame i
    have hcl₂ := @h₂.closed i block
    simp only [enterBranch, endAlternatives, moveTo, length_addBlock, get_close,
      get_addBlock] at hf₁ hcl₁ hf₂ hcl₂ hget ⊢
    grind
  · right
    simp only [endAlternatives, moveTo]
    omega
  · exact h₁.locals.trans h₂.locals
  · exact h₁.cells.trans h₂.cells
  · intro id hid
    rw [List.mem_append, not_or] at hid
    exact (h₂.declared id hid.2).trans (h₁.declared id hid.1)
  · intro id hid
    rw [List.mem_append, not_or] at hid
    exact (h₂.exits id hid.2).trans (h₁.exits id hid.1)

theorem opened_enterBranch (b : Builder) : b.enterBranch.Opened := by
  refine ⟨{ id := b.blocks.length }, ?_, rfl⟩
  show b.enterBranch.blocks[b.blocks.length]? = _
  simp only [enterBranch, moveTo, get_addBlock, if_true]

theorem Continues.code_of_enterBranch (h : b.enterBranch.Continues code k) :
    code b.blocks.length = some k := by
  refine h.code_of_empty ?_
  simp only [enterBranch, moveTo, get_addBlock, if_true]

theorem Leads.choice_keeps (hb : b.Opened) (h : Leads ids b.enterBranch b₁) (hb₁ : b₁.Opened)
    (hs : (b₁.endChoice b.current b.blocks.length b₁.current).Sealed code)
    (hk : (b₁.endChoice b.current b.blocks.length b₁.current).Continues code k) :
    code b₁.blocks.length = some k ∧ b₁.Sealed code ∧
      b₁.Continues code ([], .goto b₁.blocks.length) ∧
      b.Continues code ([], .branch b.blocks.length b₁.blocks.length) := by
  have hcur := hb.lt
  have hcur₁ := hb₁.lt
  have hc := h.current
  have hl := h.length
  have hf := h.frame b.current
  simp only [enterBranch, moveTo, length_addBlock, get_addBlock] at hc hl hf
  have hsealed : b₁.Sealed code := by
    refine hs.mono fun i block hi hset => ?_
    obtain ⟨block₁, hget₁, hunset₁⟩ := hb₁
    obtain ⟨block₀, hget₀, hunset₀⟩ := hb
    simp only [endChoice, moveTo, get_close, get_addBlock]
    grind
  refine ⟨hk.code_of_empty ?_, hsealed, Continues.of_closed hb₁ hs (by simp) ?_,
    Continues.of_closed hb hs (by simp) ?_⟩
  all_goals
    simp only [endChoice, moveTo, get_close, get_addBlock]
    grind

theorem Leads.alternatives_keeps (hb : b.Opened) (h₁ : Leads ids b.enterBranch b₁) (hb₁ : b₁.Opened)
    (h₂ : Leads ids' b₁.enterBranch b₂) (hb₂ : b₂.Opened)
    (hs : (b₂.endAlternatives b.current b.blocks.length b₁.current b₁.blocks.length
      b₂.current).Sealed code)
    (hk : (b₂.endAlternatives b.current b.blocks.length b₁.current b₁.blocks.length
      b₂.current).Continues code k) :
    code b₂.blocks.length = some k ∧ b₂.Sealed code ∧
      b₂.Continues code ([], .goto b₂.blocks.length) ∧ b₁.Sealed code ∧
      b₁.Continues code ([], .goto b₂.blocks.length) ∧
      b.Continues code ([], .branch b.blocks.length b₁.blocks.length) := by
  have hcur := hb.lt
  have hcur₁ := hb₁.lt
  have hcur₂ := hb₂.lt
  have hc₁ := h₁.current
  have hl₁ := h₁.length
  have hf₁ := h₁.frame b.current
  have hc₂ := h₂.current
  have hl₂ := h₂.length
  have hf₂ := h₂.frame b.current
  have hg₂ := h₂.frame b₁.current
  simp only [enterBranch, moveTo, length_addBlock, get_addBlock] at hc₁ hl₁ hf₁ hc₂ hl₂ hf₂ hg₂
  have hsealed₂ : b₂.Sealed code := by
    refine hs.mono fun i block hi hset => ?_
    obtain ⟨block₂, hget₂, hunset₂⟩ := hb₂
    obtain ⟨block₁, hget₁, hunset₁⟩ := hb₁
    obtain ⟨block₀, hget₀, hunset₀⟩ := hb
    simp only [endAlternatives, moveTo, get_close, get_addBlock]
    grind
  have hsealed₁ : b₁.Sealed code := by
    have hstart := h₂.sealed (opened_enterBranch b₁) hsealed₂
    refine hstart.mono fun i block hi hset => ?_
    have hlt := (List.getElem?_eq_some_iff.1 hi).1
    simp only [enterBranch, moveTo, get_addBlock, if_neg (Nat.ne_of_lt hlt)]
    exact hi
  refine ⟨hk.code_of_empty ?_, hsealed₂, Continues.of_closed hb₂ hs (by simp) ?_, hsealed₁,
    Continues.of_closed hb₁ hs (by simp) ?_, Continues.of_closed hb hs (by simp) ?_⟩
  all_goals
    simp only [endAlternatives, moveTo, get_close, get_addBlock]
    grind

end

end Builder

end WordLang.Flow
