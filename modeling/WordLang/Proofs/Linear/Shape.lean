import WordLang.Proofs.Ensures
import WordLang.Proofs.Flow.Simplify
import WordLang.Proofs.Id
import WordLang.Proofs.Table

/-!
# The shape of linear code

What lowering gives is described by relations that leave out how registers are drawn and where
string constants are kept: a statement becomes a run of instructions on registers from a first one
up to the next unused one. Lowering a tidy graph succeeds; of any other graph, a body that lowering
gives has this shape too. All this holds of graphs that need no more registers than there are
identifiers.

## Main definitions

* `Linear.StatementCode`, `Linear.TerminatorCode`, `Linear.Code`, `Linear.BlocksCode`: the code of
  statements, terminators, the rest of a block, and blocks
* `Linear.BodyCode`: a body with the code of a graph
* `Linear.Lowerable`: graphs that can be lowered

## Main results

* `Linear.lowerFunction_ensures`: what lowering gives is a body with the code of the graph, and
  lowering fails only for graphs that cannot be lowered
-/

namespace WordLang.Linear

variable {f : Flow.Function} {cell : LocalId} {σ : LowerState}

/-! ## Code -/

/-- The code of a statement, with registers from the first one up to the second one. -/
inductive StatementCode (c : LowerContext) :
    Flow.Statement → RegisterId → List Instruction → RegisterId → Prop where
  | int (value : Int64) (r : RegisterId) :
    StatementCode c (.push (.int value)) r [.moveInt r value, .push r, .kill r] (r + 1)
  | string (text : String) (id : StringId) (r : RegisterId) :
    StatementCode c (.push (.string text)) r [.moveString r id, .push r, .kill r] (r + 1)
  | function (decl : StmtId) (id : FunctionId) (r : RegisterId) :
    c.functions.idxOf? decl = some id →
    StatementCode c (.push (.function decl)) r [.moveFunction r (idOfNat id), .push r, .kill r]
      (r + 1)
  | pop (r : RegisterId) : StatementCode c .pop r [.pop r, .kill r] (r + 1)
  | load (cell : LocalId) (slot r : RegisterId) :
    c.slots.find? cell = some slot →
    StatementCode c (.load cell) r [.load r slot, .push r, .kill r] (r + 1)
  | store (cell : LocalId) (slot r : RegisterId) :
    c.slots.find? cell = some slot →
    StatementCode c (.store cell) r [.pop r, .storeRegister slot r, .kill r] (r + 1)
  | call (arguments : Nat) (r : RegisterId) :
    StatementCode c (.call arguments) r [.pop r, .callRegister r arguments, .kill r] (r + 1)
  | binary (op : BinaryOp) (r : RegisterId) :
    StatementCode c (.binary op) r [.pop r, .pop (r + 1), .binary op (r + 1) r, .push (r + 1),
      .kill r, .kill (r + 1)] (r + 2)

inductive TerminatorCode (c : LowerContext) :
    Flow.Terminator → RegisterId → List Instruction → RegisterId → Prop where
  | return (r : RegisterId) : TerminatorCode c .return r [.return] r
  | goto (target : BlockId) (label : LabelId) (r : RegisterId) :
    c.blocks.idxOf? target = some label →
    TerminatorCode c (.goto target) r [.jump label] r
  | branch (truthy falsy : BlockId) (truthyLabel falsyLabel : LabelId) (r : RegisterId) :
    c.blocks.idxOf? truthy = some truthyLabel → c.blocks.idxOf? falsy = some falsyLabel →
    TerminatorCode c (.branch truthy falsy) r
      [.pop r, .jumpIfNonZero r truthyLabel, .kill r, .jump falsyLabel] (r + 1)

inductive Code (c : LowerContext) :
    List Flow.Statement → Flow.Terminator → RegisterId → List Instruction → RegisterId → Prop where
  | nil {t : Flow.Terminator} {code : List Instruction} {r r' : RegisterId} :
    TerminatorCode c t r code r' → Code c [] t r code r'
  | cons {s : Flow.Statement} {ss : List Flow.Statement} {t : Flow.Terminator}
    {first rest : List Instruction} {r r₁ r' : RegisterId} :
    StatementCode c s r first r₁ → Code c ss t r₁ rest r' → Code c (s :: ss) t r (first ++ rest) r'

theorem StatementCode.next_eq {c : LowerContext} {s : Flow.Statement} {code : List Instruction}
    {r r' : RegisterId} (h : StatementCode c s r code r') :
    r' = r + Flow.statementRegisters [s] := by
  cases h <;> rfl

theorem TerminatorCode.next_eq {c : LowerContext} {t : Flow.Terminator} {code : List Instruction}
    {r r' : RegisterId} (h : TerminatorCode c t r code r') : r' = r + t.isBranch.toNat := by
  cases h <;> rfl

theorem Code.ne_nil {c : LowerContext} {ss : List Flow.Statement} {t : Flow.Terminator}
    {code : List Instruction} {r r' : RegisterId} (h : Code c ss t r code r') : code ≠ [] := by
  induction h with
  | nil h => cases h <;> simp
  | cons _ _ ih => simp [ih]

inductive BlocksCode (c : LowerContext) :
    List Flow.Block → RegisterId → List Line → RegisterId → Prop where
  | nil (r : RegisterId) : BlocksCode c [] r [] r
  | cons {b : Flow.Block} {rest : List Flow.Block} {label : LabelId} {code : List Instruction}
    {lines : List Line} {r r₁ r' : RegisterId} :
    c.blocks.idxOf? b.id = some label → Code c b.statements b.terminator r code r₁ →
    BlocksCode c rest r₁ lines r' →
    BlocksCode c (b :: rest) r (Lower.labelled [label] code ++ lines) r'

/-! ## Slots -/

def slotPositions (f : Flow.Function) : Table RegisterId := Table.ofList (slotCells f).zipIdx

def slotDeclarations (f : Flow.Function) : List Line :=
  (List.range f.slotCount).map fun r =>
    ⟨[], if r < f.params.length then .allocParam r slotSize else .allocLocal r slotSize⟩

theorem slotTable_eq (h : f.slotCount ≤ idCount) : slotTable f = slotPositions f := by
  refine congrArg Table.ofList ((List.map_congr_left fun e he => ?_).trans (List.map_id _))
  have hlt := List.snd_lt_of_mem_zipIdx he
  rw [idOfNat_of_lt (Nat.lt_of_lt_of_le hlt h)]
  rfl

theorem slotLines_eq (h : f.slotCount ≤ idCount) : slotLines f = slotDeclarations f := by
  refine List.map_congr_left fun r hr => ?_
  rw [idOfNat_of_lt (Nat.lt_of_lt_of_le (List.mem_range.1 hr) h)]

theorem getElem?_of_find?_slotPositions {slot : RegisterId}
    (h : (slotPositions f).find? cell = some slot) : (slotCells f)[slot]? = some cell := by
  have hmem := Table.mem_of_find?_ofList h
  rw [List.mem_zipIdx_iff_getElem?] at hmem
  exact hmem

theorem find?_slotPositions_isSome (h : cell ∈ slotCells f) :
    ((slotPositions f).find? cell).isSome := by
  refine Table.find?_ofList_isSome ?_
  rw [List.zipIdx_map_fst]
  exact h

theorem slot_lt {slot : RegisterId}
    (h : (slotPositions f).find? cell = some slot) : slot < f.slotCount := by
  have hget := getElem?_of_find?_slotPositions h
  exact (List.getElem?_eq_some_iff.1 hget).1

/-! ## Bodies -/

def contextOf (functions : List StmtId) (f : Flow.Function) : LowerContext :=
  { functions, name := f.name, blocks := f.blocks.map Flow.Block.id, slots := slotPositions f }

structure BodyCode (functions : List StmtId) (f : Flow.Function) (b : Body) : Prop where
  /-- The lines are the declarations of the slots and the code of the blocks. -/
  lines : ∃ lines r, b.lines = slotDeclarations f ++ lines ∧
    BlocksCode (contextOf functions f) f.blocks f.slotCount lines r
  result : (slotPositions f).find? f.result = some b.result
  entry : (f.blocks.map Flow.Block.id).idxOf? f.entry = some b.entry

/-! ## Lowering -/

/-- A statement whose cells are listed and whose functions are functions of the program. -/
def Fits (functions : List StmtId) (cells : List LocalId) :
    Flow.Statement → Prop
  | .push (.function decl) => decl ∈ functions
  | .load cell => cell ∈ cells
  | .store cell => cell ∈ cells
  | _ => True

/-- A graph that can be lowered: it is tidy, its statements are about its cells and about functions
of the program, and no cell has two slots. -/
structure Lowerable (functions : List StmtId) (f : Flow.Function) : Prop where
  tidy : f.Tidy (Fits functions (slotCells f))
  cells : (slotCells f).Nodup

theorem slotCells_simplify {P : Flow.Statement → Prop} (h : f.Tidy P) :
    slotCells f.simplify = slotCells f := by
  have himproves := h.improves_simplify
  simp only [slotCells, innerCells, himproves.params, himproves.result, himproves.locals]

theorem registerCount_simplify_le {P : Flow.Statement → Prop} (h : f.Tidy P) :
    f.simplify.registerCount ≤ f.registerCount := by
  rw [Flow.Function.registerCount, Flow.Function.slotCount, slotCells_simplify h]
  exact Nat.add_le_add_left h.closed.blockRegisters_simplify_le _

theorem Lowerable.simplify {functions : List StmtId} (h : Lowerable functions f) :
    Lowerable functions f.simplify := by
  have hcells := slotCells_simplify h.tidy
  exact ⟨hcells ▸ h.tidy.improves_simplify.tidy, hcells ▸ h.cells⟩

section Ensured

-- Either failures are excluded, and then the conditions hold, or nothing is said about failures.
variable {functions : List StmtId} {f : Flow.Function} {fails : Prop}

theorem Lower.fresh_ensures (hlt : σ.register < idCount) {ok : RegisterId → LowerState → Prop}
    (h : ok σ.register { σ with register := σ.register + 1 }) :
    Ensures Lower.fresh σ ok fun _ => fails := by
  show ok (idOfNat σ.register) _
  rwa [idOfNat_of_lt hlt]

theorem Lower.intern_ensures (text : String) (σ : LowerState) :
    Ensures (Lower.intern text) σ (fun _ σ' => σ'.register = σ.register) fun _ => fails := by
  refine Ensures.modifyGet ?_
  split <;> rfl

theorem Lower.slotOf_ensures (h : ¬fails → cell ∈ slotCells f) {ok : RegisterId → LowerState → Prop}
    (hok : ∀ slot, (slotPositions f).find? cell = some slot → ok slot σ) :
    Ensures (Lower.slotOf (contextOf functions f) cell) σ ok fun _ => fails := by
  cases hslot : (slotPositions f).find? cell with
  | some slot =>
    simp only [Lower.slotOf, contextOf, hslot]
    exact hok slot hslot
  | none =>
    simp only [Lower.slotOf, contextOf, hslot]
    refine Ensures.throw (by_contra fun hfails => ?_)
    simpa [hslot] using find?_slotPositions_isSome (h hfails)

theorem Lower.labelOf_ensures {block : BlockId} (h : ¬fails → block ∈ f.blocks.map Flow.Block.id)
    {ok : LabelId → LowerState → Prop}
    (hok : ∀ label, (f.blocks.map Flow.Block.id).idxOf? block = some label → ok label σ) :
    Ensures (Lower.labelOf (contextOf functions f) block) σ ok fun _ => fails := by
  cases hlabel : (f.blocks.map Flow.Block.id).idxOf? block with
  | some label =>
    simp only [Lower.labelOf, contextOf, hlabel]
    exact hok label hlabel
  | none =>
    simp only [Lower.labelOf, contextOf, hlabel]
    exact Ensures.throw (by_contra fun hfails => List.idxOf?_eq_none_iff.1 hlabel (h hfails))

theorem Lower.functionOf_ensures {decl : StmtId} (h : ¬fails → decl ∈ functions)
    {ok : FunctionId → LowerState → Prop}
    (hok : ∀ id, functions.idxOf? decl = some id → ok (idOfNat id) σ) :
    Ensures (Lower.functionOf (contextOf functions f) decl) σ ok fun _ => fails := by
  cases hid : functions.idxOf? decl with
  | some id =>
    simp only [Lower.functionOf, contextOf, hid]
    exact hok id hid
  | none =>
    simp only [Lower.functionOf, contextOf, hid]
    exact Ensures.throw (by_contra fun hfails => List.idxOf?_eq_none_iff.1 hid (h hfails))

theorem Lower.statement_ensures {s : Flow.Statement}
    (h : ¬fails → Fits functions (slotCells f) s)
    (hroom : σ.register + Flow.statementRegisters [s] ≤ idCount) :
    Ensures (Lower.statement (contextOf functions f) s) σ
      (fun code σ' => StatementCode (contextOf functions f) s σ.register code σ'.register)
      fun _ => fails := by
  have hlt : σ.register < idCount := Nat.lt_of_lt_of_le (Nat.lt_add_of_pos_right
    (Nat.lt_add_right _ Nat.one_pos)) hroom
  cases s with
  | push value =>
    cases value with
    | int value =>
      refine Ensures.bind (Lower.fresh_ensures hlt (Ensures.pure ?_))
      exact .int value σ.register
    | string text =>
      refine Ensures.bind_of (Lower.intern_ensures text σ) ?_
      intro id σ' hσ'
      refine Ensures.bind (Lower.fresh_ensures (hσ' ▸ hlt) (Ensures.pure ?_))
      rw [← hσ']
      exact .string text id σ'.register
    | function decl =>
      refine Ensures.bind (Lower.functionOf_ensures h ?_)
      intro id hid
      refine Ensures.bind (Lower.fresh_ensures hlt (Ensures.pure ?_))
      exact .function decl id σ.register hid
  | pop =>
    refine Ensures.bind (Lower.fresh_ensures hlt (Ensures.pure ?_))
    exact .pop σ.register
  | load cell =>
    refine Ensures.bind (Lower.slotOf_ensures h ?_)
    intro slot hslot
    refine Ensures.bind (Lower.fresh_ensures hlt (Ensures.pure ?_))
    exact .load cell slot σ.register hslot
  | store cell =>
    refine Ensures.bind (Lower.slotOf_ensures h ?_)
    intro slot hslot
    refine Ensures.bind (Lower.fresh_ensures hlt (Ensures.pure ?_))
    exact .store cell slot σ.register hslot
  | call arguments =>
    refine Ensures.bind (Lower.fresh_ensures hlt (Ensures.pure ?_))
    exact .call arguments σ.register
  | binary op =>
    refine Ensures.bind (Lower.fresh_ensures hlt ?_)
    refine Ensures.bind (Lower.fresh_ensures (show σ.register + 1 < idCount from hroom) ?_)
    refine Ensures.pure ?_
    exact .binary op σ.register

theorem Lower.terminator_ensures {t : Flow.Terminator}
    (hfinished : ¬fails → t ≠ .unset ∧ t ≠ .error)
    (htargets : ¬fails → ∀ s ∈ t.successors, s ∈ f.blocks.map Flow.Block.id)
    (hroom : t.isBranch → σ.register < idCount) :
    Ensures (Lower.terminator (contextOf functions f) t) σ
      (fun code σ' => TerminatorCode (contextOf functions f) t σ.register code σ'.register)
      fun _ => fails := by
  cases t with
  | error => exact Ensures.throw (by_contra fun hfails => (hfinished hfails).2 rfl)
  | unset => exact Ensures.throw (by_contra fun hfails => (hfinished hfails).1 rfl)
  | «return» => exact .return σ.register
  | goto target =>
    refine Ensures.bind (Lower.labelOf_ensures
      (fun hfails => htargets hfails target (List.mem_singleton_self _)) ?_)
    intro label hlabel
    exact .goto target label σ.register hlabel
  | branch truthy falsy =>
    have hmem : ∀ s, s = truthy ∨ s = falsy →
        s ∈ (Flow.Terminator.branch truthy falsy).successors := by
      intro s hs
      simp only [Flow.Terminator.successors]
      split <;> simp_all
    refine Ensures.bind (Lower.labelOf_ensures
      (fun hfails => htargets hfails truthy (hmem _ (.inl rfl))) ?_)
    intro truthyLabel htruthy
    refine Ensures.bind (Lower.labelOf_ensures
      (fun hfails => htargets hfails falsy (hmem _ (.inr rfl))) ?_)
    intro falsyLabel hfalsy
    refine Ensures.bind (Lower.fresh_ensures (hroom rfl) (Ensures.pure ?_))
    exact .branch truthy falsy truthyLabel falsyLabel σ.register htruthy hfalsy

theorem Lower.statements_ensures {ss : List Flow.Statement}
    (h : ¬fails → ∀ s ∈ ss, Fits functions (slotCells f) s)
    (hroom : σ.register + Flow.statementRegisters ss ≤ idCount) :
    Ensures (Lower.statements (contextOf functions f) ss) σ
      (fun code σ' => σ'.register = σ.register + Flow.statementRegisters ss ∧
        ∀ t rest r', Code (contextOf functions f) [] t σ'.register rest r' →
          Code (contextOf functions f) ss t σ.register (code ++ rest) r')
      fun _ => fails := by
  induction ss generalizing σ with
  | nil => exact ⟨rfl, fun _ _ _ hcode => hcode⟩
  | cons s ss ih =>
    have hcount := Flow.statementRegisters_append [s] ss
    rw [List.singleton_append] at hcount
    refine Ensures.bind_of (Lower.statement_ensures (fun hfails => h hfails s List.mem_cons_self)
      (by omega)) ?_
    intro first σ₁ hfirst
    have hnext : σ₁.register = σ.register + Flow.statementRegisters [s] := hfirst.next_eq
    refine Ensures.bind_of (ih (fun hfails s' hs' => h hfails s' (List.mem_cons_of_mem _ hs'))
      (by omega)) ?_
    rintro rest σ₂ ⟨hσ₂, hrest⟩
    refine Ensures.pure ⟨by omega, ?_⟩
    intro t after r' hafter
    rw [List.append_assoc]
    exact .cons hfirst (hrest t after r' hafter)

theorem Lower.blocks_ensures (hf : ¬fails → Lowerable functions f) {blocks : List Flow.Block}
    (hb : ∀ b ∈ blocks, b ∈ f.blocks) (hroom : σ.register + Flow.blockRegisters blocks ≤ idCount) :
    Ensures (Lower.blocks (contextOf functions f) blocks) σ
      (fun lines σ' => BlocksCode (contextOf functions f) blocks σ.register lines σ'.register)
      fun _ => fails := by
  induction blocks generalizing σ with
  | nil => exact .nil σ.register
  | cons b rest ih =>
    have hmem := hb b List.mem_cons_self
    have hcount := Flow.blockRegisters_cons b rest
    refine Ensures.bind (Ensures.bind (Lower.labelOf_ensures
      (fun _ => List.mem_map_of_mem hmem) ?_))
    intro label hlabel
    refine Ensures.bind_of
      (Lower.statements_ensures (fun hfails => (hf hfails).tidy.statements b hmem) (by omega)) ?_
    rintro code σ₁ ⟨hσ₁, hcode⟩
    refine Ensures.bind_of (Lower.terminator_ensures
      (fun hfails => (hf hfails).tidy.finished b hmem)
      (fun hfails => (hf hfails).tidy.targets b hmem) (fun hbranch => ?_)) ?_
    · rw [hbranch, Bool.toNat_true] at hcount
      omega
    intro last σ₂ hlast
    have hσ₂ : σ₂.register = σ₁.register + b.terminator.isBranch.toNat := hlast.next_eq
    refine Ensures.pure ?_
    refine Ensures.bind_of (ih (fun c hc => hb c (List.mem_cons_of_mem _ hc)) (by omega)) ?_
    intro lines σ₃ hlines
    exact .cons hlabel (hcode _ _ _ (.nil hlast)) hlines

theorem lowerFunction_ensures (hf : ¬fails → Lowerable functions f)
    (hids : f.registerCount ≤ idCount) (σ : LowerState) :
    Ensures (lowerFunction functions f) σ (fun b _ => BodyCode functions f b) fun _ => fails := by
  have hslots : f.slotCount ≤ idCount := (Nat.le_add_right _ _).trans hids
  rw [lowerFunction, slotTable_eq hslots, slotLines_eq hslots]
  refine Ensures.bind (Ensures.modify ?_)
  refine Ensures.bind_of (Lower.blocks_ensures hf (fun _ hb => hb) hids) ?_
  intro lines σ' hlines
  have hresult : f.result ∈ slotCells f := List.mem_append_right _ List.mem_cons_self
  refine Ensures.bind (Lower.slotOf_ensures (fun _ => hresult) ?_)
  intro result hslot
  refine Ensures.bind (Lower.labelOf_ensures
    (fun hfails => List.mem_of_mem_head? (hf hfails).tidy.entry) ?_)
  intro entry hentry
  exact Ensures.pure ⟨⟨lines, _, rfl, hlines⟩, hslot, hentry⟩

end Ensured

end WordLang.Linear
