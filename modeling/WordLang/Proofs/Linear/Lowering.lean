import WordLang.Proofs.Linear.Execution
import WordLang.Proofs.Linear.Lowered

/-!
# Lowered code does what the graph does

Linear code and its graph run in lock step. Between statements no register is live, every slot
holds a word for the value of its cell, and the stack holds words for the operands of all
activations, those of the callers below those of the callee. A step of the graph takes as many
lines as it costs.

## Main definitions

* `Linear.Stands`: the words that stand for a value
* `Linear.Lowers`: programs of linear code that were lowered from graphs
* `Linear.Corresponds`: states that correspond

## Main results

* `Linear.Lowers.lockStep`: graphs and lowered code run in lock step
* `Linear.Lowers.ends`, `Linear.Lowers.ends_back`: results of functions in both directions
-/

namespace WordLang.Linear

variable {g : Flow.Frame} {ss : List Flow.Statement} {lines : List Line} {l : Frame}

/-- The words that stand for a value: functions are numbered, and strings are not looked at. -/
def Stands (functions : List StmtId) : Flow.Value → Int64 → Prop
  | .int value, w => w = value
  | .string _, _ => True
  | .function decl, w => ∃ i, functions.idxOf? decl = some i ∧ w = Int64.ofNat (idOfNat i)

def Function.LoweredFrom (functions : List StmtId) (f : Function) : Option Flow.Definition → Prop
  | some (.graph g) => Lowerable functions g ∧ f.arity = g.params.length ∧
      ∃ b, f.definition = .body b ∧ BodyCode functions g b
  | some (.foreign symbol) => f.definition = .foreign symbol
  | none => True

/-- A program that was lowered from the graphs of listed functions, which identifiers can count. -/
structure Lowers (functions : List StmtId) (q : Flow.Program) (p : Program) : Prop where
  bound : functions.length ≤ idCount
  definition : ∀ decl i, functions.idxOf? decl = some i →
    ∃ f, p.functions[i]? = some f ∧ f.LoweredFrom functions (q decl)

/-! ## States that correspond -/

section

variable (functions : List StmtId)

/-- The activation `l` does what `g` does from the given lines on. -/
structure At (g : Flow.Frame) (l : Frame) (lines : List Line) : Prop where
  lowerable : Lowerable functions g.function
  body : BodyCode functions g.function l.body
  code : ∃ r code r' following,
    Code (contextOf functions g.function) g.statements g.terminator r code r' ∧
      lines.map Line.instruction = code ++ following
  cells : ∀ cell slot, (slotPositions g.function).find? cell = some slot →
    ∃ w, l.slot slot = .ok w ∧ Stands functions (g.cells cell) w

/-- Activations that wait for the result of a call, with their part of the stack. The register
that held the callee is still live. -/
inductive Waiting : List Flow.Frame → List Frame → List Int64 → Prop where
  | nil : Waiting [] [] []
  | cons {g : Flow.Frame} {gs : List Flow.Frame} {l : Frame} {ls : List Frame}
    {words below : List Int64} {r : RegisterId} {w : Int64} {labels : List LabelId}
    {lines : List Line} :
    At functions g l lines → l.registers = Table.empty → List.Forall₂ (Stands functions) g.stack words →
    l.base = below.length → Waiting gs ls below →
    Waiting (g :: gs) ({ l.write r w with rest := ⟨labels, .kill r⟩ :: lines } :: ls)
      (words ++ below)

structure Corresponds (s : Flow.State) (t : State) : Prop where
  place : At functions s.frame t.frame t.frame.rest
  registers : t.frame.registers = Table.empty
  stack : ∃ words below, t.stack = words ++ below ∧
    List.Forall₂ (Stands functions) s.frame.stack words ∧ t.frame.base = below.length ∧
      Waiting functions s.callers t.callers below

end

variable {functions : List StmtId} {q : Flow.Program} {p : Program}

/-- Only what is left of the block has to be at the new place. -/
theorem At.move {lines lines' : List Line} (h : At functions g l lines)
    {t : Flow.Terminator} {r r' : RegisterId} {code following : List Instruction}
    (hcode : Code (contextOf functions g.function) ss t r code r')
    (hlines : lines'.map Line.instruction = code ++ following) (stack : List Flow.Value) :
    At functions { g with statements := ss, terminator := t, stack } { l with rest := lines' }
      lines' where
  lowerable := h.lowerable
  body := h.body
  code := ⟨r, code, r', following, hcode, hlines⟩
  cells := h.cells

theorem At.store (h : At functions g l lines)
    {cell : LocalId} {slot : RegisterId} (hslot : (slotPositions g.function).find? cell = some slot)
    {value : Flow.Value} {w : Int64} (hw : Stands functions value w) :
    At functions { g with cells := Function.update g.cells cell value } (l.store slot w) lines where
  lowerable := h.lowerable
  body := h.body
  code := h.code
  cells := by
    intro cell' slot' hslot'
    by_cases hcell : cell' = cell
    · subst hcell
      rw [hslot] at hslot'
      cases hslot'
      refine ⟨w, ?_, ?_⟩
      · simp only [Frame.slot, Frame.store, Table.find?_insert_self]
      · simp only [Function.update_self]
        exact hw
    · -- Another cell has another slot.
      have hne : slot' ≠ slot := by
        rintro rfl
        have hget := getElem?_of_find?_slotPositions hslot
        rw [getElem?_of_find?_slotPositions hslot'] at hget
        exact hcell (Option.some.inj hget)
      obtain ⟨w', hw', hstands⟩ := h.cells cell' slot' hslot'
      refine ⟨w', ?_, ?_⟩
      · simp only [Frame.slot, Frame.store, Table.find?_insert_of_ne hne] at hw' ⊢
        exact hw'
      · simp only [Function.update_of_ne hcell]
        exact hstands

/-! ## Calls -/

theorem stands_startCells {f : Flow.Function} (hf : Lowerable functions f)
    {arguments : List Flow.Value} {words : List Int64}
    (hargs : List.Forall₂ (Stands functions) arguments words)
    (hlen : arguments.length = f.params.length) {cell : LocalId} {slot : RegisterId}
    (hslot : (slotPositions f).find? cell = some slot) :
    Stands functions (f.startCells arguments cell) ((words[slot]?).getD 0) := by
  have hget := getElem?_of_find?_slotPositions hslot
  have hnodup := hf.cells
  rw [slotCells, List.nodup_append] at hnodup
  rw [slotCells] at hget
  by_cases hlt : slot < f.params.length
  · rw [List.getElem?_append_left hlt, List.getElem?_eq_some_iff] at hget
    obtain ⟨_, rfl⟩ := hget
    have hidx : f.params.idxOf? f.params[slot] = some slot := by
      rw [List.idxOf?_eq_some_iff]
      refine ⟨hlt, rfl, fun j hj heq => ?_⟩
      have := (List.Nodup.getElem_inj_iff hnodup.1).1 heq
      omega
    have harg : slot < arguments.length := hlen ▸ hlt
    have hword : slot < words.length := hargs.length_eq ▸ harg
    simp only [Flow.Function.startCells, hidx, List.getElem?_eq_getElem harg,
      List.getElem?_eq_getElem hword, Option.getD_some]
    exact hargs.get harg hword
  · -- The other cells start with zero.
    rw [List.getElem?_append_right (Nat.not_lt.1 hlt)] at hget
    have hnot : cell ∉ f.params := by
      intro hmem
      exact hnodup.2.2 cell hmem cell (List.mem_of_getElem? hget) rfl
    have hidx : f.params.idxOf? cell = none := List.idxOf?_eq_none_iff.2 hnot
    have hword : words.length ≤ slot := by
      rw [← hargs.length_eq, hlen]
      exact Nat.not_lt.1 hlt
    simp only [Flow.Function.startCells, hidx, List.getElem?_eq_none hword, Option.getD_none]
    rfl

/-- The declarations at the head of a body lead to the start of the graph. -/
theorem steps_activation {f : Flow.Function} (hf : Lowerable functions f) {b : Body}
    (hb : BodyCode functions f b) {arguments : List Flow.Value} {words : List Int64}
    (hargs : List.Forall₂ (Stands functions) arguments words)
    (hg : f.activation? arguments = some g) (label : String) (base : Nat) (callers : List Frame)
    (stack : List Int64) :
    ∃ l, (machine p).Steps f.slotCount ⟨b.activation label words base, callers, stack⟩
        ⟨l, callers, stack⟩ ∧
      At functions g l l.rest ∧ l.registers = Table.empty ∧ l.base = base := by
  simp only [Flow.Function.activation?] at hg
  split at hg
  · next hlen =>
    obtain ⟨entry, hentry, rfl⟩ := Option.map_eq_some_iff.1 hg
    obtain ⟨lines, r, hlines, hblocks⟩ := hb.lines
    have hwords : words.length = f.params.length := hargs.length_eq ▸ hlen
    have hrest : (b.activation label words base).rest =
        (List.range' 0 f.slotCount).map (slotLine words.length) ++ lines := by
      rw [hwords, ← List.range_eq_range']
      exact hlines
    obtain ⟨left, slots, hsteps, hslots⟩ :=
      steps_slotLine p callers stack f.slotCount 0 hrest rfl
    refine ⟨_, hsteps, ⟨hf, hb, ?_, ?_⟩, rfl, rfl⟩
    · obtain ⟨r₁, code, r₂, following, hcode, hfollow⟩ :=
        hblocks.head (hf.tidy.head?_blocks hentry)
      exact ⟨r₁, code, r₂, following, hcode, hfollow⟩
    · intro cell slot hslot
      refine ⟨(words[slot]?).getD 0, ?_, stands_startCells hf hargs hlen hslot⟩
      have hfind := hslots slot
      by_cases hlt : slot < words.length
      · have hpos : 0 ≤ slot ∧ slot < 0 + f.slotCount ∧ slot < words.length :=
          ⟨Nat.zero_le _, by rw [Nat.zero_add]; exact slot_lt hslot, hlt⟩
        rw [if_pos hpos, List.getElem?_eq_getElem hlt] at hfind
        simp only [Frame.slot, hfind, List.getElem?_eq_getElem hlt, Option.getD_some]
      · rw [if_neg fun hand => hlt hand.2.2] at hfind
        have hnone : slots.find? slot = none := hfind
        have hdeclared : b.lines.any (fun line => line.instruction.slot? = some slot) = true := by
          obtain ⟨line, hl, hline⟩ := hb.regular.orderly.declared slot (slot_lt hslot)
          exact List.any_eq_true.2 ⟨line, hl, decide_eq_true hline⟩
        simp only [Frame.slot, hnone, Body.activation, hdeclared, if_true,
          List.getElem?_eq_none (Nat.not_lt.1 hlt), Option.getD_none]
  · cases hg

/-! ## Steps -/

/-- What is left of a block starts with the code of its first statement. -/
theorem At.statement (h : At functions g l lines)
    {s : Flow.Statement} (hs : g.statements = s :: ss) :
    ∃ r first r₁ code r' following, StatementCode (contextOf functions g.function) s r first r₁ ∧
      Code (contextOf functions g.function) ss g.terminator r₁ code r' ∧
      lines.map Line.instruction = first ++ (code ++ following) := by
  obtain ⟨r, code, r', following, hcode, hlines⟩ := h.code
  rw [hs] at hcode
  cases hcode with
  | cons hfirst hrest =>
    rw [List.append_assoc] at hlines
    exact ⟨_, _, _, _, _, following, hfirst, hrest, hlines⟩

theorem At.terminator (h : At functions g l lines) (hs : g.statements = []) :
    ∃ r code r' following, TerminatorCode (contextOf functions g.function) g.terminator r code r' ∧
      lines.map Line.instruction = code ++ following := by
  obtain ⟨r, code, r', following, hcode, hlines⟩ := h.code
  rw [hs] at hcode
  cases hcode with
  | nil hcode => exact ⟨r, code, r', following, hcode, hlines⟩

theorem evaluate_of_operator (op : BinaryOp) {lhs rhs : Flow.Value} {wl wr : Int64}
    (hl : Stands functions lhs wl) (hr : Stands functions rhs wr) :
    match Evaluation.operator op lhs rhs with
    | .ok value => ∃ w, evaluate op wl wr = .ok w ∧ Stands functions value w
    | .error (.fault e) => evaluate op wl wr = .error e.runError
    | .error _ => True := by
  cases lhs with
  | string _ => trivial
  | function _ => trivial
  | int lhs =>
    cases rhs with
    | string _ => trivial
    | function _ => trivial
    | int rhs =>
      cases hl
      cases hr
      simp only [Evaluation.operator, evaluate_eq_meaning]
      cases op.meaning wl wr with
      | ok value => exact ⟨value, rfl, rfl⟩
      | error fault => rfl

/-- What lowered code does where the graph goes on or fails. -/
def Answers (functions : List StmtId) (p : Program) (gs : List Flow.Frame) (t : State) :
    Flow.Action → Prop
  | .go cost g => ∃ t', (machine p).Steps cost t t' ∧ Corresponds functions ⟨g, gs⟩ t'
  | .fail cost (.fault e) => (machine p).Ends cost t (.error e.runError)
  | _ => True

section Answers

variable {g : Flow.Frame} {gs : List Flow.Frame} {t : State} (h : Corresponds functions ⟨g, gs⟩ t)
include h

/-- The code of a statement that does not call. -/
theorem Corresponds.statement {s : Flow.Statement}
    (hs : g.statements = s :: ss) : Answers functions p gs t (s.act { g with statements := ss }) := by
  obtain ⟨l, callers, stack⟩ := t
  obtain ⟨hat, hregisters, words, below, rfl, hwords, hbase, hwaiting⟩ := h
  obtain ⟨r, first, r₁, code, r', following, hfirst, hcode, hlines⟩ := hat.statement hs
  -- The code after the statement goes on with the changed stack.
  have hafter : ∀ (lines : List Line) (values : List Flow.Value) (words' : List Int64),
      lines.map Line.instruction = code ++ following →
      List.Forall₂ (Stands functions) values words' →
      Corresponds functions ⟨{ g with statements := ss, stack := values }, gs⟩
        ⟨{ l with rest := lines }, callers, words' ++ below⟩ := by
    intro lines values words' hlines hvalues
    exact ⟨hat.move hcode hlines values, hregisters, words', below, rfl, hvalues, hbase, hwaiting⟩
  have hpush : ∀ (i : Instruction) (r : RegisterId) (value : Flow.Value) (w : Int64),
      l.rest.map Line.instruction = i :: .push r :: .kill r :: (code ++ following) →
      (∀ rest, i.act { l with rest } (words ++ below) =
        .go ({ l with rest }.write r w) (words ++ below)) → Stands functions value w →
      Answers functions p gs ⟨l, callers, words ++ below⟩
        (.go 3 { g with statements := ss, stack := value :: g.stack }) := by
    intro i r value w hlines hi hw
    obtain ⟨lines, hlines', hsteps⟩ := steps_push p callers _ hlines hi hregisters
    exact ⟨_, hsteps, hafter lines (value :: g.stack) (w :: words) hlines' (.cons hw hwords)⟩
  cases hfirst with
  | int value r => exact hpush _ r (.int value) value hlines (fun _ => rfl) rfl
  | string text id r => exact hpush _ r (.string text) _ hlines (fun _ => rfl) trivial
  | function decl id r hid => exact hpush _ r (.function decl) _ hlines (fun _ => rfl) ⟨id, hid, rfl⟩
  | load cell slot r hslot =>
    obtain ⟨w, hw, hstands⟩ := hat.cells cell slot hslot
    refine hpush _ r (g.cells cell) w hlines (fun rest => ?_) hstands
    have hslot' : ({ l with rest } : Frame).slot slot = .ok w := hw
    simp only [Instruction.act, Frame.readingSlot, hslot']
  | pop r =>
    rcases hstack : g.stack with - | ⟨value, values⟩
    · trivial
    · rw [hstack] at hwords
      obtain ⟨w, words', -, hwords', rfl⟩ := List.forall₂_cons_left_iff.1 hwords
      obtain ⟨lines, hlines', hsteps⟩ := steps_pop p callers
        (words' ++ below) (w := w) hlines hregisters
      exact ⟨_, hsteps, hafter lines values words' hlines' hwords'⟩
  | store cell slot r hslot =>
    rcases hstack : g.stack with - | ⟨value, values⟩
    · trivial
    · rw [hstack] at hwords
      obtain ⟨w, words', hw, hwords', rfl⟩ := List.forall₂_cons_left_iff.1 hwords
      obtain ⟨lines, hlines', hsteps⟩ := steps_store p callers
        (words' ++ below) (w := w) hlines hregisters
      have hstored := (hat.store hslot hw).move hcode hlines' values
      exact ⟨_, hsteps, hstored, hregisters, words', below, rfl, hwords', hbase, hwaiting⟩
  | call arguments r =>
    simp only [Flow.Statement.act]
    split
    · split <;> trivial
    · trivial
  | binary op r =>
    simp only [Flow.Statement.act]
    rcases hstack : g.stack with - | ⟨rhs, - | ⟨lhs, values⟩⟩
    · trivial
    · trivial
    · rw [hstack] at hwords
      obtain ⟨wr, words', hr, hwords', rfl⟩ := List.forall₂_cons_left_iff.1 hwords
      obtain ⟨wl, words'', hl, hwords'', rfl⟩ := List.forall₂_cons_left_iff.1 hwords'
      have hop := evaluate_of_operator op hl hr
      dsimp only
      cases hvalue : Evaluation.operator op lhs rhs with
      | error stop =>
        rw [hvalue] at hop
        cases stop with
        | fault e => exact ends_binary p callers (words'' ++ below) hlines hop
        | _ => trivial
      | ok value =>
        rw [hvalue] at hop
        obtain ⟨w, hw, hstands⟩ := hop
        obtain ⟨lines, hlines', hsteps⟩ := steps_binary p callers
          (words'' ++ below) hlines hregisters hw
        exact ⟨_, hsteps, hafter lines (value :: values) (w :: words'') hlines'
          (.cons hstands hwords'')⟩

theorem Corresponds.terminator (hs : g.statements = []) :
    Answers functions p gs t (g.terminator.act g) := by
  obtain ⟨l, callers, stack⟩ := t
  obtain ⟨hat, hregisters, words, below, rfl, hwords, hbase, hwaiting⟩ := h
  obtain ⟨r, code, r', following, hcode, hlines⟩ := hat.terminator hs
  -- Where the graph goes on at a block, the label of the block leads to its code.
  have hgoto : ∀ (target : BlockId) (label : LabelId) (k : Nat) (values : List Flow.Value)
      (words' : List Int64),
      (contextOf functions g.function).blocks.idxOf? target = some label →
      List.Forall₂ (Stands functions) values words' →
      (∀ found, seek label l.body.lines = some found → (machine p).Steps k
        ⟨l, callers, words ++ below⟩ ⟨{ l with rest := found }, callers, words' ++ below⟩) →
      Answers functions p gs ⟨l, callers, words ++ below⟩
        (({ g with stack := values } : Flow.Frame).goto k target) := by
    intro target label k values words' hlabel hvalues hsteps
    simp only [Flow.Frame.goto]
    split
    · next b hb =>
      obtain ⟨found, r₁, code', r₂, following', hseek, hcode', hfound⟩ :=
        hat.body.seek_block hat.lowerable.tidy.ids hb hlabel
      exact ⟨_, hsteps found hseek, hat.move hcode' hfound values, hregisters, words', below, rfl,
        hvalues, hbase, hwaiting⟩
    · trivial
  generalize g.terminator = term at hcode ⊢
  cases hcode with
  | «return» =>
    simp only [Flow.Terminator.act]
    split <;> trivial
  | goto target label r hlabel =>
    exact hgoto target label 1 g.stack words hlabel hwords fun _ => steps_jump hlines
  | branch truthy falsy truthyLabel falsyLabel r htruthy hfalsy =>
    simp only [Flow.Terminator.act]
    rcases hstack : g.stack with - | ⟨value, values⟩
    · trivial
    · rw [hstack] at hwords
      obtain ⟨w, words', hw, hwords', rfl⟩ := List.forall₂_cons_left_iff.1 hwords
      cases value with
      | string _ => trivial
      | function _ => trivial
      | int value =>
        cases hw
        simp only
        split
        · next hvalue =>
          exact hgoto truthy truthyLabel 2 values words' htruthy hwords' fun _ =>
            steps_branch_truthy p callers (words' ++ below) hlines hregisters hvalue
        · next hvalue =>
          obtain rfl : w = 0 := not_not.1 hvalue
          exact hgoto falsy falsyLabel 4 values words' hfalsy hwords' fun _ =>
            steps_branch_falsy p callers (words' ++ below) hlines hregisters

/-- The code of a statement or terminator. -/
theorem Corresponds.act : Answers functions p gs t g.act := by
  simp only [Flow.Frame.act]
  split
  · next hs => exact h.statement hs
  · next hs => exact h.terminator hs

end Answers

section Calls

variable {g caller : Flow.Frame} {gs : List Flow.Frame} {t : State} {decl : StmtId}
  {arguments : List Flow.Value}

/-- The number of a function of the program fits the width of the ids. -/
theorem Lowers.idOfNat_eq (hp : Lowers functions q p) {decl i : Nat}
    (hi : functions.idxOf? decl = some i) : idOfNat i = i :=
  Nat.mod_eq_of_lt (Nat.lt_of_lt_of_le (lt_length_of_idxOf? hi) hp.bound)

/-- The code of a call leads to the function that it calls, or fails if that is a foreign one. -/
theorem Corresponds.call (hp : Lowers functions q p) (h : Corresponds functions ⟨g, gs⟩ t)
    (hact : g.act = .call caller decl arguments) :
    (∀ {f callee}, q decl = some (.graph f) → f.activation? arguments = some callee →
      ∃ t', (machine p).Steps (2 + f.slotCount) t t' ∧
        Corresponds functions ⟨callee, caller :: gs⟩ t') ∧
    ∀ {symbol}, q decl = some (.foreign symbol) → (machine p).Ends 2 t (.error (.foreign symbol)) := by
  obtain ⟨l, callers, stack⟩ := t
  obtain ⟨hat, hregisters, words, below, rfl, hwords, hbase, hwaiting⟩ := h
  obtain ⟨n, ss, values, hs, hstack, hlen, rfl, rfl⟩ := Flow.Frame.call_of_act hact
  obtain ⟨r, first, r₁, code, r', following, hfirst, hcode, hlines⟩ := hat.statement hs
  simp only at hwords
  rw [hstack] at hwords
  obtain ⟨w, words', ⟨i, hi, rfl⟩, hwords', rfl⟩ := List.forall₂_cons_left_iff.1 hwords
  rw [hp.idOfNat_eq hi]
  obtain ⟨F, hF, hlowered⟩ := hp.definition decl i hi
  have hbound := Nat.lt_of_lt_of_le (lt_length_of_idxOf? hi) hp.bound
  cases hfirst with
  | call _ r =>
  refine ⟨fun {f callee} hq hcallee => ?_, fun {symbol} hq => ?_⟩
  · rw [hq] at hlowered
    obtain ⟨hf, harity, b, hb, hbody⟩ := hlowered
    have hcount : n = f.params.length := by
      have hargs : ((values.take n).reverse).length = f.params.length := by
        simp only [Flow.Function.activation?] at hcallee
        split at hcallee
        · assumption
        · cases hcallee
      simpa [hlen] using hargs
    have hlen' : n ≤ words'.length := hwords'.length_eq ▸ hlen
    -- The arguments are the top of the stack; what is below them stays.
    have hactivate : activate F n (words' ++ below) =
        .ok (b.activation F.label (words'.take n).reverse (words'.drop n ++ below).length,
          words'.drop n ++ below) := by
      have hnot : ¬(words' ++ below).length < n := by
        rw [List.length_append]
        omega
      simp only [activate, hb, harity, ← hcount, ne_eq, not_true_eq_false, if_false, if_neg hnot,
        List.drop_append_of_le_length hlen', List.take_append_of_le_length hlen']
      rfl
    obtain ⟨labels, lines, hlines', hsteps⟩ := steps_call p callers _ hlines hbound hF hactivate
    have hargs : List.Forall₂ (Stands functions) (values.take n).reverse (words'.take n).reverse :=
      List.rel_reverse (List.forall₂_take n hwords')
    obtain ⟨l', hsteps', hat', hregisters', hbase'⟩ := steps_activation (p := p) hf hbody hargs
      hcallee F.label (words'.drop n ++ below).length
      ({ l.write r (Int64.ofNat i) with rest := ⟨labels, .kill r⟩ :: lines } :: callers)
      (words'.drop n ++ below)
    refine ⟨_, hsteps.trans hsteps', hat', hregisters', [], words'.drop n ++ below, rfl, ?_, hbase',
      ?_⟩
    · simp only [Flow.Function.activation?] at hcallee
      split at hcallee
      · obtain ⟨entry, -, rfl⟩ := Option.map_eq_some_iff.1 hcallee
        exact .nil
      · cases hcallee
    · exact .cons (l := { l with rest := lines }) (hat.move hcode hlines' (values.drop n))
        hregisters (List.forall₂_drop n hwords') hbase hwaiting
  · rw [hq] at hlowered
    have hactivate : activate F n (words' ++ below) = .error (.foreign symbol) := by
      simp only [Function.LoweredFrom] at hlowered
      simp only [activate, hlowered]
    exact ends_call hlines hbound hF hactivate

end Calls

/-! ## Ends of activations -/

theorem Corresponds.finish {gs : List Flow.Frame} {t : State} {value : Flow.Value}
    (h : Corresponds functions ⟨g, gs⟩ t) (hact : g.act = .finish value) :
    (∃ code, t.frame.rest.map Line.instruction = .return :: code) ∧
      t.frame.registers = Table.empty ∧ t.stack.length = t.frame.base ∧
      Waiting functions gs t.callers t.stack ∧
      ∃ w, t.frame.slot t.frame.body.result = .ok w ∧ Stands functions value w := by
  obtain ⟨hat, hregisters, words, below, hstack, hwords, hbase, hwaiting⟩ := h
  obtain ⟨hs, hterm, hempty, rfl⟩ := Flow.Frame.finish_of_act hact
  obtain ⟨r, code, r', following, hcode, hlines⟩ := hat.terminator hs
  simp only [hempty] at hwords
  obtain rfl := List.forall₂_nil_left_iff.1 hwords
  rw [List.nil_append] at hstack
  rw [hterm] at hcode
  refine ⟨?_, hregisters, ?_, ?_, hat.cells _ _ hat.body.result⟩
  · cases hcode
    exact ⟨following, hlines⟩
  · rw [hstack, hbase]
  · rw [hstack]
    exact hwaiting

/-- The results of graphs of which nothing is said: there was no way on. -/
def Void : Flow.Outcome → Prop
  | .ok _ => False
  | .error (.fault _) => False
  | .error _ => True

/-- The results that correspond. -/
def SameResult (functions : List StmtId) : Flow.Outcome → Ending → Prop
  | .ok value, .ok (w, stack) => Stands functions value w ∧ stack = []
  | .error (.fault e), .error e' => e' = e.runError
  | _, _ => False

theorem Corresponds.perform (hp : Lowers functions q p) {s : Flow.State} {t : State}
    (h : Corresponds functions s t) :
    (∃ cost s', Flow.perform q s s.frame.act = (cost, .inl s') ∧
      ∃ t', (machine p).Steps cost t t' ∧ Corresponds functions s' t') ∨
    ∃ cost r, Flow.perform q s s.frame.act = (cost, .inr r) ∧
      (Void r ∨ ∃ r', (machine p).Ends cost t r' ∧ SameResult functions r r') := by
  obtain ⟨g, gs⟩ := s
  dsimp only
  cases hact : g.act with
  | go cost g' =>
    have hsteps : Answers functions p gs t (.go cost g') := hact ▸ h.act
    exact .inl ⟨cost, _, rfl, hsteps⟩
  | call caller decl arguments =>
    simp only [Flow.perform]
    cases hq : q decl with
    | none => exact .inr ⟨1, _, rfl, .inl trivial⟩
    | some definition =>
      cases definition with
      | foreign symbol => exact .inr ⟨2, _, rfl, .inr ⟨_, (h.call hp hact).2 hq, rfl⟩⟩
      | graph f =>
        dsimp only
        cases hcallee : f.activation? arguments with
        | none => exact .inr ⟨1, _, rfl, .inl trivial⟩
        | some callee => exact .inl ⟨_, _, rfl, (h.call hp hact).1 hq hcallee⟩
  | finish value =>
    obtain ⟨⟨code, hreturn⟩, hregisters, hbase, hwaiting, w, hresult, hw⟩ := h.finish hact
    obtain ⟨l, callers, stack⟩ := t
    cases hwaiting with
    | nil => exact .inr ⟨1, _, rfl, .inr ⟨_, ends_return hreturn hregisters hbase hresult, hw, rfl⟩⟩
    | @cons caller gs l' ls words below r v labels lines hat hcaller hwords hbase' hwaiting =>
      refine .inl ⟨2, _, rfl, _, steps_return hreturn hregisters hbase hresult hcaller, ?_⟩
      obtain ⟨r₁, code', r₂, following, hcode, hlines⟩ := hat.code
      exact ⟨hat.move hcode hlines (value :: caller.stack), hcaller, w :: words, below, rfl,
        .cons hw hwords, hbase', hwaiting⟩
  | fail cost stop =>
    have hends : Answers functions p gs t (.fail cost stop) := hact ▸ h.act
    refine .inr ⟨cost, _, rfl, ?_⟩
    cases stop with
    | bound => exact .inl trivial
    | stuck => exact .inl trivial
    | fault e => exact .inr ⟨_, hends, rfl⟩

def Lowers.lockStep (hp : Lowers functions q p) :
    Machine.LockStep (Flow.machine q) (machine p) where
  rel := Corresponds functions
  void := Void
  res := SameResult functions
  next := by
    intro s s' t h hstep
    refine ⟨Flow.machine_cost_pos hstep, ?_⟩
    simp only [Flow.machine] at hstep ⊢
    rcases h.perform hp with ⟨cost, s₁, hs, hsteps⟩ | ⟨cost, r, hs, -⟩
    · rw [hs] at hstep ⊢
      cases hstep
      exact hsteps
    · rw [hs] at hstep
      cases hstep
  done := by
    intro s t r h hstep
    simp only [Flow.machine] at hstep ⊢
    rcases h.perform hp with ⟨cost, s₁, hs, -⟩ | ⟨cost, r', hs, hends⟩
    · rw [hs] at hstep
      cases hstep
    · rw [hs] at hstep ⊢
      cases hstep
      exact hends

/-! ## Functions -/

section Functions

variable (hp : Lowers functions q p) {decl : StmtId} {i : Nat} {f : Flow.Function}
  (hi : functions.idxOf? decl = some i) (hq : q decl = some (.graph f))
  {arguments : List Flow.Value} {words : List Int64}
  (hargs : List.Forall₂ (Stands functions) arguments words) {s : Flow.State}
  (hs : q.start? decl arguments = some s)
include hp hi hq hargs hs

theorem Lowers.start : ∃ F b t, p.functions[i]? = some F ∧ F.definition = .body b ∧
    activate F words.length words.reverse = .ok (b.activation F.label words 0, []) ∧
    (machine p).Steps f.slotCount ⟨b.activation F.label words 0, [], []⟩ t ∧
      Corresponds functions s t := by
  obtain ⟨F, hF, hlowered⟩ := hp.definition decl i hi
  rw [hq] at hlowered
  obtain ⟨hf, harity, b, hb, hbody⟩ := hlowered
  simp only [Flow.Program.start?, hq] at hs
  obtain ⟨g, hg, rfl⟩ := Option.map_eq_some_iff.1 hs
  obtain ⟨l, hsteps, hat, hregisters, hbase⟩ :=
    steps_activation (p := p) hf hbody hargs hg F.label 0 [] []
  simp only [Flow.Function.activation?] at hg
  split at hg
  · next hlen =>
    obtain ⟨entry, -, rfl⟩ := Option.map_eq_some_iff.1 hg
    have hwords : words.length = F.arity := by rw [harity, ← hlen, hargs.length_eq]
    refine ⟨F, b, _, hF, hb, ?_, hsteps, hat, hregisters, [], [], rfl, .nil, hbase, .nil⟩
    have hdrop : words.reverse.drop words.length = [] := List.drop_eq_nil_of_le (by simp)
    have htake : words.reverse.take words.length = words.reverse := List.take_of_length_le (by simp)
    simp only [activate, hb, ← hwords, ne_eq, not_true_eq_false, if_false, List.length_reverse,
      Nat.lt_irrefl, hdrop, htake, List.reverse_reverse, List.length_nil]
    rfl
  · cases hg

/-- What the graph ends with, the lowered function ends with. -/
theorem Lowers.ends {k : Nat} {r : Flow.Outcome} (hk : (Flow.machine q).Ends k s r)
    (hr : ¬Void r) : ∃ F b r', p.functions[i]? = some F ∧ F.definition = .body b ∧
      activate F words.length words.reverse = .ok (b.activation F.label words 0, []) ∧
      (machine p).Ends (f.slotCount + k) ⟨b.activation F.label words 0, [], []⟩ r' ∧
      SameResult functions r r' := by
  obtain ⟨F, b, t, hF, hb, hactivate, hsteps, hcorr⟩ := hp.start hi hq hargs hs
  rcases hp.lockStep.ends hcorr hk with hvoid | ⟨r', hends, hsame⟩
  · exact absurd hvoid hr
  · exact ⟨F, b, r', hF, hb, hactivate, hsteps.ends hends, hsame⟩

/-- If the lowered function ends, so does the graph. -/
theorem Lowers.ends_back {F : Function} {b : Body} (hF : p.functions[i]? = some F)
    (hb : F.definition = .body b) {k : Nat} {r' : Ending}
    (hk : (machine p).Ends k ⟨b.activation F.label words 0, [], []⟩ r') :
    ∃ j r, (Flow.machine q).Ends j s r ∧
      (Void r ∨ k = f.slotCount + j ∧ SameResult functions r r') := by
  obtain ⟨F', b', t, hF', hb', -, hsteps, hcorr⟩ := hp.start hi hq hargs hs
  rw [hF] at hF'
  cases hF'
  rw [hb] at hb'
  cases hb'
  obtain ⟨k', rfl, hk'⟩ := hk.after_steps hsteps
  obtain ⟨j, r, hj, hvoid | ⟨rfl, hsame⟩⟩ := hp.lockStep.ends_back hcorr hk'
  · exact ⟨j, r, hj, .inl hvoid⟩
  · exact ⟨j, r, hj, .inr ⟨rfl, hsame⟩⟩

end Functions

end WordLang.Linear
