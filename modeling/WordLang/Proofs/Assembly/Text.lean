import WordLang.Proofs.Assembly.Symbols
import WordLang.Proofs.Assembly.Processor

/-!
# Running assembly text

Pieces of a text are run one after another. A piece of instructions that go on with the next one
leads from its position to the position after it; jumps lead to the targets of the function that they
stand in; and the symbols of a text that defines no symbol twice are the addresses of its labels.

## Main definitions

* `Assembly.Placed lines i piece`: the lines of a text from a position on start with a piece
* `Assembly.Image.Effects`: what instructions do that go on with the next one

## Main results

* `Assembly.Image.Effects.reaches`: running instructions that go on with the next one
* `Assembly.jumpTarget?_of_placed`: where jumps lead to
* `Assembly.Image.symbol_of_placed`: the address of a symbol
-/

namespace WordLang.Assembly

/-! ## Pieces of a text -/

/-- The lines of a text from a position on start with a piece. -/
def Placed (lines : List Line) (i : Nat) (piece : List Line) : Prop := piece <+: lines.drop i

section

variable {lines piece rest : List Line} {line : Line} {i : Nat}

theorem Placed.left (h : Placed lines i (piece ++ rest)) : Placed lines i piece :=
  (List.prefix_append ..).trans h

theorem Placed.right (h : Placed lines i (piece ++ rest)) : Placed lines (i + piece.length) rest := by
  obtain ⟨more, hmore⟩ := h
  refine ⟨more, ?_⟩
  rw [← List.drop_drop, ← hmore, List.append_assoc, List.drop_left]

theorem Placed.tail (h : Placed lines i (line :: piece)) : Placed lines (i + 1) piece := by
  change Placed lines i ([line] ++ piece) at h
  exact h.right

theorem Placed.get (h : Placed lines i piece) {j : Nat} (hj : piece[j]? = some line) :
    lines[i + j]? = some line := by
  obtain ⟨more, hmore⟩ := h
  rw [← List.getElem?_drop, ← hmore, List.getElem?_append_left (List.getElem?_eq_some_iff.1 hj).1, hj]

theorem Placed.head (h : Placed lines i (line :: piece)) : lines[i]? = some line := h.get (j := 0) rfl

theorem exists_placed (h : piece <:+: lines) : ∃ i, Placed lines i piece := by
  obtain ⟨before, after, rfl⟩ := h
  refine ⟨before.length, after, ?_⟩
  rw [List.append_assoc, List.drop_left]

end

/-! ## Running -/

namespace Image

variable {lines : List Line} {img : Image lines} {c c' : Core} {i j : Nat}

theorem execute?_of_effect? {instr : Instr} (h : img.effect? c instr = some c') :
    img.execute? i c instr = some ⟨img.address (i + 1), c'⟩ := by
  cases instr with
  | jmp | jne | call | ret => cases h
  | _ =>
    rw [execute?, h]
    · rfl
    all_goals simp

variable (img) in
/-- Instructions that go on with the next one lead from one state to another. -/
inductive Effects : List Instr → Core → Core → Prop where
  | nil (c : Core) : Effects [] c c
  | cons {instr : Instr} {instrs : List Instr} {c₁ c₂ c₃ : Core} :
    img.effect? c₁ instr = some c₂ → Effects instrs c₂ c₃ → Effects (instr :: instrs) c₁ c₃

theorem Effects.single {instr : Instr} (h : img.effect? c instr = some c') :
    img.Effects [instr] c c' := .cons h (.nil c')

theorem Effects.append {instrs instrs' : List Instr} {c₁ c₂ c₃ : Core}
    (h : img.Effects instrs c₁ c₂) (h' : img.Effects instrs' c₂ c₃) :
    img.Effects (instrs ++ instrs') c₁ c₃ := by
  induction h with
  | nil => exact h'
  | cons hfirst _ ih => exact .cons hfirst (ih h')

/-- Instructions that go on with the next one are run one after another. -/
theorem Effects.reaches {instrs : List Instr} (hc : img.Effects instrs c c')
    (h : Placed lines i (code instrs)) :
    img.Reaches ⟨img.address i, c⟩ ⟨img.address (i + instrs.length), c'⟩ := by
  induction hc generalizing i with
  | nil => exact .refl
  | @cons instr instrs c₁ c₂ c₃ hfirst _ ih =>
    have hstep : img.Step ⟨img.address i, c₁⟩ ⟨img.address (i + 1), c₂⟩ :=
      ⟨i, instr, h.head, rfl, execute?_of_effect? hfirst⟩
    refine .head hstep ?_
    rw [List.length_cons, Nat.add_comm instrs.length, ← Nat.add_assoc]
    exact ih h.tail

theorem address_of_weightless {piece : List Line} (h : Placed lines i piece)
    (hw : ∀ line ∈ piece, line.weightless = true) : img.address (i + piece.length) = img.address i := by
  induction piece generalizing i with
  | nil => rfl
  | cons line piece ih =>
    obtain ⟨hline, hpiece⟩ := List.forall_mem_cons.1 hw
    rw [List.length_cons, Nat.add_comm piece.length, ← Nat.add_assoc, ih h.tail hpiece,
      img.weightless i line h.head hline]

variable (img c) in
theorem step_jmp {target : Target} (h : lines[i]? = some (.instr (.jmp target)))
    (ht : jumpTarget? lines i target = some j) : img.Step ⟨img.address i, c⟩ ⟨img.address j, c⟩ :=
  ⟨i, _, h, rfl, by rw [execute?, ht]; rfl⟩

theorem step_jne_taken {target : Target} {flags : Flags}
    (h : lines[i]? = some (.instr (.jne target))) (hflags : c.flags = some flags)
    (hzero : flags.zero = false) (ht : jumpTarget? lines i target = some j) :
    img.Step ⟨img.address i, c⟩ ⟨img.address j, c⟩ := by
  refine ⟨i, _, h, rfl, ?_⟩
  rw [execute?, hflags, Option.bind_some, ht, hzero]
  rfl

theorem step_jne_passed {target : Target} {flags : Flags}
    (h : lines[i]? = some (.instr (.jne target))) (hflags : c.flags = some flags)
    (hzero : flags.zero = true) : img.Step ⟨img.address i, c⟩ ⟨img.address (i + 1), c⟩ := by
  refine ⟨i, _, h, rfl, ?_⟩
  rw [execute?, hflags, Option.bind_some, if_pos hzero]

variable (img c) in
theorem step_call {callee : Operand} (h : lines[i]? = some (.instr (.call callee))) :
    img.Step ⟨img.address i, c⟩ ⟨img.value c callee, c.push (img.address (i + 1))⟩ :=
  ⟨i, _, h, rfl, rfl⟩

variable (img c) in
theorem step_ret (h : lines[i]? = some (.instr .ret)) :
    img.Step ⟨img.address i, c⟩ ⟨c.top, c.drop⟩ := ⟨i, _, h, rfl, rfl⟩

theorem Effects.reaches_ret {instrs : List Instr} (hc : img.Effects instrs c c')
    (h : Placed lines i (code (instrs ++ [.ret]))) :
    img.Reaches ⟨img.address i, c⟩ ⟨c'.top, c'.drop⟩ := by
  rw [code, List.map_append] at h
  have hret := img.step_ret c' h.right.head
  rw [List.length_map] at hret
  exact (hc.reaches h.left).tail hret

end Image

/-! ## Jumps -/

section

variable {lines before after : List Line} {name : String} {target : Target} {start : Nat}

theorem findTarget?_append (hlabels : definedSymbols before = [])
    (htarget : .target target ∉ before) :
    findTarget? target (before ++ .target target :: after) = some before.length := by
  induction before with
  | nil => simp [findTarget?]
  | cons line before ih =>
    obtain ⟨hne, htarget⟩ := not_or.1 (mt List.mem_cons.2 htarget)
    have hrest : definedSymbols before = [] := by
      cases line <;> first | exact hlabels | cases hlabels
    have hnext := ih hrest htarget
    cases line with
    | label => cases hlabels
    | target t =>
      have ht : t ≠ target := fun heq => hne (heq ▸ rfl)
      simp [findTarget?, ht, hnext]
    | _ => simp [findTarget?, hnext]

theorem scopeStart_of_placed {body : List Line} (h : Placed lines start (.label name :: body))
    (hbody : definedSymbols body = []) {j : Nat} (hj : j ≤ body.length) :
    scopeStart lines (start + 1 + j) = start + 1 := by
  induction j with
  | zero => rw [Nat.add_zero, scopeStart, h.head]
  | succ j ih =>
    have hget := h.tail.get (List.getElem?_eq_getElem (Nat.lt_of_succ_le hj))
    have hnot : ∀ symbol, body[j] ≠ .label symbol := by
      intro symbol heq
      have hmem : symbol ∈ definedSymbols body :=
        List.mem_filterMap.2 ⟨body[j], List.getElem_mem _, by rw [heq]; rfl⟩
      rw [hbody] at hmem
      cases hmem
    rw [← Nat.add_assoc, scopeStart, hget]
    split
    · next symbol heq => exact absurd (Option.some.inj heq) (hnot symbol)
    · exact ih (Nat.le_of_succ_le hj)

/-- Where a jump within a function leads to. -/
theorem jumpTarget?_of_placed
    (h : Placed lines start (.label name :: (before ++ .target target :: after)))
    (hbody : definedSymbols (before ++ .target target :: after) = [])
    (htarget : .target target ∉ before) {j : Nat}
    (hj : j ≤ (before ++ .target target :: after).length) :
    jumpTarget? lines (start + 1 + j) target = some (start + 1 + before.length) := by
  obtain ⟨more, hmore⟩ := h.tail
  rw [definedSymbols_append] at hbody
  rw [jumpTarget?, scopeStart_of_placed h (by rw [definedSymbols_append, hbody]) hj, ← hmore,
    List.append_assoc, List.cons_append, findTarget?_append (List.append_eq_nil_iff.1 hbody).1 htarget]
  simp [Nat.add_comm]

/-- The address of a symbol that is defined once. -/
theorem Image.symbol_of_placed (img : Image lines) (hsymbols : (definedSymbols lines).Nodup)
    (h : Placed lines start (.label name :: after)) : img.symbol name = img.address start := by
  obtain ⟨more, hmore⟩ := h
  have hlines : lines = lines.take start ++ .label name :: (after ++ more) := by
    rw [← List.cons_append, hmore, List.take_append_drop]
  have hnot : .label name ∉ lines.take start := by
    intro hmem
    have hname : name ∈ definedSymbols (lines.take start) := List.mem_filterMap.2 ⟨_, hmem, rfl⟩
    rw [hlines, definedSymbols_append, definedSymbols_label] at hsymbols
    exact (List.nodup_append.1 hsymbols).2.2 name hname name List.mem_cons_self rfl
  have hstart : (lines.take start).length = start := by
    have hlt : start < lines.length := by
      by_contra hle
      rw [List.drop_eq_nil_of_le (Nat.le_of_not_lt hle)] at hmore
      cases hmore
    exact List.length_take_of_le hlt.le
  have hfind : lines.findIdx? (· = .label name) = some start := by
    have hnone : (lines.take start).findIdx? (· = .label name) = none :=
      List.findIdx?_eq_none_iff.2 fun line hline =>
        decide_eq_false fun heq => hnot (heq ▸ hline)
    rw [hlines, List.findIdx?_append, hnone, hstart, List.findIdx?_cons]
    simp
  rw [symbol, hfind]

end

end WordLang.Assembly
