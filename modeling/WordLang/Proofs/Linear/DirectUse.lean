import WordLang.Proofs.Linear.Replacement

/-!
# Direct uses of constants

A register that gets a constant, is used by the next line and killed by the one after that can be
left out: a line that uses the constant directly does the same.

## Main definitions

* `Linear.DirectUse`: a line that gives a register a constant, a line that uses it, and the line
  that uses the constant directly

## Main results

* `Linear.DirectUse.alike`, `Linear.DirectUse.orderly`: replacing the lines keeps what a body does,
  and its order
-/

namespace WordLang.Linear

theorem functionId_of_word {id : FunctionId} (h : id < idCount) :
    ¬Int64.ofNat id < 0 ∧ idOfNat (Int64.ofNat id).toInt.toNat = id := by
  have hint : (Int64.ofNat id).toInt = id :=
    Int64.toInt_ofNat_of_lt (Nat.lt_trans h (by decide))
  refine ⟨?_, ?_⟩
  · rw [Int64.lt_iff_toInt_lt, hint]
    exact Int.not_lt.2 (Int.natCast_nonneg id)
  · rw [hint, Int.toNat_natCast, idOfNat, Nat.mod_eq_of_lt h]

/-- An activation without the value of a register. -/
def Frame.without (f : Frame) (r : RegisterId) : Frame :=
  { f with registers := f.registers.erase r }

/-- A line that gives the register `r` the constant `v`, a line that uses the register, and a line
that uses the constant directly. Functions are those below `functions`. -/
inductive DirectUse (functions : Nat) (r : RegisterId) :
    Instruction → Instruction → Instruction → Int64 → Prop where
  | call {id : FunctionId} (arguments : Nat) (h : id < functions) :
    DirectUse functions r (.moveFunction r id) (.callRegister r arguments)
      (.callImmediate id arguments) (Int64.ofNat id)
  | store (slot : RegisterId) (v : Int64) :
    DirectUse functions r (.moveInt r v) (.storeRegister slot r) (.storeImmediate slot v) v

namespace DirectUse

variable {functions : Nat} {r : RegisterId} {move use direct : Instruction} {v : Int64}
  (h : DirectUse functions r move use direct v)
include h

theorem move_act (f : Frame) (stack : List Int64) : move.act f stack = .go (f.write r v) stack := by
  cases h <;> rfl

/-- The line that uses the register and the one that uses the constant do the same. -/
theorem use_act (hfunctions : functions ≤ idCount) {f g : Frame}
    (hv : f.registers.find? r = some v) (hc : Copies id (f.without r) g) (stack : List Int64) :
    (∃ f' g', use.act f stack = .go f' stack ∧ direct.act g stack = .go g' stack ∧
        f'.body = f.body ∧ f'.rest = f.rest ∧ g'.body = g.body ∧ g'.rest = g.rest ∧
        Copies id (f'.without r) g') ∨
      ∃ id arguments, use.act f stack = .call f id arguments ∧
        direct.act g stack = .call g id arguments := by
  cases h with
  | @call id arguments hid =>
    obtain ⟨hneg, hback⟩ := functionId_of_word (Nat.lt_of_lt_of_le hid hfunctions)
    refine .inr ⟨id, arguments, ?_, rfl⟩
    simp only [Instruction.act, Frame.reading, hv, if_neg hneg, hback]
  | store slot =>
    obtain ⟨hlabel, harguments, hslots, hbase, hvalue, hsource⟩ := hc
    refine .inl ⟨f.store slot v, g.store slot v, ?_, rfl, rfl, rfl, rfl, rfl, hlabel, harguments, ?_,
      hbase, hvalue, hsource⟩
    · simp only [Instruction.act, Frame.reading, hv]
    · have hslots : g.slots = f.slots := hslots
      simp only [Frame.store, Frame.without, hslots]

theorem slot?_eq_none : move.slot? = none ∧ use.slot? = none ∧ direct.slot? = none := by
  cases h <;> exact ⟨rfl, rfl, rfl⟩

variable {b : Body} {slots : Nat} {labels : List LabelId} {before after : List Line}

theorem live_eq (ho : Orderly slots (⟨labels, move⟩ :: ⟨[], use⟩ :: ⟨[], .kill r⟩ :: after)) :
    live (⟨labels, move⟩ :: ⟨[], use⟩ :: ⟨[], .kill r⟩ :: after) = live after := by
  obtain ⟨-, -, -, -, -, ⟨-, hr⟩, -⟩ := ho
  have herase : (insert r (live after)).erase r = live after := Finset.erase_insert hr
  cases h <;> exact herase

theorem direct_orderly
    (ho : Orderly slots (⟨labels, move⟩ :: ⟨[], use⟩ :: ⟨[], .kill r⟩ :: after)) :
    Orderly slots (⟨labels, direct⟩ :: after) ∧ live (⟨labels, direct⟩ :: after) = live after := by
  have hlive : live (⟨labels, direct⟩ :: after) = live after := by cases h <;> rfl
  have heq := h.live_eq ho
  obtain ⟨hlabels, -, -, huse, -, hkill, hafter⟩ := ho
  refine ⟨⟨fun hl => ?_, ?_, hafter⟩, hlive⟩
  · rw [hlive, ← heq]
    exact hlabels hl
  · cases h with
    | call arguments hid =>
      have hcallee : insert r (live after) = {r} := huse.1
      refine Finset.eq_empty_of_forall_notMem fun x hx => ?_
      have hxr : x ∈ insert r (live after) := Finset.mem_insert_of_mem hx
      rw [hcallee, Finset.mem_singleton] at hxr
      exact hkill.2 (hxr ▸ hx)
    | store slot => exact huse.1

theorem onlyKilled_direct {x : RegisterId}
    (hx : OnlyKilled x (⟨labels, move⟩ :: ⟨[], use⟩ :: ⟨[], .kill r⟩ :: after)) :
    OnlyKilled x (⟨labels, direct⟩ :: after) := by
  cases h <;>
    simp only [OnlyKilled, Instruction.registers, List.mem_cons, List.not_mem_nil, or_false,
      reduceCtorEq, false_or, not_or, Instruction.kill.injEq] at hx ⊢
  · obtain ⟨hr, -, hkill | ⟨-, hx⟩⟩ := hx
    · exact (hr hkill.symm).elim
    · exact ⟨not_false, hx⟩
  · obtain ⟨hr, ⟨-, hslot⟩, hkill | ⟨-, hx⟩⟩ := hx
    · exact (hr hkill.symm).elim
    · exact ⟨hslot, hx⟩

variable (ho : b.Orderly slots)
  (hlines : b.lines = before ++ ⟨labels, move⟩ :: ⟨[], use⟩ :: ⟨[], .kill r⟩ :: after)
include ho hlines

theorem replacement :
    Replacement id slots before [⟨labels, move⟩, ⟨[], use⟩, ⟨[], .kill r⟩] [⟨labels, direct⟩] after b
      { b with lines := before ++ ⟨labels, direct⟩ :: after } := by
  obtain ⟨hmove, huse, hdirect⟩ := h.slot?_eq_none
  refine ⟨ho, hlines, ?_, rfl, fun _ => rfl, fun _ _ => rfl, fun _ _ => rfl,
    Set.injOn_id _, ⟨⟨labels, move⟩, _, rfl, ?_⟩, ?_, ?_, ?_⟩
  · rw [map_mapRegisters_id]
    rfl
  · intro r'
    cases h <;> exact Instruction.noConfusion
  · intro label
    by_cases hl : label ∈ labels
    · exact .inr ⟨by simp [seek, hl], by simp [seek, hl]⟩
    · exact .inl ⟨by simp [seek, hl], by simp [seek, hl]⟩
  · intro line hline
    simp only [List.mem_cons, List.not_mem_nil, or_false] at hline
    rcases hline with rfl | rfl | rfl
    · exact hmove
    · exact huse
    · rfl
  · intro line hline
    cases List.mem_singleton.1 hline
    exact hdirect

/-- Using the constant directly keeps a body orderly. -/
theorem orderly :
    ({ b with lines := before ++ ⟨labels, direct⟩ :: after } : Body).Orderly slots := by
  have hwindow : Orderly slots (⟨labels, move⟩ :: ⟨[], use⟩ :: ⟨[], .kill r⟩ :: after) := by
    have hall := ho.lines
    rw [hlines] at hall
    exact hall.of_append
  obtain ⟨hdirect, hlive⟩ := h.direct_orderly hwindow
  refine (h.replacement ho hlines).orderly' ?_ ?_ ?_ ?_ ?_ ?_ fun _ _ => rfl
  · rw [map_mapRegisters_id]
    exact hdirect
  · rw [map_mapRegisters_id]
    exact hlive.trans (h.live_eq hwindow).symm
  · exact id
  · intro x hx
    rw [map_mapRegisters_id]
    exact h.onlyKilled_direct hx
  · rintro labels' target rest heq
    cases heq
    cases h
  · have hborn : born [⟨labels, direct⟩] = [] := by cases h <;> rfl
    rw [hborn]
    exact List.nil_sublist _

/-- Using the constant directly does not change what a body does. -/
theorem alike (hfunctions : functions ≤ idCount) :
    b.Alike { b with lines := before ++ ⟨labels, direct⟩ :: after } := by
  have hrep := h.replacement ho hlines
  have hfresh : r ∉ live (⟨labels, move⟩ :: ⟨[], use⟩ :: ⟨[], .kill r⟩ :: after) := by
    rw [live_cons, Instruction.mem_liveBefore]
    rintro (hk | ⟨-, hb⟩)
    · cases h <;> cases hk
    · cases h <;> exact hb rfl
  generalize hb' : ({ b with lines := before ++ ⟨labels, direct⟩ :: after } : Body) = b' at hrep ⊢
  -- Between the lines the second activation has all values but that of the register.
  refine hrep.alike (fun f g kept => kept = [] ∧ f.body = b ∧ g.body = b' ∧
    Copies id (f.without r) g ∧
    (f.rest = ⟨[], use⟩ :: ⟨[], .kill r⟩ :: after ∧ g.rest = ⟨labels, direct⟩ :: after ∧
        f.registers.find? r = some v ∨
      f.rest = ⟨[], .kill r⟩ :: after ∧ g.rest = after)) ?_ ?_
  · intro f g hf hbody hbody' hrest hrest' hc stack
    rw [map_mapRegisters_id] at hrest'
    have hact : act f ([] ++ stack) =
        .go ({ f with rest := ⟨[], use⟩ :: ⟨[], .kill r⟩ :: after }.write r v) stack := by
      simp only [act, hrest, List.cons_append, List.nil_append, h.move_act]
    rw [hact]
    have hnone : f.registers.find? r = none := by
      refine hf.find?_eq_none ?_
      rw [hrest]
      exact hfresh
    refine .inl ⟨[], rfl, .inr ⟨rfl, hbody, hbody', ?_, .inl ⟨rfl, hrest', ?_⟩⟩, ?_⟩
    · obtain ⟨hlabel, harguments, hslots, hbase, hvalue, hsource⟩ := hc
      have hregisters : (f.registers.insert r v).erase r = f.registers := Table.erase_insert hnone v
      refine ⟨hlabel, harguments, hslots, hbase, ?_, ?_⟩
      · simp only [Frame.without, Frame.write, hregisters]
        exact hvalue
      · simp only [Frame.without, Frame.write, hregisters]
        exact hsource
    · exact Table.find?_insert_self _ _ _
    · rw [hrest]
      exact Nat.lt_succ_self _
  · rintro f g kept hf ⟨rfl, hbody, hbody', hc, ⟨hrest, hrest', hv⟩ | ⟨hrest, hrest'⟩⟩ stack
    · have hc' : Copies id ({ f with rest := ⟨[], .kill r⟩ :: after }.without r)
          { g with rest := after } := by
        obtain ⟨hlabel, harguments, hslots, hbase, hvalue, hsource⟩ := hc
        exact ⟨hlabel, harguments, hslots, hbase, hvalue, hsource⟩
      have hact : act f ([] ++ stack) =
          use.act { f with rest := ⟨[], .kill r⟩ :: after } stack := by
        simp only [act, hrest, List.nil_append]
      have hact' : act g stack = direct.act { g with rest := after } stack := by
        simp only [act, hrest']
      rw [hact, hact']
      rcases h.use_act hfunctions (f := { f with rest := ⟨[], .kill r⟩ :: after }) hv hc' stack with
        ⟨f', g', hf', hg', hb, hr, hbg, hrg, hcopies⟩ | ⟨id, arguments, hf', hg'⟩
      · rw [hf', hg']
        refine .inr ⟨g', [], stack, rfl, rfl, .inr ⟨rfl, hb.trans hbody, hbg.trans hbody', hcopies, ?_⟩⟩
        exact .inr ⟨hr, hrg⟩
      · rw [hf', hg']
        exact ⟨rfl, _, rfl, .inr ⟨rfl, hbody, hbody', hc', .inr ⟨rfl, rfl⟩⟩⟩
    · obtain ⟨value, hvalue⟩ := hf.exists_value (r := r) (by
        rw [hrest]
        exact Finset.mem_insert_self _ _)
      have hact : act f ([] ++ stack) = .go ({ f with rest := after }.without r) stack := by
        simp only [act, hrest, Instruction.act, hvalue, List.nil_append]
        rfl
      rw [hact]
      refine .inl ⟨[], rfl, .inl ⟨rfl, hbody, hbody', ?_, ?_⟩, ?_⟩
      · rw [hrest']
        have hplace : Places id before [⟨labels, move⟩, ⟨[], use⟩, ⟨[], .kill r⟩]
            [⟨labels, direct⟩] after after (after.map (Line.mapRegisters id)) :=
          .after (List.suffix_refl _)
        rwa [map_mapRegisters_id] at hplace
      · obtain ⟨hlabel, harguments, hslots, hbase, hvalue, hsource⟩ := hc
        exact ⟨hlabel, harguments, hslots, hbase, hvalue, hsource⟩
      · rw [hrest]
        exact Nat.lt_succ_self _

end DirectUse

end WordLang.Linear
