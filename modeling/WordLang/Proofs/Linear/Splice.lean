import Mathlib.Data.Finset.Image
import WordLang.Proofs.Linear.Copying

/-!
# Renaming and replacing lines

Lines stay orderly if their registers get other names, as long as no two of them get one name, and
if some of them are replaced by lines that need the same live registers.

## Main definitions

* `Linear.mentioned`: the registers and slots that lines mention

## Main results

* `Linear.Orderly.mapRegisters`: renamed lines are orderly
* `Linear.Orderly.replace`: lines with a replaced end are orderly
* `Linear.seek_append`, `Linear.seek_map_mapRegisters`: where labels lead to
-/

namespace WordLang.Linear

variable {r : RegisterId} {lines : List Line} {i : Instruction}

def mentioned (lines : List Line) : List RegisterId :=
  lines.flatMap fun line => line.instruction.registers

@[simp] theorem mentioned_cons (line : Line) (rest : List Line) :
    mentioned (line :: rest) = line.instruction.registers ++ mentioned rest := rfl

@[simp] theorem mentioned_append (lines rest : List Line) :
    mentioned (lines ++ rest) = mentioned lines ++ mentioned rest := List.flatMap_append

theorem mentioned_subset_of_suffix {lines rest : List Line} (h : rest <:+ lines)
    (hr : r ∈ mentioned rest) : r ∈ mentioned lines := by
  obtain ⟨passed, rfl⟩ := h
  rw [mentioned_append]
  exact List.mem_append_right _ hr

theorem Orderly.mem_mentioned {slots : Nat} (h : Orderly slots lines)
    (hr : r ∈ mentioned lines) : r < slots ∨ r ∈ live lines ∨ r ∈ born lines := by
  obtain ⟨line, hl, hr⟩ := List.mem_flatMap.1 hr
  exact h.mem_registers hl hr

theorem mem_mentioned_of_mem_live (h : r ∈ live lines) : r ∈ mentioned lines := by
  induction lines with
  | nil => simp at h
  | cons line rest ih =>
    rw [live_cons, Instruction.mem_liveBefore] at h
    rw [mentioned_cons, List.mem_append]
    rcases h with h | ⟨h, -⟩
    · left
      rw [h]
      exact List.mem_singleton_self r
    · exact .inr (ih h)

theorem Instruction.mem_registers_of_born? (h : i.born? = some r) : r ∈ i.registers := by
  cases i <;> cases h <;> simp [Instruction.registers]

theorem mem_live_append_iff {lines rest : List Line} (hr : r ∉ mentioned lines) :
    r ∈ live (lines ++ rest) ↔ r ∈ live rest := by
  induction lines with
  | nil => rfl
  | cons line lines ih =>
    rw [mentioned_cons, List.mem_append, not_or] at hr
    rw [List.cons_append, live_cons, Instruction.mem_liveBefore, ih hr.2]
    constructor
    · rintro (hk | ⟨h, -⟩)
      · rw [hk] at hr
        exact (hr.1 (List.mem_singleton_self r)).elim
      · exact h
    · intro h
      exact .inr ⟨h, fun hb => hr.1 (Instruction.mem_registers_of_born? hb)⟩

section Places

variable {b : Body} {slots : Nat} {before after : List Line} {r : RegisterId}

theorem Body.Orderly.mem_born_of_mem_live (h : b.Orderly slots) (hlines : b.lines = before ++ after)
    (hr : r ∈ live after) : r ∈ born before := by
  have hstart := h.start
  rw [hlines] at hstart
  rcases mem_live_append before hr with hlive | hborn
  · rw [hstart] at hlive
    simp at hlive
  · exact hborn

theorem Body.Orderly.not_mem_born (h : b.Orderly slots) (hlines : b.lines = before ++ after)
    (hr : r ∈ born before) : r ∉ born after := by
  have hnodup := h.distinct
  rw [hlines, born_append] at hnodup
  intro hr'
  exact List.disjoint_of_nodup_append hnodup hr hr'

theorem Body.Orderly.not_mem_mentioned (h : b.Orderly slots) (hlines : b.lines = before ++ after)
    (hr : r ∈ born after) : r ∉ mentioned before := by
  intro hm
  have horder := h.lines
  rw [hlines] at horder
  have hslot : slots ≤ r := (Orderly.of_append horder).le_of_mem_born hr
  have hborn : r ∉ born before := fun hr' => h.not_mem_born hlines hr' hr
  obtain ⟨line, hl, hline⟩ := List.mem_flatMap.1 hm
  obtain ⟨passed, rest, rfl⟩ := List.append_of_mem hl
  rw [List.append_assoc] at hlines horder
  rcases (Orderly.of_append horder).2.1.mem_registers hline with hlt | hlive | hb
  · exact Nat.not_le_of_lt hlt hslot
  · have := h.mem_born_of_mem_live hlines hlive
    exact hborn (by rw [born_append]; exact List.mem_append_left _ this)
  · refine hborn ?_
    rw [born_append, born_cons, hb]
    simp

end Places

/-! ## Renaming -/

section Renaming

variable {ρ : RegisterId → RegisterId}

theorem Instruction.mapRegisters_eq_self (h : ∀ r ∈ i.registers, ρ r = r) :
    i.mapRegisters ρ = i := by
  cases i <;> simp only [Instruction.registers, List.mem_cons, List.not_mem_nil, or_false,
    forall_eq_or_imp, forall_eq] at h <;> simp only [Instruction.mapRegisters, h]

/-- Renaming changes nothing if the names that are there stay. -/
theorem map_mapRegisters_eq_self (h : ∀ r ∈ mentioned lines, ρ r = r) :
    lines.map (Line.mapRegisters ρ) = lines := by
  induction lines with
  | nil => rfl
  | cons line rest ih =>
    have hline : line.instruction.mapRegisters ρ = line.instruction :=
      Instruction.mapRegisters_eq_self fun r hr => h r (by simp [hr])
    have hrest := ih fun r hr => h r (by simp [hr])
    rw [List.map_cons, hrest, Line.mapRegisters, hline]

theorem map_mapRegisters_id (lines : List Line) : lines.map (Line.mapRegisters id) = lines :=
  map_mapRegisters_eq_self fun _ _ => rfl

@[simp] theorem Instruction.born?_mapRegisters (i : Instruction) :
    (i.mapRegisters ρ).born? = i.born?.map ρ := by
  cases i <;> rfl

@[simp] theorem Instruction.slot?_mapRegisters (i : Instruction) :
    (i.mapRegisters ρ).slot? = i.slot?.map ρ := by
  cases i <;> rfl

theorem born_map_mapRegisters (lines : List Line) :
    born (lines.map (Line.mapRegisters ρ)) = (born lines).map ρ := by
  simp [born, List.filterMap_map, List.map_filterMap, Function.comp_def, Line.mapRegisters]

theorem Instruction.liveBefore_mapRegisters {after : Finset RegisterId}
    (hinj : Set.InjOn ρ {r | r ∈ after ∨ r ∈ i.registers}) :
    (i.mapRegisters ρ).liveBefore (after.image ρ) = (i.liveBefore after).image ρ := by
  have herase : ∀ r, r ∈ i.registers → (after.image ρ).erase (ρ r) = (after.erase r).image ρ := by
    intro r hr
    ext x
    simp only [Finset.mem_erase, Finset.mem_image]
    constructor
    · rintro ⟨hne, y, hy, rfl⟩
      exact ⟨y, ⟨fun heq => hne (congrArg ρ heq), hy⟩, rfl⟩
    · rintro ⟨y, ⟨hne, hy⟩, rfl⟩
      exact ⟨fun heq => hne (hinj (.inl hy) (.inr hr) heq), y, hy, rfl⟩
  cases i <;>
    simp only [Instruction.mapRegisters, Instruction.liveBefore, Finset.image_insert] <;>
    exact herase _ (by simp [Instruction.registers])

theorem live_map_mapRegisters (hinj : Set.InjOn ρ {r | r ∈ mentioned lines}) :
    live (lines.map (Line.mapRegisters ρ)) = (live lines).image ρ := by
  induction lines with
  | nil => rfl
  | cons line rest ih =>
    have hmono : Set.InjOn ρ {r | r ∈ mentioned rest} :=
      hinj.mono fun r hr => List.mem_append_right _ hr
    rw [List.map_cons, live_cons, live_cons, ih hmono]
    refine Instruction.liveBefore_mapRegisters (hinj.mono ?_)
    rintro r (hr | hr)
    · exact List.mem_append_right _ (mem_mentioned_of_mem_live hr)
    · exact List.mem_append_left _ hr

theorem OnlyKilled.mapRegisters (h : OnlyKilled r lines)
    (hinj : ∀ x ∈ mentioned lines, ρ x = ρ r → x = r) :
    OnlyKilled (ρ r) (lines.map (Line.mapRegisters ρ)) := by
  induction lines with
  | nil => exact h
  | cons line rest ih =>
    rcases h with hk | ⟨hr, h⟩
    · left
      rw [Line.mapRegisters, hk]
      rfl
    · refine .inr ⟨?_, ih h fun x hx => hinj x (by simp [hx])⟩
      rw [Line.mapRegisters, Instruction.registers_mapRegisters, List.mem_map]
      rintro ⟨x, hx, heq⟩
      exact hr (hinj x (by simp [hx]) heq ▸ hx)

theorem detached_map_mapRegisters :
    Detached (lines.map (Line.mapRegisters ρ)) ↔ Detached lines := by
  cases lines <;> rfl

/-- Renamed lines are orderly if no two registers get one name and slots keep theirs. -/
theorem Orderly.mapRegisters {slots : Nat} (h : Orderly slots lines)
    (hinj : Set.InjOn ρ {r | r ∈ mentioned lines}) (hslot : ∀ r < slots, ρ r = r)
    (hlarge : ∀ r, slots ≤ r → slots ≤ ρ r) : Orderly slots (lines.map (Line.mapRegisters ρ)) := by
  induction lines with
  | nil => trivial
  | cons line rest ih =>
    obtain ⟨hlabels, hi, hrest⟩ := h
    have hmono : Set.InjOn ρ {r | r ∈ mentioned rest} :=
      hinj.mono fun r hr => List.mem_append_right _ hr
    have hlive : live (rest.map (Line.mapRegisters ρ)) = (live rest).image ρ :=
      live_map_mapRegisters hmono
    have hmem : ∀ {r}, r ∈ live rest → ρ r ∈ live (rest.map (Line.mapRegisters ρ)) := by
      intro r hr
      rw [hlive]
      exact Finset.mem_image_of_mem ρ hr
    refine ⟨fun hl => ?_, ?_, ih hrest hmono⟩
    · rw [← List.map_cons, live_map_mapRegisters hinj, hlabels hl, Finset.image_empty]
    · -- Every clause of order says that registers are live, or that no others are.
      show (line.instruction.mapRegisters ρ).Orderly slots _
      cases hline : line.instruction <;> rw [hline] at hi <;>
        simp only [Instruction.mapRegisters, Instruction.Orderly] at hi ⊢
      case allocParam | allocLocal | storeImmediate => rwa [hslot _ hi]
      case moveInt | moveString | moveFunction | pop =>
        exact ⟨hlarge _ hi.1, hmem hi.2⟩
      case load => exact ⟨hlarge _ hi.1, hmem hi.2.1, by rw [hslot _ hi.2.2]; exact hi.2.2⟩
      case storeRegister => exact ⟨by rw [hslot _ hi.1]; exact hi.1, hmem hi.2⟩
      case push r =>
        refine ⟨hmem hi.1, hi.2.mapRegisters fun x hx heq => ?_⟩
        exact hmono hx (mem_mentioned_of_mem_live hi.1) heq
      case callRegister r =>
        refine ⟨by rw [hlive, hi.1, Finset.image_singleton], hi.2.mapRegisters fun x hx heq => ?_⟩
        exact hmono hx (mem_mentioned_of_mem_live (by simp [hi.1])) heq
      case callImmediate => rw [hlive, hi, Finset.image_empty]
      case jump | «return» =>
        exact ⟨by rw [hlive, hi.1, Finset.image_empty], detached_map_mapRegisters.2 hi.2⟩
      case jumpIfNonZero =>
        obtain ⟨hr, target, rest', rfl⟩ := hi
        exact ⟨by rw [hlive, hr, Finset.image_singleton], target, _, rfl⟩
      case binary => exact ⟨hmem hi.1, hmem hi.2⟩
      case kill r =>
        refine ⟨hlarge _ hi.1, ?_⟩
        rw [hlive, Finset.mem_image]
        rintro ⟨x, hx, heq⟩
        have hxr : x = r :=
          hinj (by simp [mem_mentioned_of_mem_live hx]) (by simp [hline, Instruction.registers]) heq
        exact hi.2 (hxr ▸ hx)

end Renaming

/-! ## Replacing -/

section Replacing

variable {slots : Nat} {before old new : List Line}

theorem OnlyKilled.replace (h : OnlyKilled r (before ++ old))
    (hk : OnlyKilled r old → OnlyKilled r new) : OnlyKilled r (before ++ new) := by
  induction before with
  | nil => exact hk h
  | cons line rest ih =>
    rcases h with hkill | ⟨hne, h⟩
    · exact .inl hkill
    · exact .inr ⟨hne, ih h⟩

/-- Lines stay orderly if their end is replaced by orderly lines that need the same registers. -/
theorem Orderly.replace (h : Orderly slots (before ++ old)) (hnew : Orderly slots new)
    (hlive : live new = live old) (hdetached : Detached old → Detached new)
    (hkilled : ∀ r, OnlyKilled r old → OnlyKilled r new)
    (hkill : ∀ labels r rest, old ≠ ⟨labels, .kill r⟩ :: rest)
    (hjump : ∀ labels target rest, old ≠ ⟨labels, .jump target⟩ :: rest) :
    Orderly slots (before ++ new) ∧ live (before ++ new) = live (before ++ old) := by
  induction before with
  | nil => exact ⟨hnew, hlive⟩
  | cons line rest ih =>
    rw [List.cons_append] at h ⊢
    obtain ⟨hlabels, hi, hrest⟩ := h
    obtain ⟨horder, heq⟩ := ih hrest
    have hlive' : live (line :: (rest ++ new)) = live (line :: (rest ++ old)) := by
      rw [live_cons, live_cons, heq]
    have hdetached' : Detached (rest ++ old) → Detached (rest ++ new) := by
      cases rest with
      | nil => exact hdetached
      | cons next rest => exact id
    refine ⟨⟨fun hl => hlive'.trans (hlabels hl), ?_, horder⟩, hlive'⟩
    cases hline : line.instruction <;> rw [hline] at hi <;>
      simp only [Instruction.Orderly, heq] at hi ⊢
    case push r => exact ⟨hi.1, hi.2.replace (hkilled r)⟩
    case callRegister r _ => exact ⟨hi.1, hi.2.replace (hkilled r)⟩
    case jump | «return» => exact ⟨hi.1, hdetached' hi.2⟩
    case jumpIfNonZero r target =>
      -- The end of the register and the jump after it are not part of what is replaced.
      obtain ⟨hr, target', rest', hshape⟩ := hi
      refine ⟨hr, target', ?_⟩
      rcases rest with _ | ⟨first, _ | ⟨second, rest⟩⟩
      · exact (hkill _ _ _ hshape).elim
      · exact (hjump _ _ _ (List.cons.inj hshape).2).elim
      · cases hshape
        exact ⟨rest ++ new, rfl⟩
    all_goals exact hi

end Replacing

/-! ## Labels -/

theorem seek_append (label : LabelId) (lines rest : List Line) :
    seek label (lines ++ rest) = (seek label rest).or ((seek label lines).map (· ++ rest)) := by
  induction lines with
  | nil => simp [seek]
  | cons line lines ih =>
    simp only [List.cons_append, seek, ih]
    cases seek label rest with
    | some found => rfl
    | none =>
      cases seek label lines with
      | some found => rfl
      | none =>
        simp only [Option.map_none, Option.or_none]
        split <;> rfl

theorem seek_map_mapRegisters (ρ : RegisterId → RegisterId) (label : LabelId) (lines : List Line) :
    seek label (lines.map (Line.mapRegisters ρ)) =
      (seek label lines).map (List.map (Line.mapRegisters ρ)) := by
  induction lines with
  | nil => rfl
  | cons line rest ih =>
    simp only [List.map_cons, seek, ih]
    cases seek label rest with
    | some found => rfl
    | none =>
      by_cases hl : label ∈ line.labels <;> simp [Line.mapRegisters, hl]

theorem seek_eq_none {label : LabelId} (h : ∀ line ∈ lines, line.labels = []) :
    seek label lines = none := by
  cases hs : seek label lines with
  | none => rfl
  | some found =>
    obtain ⟨hsuffix, line, rest, rfl, hl⟩ := seek_eq_some hs
    rw [h line (hsuffix.subset List.mem_cons_self)] at hl
    cases hl

end WordLang.Linear
