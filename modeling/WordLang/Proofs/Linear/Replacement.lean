import WordLang.Proofs.Linear.Splice

/-!
# Replacing lines of a body

Some lines of a body are replaced, and the registers in the lines after them get other names. At
places outside the replaced lines both bodies do the same; so bodies are alike as soon as the
replaced lines and the new ones lead from one end to the other.

## Main definitions

* `Linear.Replacement`: a body in which lines were replaced
* `Linear.Places`: corresponding places outside the replaced lines

## Main results

* `Linear.Replacement.alike`: bodies are alike if the replaced lines are
-/

namespace WordLang.Linear

inductive Places (ρ : RegisterId → RegisterId) (before old new after : List Line) :
    List Line → List Line → Prop where
  | before {lines : List Line} (h : lines <:+ before) :
    Places ρ before old new after (lines ++ (old ++ after))
      (lines ++ (new ++ after.map (Line.mapRegisters ρ)))
  | after {lines : List Line} (h : lines <:+ after) :
    Places ρ before old new after lines (lines.map (Line.mapRegisters ρ))

/-- The body `b'` is the body `b` with the lines `old` replaced by `new` and with the registers of
the lines `after` renamed. -/
structure Replacement (ρ : RegisterId → RegisterId) (slots : Nat) (before old new after : List Line)
    (b b' : Body) : Prop where
  orderly : b.Orderly slots
  lines : b.lines = before ++ (old ++ after)
  lines' : b'.lines = before ++ (new ++ after.map (Line.mapRegisters ρ))
  result : b'.result = b.result
  fixes : ∀ {r}, r < slots → ρ r = r
  fixes_before : ∀ r ∈ mentioned before, ρ r = r
  /-- What is live when the replaced lines start keeps its name. -/
  fixes_live : ∀ r ∈ live (old ++ after), ρ r = r
  injective : Set.InjOn ρ {r | r ∈ mentioned after}
  /-- There is something to replace, and it does not start with the end of a register. -/
  start : ∃ line rest, old = line :: rest ∧ ∀ r, line.instruction ≠ .kill r
  /-- A label leads to the start of the lines that are replaced, if it leads into them. -/
  labels : ∀ label, (seek label old = none ∧ seek label new = none) ∨
    (seek label old = some old ∧ seek label new = some new)
  /-- Neither the replaced lines nor the new ones declare slots. -/
  old_slot? : ∀ line ∈ old, line.instruction.slot? = none
  new_slot? : ∀ line ∈ new, line.instruction.slot? = none

theorem ActAlike.healthy {R : Frame → Frame → List Int64 → Prop} {f g : Frame} {slots : Nat}
    {kept : List Int64} (hf : f.Healthy slots) (h : ActAlike R f g kept) :
    ActAlike (fun f g kept => f.Healthy slots ∧ R f g kept) f g kept :=
  h.mono fun _ _ _ hleft hr => ⟨hleft _ hf.act, hr⟩

theorem actAlike_of_sameAction {ρ : RegisterId → RegisterId}
    {places : List Line → List Line → Prop} {b b' : Body} {f g : Frame}
    (h : ∀ stack, SameAction ρ places b b' (act f stack) (act g stack)) :
    ActAlike (fun f g kept => kept = [] ∧ AtCopies ρ places b b' f g) f g [] := by
  intro stack
  have h := h stack
  rw [List.nil_append]
  cases ha : act f stack <;> cases hg : act g stack <;> rw [ha, hg] at h
  case go.go f' after g' after' =>
    obtain ⟨rfl, hat⟩ := h
    exact .inr ⟨g', [], after', rfl, rfl, rfl, hat⟩
  case call.call f' id n g' id' n' =>
    obtain ⟨rfl, rfl, hat⟩ := h
    exact ⟨rfl, g', rfl, rfl, hat⟩
  case finish.finish =>
    cases h
    exact ⟨rfl, rfl⟩
  case fail.fail =>
    cases h
    rfl
  all_goals exact h.elim

namespace Replacement

variable {ρ : RegisterId → RegisterId} {slots : Nat} {before old new after : List Line}
  {b b' : Body}

section

variable (h : Replacement ρ slots before old new after b b')
include h

theorem fixes_live_before {lines : List Line} (hl : lines <:+ before) {r : RegisterId}
    (hr : r ∈ live (lines ++ (old ++ after))) : ρ r = r := by
  by_cases hm : r ∈ mentioned lines
  · exact h.fixes_before r (mentioned_subset_of_suffix hl hm)
  · exact h.fixes_live r ((mem_live_append_iff hm).1 hr)

theorem slot?_after {line : Line} (hl : line ∈ after) :
    (line.mapRegisters ρ).instruction.slot? = line.instruction.slot? := by
  have horder := h.orderly.lines
  rw [h.lines] at horder
  obtain ⟨passed, rest, rfl⟩ := List.append_of_mem hl
  have hi : line.instruction.Orderly slots rest :=
    (Orderly.of_append (Orderly.of_append (Orderly.of_append horder))).2.1
  simp only [Line.mapRegisters, Instruction.slot?_mapRegisters]
  cases hline : line.instruction <;> rw [hline] at hi <;>
    simp only [Instruction.slot?, Option.map_none, Option.map_some, Option.some.injEq]
  case allocParam | allocLocal => exact h.fixes hi

theorem twins : Twins ρ slots (Places ρ before old new after) b b' := by
  refine ⟨h.orderly, h.fixes, h.result, fun r => ?_, fun label => ?_⟩
  · have hnone : ∀ lines : List Line, (∀ line ∈ lines, line.instruction.slot? = none) →
        (lines.any fun line => line.instruction.slot? = some r) = false := by
      intro lines hlines
      rw [List.any_eq_false]
      intro line hl
      simp [hlines line hl]
    have hafter : ((after.map (Line.mapRegisters ρ)).any
          fun line => line.instruction.slot? = some r) =
        after.any fun line => line.instruction.slot? = some r := by
      rw [List.any_map, Bool.eq_iff_iff, List.any_eq_true, List.any_eq_true]
      refine exists_congr fun line => and_congr_right fun hl => ?_
      rw [Function.comp_apply, h.slot?_after hl]
    rw [h.lines, h.lines', List.any_append, List.any_append, List.any_append, List.any_append,
      hnone old h.old_slot?, hnone new h.new_slot?, hafter]
  · rw [h.lines, h.lines', seek_append, seek_append, seek_append, seek_append,
      seek_map_mapRegisters]
    cases ha : seek label after with
    | some lines =>
      right
      exact ⟨lines, lines.map (Line.mapRegisters ρ), rfl, rfl, .after (seek_eq_some ha).1⟩
    | none =>
      rcases h.labels label with ⟨ho, hn⟩ | ⟨ho, hn⟩
      · cases hb : seek label before with
        | some lines =>
          right
          refine ⟨lines ++ (old ++ after), lines ++ (new ++ after.map (Line.mapRegisters ρ)), ?_, ?_,
            .before (seek_eq_some hb).1⟩
          · simp [ho]
          · simp [hn]
        | none =>
          left
          simp [ho, hn]
      · right
        refine ⟨[] ++ (old ++ after), [] ++ (new ++ after.map (Line.mapRegisters ρ)), ?_, ?_,
          .before (List.nil_suffix)⟩
        · simp [ho]
        · simp [hn]

theorem rest_of_places {rest' : List Line} (hp : Places ρ before old new after (old ++ after) rest') :
    rest' = new ++ after.map (Line.mapRegisters ρ) := by
  obtain ⟨first, tail, hold, -⟩ := h.start
  generalize hrest : old ++ after = rest at hp
  cases hp with
  | @before lines hl =>
    rw [List.self_eq_append_left] at hrest
    rw [hrest, List.nil_append]
  | after hl =>
    have hlen := hl.length_le
    rw [← hrest, hold] at hlen
    simp only [List.cons_append, List.length_cons, List.length_append] at hlen
    omega

/-- Outside the replaced lines both bodies do the same. -/
theorem act_outside {f g : Frame} (hf : f.Healthy slots)
    (ha : AtCopies ρ (Places ρ before old new after) b b' f g) (hout : f.rest ≠ old ++ after)
    (stack : List Int64) :
    SameAction ρ (Places ρ before old new after) b b' (act f stack) (act g stack) := by
  obtain ⟨hbody, hbody', hplaces, hcopies⟩ := ha
  generalize hrest : f.rest = rest at hplaces hout
  generalize hrest' : g.rest = rest' at hplaces
  cases hplaces with
  | @before lines hl =>
    cases lines with
    | nil => exact (hout rfl).elim
    | cons line lines =>
      have hl' : lines <:+ before := (List.suffix_cons line lines).trans hl
      have hline : line.mapRegisters ρ = line := by
        have hfix : ∀ r ∈ line.instruction.registers, ρ r = r := fun r hr =>
          h.fixes_before r (mentioned_subset_of_suffix hl (List.mem_append_left _ hr))
        rw [Line.mapRegisters, Instruction.mapRegisters_eq_self hfix]
      have hinj : ∀ lines, lines <:+ before → Set.InjOn ρ (live (lines ++ (old ++ after))) := by
        intro lines hl x hx y hy heq
        rwa [h.fixes_live_before hl hx, h.fixes_live_before hl hy] at heq
      refine h.twins.act hf hbody hbody' hcopies hrest (hline.symm ▸ hrest') (.before hl')
        (hinj _ hl) (hinj _ hl') ?_ stack
      -- The end of the register that a branch tests is not the first of the old lines.
      intro r rest₁ hkill
      cases lines with
      | nil =>
        obtain ⟨first, rest₂, hold, hfirst⟩ := h.start
        rw [hold] at hkill
        cases hkill
        exact (hfirst r rfl).elim
      | cons next lines =>
        cases hkill
        have hr : ρ r = r :=
          h.fixes_before r (mentioned_subset_of_suffix hl' (by simp [Instruction.registers]))
        rw [hr]
        exact ⟨_, rfl⟩
  | @after lines hl =>
    cases hlines : rest with
    | nil =>
      subst hlines
      simp only [act, hrest, hrest', List.map_nil]
      exact congrArg RunError.ranOff hcopies.label
    | cons line lines =>
      subst hlines
      have hl' : lines <:+ after := (List.suffix_cons line lines).trans hl
      have hinj : ∀ lines, lines <:+ after → Set.InjOn ρ (live lines) := by
        intro lines hl
        exact h.injective.mono fun r hr =>
          mentioned_subset_of_suffix hl (mem_mentioned_of_mem_live hr)
      refine h.twins.act hf hbody hbody' hcopies hrest hrest' (.after hl') (hinj _ hl) (hinj _ hl')
        ?_ stack
      intro r rest₁ hkill
      rw [hkill]
      exact ⟨_, rfl⟩

/-- Bodies are alike if the replaced lines are, where `mid` relates activations within them. -/
theorem alike (mid : Frame → Frame → List Int64 → Prop)
    (henter : ∀ f g, f.Healthy slots → f.body = b → g.body = b' → f.rest = old ++ after →
      g.rest = new ++ after.map (Line.mapRegisters ρ) → Copies ρ f g →
      ActAlike (fun f g kept =>
        kept = [] ∧ AtCopies ρ (Places ρ before old new after) b b' f g ∨ mid f g kept) f g [])
    (hmid : ∀ f g kept, f.Healthy slots → mid f g kept →
      ActAlike (fun f g kept =>
        kept = [] ∧ AtCopies ρ (Places ρ before old new after) b b' f g ∨ mid f g kept) f g kept) :
    b.Alike b' := by
  intro label arguments base
  refine ⟨fun f g kept => f.Healthy slots ∧
    (kept = [] ∧ AtCopies ρ (Places ρ before old new after) b b' f g ∨ mid f g kept), ?_, ?_, ?_⟩
  · rintro f g kept ⟨hf, ⟨rfl, ha⟩ | hm⟩
    · refine ActAlike.healthy hf ?_
      by_cases hout : f.rest = old ++ after
      · obtain ⟨hbody, hbody', hplaces, hcopies⟩ := ha
        rw [hout] at hplaces
        exact henter f g hf hbody hbody' hout (h.rest_of_places hplaces) hcopies
      · refine (actAlike_of_sameAction (h.act_outside hf ha hout)).mono ?_
        rintro f g kept - hfg
        exact .inl hfg
    · exact ActAlike.healthy hf (hmid f g kept hf hm)
  · refine ⟨h.orderly, List.suffix_refl _, fun r => ?_⟩
    show ((Table.empty : Table Int64).find? r).isSome ↔ r ∈ live b.lines
    rw [h.orderly.start]
    simp
  · have hplaces : Places ρ before old new after b.lines b'.lines := by
      rw [h.lines, h.lines']
      exact .before (List.suffix_refl _)
    exact .inl ⟨rfl, rfl, rfl, hplaces, .of_empty rfl rfl rfl rfl rfl rfl⟩

theorem slotsFirst : SlotsFirst b'.lines := by
  have hslots := h.orderly.slotsFirst
  obtain ⟨first, tail, hold, -⟩ := h.start
  rw [SlotsFirst, h.lines, List.pairwise_append, List.pairwise_append] at hslots
  obtain ⟨hbefore, ⟨-, hafter, hcross⟩, hacross⟩ := hslots
  have hnone : ∀ line ∈ after.map (Line.mapRegisters ρ), line.instruction.slot? = none := by
    intro line' hl'
    obtain ⟨line, hl, rfl⟩ := List.mem_map.1 hl'
    have hfirst := hcross first (by simp [hold]) line hl
    rw [h.old_slot? first (by simp [hold])] at hfirst
    rw [h.slot?_after hl]
    exact Option.not_isSome_iff_eq_none.1 fun hsome => by simpa using hfirst hsome
  have hlate : ∀ line ∈ new ++ after.map (Line.mapRegisters ρ), line.instruction.slot? = none :=
    List.forall_mem_append.2 ⟨h.new_slot?, hnone⟩
  rw [SlotsFirst, h.lines', List.pairwise_append]
  refine ⟨hbefore, ?_, ?_⟩
  · refine List.pairwise_of_forall_mem_list fun line hl later hlater hsome => ?_
    rw [hlate later hlater] at hsome
    cases hsome
  · intro line hl later hlater hsome
    rw [hlate later hlater] at hsome
    cases hsome

theorem orderly' (hnew : Orderly slots (new ++ after.map (Line.mapRegisters ρ)))
    (hlive : live (new ++ after.map (Line.mapRegisters ρ)) = live (old ++ after))
    (hdetached : Detached (old ++ after) → Detached (new ++ after.map (Line.mapRegisters ρ)))
    (hkilled : ∀ r, OnlyKilled r (old ++ after) →
      OnlyKilled r (new ++ after.map (Line.mapRegisters ρ)))
    (hjump : ∀ labels target rest, old ≠ ⟨labels, .jump target⟩ :: rest)
    (hborn : (born new).Sublist (born old)) (hfix : ∀ r ∈ born after, ρ r = r) :
    b'.Orderly slots := by
  obtain ⟨first, tail, hold, hfirst⟩ := h.start
  have horder := h.orderly.lines
  rw [h.lines] at horder
  have hkill : ∀ labels r rest, old ++ after ≠ ⟨labels, .kill r⟩ :: rest := by
    intro labels r rest heq
    rw [hold] at heq
    cases heq
    exact hfirst r rfl
  have hjump' : ∀ labels target rest, old ++ after ≠ ⟨labels, .jump target⟩ :: rest := by
    intro labels target rest heq
    rw [hold] at heq
    cases heq
    exact hjump labels target tail hold
  obtain ⟨hlines, hlive⟩ := horder.replace hnew hlive hdetached hkilled hkill hjump'
  have hmap : born (after.map (Line.mapRegisters ρ)) = born after := by
    rw [born_map_mapRegisters, List.map_congr_left hfix, List.map_id']
  refine ⟨?_, ?_, ?_, h.slotsFirst, ?_, ?_⟩
  · rwa [h.lines']
  · rw [h.lines', hlive, ← h.lines]
    exact h.orderly.start
  · have hnodup := h.orderly.distinct
    rw [h.lines, born_append, born_append] at hnodup
    rw [h.lines', born_append, born_append, hmap]
    exact hnodup.sublist ((List.Sublist.refl _).append (hborn.append (List.Sublist.refl _)))
  · intro r hr
    obtain ⟨line, hl, hslot⟩ := h.orderly.declared r hr
    have hany : (b.lines.any fun line => line.instruction.slot? = some r) = true :=
      List.any_eq_true.2 ⟨line, hl, by simpa using hslot⟩
    rw [← h.twins.declares, List.any_eq_true] at hany
    obtain ⟨line', hl', hslot'⟩ := hany
    exact ⟨line', hl', by simpa using hslot'⟩
  · rw [h.result]
    exact h.orderly.result

end

end Replacement

end WordLang.Linear
