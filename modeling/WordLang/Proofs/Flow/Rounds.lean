import Mathlib.Data.Finset.Card
import Mathlib.Logic.Function.Iterate
import WordLang.Proofs.Flow.Traces
import WordLang.Proofs.Flow.WellFormed

/-!
# How many rounds simplification takes

A round of simplification leaves a closed graph as it is, or lowers its number of blocks. No size is
therefore met again before nothing changes any more, and simplification is a fixed number of rounds.
Simplifying once more changes something exactly if this number was too small. A graph that is not
settled after its first round has a block that no edge leads to any more. Such a block cannot be
reached from the entry, but there was an edge to it at the start, so the number of rounds is bounded
by the number of these blocks.

## Main definitions

* `Flow.Function.Reaches`: the blocks that paths from the entry lead to
* `Flow.Function.Stranded`: the blocks that edges lead to, but no path from the entry
* `Flow.Function.Trims`: a graph that rounds of simplification made of another one
* `Flow.Function.EndsBefore`: a graph that ends before a number of choices

## Main results

* `Flow.Function.Closed.simplify_eq_iterate`: simplification is a fixed number of rounds
* `Flow.Function.Closed.simplify_eq_self_iff`: what simplification leaves as it is, a round does
* `Flow.Function.Closed.simplifyRound_iterate`: few stranded blocks need few rounds
* `Flow.Function.EndsBefore.simplifyRound`: a round takes one of these choices
* `Checked.simplify_simplify_iff`: when the graph of a checked function is simplified for good
-/

namespace WordLang

variable {first second : Block} {id : BlockId}

namespace Flow.Function

variable {f g : Function}

/-! ## Rounds that change nothing -/

theorem dropUnreferenced_eq_or_lt (f : Function) :
    f.dropUnreferenced = f ∨ f.dropUnreferenced.blocks.length < f.blocks.length := by
  rcases (List.length_filter_le _ f.blocks).eq_or_lt with heq | hlt
  · left
    have hblocks := List.filter_sublist.eq_of_length heq
    rw [dropUnreferenced, hblocks]
  · exact .inr hlt

theorem fuseAll_eq_or_lt (f : Function) :
    f.fuseAll = f ∨ f.fuseAll.blocks.length < f.blocks.length := by
  fun_induction fuseAll f with
  | case1 f hnone => exact .inl rfl
  | case2 f i j hij hnone => exact .inl rfl
  | case3 f i j hij g hg ih =>
    -- One fusion was made, whatever comes after it.
    right
    have hlt := length_fuse?_lt hg
    rcases ih with heq | hlt'
    · rwa [heq]
    · exact hlt'.trans hlt

theorem simplifyRound_eq_or_lt (f : Function) :
    f.simplifyRound = f ∨ f.simplifyRound.blocks.length < f.blocks.length := by
  rw [simplifyRound]
  rcases fuseAll_eq_or_lt f.dropUnreferenced with heq | hlt
  · rw [heq]
    exact dropUnreferenced_eq_or_lt f
  · rcases dropUnreferenced_eq_or_lt f with hdrop | hdrop
    · rw [hdrop] at hlt ⊢
      exact .inr hlt
    · exact .inr (hlt.trans hdrop)

theorem length_iterate_simplifyRound_le (f : Function) (n : Nat) :
    (simplifyRound^[n] f).blocks.length ≤ f.blocks.length := by
  induction n with
  | zero => exact le_rfl
  | succ n ih =>
    rw [Function.iterate_succ_apply']
    rcases simplifyRound_eq_or_lt (simplifyRound^[n] f) with heq | hlt
    · rwa [heq]
    · exact hlt.le.trans ih

theorem simplifyRound_eq_of_iterate {n : Nat} (h : simplifyRound^[n + 1] f = f) :
    f.simplifyRound = f := by
  rcases simplifyRound_eq_or_lt f with heq | hlt
  · exact heq
  · have hle := length_iterate_simplifyRound_le f.simplifyRound n
    rw [← Function.iterate_succ_apply, h] at hle
    omega

namespace Closed

theorem simplifyRound (h : f.Closed) : f.simplifyRound.Closed :=
  (fuseAll_induction (Q := fun _ => True) (fun _ _ _ => trivial) h.dropUnreferenced trivial).1

theorem ids_fuseAll_sublist (h : f.Closed) :
    (f.fuseAll.blocks.map Block.id).Sublist (f.blocks.map Block.id) := by
  refine (fuseAll_induction (Q := fun g => (g.blocks.map Block.id).Sublist (f.blocks.map Block.id))
    ?_ h (.refl _)).2
  intro g first second _ _ hsub
  rw [ids_fuse]
  exact (List.filter_sublist.map _).trans hsub

theorem iterate_simplifyRound (h : f.Closed) (n : Nat) :
    (Function.simplifyRound^[n] f).Closed := by
  induction n with
  | zero => exact h
  | succ n ih =>
    rw [Function.iterate_succ_apply']
    exact ih.simplifyRound

/-! ## Sizes -/

theorem statementCount_fuse (h : f.Closed) (hf : f.Fusible first second) :
    (f.fuse first second).statementCount = f.statementCount := by
  obtain ⟨others, hold, hnew⟩ := h.exists_perm_fuse hf
  simp only [statementCount, (hnew.flatMap_right Block.statements).length_eq,
    (hold.flatMap_right Block.statements).length_eq, List.flatMap_cons, List.length_append, absorb]
  omega

theorem statementCount_simplifyRound_le (h : f.Closed) :
    f.simplifyRound.statementCount ≤ f.statementCount := by
  refine (fuseAll_induction (Q := fun g => g.statementCount ≤ f.statementCount) ?_
    h.dropUnreferenced ?_).2
  · intro g first second hg hf hle
    rwa [hg.statementCount_fuse hf]
  · exact (List.filter_sublist.flatMap _).length_le

theorem simplifyRound_eq_or_size_lt (h : f.Closed) {weight : Nat} (hweight : 0 < weight) :
    f.simplifyRound = f ∨ f.simplifyRound.size weight < f.size weight := by
  refine (simplifyRound_eq_or_lt f).imp_right fun hlt => ?_
  have hcount := h.statementCount_simplifyRound_le
  have hblocks := Nat.mul_lt_mul_of_pos_right hlt hweight
  simp only [size]
  omega

theorem simplifyRounds_eq_iterate (h : f.Closed) {weight : Nat} (hweight : 0 < weight) (n : Nat)
    {seen : List Nat} (hseen : f.size weight ∈ seen) (hle : ∀ s ∈ seen, f.size weight ≤ s) :
    simplifyRounds weight n seen f = Function.simplifyRound^[n] f := by
  induction n generalizing f seen with
  | zero => rfl
  | succ n ih =>
    rw [simplifyRounds]
    rcases h.simplifyRound_eq_or_size_lt hweight with heq | hlt
    · -- Rounds end here, and further ones would change nothing.
      rw [Function.iterate_fixed heq]
      simp only [heq, hseen, ↓reduceIte]
    · have hnew : f.simplifyRound.size weight ∉ seen := fun hmem => (hle _ hmem).not_gt hlt
      simp only [hnew, ↓reduceIte]
      refine ih h.simplifyRound List.mem_cons_self fun s hs => ?_
      rcases List.mem_cons.1 hs with rfl | hs
      · exact le_rfl
      · exact hlt.le.trans (hle s hs)

theorem simplify_eq_iterate (h : f.Closed) :
    f.simplify = Function.simplifyRound^[maxRounds] f :=
  h.simplifyRounds_eq_iterate (Nat.succ_pos _) maxRounds List.mem_cons_self
    fun _ hs => (List.mem_singleton.1 hs).ge

theorem simplify_eq_self_iff (h : f.Closed) : f.simplify = f ↔ f.simplifyRound = f := by
  rw [h.simplify_eq_iterate]
  exact ⟨simplifyRound_eq_of_iterate (n := maxRounds - 1), fun heq => Function.iterate_fixed heq _⟩

theorem simplifyRound_eq_self_iff (hnone : f.fusible? = none) :
    f.simplifyRound = f ↔
      ∀ b ∈ f.blocks, b.id = f.entry ∨ ∃ b' ∈ f.blocks, b.id ∈ b'.terminator.successors := by
  constructor
  · intro heq b hb
    rcases dropUnreferenced_eq_or_lt f with hdrop | hlt
    · rw [← hdrop] at hb
      exact (mem_dropUnreferenced.1 hb).2
    · -- A block that is dropped is missing after the round, as fusing adds none.
      rcases fuseAll_eq_or_lt f.dropUnreferenced with hfuse | hlt' <;>
        rw [Function.simplifyRound] at heq
      · rw [← hfuse, heq] at hlt
        omega
      · rw [heq] at hlt'
        omega
  · intro hall
    have hblocks : f.dropUnreferenced.blocks = f.blocks := by
      refine List.filter_eq_self.2 fun b hb => ?_
      simpa [edgeCount_pos_iff] using hall b hb
    have hdrop := (dropUnreferenced_eq_or_lt f).resolve_right (by rw [hblocks]; exact lt_irrefl _)
    rw [Function.simplifyRound, hdrop, fuseAll_of_not_fusible hnone]

end Closed

/-! ## Blocks that cannot be reached -/

/-- The blocks that paths from the entry lead to. -/
inductive Reaches (f : Function) : BlockId → Prop where
  | entry : Reaches f f.entry
  | edge {b : Block} {s : BlockId} : b ∈ f.blocks → Reaches f b.id → s ∈ b.terminator.successors →
    Reaches f s

/-- The blocks that edges lead to, but no path from the entry. -/
def Stranded (f : Function) (id : BlockId) : Prop :=
  (∃ b ∈ f.blocks, id ∈ b.terminator.successors) ∧ ¬f.Reaches id

theorem Reaches.referenced (h : f.Reaches id) :
    id = f.entry ∨ ∃ b ∈ f.blocks, id ∈ b.terminator.successors := by
  cases h with
  | entry => exact .inl rfl
  | edge hb _ hs => exact .inr ⟨_, hb, hs⟩

theorem Reaches.dropUnreferenced (h : f.Reaches id) : f.dropUnreferenced.Reaches id := by
  induction h with
  | entry => exact .entry
  | edge hb hreach hs ih => exact .edge (mem_dropUnreferenced.2 ⟨hb, hreach.referenced⟩) ih hs

theorem Closed.reaches_fuse (h : f.Closed) (hf : f.Fusible first second) (hid : f.Reaches id) :
    (f.fuse first second).Reaches (if id = second.id then first.id else id) := by
  induction hid with
  | entry =>
    rw [if_neg hf.ne_entry.symm]
    exact .entry
  | @edge b s hb hreach hs ih =>
    rcases h.fused_cases hf hb with ⟨rfl, -⟩ | ⟨hnot, hfused⟩
    · -- The only edge out of the first block leads to the second.
      rw [hf.edge] at hs
      rw [if_pos (List.mem_singleton.1 hs)]
      rwa [if_neg hf.ne.symm] at ih
    · have hne : s ≠ second.id := fun heq => hnot (heq ▸ hs)
      rw [if_neg hne]
      by_cases hsecond : b.id = second.id
      · -- The edges of the second block leave the first one now.
        have heq := List.inj_on_of_nodup_map h.ids hb hf.second_mem hsecond
        rw [if_pos hsecond] at ih
        have hmem := mem_fuse first hf.first_mem hf.ne.symm
        refine .edge hmem (by rwa [Block.id_fused]) ?_
        rw [show first.fused first second = absorb second first from if_pos rfl]
        exact heq ▸ hs
      · rw [if_neg hsecond] at ih
        have hmem := mem_fuse first hb hsecond
        rw [hfused] at hmem
        exact .edge hmem ih hs

/-! ## How many rounds are needed -/

/-- The graph `g` was made of the graph `f` by at least one round of simplification. -/
structure Trims (f g : Function) : Prop where
  closed : g.Closed
  entry : g.entry = f.entry
  /-- Edges of `f` lead to its blocks, but for the entry. -/
  referenced : ∀ b ∈ g.blocks, b.id = f.entry ∨ ∃ b' ∈ f.blocks, b.id ∈ b'.terminator.successors
  reaches : ∀ b ∈ g.blocks, f.Reaches b.id → g.Reaches b.id

namespace Trims

theorem dropUnreferenced (h : f.Trims g) : f.Trims g.dropUnreferenced where
  closed := h.closed.dropUnreferenced
  entry := h.entry
  referenced b hb := h.referenced b (mem_dropUnreferenced.1 hb).1
  reaches b hb hreach := (h.reaches b (mem_dropUnreferenced.1 hb).1 hreach).dropUnreferenced

theorem fuse (h : f.Trims g) (hf : g.Fusible first second) : f.Trims (g.fuse first second) where
  closed := h.closed.fuse hf
  entry := h.entry
  referenced c hc := by
    obtain ⟨b, hb, -, rfl⟩ := of_mem_fuse hc
    rw [Block.id_fused]
    exact h.referenced b hb
  reaches c hc hreach := by
    obtain ⟨b, hb, hne, rfl⟩ := of_mem_fuse hc
    rw [Block.id_fused] at hreach ⊢
    have := h.closed.reaches_fuse hf (h.reaches b hb hreach)
    rwa [if_neg hne] at this

theorem fuseAll (h : f.Trims g) : f.Trims g.fuseAll :=
  (Closed.fuseAll_induction (Q := f.Trims) (fun _ hf hQ => hQ.fuse hf) h.closed h).2

theorem simplifyRound (h : f.Trims g) : f.Trims g.simplifyRound := h.dropUnreferenced.fuseAll

theorem exists_stranded (h : f.Trims g) (hnone : g.fusible? = none) (hne : g.simplifyRound ≠ g) :
    ∃ id, f.Stranded id ∧ id ∈ g.blocks.map Block.id ∧
      id ∉ g.simplifyRound.blocks.map Block.id := by
  rw [ne_eq, Closed.simplifyRound_eq_self_iff hnone] at hne
  push Not at hne
  obtain ⟨b, hb, hentry, hunreferenced⟩ := hne
  have hdead : ¬f.Reaches b.id := fun hreach =>
    (h.reaches b hb hreach).referenced.elim hentry fun ⟨b', hb', hs⟩ => hunreferenced b' hb' hs
  refine ⟨b.id, ⟨?_, hdead⟩, List.mem_map_of_mem hb, fun hmem => ?_⟩
  · exact (h.referenced b hb).resolve_left fun heq => hentry (heq.trans h.entry.symm)
  · -- Fusing adds no identifiers, and the block was dropped.
    have hdropped := h.closed.dropUnreferenced.ids_fuseAll_sublist.subset hmem
    obtain ⟨c, hc, hid⟩ := List.mem_map.1 hdropped
    obtain ⟨hc, hreferenced⟩ := mem_dropUnreferenced.1 hc
    rw [hid] at hreferenced
    exact hreferenced.elim hentry fun ⟨b', hb', hs⟩ => hunreferenced b' hb' hs

end Trims

namespace Closed

theorem trims_simplifyRound (h : f.Closed) :
    f.Trims f.simplifyRound ∧ f.simplifyRound.fusible? = none := by
  have hdrop : f.Trims f.dropUnreferenced :=
    { closed := h.dropUnreferenced
      entry := rfl
      referenced := fun b hb => (mem_dropUnreferenced.1 hb).2
      reaches := fun _ _ hreach => hreach.dropUnreferenced }
  exact ⟨hdrop.fuseAll, h.dropUnreferenced.fusible?_fuseAll⟩

/-- Every round after the first drops a stranded block, or it changes nothing. -/
theorem card_iterate (h : f.Closed) {stranded : Finset BlockId}
    (hstranded : ∀ id, f.Stranded id → id ∈ stranded) (n : Nat) :
    let g := Function.simplifyRound^[n + 1] f
    (f.Trims g ∧ g.fusible? = none) ∧ (g.simplifyRound = g ∨
      n + {id ∈ stranded | id ∈ g.blocks.map Block.id}.card ≤ stranded.card) := by
  induction n with
  | zero =>
    refine ⟨h.trims_simplifyRound, .inr ?_⟩
    rw [Nat.zero_add]
    exact Finset.card_filter_le ..
  | succ n ih =>
    rw [Function.iterate_succ_apply']
    generalize Function.simplifyRound^[n + 1] f = g at ih
    obtain ⟨⟨htrims, hnone⟩, hfew⟩ := ih
    refine ⟨⟨htrims.simplifyRound, htrims.closed.dropUnreferenced.fusible?_fuseAll⟩, ?_⟩
    rcases eq_or_ne g.simplifyRound g with heq | hne
    · left
      rw [heq, heq]
    · right
      have hcard := hfew.resolve_left hne
      obtain ⟨id, hid, hold, hnew⟩ := htrims.exists_stranded hnone hne
      have hsub := htrims.closed.dropUnreferenced.ids_fuseAll_sublist.trans
        (List.filter_sublist.map _)
      have hlt : {id ∈ stranded | id ∈ g.simplifyRound.blocks.map Block.id}.card <
          {id ∈ stranded | id ∈ g.blocks.map Block.id}.card := by
        refine Finset.card_lt_card (Finset.ssubset_iff_of_subset ?_ |>.2 ⟨id, ?_, ?_⟩)
        · exact Finset.monotone_filter_right _ fun _ _ hmem => hsub.subset hmem
        · exact Finset.mem_filter.2 ⟨hstranded id hid, hold⟩
        · exact fun hmem => hnew (Finset.mem_filter.1 hmem).2
      omega

/-- One round more than there are stranded blocks leads to a graph that no round changes. -/
theorem simplifyRound_iterate (h : f.Closed) {stranded : Finset BlockId}
    (hstranded : ∀ id, f.Stranded id → id ∈ stranded) {n : Nat} (hcard : stranded.card ≤ n) :
    (Function.simplifyRound^[n + 1] f).simplifyRound = Function.simplifyRound^[n + 1] f := by
  obtain ⟨⟨htrims, hnone⟩, hfew⟩ := h.card_iterate hstranded n
  generalize Function.simplifyRound^[n + 1] f = g at htrims hnone hfew
  by_contra hne
  obtain ⟨id, hid, hmem, -⟩ := htrims.exists_stranded hnone hne
  have hpos : 0 < {id ∈ stranded | id ∈ g.blocks.map Block.id}.card :=
    Finset.card_pos.2 ⟨id, Finset.mem_filter.2 ⟨hstranded id hid, hmem⟩⟩
  have hle := hfew.resolve_left hne
  omega

/-- Simplifying a simplified graph changes nothing exactly if a further round would change nothing,
that is, if edges lead to all blocks but the entry. -/
theorem simplify_simplify (h : f.Closed) : f.simplify.Closed ∧
    (f.simplify.simplify = f.simplify ↔ f.simplify.simplifyRound = f.simplify) ∧
    (f.simplify.simplifyRound = f.simplify ↔ ∀ b ∈ f.simplify.blocks,
      b.id = f.simplify.entry ∨ ∃ b' ∈ f.simplify.blocks, b.id ∈ b'.terminator.successors) := by
  have hclosed : f.simplify.Closed := h.simplify_eq_iterate ▸ h.iterate_simplifyRound maxRounds
  exact ⟨hclosed, hclosed.simplify_eq_self_iff,
    simplifyRound_eq_self_iff (h.fusible?_simplifyRounds ..)⟩

end Closed

/-! ## Choices that are never reached -/

/-- The blocks of `n` choices and the block after them. Both ways of a choice lead to the next one. -/
def choices (id next : BlockId) : Nat → List Block
  | 0 => [⟨id, [], .goto 1⟩]
  | n + 1 => ⟨id, [.push (.int 0)], .branch next (next + 1)⟩ :: ⟨next, [], .goto (next + 1)⟩ ::
      choices (next + 1) (next + 2) n

/-- A graph whose entry leads to its end, with `n` choices besides that no edge leads to. -/
structure EndsBefore (f : Function) (id next n : Nat) : Prop where
  entry : f.entry = 0
  blocks : f.blocks = ⟨0, [], .goto 1⟩ :: ⟨1, [], .return⟩ :: choices id next n
  fresh : 1 < id ∧ id < next

section

variable {id next n : Nat}

theorem edgeCount_choices (h : 1 < next) (s : BlockId) :
    edgeCount (choices id next n) s = (if s = 1 then 1 else 0) +
      if next ≤ s ∧ s < next + 2 * n then 1 + (s - next) % 2 else 0 := by
  induction n generalizing id next with
  | zero =>
    simp only [choices, edgeCount_cons, Terminator.successors, List.count_singleton]
    grind [edgeCount]
  | succ n ih =>
    have hother : next ≠ next + 1 := by omega
    simp only [choices, edgeCount_cons, Terminator.successors, if_neg hother, List.count_cons,
      List.count_nil, ih (Nat.lt_add_right 2 h)]
    grind

/-- The only way out of a block leads to the end, or to a block that two edges lead to. -/
theorem of_mem_choices {b : Block} (h : b ∈ choices id next n) :
    (b.id = id ∨ next ≤ b.id ∧ b.id < next + 2 * n) ∧ ∀ s, b.terminator.successors = [s] →
      s = 1 ∨ next ≤ s ∧ s < next + 2 * n ∧ (s - next) % 2 = 1 := by
  induction n generalizing id next with
  | zero => simp_all [choices, Terminator.successors]
  | succ n ih =>
    rw [choices, List.mem_cons, List.mem_cons] at h
    rcases h with rfl | rfl | h
    · simp [Terminator.successors]
    · simp [Terminator.successors]
      grind
    · grind

/-- All blocks but the first are the same, whatever the identifier of the first. -/
theorem exists_choices (next n : Nat) : ∃ statements terminator rest,
    (∀ id, choices id next n = ⟨id, statements, terminator⟩ :: rest) ∧ ∀ b ∈ rest, next ≤ b.id := by
  cases n with
  | zero => exact ⟨_, _, _, fun _ => rfl, fun _ hb => nomatch hb⟩
  | succ n =>
    refine ⟨_, _, _, fun _ => rfl, fun b hb => ?_⟩
    rcases List.mem_cons.1 hb with rfl | hb
    · exact le_rfl
    · have := (of_mem_choices hb).1
      grind

namespace EndsBefore

theorem edgeCount_blocks (h : f.EndsBefore id next n) (s : BlockId) :
    edgeCount f.blocks s = (if s = 1 then 2 else 0) +
      if next ≤ s ∧ s < next + 2 * n then 1 + (s - next) % 2 else 0 := by
  simp only [h.blocks, edgeCount_cons, Terminator.successors, List.count_singleton,
    List.count_nil, edgeCount_choices (h.fresh.1.trans h.fresh.2)]
  grind

theorem fusible?_eq_none (h : f.EndsBefore id next n) : f.fusible? = none := by
  refine List.findSome?_eq_none_iff.2 fun b hb => ?_
  rw [Option.map_eq_none_iff, fusibleSuccessor?]
  split
  · rename_i s hs
    refine if_neg ?_
    rintro ⟨-, -, hcount⟩
    rw [h.edgeCount_blocks] at hcount
    rw [h.blocks, List.mem_cons, List.mem_cons] at hb
    rcases hb with rfl | rfl | hb
    · cases hs
      grind
    · cases hs
    · have := (of_mem_choices hb).2 s hs
      grind
  · rfl

theorem blocks_dropUnreferenced (h : f.EndsBefore id next (n + 1)) :
    f.dropUnreferenced.blocks = ⟨0, [], .goto 1⟩ :: ⟨1, [], .return⟩ ::
      ⟨next, [], .goto (next + 1)⟩ :: choices (next + 1) (next + 2) n := by
  have hfresh := h.fresh
  have hkept : (choices (next + 1) (next + 2) n).filter
      (fun b => b.id = f.entry || 0 < edgeCount f.blocks b.id) = choices (next + 1) (next + 2) n := by
    refine List.filter_eq_self.2 fun b hb => ?_
    have := (of_mem_choices hb).1
    grind [h.edgeCount_blocks]
  have hblocks := congrArg (List.filter fun b => b.id = f.entry || 0 < edgeCount f.blocks b.id)
    h.blocks
  rw [dropUnreferenced, hblocks, choices]
  grind [h.edgeCount_blocks, h.entry]

/-- A round takes one choice: its block is dropped and the two blocks after it are fused. -/
theorem simplifyRound (h : f.EndsBefore id next (n + 1)) :
    f.simplifyRound.EndsBefore next (next + 2) n := by
  have hlt : 1 < next := h.fresh.1.trans h.fresh.2
  have hne : next ≠ 0 ∧ 0 ≠ next ∧ 1 ≠ next := by omega
  have hdrop := h.blocks_dropUnreferenced
  have hentry : f.dropUnreferenced.entry = 0 := h.entry
  rw [Function.simplifyRound]
  generalize f.dropUnreferenced = g at hdrop hentry
  have hfusible : g.fusible? = some (next, next + 1) := by
    simp only [fusible?, hdrop, List.findSome?_cons, fusibleSuccessor?, Terminator.successors,
      edgeCount_cons, hentry, List.count_singleton, List.count_nil,
      edgeCount_choices (Nat.lt_add_right 2 hlt)]
    grind
  obtain ⟨statements, terminator, rest, hchoices, hrest⟩ := exists_choices (next + 2) n
  rw [hchoices] at hdrop
  let first : Block := ⟨next, [], .goto (next + 1)⟩
  let second : Block := ⟨next + 1, statements, terminator⟩
  have hfuse : g.fuse? next (next + 1) = some (g.fuse first second) := by
    have hfind : findBlock? g.blocks (next + 1) = some second := by
      simp [findBlock?, hdrop, hne, second]
    rw [fuse?, hfind]
    rfl
  have hends : (g.fuse first second).EndsBefore next (next + 2) n := by
    refine ⟨hentry, ?_, hlt, by omega⟩
    have hkept : rest.filter (fun b => b.id ≠ next + 1) = rest :=
      List.filter_eq_self.2 fun b hb => by grind
    have hsame (b : Block) (hb : b.id ≠ next) : b.fused first second = b := if_neg hb
    have hrest : rest.map (fun b => b.fused first second) = rest :=
      (List.map_congr_left fun b hb => hsame b (by grind)).trans (List.map_id _)
    have hfirst : first.fused first second = ⟨next, statements, terminator⟩ := if_pos rfl
    rw [fuse, hdrop, hchoices]
    simp only [List.filter_cons, hkept, second]
    simp [hne, hsame, hrest, hfirst, first, second]
  rwa [fuseAll_of_fuse? hfusible hfuse, fuseAll_of_not_fusible hends.fusible?_eq_none]

/-- As many rounds as there are choices leave the block after them, which no edge leads to. -/
theorem not_referenced (h : f.EndsBefore id next n) :
    ¬∀ b ∈ (Function.simplifyRound^[n] f).blocks, b.id = (Function.simplifyRound^[n] f).entry ∨
      ∃ b' ∈ (Function.simplifyRound^[n] f).blocks, b.id ∈ b'.terminator.successors := by
  induction n generalizing f id next with
  | zero =>
    intro hall
    have hlast := hall ⟨id, [], .goto 1⟩ (by simp [h.blocks, choices])
    rw [Function.iterate_zero_apply, ← edgeCount_pos_iff, h.edgeCount_blocks, h.entry] at hlast
    have hfresh := h.fresh
    grind
  | succ n ih => exact ih h.simplifyRound

end EndsBefore

end

end Flow.Function

/-! ## Checked programs -/

namespace Checked

open WordLang.Flow (maxRounds)

/-- Simplification of the graph of a checked function with a body is a fixed number of rounds.
Simplifying it again changes nothing exactly if a further round would change nothing, that is, if
edges lead to all blocks of the simplified graph but its entry. So it is if fewer blocks are
stranded in the graph than there are rounds. -/
theorem simplify_simplify_iff {source : List Char} {c : Checked} (h : ofSource? source = .ok c)
    (henough : c.EnoughIds) {id : StmtId} {decl : FnDecl} (hdecl : c.resolutions.function? id = some decl)
    (hbody : decl.body.isSome) :
    ∃ f, (Flow.buildFunction c.resolutions id).run c.answers = .ok f c.answers ∧
      f.simplify = Flow.Function.simplifyRound^[maxRounds] f ∧
      (f.simplify.simplify = f.simplify ↔ f.simplify.simplifyRound = f.simplify) ∧
      (f.simplify.simplifyRound = f.simplify ↔ ∀ b ∈ f.simplify.blocks,
        b.id = f.simplify.entry ∨ ∃ b' ∈ f.simplify.blocks, b.id ∈ b'.terminator.successors) ∧
      ∀ stranded : Finset BlockId, (∀ id, f.Stranded id → id ∈ stranded) →
        stranded.card < maxRounds → f.simplify.simplify = f.simplify := by
  obtain ⟨body, hbody⟩ := Option.isSome_iff_exists.1 hbody
  obtain ⟨f, hf, -, hgraph⟩ := (valid_of_ofSource? h).graph?_of_body henough hdecl hbody
  have hclosed := hgraph.lowerable.tidy.closed
  have hrounds := hclosed.simplify_eq_iterate
  obtain ⟨-, htwice, hround⟩ := hclosed.simplify_simplify
  refine ⟨f, hf, hrounds, htwice, hround, fun stranded hstranded hcard => htwice.2 ?_⟩
  rw [hrounds]
  exact hclosed.simplifyRound_iterate (n := maxRounds - 1) hstranded (Nat.le_sub_one_of_lt hcard)

/-- The graph of the function that a statement of a source text declares, if the text passes the
check and there are identifiers for its parts. -/
def graphOf? (source : List Char) (id : StmtId) : Option Flow.Function :=
  (ofSource? source).toOption.bind fun c => if c.EnoughIds then c.graph? false id else none

theorem exists_of_graphOf? {source : List Char} {id : StmtId} {f : Flow.Function}
    (h : graphOf? source id = some f) :
    ∃ c decl, ofSource? source = .ok c ∧ c.EnoughIds ∧ c.resolutions.function? id = some decl ∧
      decl.body.isSome ∧ (Flow.buildFunction c.resolutions id).run c.answers = .ok f c.answers ∧
      f.Closed := by
  obtain ⟨c, hc, hgraph⟩ := Option.bind_eq_some_iff.1 h
  have hc := eq_ok_of_toOption hc
  obtain ⟨henough, hgraph⟩ := Option.ite_none_right_eq_some.1 hgraph
  have hany : (c.resolutions.function? id).any fun decl => decl.body.isSome := by
    by_contra hno
    rw [graph?, if_neg hno] at hgraph
    cases hgraph
  obtain ⟨decl, hdecl, hbody⟩ := (Option.any_eq_true _ _).1 hany
  obtain ⟨body, hbody'⟩ := Option.isSome_iff_exists.1 hbody
  obtain ⟨g, hg, hgraph', hof⟩ := (valid_of_ofSource? hc).graph?_of_body henough hdecl hbody'
  obtain rfl : f = g := Option.some.inj (hgraph.symm.trans (hgraph' false))
  exact ⟨c, decl, hc, henough, hdecl, hbody, hg, hof.lowerable.tidy.closed⟩

/-- A function that returns before it comes to a number of choices. -/
def deadChoices (n : Nat) : List Char :=
  "fn f() \x7b return; ".toList ++ (List.replicate n "if 0 {} ".toList).flatten ++ "\x7d".toList

theorem length_deadChoices :
    (graphOf? (deadChoices 2) 3).any fun f => f.blocks.length < maxRounds := by
  decide +kernel

/-- Two choices that are never reached are gone after simplification. -/
theorem simplify_simplify_iff_deadChoices : ∃ c decl f, ofSource? (deadChoices 2) = .ok c ∧
    c.resolutions.function? 3 = some decl ∧ decl.body.isSome ∧
    (Flow.buildFunction c.resolutions 3).run c.answers = .ok f c.answers ∧
    f.simplify.simplify = f.simplify := by
  obtain ⟨f, hf, hlength⟩ := (Option.any_eq_true _ _).1 length_deadChoices
  obtain ⟨c, decl, hc, henough, hdecl, hbody, hrun, hclosed⟩ := exists_of_graphOf? hf
  obtain ⟨g, hg, -, -, -, hfew⟩ := simplify_simplify_iff hc henough hdecl hbody
  cases hg.symm.trans hrun
  refine ⟨c, decl, f, hc, hdecl, hbody, hrun, hfew (f.blocks.map Flow.Block.id).toFinset ?_ ?_⟩
  · rintro id ⟨⟨b, hb, hs⟩, -⟩
    exact List.mem_toFinset.2 (hclosed.targets b hb id hs)
  · have hcard := (f.blocks.map Flow.Block.id).toFinset_card_le
    rw [List.length_map] at hcard
    exact hcard.trans_lt (of_decide_eq_true hlength)

theorem deadChoices_endsBefore : (graphOf? (deadChoices maxRounds) 33).any fun f => f.entry = 0 ∧
    f.blocks = ⟨0, [], .goto 1⟩ :: ⟨1, [], .return⟩ :: Flow.Function.choices 2 3 maxRounds := by
  decide +kernel

/-- As many choices that are never reached as there are rounds are not gone after simplification:
simplifying once more changes the graph. -/
theorem deadChoices_simplify_simplify : ∃ c decl f, ofSource? (deadChoices maxRounds) = .ok c ∧
    c.resolutions.function? 33 = some decl ∧ decl.body.isSome ∧
    (Flow.buildFunction c.resolutions 33).run c.answers = .ok f c.answers ∧
    f.simplify.simplify ≠ f.simplify := by
  obtain ⟨f, hf, hgraph⟩ := (Option.any_eq_true _ _).1 deadChoices_endsBefore
  obtain ⟨hentry, hblocks⟩ := of_decide_eq_true hgraph
  have hends : f.EndsBefore 2 3 maxRounds := ⟨hentry, hblocks, by decide⟩
  obtain ⟨c, decl, hc, -, hdecl, hbody, hrun, hclosed⟩ := exists_of_graphOf? hf
  obtain ⟨-, hround, hreferenced⟩ := hclosed.simplify_simplify
  refine ⟨c, decl, f, hc, hdecl, hbody, hrun, fun htwice => hends.not_referenced ?_⟩
  rw [← hclosed.simplify_eq_iterate]
  exact hreferenced.1 (hround.1 htwice)

end Checked

end WordLang
