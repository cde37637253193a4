import WordLang.Flow.Simplify
import WordLang.Proofs.Flow.Rewriting

/-!
# Simplified graphs do the same

Dropping blocks that no edge leads to, and fusing two blocks along the only edge between them, are
rewritings of closed graphs, and leave them closed. What both steps keep, simplification keeps. Tidy
graphs stay tidy, and a program whose graphs are simplified has the results it had.

## Main definitions

* `Flow.Function.Closed`: a graph whose edges lead to its blocks
* `Flow.Function.Tidy`: a closed graph that starts with its entry and is finished
* `Flow.Function.Fusible`, `Flow.Function.fuse`: blocks that can be fused, and the graph after it
* `Flow.Program.simplify`: a program with its graphs simplified

## Main results

* `Flow.Function.Closed.dropRewriting`, `Flow.Function.Closed.fuseRewriting`: both steps are rewritings
* `Flow.Function.Closed.simplify_induction`: simplification keeps what both steps keep
* `Flow.Function.Tidy.improves_simplify`: a simplified graph is tidy, with the results it had
* `Flow.refines_simplify`: a program with simplified graphs refines the program
-/

namespace WordLang.Flow

variable {b : Block} {blocks : List Block} {s : BlockId}

/-- A graph with at most one block for an identifier, whose entry exists, whose edges lead to its
blocks, and whose branches lead to two of them. -/
structure Function.Closed (f : Function) : Prop where
  ids : (f.blocks.map Block.id).Nodup
  entry : f.entry ∈ f.blocks.map Block.id
  targets : ∀ b ∈ f.blocks, ∀ s ∈ b.terminator.successors, s ∈ f.blocks.map Block.id
  branches : ∀ b ∈ f.blocks, ∀ s, b.terminator ≠ .branch s s

/-- A closed graph in which every block is finished, and which starts with its entry. Its statements
satisfy `P`. -/
structure Function.Tidy (P : Statement → Prop) (f : Function) : Prop where
  ids : (f.blocks.map Block.id).Nodup
  entry : (f.blocks.map Block.id).head? = some f.entry
  targets : ∀ b ∈ f.blocks, ∀ s ∈ b.terminator.successors, s ∈ f.blocks.map Block.id
  branches : ∀ b ∈ f.blocks, ∀ s, b.terminator ≠ .branch s s
  finished : ∀ b ∈ f.blocks, b.terminator ≠ .unset ∧ b.terminator ≠ .error
  statements : ∀ b ∈ f.blocks, ∀ s ∈ b.statements, P s

/-- A tidy graph is closed. -/
theorem Function.Tidy.closed {P : Statement → Prop} {f : Function} (h : f.Tidy P) : f.Closed :=
  ⟨h.ids, List.mem_of_mem_head? h.entry, h.targets, h.branches⟩

/-! ## Blocks and edges -/

theorem findBlock?_eq_some (hids : (blocks.map Block.id).Nodup)
    (hb : b ∈ blocks) : findBlock? blocks b.id = some b := by
  induction blocks with
  | nil => cases hb
  | cons c rest ih =>
    rw [List.map_cons, List.nodup_cons] at hids
    simp only [findBlock?, List.find?_cons]
    rcases List.mem_cons.1 hb with rfl | hb
    · simp
    · have hne : c.id ≠ b.id := by
        intro heq
        exact hids.1 (heq ▸ List.mem_map_of_mem hb)
      simp only [hne, decide_false]
      exact ih hids.2 hb

theorem findBlock?_eq_some_iff (hids : (blocks.map Block.id).Nodup)
    {id : BlockId} : findBlock? blocks id = some b ↔ b ∈ blocks ∧ b.id = id := by
  constructor
  · intro h
    exact ⟨List.mem_of_find?_eq_some h, by simpa using List.find?_some h⟩
  · rintro ⟨hb, rfl⟩
    exact findBlock?_eq_some hids hb

theorem edgeCount_cons (b : Block) (blocks : List Block) (s : BlockId) :
    edgeCount (b :: blocks) s = b.terminator.successors.count s + edgeCount blocks s := by
  rw [edgeCount, List.flatMap_cons, List.count_append, edgeCount]

theorem edgeCount_pos_iff : 0 < edgeCount blocks s ↔ ∃ b ∈ blocks, s ∈ b.terminator.successors := by
  simp only [edgeCount, List.count_pos_iff, List.mem_flatMap]

theorem eq_of_edgeCount_eq_one (h : edgeCount blocks s = 1)
    {b c : Block} (hb : b ∈ blocks) (hbs : s ∈ b.terminator.successors) (hc : c ∈ blocks)
    (hcs : s ∈ c.terminator.successors) : b = c := by
  induction blocks with
  | nil => cases hb
  | cons d rest ih =>
    have hcons : edgeCount (d :: rest) s = d.terminator.successors.count s + edgeCount rest s := by
      simp only [edgeCount, List.flatMap_cons, List.count_append]
    by_cases hd : s ∈ d.terminator.successors
    · -- Then no block of the rest leads there.
      have hpos := List.count_pos_iff.2 hd
      have hrest : ∀ e ∈ rest, s ∉ e.terminator.successors := by
        intro e he hes
        have hpos' := edgeCount_pos_iff.2 ⟨e, he, hes⟩
        omega
      have heq : ∀ e ∈ d :: rest, s ∈ e.terminator.successors → e = d := by
        intro e he hes
        rcases List.mem_cons.1 he with rfl | he
        · rfl
        · exact absurd hes (hrest e he)
      rw [heq b hb hbs, heq c hc hcs]
    · have hne : ∀ e ∈ d :: rest, s ∈ e.terminator.successors → e ∈ rest := by
        intro e he hes
        rcases List.mem_cons.1 he with rfl | he
        · exact absurd hes hd
        · exact he
      rw [hcons, List.count_eq_zero_of_not_mem hd, Nat.zero_add] at h
      exact ih h (hne b hb hbs) (hne c hc hcs)

theorem Function.Tidy.head?_blocks {P : Statement → Prop} {f : Function} (h : f.Tidy P)
    (hb : findBlock? f.blocks f.entry = some b) : f.blocks.head? = some b := by
  have hhead := h.entry
  cases hblocks : f.blocks with
  | nil =>
    rw [hblocks] at hhead
    cases hhead
  | cons c rest =>
    rw [hblocks, List.map_cons, List.head?_cons, Option.some.injEq] at hhead
    rw [hblocks, findBlock?, List.find?_cons, hhead, decide_eq_true rfl] at hb
    exact hb

namespace Function

theorem mem_dropUnreferenced {f : Function} : b ∈ f.dropUnreferenced.blocks ↔
      b ∈ f.blocks ∧ (b.id = f.entry ∨ ∃ c ∈ f.blocks, b.id ∈ c.terminator.successors) := by
  simp only [dropUnreferenced, List.mem_filter, Bool.or_eq_true, decide_eq_true_eq,
    edgeCount_pos_iff]

namespace Closed

variable {f : Function}

theorem find_target (h : f.Closed) (hb : b ∈ f.blocks) (hs : s ∈ b.terminator.successors) :
    ∃ c ∈ f.blocks, c.id = s ∧ findBlock? f.blocks s = some c := by
  obtain ⟨c, hc, rfl⟩ := List.mem_map.1 (h.targets b hb s hs)
  exact ⟨c, hc, rfl, findBlock?_eq_some h.ids hc⟩

theorem find_entry (h : f.Closed) :
    ∃ b ∈ f.blocks, b.id = f.entry ∧ findBlock? f.blocks f.entry = some b := by
  obtain ⟨b, hb, hid⟩ := List.mem_map.1 h.entry
  exact ⟨b, hb, hid, hid ▸ findBlock?_eq_some h.ids hb⟩

/-! ## Dropping blocks -/

theorem dropUnreferenced (h : f.Closed) : f.dropUnreferenced.Closed where
  ids := h.ids.sublist (List.filter_sublist.map _)
  entry := by
    obtain ⟨b, hb, hid, -⟩ := h.find_entry
    exact hid ▸ List.mem_map_of_mem (mem_dropUnreferenced.2 ⟨hb, .inl hid⟩)
  targets := by
    intro b hb s hs
    have hb := mem_dropUnreferenced.1 hb
    obtain ⟨c, hc, rfl, -⟩ := h.find_target hb.1 hs
    exact List.mem_map_of_mem (mem_dropUnreferenced.2 ⟨hc, .inr ⟨b, hb.1, hs⟩⟩)
  branches b hb := h.branches b (mem_dropUnreferenced.1 hb).1

/-- Dropping blocks that no edge leads to is a rewriting: no code changes. -/
def dropRewriting (h : f.Closed) : f.Rewriting f.dropUnreferenced where
  rel ss t ss' t' := (∃ b ∈ f.blocks, b.terminator = t) ∧ ss' = ss ∧ t' = t
  rank _ _ := 0
  statement := by
    rintro statement ss t ss' t' ⟨ht, rfl, rfl⟩
    exact ⟨ss, rfl, ht, rfl, rfl⟩
  terminator := by
    rintro t ss' t' ⟨⟨b, hb, rfl⟩, rfl, rfl⟩
    refine .inl ⟨rfl, rfl, ?_⟩
    intro s hs
    obtain ⟨c, hc, rfl, hfind⟩ := h.find_target hb hs
    have hc' := mem_dropUnreferenced.2 ⟨hc, .inr ⟨b, hb, hs⟩⟩
    exact ⟨c, c, hfind, findBlock?_eq_some h.dropUnreferenced.ids hc', ⟨c, hc, rfl⟩, rfl, rfl⟩
  entry := by
    obtain ⟨b, hb, hid, hfind⟩ := h.find_entry
    have hb' := mem_dropUnreferenced.2 ⟨hb, .inl hid⟩
    refine ⟨b, b, hfind, ?_, ⟨b, hb, rfl⟩, rfl, rfl⟩
    exact (findBlock?_eq_some_iff h.dropUnreferenced.ids).2 ⟨hb', hid⟩
  locals := rfl
  params := rfl
  result := rfl

end Closed

end Function

/-! ## Fusing blocks -/

/-- Two blocks of a graph that can be fused: the only edge to the second is the only edge out of
the first. -/
structure Function.Fusible (f : Function) (first second : Block) : Prop where
  first_mem : first ∈ f.blocks
  second_mem : second ∈ f.blocks
  edge : first.terminator = .goto second.id
  ne : second.id ≠ first.id
  ne_entry : second.id ≠ f.entry
  only : ∀ b ∈ f.blocks, second.id ∈ b.terminator.successors → b = first

/-- What the block `b` becomes when `second` is fused into `first`. -/
def Block.fused (b first second : Block) : Block :=
  if b.id = first.id then Function.absorb second b else b

@[simp] theorem Block.id_fused (b first second : Block) : (b.fused first second).id = b.id := by
  simp only [Block.fused]
  split <;> rfl

/-- A graph with `second` fused into `first`. -/
def Function.fuse (f : Function) (first second : Block) : Function :=
  { f with
    blocks := (f.blocks.filter fun b => b.id ≠ second.id).map fun b => b.fused first second
    exit := if f.exit = second.id then first.id else f.exit }

namespace Function

variable {f : Function} {first second : Block}

theorem mem_fuse (first : Block) (hb : b ∈ f.blocks) (hne : b.id ≠ second.id) :
    b.fused first second ∈ (f.fuse first second).blocks :=
  List.mem_map_of_mem (List.mem_filter.2 ⟨hb, by simpa using hne⟩)

theorem of_mem_fuse {c : Block} (hc : c ∈ (f.fuse first second).blocks) :
    ∃ b ∈ f.blocks, b.id ≠ second.id ∧ b.fused first second = c := by
  obtain ⟨b, hb, rfl⟩ := List.mem_map.1 hc
  have hb := List.mem_filter.1 hb
  exact ⟨b, hb.1, by simpa using hb.2, rfl⟩

theorem ids_fuse (f : Function) (first second : Block) :
    (f.fuse first second).blocks.map Block.id =
      (f.blocks.filter fun b => b.id ≠ second.id).map Block.id := by
  simp only [fuse, List.map_map]
  exact List.map_congr_left fun b _ => Block.id_fused b first second

theorem exists_of_fusible? {i j : BlockId} (h : f.fusible? = some (i, j)) :
    ∃ b ∈ f.blocks, b.id = i ∧ b.terminator.successors = [j] ∧ j ≠ b.id ∧ j ≠ f.entry ∧
      edgeCount f.blocks j = 1 := by
  obtain ⟨b, hb, hs⟩ := List.exists_of_findSome?_eq_some h
  simp only [Option.map_eq_some_iff, Prod.mk.injEq] at hs
  obtain ⟨s, hs, rfl, rfl⟩ := hs
  simp only [fusibleSuccessor?] at hs
  split at hs
  · next s' hsucc =>
    split at hs
    · next hcond =>
      cases hs
      exact ⟨b, hb, rfl, hsucc, hcond⟩
    · cases hs
  · cases hs

theorem Fusible.not_mem_successors (hf : f.Fusible first second) :
    second.id ∉ second.terminator.successors := by
  intro hmem
  exact hf.ne (congrArg Block.id (hf.only second hf.second_mem hmem))

/-! ## Declarations -/

theorem decl_fuseAll (f : Function) : f.fuseAll.decl = f.decl := by
  fun_induction fuseAll f with
  | case1 => rfl
  | case2 => rfl
  | case3 f i j hij g hg ih =>
    rw [ih]
    obtain ⟨second, -, rfl⟩ := Option.map_eq_some_iff.1 hg
    rfl

theorem decl_simplifyRounds (weight n : Nat) (seen : List Nat) (f : Function) :
    (simplifyRounds weight n seen f).decl = f.decl := by
  induction n generalizing f seen with
  | zero => rfl
  | succ n ih =>
    rw [simplifyRounds]
    split
    · exact decl_fuseAll _
    · exact (ih _ _).trans (decl_fuseAll _)

theorem decl_simplify (f : Function) : f.simplify.decl = f.decl := decl_simplifyRounds ..

end Function

namespace Function.Closed

variable {f g : Function} {first second : Block}

theorem fuse_of_fusible? (h : f.Closed) {i j : BlockId} (hij : f.fusible? = some (i, j))
    (hg : f.fuse? i j = some g) :
    ∃ first second, f.Fusible first second ∧ g = f.fuse first second := by
  simp only [fuse?, Option.map_eq_some_iff] at hg
  obtain ⟨second, hsecond, rfl⟩ := hg
  obtain ⟨hmem, rfl⟩ := (findBlock?_eq_some_iff h.ids).1 hsecond
  obtain ⟨first, hfirst, rfl, hsucc, hne, hentry, hcount⟩ := exists_of_fusible? hij
  refine ⟨first, second, ⟨hfirst, hmem, ?_, hne, hentry, ?_⟩, rfl⟩
  · cases hterm : first.terminator with
    | goto target =>
      rw [hterm] at hsucc
      cases hsucc
      rfl
    | branch truthy falsy =>
      have hne := h.branches first hfirst truthy
      rw [hterm] at hsucc hne
      simp only [Terminator.successors] at hsucc
      split at hsucc
      · next heq => exact absurd (heq ▸ rfl) hne
      · cases hsucc
    | error | unset | «return» =>
      rw [hterm] at hsucc
      cases hsucc
  · intro b hb hbs
    exact eq_of_edgeCount_eq_one hcount hb hbs hfirst (by simp [hsucc])

section

variable (h : f.Closed) (hf : f.Fusible first second)
include h hf

theorem fused_cases (hb : b ∈ f.blocks) : (b = first ∧ b.fused first second = absorb second first) ∨
      second.id ∉ b.terminator.successors ∧ b.fused first second = b := by
  by_cases heq : b = first
  · subst heq
    exact .inl ⟨rfl, if_pos rfl⟩
  · refine .inr ⟨fun hmem => heq (hf.only b hb hmem), if_neg fun hid => heq ?_⟩
    have hfind := findBlock?_eq_some h.ids hb
    rw [hid, findBlock?_eq_some h.ids hf.first_mem] at hfind
    cases hfind
    rfl

theorem forall_mem_fuse {Q : Block → Prop} (hblocks : ∀ b ∈ f.blocks, Q b)
    (habsorb : Q (absorb second first)) : ∀ c ∈ (f.fuse first second).blocks, Q c := by
  intro c hc
  obtain ⟨b, hb, -, rfl⟩ := of_mem_fuse hc
  rcases h.fused_cases hf hb with ⟨-, heq⟩ | ⟨-, heq⟩
  · rwa [heq]
  · rw [heq]
    exact hblocks b hb

theorem terminator_fused (hb : b ∈ f.blocks) :
    ∃ c ∈ f.blocks, (b.fused first second).terminator = c.terminator ∧
      second.id ∉ c.terminator.successors := by
  rcases h.fused_cases hf hb with ⟨rfl, heq⟩ | ⟨hnot, heq⟩
  · exact ⟨second, hf.second_mem, by rw [heq]; rfl, hf.not_mem_successors⟩
  · exact ⟨b, hb, by rw [heq], hnot⟩

theorem fuse : (f.fuse first second).Closed where
  ids := by
    rw [ids_fuse]
    exact h.ids.sublist (List.filter_sublist.map _)
  entry := by
    obtain ⟨b, hb, hid, -⟩ := h.find_entry
    have hmem := List.mem_map_of_mem (f := Block.id)
      (mem_fuse first hb fun heq => hf.ne_entry (heq.symm.trans hid))
    rwa [Block.id_fused, hid] at hmem
  targets := by
    intro c hc s hs
    obtain ⟨b, hb, -, rfl⟩ := of_mem_fuse hc
    obtain ⟨d, hd, hterm, hnot⟩ := h.terminator_fused hf hb
    rw [hterm] at hs
    obtain ⟨e, he, rfl, -⟩ := h.find_target hd hs
    have hmem := List.mem_map_of_mem (f := Block.id)
      (mem_fuse first he fun heq => hnot (heq ▸ hs))
    rwa [Block.id_fused] at hmem
  branches := h.forall_mem_fuse hf h.branches (h.branches second hf.second_mem)

end

/-- The code that corresponds when `second` is fused into `first`: what leads to `second` has its
code after it. -/
def FusedCode (f : Function) (second : Block) (ss : List Statement) (t : Terminator)
    (ss' : List Statement) (t' : Terminator) : Prop :=
  (∃ b ∈ f.blocks, b.terminator = t) ∧
    ((t = .goto second.id ∧ ss' = ss ++ second.statements ∧ t' = second.terminator) ∨
      (second.id ∉ t.successors ∧ ss' = ss ∧ t' = t))

theorem fusedCode_fused (h : f.Closed) (hf : f.Fusible first second)
    (hb : b ∈ f.blocks) : FusedCode f second b.statements b.terminator
      (b.fused first second).statements (b.fused first second).terminator := by
  refine ⟨⟨b, hb, rfl⟩, ?_⟩
  rcases h.fused_cases hf hb with ⟨rfl, heq⟩ | ⟨hnot, heq⟩
  · rw [heq]
    exact .inl ⟨hf.edge, rfl, rfl⟩
  · rw [heq]
    exact .inr ⟨hnot, rfl, rfl⟩

/-- Fusing two blocks is a rewriting. -/
def fuseRewriting (h : f.Closed) (hf : f.Fusible first second) :
    f.Rewriting (f.fuse first second) where
  rel := FusedCode f second
  rank ss t := if ss = [] ∧ t = .goto second.id then 1 else 0
  statement := by
    rintro statement ss t ss' t' ⟨ht, ⟨heq, rfl, rfl⟩ | ⟨hnot, rfl, rfl⟩⟩
    · exact ⟨_, rfl, ht, .inl ⟨heq, rfl, rfl⟩⟩
    · exact ⟨ss, rfl, ht, .inr ⟨hnot, rfl, rfl⟩⟩
  terminator := by
    rintro t ss' t' ⟨⟨b, hb, rfl⟩, ⟨heq, rfl, rfl⟩ | ⟨hnot, rfl, rfl⟩⟩
    · -- The edge that is gone: the code of the second block is what is left.
      have hnot := hf.not_mem_successors
      refine .inr ⟨second.id, second, heq, findBlock?_eq_some h.ids hf.second_mem, ?_, ?_⟩
      · exact ⟨⟨second, hf.second_mem, rfl⟩, .inr ⟨hnot, rfl, rfl⟩⟩
      · have hne : second.terminator ≠ .goto second.id := by
          intro hterm
          rw [hterm] at hnot
          exact hnot (List.mem_singleton_self _)
        rw [if_neg fun hand => hne hand.2, if_pos ⟨rfl, heq⟩]
        exact Nat.zero_lt_one
    · refine .inl ⟨rfl, rfl, ?_⟩
      intro s hs
      obtain ⟨c, hc, rfl, hfind⟩ := h.find_target hb hs
      have hc' := mem_fuse first hc fun heq => hnot (heq ▸ hs)
      refine ⟨c, c.fused first second, hfind, ?_, h.fusedCode_fused hf hc⟩
      exact (findBlock?_eq_some_iff (h.fuse hf).ids).2 ⟨hc', Block.id_fused ..⟩
  entry := by
    obtain ⟨b, hb, hid, hfind⟩ := h.find_entry
    have hb' := mem_fuse first hb fun heq => hf.ne_entry (heq.symm.trans hid)
    refine ⟨b, b.fused first second, hfind, ?_, h.fusedCode_fused hf hb⟩
    exact (findBlock?_eq_some_iff (h.fuse hf).ids).2 ⟨hb', (Block.id_fused ..).trans hid⟩
  locals := rfl
  params := rfl
  result := rfl

/-! ## Rounds -/

theorem exists_perm_fuse (h : f.Closed) (hf : f.Fusible first second) :
    ∃ others, f.blocks.Perm (second :: first :: others) ∧
      (f.fuse first second).blocks.Perm (absorb second first :: others) := by
  have hnodup : f.blocks.Nodup := h.ids.of_map _
  have hne : second ≠ first := fun heq => hf.ne (by rw [heq])
  -- Without the second block, the blocks are the first one and others.
  have hkept : f.blocks.filter (fun b => b.id ≠ second.id) = f.blocks.erase second := by
    rw [hnodup.erase_eq_filter]
    refine List.filter_congr fun b hb => ?_
    have hiff : b.id = second.id ↔ b = second :=
      ⟨fun hid => List.inj_on_of_nodup_map h.ids hb hf.second_mem hid, fun heq => by rw [heq]⟩
    simp [hiff, bne, beq_eq_decide]
  have hfirst : first ∈ f.blocks.erase second := (List.mem_erase_of_ne hne.symm).2 hf.first_mem
  have hothers : ((f.blocks.erase second).erase first).map (fun b => b.fused first second) =
      (f.blocks.erase second).erase first := by
    refine (List.map_congr_left fun b hb => ?_).trans (List.map_id _)
    have hmem := List.mem_of_mem_erase (List.mem_of_mem_erase hb)
    rcases h.fused_cases hf hmem with ⟨rfl, -⟩ | ⟨-, heq⟩
    · exact absurd hb ((hnodup.erase second).not_mem_erase)
    · exact heq
  have hperm := List.perm_cons_erase hf.second_mem
  have hperm' := List.perm_cons_erase hfirst
  have hfused : first.fused first second = absorb second first := if_pos rfl
  refine ⟨(f.blocks.erase second).erase first, hperm.trans (hperm'.cons second), ?_⟩
  have hnew := hperm'.map fun b => b.fused first second
  rw [List.map_cons, hothers, hfused] at hnew
  rwa [Function.fuse, hkept]

section Rounds

variable {Q : Function → Prop}
  (hdrop : ∀ {f : Function}, f.Closed → Q f → Q f.dropUnreferenced)
  (hfuse : ∀ {f : Function} {first second : Block}, f.Closed → f.Fusible first second → Q f →
    Q (f.fuse first second))
include hdrop hfuse

omit hdrop in
theorem fuseAll_induction (h : f.Closed) (hQ : Q f) : f.fuseAll.Closed ∧ Q f.fuseAll := by
  fun_induction fuseAll f with
  | case1 => exact ⟨h, hQ⟩
  | case2 => exact ⟨h, hQ⟩
  | case3 f i j hij g hg ih =>
    obtain ⟨first, second, hf, rfl⟩ := h.fuse_of_fusible? hij hg
    exact ih (h.fuse hf) (hfuse h hf hQ)

theorem simplifyRounds_induction (h : f.Closed) (hQ : Q f) (weight n : Nat) (seen : List Nat) :
    (simplifyRounds weight n seen f).Closed ∧ Q (simplifyRounds weight n seen f) := by
  induction n generalizing f seen with
  | zero => exact ⟨h, hQ⟩
  | succ n ih =>
    obtain ⟨hround, hQround⟩ : f.simplifyRound.Closed ∧ Q f.simplifyRound :=
      fuseAll_induction hfuse h.dropUnreferenced (hdrop h hQ)
    simp only [simplifyRounds]
    split
    · exact ⟨hround, hQround⟩
    · exact ih hround hQround _

/-- What dropping blocks and fusing two blocks keep, simplification keeps. -/
theorem simplify_induction (h : f.Closed) (hQ : Q f) : f.simplify.Closed ∧ Q f.simplify :=
  simplifyRounds_induction hdrop hfuse h hQ ..

end Rounds

theorem blockRegisters_simplify_le (h : f.Closed) :
    blockRegisters f.simplify.blocks ≤ blockRegisters f.blocks := by
  refine (simplify_induction (Q := fun g => blockRegisters g.blocks ≤ blockRegisters f.blocks)
    ?_ ?_ h le_rfl).2
  · intro g _ hle
    have hblocks : g.dropUnreferenced.blocks.Sublist g.blocks := List.filter_sublist
    have hss := hblocks.flatMap Block.statements
    exact (Nat.add_le_add (Nat.add_le_add hss.length_le hss.countP_le) hblocks.countP_le).trans hle
  · intro g first second hg hf hle
    obtain ⟨others, hold, hnew⟩ := hg.exists_perm_fuse hf
    refine le_trans ?_ hle
    simp only [blockRegisters, statementRegisters,
      (hnew.flatMap_right Block.statements).length_eq, (hold.flatMap_right Block.statements).length_eq,
      (hnew.flatMap_right Block.statements).countP_eq, (hold.flatMap_right Block.statements).countP_eq,
      hnew.countP_eq, hold.countP_eq, List.flatMap_cons, List.length_append, List.countP_append,
      List.countP_cons, absorb]
    omega

end Function.Closed

/-! ## Tidy graphs -/

namespace Function.Tidy

variable {P : Statement → Prop} {f : Function}

theorem dropUnreferenced (h : f.Tidy P) : f.dropUnreferenced.Tidy P :=
  { h.closed.dropUnreferenced with
    entry := by
      have hentry := h.entry
      rcases hblocks : f.blocks with - | ⟨b, rest⟩
      · rw [hblocks] at hentry
        cases hentry
      · rw [hblocks] at hentry
        have hid : b.id = f.entry := by simpa using hentry
        simp [Function.dropUnreferenced, hblocks, hid]
    finished := fun b hb => h.finished b (mem_dropUnreferenced.1 hb).1
    statements := fun b hb => h.statements b (mem_dropUnreferenced.1 hb).1 }

theorem fuse (h : f.Tidy P) {first second : Block} (hf : f.Fusible first second) :
    (f.fuse first second).Tidy P :=
  { h.closed.fuse hf with
    entry := by
      rw [ids_fuse]
      have hentry := h.entry
      have hne := hf.ne_entry
      rcases hblocks : f.blocks with - | ⟨b, rest⟩
      · rw [hblocks] at hentry
        cases hentry
      · rw [hblocks] at hentry
        have hid : b.id = f.entry := by simpa using hentry
        simp [Function.fuse, hid, hne.symm]
    finished := h.closed.forall_mem_fuse hf h.finished (h.finished second hf.second_mem)
    statements := h.closed.forall_mem_fuse hf h.statements (List.forall_mem_append.2
      ⟨h.statements first hf.first_mem, h.statements second hf.second_mem⟩) }

end Function.Tidy

structure Function.Improves (P : Statement → Prop) (f g : Function) : Prop where
  tidy : g.Tidy P
  refines : ∀ (p : Program) (decl : StmtId), p decl = some (.graph f) →
    Refines p (Function.update p decl (some (.graph g)))
  locals : g.locals = f.locals
  params : g.params = f.params
  result : g.result = f.result

namespace Function.Improves

variable {P : Statement → Prop} {f g h : Function}

theorem refl (hf : f.Tidy P) : f.Improves P f where
  tidy := hf
  refines := by
    intro p decl hp
    rw [← hp, Function.update_eq_self]
    exact Refines.refl p
  locals := rfl
  params := rfl
  result := rfl

theorem trans (hg : f.Improves P g) (hh : g.Improves P h) : f.Improves P h where
  tidy := hh.tidy
  refines := by
    intro p decl hp
    have hstep := hh.refines (Function.update p decl (some (.graph g))) decl
      (Function.update_self ..)
    rw [Function.update_idem] at hstep
    exact (hg.refines p decl hp).trans hstep
  locals := hh.locals.trans hg.locals
  params := hh.params.trans hg.params
  result := hh.result.trans hg.result

theorem of_rewriting (W : f.Rewriting g) (hg : g.Tidy P) : f.Improves P g where
  tidy := hg
  refines _ _ hp := W.simulation.refines hp
  locals := W.locals
  params := W.params
  result := W.result

end Function.Improves

namespace Function.Tidy

variable {P : Statement → Prop} {f : Function}

theorem improves_simplify (h : f.Tidy P) : f.Improves P f.simplify := by
  refine (Closed.simplify_induction (Q := f.Improves P) ?_ ?_ h.closed (.refl h)).2
  · intro g hg himproves
    exact himproves.trans (.of_rewriting hg.dropRewriting himproves.tidy.dropUnreferenced)
  · intro g first second hg hf himproves
    exact himproves.trans (.of_rewriting (hg.fuseRewriting hf) (himproves.tidy.fuse hf))

end Function.Tidy

/-! ## Programs -/

/-- A definition with its graph simplified. -/
def Definition.simplify : Definition → Definition
  | .graph f => .graph f.simplify
  | .foreign symbol => .foreign symbol

/-- A program with the graphs of the given functions simplified. -/
def Program.simplify (p : Program) (ids : List StmtId) : Program := fun d =>
  if d ∈ ids then (p d).map Definition.simplify else p d

theorem refines_simplify {p : Program}
    (hp : ∀ d f, p d = some (.graph f) → ∃ P, f.Tidy P) (ids : List StmtId) :
    Refines p (p.simplify ids) := by
  induction ids with
  | nil =>
    have heq : p.simplify [] = p := funext fun d => if_neg (List.not_mem_nil)
    rw [heq]
    exact .refl p
  | cons id rest ih =>
    -- One more function is simplified, unless it is already or there is no graph.
    by_cases hid : id ∈ rest
    · have heq : p.simplify (id :: rest) = p.simplify rest := by
        funext d
        have hiff : d ∈ id :: rest ↔ d ∈ rest := by
          rw [List.mem_cons, or_iff_right_of_imp]
          rintro rfl
          exact hid
        simp only [Program.simplify, hiff]
      rw [heq]
      exact ih
    · have heq : p.simplify (id :: rest) =
          Function.update (p.simplify rest) id ((p id).map Definition.simplify) := by
        funext d
        by_cases hd : d = id
        · subst hd
          rw [Function.update_self]
          exact if_pos List.mem_cons_self
        · rw [Function.update_of_ne hd]
          simp only [Program.simplify, List.mem_cons, hd, false_or]
      have hrest : p.simplify rest id = p id := if_neg hid
      rw [heq]
      cases hdef : p id with
      | none =>
        rw [hdef] at hrest
        rw [Option.map_none, ← hrest, Function.update_eq_self]
        exact ih
      | some definition =>
        rw [hdef] at hrest
        cases definition with
        | foreign symbol =>
          rw [Option.map_some, Definition.simplify, ← hrest, Function.update_eq_self]
          exact ih
        | graph f =>
          obtain ⟨P, hf⟩ := hp id f hdef
          exact ih.trans (hf.improves_simplify.refines _ _ hrest)

end WordLang.Flow
