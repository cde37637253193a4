import WordLang.Flow

/-!
# Simplifying control-flow graphs

A round of simplification drops the blocks that no edge leads to, and fuses pairs of blocks that
are joined by an edge that is the only one out of the first and the only one into the second.
Rounds are repeated until a graph of the same size was seen before, at most `maxRounds` times.

## Main definitions

* `Flow.Function.dropUnreferenced`: drops the blocks that no edge leads to
* `Flow.Function.fusible?`, `Flow.Function.fuse?`, `Flow.Function.fuseAll`: fusing blocks
* `Flow.Function.simplify`: rounds of both

## Main results

* `Flow.Function.length_fuse?_lt`: fusing lowers the number of blocks
-/

namespace WordLang.Flow

/-- The largest number of rounds. -/
def maxRounds : Nat := 32

/-- The number of edges to a block. -/
def edgeCount (blocks : List Block) (id : BlockId) : Nat :=
  (blocks.flatMap fun b => b.terminator.successors).count id

namespace Function

/-- Drops the blocks that no edge leads to, other than the entry. -/
def dropUnreferenced (f : Function) : Function :=
  { f with blocks := f.blocks.filter fun b => b.id = f.entry || 0 < edgeCount f.blocks b.id }

/-- The successor that a block can be fused with. -/
def fusibleSuccessor? (f : Function) (b : Block) : Option BlockId :=
  match b.terminator.successors with
  | [s] => if s ≠ b.id ∧ s ≠ f.entry ∧ edgeCount f.blocks s = 1 then some s else none
  | _ => none

/-- The first pair of blocks that can be fused. -/
def fusible? (f : Function) : Option (BlockId × BlockId) :=
  f.blocks.findSome? fun b => (f.fusibleSuccessor? b).map fun s => (b.id, s)

/-- A block with the statements of another after its own and with its terminator. -/
def absorb (absorbed b : Block) : Block :=
  { b with statements := b.statements ++ absorbed.statements, terminator := absorbed.terminator }

/-- Fuses the block `second` into the block `first`, if `second` exists. -/
def fuse? (f : Function) (first second : BlockId) : Option Function :=
  (findBlock? f.blocks second).map fun absorbed =>
    { f with
      blocks := (f.blocks.filter fun b => b.id ≠ second).map fun b =>
        if b.id = first then absorb absorbed b else b
      exit := if f.exit = second then first else f.exit }

theorem length_fuse?_lt {f g : Function} {first second : BlockId}
    (h : f.fuse? first second = some g) : g.blocks.length < f.blocks.length := by
  simp only [fuse?, Option.map_eq_some_iff] at h
  obtain ⟨absorbed, hfind, rfl⟩ := h
  have hmem := List.mem_of_find?_eq_some hfind
  have hid := List.find?_some hfind
  simp only [List.length_map, List.length_filter_lt_length_iff_exists]
  exact ⟨absorbed, hmem, by simpa using hid⟩

/-- Fuses blocks until none can be fused. -/
def fuseAll (f : Function) : Function :=
  match f.fusible? with
  | none => f
  | some (first, second) =>
    match _h : f.fuse? first second with
    | none => f
    | some g => g.fuseAll
termination_by f.blocks.length
decreasing_by exact length_fuse?_lt _h

/-- The size of a graph in which a block counts `weight` besides its statements. -/
def size (f : Function) (weight : Nat) : Nat := f.blocks.length * weight + f.statementCount

/-- One more than the number of statements of the longest block. -/
def blockWeight (f : Function) : Nat :=
  (f.blocks.map fun b => b.statements.length).foldl max 0 + 1

/-- One round of simplification. -/
def simplifyRound (f : Function) : Function := f.dropUnreferenced.fuseAll

/-- At most `n` rounds, up to one that gives a graph of a size in `seen`. -/
def simplifyRounds (weight : Nat) : Nat → List Nat → Function → Function
  | 0, _, f => f
  | n + 1, seen, f =>
    let f := f.simplifyRound
    if f.size weight ∈ seen then f else simplifyRounds weight n (f.size weight :: seen) f

/-- Simplifies a graph. -/
def simplify (f : Function) : Function :=
  simplifyRounds f.blockWeight maxRounds [f.size f.blockWeight] f

end Function

end WordLang.Flow
