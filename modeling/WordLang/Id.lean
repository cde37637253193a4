/-!
# Identifiers

Statements, expressions, written types, blocks, storage cells, registers, labels, functions and
string constants are named by numbers of 32 bits. Whatever is numbered by position or by a counter
gets the low 32 bits of that number, so the first `idCount` things have names of their own and
later ones share them. A supply, which numbers the nodes of trees, counts on, and so do string
constants: their numbers are identifiers for trees of up to `idCount` nodes of a category.

## Main definitions

* `idOfNat n`: the identifier a number stands for
* `Supply`, `Supply.take`: fresh numbers
* `Numbered.push`, `Numbered.replace?`: sequences whose entries are named by position
-/

namespace WordLang

/-- Identifies a statement. -/
abbrev StmtId := Nat

/-- Identifies an expression. -/
abbrev ExprId := Nat

/-- Identifies a block of a control-flow graph. -/
abbrev BlockId := Nat

/-- Identifies a storage cell of a function. -/
abbrev LocalId := Nat

/-- Identifies a virtual register, or the slot of a storage cell. -/
abbrev RegisterId := Nat

/-- Identifies a jump target of a function. -/
abbrev LabelId := Nat

/-- Identifies a function of a linear program. -/
abbrev FunctionId := Nat

/-- Identifies a string constant. -/
abbrev StringId := Nat

/-- The number of identifiers of a category: those of 32 bits. -/
def idCount : Nat := 4294967296

/-- The identifier a number stands for: its low 32 bits. -/
def idOfNat (n : Nat) : Nat := n % idCount

theorem idOfNat_of_lt {n : Nat} (h : n < idCount) : idOfNat n = n := Nat.mod_eq_of_lt h

/-- The first `idCount` numbers are identifiers. -/
theorem map_idOfNat_range {n : Nat} (h : n ≤ idCount) :
    (List.range n).map idOfNat = List.range n := by
  refine (List.map_congr_left fun i hi => ?_).trans (List.map_id _)
  exact idOfNat_of_lt (Nat.lt_of_lt_of_le (List.mem_range.1 hi) h)

/-- A supply of numbers; every number from `next` on is unused. -/
structure Supply where
  next : Nat := 0
deriving Repr, DecidableEq, Inhabited

/-- A fresh number and the supply without it. -/
def Supply.take (s : Supply) : Nat × Supply := (s.next, ⟨s.next + 1⟩)

@[simp] theorem Supply.take_fst (s : Supply) : s.take.1 = s.next := rfl

@[simp] theorem Supply.take_snd_next (s : Supply) : s.take.2.next = s.next + 1 := rfl

namespace Numbered

variable {α : Type}

/-- The identifier of the entry that is pushed next. -/
def nextId (xs : List α) : Nat := idOfNat xs.length

/-- The identifiers of all entries. -/
def ids (xs : List α) : List Nat := (List.range xs.length).map idOfNat

/-- Appends an entry; gives its identifier and the longer sequence. -/
def push (xs : List α) (x : α) : Nat × List α := (nextId xs, xs ++ [x])

/-- Replaces the entry at `i`; gives the old entry and the new sequence. -/
def replace? (xs : List α) (i : Nat) (x : α) : Option (α × List α) :=
  xs[i]?.map fun old => (old, xs.set i x)

/-- The entries in brackets, divided by commas. -/
def bracketed (render : α → String) (xs : List α) : String :=
  "[" ++ ", ".intercalate (xs.map render) ++ "]"

/-- As long as identifiers last, an entry is found under its identifier. -/
theorem getElem?_push {xs : List α} (h : xs.length < idCount) (x : α) :
    (push xs x).2[(push xs x).1]? = some x := by
  simp [push, nextId, idOfNat_of_lt h]

end Numbered

end WordLang
