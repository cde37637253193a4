import WordLang.Operator
import WordLang.Ty

/-!
# Control-flow graphs

A function is a graph of blocks. The statements of a block work on an operand stack and on storage
cells; its terminator says where to go on. Blocks are listed in ascending order of identifiers.

## Main definitions

* `Flow.Value`, `Flow.Statement`, `Flow.Terminator`, `Flow.Block`, `Flow.Function`: graphs
* `Flow.Terminator.successors`, `Flow.Function.predecessors`: edges
* `Flow.insertBlock`: a block at its place in a list of blocks
-/

namespace WordLang.Flow

/-- A constant. -/
inductive Value where
  | int (value : Int64)
  | string (text : String)
  | function (decl : StmtId)
deriving Repr, DecidableEq, Inhabited

/-- A statement of a block. -/
inductive Statement where
  /-- Pushes a constant. -/
  | push (value : Value)
  /-- Drops the top of the stack. -/
  | pop
  /-- Pushes the value of a storage cell. -/
  | load (cell : LocalId)
  /-- Pops a value into a storage cell. -/
  | store (cell : LocalId)
  /-- Pops a function and as many arguments, and pushes the result. -/
  | call (arguments : Nat)
  /-- Pops the right operand and then the left one, and pushes the value. -/
  | binary (op : BinaryOp)
deriving Repr, DecidableEq, Inhabited

/-- Where a block goes on. -/
inductive Terminator where
  /-- The block was given up. -/
  | error
  /-- The block is not finished. -/
  | unset
  /-- Ends the activation with the value of the result cell. -/
  | return
  /-- Goes on at a block. -/
  | goto (target : BlockId)
  /-- Pops a value; goes on at `truthy` if it is not zero and at `falsy` if it is. -/
  | branch (truthy falsy : BlockId)
deriving Repr, DecidableEq, Inhabited

/-- The blocks that may come next, each once. -/
def Terminator.successors : Terminator → List BlockId
  | .goto target => [target]
  | .branch truthy falsy => if truthy = falsy then [truthy] else [truthy, falsy]
  | _ => []

/-- A block: statements that run one after another, and where to go on. -/
structure Block where
  id : BlockId
  statements : List Statement := []
  terminator : Terminator := .unset
deriving Repr, DecidableEq, Inhabited

/-- A storage cell. -/
structure Local where
  id : LocalId
  type : Ty
  name : Option String
deriving Repr, Inhabited

/-- A function as a graph of blocks. -/
structure Function where
  /-- The statement that declares the function. -/
  decl : StmtId
  name : String
  locals : List Local
  params : List LocalId
  result : LocalId
  blocks : List Block
  entry : BlockId
  exit : BlockId
deriving Repr, Inhabited

/-- Puts a block at its place in a list of blocks; it takes the place of a block with its
identifier. -/
def insertBlock (block : Block) : List Block → List Block
  | [] => [block]
  | b :: rest =>
    if block.id < b.id then block :: b :: rest
    else if block.id = b.id then block :: rest
    else b :: insertBlock block rest

/-- The blocks of a list in ascending order; of two with one identifier the last one counts. -/
def sortBlocks (blocks : List Block) : List Block :=
  blocks.foldl (fun sorted b => insertBlock b sorted) []

/-- The block with a given identifier. -/
def findBlock? (blocks : List Block) (id : BlockId) : Option Block :=
  blocks.find? fun b => b.id = id

namespace Function

/-- The blocks with an edge to a block, in order. -/
def predecessors (f : Function) (id : BlockId) : List BlockId :=
  (f.blocks.filter fun b => id ∈ b.terminator.successors).map Block.id

/-- The number of statements. -/
def statementCount (f : Function) : Nat := (f.blocks.flatMap Block.statements).length

end Function

end WordLang.Flow
