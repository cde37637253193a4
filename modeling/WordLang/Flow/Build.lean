import WordLang.Flow
import WordLang.Typing.Check

/-!
# Building control-flow graphs

The graph of a function grows block by block; statements go to the end of the current block. The
first two blocks are the entry and the exit of the function. Storage cell 0 holds the result, the
parameters come next and declared cells follow in order.

## Main definitions

* `Flow.Cells`, `Flow.expression`: the statements that compute an expression
* `Flow.Builder`, `Flow.Build`: graphs that are not finished, and steps that add to them
* `Flow.buildFunction`: the graph of a function
-/

namespace WordLang.Flow

/-! ## Expressions -/

/-- The storage cells of parameters and declared cells. -/
structure Cells where
  params : List LocalId
  declared : Table LocalId := {}

/-- The storage cell that a binding refers to. -/
def Cells.find (cells : Cells) (binding : Binding) : Except Failure LocalId :=
  let cell? :=
    match binding with
    | .parameter _ index => cells.params[index]?
    | .local decl => cells.declared.find? decl
    | .function _ => none
  match cell? with
  | some cell => .ok cell
  | none => .error (.internal (.noLocal binding))

/-- What an expression that must be a name refers to. -/
def bindingOf (r : Resolutions) (e : Expr) : Except Failure Binding :=
  match r.bindings.find? e.id with
  | some binding => .ok binding
  | none => .error (.internal .unresolved)

section

variable (r : Resolutions) (cells : Cells)

mutual

/-- The statements that push the value of an expression: operands and arguments from left to
right, the callee last. -/
def expression : Expr → Except Failure (List Statement)
  | .error _ => .error (.internal .errorExpression)
  | .name tag ident => do
    match ← bindingOf r (.name tag ident) with
    | .function decl => return [.push (.function decl)]
    | binding => return [.load (← cells.find binding)]
  | .int _ value => return [.push (.int value)]
  | .string _ text => return [.push (.string text)]
  | .call _ callee args => do
    let args' ← expressions args
    let callee ← expression callee
    return args' ++ callee ++ [.call args.length]
  | .unary _ .negate operand => do
    let operand ← expression operand
    return .push (.int 0) :: operand ++ [.binary .sub]
  | .unary _ .not operand => do
    let operand ← expression operand
    return operand ++ [.push (.int 0), .binary .eq]
  | .binary _ op lhs rhs => do
    let lhs ← expression lhs
    let rhs ← expression rhs
    return lhs ++ rhs ++ [.binary op]

/-- The statements that push the values of a list of expressions. -/
def expressions : List Expr → Except Failure (List Statement)
  | [] => return []
  | e :: rest => do
    let first ← expression e
    return first ++ (← expressions rest)

end

end

/-! ## Statements -/

/-- A graph that is not finished. Blocks are named in the order in which they are added. -/
structure Builder where
  locals : List Local
  cells : Cells
  blocks : List Block := []
  drawn : Nat := 0
  current : BlockId := 0
  /-- The blocks after the loops entered so far. -/
  loopExits : Table BlockId := {}

/-- A step that adds to a graph and may ask for types. -/
abbrev Build := StateT Builder Query

namespace Build

/-- Adds a block; gives its identifier. It takes the place of a block with its identifier. -/
def newBlock : Build BlockId :=
  modifyGet fun b =>
    let id := idOfNat b.drawn
    (id, { b with blocks := insertBlock { id } b.blocks, drawn := b.drawn + 1 })

/-- Changes a block. -/
def update (id : BlockId) (change : Block → Block) : Build Unit := do
  let b ← get
  if id < b.blocks.length then
    set { b with blocks := b.blocks.modify id change }
  else
    throw (.internal (.missingBlock id))

/-- Adds statements to the current block. -/
def emit (statements : List Statement) : Build Unit := do
  update (← get).current fun block => { block with statements := block.statements ++ statements }

/-- Says where a block goes on. -/
def terminate (id : BlockId) (terminator : Terminator) : Build Unit :=
  update id fun block => { block with terminator := terminator }

/-- Makes a block the current one. -/
def continueAt (id : BlockId) : Build Unit := modify fun b => { b with current := id }

/-- Says where the current block goes on. -/
def goto (target : BlockId) : Build Unit := do
  terminate (← get).current (.goto target)

/-- Notes the block after a loop. -/
def setLoopExit (loop : StmtId) (exit : BlockId) : Build Unit :=
  modify fun b => { b with loopExits := b.loopExits.insert loop exit }

/-- Adds a storage cell for a declaration. -/
def newCell (decl : StmtId) (type : Ty) (name : String) : Build LocalId :=
  modifyGet fun b =>
    let id := Numbered.nextId b.locals
    (id, { b with
      locals := b.locals ++ [⟨id, type, some name⟩]
      cells := { b.cells with declared := b.cells.declared.insert decl id } })

/-- Adds the statements that push the value of an expression. -/
def expression (r : Resolutions) (e : Expr) : Build Unit := do
  match Flow.expression r (← get).cells e with
  | .ok statements => emit statements
  | .error failure => throw failure

/-- The block after the loop that a `break` ends. -/
def loopExit (r : Resolutions) (id : StmtId) : Build BlockId := do
  match (r.breakTargets.find? id).bind (← get).loopExits.find? with
  | some exit => return exit
  | none => throw (.internal .noLoopExit)

/-- The storage cell that is assigned to. -/
def subjectCell (r : Resolutions) (subject : Expr) : Build LocalId := do
  let cells := (← get).cells
  match bindingOf r subject >>= cells.find with
  | .ok cell => return cell
  | .error failure => throw failure

/-- The storage cell of the result. -/
def resultCell : LocalId := 0

/-- The block at which a function starts. -/
def entryBlock : BlockId := 0

/-- The block at which a function ends. -/
def exitBlock : BlockId := 1

section

variable (r : Resolutions)

mutual

/-- Lowers a statement. Functions within it have graphs of their own. -/
def statement : Stmt → Build Unit
  | .error _ => throw (.internal .errorStatement)
  | .function _ _ => pure ()
  | .declare tag ident _ value => do
    let type ← Query.ofCell r tag.id
    match value with
    | some value => expression r value
    | none => pure ()
    let cell ← newCell tag.id type ident.name
    if value.isSome then emit [.store cell]
  | .loop tag body => do
    let inside ← newBlock
    let exit ← newBlock
    goto inside
    setLoopExit tag.id exit
    continueAt inside
    block body
    goto inside
    continueAt exit
  | .while tag condition body => do
    let test ← newBlock
    goto test
    continueAt test
    expression r condition
    let inside ← newBlock
    let exit ← newBlock
    terminate test (.branch inside exit)
    setLoopExit tag.id exit
    continueAt inside
    block body
    goto test
    continueAt exit
  | .choose _ condition truthy falsy => do
    expression r condition
    let test := (← get).current
    let truthyStart ← newBlock
    continueAt truthyStart
    block truthy
    let truthyEnd := (← get).current
    let falsyBounds ← alternative falsy
    let exit ← newBlock
    terminate truthyEnd (.goto exit)
    match falsyBounds with
    | some (falsyStart, falsyEnd) =>
      terminate falsyEnd (.goto exit)
      terminate test (.branch truthyStart falsyStart)
    | none =>
      -- Without an alternative the block after the choice stands in for it.
      terminate test (.branch truthyStart exit)
    continueAt exit
  | .return _ value => do
    match value with
    | some value =>
      expression r value
      emit [.store resultCell]
    | none => pure ()
    goto exitBlock
    -- What follows in the block is unreachable, but it has a graph too.
    continueAt (← newBlock)
  | .break tag => do
    goto (← loopExit r tag.id)
    continueAt (← newBlock)
  | .assign _ subject value => do
    let cell ← subjectCell r subject
    expression r value
    emit [.store cell]
  | .eval _ expr => do
    expression r expr
    emit [.pop]

/-- Lowers a block. -/
def block : WordLang.Block → Build Unit
  | ⟨_, list⟩ => statements list

/-- Lowers a block that may be absent; gives the blocks at which it starts and ends. -/
def alternative : Option WordLang.Block → Build (Option (BlockId × BlockId))
  | none => return none
  | some b => do
    let start ← newBlock
    continueAt start
    block b
    return some (start, (← get).current)

/-- Lowers a list of statements. -/
def statements : List Stmt → Build Unit
  | [] => pure ()
  | s :: rest => do
    statement s
    statements rest

end

end

/-- Lowers the body of a function and ends it. -/
def body (r : Resolutions) (b : WordLang.Block) : Build Unit := do
  let entry ← newBlock
  let exit ← newBlock
  continueAt entry
  block r b
  goto exit
  terminate exit .return

end Build

/-- The storage cells of parameters with given types, numbered from `first` on. -/
def paramLocals (first : Nat) : List Param → List Ty → List Local
  | param :: params, type :: types =>
    ⟨idOfNat first, type, some param.ident.name⟩ :: paramLocals (first + 1) params types
  | _, _ => []

/-- The graph of a function that has a body. -/
def buildFunction (r : Resolutions) (id : StmtId) : Query Function := do
  match r.function? id with
  | none => Query.violated (.notFunction id)
  | some decl =>
    match decl.body with
    | none => Query.violated (.noBody decl.ident.name)
    | some b =>
      match ← Query.ofFunction r id with
      | .function _ paramTypes resultType =>
        let paramCells := paramLocals 1 decl.params paramTypes
        let params := paramCells.map Local.id
        let start : Builder :=
          { locals := ⟨Build.resultCell, resultType, none⟩ :: paramCells, cells := { params } }
        let (_, built) ← (Build.body r b).run start
        return {
          decl := id
          name := decl.ident.name
          locals := built.locals
          params
          result := Build.resultCell
          blocks := built.blocks
          entry := Build.entryBlock
          exit := Build.exitBlock }
      | _ => Query.violated .noFunctionType

end WordLang.Flow
