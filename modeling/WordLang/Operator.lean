/-!
# Operators

The operators of the language and their meaning on machine words: comparisons give one or zero,
sums, differences and products wrap around, quotients and remainders truncate toward zero and are
undefined for a zero divisor and for the one quotient that does not fit.

## Main definitions

* `UnaryOp`, `BinaryOp`: the operators and their names
* `BinaryOp.eval?`: the meaning of a binary operator
-/

namespace WordLang

/-- The operators with one operand. -/
inductive UnaryOp where
  | not
  | negate
deriving Repr, DecidableEq, Inhabited

/-- The operators with two operands. -/
inductive BinaryOp where
  | lt
  | gt
  | le
  | ge
  | eq
  | ne
  | add
  | sub
  | mul
  | div
  | mod
deriving Repr, DecidableEq, Inhabited

/-- The sign of a unary operator. -/
def UnaryOp.sign : UnaryOp → String
  | .not => "!"
  | .negate => "-"

namespace BinaryOp

/-- The name of a binary operator. -/
def name : BinaryOp → String
  | .lt => "lt"
  | .gt => "gt"
  | .le => "le"
  | .ge => "ge"
  | .eq => "eq"
  | .ne => "ne"
  | .add => "add"
  | .sub => "sub"
  | .mul => "mul"
  | .div => "div"
  | .mod => "mod"

/-- All binary operators. -/
def all : List BinaryOp := [.lt, .gt, .le, .ge, .eq, .ne, .add, .sub, .mul, .div, .mod]

/-- The binary operator with a given name. -/
def ofName? (name : String) : Option BinaryOp := all.find? fun op => op.name = name

/-- Whether an operator compares its operands. -/
def isComparison : BinaryOp → Bool
  | .lt | .gt | .le | .ge | .eq | .ne => true
  | _ => false

/-- One for a comparison that holds, zero for one that does not. -/
def truth (b : Bool) : Int64 := if b then 1 else 0

/-- Whether a quotient is defined: the divisor is not zero and the quotient fits. -/
def divides (lhs rhs : Int64) : Bool := rhs ≠ 0 && !(lhs = Int64.minValue && rhs = -1)

/-- The value of an operator on two words, if it has one. -/
def eval? (op : BinaryOp) (lhs rhs : Int64) : Option Int64 :=
  match op with
  | .lt => some (truth (lhs < rhs))
  | .gt => some (truth (rhs < lhs))
  | .le => some (truth (lhs ≤ rhs))
  | .ge => some (truth (rhs ≤ lhs))
  | .eq => some (truth (lhs = rhs))
  | .ne => some (truth (lhs ≠ rhs))
  | .add => some (lhs + rhs)
  | .sub => some (lhs - rhs)
  | .mul => some (lhs * rhs)
  | .div => if divides lhs rhs then some (lhs / rhs) else none
  | .mod => if divides lhs rhs then some (lhs % rhs) else none

end BinaryOp

end WordLang
