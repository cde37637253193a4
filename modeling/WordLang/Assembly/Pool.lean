import WordLang.Assembly.Register
import WordLang.Id
import WordLang.Table

/-!
# The register pool

The pool maps live virtual registers to machine registers. A virtual register takes the first
machine register that is free when it is first used, and keeps it until it is freed.

## Main definitions

* `Assembly.Pool`: the machine registers of the live virtual registers
* `Assembly.Pool.assign`, `Assembly.Pool.free`, `Assembly.Pool.isOccupied`: the operations
-/

namespace WordLang.Assembly

/-- The machine registers of the live virtual registers. -/
structure Pool where
  /-- The machine register of each live virtual register. -/
  assigned : Table Register := {}
deriving Repr, Inhabited

namespace Pool

/-- Whether some live virtual register has a machine register. -/
def isOccupied (pool : Pool) (physical : Register) : Bool :=
  pool.assigned.entries.any fun e => e.2 = physical

/-- The first machine register that is free. -/
def firstFree? (pool : Pool) : Option Register :=
  Register.preferred.find? fun r => !pool.isOccupied r

/-- The machine register of a virtual register, which becomes live; none if all are taken. -/
def assign (pool : Pool) (virtual : RegisterId) : Option (Register × Pool) :=
  match pool.assigned.find? virtual with
  | some physical => some (physical, pool)
  | none =>
    pool.firstFree?.map fun physical => (physical, ⟨pool.assigned.insert virtual physical⟩)

/-- Ends the life of a virtual register. -/
def free (pool : Pool) (virtual : RegisterId) : Pool := ⟨pool.assigned.erase virtual⟩

/-- The live virtual registers, ascending. -/
def live (pool : Pool) : List RegisterId := pool.assigned.keys

end Pool

end WordLang.Assembly
