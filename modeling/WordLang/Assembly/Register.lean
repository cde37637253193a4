/-!
# Machine registers

The sixteen general registers, those that foreign code passes arguments in, and those that virtual
registers are mapped to.
-/

namespace WordLang.Assembly

/-- The general registers. -/
inductive Register where
  | rax
  | rbx
  | rcx
  | rdx
  | rsi
  | rdi
  | rbp
  | rsp
  | r8
  | r9
  | r10
  | r11
  | r12
  | r13
  | r14
  | r15
deriving Repr, DecidableEq, Inhabited

namespace Register

/-- All registers. -/
def all : List Register :=
  [.rax, .rbx, .rcx, .rdx, .rsi, .rdi, .rbp, .rsp, .r8, .r9, .r10, .r11, .r12, .r13, .r14, .r15]

/-- The name of a register. -/
def name : Register → String
  | .rax => "rax"
  | .rbx => "rbx"
  | .rcx => "rcx"
  | .rdx => "rdx"
  | .rsi => "rsi"
  | .rdi => "rdi"
  | .rbp => "rbp"
  | .rsp => "rsp"
  | .r8 => "r8"
  | .r9 => "r9"
  | .r10 => "r10"
  | .r11 => "r11"
  | .r12 => "r12"
  | .r13 => "r13"
  | .r14 => "r14"
  | .r15 => "r15"

/-- The name of the low byte of a register. -/
def lowByteName : Register → String
  | .rax => "al"
  | .rbx => "bl"
  | .rcx => "cl"
  | .rdx => "dl"
  | .rsi => "sil"
  | .rdi => "dil"
  | .rbp => "bpl"
  | .rsp => "spl"
  | .r8 => "r8b"
  | .r9 => "r9b"
  | .r10 => "r10b"
  | .r11 => "r11b"
  | .r12 => "r12b"
  | .r13 => "r13b"
  | .r14 => "r14b"
  | .r15 => "r15b"

/-- The register with a given name. -/
def ofName? (name : String) : Option Register := all.find? fun r => r.name = name

/-- The registers that foreign code passes arguments in, in order. -/
def arguments : List Register := [.rdi, .rsi, .rdx, .rcx, .r8, .r9]

/-- The registers that virtual registers are mapped to, in order of preference. -/
def preferred : List Register := [.rax, .rdi, .rsi, .rdx, .rcx, .r8, .r9, .r10, .r11]

end Register

end WordLang.Assembly
