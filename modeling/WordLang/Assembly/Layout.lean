import WordLang.Id
import WordLang.Table

/-!
# Frame layout

The slots of a function lie around its frame pointer. Parameters lie above it, beyond the saved
frame pointer and the return address, the last one lowest; other slots lie below it in order of
declaration. Every slot has room for a multiple of eight bytes. Below the frame pointer, a slot starts
where its room starts. Above it, rooms follow each other from the return address up, and a parameter
starts where its room ends: parameters of eight bytes lie one above the other, and a wider one reaches
into the next. Offsets are words, because addresses are: beyond the largest word, a distance is the
negative word that leads to the same address.

## Main definitions

* `Assembly.alignTo`: rounding up
* `Assembly.SlotDecls`, `Assembly.Layout`: the declared slots, and their offsets
* `Assembly.SlotDecls.layout`: the layout of declared slots
-/

namespace WordLang.Assembly

/-- The least multiple of `alignment` that is at least `value`. -/
def alignTo (value alignment : Nat) : Nat := (value + alignment - 1) / alignment * alignment

/-- The declared slots of a function with their sizes, in order of declaration. -/
structure SlotDecls where
  params : List (RegisterId × Nat) := []
  locals : List (RegisterId × Nat) := []
deriving Repr, Inhabited

namespace SlotDecls

/-- Declares the slot of a parameter. -/
def addParam (decls : SlotDecls) (slot : RegisterId) (size : Nat) : SlotDecls :=
  { decls with params := decls.params ++ [(slot, size)] }

/-- Declares another slot. -/
def addLocal (decls : SlotDecls) (slot : RegisterId) (size : Nat) : SlotDecls :=
  { decls with locals := decls.locals ++ [(slot, size)] }

end SlotDecls

/-- The offsets of the slots of a function. -/
structure Layout where
  frameSize : Nat
  offsets : Table Int64
deriving Repr, Inhabited

/-- The offset of a slot from the frame pointer. -/
def Layout.offset? (layout : Layout) (slot : RegisterId) : Option Int64 :=
  layout.offsets.find? slot

/-- The offsets of slots whose rooms follow each other from `base` up, each at the end of its room. -/
def offsetsAbove (base : Nat) : List (RegisterId × Nat) → List (RegisterId × Int64)
  | [] => []
  | (slot, size) :: rest => (slot, Int64.ofNat (base + alignTo size 8)) ::
      offsetsAbove (base + alignTo size 8) rest

/-- The offsets of slots one below the other, the first of them right below `-base`. -/
def offsetsBelow (base : Nat) : List (RegisterId × Nat) → List (RegisterId × Int64)
  | [] => []
  | (slot, size) :: rest => (slot, -Int64.ofNat (base + alignTo size 8)) ::
      offsetsBelow (base + alignTo size 8) rest

/-- The number of bytes that slots take. -/
def totalSize : List (RegisterId × Nat) → Nat
  | [] => 0
  | (_, size) :: rest => alignTo size 8 + totalSize rest

/-- The layout of declared slots. -/
def SlotDecls.layout (decls : SlotDecls) : Layout where
  frameSize := totalSize decls.locals
  offsets := Table.ofList (offsetsAbove 8 decls.params.reverse ++ offsetsBelow 0 decls.locals)

end WordLang.Assembly
