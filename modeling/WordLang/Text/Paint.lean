/-!
# Painted text

Listings are painted: a fragment has a colour or none. A coloured rendering puts each painted
fragment between the terminal's control sequence for its colour and the one that ends colours;
a plain rendering keeps the text only.

## Main definitions

* `Colour`, `Colour.code`: the colours and their terminal codes
* `Fragment`, `render`: pieces of text and their rendering
-/

namespace WordLang.Text

/-- The colours of a listing. -/
inductive Colour where
  | red
  | green
  | blue
  | magenta
  | cyan
  | white
  | brightBlack
  | brightRed
deriving Repr, DecidableEq, Inhabited

/-- The terminal's code for a colour. -/
def Colour.code : Colour → Nat
  | .red => 31
  | .green => 32
  | .blue => 34
  | .magenta => 35
  | .cyan => 36
  | .white => 37
  | .brightBlack => 90
  | .brightRed => 91

/-- A piece of text, with its colour if it has one. -/
structure Fragment where
  colour : Option Colour := none
  text : String
deriving Repr, DecidableEq, Inhabited

/-- A piece of text without a colour. -/
def plain (text : String) : Fragment := ⟨none, text⟩

/-- A piece of text in the colour `c`. -/
def paint (c : Colour) (text : String) : Fragment := ⟨some c, text⟩

/-- The control sequence that starts a colour. -/
def Colour.start (c : Colour) : List Char := '\x1b' :: '[' :: (toString c.code).toList ++ ['m']

/-- The control sequence that ends colours. -/
def reset : List Char := ['\x1b', '[', '0', 'm']

/-- A text in the colour `c`: where it ends colours itself, `c` starts again. -/
def Colour.resume (c : Colour) : List Char → List Char
  | '\x1b' :: '[' :: '0' :: 'm' :: rest => reset ++ c.start ++ c.resume rest
  | x :: rest => x :: c.resume rest
  | [] => []

/-- A fragment with its control sequences, or its text only. -/
def Fragment.render (coloured : Bool) (f : Fragment) : String :=
  match coloured, f.colour with
  | true, some c => String.ofList (c.start ++ c.resume f.text.toList ++ reset)
  | _, _ => f.text

/-- A sequence of fragments with control sequences, or its text only. -/
def render (coloured : Bool) (fs : List Fragment) : String :=
  String.join (fs.map (Fragment.render coloured))

end WordLang.Text
