import WordLang.Flow
import WordLang.Text.Paint
import WordLang.Text.Quoted

/-!
# Listings of control-flow graphs

A graph is listed with its signature, its storage cells and its blocks.
-/

namespace WordLang.Flow

open Text (Fragment paint plain)

/-- The listing of a constant. -/
def Value.listing : Value → Fragment
  | .int value => paint .magenta (toString value.toInt)
  | .string text => paint .green (Text.quoted text)
  | .function decl => paint .blue ("fn#" ++ toString decl)

/-- The listing of a statement. -/
def Statement.listing : Statement → List Fragment
  | .push value => [paint .cyan "push", plain " ", value.listing]
  | .pop => [paint .cyan "pop"]
  | .load cell => [paint .cyan "load", plain (" _" ++ toString cell)]
  | .store cell => [paint .cyan "store", plain (" _" ++ toString cell)]
  | .call arguments => [paint .cyan "call", plain (" " ++ toString arguments)]
  | .binary op => [paint .cyan op.name]

/-- The listing of a block's name. -/
def showTarget (id : BlockId) : Fragment := paint .blue ("bb" ++ toString id)

/-- The listing of a terminator. -/
def Terminator.listing : Terminator → List Fragment
  | .error => [paint .red "<error>"]
  | .unset => [paint .red "<unset>"]
  | .return => [paint .cyan "return"]
  | .goto target => [paint .cyan "goto", plain " ", showTarget target]
  | .branch truthy falsy =>
    [paint .cyan "if", plain " ", showTarget truthy, plain " ", showTarget falsy]

/-- The listing of a storage cell. -/
def Local.listing (l : Local) : List Fragment :=
  [plain "    ", paint .magenta "let", plain (" _" ++ toString l.id ++ ": " ++ l.type.render)] ++
    match l.name with
    | some name => [plain " ", paint .brightBlack ("// " ++ name), plain "\n"]
    | none => [plain "\n"]

/-- A line that is indented. -/
def indented (fs : List Fragment) : List Fragment := plain "    " :: fs ++ [plain "\n"]

/-- The listing of a block. -/
def Block.listing (b : Block) : List Fragment :=
  [paint .brightRed ("  bb" ++ toString b.id ++ ":"), plain "\n"] ++
    b.statements.flatMap (fun s => indented s.listing) ++ indented b.terminator.listing

namespace Function

/-- The text of the type of a storage cell. -/
def typeText (f : Function) (cell : LocalId) : String :=
  (f.locals[cell]?.map fun l => l.type.render).getD ""

/-- The listing of a graph. -/
def listing (f : Function) : List Fragment :=
  let params := f.params.map fun p => "_" ++ toString p ++ ": " ++ f.typeText p
  [paint .magenta "fn", plain " ", paint .blue f.name,
    plain ("(" ++ ", ".intercalate params ++ ") -> " ++ f.typeText f.result ++ " "),
    paint .white "\x7b", plain "\n"] ++
    f.locals.flatMap Local.listing ++ f.blocks.flatMap Block.listing ++
    [paint .white "\x7d", plain "\n"]

end Function

end WordLang.Flow
