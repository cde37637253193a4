import WordLang.Diagnostic

/-!
# Tokens

A token is a keyword, an identifier, a literal or a symbol, with the bytes it covers in the
source text and its line.

## Main definitions

* `Keyword`, `Symbol`: the words and signs of the language, with their spellings
* `Shape`, `Shape.describe`: what a token is, and how problem reports name it
* `Span`, `Token`: a token at its place
-/

namespace WordLang

/-- The words with a meaning of their own. -/
inductive Keyword where
  | kwFn
  | kwLet
  | kwLoop
  | kwWhile
  | kwIf
  | kwElse
  | kwReturn
  | kwBreak
deriving Repr, DecidableEq, Inhabited

namespace Keyword

/-- The spelling of a keyword. -/
def spelling : Keyword → String
  | .kwFn => "fn"
  | .kwLet => "let"
  | .kwLoop => "loop"
  | .kwWhile => "while"
  | .kwIf => "if"
  | .kwElse => "else"
  | .kwReturn => "return"
  | .kwBreak => "break"

/-- All keywords. -/
def all : List Keyword :=
  [.kwFn, .kwLet, .kwLoop, .kwWhile, .kwIf, .kwElse, .kwReturn, .kwBreak]

/-- The keyword with a given spelling. -/
def ofSpelling? (word : String) : Option Keyword := all.find? fun k => k.spelling = word

end Keyword

/-- The signs of the language. -/
inductive Symbol where
  | openParen
  | closeParen
  | openBracket
  | closeBracket
  | openBrace
  | closeBrace
  | semicolon
  | comma
  | colon
  | arrow
  | hash
  | bang
  | minus
  | star
  | plus
  | slash
  | percent
  | doubleEquals
  | notEquals
  | less
  | lessEquals
  | greater
  | greaterEquals
  | equals
deriving Repr, DecidableEq, Inhabited

namespace Symbol

/-- The spelling of a symbol. -/
def spelling : Symbol → List Char
  | .openParen => ['(']
  | .closeParen => [')']
  | .openBracket => ['[']
  | .closeBracket => [']']
  | .openBrace => ['\x7b']
  | .closeBrace => ['\x7d']
  | .semicolon => [';']
  | .comma => [',']
  | .colon => [':']
  | .arrow => ['-', '>']
  | .hash => ['#']
  | .bang => ['!']
  | .minus => ['-']
  | .star => ['*']
  | .plus => ['+']
  | .slash => ['/']
  | .percent => ['%']
  | .doubleEquals => ['=', '=']
  | .notEquals => ['!', '=']
  | .less => ['<']
  | .lessEquals => ['<', '=']
  | .greater => ['>']
  | .greaterEquals => ['>', '=']
  | .equals => ['=']

/-- All symbols. -/
def all : List Symbol :=
  [.openParen, .closeParen, .openBracket, .closeBracket, .openBrace, .closeBrace, .semicolon,
    .comma, .colon, .arrow, .hash, .bang, .minus, .star, .plus, .slash, .percent, .doubleEquals,
    .notEquals, .less, .lessEquals, .greater, .greaterEquals, .equals]

/-- The symbol with a given spelling. -/
def ofSpelling? (sign : List Char) : Option Symbol := all.find? fun s => s.spelling = sign

end Symbol

/-- What a token is: a keyword, an identifier, a literal with its value, or a symbol. -/
inductive Shape where
  | keyword (keyword : Keyword)
  | identifier (name : String)
  | integer (value : Int64)
  | string (text : String)
  | symbol (symbol : Symbol)
deriving Repr, DecidableEq, Inhabited

/-- How problem reports name a token: its spelling in backquotes, or the kind of token. -/
def Shape.describe : Shape → String
  | .keyword k => "`" ++ k.spelling ++ "`"
  | .identifier _ => "identifier"
  | .integer _ => "integer literal"
  | .string _ => "string literal"
  | .symbol s => "`" ++ String.ofList s.spelling ++ "`"

/-- The number of bytes that characters take in UTF-8. -/
def byteLength : List Char → Nat
  | [] => 0
  | c :: rest => c.utf8Size + byteLength rest

@[simp] theorem byteLength_nil : byteLength [] = 0 := rfl

@[simp] theorem byteLength_cons (c : Char) (rest : List Char) :
    byteLength (c :: rest) = c.utf8Size + byteLength rest := rfl

@[simp] theorem byteLength_append (s t : List Char) :
    byteLength (s ++ t) = byteLength s + byteLength t := by
  induction s with
  | nil => rw [List.nil_append, byteLength_nil, Nat.zero_add]
  | cons c rest ih => rw [List.cons_append, byteLength_cons, byteLength_cons, ih, Nat.add_assoc]

/-- The characters of a text from byte `n` on. -/
def dropBytes : Nat → List Char → List Char
  | _, [] => []
  | n, c :: rest => if n = 0 then c :: rest else dropBytes (n - c.utf8Size) rest

/-- The characters of a text before byte `n`. -/
def takeBytes : Nat → List Char → List Char
  | _, [] => []
  | n, c :: rest => if n = 0 then [] else c :: takeBytes (n - c.utf8Size) rest

/-- A range of bytes of a source text. -/
structure Span where
  start : Nat
  stop : Nat
deriving Repr, DecidableEq, Inhabited

/-- The characters of a source text in a range of bytes. -/
def Span.extract (span : Span) (source : List Char) : List Char :=
  takeBytes (span.stop - span.start) (dropBytes span.start source)

/-- A token at its place in a source text. -/
structure Token where
  shape : Shape
  span : Span
  line : Nat
deriving Repr, DecidableEq, Inhabited

end WordLang
