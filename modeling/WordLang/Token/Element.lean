import WordLang.Text.Blank
import WordLang.Token

/-!
# Lexical elements

A source text is cut into elements, first to last: runs of blanks, comments, characters that
belong to no token, and the spellings of tokens. Each element is as long as its kind allows.

## Main definitions

* `ScanProblem`: what can be wrong with an element
* `Element`, `Element.first`: the first element of a text and what follows it
* `elements`: all elements of a text

## Main results

* `Element.first_text_append`: the first element and what follows it make up the text
* `flatMap_text_elements`: the elements of a text make up the text
-/

namespace WordLang

/-- What can be wrong with an element. -/
inductive ScanProblem where
  | unexpectedCharacter (c : Char)
  | unterminatedString
  | unknownEscape (c : Char)
  | integerTooLarge (digits : String)
deriving Repr, DecidableEq

/-- The report of a problem. -/
def ScanProblem.message : ScanProblem → String
  | .unexpectedCharacter c => "unexpected character `" ++ String.singleton c ++ "`"
  | .unterminatedString => "unterminated string literal"
  | .unknownEscape c => "unknown escape sequence `\\" ++ String.singleton c ++ "`"
  | .integerTooLarge digits => "integer literal `" ++ digits ++ "` does not fit in 64 bits"

/-- The diagnostic for a problem on a line. -/
def ScanProblem.onLine (problem : ScanProblem) (line : Nat) : Diagnostic :=
  ⟨.lexer, line, problem.message⟩

/-- A piece of a source text: a token, or something between tokens. -/
structure Element where
  text : List Char
  shape : Option Shape := none
  problems : List ScanProblem := []
deriving Repr, DecidableEq

/-! ## String literals -/

/-- The character that a backslash and `c` stand for. -/
def escaped? (c : Char) : Option Char :=
  if c = '\\' then some '\\'
  else if c = 'n' then some '\n'
  else if c = 't' then some '\t'
  else if c = '"' then some '"'
  else if c = ' ' then some ' '
  else none

/-- A string literal after its opening quote. -/
structure StringBody where
  value : List Char
  /-- The characters of the literal, with its closing quote. -/
  text : List Char
  rest : List Char
  problems : List ScanProblem
deriving Repr, DecidableEq

/-- Reads a string literal after its opening quote. It ends with the closing quote, or before a
line end or the end of the text; a character after a backslash that is no escape stands for
itself. -/
def stringBody : List Char → StringBody
  | [] => ⟨[], [], [], [.unterminatedString]⟩
  | c :: rest =>
    if c = '\n' then ⟨[], [], c :: rest, [.unterminatedString]⟩
    else if c = '"' then ⟨[], [c], rest, []⟩
    else if c = '\\' then
      match rest with
      | [] => ⟨[], [c], [], [.unterminatedString]⟩
      | e :: rest =>
        if e = '\n' then ⟨[], [c], e :: rest, [.unterminatedString]⟩
        else
          let body := stringBody rest
          match escaped? e with
          | some d => ⟨d :: body.value, c :: e :: body.text, body.rest, body.problems⟩
          | none =>
            ⟨e :: body.value, c :: e :: body.text, body.rest, .unknownEscape e :: body.problems⟩
    else
      let body := stringBody rest
      ⟨c :: body.value, c :: body.text, body.rest, body.problems⟩

theorem stringBody_text_append (s : List Char) :
    (stringBody s).text ++ (stringBody s).rest = s := by
  fun_induction stringBody s <;> simp_all +zetaDelta

/-! ## Words and numbers -/

/-- Whether a character can start a keyword or an identifier. -/
def isWordStart (c : Char) : Bool := c.isAlpha || c = '_'

/-- Whether a character can continue a keyword or an identifier. -/
def isWordPart (c : Char) : Bool := c.isAlphanum || c = '_'

/-- The number that decimal digits stand for. -/
def digitsValue (digits : List Char) : Nat :=
  digits.foldl (fun n c => 10 * n + (c.toNat - '0'.toNat)) 0

/-- The token of a word: a keyword, or an identifier. -/
def wordShape (word : String) : Shape :=
  match Keyword.ofSpelling? word with
  | some k => .keyword k
  | none => .identifier word

/-- The largest number that fits in 64 bits with a sign. -/
def maxInteger : Nat := 9223372036854775807

/-- The element of a number; one that does not fit in 64 bits with a sign counts as zero. -/
def numberElement (digits : List Char) : Element :=
  let value := digitsValue digits
  if value ≤ maxInteger then ⟨digits, some (.integer (Int64.ofNat value)), []⟩
  else ⟨digits, some (.integer 0), [.integerTooLarge (String.ofList digits)]⟩

/-- The element of a single sign: a symbol, or a character that belongs to no token. -/
def signElement (c : Char) : Element :=
  match Symbol.ofSpelling? [c] with
  | some s => ⟨[c], some (.symbol s), []⟩
  | none => ⟨[c], none, [.unexpectedCharacter c]⟩

@[simp] theorem numberElement_text (digits : List Char) : (numberElement digits).text = digits := by
  simp only [numberElement]
  split <;> rfl

@[simp] theorem signElement_text (c : Char) : (signElement c).text = [c] := by
  simp only [signElement]
  split <;> rfl

/-! ## All elements -/

/-- The first element of the text `c :: rest`, and the text after it. -/
def Element.first (c : Char) (rest : List Char) : Element × List Char :=
  if Text.isBlank c then (⟨c :: rest.takeWhile Text.isBlank, none, []⟩, rest.dropWhile Text.isBlank)
  else if c = '/' ∧ rest.head? = some '/' then
    (⟨c :: rest.takeWhile (· ≠ '\n'), none, []⟩, rest.dropWhile (· ≠ '\n'))
  else if c = '"' then
    let body := stringBody rest
    (⟨c :: body.text, some (.string (String.ofList body.value)), body.problems⟩, body.rest)
  else if c.isDigit then
    (numberElement (c :: rest.takeWhile Char.isDigit), rest.dropWhile Char.isDigit)
  else if isWordStart c then
    let word := c :: rest.takeWhile isWordPart
    (⟨word, some (wordShape (String.ofList word)), []⟩, rest.dropWhile isWordPart)
  else
    match rest with
    | [] => (signElement c, [])
    | d :: rest =>
      match Symbol.ofSpelling? [c, d] with
      | some s => (⟨[c, d], some (.symbol s), []⟩, rest)
      | none => (signElement c, d :: rest)

theorem Element.first_text_append (c : Char) (rest : List Char) :
    (Element.first c rest).1.text ++ (Element.first c rest).2 = c :: rest := by
  unfold Element.first
  split
  · simp
  split
  · simp
  split
  · simp [stringBody_text_append]
  split
  · simp
  split
  · simp
  split
  · simp
  split <;> simp

theorem Element.first_text_ne_nil (c : Char) (rest : List Char) :
    (Element.first c rest).1.text ≠ [] := by
  unfold Element.first
  repeat' split
  all_goals simp

theorem Element.length_first_lt (c : Char) (rest : List Char) :
    (Element.first c rest).2.length < (c :: rest).length := by
  have happ := congrArg List.length (Element.first_text_append c rest)
  have hpos := List.length_pos_iff.2 (Element.first_text_ne_nil c rest)
  rw [List.length_append] at happ
  omega

/-- The elements of a text, first to last. -/
def elements : List Char → List Element
  | [] => []
  | c :: rest => (Element.first c rest).1 :: elements (Element.first c rest).2
termination_by text => text.length
decreasing_by exact Element.length_first_lt c rest

theorem flatMap_text_elements (text : List Char) : (elements text).flatMap Element.text = text := by
  fun_induction elements text with
  | case1 => rfl
  | case2 c rest ih => rw [List.flatMap_cons, ih, Element.first_text_append]

end WordLang
