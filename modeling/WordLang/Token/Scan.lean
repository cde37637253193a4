import WordLang.Token.Element

/-!
# Scanning

Scanning a source text gives its tokens at their places, the problems of its elements, and the
line the text ends on.

## Main definitions

* `Scan`, `scan`: the tokens and the problems of a source text
-/

namespace WordLang

namespace Element

/-- The number of bytes of an element. -/
def byteCount (e : Element) : Nat := byteLength e.text

/-- The number of line ends in an element. -/
def lineEnds (e : Element) : Nat := e.text.count '\n'

/-- The token an element spells when it starts at byte `position` of line `line`. -/
def token? (e : Element) (position line : Nat) : Option Token :=
  e.shape.map fun shape => ⟨shape, ⟨position, position + e.byteCount⟩, line⟩

/-- The problems of an element that starts on line `line`. -/
def diagnostics (e : Element) (line : Nat) : List Diagnostic :=
  e.problems.map (ScanProblem.onLine · line)

end Element

/-- What scanning a source text gives. -/
structure Scan where
  tokens : List Token
  diagnostics : List Diagnostic
  lastLine : Nat
deriving Repr, DecidableEq

/-- The scan of elements that start at byte `position` of line `line`. -/
def scanFrom (position line : Nat) : List Element → Scan
  | [] => ⟨[], [], line⟩
  | e :: rest =>
    let after := scanFrom (position + e.byteCount) (line + e.lineEnds) rest
    ⟨(e.token? position line).toList ++ after.tokens, e.diagnostics line ++ after.diagnostics,
      after.lastLine⟩

/-- The scan of a source text. -/
def scan (source : List Char) : Scan := scanFrom 0 1 (elements source)

end WordLang
