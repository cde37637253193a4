import WordLang.Token.Scan

/-!
# Token streams

A token stream reads a source text token by token, with one token of lookahead. Looking ahead
reads elements up to the next token; their problems are found and their lines are counted then.

## Main definitions

* `TokenStream`: the elements that are not read yet, the token looked at, the problems not taken yet
* `TokenStream.peek`, `TokenStream.next`, `TokenStream.takeDiagnostics`: the operations
-/

namespace WordLang

/-- A source text that is read token by token. -/
structure TokenStream where
  elements : List Element
  position : Nat := 0
  line : Nat := 1
  /-- The token that was looked at and not taken. -/
  pending : Option Token := none
  /-- The problems that were found and not taken. -/
  diagnostics : List Diagnostic := []
deriving Repr, DecidableEq

namespace TokenStream

/-- The stream of a source text. -/
def ofSource (source : List Char) : TokenStream := { elements := WordLang.elements source }

/-- The stream after its first element `e`, with `rest` left. -/
def skip (s : TokenStream) (e : Element) (rest : List Element) : TokenStream :=
  { s with
    elements := rest
    position := s.position + e.byteCount
    line := s.line + e.lineEnds
    diagnostics := s.diagnostics ++ e.diagnostics s.line }

/-- Reads elements up to the first that spells a token; nothing is left if none does. -/
def readFrom (s : TokenStream) : List Element → Option Token × TokenStream
  | [] => (none, { s with elements := [] })
  | e :: rest =>
    match e.token? s.position s.line with
    | some token => (some token, s.skip e rest)
    | none => (s.skip e rest).readFrom rest

/-- Reads the next token from the elements. -/
def read (s : TokenStream) : Option Token × TokenStream := s.readFrom s.elements

/-- The next token, which stays. -/
def peek (s : TokenStream) : Option Token × TokenStream :=
  match s.pending with
  | some token => (some token, s)
  | none =>
    let (token, s) := s.read
    (token, { s with pending := token })

/-- The next token, which is taken. -/
def next (s : TokenStream) : Option Token × TokenStream :=
  match s.pending with
  | some token => (some token, { s with pending := none })
  | none => s.read

/-- The problems found since the last time, which are taken. -/
def takeDiagnostics (s : TokenStream) : List Diagnostic × TokenStream :=
  (s.diagnostics, { s with diagnostics := [] })

end TokenStream

end WordLang
