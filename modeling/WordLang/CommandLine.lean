import WordLang.Compile

/-!
# The command line

The command compiles an input file to an output file. Flags may stand anywhere before a lone `--`;
each may be given once, apart from the one that asks for more messages.

## Main definitions

* `Invocation`, `Request`, `Request.ofArguments`: what arguments ask for
* `Files`: reading and writing files
* `Outcome`, `runCommand`: the command
-/

namespace WordLang

/-- What a compilation from the command line is to do. -/
structure Invocation where
  input : String
  output : String
  options : CompileOptions
deriving Repr, DecidableEq

/-- What arguments ask for. -/
inductive Request where
  | compile (invocation : Invocation)
  /-- An account of the arguments. -/
  | help
  | version
deriving Repr, DecidableEq

/-- What can be wrong with arguments. -/
inductive UsageProblem where
  | unexpected (argument : String)
  | repeated (flag : String)
  | emptyPath
  | missing
  | notFile (path : String)
deriving Repr, DecidableEq

/-- The report of a problem. -/
def UsageProblem.message : UsageProblem → String
  | .unexpected argument => "unexpected argument '" ++ argument ++ "' found"
  | .repeated flag => "the argument '" ++ flag ++ "' cannot be used multiple times"
  | .emptyPath => "a value is required but none was supplied"
  | .missing => "the following required arguments were not provided: <INPUT> <OUTPUT>"
  | .notFile path => "Input path '" ++ path ++ "' is not a file!"

/-! ## Arguments -/

/-- The flags that may be given once. -/
inductive Flag where
  | noOptimize
  | debugComments
  | listGraphs
  | listLinear
deriving Repr, DecidableEq

/-- The spelling of a flag. -/
def Flag.spelling : Flag → String
  | .noOptimize => "--no-optimize"
  | .debugComments => "--debug-comments"
  | .listGraphs => "--dump-mir"
  | .listLinear => "--dump-lir"

/-- The flag with a given spelling. -/
def Flag.ofSpelling? (argument : String) : Option Flag :=
  [noOptimize, debugComments, listGraphs, listLinear].find? fun f => f.spelling = argument

/-- The arguments met so far. -/
structure Collected where
  paths : List String := []
  flags : List Flag := []
  pathsOnly : Bool := false

/-- What one argument does: it is collected, or it settles the request. -/
inductive Effect where
  | collect (collected : Collected)
  | settle (request : Request)
  | refuse (problem : UsageProblem)

namespace Collected

/-- Takes an argument as a path. -/
def path (c : Collected) (argument : String) : Effect :=
  if 2 ≤ c.paths.length then .refuse (.unexpected argument)
  else if argument = "" then .refuse .emptyPath
  else .collect { c with paths := c.paths ++ [argument] }

/-- Takes letters that follow a single dash. -/
def letters (c : Collected) (argument : String) : List Char → Effect
  | [] => .collect c
  | letter :: rest =>
    -- Asking for more messages changes nothing that is answered.
    if letter = 'v' then c.letters argument rest
    else if letter = 'h' then .settle .help
    else if letter = 'V' then .settle .version
    else .refuse (.unexpected argument)

/-- Takes an argument that starts with two dashes. -/
def long (c : Collected) (argument : String) : Effect :=
  if argument = "--" then .collect { c with pathsOnly := true }
  else if argument = "--verbose" then .collect c
  else if argument = "--help" then .settle .help
  else if argument = "--version" then .settle .version
  else
    match Flag.ofSpelling? argument with
    | none => .refuse (.unexpected argument)
    | some flag =>
      if flag ∈ c.flags then .refuse (.repeated argument)
      else .collect { c with flags := c.flags ++ [flag] }

/-- Takes an argument. -/
def take (c : Collected) (argument : String) : Effect :=
  if c.pathsOnly then c.path argument
  else
    match argument.toList with
    | '-' :: '-' :: _ => c.long argument
    | '-' :: letter :: rest => c.letters argument (letter :: rest)
    | _ => c.path argument

/-- What the arguments ask for once all are collected. -/
def request (c : Collected) : Except UsageProblem Request :=
  match c.paths with
  | [input, output] =>
    .ok (.compile ⟨input, output,
      { optimize := .noOptimize ∉ c.flags
        comments := .debugComments ∈ c.flags
        listGraphs := .listGraphs ∈ c.flags
        listLinear := .listLinear ∈ c.flags }⟩)
  | _ => .error .missing

/-- What further arguments ask for, up to the first that settles it. -/
def takeAll (c : Collected) : List String → Except UsageProblem Request
  | [] => c.request
  | argument :: rest =>
    match c.take argument with
    | .collect c => c.takeAll rest
    | .settle request => .ok request
    | .refuse problem => .error problem

end Collected

/-- What arguments ask for. -/
def Request.ofArguments (arguments : List String) : Except UsageProblem Request :=
  Collected.takeAll {} arguments

/-! ## The command -/

/-- What reading a path gives. -/
inductive ReadResult where
  | notFile
  /-- There is a file that cannot be read, for a reason. -/
  | unreadable (reason : String)
  | bytes (bytes : ByteArray)

/-- Reading and writing files. -/
structure Files (m : Type → Type) where
  read : String → m ReadResult
  write : String → String → m (Option String)

/-- How the command ends. -/
inductive Outcome where
  /-- The output was written, or information was asked for. -/
  | success (printed : String)
  /-- Something failed, after something was printed. -/
  | fatal (printed report : String)
  /-- The arguments are wrong. -/
  | usage (problem : UsageProblem)

/-- The exit status of the command. -/
def Outcome.status : Outcome → Nat
  | .success _ => 0
  | .fatal _ _ => 1
  | .usage _ => 2

/-- The report of a failure while compiling a path. -/
def fatalReport (path message : String) : String :=
  "Fatal error reported in " ++ path ++ "\n" ++ message ++ "\n"

/-- The version text. -/
def versionText : String := "sbc 0.1.0\n"

/-- The account of the arguments. -/
def helpText : String :=
  "Small imperative language compiler targeting x86-64 NASM\n\n" ++
  "Usage: sbc [OPTIONS] <INPUT> <OUTPUT>\n\n" ++
  "Arguments:\n" ++
  "  <INPUT>   Source file to compile\n" ++
  "  <OUTPUT>  Where to write the generated NASM assembly\n\n" ++
  "Options:\n" ++
  "      --no-optimize     Skip the MIR and LIR optimization passes\n" ++
  "      --debug-comments  Annotate the assembly with the LIR it was generated from\n" ++
  "      --dump-mir        Print the MIR of every function\n" ++
  "      --dump-lir        Print the LIR of the whole program\n" ++
  "  -v, --verbose...      Log more, repeat for even more\n" ++
  "  -h, --help            Print help\n" ++
  "  -V, --version         Print version\n"

section

variable {m : Type → Type} [Monad m] (files : Files m)

/-- Compiles bytes that were read from the input, and writes the output. -/
def compileBytes (invocation : Invocation) (bytes : ByteArray) : m Outcome := do
  let fatal (printed message : String) : Outcome :=
    .fatal printed (fatalReport invocation.input message)
  match String.fromUTF8? bytes with
  | none => return fatal "" "could not read input: stream did not contain valid UTF-8"
  | some source =>
    let report := compileReport invocation.options source.toList
    match report.outcome with
    | .error failure => return fatal report.listed failure.message
    | .ok text =>
      match ← files.write invocation.output text with
      | none => return .success report.listed
      | some reason =>
        return fatal report.listed ("could not write " ++ invocation.output ++ ": " ++ reason)

/-- Runs a compilation. -/
def runInvocation (invocation : Invocation) : m Outcome := do
  match ← files.read invocation.input with
  | .notFile => return .usage (.notFile invocation.input)
  | .unreadable reason =>
    return .fatal "" (fatalReport invocation.input ("could not read input: " ++ reason))
  | .bytes bytes => compileBytes files invocation bytes

/-- Runs the command. -/
def runCommand (arguments : List String) : m Outcome :=
  match Request.ofArguments arguments with
  | .error problem => return .usage problem
  | .ok .help => return .success helpText
  | .ok .version => return .success versionText
  | .ok (.compile invocation) => runInvocation files invocation

end

end WordLang
