import WordLang.CommandLine

/-!
# A working directory in memory

A tree in memory holds files and directories, named by the components of their paths from the root.
The command can be run in one of its directories without any effect outside.

## Main definitions

* `Directory`, `Directory.files`: a working directory, and reading and writing in it
* `Directory.run`: the command in a directory
-/

namespace WordLang

/-- A file or a directory. -/
inductive Entry where
  | file (bytes : ByteArray)
  | directory
deriving Inhabited

/-- A working directory, and the files and directories of the tree it is in. -/
structure Directory where
  /-- The components of the path of the working directory. -/
  here : List String := []
  entries : List (List String × Entry) := []

namespace Directory

/-- The entry of a path; the root has no components. -/
def find? (d : Directory) (path : List String) : Option Entry :=
  if path = [] then some .directory else d.entries.lookup path

/-- Why a path leads nowhere. -/
inductive PathProblem where
  | missing
  | notDirectory
  | isDirectory
deriving Repr, DecidableEq

/-- The report of a problem with a path. -/
def PathProblem.message : PathProblem → String
  | .missing => "No such file or directory (os error 2)"
  | .notDirectory => "Not a directory (os error 20)"
  | .isDirectory => "Is a directory (os error 21)"

/-- Requires that a path leads to a directory. -/
def requireDirectory (d : Directory) (path : List String) : Except PathProblem Unit :=
  match d.find? path with
  | none => .error .missing
  | some (.file _) => .error .notDirectory
  | some .directory => .ok ()

/-- Follows the components of a path from `place` on. Every step starts in a directory; the
directory above the root is the root. -/
def follow (d : Directory) (place : List String) : List String → Except PathProblem (List String)
  | [] => .ok place
  | component :: rest => do
    d.requireDirectory place
    if component = "." then d.follow place rest
    else if component = ".." then d.follow place.dropLast rest
    else d.follow (place ++ [component]) rest

/-- Where a path leads to, and whether it ends with a slash. A path that starts with a slash leads
from the root on, any other from the working directory on. -/
def locate (d : Directory) (path : String) : Except PathProblem (List String × Bool) := do
  let components := path.splitOn "/"
  let start := if components.head? = some "" then [] else d.here
  let place ← d.follow start (components.filter fun component => component ≠ "")
  return (place, components.getLast? = some "")

/-- Reads a path. -/
def read (d : Directory) (path : String) : ReadResult :=
  match d.locate path with
  | .ok (place, false) =>
    match d.find? place with
    | some (.file bytes) => .bytes bytes
    | _ => .notFile
  | _ => .notFile

/-- Writes a text to a path. -/
def write (d : Directory) (path text : String) : Except PathProblem Directory := do
  let (place, asDirectory) ← d.locate path
  match d.find? place with
  | some .directory => .error .isDirectory
  | _ =>
    if asDirectory then .error .isDirectory
    else return { d with
      entries := (place, .file text.toUTF8) :: d.entries.filter fun e => e.1 ≠ place }

/-- Reading and writing in a working directory in memory. -/
def files : Files (StateM Directory) where
  read path := return (← get).read path
  write path text := do
    match (← get).write path text with
    | .ok d =>
      set d
      return none
    | .error problem => return some problem.message

/-- Runs the command in a directory. -/
def run (d : Directory) (arguments : List String) : Outcome × Directory :=
  (runCommand files arguments).run d

/-- The text of a file in the working directory. -/
def text? (d : Directory) (name : String) : Option String :=
  match d.find? (d.here ++ [name]) with
  | some (.file bytes) => String.fromUTF8? bytes
  | _ => none

end Directory

end WordLang
