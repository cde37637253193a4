import WordLang.CommandLine

/-!
# The program

The command in the working directory of the process.
-/

namespace WordLang

/-- The reason an operation on a file failed. -/
def reasonOf : IO.Error → String
  | .noFileOrDirectory .. => "No such file or directory (os error 2)"
  | .permissionDenied .. => "Permission denied (os error 13)"
  | .inappropriateType _ 20 _ => "Not a directory (os error 20)"
  | .inappropriateType _ 21 _ => "Is a directory (os error 21)"
  | e => toString e

/-- Reading and writing in the working directory of the process. -/
def processFiles : Files IO where
  read path := do
    try
      return .bytes (← IO.FS.readBinFile path)
    catch
      | .permissionDenied .. => return .unreadable "Permission denied (os error 13)"
      | _ => return .notFile
  write path text := do
    try
      IO.FS.writeFile path text
      return none
    catch e => return some (reasonOf e)

end WordLang

/-- Runs the command with the arguments of the process. -/
def main (arguments : List String) : IO UInt32 := do
  let outcome ← WordLang.runCommand WordLang.processFiles arguments
  match outcome with
  | .success printed => IO.print printed
  | .fatal printed report =>
    IO.print printed
    IO.eprint report
  | .usage problem => IO.eprintln ("error: " ++ problem.message)
  return outcome.status.toUInt32
