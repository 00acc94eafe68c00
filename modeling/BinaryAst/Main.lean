import BinaryAst.CommandLine.Run
/-!
# BinaryAst.Main

The inspection command as a program: reads the files that the arguments name, and
prints what the run leaves behind.
-/

namespace BinaryAst.CommandLine

/-- The contents of a file of this system. -/
def readFile (path : String) : IO (Except FileFault Bytes) := do
  try
    return .ok (← IO.FS.readBinFile path).data.toList
  catch e =>
    match e with
    | .noFileOrDirectory .. => return .error .notFound
    | .inappropriateType .. => return .error .isDirectory
    | other => return .error (.other (toString other))

/-- The contents of the files of some names. -/
def readFiles (paths : List String) : IO Files := do
  let contents ← paths.mapM fun path => return (path, ← readFile path)
  return fun path => (contents.lookup path).getD (.error .notFound)

/-- The names of the files that a command loads. -/
def Command.paths (command : Command) : List String :=
  command.config.toList ++ [command.shapes, command.path]

end BinaryAst.CommandLine

open BinaryAst.CommandLine in
/-- Runs the inspection command. -/
def main (arguments : List String) : IO UInt32 := do
  let paths := ((Command.ofArguments? arguments).map Command.paths).getD []
  let outcome := run arguments (← readFiles paths)
  (← IO.getStderr).putStr outcome.stderr
  (← IO.getStdout).putStr outcome.stdout
  return UInt32.ofNat outcome.exit
