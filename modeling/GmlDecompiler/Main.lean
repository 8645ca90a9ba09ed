import GmlDecompiler.CommandLine

/-!
# The program

Reads the files that the arguments name, prints what the command line answers, and leaves with
its exit code.
-/

namespace GmlDecompiler.CommandLine

/-- The contents of a file, if it can be read. -/
def fileContents (path : String) : IO (Option String) := do
  try
    let text ← IO.FS.readFile path
    return some text
  catch _ => return none

end GmlDecompiler.CommandLine

open GmlDecompiler CommandLine in

/-- Prints what the command line answers. -/
def main (arguments : List String) : IO UInt32 := do
  let paths := match read arguments with
    | .ok command => command.paths
    | .error _ => []
  let files ← paths.mapM fun path => return (path, ← fileContents path)
  match run (fun path => (files.lookup path).join) arguments with
  | .ok text =>
    IO.print text
    return 0
  | .error failure =>
    IO.eprintln failure.message
    return failure.code.toUInt32
