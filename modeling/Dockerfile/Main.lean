import Dockerfile.CommandLine

/-!
# The program

Reads the file that the arguments name and prints what is known about it.
-/

namespace Dockerfile

namespace CommandLine

def readText? (path : String) : IO (Option Text) := do
  try
    return some (← IO.FS.readFile path).toList
  catch _ =>
    return none

def requested? (arguments : List String) : IO (Option Text) :=
  match parse arguments with
  | .ok (.analyze path _) => readText? path
  | _ => return none

end CommandLine

end Dockerfile

/-- Prints what the arguments ask for. Errors go to the error output and end the program with the
code 2. -/
def main (arguments : List String) : IO UInt32 := do
  let text ← Dockerfile.CommandLine.requested? arguments
  match Dockerfile.CommandLine.run (fun _ => text) arguments with
  | .ok (some output) =>
      IO.println output
      return 0
  | .ok none =>
      IO.eprintln Dockerfile.CommandLine.usageText
      return 2
  | .error e =>
      IO.eprintln ("dockerls analyze error: " ++ e.message)
      return 2
