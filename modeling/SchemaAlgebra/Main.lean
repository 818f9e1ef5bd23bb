import SchemaAlgebra.CommandLine.Report
import SchemaAlgebra.Json.Layout

/-!
# The program

Reads the files that the arguments name, does what the command is asked to, and prints what it
reports.  The exit code tells whether the data is valid.
-/

namespace SchemaAlgebra

namespace CommandLine

/-- The text of a file, if it can be read. -/
def readFile? (path : String) : IO (Option String) := do
  try
    return some (← IO.FS.readFile path)
  catch _ =>
    return none

/-- The texts of the files that the arguments name. -/
def readFiles (arguments : Arguments) : IO Files := do
  let mut texts : List (String × Option String) := []
  for path in [arguments.schema, arguments.data] ++ arguments.config.toList do
    texts := (path, ← readFile? path) :: texts
  let found := texts
  return fun path => (found.lookup path).join

/-- How the command is used. -/
def usage : String :=
  "usage: validate --schema FILE --data FILE [--config FILE] [--keyword NAME]... "
    ++ "[--remove-additional] [--assert [--message TEXT]]"

/-- Runs the command. -/
def run (arguments : List String) : IO UInt32 := do
  match Arguments.read arguments with
  | .error .help =>
    IO.println usage
    return 0
  | .error _ =>
    IO.eprintln usage
    return 2
  | .ok arguments =>
    match arguments.report (← readFiles arguments) with
    | .ok report =>
      IO.println report.output.layout
      return if report.valid then 0 else 1
    | .error e =>
      IO.eprintln (String.intercalate ": " (e.message :: e.cause?.toList))
      return 1

end CommandLine

end SchemaAlgebra

/-- The program has one command. -/
def main (arguments : List String) : IO UInt32 :=
  match arguments with
  | "validate" :: rest => SchemaAlgebra.CommandLine.run rest
  | _ => do
    IO.eprintln SchemaAlgebra.CommandLine.usage
    return 2
