/-
The program: read the arguments, read the file, print the report.
-/
import ModelCount.CommandLine

/-- run the command line; errors go to the error stream -/
def main (args : List String) : IO UInt32 := do
  let request := ModelCount.CommandLine.parse .blank args
  let text ← match request with
    | .run o =>
      let path := o.path.getD ""
      try IO.FS.readFile path catch e =>
        IO.eprintln s!"Error: reading {path}: {e}"
        return 1
    | _ => pure ""
  let outcome := ModelCount.CommandLine.answer request text
  outcome.report.forM IO.println
  for line in outcome.errors do IO.eprintln s!"Error: {line}"
  return outcome.exit.toUInt32
