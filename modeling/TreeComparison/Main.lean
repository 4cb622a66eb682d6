import TreeComparison.CommandLine.Run
import TreeComparison.FileSystem.Description

/-!
The program itself. The file system is described in JSON on standard input, as one directory with
everything below it; paths start there, and the user may see everything.
-/

open TreeComparison

/-- Runs the program with the arguments and the environment of this process. -/
def main (args : List String) : IO UInt32 := do
  let configHome ← IO.getEnv "XDG_CONFIG_HOME"
  let home ← IO.getEnv "HOME"
  let logFilter ← IO.getEnv "RUST_LOG"
  let environment : Environment :=
    ⟨configHome.map Utf8.encode, home.map Utf8.encode, logFilter⟩
  match Description.parseStore? (← (← IO.getStdin).readToEnd) with
  | none =>
    IO.eprintln "error: no file system is described on standard input"
    return 2
  | some s =>
    let outcome := run s ⟨0, 0, true⟩ Store.root environment (args.map Utf8.encode)
    for line in outcome.log do
      IO.eprintln line
    if let some complaint := outcome.complaint then
      IO.eprintln ("error: " ++ complaint)
    IO.print outcome.output
    return outcome.status.toUInt32
