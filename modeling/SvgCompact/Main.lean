import SvgCompact.CommandLine.Run

/-!
The program.
-/

open SvgCompact

def readText (path : String) : IO (Option String) := do
  try
    let text ← IO.FS.readFile path
    pure (some text)
  catch _ => pure none

/-- Writes a text to a file and tells whether that worked. -/
def writeText (path text : String) : IO Bool := do
  try
    IO.FS.writeFile path text
    pure true
  catch _ => pure false

def main (args : List String) : IO UInt32 := do
  let files ← (CommandLine.filesRead args).mapM fun path => do
    pure (path, ← readText path)
  let stdin ←
    if CommandLine.readsStdin args then
      (← IO.getStdin).readToEnd
    else pure ""
  let outcome := CommandLine.run (fun path => (files.lookup path).join) stdin args
  let written ←
    match outcome.file with
    | some (path, text) => writeText path text
    | none => pure true
  let outcome := outcome.settle written
  (← IO.getStdout).putStr outcome.stdout
  (← IO.getStderr).putStr outcome.stderr
  pure (UInt32.ofNat outcome.code)
