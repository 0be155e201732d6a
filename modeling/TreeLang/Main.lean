import TreeLang.CommandLine

/-! The program: arguments, files and streams for `TreeLang.CommandLine`. -/

open TreeLang.CommandLine

/-- The contents of a text file, if it can be read. -/
def readSource? (file : String) : IO (Option String) := do
  try
    return some (← IO.FS.readFile file)
  catch _ =>
    return none

def main (args : List String) : IO UInt32 := do
  let report : Report ←
    match Command.ofArgs? args with
    | none => pure { problem? := some .usage }
    | some command =>
      let source? ← match command.file? with
        | some file => readSource? file
        | none => pure none
      let input ← match command with
        | .run .. => (← IO.getStdin).readBinToEnd
        | _ => pure .empty
      pure (command.perform source? input.toList)
  IO.print report.output
  IO.eprint report.diagnostics
  return report.status.toUInt32
