import TreeLang.Form.Reader
import TreeLang.Form.Writer
import TreeLang.Interpreter

/-! The command line: run a program, list its functions, or print its tree. Everything but
the reading of files and streams is here. -/
namespace TreeLang.CommandLine

inductive Command where
  | version
  | run (file : String) (maxCallDepth : Nat)
  | check (file : String)
  | dump (file : String)
  deriving DecidableEq

/-- What the arguments of a subcommand are read into. -/
structure Operands where
  file? : Option String := none
  maxCallDepth? : Option Nat := none

namespace Operands

/-- Takes the one file name. -/
def addFile? (operands : Operands) (file : String) : Option Operands :=
  if operands.file?.isSome || file.isEmpty then none else some { operands with file? := file }

/-- Takes the one value of the option. -/
def addLimit? (operands : Operands) (spelling : String) : Option Operands :=
  if operands.maxCallDepth?.isSome then none
  else (Decimal.readSize? spelling).map fun limit => { operands with maxCallDepth? := some limit }

end Operands

def limitOption : String := "--max-call-depth"

/-- Whether an argument looks like an option: it starts with a dash and goes on. -/
def isOption (arg : String) : Bool :=
  match arg.toList with
  | '-' :: _ :: _ => true
  | _ => false

/-- The value of the option when it is given in one argument after an equals sign. -/
def attachedLimit? (arg : String) : Option String :=
  let start := (limitOption ++ "=").toList
  if start.isPrefixOf arg.toList then some (String.ofList (arg.toList.drop start.length)) else none

/-- Reads the arguments after a subcommand. Options end at a double dash. -/
def operands? (takesLimit : Bool) (operands : Operands) : List String → Option Operands
  | [] => some operands
  | "--" :: files => files.foldlM Operands.addFile? operands
  | arg :: rest =>
    if !isOption arg then
      (operands.addFile? arg).bind (operands? takesLimit · rest)
    else if !takesLimit then none
    else if arg = limitOption then
      match rest with
      | value :: rest =>
        if isOption value then none
        else (operands.addLimit? value).bind (operands? takesLimit · rest)
      | [] => none
    else
      match attachedLimit? arg with
      | some value => (operands.addLimit? value).bind (operands? takesLimit · rest)
      | none => none

/-- Reads the arguments; `none` if they are not a proper use of the command line. -/
def Command.ofArgs? : List String → Option Command
  | "run" :: rest => do
    let operands ← operands? true {} rest
    return .run (← operands.file?) (operands.maxCallDepth?.getD ({} : Context).maxCallDepth)
  | "check" :: rest => do
    let operands ← operands? false {} rest
    return .check (← operands.file?)
  | "dump" :: rest => do
    let operands ← operands? false {} rest
    return .dump (← operands.file?)
  | "--version" :: _ => some .version
  | arg :: _ => if ['-', 'V'].isPrefixOf arg.toList then some .version else none
  | [] => none

/-- Why a command did not do its work. -/
inductive Problem where
  | usage
  | unreadable (file : String)
  | malformed (file : String)
  | failed (failure : Failure)
  | unfinished
  deriving DecidableEq

namespace Problem

def status : Problem → Nat
  | usage => 2
  | _ => 1

def message : Problem → String
  | usage =>
    "Usage: run FILE [--max-call-depth N] | check FILE | dump FILE | --version"
  | unreadable file => "Error: cannot read " ++ file
  | malformed file => "Error: " ++ file ++ " does not hold a program"
  | failed failure => "Error: " ++ failure.report
  | unfinished => "Error: the run did not end"

end Problem

/-- What a command prints, and its problem if it has one. -/
structure Report where
  output : String := ""
  problem? : Option Problem := none

namespace Report

def status (report : Report) : Nat :=
  match report.problem? with
  | none => 0
  | some problem => problem.status

/-- The text for the error stream. -/
def diagnostics (report : Report) : String :=
  match report.problem? with
  | none => ""
  | some problem => problem.message ++ "\n"

end Report

def versionText : String := "minic 0.1.0\n"

/-- A line for each function and one for the file, if the program can be loaded. -/
def checkReport (file : String) (program : Program Unit) : Report :=
  match (Registry.empty.registerAll program.functions).2 with
  | .error failure => { problem? := some (.failed failure) }
  | .ok _ =>
    let lines := program.functions.map fun function =>
      function.signature ++ " -> " ++ function.returns.text ++ "\n"
    { output := String.join lines ++ "✓ " ++ file ++ " loads successfully\n" }

def runReport (program : Program Unit) (input : List UInt8) (maxCallDepth : Nat) : Report :=
  let (answer, interpreter) := program.run (.ofBytes input) maxCallDepth
  let output := interpreter.output
  match answer with
  | .value _ => { output }
  | .failure failure => { output, problem? := some (.failed failure) }
  | .unfinished => { output, problem? := some .unfinished }

/-- Reads the program in a file and goes on with it. -/
def withProgram (file : String) (source? : Option String) (use : Program Unit → Report) : Report :=
  match source? with
  | none => { problem? := some (.unreadable file) }
  | some source =>
    match Program.read? source with
    | none => { problem? := some (.malformed file) }
    | some program => use program

/-- The file that a command reads. -/
def Command.file? : Command → Option String
  | version => none
  | run file _ | check file | dump file => some file

/-- Carries out a command, given the contents of its file and the standard input. -/
def Command.perform (source? : Option String) (input : List UInt8) : Command → Report
  | version => { output := versionText }
  | run file maxCallDepth =>
    withProgram file source? fun program => runReport program input maxCallDepth
  | check file => withProgram file source? (checkReport file)
  | dump file =>
    withProgram file source? fun program => { output := program.toDocument.pretty ++ "\n" }

end TreeLang.CommandLine
