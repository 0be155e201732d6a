import TreeLang.Failure
import TreeLang.Text.Blank

/-! The console. Input is a sequence of bytes cut into lines; each line that is valid
UTF-8 gives its words as tokens, and any other line gives one failure and is lost. Output
is text, written a line at a time.

Only a console in memory is modelled. Writing a line to it and flushing it cannot go wrong, so
`writeLine` has no failure and there is no flush; a writer that refuses a line, or a flush that
fails at the end of a run, is not covered. -/
namespace TreeLang

/-- A line of input without its newline byte. -/
abbrev Line := List UInt8

def newline : UInt8 := 10

/-- Cuts bytes at newlines; what follows the last newline is a line only if it is not
empty. The unfinished line `run` stands in reverse. -/
def linesFrom (run : Line) : List UInt8 → List Line
  | [] => if run.isEmpty then [] else [run.reverse]
  | byte :: rest =>
    if byte = newline then run.reverse :: linesFrom [] rest else linesFrom (byte :: run) rest

/-- The text that bytes encode, if they are valid UTF-8. -/
def decodeText? (bytes : List UInt8) : Option String := String.fromUTF8? ⟨bytes.toArray⟩

structure Console where
  /-- Lines not looked at yet. -/
  lines : List Line := []
  /-- Tokens of the current line that are still to be read. -/
  pending : List String := []
  output : String := ""
  deriving DecidableEq

namespace Console

def ofBytes (input : List UInt8) : Console := { lines := linesFrom [] input }

def ofText (input : String) : Console := ofBytes input.toUTF8.toList

/-- Goes to the next line that has tokens or is not valid text, and takes it. The result
is the first token of the line and those after it. -/
def nextLine : List Line → Except Failure (String × List String) × List Line
  | [] => (.error .endOfInput, [])
  | line :: rest =>
    match decodeText? line with
    | none => (.error (.console "stream did not contain valid UTF-8"), rest)
    | some text =>
      match Text.words text with
      | [] => nextLine rest
      | token :: pending => (.ok (token, pending), rest)

/-- Takes the next token of the input. -/
def readToken (console : Console) : Except Failure String × Console :=
  match console.pending with
  | token :: pending => (.ok token, { console with pending })
  | [] =>
    match nextLine console.lines with
    | (.ok (token, pending), lines) => (.ok token, { console with lines, pending })
    | (.error failure, lines) => (.error failure, { console with lines })

def writeLine (console : Console) (line : String) : Console :=
  { console with output := console.output ++ line ++ "\n" }

end Console

/-- Reads a token as an integer. -/
def intOfToken (token : String) : Except Failure Int64 :=
  match Decimal.readWord? token with
  | some n => .ok n
  | none => .error (.typeMismatch "integer input" token)

/-- Reads a token as a truth value: a word, or an integer that is true when not zero. -/
def boolOfToken (token : String) : Except Failure Bool :=
  if token = "true" then .ok true
  else if token = "false" then .ok false
  else
    match Decimal.readWord? token with
    | some n => .ok (n != 0)
    | none => .error (.typeMismatch "boolean input" token)

end TreeLang
