import TreeLang.Json.Document
import TreeLang.Text.Decimal

/-! The tokens of JSON text. The scanner takes one character at a time; between tokens it
accepts only space, tab, carriage return and line feed. Numbers and words are taken as
long as they go on and are then held against the grammar. Which texts are tokens is assumed
behaviour of the JSON library, see `TreeLang.Json.Document`. -/
namespace TreeLang.Json

inductive Token where
  | openArray
  | closeArray
  | openObject
  | closeObject
  | comma
  | colon
  | null
  | bool (value : Bool)
  | number (literal : String)
  | string (text : Text)
  deriving DecidableEq

/-! ### String literals -/

/-- A part of a string literal: a character, or the code of a UTF-16 unit. -/
inductive Piece where
  | char (c : Char)
  | unit (code : Nat)
  deriving DecidableEq

def isHighSurrogate (code : Nat) : Bool := 0xD800 ≤ code && code < 0xDC00

def isLowSurrogate (code : Nat) : Bool := 0xDC00 ≤ code && code < 0xE000

/-- The character that a pair of surrogates stands for. -/
def pairedChar (high low : Nat) : Char :=
  Char.ofNat (0x10000 + (high - 0xD800) * 0x400 + (low - 0xDC00))

/-- The characters that pieces spell, unless a surrogate is left without partner. -/
def assemble : List Piece → Option (List Char)
  | [] => some []
  | .char c :: rest => (assemble rest).map (c :: ·)
  | .unit code :: rest =>
    if isLowSurrogate code then none
    else if isHighSurrogate code then
      match rest with
      | .unit low :: rest =>
        if isLowSurrogate low then (assemble rest).map (pairedChar code low :: ·) else none
      | _ => none
    else (assemble rest).map (Char.ofNat code :: ·)
termination_by structural pieces => pieces

/-- The text of a literal whose pieces stand in reverse. -/
def textOf (pieces : List Piece) : Text := (assemble pieces.reverse).map String.ofList

/-- What a character stands for after a backslash. -/
def escaped? : Char → Option Char
  | '"' => some '"'
  | '\\' => some '\\'
  | '/' => some '/'
  | 'b' => some '\x08'
  | 'f' => some '\x0c'
  | 'n' => some '\n'
  | 'r' => some '\r'
  | 't' => some '\t'
  | _ => none

def hexDigit? (c : Char) : Option Nat :=
  if '0' ≤ c ∧ c ≤ '9' then some (c.toNat - '0'.toNat)
  else if 'a' ≤ c ∧ c ≤ 'f' then some (c.toNat - 'a'.toNat + 10)
  else if 'A' ≤ c ∧ c ≤ 'F' then some (c.toNat - 'A'.toNat + 10)
  else none

/-! ### Numbers and words -/

def isLetter (c : Char) : Bool := 'a' ≤ c && c ≤ 'z'

/-- Whether a character can stand in a number. -/
def isNumberChar (c : Char) : Bool :=
  Decimal.isDigit c || c == '-' || c == '+' || c == '.' || c == 'e' || c == 'E'

/-- Whether characters are digits, at least one. -/
def isDigits (run : List Char) : Bool := !run.isEmpty && run.all Decimal.isDigit

/-- Nothing, or an exponent. -/
def isExponent : List Char → Bool
  | [] => true
  | mark :: '+' :: rest | mark :: '-' :: rest => (mark == 'e' || mark == 'E') && isDigits rest
  | mark :: rest => (mark == 'e' || mark == 'E') && isDigits rest

/-- What may follow the whole part of a number: a fraction, an exponent, both or neither. -/
def isNumberTail : List Char → Bool
  | '.' :: rest =>
    !(rest.takeWhile Decimal.isDigit).isEmpty && isExponent (rest.dropWhile Decimal.isDigit)
  | rest => isExponent rest

/-- A number without its minus sign; only zero itself starts with the digit zero. -/
def isUnsignedNumber : List Char → Bool
  | '0' :: rest => isNumberTail rest
  | run => !(run.takeWhile Decimal.isDigit).isEmpty && isNumberTail (run.dropWhile Decimal.isDigit)

def isNumber : List Char → Bool
  | '-' :: rest => isUnsignedNumber rest
  | run => isUnsignedNumber run

def wordToken? (word : String) : Option Token :=
  if word = "null" then some .null
  else if word = "true" then some (.bool true)
  else if word = "false" then some (.bool false)
  else none

/-! ### The scanner -/

/-- Where the scanner stands. Runs and pieces are in reverse. -/
inductive Mode where
  | between
  | word (run : List Char)
  | number (run : List Char)
  | string (pieces : List Piece)
  | escape (pieces : List Piece)
  | unit (pieces : List Piece) (digits code : Nat)

structure Scanner where
  /-- Tokens found so far, the latest first. -/
  tokens : List Token := []
  mode : Mode := .between

namespace Scanner

def emit (scanner : Scanner) (token : Token) : Scanner :=
  { tokens := token :: scanner.tokens, mode := .between }

/-- Ends a number or a word that is under way. -/
def close? (scanner : Scanner) : Option Scanner :=
  match scanner.mode with
  | .between => some scanner
  | .word run => (wordToken? (String.ofList run.reverse)).map scanner.emit
  | .number run =>
    if isNumber run.reverse then some (scanner.emit (.number (String.ofList run.reverse))) else none
  | _ => none

/-- Takes a character that stands between tokens. -/
def start? (scanner : Scanner) (c : Char) : Option Scanner :=
  match c with
  | ' ' | '\t' | '\r' | '\n' => some scanner
  | '[' => some (scanner.emit .openArray)
  | ']' => some (scanner.emit .closeArray)
  | '\x7b' => some (scanner.emit .openObject)
  | '\x7d' => some (scanner.emit .closeObject)
  | ',' => some (scanner.emit .comma)
  | ':' => some (scanner.emit .colon)
  | '"' => some { scanner with mode := .string [] }
  | c =>
    if isLetter c then some { scanner with mode := .word [c] }
    else if isNumberChar c then some { scanner with mode := .number [c] }
    else none

def advance? (scanner : Scanner) (c : Char) : Option Scanner :=
  match scanner.mode with
  | .between => scanner.start? c
  | .word run =>
    if isLetter c then some { scanner with mode := .word (c :: run) }
    else scanner.close?.bind (·.start? c)
  | .number run =>
    if isNumberChar c then some { scanner with mode := .number (c :: run) }
    else scanner.close?.bind (·.start? c)
  | .string pieces =>
    if c = '"' then some (scanner.emit (.string (textOf pieces)))
    else if c = '\\' then some { scanner with mode := .escape pieces }
    else if c.toNat < 0x20 then none
    else some { scanner with mode := .string (.char c :: pieces) }
  | .escape pieces =>
    if c = 'u' then some { scanner with mode := .unit pieces 0 0 }
    else (escaped? c).map fun d => { scanner with mode := .string (.char d :: pieces) }
  | .unit pieces digits code =>
    (hexDigit? c).map fun d =>
      if digits < 3 then { scanner with mode := .unit pieces (digits + 1) (16 * code + d) }
      else { scanner with mode := .string (.unit (16 * code + d) :: pieces) }

end Scanner

/-- The tokens of a text, or `none` if some part of it is no token. -/
def scan? (text : List Char) : Option (List Token) := do
  let scanner ← text.foldlM Scanner.advance? {}
  let scanner ← scanner.close?
  return scanner.tokens.reverse

end TreeLang.Json
