/-! Decimal numerals. A numeral is an optional sign and at least one ASCII digit, and
leading zeros are allowed. A word is a number of the signed 64-bit range. -/
namespace TreeLang.Decimal

def isDigit (c : Char) : Bool := '0' ≤ c && c ≤ '9'

def digit (c : Char) : Nat := c.toNat - '0'.toNat

/-- The number that a list of digits spells, most significant digit first. -/
def value (digits : List Char) : Nat := digits.foldl (fun n c => 10 * n + digit c) 0

/-- Reads an unsigned numeral: at least one digit and nothing else. -/
def natural? (spelling : List Char) : Option Nat :=
  if spelling ≠ [] ∧ spelling.all isDigit then some (value spelling) else none

/-- Reads a numeral with an optional sign. -/
def integer? : List Char → Option Int
  | '+' :: digits => (natural? digits).map Int.ofNat
  | '-' :: digits => (natural? digits).map fun n => -Int.ofNat n
  | digits => (natural? digits).map Int.ofNat

/-- The word equal to a number, if the number is in range. -/
def word? (n : Int) : Option Int64 :=
  if Int64.minValue.toInt ≤ n ∧ n ≤ Int64.maxValue.toInt then some (Int64.ofInt n) else none

/-- Reads a signed 64-bit number. -/
def readWord? (spelling : String) : Option Int64 := (integer? spelling.toList).bind word?

/-- The bound that a length or a limit stays below. -/
def sizeBound : Nat := Nat.pow 2 64

/-- The number itself, if it is a possible length or limit. -/
def size? (n : Nat) : Option Nat := if n < sizeBound then some n else none

/-- Reads an unsigned 64-bit number; a plus sign is allowed in front. -/
def readSize? (spelling : String) : Option Nat :=
  match spelling.toList with
  | '+' :: digits => (natural? digits).bind size?
  | digits => (natural? digits).bind size?

/-- The shortest numeral of an integer: no plus sign and no leading zero. -/
def text : Int → String
  | .ofNat n => n.repr
  | .negSucc n => "-" ++ (n + 1).repr

/-- The shortest numeral of a word. -/
def wordText (n : Int64) : String := text n.toInt

end TreeLang.Decimal
