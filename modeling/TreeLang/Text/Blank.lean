/-! White space and the words between it. A character is blank if it has the Unicode
property `White_Space`; a word is a maximal run without blanks. -/
namespace TreeLang.Text

/-- The code points with the property `White_Space`, as closed ranges in order. -/
def blankRanges : List (Nat × Nat) := [
  (0x0009, 0x000D), (0x0020, 0x0020), (0x0085, 0x0085), (0x00A0, 0x00A0),
  (0x1680, 0x1680), (0x2000, 0x200A), (0x2028, 0x2029), (0x202F, 0x202F),
  (0x205F, 0x205F), (0x3000, 0x3000)]

def isBlank (c : Char) : Bool :=
  blankRanges.any fun (first, last) => first ≤ c.toNat && c.toNat ≤ last

/-- The word held in `run`, whose characters stand in reverse, unless it is empty. -/
def closeRun (run : List Char) : List String :=
  if run.isEmpty then [] else [String.ofList run.reverse]

/-- The words of a text that continues the unfinished word `run`. -/
def wordsFrom (run : List Char) : List Char → List String
  | [] => closeRun run
  | c :: rest =>
    if isBlank c then closeRun run ++ wordsFrom [] rest else wordsFrom (c :: run) rest

def words (text : String) : List String := wordsFrom [] text.toList

end TreeLang.Text
