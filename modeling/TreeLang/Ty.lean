/-! Resolved types and tags. A `Ty` has a concrete length at every array level and
says which cells a variable gets. A `Tag` forgets the lengths; functions are selected
and arrays are compared by tag. -/
namespace TreeLang

inductive Tag where
  | int
  | bool
  | void
  | array (element : Tag)
  deriving DecidableEq

/-- The spelling used in signatures and messages. -/
def Tag.text : Tag → String
  | int => "int"
  | bool => "bool"
  | void => "void"
  | array element => "array_" ++ element.text

inductive Ty where
  | int
  | bool
  | void
  | array (element : Ty) (size : Nat)
  deriving DecidableEq

namespace Ty

def tag : Ty → Tag
  | int => .int
  | bool => .bool
  | void => .void
  | array element _ => .array element.tag

/-- The type as a reader sees it: the innermost length stands first. -/
def text : Ty → String
  | int => "int"
  | bool => "bool"
  | void => "void"
  | array element size => element.text ++ "[" ++ size.repr ++ "]"

end Ty

end TreeLang
