import TreeLang.Operator
import TreeLang.Ty

/-! Syntax trees. The parameter `δ` is what each declaration carries beside its name and
type: nothing in a tree as it was read, a slot number in a tree that is being run, and
the type found so far in a snapshot of such a tree. -/
namespace TreeLang

mutual
/-- A declared type. The length of an array is an expression. -/
inductive TypeSpec (δ : Type) where
  | int
  | bool
  | void
  | array (element : TypeSpec δ) (size : Node δ)

/-- A variable declaration or a parameter. -/
structure Declaration (δ : Type) where
  name : String
  ty : TypeSpec δ
  note : δ

/-- An expression or a statement. A `block` has a scope of its own, a `group` has none. -/
inductive Node (δ : Type) where
  | int (value : Int64)
  | bool (value : Bool)
  | var (name : String)
  | index (base position : Node δ)
  | arith (op : ArithOp) (left right : Node δ)
  | logic (op : LogicOp) (left right : Node δ)
  | compare (op : CmpOp) (left right : Node δ)
  | not (operand : Node δ)
  | assign (target value : Node δ)
  | call (name : String) (args : List (Node δ))
  | declare (declaration : Declaration δ)
  | block (body : List (Node δ))
  | group (body : List (Node δ))
  | branch (condition yes : Node δ) (no : Option (Node δ))
  | loop (condition body : Node δ)
  | ret (value : Option (Node δ))
end

/-- A function; its body shares the scope of the parameters. -/
structure FunctionDef (δ : Type) where
  name : String
  params : List (Declaration δ)
  body : List (Node δ)
  returns : TypeSpec δ

structure Program (δ : Type) where
  functions : List (FunctionDef δ)

namespace TypeSpec

variable {δ : Type}

def tag : TypeSpec δ → Tag
  | int => .int
  | bool => .bool
  | void => .void
  | array element _ => .array element.tag
termination_by structural spec => spec

/-- The type as a reader sees it; lengths are left out. -/
def text : TypeSpec δ → String
  | int => "int"
  | bool => "bool"
  | void => "void"
  | array element _ => element.text ++ "[]"
termination_by structural spec => spec

def isVoid : TypeSpec δ → Bool
  | void => true
  | _ => false

/-- Whether a variable of the type can hold a value: there is no `void` at any depth. -/
def isStorable : TypeSpec δ → Bool
  | int | bool => true
  | void => false
  | array element _ => element.isStorable
termination_by structural spec => spec

end TypeSpec

/-- The kinds of nodes. -/
inductive Kind where
  | int
  | bool
  | var
  | index
  | arith
  | logic
  | compare
  | not
  | assign
  | call
  | declare
  | block
  | group
  | branch
  | loop
  | ret
  deriving DecidableEq

namespace Kind

/-- The name of a kind in the written form. -/
def name : Kind → String
  | int => "IntLiteral"
  | bool => "BoolLiteral"
  | var => "Variable"
  | index => "Index"
  | arith => "Arithmetic"
  | logic => "Logic"
  | compare => "Condition"
  | not => "Not"
  | assign => "Assign"
  | call => "Call"
  | declare => "NewVariable"
  | block => "Compound"
  | group => "Statements"
  | branch => "If"
  | loop => "While"
  | ret => "Return"

def all : List Kind :=
  [int, bool, var, index, arith, logic, compare, not, assign, call, declare, block, group, branch,
    loop, ret]

def ofName? (name : String) : Option Kind := all.find? (·.name == name)

end Kind

def Node.kind {δ : Type} : Node δ → Kind
  | int _ => .int
  | bool _ => .bool
  | var _ => .var
  | index .. => .index
  | arith .. => .arith
  | logic .. => .logic
  | compare .. => .compare
  | not _ => .not
  | assign .. => .assign
  | call .. => .call
  | declare _ => .declare
  | block _ => .block
  | group _ => .group
  | branch .. => .branch
  | loop .. => .loop
  | ret _ => .ret

end TreeLang
