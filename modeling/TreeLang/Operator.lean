/-! The operators of the language, their spelling and their meaning on 64-bit integers.
Addition, subtraction and multiplication wrap; division and remainder truncate toward
zero and have no value at a zero divisor. -/
namespace TreeLang

inductive ArithOp where
  | add
  | sub
  | mul
  | div
  | rem
  deriving DecidableEq

inductive LogicOp where
  | and
  | or
  deriving DecidableEq

inductive CmpOp where
  | lt
  | le
  | gt
  | ge
  | eq
  | ne
  deriving DecidableEq

namespace ArithOp

def text : ArithOp → String
  | add => "+"
  | sub => "-"
  | mul => "*"
  | div => "/"
  | rem => "%"

def all : List ArithOp := [add, sub, mul, div, rem]

def ofText? (spelling : String) : Option ArithOp := all.find? (·.text == spelling)

/-- The result at two operands; `none` exactly for a zero divisor. -/
def result? (op : ArithOp) (left right : Int64) : Option Int64 :=
  match op with
  | add => some (left + right)
  | sub => some (left - right)
  | mul => some (left * right)
  | div => if right = 0 then none else some (left / right)
  | rem => if right = 0 then none else some (left % right)

theorem ofText?_text (op : ArithOp) : ofText? op.text = some op := by
  cases op <;> decide

end ArithOp

namespace LogicOp

def text : LogicOp → String
  | and => "&&"
  | or => "||"

def all : List LogicOp := [and, or]

def ofText? (spelling : String) : Option LogicOp := all.find? (·.text == spelling)

/-- The result, if the left operand alone decides it. -/
def decided? (op : LogicOp) (left : Bool) : Option Bool :=
  match op, left with
  | and, false => some false
  | or, true => some true
  | _, _ => none

theorem ofText?_text (op : LogicOp) : ofText? op.text = some op := by
  cases op <;> decide

end LogicOp

namespace CmpOp

def text : CmpOp → String
  | lt => "<"
  | le => "<="
  | gt => ">"
  | ge => ">="
  | eq => "=="
  | ne => "!="

def all : List CmpOp := [lt, le, gt, ge, eq, ne]

def ofText? (spelling : String) : Option CmpOp := all.find? (·.text == spelling)

def holds (op : CmpOp) (left right : Int64) : Bool :=
  match op with
  | lt => left < right
  | le => left ≤ right
  | gt => right < left
  | ge => right ≤ left
  | eq => left == right
  | ne => left != right

theorem ofText?_text (op : CmpOp) : ofText? op.text = some op := by
  cases op <;> decide

end CmpOp

end TreeLang
