import TreeLang.Heap

/-! The operand stack. Expressions leave their results on it; a frame mark remembers the
height at a function's entry so that all that came later can be dropped at once. -/
namespace TreeLang

structure OperandStack where
  /-- The top stands first. -/
  values : List Value := []
  /-- Marked heights, the innermost first. -/
  frames : List Nat := []
  deriving DecidableEq

namespace OperandStack

def empty : OperandStack := {}

def size (stack : OperandStack) : Nat := stack.values.length

def push (stack : OperandStack) (value : Value) : OperandStack :=
  { stack with values := value :: stack.values }

/-- Takes the top value off. -/
def pop (stack : OperandStack) : Except Failure (Value × OperandStack) :=
  match stack.values with
  | [] => .error .missingValue
  | value :: values => .ok (value, { stack with values })

/-- Drops values until at most `height` are left. -/
def truncate (stack : OperandStack) (height : Nat) : OperandStack :=
  { stack with values := stack.values.drop (stack.size - height) }

def pushFrame (stack : OperandStack) : OperandStack :=
  { stack with frames := stack.size :: stack.frames }

/-- Drops the innermost mark and what came after it; without a mark nothing changes. -/
def popFrame (stack : OperandStack) : OperandStack :=
  match stack.frames with
  | [] => stack
  | height :: frames => { stack.truncate height with frames }

end OperandStack

end TreeLang
