import TreeLang.Console
import TreeLang.Datum
import TreeLang.Env
import TreeLang.OperandStack
import TreeLang.Tree.Slot

/-! The state of a running program and the actions on it. An action ends with a result or
with a failure, and in both cases with the state it has reached; or it runs out of fuel,
which says nothing about the program. -/
namespace TreeLang

structure State where
  heap : Heap := {}
  resolved : Resolutions := {}
  console : Console := {}
  env : Env := {}
  stack : OperandStack := {}
  /-- The number of function calls in progress. -/
  depth : Nat := 0
  deriving DecidableEq

inductive Outcome (α : Type) where
  | ok (value : α) (state : State)
  | error (failure : Failure) (state : State)
  | outOfFuel
  deriving DecidableEq

def Exec (α : Type) : Type := State → Outcome α

namespace Exec

variable {α β : Type}

@[always_inline, inline]
protected def pure (value : α) : Exec α := fun s => .ok value s

/-- Runs the second action from where the first succeeds. -/
@[always_inline, inline]
protected def bind (first : Exec α) (next : α → Exec β) : Exec β := fun s =>
  match first s with
  | .ok value s => next value s
  | .error failure s => .error failure s
  | .outOfFuel => .outOfFuel

instance : Monad Exec where
  pure := Exec.pure
  bind := Exec.bind

@[inline]
def fail (failure : Failure) : Exec α := fun s => .error failure s

@[inline]
def outOfFuel : Exec α := fun _ => .outOfFuel

/-- A result or a failure that depends on the state and leaves it alone. -/
@[inline]
def reading (query : State → Except Failure α) : Exec α := fun s =>
  match query s with
  | .ok value => .ok value s
  | .error failure => .error failure s

@[inline]
def ofExcept (result : Except Failure α) : Exec α := reading fun _ => result

@[inline]
def modify (change : State → State) : Exec Unit := fun s => .ok () (change s)

/-- Changes the state after an action, whether it succeeds or fails. -/
@[inline]
def thenAlways (action : Exec α) (change : State → State) : Exec α := fun s =>
  match action s with
  | .ok value s => .ok value (change s)
  | .error failure s => .error failure (change s)
  | .outOfFuel => .outOfFuel

/-! ### The operand stack -/

def height : Exec Nat := reading fun s => .ok s.stack.size

def push (value : Value) : Exec Unit := modify fun s => { s with stack := s.stack.push value }

def pop : Exec Value := fun s =>
  match s.stack.pop with
  | .ok (value, stack) => .ok value { s with stack }
  | .error failure => .error failure s

def truncate (height : Nat) : Exec Unit :=
  modify fun s => { s with stack := s.stack.truncate height }

/-! ### Cells and names -/

def lookup (name : String) : Exec Ref := reading (·.env.lookup name)

def toInt (value : Value) : Exec Int64 := reading (·.heap.toInt value)

def truth (value : Value) : Exec Bool := reading fun s => .ok (s.heap.truth value)

def assign (target : Ref) (value : Value) : Exec Unit := fun s =>
  match s.heap.written target value with
  | .ok cell => .ok () { s with heap := s.heap.put target cell }
  | .error failure => .error failure s

/-- A fresh cell of a type. -/
def newCell (ty : Ty) : Exec Ref := fun s =>
  match ty.fault? with
  | some failure => .error failure s
  | none =>
    let (ref, heap) := s.heap.alloc ty
    .ok ref { s with heap }

/-- Binds a name in the innermost scope. -/
def bindName (name : String) (ref : Ref) : Exec Unit := fun s =>
  match s.env.declare name ref with
  | .ok env => .ok () { s with env }
  | .error failure => .error failure s

/-! ### The types of declarations -/

def settledType? (slot : Slot) : Exec (Option Ty) := reading fun s => .ok (s.resolved.get? slot)

/-- Settles the type of a slot and gives the one that counts: the first to be settled. -/
def settle (slot : Slot) (ty : Ty) : Exec Ty := fun s =>
  .ok ((s.resolved.get? slot).getD ty) { s with resolved := s.resolved.settle slot ty }

/-! ### The console -/

def readToken : Exec String := fun s =>
  match s.console.readToken with
  | (.ok token, console) => .ok token { s with console }
  | (.error failure, console) => .error failure { s with console }

/-- Writes the text of a value as a line. This cannot fail, as the console is in memory. -/
def print (value : Value) : Exec Unit :=
  modify fun s => { s with console := s.console.writeLine (s.heap.text value) }

/-- Reads one token into each scalar cell met on a walk through the elements, in order. The
walk goes as deep as the tag says. -/
def readAt : Tag → Ref → Exec Unit
  | .int, cell => do
    let token ← readToken
    let n ← ofExcept (intOfToken token)
    assign cell (.int n)
  | .bool, cell => do
    let token ← readToken
    let b ← ofExcept (boolOfToken token)
    assign cell (.bool b)
  | .void, _ => return
  | .array element, array => do
    let elements ← reading fun s => .ok (s.heap.elements array)
    elements.toList.forM (readAt element)

def readInto (cell : Ref) : Exec Unit := do
  let tag ← reading fun s => .ok (s.heap.get cell).tag
  readAt tag cell

end Exec

end TreeLang
