import TreeLang.Machine
import TreeLang.Registry

/-! Evaluation of trees. Expressions leave one value on the operand stack; statements
leave it as it was and tell whether a `return` is under way. The rules of one level are
written against an evaluator for the levels below, and `eval` closes the recursion with
fuel. Fuel bounds the nesting of evaluation and the turns of each loop, so more fuel never
changes the outcome of a run that ends. -/
namespace TreeLang

inductive Flow where
  | completed
  | returned (value : Option Value)
  deriving DecidableEq

/-- What a run never changes: the functions and how deep calls may nest. -/
structure Context where
  registry : Registry Slot := {}
  maxCallDepth : Nat := 100000

abbrev Evaluator := Node Slot → Exec Flow

namespace Eval

open Exec

variable (eval : Evaluator)

/-- Evaluates an expression, which must leave a value, and takes the value. -/
def value (node : Node Slot) : Exec Value := do
  let before ← height
  match ← eval node with
  | .returned _ => fail .returnInExpression
  | .completed =>
    if before < (← height) then pop else fail .missingValue

def int (node : Node Slot) : Exec Int64 := do
  toInt (← value eval node)

def truth (node : Node Slot) : Exec Bool := do
  Exec.truth (← value eval node)

/-- Runs a statement and drops what it leaves on the stack. -/
def statement (node : Node Slot) : Exec Flow := do
  let before ← height
  let flow ← eval node
  truncate before
  return flow

/-- Runs statements up to the first that returns. -/
def statements : List (Node Slot) → Exec Flow
  | [] => return .completed
  | node :: rest => do
    match ← statement eval node with
    | .returned value => return .returned value
    | .completed => statements rest

def values : List (Node Slot) → Exec (List Value)
  | [] => return []
  | node :: rest => do
    let first ← value eval node
    let others ← values rest
    return first :: others

/-- Repeats a body while a condition holds, for at most `turns` tests of the condition. -/
def loop (condition body : Node Slot) : Nat → Exec Flow
  | 0 => outOfFuel
  | turns + 1 => do
    if ← truth eval condition then
      match ← statement eval body with
      | .returned value => return .returned value
      | .completed => loop condition body turns
    else
      return .completed

/-- Works out a declared type: each length is evaluated before the element type and must
be positive. -/
def resolve : TypeSpec Slot → Exec Ty
  | .int => return .int
  | .bool => return .bool
  | .void => return .void
  | .array element size => do
    let n ← int eval size
    if 0 < n then
      return .array (← resolve element) n.toInt.toNat
    else
      fail (.invalidArraySize n)
termination_by structural spec => spec

/-- The type of a declaration. Only the first evaluation works it out. -/
def typeOf (declaration : Declaration Slot) : Exec Ty := do
  match ← settledType? declaration.note with
  | some ty => return ty
  | none => settle declaration.note (← resolve eval declaration.ty)

/-- Binds a declared name to a fresh cell. -/
def declare (declaration : Declaration Slot) : Exec Unit := do
  let ty ← typeOf eval declaration
  let ref ← newCell ty
  bindName declaration.name ref

/-- Declares parameters and gives each its argument. -/
def bindParams : List (Declaration Slot) → List Value → Exec Unit
  | param :: params, arg :: args => do
    declare eval param
    let ref ← lookup param.name
    assign ref arg
    bindParams params args
  | _, _ => return

/-- What a call yields when its body returned `value`: the declared type must fit, and a
scalar is coerced to it. -/
def checkReturn (heap : Heap) (function : FunctionDef Slot) (value : Option Value) :
    Except Failure (Option Value) :=
  let mismatch (got : String) : Except Failure (Option Value) :=
    .error (.returnMismatch function.name function.returns.tag.text got)
  match value, function.returns with
  | none, .void => .ok none
  | none, _ => mismatch "nothing"
  | some value, .void => mismatch (heap.tag value).text
  | some value, .int =>
    match heap.toInt value with
    | .ok n => .ok (some (.int n))
    | .error _ => mismatch (heap.tag value).text
  | some value, .bool =>
    match heap.tag value with
    | .array element => mismatch (Tag.array element).text
    | _ => .ok (some (.bool (heap.truth value)))
  | some value, .array element _ =>
    if heap.tag value = .array element.tag then .ok (some value)
    else mismatch (heap.tag value).text

/-- What a call yields, given how its body ended. -/
def finish (function : FunctionDef Slot) : Flow → Exec (Option Value)
  | .returned value => reading fun s => checkReturn s.heap function value
  | .completed => if function.returns.isVoid then return none else fail (.missingReturn function.name)

/-- Binds the parameters and runs the body; whatever it leaves on the stack is dropped. -/
def activate (function : FunctionDef Slot) (args : List Value) : Exec (Option Value) := do
  bindParams eval function.params args
  modify fun s => { s with stack := s.stack.pushFrame }
  let flow ← (statements eval function.body).thenAlways fun s =>
    { s with stack := s.stack.popFrame }
  finish function flow

/-- Calls a function in an environment of its own, one call deeper, and then goes back to the
caller's and counts the call off, whatever the depth has become. -/
def enter (context : Context) (function : FunctionDef Slot) (args : List Value) :
    Exec (Option Value) := fun s =>
  if s.depth < context.maxCallDepth then
    (activate eval function args).thenAlways
      (fun t => { t with env := s.env, depth := t.depth - 1 })
      { s with env := .empty, depth := s.depth + 1 }
  else
    .error (.callDepthExceeded context.maxCallDepth) s

/-- Calls the function that the tags of the arguments select. -/
def invoke (context : Context) (name : String) (args : List Value) : Exec (Option Value) := do
  let function ← reading fun s =>
    context.registry.resolve (signature name (args.map s.heap.tag))
  enter eval context function args

def builtin (function : Builtin) : List (Node Slot) → Exec Unit
  | [] => return
  | node :: rest => do
    let arg ← value eval node
    match function, arg with
    | .print, arg => print arg
    | .read, .cell ref => readInto ref
    | .read, _ => fail (.notAddressable "read")
    builtin function rest

def call (context : Context) (name : String) (args : List (Node Slot)) : Exec Unit := do
  match Builtin.ofName? name with
  | some function => builtin eval function args
  | none =>
    match ← invoke eval context name (← values eval args) with
    | some result => push result
    | none => return

/-- Leaves a value as the result of an expression. -/
def produce (value : Value) : Exec Flow := do
  push value
  return .completed

/-- Evaluates one node, its parts through `eval`. -/
def step (context : Context) (turns : Nat) : Node Slot → Exec Flow
  | .int n => produce (.int n)
  | .bool b => produce (.bool b)
  | .var name => do produce (.cell (← lookup name))
  | .index base position => do
    let base ← value eval base
    let array ← reading (·.heap.toArray base)
    let position ← int eval position
    produce (.cell (← reading (·.heap.element array position)))
  | .arith op left right => do
    let left ← int eval left
    let right ← int eval right
    match op.result? left right with
    | some n => produce (.int n)
    | none => fail .divisionByZero
  | .logic op left right => do
    match op.decided? (← truth eval left) with
    | some b => produce (.bool b)
    | none => produce (.bool (← truth eval right))
  | .compare op left right => do
    let left ← int eval left
    let right ← int eval right
    produce (.bool (op.holds left right))
  | .not operand => do produce (.bool (!(← truth eval operand)))
  | .assign target source => do
    match ← value eval target with
    | .cell ref =>
      let source ← value eval source
      assign ref source
      produce (.cell ref)
    | _ => fail (.notAddressable "assignment")
  | .call name args => do
    call eval context name args
    return .completed
  | .declare declaration => do
    declare eval declaration
    return .completed
  | .block body => do
    modify fun s => { s with env := s.env.pushScope }
    (statements eval body).thenAlways fun s => { s with env := s.env.popScope }
  | .group body => statements eval body
  | .branch condition yes no => do
    if ← truth eval condition then
      statement eval yes
    else
      match no with
      | some no => statement eval no
      | none => return .completed
  | .loop condition body => loop eval condition body turns
  | .ret none => return .returned none
  | .ret (some result) => return .returned (some (← value eval result))

end Eval

/-- Evaluates a node with `fuel` levels of nesting to go. -/
def eval (context : Context) : Nat → Evaluator
  | 0, _ => Exec.outOfFuel
  | fuel + 1, node => Eval.step (eval context fuel) context fuel node

end TreeLang
