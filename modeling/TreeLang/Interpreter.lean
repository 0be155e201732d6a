import TreeLang.Eval

/-! The interpreter: programs are loaded into its registry, and functions, expressions and
statements are evaluated one after the other in the state that the last one left. The console
is in memory: a run has nothing left to flush at its end, so it ends as its entry point does. -/
namespace TreeLang

/-- How an operation ended. -/
inductive Answer (α : Type) where
  | value (value : α)
  | failure (failure : Failure)
  | unfinished

def Answer.map {α β : Type} (f : α → β) : Answer α → Answer β
  | value a => .value (f a)
  | failure f => .failure f
  | unfinished => .unfinished

structure Interpreter where
  context : Context := {}
  state : State := {}

namespace Interpreter

variable {α : Type}

/-- An interpreter without functions, at the start of its input. -/
def start (console : Console) (maxCallDepth : Nat) : Interpreter where
  context := { maxCallDepth }
  state := { console }

/-- Another interpreter without functions over the same cells and trees. -/
def restart (interpreter : Interpreter) (console : Console) (maxCallDepth : Nat) : Interpreter where
  context := { maxCallDepth }
  state := { console, heap := interpreter.state.heap, resolved := interpreter.state.resolved }

/-- Makes a program part of the interpreter's trees. -/
def placeProgram (interpreter : Interpreter) (program : Program Unit) :
    Program Slot × Interpreter :=
  let state := interpreter.state
  let (program, resolved) := state.resolved.placeProgram program.unsettled
  (program, { interpreter with state := { state with resolved } })

/-- Makes a node part of the interpreter's trees, with the types it has already. -/
def placeNode (interpreter : Interpreter) (node : Node (Option Ty)) : Node Slot × Interpreter :=
  let state := interpreter.state
  let (node, resolved) := state.resolved.placeNode node
  (node, { interpreter with state := { state with resolved } })

def perform (interpreter : Interpreter) (action : Exec α) : Answer α × Interpreter :=
  match action interpreter.state with
  | .ok value state => (.value value, { interpreter with state })
  | .error failure state => (.failure failure, { interpreter with state })
  | .outOfFuel => (.unfinished, interpreter)

/-- Registers the functions of a program up to the first that is refused. -/
def load (interpreter : Interpreter) (program : Program Slot) : Answer Unit × Interpreter :=
  let (registry, result) := interpreter.context.registry.registerAll program.functions
  let interpreter := { interpreter with context := { interpreter.context with registry } }
  match result with
  | .ok _ => (.value (), interpreter)
  | .error failure => (.failure failure, interpreter)

/-- Evaluates a node. What an expression leaves on the operand stack stays there. -/
def evaluate (fuel : Nat) (interpreter : Interpreter) (node : Node Slot) :
    Answer Flow × Interpreter :=
  interpreter.perform (eval interpreter.context fuel node)

/-- Evaluates an expression and takes its value. -/
def evalExpr (fuel : Nat) (interpreter : Interpreter) (node : Node Slot) :
    Answer Value × Interpreter :=
  interpreter.perform (Eval.value (eval interpreter.context fuel) node)

/-- Calls the function that the tags of the arguments select. -/
def call (fuel : Nat) (interpreter : Interpreter) (name : String) (args : List Value) :
    Answer (Option Value) × Interpreter :=
  interpreter.perform (Eval.invoke (eval interpreter.context fuel) interpreter.context name args)

/-- The name of the function, without parameters, where a run starts. -/
def entryPoint : String := "main"

/-- Calls the entry point if there is one. -/
def runEntry (fuel : Nat) (interpreter : Interpreter) : Answer Unit × Interpreter :=
  let context := interpreter.context
  match context.registry.get? (signature entryPoint []) with
  | none => (.value (), interpreter)
  | some main =>
    let (answer, interpreter) := interpreter.perform (Eval.enter (eval context fuel) context main [])
    (answer.map fun _ => (), interpreter)

/-- Loads a program and calls its entry point. -/
def run (fuel : Nat) (interpreter : Interpreter) (program : Program Slot) :
    Answer Unit × Interpreter :=
  match interpreter.load program with
  | (.value _, interpreter) => interpreter.runEntry fuel
  | refused => refused

/-- More levels of nesting, and more turns of a loop, than a machine can get through. -/
def ampleFuel : Nat := Nat.pow 2 62

def output (interpreter : Interpreter) : String := interpreter.state.console.output

def stackHeight (interpreter : Interpreter) : Nat := interpreter.state.stack.size

end Interpreter

/-- Runs a program in an interpreter of its own. -/
def Program.run (program : Program Unit) (console : Console) (maxCallDepth : Nat) :
    Answer Unit × Interpreter :=
  let (placed, interpreter) := (Interpreter.start console maxCallDepth).placeProgram program
  interpreter.run Interpreter.ampleFuel placed

end TreeLang
