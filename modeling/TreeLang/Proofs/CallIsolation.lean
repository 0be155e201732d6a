import TreeLang.Proofs.CallEffects
import TreeLang.Proofs.EchoingRuns

/-! A called function cannot tell who calls it. What the caller has named, what it has on the
operand stack and which frames are marked there is of no influence on a call, and the call has
no influence on them: two callers that share everything else get the same answer, share
everything else again, and each is left with its own names and its own stack. -/
namespace TreeLang

namespace Eval

variable {eval : Evaluator} {context : Context} {s : State}

/-- A call runs in an environment of its own, so only the way back leads to the caller's. -/
theorem enter_env (function : FunctionDef Slot) (args : List Value) (env : Env) :
    enter eval context function args { s with env } =
      (enter eval context function args).thenAlways (fun t => { t with env }) s := by
  unfold enter Exec.thenAlways
  by_cases room : s.depth < context.maxCallDepth
  · simp only [if_pos room]
    cases activate eval function args { s with env := .empty, depth := s.depth + 1 } <;> rfl
  · simp only [if_neg room]

theorem invoke_env (name : String) (args : List Value) (env : Env) :
    invoke eval context name args { s with env } =
      (invoke eval context name args).thenAlways (fun t => { t with env }) s := by
  have called (s : State) : invoke eval context name args s =
      match context.registry.resolve (signature name (args.map s.heap.tag)) with
      | .ok function => enter eval context function args s
      | .error failure => .error failure s := by
    change (Exec.bind _ _) s = _
    simp only [Exec.bind, Exec.reading]
    cases context.registry.resolve (signature name (args.map s.heap.tag)) <;> rfl
  simp only [Exec.thenAlways, called]
  cases context.registry.resolve (signature name (args.map s.heap.tag)) with
  | error failure => rfl
  | ok function => exact enter_env function args env

theorem invoke_stack (fuel : Nat) (name : String) (args : List Value) (s : State) (stack : OperandStack) :
    invoke (TreeLang.eval context fuel) context name args { s with stack } =
      (invoke (TreeLang.eval context fuel) context name args).thenAlways (fun t => { t with stack }) s := by
  have agree : Law.control.Agree False (s.depth + 1) (TreeLang.eval context fuel) (TreeLang.eval context fuel) :=
    ⟨Law.control_sound context fuel, fun related => related.1,
      fun node t _ _ => eval_replays context (Nat.le_refl fuel) (.inr rfl) node t⟩
  have echoes : Exec.Echoes False (invoke (TreeLang.eval context fuel) context name args)
      (invoke (TreeLang.eval context fuel) context name args) s :=
    Law.invoke_echoes fun function => Law.activate_echoes agree
      (function.every_of_forall fun _ => trivial) ⟨trivial, rfl⟩ fun _ _ => trivial
  unfold Exec.thenAlways
  cases outcome : invoke (TreeLang.eval context fuel) context name args s with
  | ok value t => exact echoes.of_ok outcome stack
  | error failure t => exact echoes.of_error outcome stack
  | outOfFuel => exact (echoes.of_outOfFuel outcome stack).resolve_left id

/-- A call somewhere else, among other names and over another stack, is the same call. -/
theorem invoke_elsewhere (fuel : Nat) (name : String) (args : List Value) (env : Env) (stack : OperandStack) :
    invoke (TreeLang.eval context fuel) context name args { s with env, stack } =
      (invoke (TreeLang.eval context fuel) context name args).thenAlways (fun t => { t with env, stack }) s := by
  have moved : invoke (TreeLang.eval context fuel) context name args { s with env, stack } =
      (invoke (TreeLang.eval context fuel) context name args).thenAlways (fun t => { t with stack })
        { s with env } :=
    invoke_stack fuel name args { s with env } stack
  rw [moved]
  unfold Exec.thenAlways
  rw [invoke_env]
  unfold Exec.thenAlways
  cases invoke (TreeLang.eval context fuel) context name args s <;> rfl

end Eval

namespace Interpreter

/-- All that a called function can see is the same: the functions and the limit on calls, the
cells, the settled types, the console and the depth of calls. -/
structure SharesWith (first second : Interpreter) : Prop where
  context : second.context = first.context
  heap : second.state.heap = first.state.heap
  resolved : second.state.resolved = first.state.resolved
  console : second.state.console = first.state.console
  depth : second.state.depth = first.state.depth

variable {first second : Interpreter}

theorem SharesWith.eq_elsewhere (shared : first.SharesWith second) :
    second = { first with state := { first.state with env := second.state.env, stack := second.state.stack } } := by
  obtain ⟨context, heap, resolved, console, depth⟩ := shared
  obtain ⟨_, _, _, _, _, _, _⟩ := second
  obtain ⟨_, _, _, _, _, _, _⟩ := first
  simp_all

/-- A call leaves the names and the stack of the caller alone. -/
theorem call_own (interpreter : Interpreter) (fuel : Nat) (name : String) (args : List Value) :
    (interpreter.call fuel name args).2.state.env = interpreter.state.env ∧
      (interpreter.call fuel name args).2.state.stack = interpreter.state.stack := by
  constructor
  · have restored : Eval.Restored interpreter.state (interpreter.call fuel name args).2.state :=
      perform_state (Eval.invoke_restores name args) ⟨rfl, rfl⟩
    exact restored.1
  · exact perform_state (Eval.invoke_endsIn_stack name args) rfl

/-- From elsewhere a call has the same answer and the same effect on all that is shared. -/
theorem call_elsewhere (interpreter : Interpreter) (env : Env) (stack : OperandStack) (fuel : Nat)
    (name : String) (args : List Value) :
    let elsewhere : Interpreter := { interpreter with state := { interpreter.state with env, stack } }
    (elsewhere.call fuel name args).1 = (interpreter.call fuel name args).1 ∧
      (interpreter.call fuel name args).2.SharesWith (elsewhere.call fuel name args).2 := by
  intro elsewhere
  simp only [Interpreter.call, Interpreter.perform, elsewhere, Eval.invoke_elsewhere, Exec.thenAlways]
  cases Eval.invoke (eval interpreter.context fuel) interpreter.context name args interpreter.state with
  | ok value t => exact ⟨rfl, rfl, rfl, rfl, rfl, rfl⟩
  | error failure t => exact ⟨rfl, rfl, rfl, rfl, rfl, rfl⟩
  | outOfFuel => exact ⟨rfl, rfl, rfl, rfl, rfl, rfl⟩

/-- Two callers that share all but their names and their stacks cannot be told apart by the
function they call: with any fuel the answer is the same, so that one call ends exactly if the
other does; afterwards they share all that they shared, and each has its own names, values and
frame marks as they were. -/
theorem call_isolated (shared : first.SharesWith second) (fuel : Nat) (name : String) (args : List Value) :
    (second.call fuel name args).1 = (first.call fuel name args).1 ∧
    (first.call fuel name args).2.SharesWith (second.call fuel name args).2 ∧
    (first.call fuel name args).2.state.env = first.state.env ∧
    (first.call fuel name args).2.state.stack = first.state.stack ∧
    (second.call fuel name args).2.state.env = second.state.env ∧
    (second.call fuel name args).2.state.stack = second.state.stack := by
  obtain ⟨answer, shares⟩ := first.call_elsewhere second.state.env second.state.stack fuel name args
  rw [← shared.eq_elsewhere] at answer shares
  obtain ⟨ownEnv, ownStack⟩ := first.call_own fuel name args
  obtain ⟨otherEnv, otherStack⟩ := second.call_own fuel name args
  exact ⟨answer, shares, ownEnv, ownStack, otherEnv, otherStack⟩

/-- The interpreter `setter` in the middle of something: the names of the parameters are taken
and there is a value on a marked stack. -/
def setterAtWork : Interpreter where
  context := setter.context
  state := { setter.state with
    env := { inner := { bindings := [("n", ⟨1⟩)] }, outer := [{ bindings := [("a", ⟨0⟩)] }] }
    stack := { values := [.int 8], frames := [1, 0] } }

theorem call_isolated_setter : setter.state.env ≠ setterAtWork.state.env ∧
    setter.state.stack ≠ setterAtWork.state.stack ∧ setter.SharesWith setterAtWork ∧
    (setter.call 4 "set" [.cell ⟨0⟩, .cell ⟨2⟩]).2.SharesWith
      (setterAtWork.call 4 "set" [.cell ⟨0⟩, .cell ⟨2⟩]).2 := by
  have shared : setter.SharesWith setterAtWork := ⟨rfl, rfl, rfl, rfl, rfl⟩
  refine ⟨by decide, by decide, shared, ?_⟩
  exact (call_isolated shared 4 "set" [.cell ⟨0⟩, .cell ⟨2⟩]).2.1

end Interpreter

end TreeLang
