import TreeLang.Proofs.EchoingRuns
import TreeLang.Proofs.SideBySide

/-! The limit on the depth of calls is a limit and nothing else. The depth that a state holds is the
number of functions that have been entered and not been left, at every point of every run, and it
stays within the limit. So a run that never comes up against the limit is the same run under any
higher one. -/
namespace TreeLang

/-! ### An account of activations -/

namespace Exec

variable {α β : Type} {context : Context} {alarm : Failure} {count : Nat} {s : State}

/-- Runs an action while `count` functions are active. The alarm is raised if the depth of calls
says otherwise, or if there are more than may be, where the action begins and where it ends. -/
def audited (context : Context) (alarm : Failure) (count : Nat) (action : Exec α) : Exec α :=
  fun s =>
    if s.depth = count ∧ count ≤ context.maxCallDepth then
      match action s with
      | .ok value t => if t.depth = count then .ok value t else .error alarm t
      | .error failure t => if t.depth = count then .error failure t else .error alarm t
      | .outOfFuel => .outOfFuel
    else .error alarm s

theorem audited_eq {action plain : Exec α} (depth : s.depth = count)
    (limit : count ≤ context.maxCallDepth) (same : action s = plain s)
    (ends : plain.EndsIn s fun t => t.depth = count) :
    action.audited context alarm count s = plain s := by
  simp only [audited, depth, limit, and_self, if_true, same]
  cases outcome : plain s with
  | ok value t => simp only [ends.ok_of_eq outcome, if_true]
  | error failure t => simp only [ends.bad_of_eq outcome, if_true]
  | outOfFuel => rfl

theorem bind_eq {first first' : Exec α} {next next' : α → Exec β} (same : first' s = first s)
    (after : ∀ value t, first s = .ok value t → next' value t = next value t) :
    (first' >>= next') s = (first >>= next) s := by
  cases outcome : first s with
  | ok value t =>
    rw [bind_of_ok outcome, bind_of_ok (same.trans outcome)]
    exact after value t outcome
  | error failure t => rw [bind_of_error outcome, bind_of_error (same.trans outcome)]
  | outOfFuel => rw [bind_of_outOfFuel outcome, bind_of_outOfFuel (same.trans outcome)]

end Exec

namespace Eval

open Exec

/-- How a function is run once it has been entered. -/
abbrev Activation := FunctionDef Slot → List Value → Exec (Option Value)

variable (own : Evaluator) (activation : Activation) (context : Context)

/-- `Eval.enter`, with the activation of the function left open. -/
def enterBy (function : FunctionDef Slot) (args : List Value) : Exec (Option Value) := fun s =>
  if s.depth < context.maxCallDepth then
    (activation function args).thenAlways
      (fun t => { t with env := s.env, depth := t.depth - 1 })
      { s with env := .empty, depth := s.depth + 1 }
  else
    .error (.callDepthExceeded context.maxCallDepth) s

def invokeBy (name : String) (args : List Value) : Exec (Option Value) := do
  let function ← reading fun s =>
    context.registry.resolve (signature name (args.map s.heap.tag))
  enterBy activation context function args

def callBy (name : String) (args : List (Node Slot)) : Exec Unit := do
  match Builtin.ofName? name with
  | some function => builtin own function args
  | none =>
    match ← invokeBy activation context name (← values own args) with
    | some result => push result
    | none => return

/-- `Eval.step`, with the activation of a function that is called left open: the evaluator is for
the parts of the node itself. -/
def stepBy (turns : Nat) : Node Slot → Exec Flow
  | .call name args => do
    callBy own activation context name args
    return .completed
  | node => step own context turns node

def activateAudited (alarm : Failure) (count : Nat) : Activation := fun function args =>
  (activate own function args).audited context alarm count

end Eval

open Eval (activateAudited)

/-- Evaluation that counts the functions it has entered and not left, by the nesting of its own
rules and not by the state, and audits every node and every activation. -/
def evalAudited (context : Context) (alarm : Failure) : Nat → Nat → Evaluator
  | 0, _, _ => Exec.outOfFuel
  | fuel + 1, count, node =>
    let called :=
      activateAudited (evalAudited context alarm fuel (count + 1)) context alarm (count + 1)
    (Eval.stepBy (evalAudited context alarm fuel count) called context fuel node).audited context
      alarm count

section audit

open Exec

variable {context : Context} {alarm : Failure} {fuel count : Nat} {s : State}

/-- The audited evaluation of nodes is evaluation. -/
def Unalarmed (context : Context) (alarm : Failure) (fuel : Nat) : Prop :=
  ∀ count, count ≤ context.maxCallDepth → ∀ node s, s.depth = count →
    evalAudited context alarm fuel count node s = eval context fuel node s

namespace Unalarmed

variable (unalarmed : Unalarmed context alarm fuel)
include unalarmed

theorem agree (limit : count ≤ context.maxCallDepth) :
    Law.control.Agree False count (eval context fuel) (evalAudited context alarm fuel count) := by
  refine ⟨Law.control_sound context fuel, fun related => related.1, fun node s _ here stack => ?_⟩
  rw [unalarmed count limit node { s with stack } here.depth]
  exact eval_replays context (Nat.le_refl fuel) (.inr rfl) node s stack

theorem activate_eq (limit : count ≤ context.maxCallDepth) (depth : s.depth = count)
    (function : FunctionDef Slot) (args : List Value) :
    activateAudited (evalAudited context alarm fuel count) context alarm count function args s =
      Eval.activate (eval context fuel) function args s := by
  have every : function.Every Law.control.declared := function.every_of_forall fun _ => trivial
  have given : ∀ arg ∈ args, Law.control.arg s.heap arg := fun _ _ => trivial
  have runs := Law.activate_runs (Law.control_sound context fuel) every trivial given
  have echoes := Law.activate_echoes (unalarmed.agree limit) every ⟨trivial, depth⟩ given
  refine audited_eq depth limit (echoes.eq ?_) ?_
  · exact Ends.mono runs (fun _ _ ended => ended.1.stack) fun _ level => level.stack
  · exact Ends.mono runs (fun _ _ ended => ended.1.rel.1.trans depth)
      fun _ level => level.rel.1.trans depth

/-- A function is entered only if there is room for one more. -/
theorem enter_eq (depth : s.depth = count) (function : FunctionDef Slot) (args : List Value) :
    let called := evalAudited context alarm fuel (count + 1)
    Eval.enterBy (activateAudited called context alarm (count + 1)) context function args s =
      Eval.enter (eval context fuel) context function args s := by
  unfold Eval.enterBy Eval.enter
  by_cases room : s.depth < context.maxCallDepth
  · have inside : (({ s with env := .empty, depth := s.depth + 1 } : State)).depth = count + 1 := by
      simp [depth]
    simp only [if_pos room, thenAlways, unalarmed.activate_eq (by omega) inside function args]
  · simp only [if_neg room]

theorem call_eq (limit : count ≤ context.maxCallDepth) (depth : s.depth = count) (name : String)
    (args : List (Node Slot)) :
    let called := evalAudited context alarm fuel (count + 1)
    Eval.callBy (evalAudited context alarm fuel count)
      (activateAudited called context alarm (count + 1)) context name args s =
        Eval.call (eval context fuel) context name args s := by
  have agree := unalarmed.agree limit
  have every : Node.EveryOf Law.control.declared args :=
    Node.everyOf_of_forall (fun _ => trivial) args
  have here : Law.control.At count s := ⟨trivial, depth⟩
  unfold Eval.callBy Eval.call
  cases Builtin.ofName? name with
  | some function =>
    have yields : Law.control.Yields (Eval.builtin (eval context fuel) function args) s
        fun _ _ => True := Law.builtin_yields agree.sound every here.inv
    refine (Law.builtin_echoes agree every here).eq ?_
    exact Ends.mono yields (fun _ _ ended => ended.1.stack) fun _ level => level.stack
  | none =>
    have yields := Law.values_yields agree.sound every here.inv
    have valued := (Law.values_echoes agree every here).eq
      (Ends.mono yields (fun _ _ ended => ended.1.stack) fun _ level => level.stack)
    refine bind_eq valued fun values t evaluated => ?_
    have reached := (yields.ok_of_eq evaluated).1.rel.1.trans depth
    refine bind_eq (bind_eq rfl fun function u found => ?_) fun _ _ _ => rfl
    rw [(Twin.ok_of_reading found).2]
    exact unalarmed.enter_eq reached function values

theorem step_eq (limit : count ≤ context.maxCallDepth) (depth : s.depth = count)
    (node : Node Slot) :
    let called := evalAudited context alarm fuel (count + 1)
    Eval.stepBy (evalAudited context alarm fuel count)
      (activateAudited called context alarm (count + 1)) context fuel node s =
        Eval.step (eval context fuel) context fuel node s := by
  intro called
  by_cases call : node.kind = .call
  · cases node <;> try contradiction
    next name args => exact bind_eq (unalarmed.call_eq limit depth name args) fun _ _ _ => rfl
  · have agree := unalarmed.agree limit
    have functions := context.registry.every_of_forall (P := Law.control.declared) fun _ => trivial
    have every : node.Every Law.control.declared := node.every_of_forall fun _ => trivial
    have here : Law.control.At count s := ⟨trivial, depth⟩
    have replays := Law.step_replays agree (Nat.le_refl fuel) (.inr rfl) functions every here
      fun kind => absurd kind call
    have own : Eval.stepBy (evalAudited context alarm fuel count)
        (activateAudited called context alarm (count + 1)) context fuel node =
          Eval.step (evalAudited context alarm fuel count) context fuel node := by
      cases node <;> first | rfl | exact absurd rfl call
    rw [own]
    exact Law.eq_of_replays (Law.step_sound agree.sound functions node s every here.inv) replays
      False.elim

end Unalarmed

/-- No alarm is ever raised: at every node and in every function, however deep, the depth of calls
is the number of functions that are active, and within the limit. -/
theorem evalAudited_eq (context : Context) (alarm : Failure) (fuel : Nat) :
    Unalarmed context alarm fuel := by
  induction fuel with
  | zero => exact fun _ _ _ _ _ => rfl
  | succ fuel unalarmed =>
    intro count limit node s depth
    refine audited_eq depth limit (unalarmed.step_eq limit depth node) ?_
    have kept := (Law.control_sound context (fuel + 1)).kept
      (node.every_of_forall fun _ => trivial) (s := s) trivial
    exact Ends.mono kept (fun _ _ ended => ended.2.1.trans depth) fun _ ended =>
      ended.2.1.trans depth

end audit

namespace Interpreter

variable {interpreter : Interpreter} {alarm : Failure} {fuel : Nat}

/-- `Interpreter.run`, audited: one function is active in the body of the entry point. -/
def runAudited (alarm : Failure) (fuel : Nat) (interpreter : Interpreter) (program : Program Slot) :
    Answer Unit × Interpreter :=
  match interpreter.load program with
  | (.value _, interpreter) =>
    let context := interpreter.context
    match context.registry.get? (signature entryPoint []) with
    | none => (.value (), interpreter)
    | some main =>
      let (answer, interpreter) :=
        interpreter.perform (Eval.enterBy
          (activateAudited (evalAudited context alarm fuel 1) context alarm 1) context main [])
      (answer.map fun _ => (), interpreter)
  | refused => refused

theorem runAudited_eq (idle : interpreter.state.depth = 0) (program : Program Slot) :
    interpreter.runAudited alarm fuel program = interpreter.run fuel program := by
  have unchanged := interpreter.load_state program
  unfold runAudited Interpreter.run
  rcases loaded : interpreter.load program with ⟨answer, after⟩
  rw [loaded] at unchanged
  cases answer with
  | failure problem => rfl
  | unfinished => rfl
  | value done =>
    have start : after.state.depth = 0 := by rw [← idle, ← unchanged]
    cases found : after.context.registry.get? (signature entryPoint []) with
    | none => simp only [found, runEntry_of_none found]
    | some main =>
      have entered := (evalAudited_eq after.context alarm fuel).enter_eq start main []
      simp only [found, runEntry_of_some found, Interpreter.perform, entered]

end Interpreter

/-! ### A higher limit -/

/-- The second run differs in the limit on calls alone, and follows the first unless that comes up
against its limit. -/
def Twin.deeper : Twin where
  names := .same
  alike v w := w.resolved = v.resolved ∧ w.console = v.console
  later _ _ := True
  fine _ := True
  final failure _ := failure.kind ≠ .stackOverflow
  refl _ := trivial
  trans _ _ := trivial
  fine_of_later _ _ := trivial
  fine_of_final _ := trivial
  later_print _ _ := trivial
  later_read _ := trivial
  prints line alike := ⟨alike.1, congrArg (Console.writeLine · line) alike.2⟩
  reads read _ alike := ⟨_, (congrArg Console.readToken alike.2).trans read, alike.1, rfl⟩
  readFails read _ alike := ⟨_, (congrArg Console.readToken alike.2).trans read, alike.1, rfl⟩

theorem Twin.deeper_settles : Twin.deeper.Settles fun _ => True where
  known _ alike := congrArg (Resolutions.get? · _) alike.1
  settled _ _ alike := ⟨congrArg (Resolutions.settle · _ _) alike.1, alike.2⟩
  later _ _ _ := trivial

namespace Interpreter

/-- A run that ends, and not for exceeding the limit on calls, ends in the same way under every
higher limit, with the same output, the same types settled in the same tree and all else the same.
During a run the depth of calls is the number of functions that are active, and these are not more
than may be, at every node and in every function: with an audit, whatever its alarm, the run is the
same. -/
theorem run_under_higher_limit (program : Program Unit) (console : Console) {limit limit' : Nat}
    (higher : limit ≤ limit') (fuel : Nat) :
    let (placed, fresh) := (Interpreter.start console limit).placeProgram program
    let (placed', fresh') := (Interpreter.start console limit').placeProgram program
    let first := fresh.run fuel placed
    let second := fresh'.run fuel placed'
    (first.1 ≠ .unfinished →
      (∀ failure, first.1 = .failure failure → failure.kind ≠ .stackOverflow) →
      second.1 = first.1 ∧ placed' = placed ∧ second.2.state = first.2.state) ∧
    ∀ alarm, fresh.runAudited alarm fuel placed = first := by
  let placed := ((Interpreter.start console limit).placeProgram program).1
  let fresh := ((Interpreter.start console limit).placeProgram program).2
  let fresh' := ((Interpreter.start console limit').placeProgram program).2
  refine ⟨fun ended below => ?_, fun alarm => runAudited_eq rfl _⟩
  have functions : fresh.context.registry.Every fun _ => True :=
    fresh.context.registry.every_of_forall fun _ => trivial
  have given : placed.Every fun _ => True :=
    fun function _ => function.every_of_forall fun _ => trivial
  have exceeded (world : World) : ¬ Twin.deeper.final (.callDepthExceeded limit) world :=
    fun final => final rfl
  obtain ⟨-, follows⟩ := run_follows Twin.deeper fresh fresh' placed fuel rfl rfl higher
    (.inr exceeded) functions given Twin.deeper_settles.typesOn
  have shares : Twin.deeper.Shares (fresh.run fuel placed).1
      (fresh.run fuel placed).2.state.world := by
    cases answer : (fresh.run fuel placed).1 with
    | value done => trivial
    | failure problem => exact below problem answer
    | unfinished => exact absurd answer ended
  have start : fresh'.state = Twin.deeper.state fresh.state fresh.state.world := by
    rw [Twin.state_same rfl]
    rfl
  obtain ⟨answer, world, ⟨resolved, console⟩, state⟩ := follows _ ⟨rfl, rfl⟩ start shares
  rw [Twin.state_same rfl, resolved, console] at state
  exact ⟨answer, rfl, state⟩

/-- The third function in a row divides by zero. -/
def descent : Program Unit where
  functions := [
    ⟨"down", [⟨"n", .int, ()⟩], [
      .call "print" [.var "n"],
      .ret (some (.arith .add (.arith .div (.int 6) (.var "n"))
        (.call "down" [.arith .sub (.var "n") (.int 1)])))], .int⟩,
    ⟨"main", [], [.call "print" [.call "down" [.int 2]]], .void⟩]

theorem run_under_higher_limit_descent :
    let (placed, fresh) := (Interpreter.start {} 4).placeProgram descent
    let (placed', fresh') := (Interpreter.start {} 9).placeProgram descent
    let first := fresh.run 20 placed
    let second := fresh'.run 20 placed'
    4 ≤ 9 ∧ first.1.failure? = some .divisionByZero ∧ first.2.output = "2\n1\n0\n" ∧
    second.1 = first.1 ∧ second.2.output = first.2.output := by
  have higher := run_under_higher_limit descent {} (by decide : 4 ≤ 9) 20
  have failed : (((Interpreter.start {} 4).placeProgram descent).2.run 20
      ((Interpreter.start {} 4).placeProgram descent).1).1.failure? = some .divisionByZero := by
    decide +kernel
  have printed : (((Interpreter.start {} 4).placeProgram descent).2.run 20
      ((Interpreter.start {} 4).placeProgram descent).1).2.output = "2\n1\n0\n" := by
    decide +kernel
  generalize (Interpreter.start {} 4).placeProgram descent = tree at higher failed printed ⊢
  generalize (Interpreter.start {} 9).placeProgram descent = deep at higher ⊢
  have ended : (tree.2.run 20 tree.1).1 ≠ .unfinished := by
    intro unfinished
    rw [unfinished] at failed
    contradiction
  have below : ∀ failure, (tree.2.run 20 tree.1).1 = .failure failure →
      failure.kind ≠ .stackOverflow := by
    intro failure problem
    rw [problem] at failed
    cases failed
    decide
  obtain ⟨answer, -, state⟩ := higher.1 ended below
  exact ⟨by decide, failed, printed, answer, congrArg (·.console.output) state⟩

end Interpreter

end TreeLang
