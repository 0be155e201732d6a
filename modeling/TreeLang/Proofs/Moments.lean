import TreeLang.Proofs.EchoingRuns
import Mathlib.Tactic.ByContra

/-! Moments in the course of a run. The rules of evaluation are written against an evaluator
for the parts of a node. A rule consults that evaluator at a part, in a state, if its outcome
depends on the answer given there; so the moments that a run passes can be told from the rules
themselves, whether or not the run comes to an end. While a function runs its callers wait, and
what holds at every moment may be a statement about their names as well. -/
namespace TreeLang

section consulting

variable {α : Type} {rule : Evaluator → Outcome α} {below : Evaluator} {node : Node Slot} {t : State}

/-- With another answer at the node in this state, and at no other, the outcome would differ. -/
def Consults (rule : Evaluator → Outcome α) (below : Evaluator) (node : Node Slot) (t : State) : Prop :=
  ∃ other : Evaluator, (∀ n u, n ≠ node ∨ u ≠ t → other n u = below n u) ∧ rule other ≠ rule below

/-- A rule that would fail with any failure of the node consults it. -/
theorem consults_of_failing
    (passes : ∀ failure, ∀ other : Evaluator, (∀ n u, n ≠ node ∨ u ≠ t → other n u = below n u) →
      other node t = .error failure t → ∃ u, rule other = .error failure u) :
    Consults rule below node t := by
  classical
  let failing (failure : Failure) : Evaluator := fun n u =>
    if n = node ∧ u = t then .error failure t else below n u
  have elsewhere (failure : Failure) (n : Node Slot) (u : State) (away : n ≠ node ∨ u ≠ t) :
      failing failure n u = below n u := by
    refine if_neg fun same => ?_
    rcases away with away | away
    · exact away same.1
    · exact away same.2
  have fails (failure : Failure) : ∃ u, rule (failing failure) = .error failure u :=
    passes failure (failing failure) (elsewhere failure) (if_pos ⟨rfl, rfl⟩)
  -- The outcome as it is can be one failure only, so one of two others differs from it.
  by_contra none
  have unchanged (failure : Failure) : rule (failing failure) = rule below := by
    by_contra differs
    exact none ⟨failing failure, elsewhere failure, differs⟩
  obtain ⟨u, first⟩ := fails .missingValue
  obtain ⟨w, second⟩ := fails .divisionByZero
  rw [unchanged] at first second
  have both := first.symm.trans second
  simp at both

end consulting

/-- A state in the course of a run, with the names of the callers that wait, the latest first. -/
structure Moment where
  callers : List Env
  state : State

/-- A later state that a rule has led to. At another depth of calls it belongs to a function
that was called; arguments bind no names, so its caller waits with the names it had. -/
def Moment.next (moment : Moment) (t : State) : Moment :=
  if t.depth = moment.state.depth then { moment with state := t }
  else { callers := moment.state.env :: moment.callers, state := t }

/-- The moments where the evaluation of a node, or of any node that takes part in it, begins
or ends. -/
inductive Passes (context : Context) : Nat → Moment → Node Slot → Moment → Prop where
  | start {fuel : Nat} {moment : Moment} {node : Node Slot} : Passes context fuel moment node moment
  | done {fuel : Nat} {moment : Moment} {node : Node Slot} {flow : Flow} {t : State} :
      eval context fuel node moment.state = .ok flow t →
      Passes context fuel moment node { moment with state := t }
  | failed {fuel : Nat} {moment : Moment} {node : Node Slot} {failure : Failure} {t : State} :
      eval context fuel node moment.state = .error failure t →
      Passes context fuel moment node { moment with state := t }
  | inside {fuel : Nat} {moment later : Moment} {node part : Node Slot} {t : State} :
      Consults (fun below => Eval.step below context fuel node moment.state) (eval context fuel) part t →
      Passes context fuel (moment.next t) part later →
      Passes context (fuel + 1) moment node later

namespace Interpreter

/-- An interpreter between two operations, where nobody waits. -/
def moment (interpreter : Interpreter) : Moment := { callers := [], state := interpreter.state }

/-- The moments of an interpreter and of any operation that it may perform next. -/
inductive Passes (interpreter : Interpreter) : Moment → Prop where
  | idle : Passes interpreter interpreter.moment
  | evaluate {fuel : Nat} {node : Node Slot} {later : Moment} :
      TreeLang.Passes interpreter.context fuel interpreter.moment node later → Passes interpreter later
  | call {fuel : Nat} {name : String} {args : List Value} {part : Node Slot} {t : State} {later : Moment} :
      Consults (fun below => Eval.invoke below interpreter.context name args interpreter.state)
        (eval interpreter.context fuel) part t →
      TreeLang.Passes interpreter.context fuel (interpreter.moment.next t) part later →
      Passes interpreter later
  | run {fuel : Nat} {program : Program Slot} {loaded : Interpreter} {main : FunctionDef Slot}
      {part : Node Slot} {t : State} {later : Moment} :
      interpreter.load program = (.value (), loaded) →
      loaded.context.registry.get? (signature entryPoint []) = some main →
      Consults (fun below => Eval.enter below loaded.context main [] loaded.state)
        (eval loaded.context fuel) part t →
      TreeLang.Passes loaded.context fuel (loaded.moment.next t) part later →
      Passes interpreter later

/-- What can become of a new interpreter: operations on programs and nodes of any kind, whether
or not they succeed, and what the owner of its cells does between them. -/
inductive Reachable : Interpreter → Prop where
  | start (console : Console) (maxCallDepth : Nat) : Reachable (.start console maxCallDepth)
  | restart {interpreter : Interpreter} (console : Console) (maxCallDepth : Nat) :
      Reachable interpreter → Reachable (interpreter.restart console maxCallDepth)
  | placeProgram {interpreter : Interpreter} (program : Program Unit) :
      Reachable interpreter → Reachable (interpreter.placeProgram program).2
  | placeNode {interpreter : Interpreter} (node : Node (Option Ty)) :
      Reachable interpreter → Reachable (interpreter.placeNode node).2
  | step {interpreter later : Interpreter} :
      Reachable interpreter → interpreter.Step later → Reachable later
  | create {interpreter : Interpreter} {ty : Ty} {ref : Ref} {heap : Heap} :
      Reachable interpreter → interpreter.state.heap.create ty = .ok (ref, heap) →
      Reachable { interpreter with state := { interpreter.state with heap } }
  | assign {interpreter : Interpreter} {target : Ref} {value : Value} {heap : Heap} :
      Reachable interpreter → interpreter.state.heap.assign target value = .ok heap →
      Reachable { interpreter with state := { interpreter.state with heap } }

end Interpreter

/-- A law for each list of callers that may be waiting. What it asks inside a function follows
from what it asks where the function is called. -/
structure Watch where
  law : List Env → Law
  declared : ∀ callers declaration, (law callers).declared declaration
  given : ∀ callers heap value, (law callers).arg heap value
  level : ∀ {callers s t}, (law callers).rel s t → t.depth = s.depth
  enter : ∀ {callers s}, (law callers).inv s →
    (law (s.env :: callers)).inv { s with env := .empty, depth := s.depth + 1 }

/-- The same for laws about certain declarations, which are the only ones in the trees that are
evaluated. -/
structure Guard where
  grounds : Declaration Slot → Prop
  law : List Env → Law
  declared : ∀ callers, (law callers).declared = grounds
  given : ∀ callers heap value, (law callers).arg heap value
  level : ∀ {callers s t}, (law callers).rel s t → t.depth = s.depth
  enter : ∀ {callers s}, (law callers).inv s →
    (law (s.env :: callers)).inv { s with env := .empty, depth := s.depth + 1 }

namespace Interpreter

/-- The moments of operations on trees that have only such declarations, each with the functions
that are in force. -/
inductive PassesOn (P : Declaration Slot → Prop) (interpreter : Interpreter) : Context → Moment → Prop where
  | idle : PassesOn P interpreter interpreter.context interpreter.moment
  | evaluate {fuel : Nat} {node : Node Slot} {later : Moment} :
      node.Every P → TreeLang.Passes interpreter.context fuel interpreter.moment node later →
      PassesOn P interpreter interpreter.context later
  | call {fuel : Nat} {name : String} {args : List Value} {part : Node Slot} {t : State} {later : Moment} :
      Consults (fun below => Eval.invoke below interpreter.context name args interpreter.state)
        (eval interpreter.context fuel) part t →
      TreeLang.Passes interpreter.context fuel (interpreter.moment.next t) part later →
      PassesOn P interpreter interpreter.context later
  | run {fuel : Nat} {program : Program Slot} {loaded : Interpreter} {main : FunctionDef Slot}
      {part : Node Slot} {t : State} {later : Moment} :
      program.Every P → interpreter.load program = (.value (), loaded) →
      loaded.context.registry.get? (signature entryPoint []) = some main →
      Consults (fun below => Eval.enter below loaded.context main [] loaded.state)
        (eval loaded.context fuel) part t →
      TreeLang.Passes loaded.context fuel (loaded.moment.next t) part later →
      PassesOn P interpreter loaded.context later

variable {P : Declaration Slot → Prop} {interpreter : Interpreter} {context : Context} {later : Moment}

theorem PassesOn.passes (passes : interpreter.PassesOn P context later) : interpreter.Passes later := by
  cases passes with
  | idle => exact .idle
  | evaluate _ passes => exact .evaluate passes
  | call consults passes => exact .call consults passes
  | run _ loads found consults passes => exact .run loads found consults passes

theorem Passes.on (passes : interpreter.Passes later) (all : ∀ declaration, P declaration) :
    ∃ context, interpreter.PassesOn P context later := by
  cases passes with
  | idle => exact ⟨_, .idle⟩
  | evaluate passes => exact ⟨_, .evaluate (Node.every_of_forall all _) passes⟩
  | call consults passes => exact ⟨_, .call consults passes⟩
  | run loads found consults passes =>
    exact ⟨_, .run (fun function _ => function.every_of_forall all) loads found consults passes⟩

end Interpreter

namespace Guard

open Exec

variable {guard : Guard} {context : Context} {fuel : Nat} {moment later : Moment} {node part : Node Slot}
  {callers : List Env} {depth : Nat} {s t : State} {other : Evaluator}

def Holds (guard : Guard) (moment : Moment) : Prop := (guard.law moment.callers).inv moment.state

theorem holds_next_same (met : (guard.law moment.callers).At moment.state.depth t) :
    guard.Holds (moment.next t) := by
  rw [Moment.next, if_pos met.depth]
  exact met.inv

theorem holds_next_called
    (met : (guard.law (moment.state.env :: moment.callers)).At (moment.state.depth + 1) t) :
    guard.Holds (moment.next t) := by
  have deeper : t.depth ≠ moment.state.depth := by
    have := met.depth
    omega
  rw [Moment.next, if_neg deeper]
  exact met.inv

theorem sound (functions : context.registry.Every guard.grounds) (callers : List Env) (fuel : Nat) :
    (guard.law callers).Sound (eval context fuel) := by
  rw [← guard.declared callers] at functions
  exact Law.eval_sound functions fuel

/-- An evaluator that differs at one node in one state only agrees wherever these cannot be met. -/
theorem agree_of_not_at (functions : context.registry.Every guard.grounds)
    (same : ∀ n u, n ≠ part ∨ u ≠ t → other n u = eval context fuel n u)
    (away : part.Every guard.grounds → ¬ (guard.law callers).At depth t) :
    (guard.law callers).Agree False depth (eval context fuel) other := by
  refine ⟨guard.sound functions callers fuel, guard.level, fun n u every here stack => ?_⟩
  have apart : n ≠ part ∨ { u with stack } ≠ t := by
    by_cases equal : n = part
    · subst equal
      rw [guard.declared] at every
      refine .inr ?_
      rintro rfl
      exact away every ⟨((guard.law callers).stack stack here.inv).1, here.depth⟩
    · exact .inl equal
  rw [same n _ apart]
  exact eval_replays context (Nat.le_refl fuel) (.inr rfl) n u stack

/-- A function is run in the same way, since it never comes to the state where the guard fails. -/
theorem activate_echoes_of_not_holds (functions : context.registry.Every guard.grounds)
    (same : ∀ n u, n ≠ part ∨ u ≠ t → other n u = eval context fuel n u)
    (fails : part.Every guard.grounds → ¬ guard.Holds (moment.next t)) (inv : (guard.law moment.callers).inv s)
    (env : s.env = moment.state.env) (level : s.depth = moment.state.depth)
    {function : FunctionDef Slot} (every : function.Every guard.grounds) (args : List Value) :
    Echoes False (Eval.activate (eval context fuel) function args) (Eval.activate other function args)
      { s with env := .empty, depth := s.depth + 1 } := by
  have agree : (guard.law (moment.state.env :: moment.callers)).Agree False (moment.state.depth + 1)
      (eval context fuel) other :=
    agree_of_not_at functions same fun every met => fails every (holds_next_called met)
  have entered := guard.enter inv
  rw [env] at entered
  rw [← guard.declared] at every
  exact Law.activate_echoes agree every ⟨entered, by rw [← level]⟩ fun arg _ => guard.given _ _ arg

theorem of_consults_step (functions : context.registry.Every guard.grounds)
    (every : node.Every guard.grounds) (holds : guard.Holds moment)
    (consults : Consults (fun below => Eval.step below context fuel node moment.state) (eval context fuel) part t) :
    part.Every guard.grounds ∧ guard.Holds (moment.next t) := by
  obtain ⟨other, same, differs⟩ := consults
  by_contra fails
  rw [not_and] at fails
  apply differs
  -- What is not allowed is never met, so that all answers that are asked for are the same.
  have agree : (guard.law moment.callers).Agree False moment.state.depth (eval context fuel) other :=
    agree_of_not_at functions same fun every met => fails every (holds_next_same met)
  have registered : context.registry.Every (guard.law moment.callers).declared := by
    rwa [guard.declared]
  have inside : node.Every (guard.law moment.callers).declared := by rwa [guard.declared]
  have replays := Law.step_replays agree (Nat.le_refl fuel) (.inr rfl) registered inside ⟨holds, rfl⟩
    fun _ u function args own steady => activate_echoes_of_not_holds functions same fails steady.inv steady.env
      (guard.level steady.rel) (guard.declared _ ▸ own) args
  exact Law.eq_of_replays (Law.step_sound agree.sound registered node _ inside holds) replays False.elim

/-- The same for a call that is made from outside: all that its rule leaves to the evaluator
is inside the function. -/
theorem of_consults_call {α : Type} {rule : Evaluator → Exec α}
    (functions : context.registry.Every guard.grounds) (holds : guard.Holds moment)
    (level : (rule (eval context fuel)).EndsIn moment.state fun t => t.stack = moment.state.stack)
    (echoes : ∀ other, (∀ function args, function.Every guard.grounds →
      Echoes False (Eval.activate (eval context fuel) function args) (Eval.activate other function args)
        { moment.state with env := .empty, depth := moment.state.depth + 1 }) →
      Echoes False (rule (eval context fuel)) (rule other) moment.state)
    (consults : Consults (fun below => rule below moment.state) (eval context fuel) part t) :
    part.Every guard.grounds ∧ guard.Holds (moment.next t) := by
  obtain ⟨other, same, differs⟩ := consults
  by_contra fails
  rw [not_and] at fails
  apply differs
  exact (echoes other fun function args every =>
    activate_echoes_of_not_holds functions same fails holds rfl rfl every args).eq level

/-- What is guarded holds at every moment of an evaluation. -/
theorem holds_of_passes (functions : context.registry.Every guard.grounds) (every : node.Every guard.grounds)
    (holds : guard.Holds moment) (passes : Passes context fuel moment node later) : guard.Holds later := by
  have kept (fuel : Nat) {moment : Moment} {node : Node Slot} (every : node.Every guard.grounds)
      (holds : guard.Holds moment) :
      (eval context fuel node).EndsIn moment.state ((guard.law moment.callers).Kept moment.state) := by
    rw [← guard.declared moment.callers] at every
    exact (guard.sound functions moment.callers fuel).kept every holds
  induction passes with
  | start => exact holds
  | done outcome => exact ((kept _ every holds).ok_of_eq outcome).1
  | failed outcome => exact ((kept _ every holds).bad_of_eq outcome).1
  | inside consults _ ih =>
    obtain ⟨own, there⟩ := of_consults_step functions every holds consults
    exact ih own there

/-- And at every moment of every operation of an interpreter. -/
theorem holds_of_passesOn {interpreter : Interpreter}
    (functions : interpreter.context.registry.Every guard.grounds) (holds : guard.Holds interpreter.moment)
    (passes : interpreter.PassesOn guard.grounds context later) : guard.Holds later := by
  cases passes with
  | idle => exact holds
  | evaluate every passes => exact holds_of_passes functions every holds passes
  | call consults passes =>
    obtain ⟨own, there⟩ := of_consults_call functions holds (Eval.invoke_endsIn_stack _ _)
      (fun other entered => Law.invoke_echoes_of_resolve fun function resolved =>
        entered function _ (functions.of_resolve resolved)) consults
    exact holds_of_passes functions own there passes
  | @run _ program loaded main _ _ _ given loads found consults passes =>
    have unchanged := interpreter.load_state program
    have registered := Interpreter.load_every functions given
    rw [loads] at unchanged registered
    have same : loaded.moment = interpreter.moment := by rw [Interpreter.moment, unchanged, Interpreter.moment]
    rw [← same] at holds
    have resolved : loaded.context.registry.resolve (signature Interpreter.entryPoint []) = .ok main := by
      rw [Registry.resolve, found]
    obtain ⟨own, there⟩ := of_consults_call registered holds (Eval.enter_endsIn_stack _ _)
      (fun other entered => Law.enter_echoes (entered main [] (registered.of_resolve resolved))) consults
    exact holds_of_passes registered own there passes

end Guard

namespace Watch

variable {watch : Watch} {later : Moment}

def Holds (watch : Watch) (moment : Moment) : Prop := (watch.law moment.callers).inv moment.state

/-- What is watched is guarded on all grounds. -/
def guard (watch : Watch) : Guard where
  grounds _ := True
  law := watch.law
  declared callers := funext fun declaration => eq_true (watch.declared callers declaration)
  given := watch.given
  level := watch.level
  enter := watch.enter

/-- What is watched holds at every moment of every operation of an interpreter. -/
theorem holds_of_interpreter_passes {interpreter : Interpreter} (holds : watch.Holds interpreter.moment)
    (passes : interpreter.Passes later) : watch.Holds later := by
  have start : watch.guard.Holds interpreter.moment := holds
  have functions : interpreter.context.registry.Every watch.guard.grounds :=
    interpreter.context.registry.every_of_forall fun _ => trivial
  obtain ⟨context, passes⟩ := passes.on (P := watch.guard.grounds) fun _ => trivial
  exact Guard.holds_of_passesOn functions start passes

end Watch

end TreeLang
