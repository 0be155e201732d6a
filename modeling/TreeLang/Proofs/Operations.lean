import TreeLang.Interpreter
import TreeLang.Proofs.LawfulRuns

/-! The operations of an interpreter. Each performs one action, or none; a law about all
declarations and all arguments is therefore kept by every operation, however it ends. -/
namespace TreeLang

namespace Interpreter

variable {α : Type} {interpreter later : Interpreter}

theorem perform_of_ok {action : Exec α} {value : α} {t : State}
    (outcome : action interpreter.state = .ok value t) :
    interpreter.perform action = (.value value, { interpreter with state := t }) := by
  simp only [Interpreter.perform, outcome]

theorem perform_of_error {action : Exec α} {failure : Failure} {t : State}
    (outcome : action interpreter.state = .error failure t) :
    interpreter.perform action = (.failure failure, { interpreter with state := t }) := by
  simp only [Interpreter.perform, outcome]

/-- An action of an interpreter ends in one of three ways; the functions and the limit on
calls stay. -/
theorem perform_cases (interpreter : Interpreter) (action : Exec α) :
    (∃ value state, action interpreter.state = .ok value state ∧
      interpreter.perform action = (.value value, { interpreter with state })) ∨
    (∃ failure state, action interpreter.state = .error failure state ∧
      interpreter.perform action = (.failure failure, { interpreter with state })) ∨
    (action interpreter.state = .outOfFuel ∧ interpreter.perform action = (.unfinished, interpreter)) := by
  cases outcome : action interpreter.state with
  | ok value state => exact .inl ⟨value, state, rfl, perform_of_ok outcome⟩
  | error failure state => exact .inr (.inl ⟨failure, state, rfl, perform_of_error outcome⟩)
  | outOfFuel => exact .inr (.inr ⟨rfl, by simp only [perform, outcome]⟩)

theorem outcome_of_perform {action : Exec α} {value : α}
    (performed : interpreter.perform action = (.value value, later)) :
    action interpreter.state = .ok value later.state := by
  rcases interpreter.perform_cases action with
    ⟨found, t, outcome, same⟩ | ⟨failure, t, -, same⟩ | ⟨-, same⟩
  · rw [same] at performed
    cases performed
    exact outcome
  · rw [same] at performed
    cases performed
  · rw [same] at performed
    cases performed

/-- A property of every state in which an action can end, and of the one where it starts, is
one of the interpreter that performs it. -/
theorem perform_state {action : Exec α} {post : State → Prop}
    (ends : action.EndsIn interpreter.state post) (start : post interpreter.state) :
    post (interpreter.perform action).2.state := by
  rcases interpreter.perform_cases action with
    ⟨value, t, outcome, performed⟩ | ⟨failure, t, outcome, performed⟩ | ⟨-, performed⟩
  · rw [performed]
    exact ends.ok_of_eq outcome
  · rw [performed]
    exact ends.bad_of_eq outcome
  · rw [performed]
    exact start

theorem perform_context (interpreter : Interpreter) (action : Exec α) :
    (interpreter.perform action).2.context = interpreter.context := by
  rcases interpreter.perform_cases action with
    ⟨value, t, outcome, performed⟩ | ⟨failure, t, outcome, performed⟩ | ⟨-, performed⟩ <;> rw [performed]

/-- Loading changes the functions only. -/
theorem load_state (interpreter : Interpreter) (program : Program Slot) :
    (interpreter.load program).2.state = interpreter.state := by
  unfold Interpreter.load
  split
  split <;> rfl

/-- One operation; whether it succeeds is left open. -/
inductive Step (interpreter : Interpreter) : Interpreter → Prop where
  | load (program : Program Slot) : Step interpreter (interpreter.load program).2
  | run (fuel : Nat) (program : Program Slot) : Step interpreter (interpreter.run fuel program).2
  | call (fuel : Nat) (name : String) (args : List Value) :
      Step interpreter (interpreter.call fuel name args).2
  | evalExpr (fuel : Nat) (node : Node Slot) : Step interpreter (interpreter.evalExpr fuel node).2
  | evaluate (fuel : Nat) (node : Node Slot) : Step interpreter (interpreter.evaluate fuel node).2

/-- One operation on trees that have only such declarations. -/
inductive StepOn (P : Declaration Slot → Prop) (interpreter : Interpreter) : Interpreter → Prop where
  | load {program : Program Slot} : program.Every P → StepOn P interpreter (interpreter.load program).2
  | run {program : Program Slot} (fuel : Nat) :
      program.Every P → StepOn P interpreter (interpreter.run fuel program).2
  | call (fuel : Nat) (name : String) (args : List Value) :
      StepOn P interpreter (interpreter.call fuel name args).2
  | evalExpr {node : Node Slot} (fuel : Nat) :
      node.Every P → StepOn P interpreter (interpreter.evalExpr fuel node).2
  | evaluate {node : Node Slot} (fuel : Nat) :
      node.Every P → StepOn P interpreter (interpreter.evaluate fuel node).2

theorem Step.on {P : Declaration Slot → Prop} (step : interpreter.Step later) (all : ∀ declaration, P declaration) :
    interpreter.StepOn P later := by
  cases step with
  | load program => exact .load fun function _ => function.every_of_forall all
  | run fuel program => exact .run fuel fun function _ => function.every_of_forall all
  | call fuel name args => exact .call fuel name args
  | evalExpr fuel node => exact .evalExpr fuel (node.every_of_forall all)
  | evaluate fuel node => exact .evaluate fuel (node.every_of_forall all)

theorem load_every {P : Declaration Slot → Prop} {program : Program Slot}
    (functions : interpreter.context.registry.Every P) (given : program.Every P) :
    (interpreter.load program).2.context.registry.Every P := by
  unfold Interpreter.load
  split
  next registry result registered =>
    have every := functions.registerAll given
    rw [registered] at every
    split <;> exact every

end Interpreter

namespace Law

variable {law : Law} {α : Type} {interpreter later : Interpreter} {s : State}

/-- What a law says about the state before and the state after. -/
def Kept (law : Law) (s t : State) : Prop := law.inv t ∧ law.rel s t

theorem Runs.kept {action : Exec α} {good : α → State → Prop} (runs : law.Runs action s good) :
    action.EndsIn s (law.Kept s) :=
  Exec.Ends.mono runs (fun _ _ ended => ⟨ended.1.inv, ended.1.rel⟩) fun _ level => ⟨level.inv, level.rel⟩

theorem Sound.kept {eval : Evaluator} (sound : law.Sound eval) {node : Node Slot}
    (every : node.Every law.declared) (inv : law.inv s) :
    (eval node).EndsIn s (law.Kept s) := by
  refine Exec.Ends.mono (sound node s every inv) (fun flow t after => ?_) fun t level => ⟨level.inv, level.rel⟩
  cases flow with
  | completed =>
    obtain ⟨result, leaves, -⟩ := after
    exact ⟨leaves.inv, leaves.rel⟩
  | returned value => exact ⟨after.1.inv, after.1.rel⟩

theorem perform_kept {action : Exec α} (inv : law.inv interpreter.state)
    (ends : action.EndsIn interpreter.state (law.Kept interpreter.state)) :
    law.Kept interpreter.state (interpreter.perform action).2.state :=
  Interpreter.perform_state ends ⟨inv, law.refl _⟩

theorem sound_of_forall (declared : ∀ declaration, law.declared declaration) (context : Context) (fuel : Nat) :
    law.Sound (eval context fuel) :=
  eval_sound (context.registry.every_of_forall declared) fuel

theorem runEntry_kept (functions : interpreter.context.registry.Every law.declared) (fuel : Nat)
    (inv : law.inv interpreter.state) :
    law.Kept interpreter.state (interpreter.runEntry fuel).2.state := by
  simp only [Interpreter.runEntry]
  split
  next => exact ⟨inv, law.refl _⟩
  next main found =>
    have resolved : interpreter.context.registry.resolve (signature Interpreter.entryPoint []) = .ok main := by
      rw [Registry.resolve, found]
    have yields : law.Yields (Eval.enter (eval interpreter.context fuel) interpreter.context main [])
        interpreter.state (law.Results main) :=
      enter_yields (eval_sound functions fuel) (functions.of_resolve resolved) inv (by simp)
    exact perform_kept inv yields.runs.kept

theorem run_kept {program : Program Slot} (functions : interpreter.context.registry.Every law.declared)
    (given : program.Every law.declared) (fuel : Nat) (inv : law.inv interpreter.state) :
    law.Kept interpreter.state (interpreter.run fuel program).2.state := by
  have loaded := interpreter.load_state program
  have every := Interpreter.load_every functions given
  unfold Interpreter.run
  split
  next other load =>
    rw [load] at loaded every
    rw [← loaded] at inv ⊢
    exact runEntry_kept every fuel inv
  · rw [loaded]
    exact ⟨inv, law.refl _⟩

/-- Every operation on declarations that a law is about keeps it, if the law is about all arguments. -/
theorem stepOn_kept (given : ∀ heap value, law.arg heap value)
    (functions : interpreter.context.registry.Every law.declared) (inv : law.inv interpreter.state)
    (step : interpreter.StepOn law.declared later) : law.Kept interpreter.state later.state := by
  cases step with
  | @load program every =>
    rw [interpreter.load_state program]
    exact ⟨inv, law.refl _⟩
  | run fuel every => exact run_kept functions every fuel inv
  | call fuel name args =>
    exact perform_kept inv
      (invoke_yields (eval_sound functions fuel) functions inv fun _ _ => given _ _).runs.kept
  | evalExpr fuel every =>
    exact perform_kept inv (value_yields (eval_sound functions fuel) every inv).runs.kept
  | evaluate fuel every => exact perform_kept inv ((eval_sound functions fuel).kept every inv)

theorem step_kept (declared : ∀ declaration, law.declared declaration)
    (given : ∀ heap value, law.arg heap value) (inv : law.inv interpreter.state)
    (step : interpreter.Step later) : law.Kept interpreter.state later.state :=
  stepOn_kept given (interpreter.context.registry.every_of_forall declared) inv (step.on declared)

end Law

end TreeLang
