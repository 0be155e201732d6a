import TreeLang.Proofs.Operations

/-! The discipline of the operand stack. Whatever stands on the stack and whatever frames are
marked when a node is evaluated, values and marks are still there afterwards, and how many
values came on top depends on the kind of the node alone, or on the function that is called. -/
namespace TreeLang

/-- The law that asks for nothing; what is left of soundness is the stack. -/
def Law.bare : Law where
  inv _ := True
  rel _ _ := True
  val _ _ := True
  arg _ _ := True
  declared _ := True
  refl _ := trivial
  trans _ _ := trivial
  val_later _ _ _ := trivial
  arg_later _ _ _ := trivial
  arg_of_val _ _ := trivial
  val_int _ _ := trivial
  val_bool _ _ := trivial
  stack _ _ := ⟨trivial, trivial⟩
  console _ _ := ⟨trivial, trivial⟩
  settle _ _ _ _ := ⟨trivial, trivial⟩
  lookup _ _ := trivial
  element _ _ _ := trivial
  assign _ _ _ _ := ⟨trivial, trivial⟩
  alloc _ _ := ⟨trivial, trivial⟩
  bind _ _ _ := ⟨trivial, trivial⟩
  openBlock _ := trivial
  closeBlock _ _ _ := ⟨trivial, trivial⟩
  enterCall _ := trivial
  leaveCall _ _ _ := ⟨trivial, trivial⟩

theorem Law.bare_sound (context : Context) (fuel : Nat) : Law.bare.Sound (eval context fuel) :=
  Law.sound_of_forall (fun _ => trivial) context fuel

namespace Eval

variable {context : Context} {fuel : Nat} {s : State}

/-- The stack of a caller is back as it was, whether or not the call succeeds. -/
theorem enter_endsIn_stack (function : FunctionDef Slot) (args : List Value) :
    (enter (eval context fuel) context function args).EndsIn s fun t => t.stack = s.stack := by
  have every : function.Every Law.bare.declared := function.every_of_forall fun _ => trivial
  refine Exec.Ends.mono (Law.enter_yields (Law.bare_sound context fuel) every trivial fun _ _ => trivial) ?_ ?_
  · exact fun _ t ended => ended.1.stack
  · exact fun t level => level.stack

theorem invoke_endsIn_stack (name : String) (args : List Value) :
    (invoke (eval context fuel) context name args).EndsIn s fun t => t.stack = s.stack :=
  invoke_ends rfl fun function => enter_endsIn_stack function args

end Eval

/-- How many values a completed node adds to the stack. For the call of a program's own
function the return type decides; `below` has evaluated the arguments. -/
structure Adds (below : Evaluator) (context : Context) (s : State) (node : Node Slot)
    (added : List Value) : Prop where
  kind : ∀ leaves, node.leavesValue? = some leaves → added.length = if leaves then 1 else 0
  call : ∀ name args, node = .call name args → Builtin.ofName? name = none →
    ∃ function, Eval.Selects below context name args s function ∧
      added.length = if function.returns.isVoid then 0 else 1

theorem OperandStack.withResult_injective {stack : OperandStack} {first second : Option Value}
    (same : stack.withResult first = stack.withResult second) : first = second := by
  replace same := congrArg OperandStack.values same
  cases first <;> cases second <;> simp_all [OperandStack.withResult, OperandStack.push]

/-- The call of a program's own function adds a value exactly if the function returns one. -/
theorem eval_call_result {context : Context} {fuel : Nat} {name : String} {args : List (Node Slot)}
    {s t : State} {result : Option Value} (own : Builtin.ofName? name = none)
    (outcome : eval context (fuel + 1) (.call name args) s = .ok .completed t)
    (stack : t.stack = s.stack.withResult result) :
    ∃ function, Eval.Selects (eval context fuel) context name args s function ∧
      result.isSome = !function.returns.isVoid := by
  have every : Node.EveryOf Law.bare.declared args := Node.everyOf_of_forall (fun _ => trivial) args
  have functions : context.registry.Every Law.bare.declared :=
    context.registry.every_of_forall fun _ => trivial
  have called : (eval context (fuel + 1) (.call name args)).Ends s
      (fun _ => Law.bare.Called (eval context fuel) context name args s) (Law.bare.Level s) :=
    Exec.Ends.bind (Law.call_leaves (Law.bare_sound context fuel) functions every trivial)
      fun _ _ ended => Exec.ends_pure ended
  obtain ⟨other, leaves, -, selects⟩ := called.ok_of_eq outcome
  obtain rfl := OperandStack.withResult_injective (stack.symm.trans leaves.stack)
  exact selects own

/-- Evaluation, whatever the state of the interpreter: every value and every frame mark is
where it was; failures and returns add nothing, and a node that completes adds what `Adds`
says. Without fuel nothing is evaluated, so `fuel + 1` is any fuel that matters. -/
theorem evaluate_stack (interpreter : Interpreter) (fuel : Nat) (node : Node Slot) :
    match interpreter.evaluate (fuel + 1) node with
    | (.value .completed, after) => ∃ added,
        after.state.stack.values = added ++ interpreter.state.stack.values ∧
        after.state.stack.frames = interpreter.state.stack.frames ∧
        Adds (eval interpreter.context fuel) interpreter.context interpreter.state node added
    | (.value (.returned _), after) => after.state.stack = interpreter.state.stack
    | (.failure _, after) => after.state.stack = interpreter.state.stack
    | (.unfinished, _) => True := by
  have ends := Law.bare_sound interpreter.context (fuel + 1) node interpreter.state
    (node.every_of_forall fun _ => trivial) trivial
  unfold Interpreter.evaluate
  rcases interpreter.perform_cases (eval interpreter.context (fuel + 1) node) with
    ⟨flow, t, outcome, performed⟩ | ⟨failure, t, outcome, performed⟩ | ⟨-, performed⟩
  · rw [performed]
    have after := ends.ok_of_eq outcome
    cases flow with
    | returned value => exact after.1.stack
    | completed =>
      obtain ⟨result, leaves, count⟩ := after
      refine ⟨result.toList, ?_, ?_, ?_, ?_⟩
      · cases result <;> simp [leaves.stack, OperandStack.withResult, OperandStack.push]
      · cases result <;> simp [leaves.stack, OperandStack.withResult, OperandStack.push]
      · rintro kind classified
        obtain rfl := count kind classified
        cases result <;> rfl
      · rintro name args rfl own
        obtain ⟨function, selected, fits⟩ := eval_call_result own outcome leaves.stack
        refine ⟨function, selected, ?_⟩
        cases result <;> simp_all
  · rw [performed]
    exact (ends.bad_of_eq outcome).stack
  · rw [performed]
    trivial

end TreeLang
