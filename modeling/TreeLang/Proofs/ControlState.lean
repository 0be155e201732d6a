import TreeLang.Proofs.Operations

/-! The control state is restored on every way out. Evaluation may bind new names in the
innermost scope of the active environment; the scopes around it, the depth of calls, the
functions and the limit on calls are as before, after success, return and failure alike. A
block and a call do not even bind a name. -/
namespace TreeLang

/-- The later scope has all bindings of the earlier one, and otherwise names that it lacks. -/
def Scope.Extends (later earlier : Scope) : Prop :=
  ∃ gained, later.bindings = gained ++ earlier.bindings ∧
    ∀ binding ∈ gained, earlier.find? binding.1 = none

namespace Scope.Extends

variable {first second third : Scope}

theorem refl (scope : Scope) : scope.Extends scope := ⟨[], rfl, by simp⟩

theorem find?_eq (extend : second.Extends first) {name : String} {ref : Ref}
    (found : first.find? name = some ref) : second.find? name = some ref := by
  obtain ⟨gained, bindings, fresh⟩ := extend
  have absent : gained.lookup name = none := by
    rw [List.lookup_eq_none_iff]
    intro binding member
    rw [bne_iff_ne]
    rintro rfl
    rw [fresh binding member] at found
    contradiction
  rw [Scope.find?, bindings, List.lookup_append, absent]
  exact found

theorem trans (later : third.Extends second) (earlier : second.Extends first) : third.Extends first := by
  have kept := earlier
  obtain ⟨near, bindings, fresh⟩ := earlier
  obtain ⟨far, others, newer⟩ := later
  refine ⟨far ++ near, by rw [others, bindings, List.append_assoc], fun binding member => ?_⟩
  rcases List.mem_append.mp member with member | member
  · -- A name of the first scope would still be bound in the second.
    cases found : first.find? binding.1 with
    | none => rfl
    | some ref =>
      have still := find?_eq kept found
      rw [newer binding member] at still
      contradiction
  · exact fresh binding member

theorem declare {name : String} {ref : Ref} (declared : first.declare name ref = .ok second) :
    second.Extends first := by
  unfold Scope.declare at declared
  split at declared
  · contradiction
  next absent =>
    cases declared
    exact ⟨[(name, ref)], rfl, by simpa using absent⟩

end Scope.Extends

/-- The later environment has gained names in its innermost scope, and nothing else. -/
structure Env.Grows (later earlier : Env) : Prop where
  outer : later.outer = earlier.outer
  inner : later.inner.Extends earlier.inner

theorem Env.Grows.refl (env : Env) : env.Grows env := ⟨rfl, .refl _⟩

theorem Env.Grows.trans {first second third : Env} (later : third.Grows second)
    (earlier : second.Grows first) : third.Grows first :=
  ⟨later.outer.trans earlier.outer, later.inner.trans earlier.inner⟩

theorem Env.Grows.declare {env later : Env} {name : String} {ref : Ref}
    (declared : env.declare name ref = .ok later) : later.Grows env := by
  unfold Env.declare at declared
  cases inner : env.inner.declare name ref with
  | error failure => simp [inner, Except.map] at declared
  | ok scope =>
    simp only [inner, Except.map, Except.ok.injEq] at declared
    subst declared
    exact ⟨rfl, .declare inner⟩

/-- What a block has added goes away with its scope. -/
theorem Env.Grows.popScope_eq {env later : Env} (grows : later.Grows env.pushScope) :
    later.popScope = env := by
  have outer : later.outer = env.inner :: env.outer := grows.outer
  simp [Env.popScope, outer]

/-- The law of control state: the depth of calls and the outer scopes never change. -/
def Law.control : Law where
  inv _ := True
  rel s t := t.depth = s.depth ∧ t.env.Grows s.env
  val _ _ := True
  arg _ _ := True
  declared _ := True
  refl s := ⟨rfl, .refl s.env⟩
  trans first second := ⟨second.1.trans first.1, second.2.trans first.2⟩
  val_later _ _ _ := trivial
  arg_later _ _ _ := trivial
  arg_of_val _ _ := trivial
  val_int _ _ := trivial
  val_bool _ _ := trivial
  stack _ _ := ⟨trivial, rfl, .refl _⟩
  console _ _ := ⟨trivial, rfl, .refl _⟩
  settle _ _ _ _ := ⟨trivial, rfl, .refl _⟩
  lookup _ _ := trivial
  element _ _ _ := trivial
  assign _ _ _ _ := ⟨trivial, rfl, .refl _⟩
  alloc _ _ := ⟨trivial, rfl, .refl _⟩
  bind _ _ declared := ⟨trivial, rfl, .declare declared⟩
  openBlock _ := trivial
  closeBlock _ _ related := ⟨trivial, related.1, by rw [related.2.popScope_eq]; exact .refl _⟩
  enterCall _ := trivial
  leaveCall _ _ related := ⟨trivial, Nat.sub_eq_of_eq_add related.1, .refl _⟩

theorem Law.control_sound (context : Context) (fuel : Nat) : Law.control.Sound (eval context fuel) :=
  Law.sound_of_forall (fun _ => trivial) context fuel

namespace Eval

variable {context : Context} {fuel : Nat} {s : State}

/-- A call goes back to the environment it was made in. -/
def Restored (s t : State) : Prop := t.env = s.env ∧ t.depth = s.depth

/-- On the way out the depth is counted down from what the body has left, and the body leaves
what it was given. -/
theorem enter_restores (function : FunctionDef Slot) (args : List Value) :
    (enter (eval context fuel) context function args).EndsIn s (Restored s) := by
  have every : function.Every Law.control.declared := function.every_of_forall fun _ => trivial
  have inside : Law.control.Runs (activate (eval context fuel) function args)
      { s with env := .empty, depth := s.depth + 1 } (Law.control.Results function) :=
    Law.activate_runs (Law.control_sound context fuel) every trivial fun _ _ => trivial
  have left (t : State) (level : Law.control.Level { s with env := .empty, depth := s.depth + 1 } t) :
      Restored s { t with env := s.env, depth := t.depth - 1 } :=
    ⟨rfl, Nat.sub_eq_of_eq_add level.rel.1⟩
  apply enter_ends ⟨rfl, rfl⟩
  exact Exec.Ends.thenAlways (Exec.Ends.mono inside (fun _ t ended => left t ended.1) left)

theorem invoke_restores (name : String) (args : List Value) :
    (invoke (eval context fuel) context name args).EndsIn s (Restored s) :=
  invoke_ends ⟨rfl, rfl⟩ fun function => enter_restores function args

/-- Once the arguments of a call are evaluated, nothing that happens in it touches the
caller's names, whether or not the call succeeds. -/
theorem call_restores {name : String} {args : List (Node Slot)} {values : List Value} {t : State}
    (own : Builtin.ofName? name = none)
    (evaluated : Eval.values (eval context fuel) args s = .ok values t) :
    (call (eval context fuel) context name args).EndsIn s (Restored t) := by
  simp only [call, own]
  refine Exec.Ends.bind_of_eq evaluated ?_
  refine Exec.Ends.bind (invoke_restores name values) fun result u restored => ?_
  cases result with
  | none => exact Exec.ends_pure restored
  | some value => exact restored

end Eval

section evaluation

variable (context : Context) (fuel : Nat) {s : State}

theorem eval_block_env (body : List (Node Slot)) :
    (eval context (fuel + 1) (.block body)).EndsIn s fun t => t.env = s.env := by
  have runs := Law.statements_runs (Law.control_sound context fuel)
    (Node.everyOf_of_forall (fun _ => trivial) body) (s := { s with env := s.env.pushScope }) trivial
  refine Exec.ends_modify_bind (Exec.Ends.thenAlways (Exec.Ends.mono runs ?_ ?_))
  · exact fun flow t ended => ended.1.rel.2.popScope_eq
  · exact fun t level => level.rel.2.popScope_eq

/-- Evaluating arguments with success has bound no name, so a call that gets that far has
bound none either. -/
theorem eval_call_env {name : String} {args : List (Node Slot)} {values : List Value} {t : State}
    (own : Builtin.ofName? name = none) (evaluated : Eval.values (eval context fuel) args s = .ok values t) :
    (eval context (fuel + 1) (.call name args)).EndsIn s fun u => u.env = s.env := by
  have yields := Law.values_yields (Law.control_sound context fuel)
    (Node.everyOf_of_forall (fun _ => trivial) args) (s := s) trivial
  have same : t.env = s.env := (yields.ok_of_eq evaluated).1.env
  have whole : (eval context (fuel + 1) (.call name args)).EndsIn s (Eval.Restored t) :=
    Exec.Ends.bind (Eval.call_restores own evaluated) fun _ _ restored => Exec.ends_pure restored
  exact Exec.Ends.mono whole (fun _ u restored => restored.1.trans same)
    fun u restored => restored.1.trans same

end evaluation

/-- The functions, the limit on calls, the depth of calls and the outer scopes are as before,
and the innermost scope has at most gained names. -/
structure ControlKept (before after : Interpreter) : Prop where
  context : after.context = before.context
  depth : after.state.depth = before.state.depth
  outer : after.state.env.outer = before.state.env.outer
  inner : after.state.env.inner.Extends before.state.env.inner
  bindings : ∀ name ref, before.state.env.inner.find? name = some ref →
    after.state.env.inner.find? name = some ref

/-- Evaluation restores the control state however it ends. Evaluating a block binds no name in
the scope around it, nor does calling a program's own function: through a call node as soon
as there are argument values to call it with, and from outside in any case. -/
theorem evaluate_control (interpreter : Interpreter) (fuel : Nat) (node : Node Slot) :
    ControlKept interpreter (interpreter.evaluate (fuel + 1) node).2 ∧
    (node.kind = .block →
      (interpreter.evaluate (fuel + 1) node).2.state.env = interpreter.state.env) ∧
    (∀ name args values t, node = .call name args → Builtin.ofName? name = none →
      Eval.values (eval interpreter.context fuel) args interpreter.state = .ok values t →
      (interpreter.evaluate (fuel + 1) node).2.state.env = interpreter.state.env) ∧
    ∀ name args,
      (interpreter.call fuel name args).2.context = interpreter.context ∧
      (interpreter.call fuel name args).2.state.depth = interpreter.state.depth ∧
      (interpreter.call fuel name args).2.state.env = interpreter.state.env := by
  refine ⟨?_, ?_, ?_, ?_⟩
  · obtain ⟨-, depth, grows⟩ := Law.control.step_kept (fun _ => trivial) (fun _ _ => trivial) trivial
      (.evaluate (fuel + 1) node)
    exact ⟨interpreter.perform_context _, depth, grows.outer, grows.inner, fun _ _ => grows.inner.find?_eq⟩
  · intro block
    cases node <;> try contradiction
    next body => exact Interpreter.perform_state (eval_block_env interpreter.context fuel body) rfl
  · rintro name args values t rfl own evaluated
    exact Interpreter.perform_state (eval_call_env interpreter.context fuel own evaluated) rfl
  · intro name args
    have restored : Eval.Restored interpreter.state (interpreter.call fuel name args).2.state :=
      Interpreter.perform_state (Eval.invoke_restores name args) ⟨rfl, rfl⟩
    exact ⟨interpreter.perform_context _, restored.2, restored.1⟩

end TreeLang
