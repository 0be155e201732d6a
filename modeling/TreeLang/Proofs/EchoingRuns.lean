import TreeLang.Proofs.ControlState
import TreeLang.Proofs.Echo

/-! Two runs side by side. The second is over another operand stack and may use another
evaluator for the levels below. As long as the two evaluators do the same at every node that
is met, so do all rules above them. Which states are met is known from a law that the first
run keeps. With the same evaluator on both sides this says that evaluation depends on nothing
that lies below on the stack, and with more fuel on one side that more fuel changes nothing. -/
namespace TreeLang

namespace Law

open Exec

variable {law : Law} {lax : Prop} {depth : Nat} {below below' : Evaluator} {s t : State} {node : Node Slot}

/-- The states that the law allows at one depth of calls. -/
structure At (law : Law) (depth : Nat) (s : State) : Prop where
  inv : law.inv s
  depth : s.depth = depth

/-- The second evaluator does as the first wherever the law holds, at one depth of calls. -/
structure Agree (law : Law) (lax : Prop) (depth : Nat) (below below' : Evaluator) : Prop where
  sound : law.Sound below
  level : ∀ {s t}, law.rel s t → t.depth = s.depth
  replays : ∀ node s, node.Every law.declared → law.At depth s → Replays lax (below node) (below' node) s

theorem Agree.later (agree : law.Agree lax depth below below') (here : law.At depth s)
    (level : law.Level s t) : law.At depth t :=
  ⟨level.inv, (agree.level level.rel).trans here.depth⟩

/-- Whatever its flow, a node leaves one result at most. -/
theorem After.stack_eq {flow : Flow} (after : law.After node s flow t) :
    ∃ result, t.stack = s.stack.withResult result := by
  cases flow with
  | completed =>
    obtain ⟨result, leaves, -⟩ := after
    exact ⟨result, leaves.stack⟩
  | returned value => exact ⟨none, after.1.stack⟩

section rules

variable (agree : law.Agree lax depth below below')
include agree

theorem value_echoes (every : node.Every law.declared) (here : law.At depth s) :
    Echoes lax (Eval.value below node) (Eval.value below' node) s := by
  have ends := agree.sound node s every here.inv
  have replays := agree.replays node s every here
  intro stack
  cases outcome : below node s with
  | ok flow t =>
    have after := ends.ok_of_eq outcome
    cases flow with
    | completed =>
      obtain ⟨result, leaves, -⟩ := after
      have second := replays.of_ok outcome leaves.stack stack
      rw [Eval.value_of_completed outcome leaves.stack, Eval.value_of_completed second rfl]
      cases result <;> rfl
    | returned value =>
      have level : t.stack = s.stack.withResult none := after.1.stack
      have second := replays.of_ok outcome level stack
      rw [Eval.value_of_returned outcome, Eval.value_of_returned second]
      rfl
  | error failure t =>
    have second := replays.of_error outcome stack
    rw [Eval.value, Eval.value, height_bind, height_bind, bind_of_error outcome, bind_of_error second]
  | outOfFuel =>
    rw [Eval.value, Eval.value, height_bind, height_bind, bind_of_outOfFuel outcome]
    exact (replays.of_outOfFuel outcome stack).imp_right bind_of_outOfFuel

theorem int_echoes (every : node.Every law.declared) (here : law.At depth s) :
    Echoes lax (Eval.int below node) (Eval.int below' node) s :=
  (value_echoes agree every here).bind (ends_anyhow _ s) fun _ _ _ =>
    (portable_reading fun _ _ => rfl).echoes

theorem truth_echoes (every : node.Every law.declared) (here : law.At depth s) :
    Echoes lax (Eval.truth below node) (Eval.truth below' node) s :=
  (value_echoes agree every here).bind (ends_anyhow _ s) fun _ _ _ =>
    (portable_reading fun _ _ => rfl).echoes

theorem statement_echoes (every : node.Every law.declared) (here : law.At depth s) :
    Echoes lax (Eval.statement below node) (Eval.statement below' node) s := by
  have ends := agree.sound node s every here.inv
  have replays := agree.replays node s every here
  intro stack
  cases outcome : below node s with
  | ok flow t =>
    obtain ⟨result, left⟩ := (ends.ok_of_eq outcome).stack_eq
    have second := replays.of_ok outcome left stack
    rw [Eval.statement_of_ok outcome left, Eval.statement_of_ok second rfl]
  | error failure t =>
    have second := replays.of_error outcome stack
    rw [Eval.statement, Eval.statement, height_bind, height_bind, bind_of_error outcome, bind_of_error second]
  | outOfFuel =>
    rw [Eval.statement, Eval.statement, height_bind, height_bind, bind_of_outOfFuel outcome]
    exact (replays.of_outOfFuel outcome stack).imp_right bind_of_outOfFuel

theorem statements_echoes {body : List (Node Slot)} (every : Node.EveryOf law.declared body)
    (here : law.At depth s) : Echoes lax (Eval.statements below body) (Eval.statements below' body) s := by
  induction body generalizing s with
  | nil => exact (portable_pure _).echoes
  | cons node rest ih =>
    refine (statement_echoes agree every.1 here).bind (statement_runs agree.sound every.1 here.inv) ?_
    rintro flow t ⟨level, -⟩
    cases flow with
    | returned value => exact (portable_pure _).echoes
    | completed => exact ih every.2 (agree.later here level)

theorem values_echoes {args : List (Node Slot)} (every : Node.EveryOf law.declared args)
    (here : law.At depth s) : Echoes lax (Eval.values below args) (Eval.values below' args) s := by
  induction args generalizing s with
  | nil => exact (portable_pure _).echoes
  | cons node rest ih =>
    refine (value_echoes agree every.1 here).bind (value_yields agree.sound every.1 here.inv) ?_
    rintro first t ⟨steady, -⟩
    refine (ih every.2 (agree.later here steady.toLevel)).bind (ends_anyhow _ t) fun others u _ => ?_
    exact (portable_pure _).echoes

/-- The second run may have more turns to go, but then only a run that ends tells. -/
theorem loop_echoes {condition body : Node Slot} {turns turns' : Nat} (enough : turns ≤ turns')
    (exact : lax ∨ turns' = turns) (test : condition.Every law.declared) (every : body.Every law.declared)
    (here : law.At depth s) :
    Echoes lax (Eval.loop below condition body turns) (Eval.loop below' condition body turns') s := by
  induction turns generalizing turns' s with
  | zero =>
    intro stack
    rcases exact with free | rfl
    · exact .inl free
    · exact .inr rfl
  | succ turns ih =>
    obtain ⟨turns', rfl⟩ : ∃ fewer, turns' = fewer + 1 := ⟨turns' - 1, by omega⟩
    refine (truth_echoes agree test here).bind (truth_yields agree.sound test here.inv) ?_
    rintro holds t ⟨tested, -⟩
    have there := agree.later here tested.toLevel
    cases holds with
    | false => exact (portable_pure _).echoes
    | true =>
      refine (statement_echoes agree every there).bind (statement_runs agree.sound every there.inv) ?_
      rintro flow u ⟨level, -⟩
      cases flow with
      | returned value => exact (portable_pure _).echoes
      | completed => exact ih (by omega) (exact.imp_right (by omega)) (agree.later there level)

theorem resolve_echoes : ∀ (spec : TypeSpec Slot) {s : State}, spec.Every law.declared → law.At depth s →
    Echoes lax (Eval.resolve below spec) (Eval.resolve below' spec) s
  | .int, _, _, _ => (portable_pure _).echoes
  | .bool, _, _, _ => (portable_pure _).echoes
  | .void, _, _, _ => (portable_pure _).echoes
  | .array element size, s, every, here => by
    rw [Eval.resolve, Eval.resolve]
    refine (int_echoes agree every.2 here).bind (int_yields agree.sound every.2 here.inv) ?_
    rintro n t ⟨steady, -⟩
    by_cases positive : 0 < n
    · rw [if_pos positive, if_pos positive]
      exact (resolve_echoes element every.1 (agree.later here steady.toLevel)).bind (ends_anyhow _ t)
        fun ty u _ => (portable_pure _).echoes
    · rw [if_neg positive, if_neg positive]
      exact (portable_fail _).echoes
termination_by structural spec => spec

theorem typeOf_echoes {declaration : Declaration Slot} (every : declaration.Every law.declared)
    (here : law.At depth s) : Echoes lax (Eval.typeOf below declaration) (Eval.typeOf below' declaration) s := by
  have settled : law.Yields (settledType? declaration.note) s fun _ _ => True :=
    yields_reading here.inv fun _ _ => trivial
  refine (portable_reading fun _ _ => rfl).echoes.bind settled ?_
  rintro known t ⟨steady, -⟩
  cases known with
  | some ty => exact (portable_pure _).echoes
  | none =>
    have there := agree.later here steady.toLevel
    exact (resolve_echoes agree declaration.ty every.parts.1 there).bind (ends_anyhow _ t)
      fun ty u _ stack => rfl

theorem declare_echoes {declaration : Declaration Slot} (every : declaration.Every law.declared)
    (here : law.At depth s) :
    Echoes lax (Eval.declare below declaration) (Eval.declare below' declaration) s :=
  (typeOf_echoes agree every here).bind (ends_anyhow _ s) fun ty _ _ =>
    ((portable_newCell ty).bind fun ref => portable_bindName declaration.name ref).echoes

theorem bindParams_echoes {params : List (Declaration Slot)} {args : List Value}
    (every : ∀ param ∈ params, param.Every law.declared) (here : law.At depth s)
    (given : ∀ arg ∈ args, law.arg s.heap arg) :
    Echoes lax (Eval.bindParams below params args) (Eval.bindParams below' params args) s := by
  induction params generalizing args s with
  | nil => exact (portable_pure _).echoes
  | cons param params ih =>
    cases args with
    | nil => exact (portable_pure _).echoes
    | cons arg args =>
      have first := every param (by simp)
      refine (declare_echoes agree first here).bind (declare_runs agree.sound first here.inv) ?_
      rintro - t ⟨declared, -⟩
      refine (portable_reading fun _ _ => rfl).echoes.bind (yields_lookup param.name declared.inv) ?_
      rintro ref u ⟨found, place⟩
      have level := declared.trans found.toLevel
      have source := law.arg_later level.inv level.rel (given arg (by simp))
      refine (portable_assign ref arg).echoes.bind (yields_assign level.inv place source) ?_
      rintro - w ⟨assigned, -⟩
      have now := level.trans assigned.toLevel
      refine ih (fun other member => every other (by simp [member])) (agree.later here now) ?_
      exact fun other member => law.arg_later now.inv now.rel (given other (by simp [member]))

/-- Each run marks a frame on its own stack and unwinds to it. -/
theorem framed_echoes {body : List (Node Slot)} (every : Node.EveryOf law.declared body)
    (here : law.At depth s) :
    Echoes lax
      (modify (fun s => { s with stack := s.stack.pushFrame }) >>= fun _ =>
        (Eval.statements below body).thenAlways fun s => { s with stack := s.stack.popFrame })
      (modify (fun s => { s with stack := s.stack.pushFrame }) >>= fun _ =>
        (Eval.statements below' body).thenAlways fun s => { s with stack := s.stack.popFrame }) s := by
  have framed : law.At depth { s with stack := s.stack.pushFrame } :=
    ⟨(law.stack s.stack.pushFrame here.inv).1, here.depth⟩
  have echoes := statements_echoes agree every framed
  have unwound (stack : OperandStack) : stack.pushFrame.popFrame = stack := by
    simp [OperandStack.pushFrame, OperandStack.popFrame, OperandStack.truncate, OperandStack.size]
  intro stack
  simp only [modify_bind, Exec.thenAlways]
  cases outcome : Eval.statements below body { s with stack := s.stack.pushFrame } with
  | ok flow t => simp only [echoes.of_ok outcome stack.pushFrame, unwound]
  | error failure t => simp only [echoes.of_error outcome stack.pushFrame, unwound]
  | outOfFuel =>
    rcases echoes.of_outOfFuel outcome stack.pushFrame with free | same
    · exact .inl free
    · simp only [same, or_true]

theorem activate_echoes {function : FunctionDef Slot} {args : List Value}
    (every : function.Every law.declared) (here : law.At depth s)
    (given : ∀ arg ∈ args, law.arg s.heap arg) :
    Echoes lax (Eval.activate below function args) (Eval.activate below' function args) s := by
  have bound := bindParams_echoes agree every.params here given
  refine bound.bind (bindParams_runs agree.sound every.params here.inv given) ?_
  rintro - t ⟨level, -⟩
  have framed := framed_echoes agree every.body (agree.later here level)
  exact framed.bind (ends_anyhow _ t) fun flow u _ => (Eval.portable_finish function flow).echoes

theorem builtin_echoes {function : Builtin} {args : List (Node Slot)}
    (every : Node.EveryOf law.declared args) (here : law.At depth s) :
    Echoes lax (Eval.builtin below function args) (Eval.builtin below' function args) s := by
  induction args generalizing s with
  | nil => exact (portable_pure _).echoes
  | cons node rest ih =>
    refine (value_echoes agree every.1 here).bind (value_yields agree.sound every.1 here.inv) ?_
    rintro value t ⟨steady, good⟩
    have there := agree.later here steady.toLevel
    cases function with
    | print =>
      have printed : Echoes lax (print value) (print value) t := fun _ => rfl
      refine printed.bind (yields_print value there.inv) ?_
      exact fun _ u ended => ih every.2 (agree.later there ended.1.toLevel)
    | read =>
      cases value with
      | int n => exact (portable_fail _).echoes
      | bool b => exact (portable_fail _).echoes
      | cell ref =>
        refine (portable_readInto ref).echoes.bind (yields_readInto ref there.inv good) ?_
        exact fun _ u ended => ih every.2 (agree.later there ended.1.toLevel)

end rules

/-- A call sees nothing of its caller's stack. -/
theorem enter_echoes {context : Context} {function : FunctionDef Slot} {args : List Value}
    (body : Echoes lax (Eval.activate below function args) (Eval.activate below' function args)
      { s with env := .empty, depth := s.depth + 1 }) :
    Echoes lax (Eval.enter below context function args) (Eval.enter below' context function args) s := by
  intro stack
  unfold Eval.enter
  by_cases room : s.depth < context.maxCallDepth
  · simp only [if_pos room]
    exact body.thenAlways (fun _ _ => rfl) stack
  · simp only [if_neg room]

/-- Only the function that the call resolves to is entered. -/
theorem invoke_echoes_of_resolve {context : Context} {name : String} {args : List Value}
    (entered : ∀ function, context.registry.resolve (signature name (args.map s.heap.tag)) = .ok function →
      Echoes lax (Eval.activate below function args) (Eval.activate below' function args)
        { s with env := .empty, depth := s.depth + 1 }) :
    Echoes lax (Eval.invoke below context name args) (Eval.invoke below' context name args) s := by
  have resolved : (reading fun s => context.registry.resolve (signature name (args.map s.heap.tag))).Ends s
      (fun function t => context.registry.resolve (signature name (args.map s.heap.tag)) = .ok function ∧ t = s)
      fun _ => True :=
    ends_reading (fun _ answer => ⟨answer, rfl⟩) trivial
  refine (portable_reading fun _ _ => rfl).echoes.bind resolved ?_
  rintro function t ⟨answer, rfl⟩
  exact enter_echoes (entered function answer)

theorem invoke_echoes {context : Context} {name : String} {args : List Value}
    (entered : ∀ function, Echoes lax (Eval.activate below function args) (Eval.activate below' function args)
      { s with env := .empty, depth := s.depth + 1 }) :
    Echoes lax (Eval.invoke below context name args) (Eval.invoke below' context name args) s :=
  invoke_echoes_of_resolve fun function _ => entered function

section nodes

variable (agree : law.Agree lax depth below below')
include agree

/-- An expression comes first and the node's own result follows. -/
theorem value_bindReplays {next next' : Value → Exec Flow} (every : node.Every law.declared)
    (here : law.At depth s)
    (after : ∀ value t, law.Steady s t → law.val t.heap value → Replays lax (next value) (next' value) t) :
    Replays lax (Eval.value below node >>= next) (Eval.value below' node >>= next') s :=
  (value_echoes agree every here).bindReplays (value_yields agree.sound every here.inv)
    (fun _ _ ended => ended.1.stack) fun value t ended => after value t ended.1 ended.2

theorem int_bindReplays {next next' : Int64 → Exec Flow} (every : node.Every law.declared)
    (here : law.At depth s) (after : ∀ n t, law.Steady s t → Replays lax (next n) (next' n) t) :
    Replays lax (Eval.int below node >>= next) (Eval.int below' node >>= next') s :=
  (int_echoes agree every here).bindReplays (int_yields agree.sound every here.inv)
    (fun _ _ ended => ended.1.stack) fun n t ended => after n t ended.1

theorem truth_bindReplays {next next' : Bool → Exec Flow} (every : node.Every law.declared)
    (here : law.At depth s) (after : ∀ b t, law.Steady s t → Replays lax (next b) (next' b) t) :
    Replays lax (Eval.truth below node >>= next) (Eval.truth below' node >>= next') s :=
  (truth_echoes agree every here).bindReplays (truth_yields agree.sound every here.inv)
    (fun _ _ ended => ended.1.stack) fun b t ended => after b t ended.1

end nodes

theorem reading_bindReplays {α β : Type} {query : State → Except Failure α} {next next' : α → Exec β}
    (blind : ∀ s stack, query { s with stack } = query s)
    (after : ∀ value, Replays lax (next value) (next' value) s) :
    Replays lax (reading query >>= next) (reading query >>= next') s := by
  have read : (reading query).Ends s (fun _ t => t = s) fun _ => True :=
    ends_reading (fun _ _ => rfl) trivial
  refine (portable_reading blind).echoes.bindReplays read (fun _ t same => by rw [same]) ?_
  rintro value t rfl
  exact after value

theorem pure_replays {α : Type} (value : α) : Replays lax (pure value : Exec α) (pure value) s := by
  intro stack result left
  rw [withResult_eq_self left]
  rfl

theorem produce_replays (value : Value) : Replays lax (Eval.produce value) (Eval.produce value) s := by
  intro stack result left
  rw [withResult_eq_push left]
  rfl

theorem fail_replays (failure : Failure) : Replays lax (fail failure : Exec Flow) (fail failure) s :=
  fun _ => rfl

section nodes

variable (agree : law.Agree lax depth below below')
include agree

theorem call_replays {context : Context} {name : String} {args : List (Node Slot)}
    (functions : context.registry.Every law.declared) (every : Node.EveryOf law.declared args)
    (here : law.At depth s)
    (entered : ∀ t function args, function.Every law.declared → law.Steady s t →
      Echoes lax (Eval.activate below function args) (Eval.activate below' function args)
        { t with env := .empty, depth := t.depth + 1 }) :
    Replays lax (Eval.call below context name args) (Eval.call below' context name args) s := by
  unfold Eval.call
  cases Builtin.ofName? name with
  | some function =>
    exact (builtin_echoes agree every here).replays (builtin_yields agree.sound every here.inv)
      fun _ _ ended => ended.1.stack
  | none =>
    refine (values_echoes agree every here).bindReplays (values_yields agree.sound every here.inv)
      (fun _ _ ended => ended.1.stack) ?_
    rintro values t ⟨steady, goods⟩
    have given : ∀ arg ∈ values, law.arg t.heap arg := fun arg member =>
      law.arg_of_val steady.inv (goods arg member)
    refine (invoke_echoes_of_resolve fun function resolved =>
        entered t function values (functions.of_resolve resolved) steady).bindReplays
      (invoke_yields agree.sound functions steady.inv given) (fun _ _ ended => ended.1.stack) ?_
    rintro result u -
    cases result with
    | none => exact pure_replays ()
    | some value =>
      intro stack result left
      rw [withResult_eq_push left]
      rfl

theorem block_echoes {body : List (Node Slot)} (every : Node.EveryOf law.declared body)
    (here : law.At depth s) :
    Echoes lax
      (modify (fun s => { s with env := s.env.pushScope }) >>= fun _ =>
        (Eval.statements below body).thenAlways fun s => { s with env := s.env.popScope })
      (modify (fun s => { s with env := s.env.pushScope }) >>= fun _ =>
        (Eval.statements below' body).thenAlways fun s => { s with env := s.env.popScope }) s := by
  have opened : law.At depth { s with env := s.env.pushScope } := ⟨law.openBlock here.inv, here.depth⟩
  exact fun stack => (statements_echoes agree every opened).thenAlways (fun _ _ => rfl) stack

/-- Evaluating one node on both sides. Functions that are called need not be covered by the
same law, so what happens in them is asked for separately. -/
theorem step_replays {context : Context} {turns turns' : Nat} (enough : turns ≤ turns')
    (exact : lax ∨ turns' = turns) (functions : context.registry.Every law.declared)
    (every : node.Every law.declared) (here : law.At depth s)
    (entered : node.kind = .call → ∀ t function args, function.Every law.declared → law.Steady s t →
      Echoes lax (Eval.activate below function args) (Eval.activate below' function args)
        { t with env := .empty, depth := t.depth + 1 }) :
    Replays lax (Eval.step below context turns node) (Eval.step below' context turns' node) s := by
  cases node with
  | int n => exact produce_replays (.int n)
  | bool b => exact produce_replays (.bool b)
  | var name => exact reading_bindReplays (fun _ _ => rfl) fun ref => produce_replays (.cell ref)
  | index base position =>
    refine value_bindReplays agree every.1 here fun value t based _ => ?_
    refine reading_bindReplays (fun _ _ => rfl) fun array => ?_
    refine int_bindReplays agree every.2 (agree.later here based.toLevel) fun n u counted => ?_
    exact reading_bindReplays (fun _ _ => rfl) fun ref => produce_replays (.cell ref)
  | arith op left right =>
    refine int_bindReplays agree every.1 here fun l t lefted => ?_
    refine int_bindReplays agree every.2 (agree.later here lefted.toLevel) fun r u righted => ?_
    cases op.result? l r with
    | some n => exact produce_replays (.int n)
    | none => exact fail_replays .divisionByZero
  | logic op left right =>
    refine truth_bindReplays agree every.1 here fun l t lefted => ?_
    cases op.decided? l with
    | some b => exact produce_replays (.bool b)
    | none =>
      exact truth_bindReplays agree every.2 (agree.later here lefted.toLevel) fun r u _ =>
        produce_replays (.bool r)
  | compare op left right =>
    refine int_bindReplays agree every.1 here fun l t lefted => ?_
    exact int_bindReplays agree every.2 (agree.later here lefted.toLevel) fun r u _ =>
      produce_replays (.bool (op.holds l r))
  | not operand =>
    have inner : operand.Every law.declared := every
    exact truth_bindReplays agree inner here fun b t _ => produce_replays (.bool (!b))
  | assign target source =>
    refine value_bindReplays agree every.1 here fun place t targeted good => ?_
    cases place with
    | int n => exact fail_replays (.notAddressable "assignment")
    | bool b => exact fail_replays (.notAddressable "assignment")
    | cell ref =>
      refine value_bindReplays agree every.2 (agree.later here targeted.toLevel) fun value u valued source => ?_
      have place := law.val_later valued.inv valued.rel good
      refine (portable_assign ref value).echoes.bindReplays
        (yields_assign valued.inv place (law.arg_of_val valued.inv source))
        (fun _ _ ended => ended.1.stack) fun _ w _ => ?_
      exact produce_replays (.cell ref)
  | call name args =>
    exact (call_replays agree functions every here (entered rfl)).bindPure Flow.completed
  | declare declaration =>
    have declared := (declare_echoes agree every here).replays (declare_runs agree.sound every here.inv)
      fun _ _ ended => ended.1.stack
    exact declared.bindPure Flow.completed
  | block body =>
    exact (block_echoes agree every here).replays (block_runs agree.sound every here.inv)
      fun _ _ ended => ended.1.stack
  | group body =>
    exact (statements_echoes agree every here).replays (statements_runs agree.sound every here.inv)
      fun _ _ ended => ended.1.stack
  | branch condition yes no =>
    refine truth_bindReplays agree every.1 here fun holds t tested => ?_
    have there := agree.later here tested.toLevel
    cases holds with
    | true =>
      exact (statement_echoes agree every.2.1 there).replays (statement_runs agree.sound every.2.1 there.inv)
        fun _ _ ended => ended.1.stack
    | false =>
      cases no with
      | none => exact pure_replays Flow.completed
      | some no =>
        exact (statement_echoes agree every.2.2 there).replays (statement_runs agree.sound every.2.2 there.inv)
          fun _ _ ended => ended.1.stack
  | loop condition body =>
    exact (loop_echoes agree enough exact every.1 every.2 here).replays
      (loop_runs agree.sound turns every.1 every.2 here.inv) fun _ _ ended => ended.1.stack
  | ret value =>
    cases value with
    | none => exact pure_replays (Flow.returned none)
    | some result =>
      have inner : result.Every law.declared := every
      exact value_bindReplays agree inner here fun value t _ _ => pure_replays (Flow.returned (some value))

end nodes

end Law

/-- Over the very stack of the first run, the second is the same run. -/
theorem Law.eq_of_replays {law : Law} {node : Node Slot} {lax : Prop} {first second : Exec Flow} {s : State}
    (ends : first.Ends s (law.After node s) (law.Level s)) (replays : Exec.Replays lax first second s)
    (ended : lax → first s ≠ .outOfFuel) : second s = first s := by
  cases outcome : first s with
  | ok flow t =>
    obtain ⟨result, left⟩ := (ends.ok_of_eq outcome).stack_eq
    have same := replays.of_ok outcome left s.stack
    rwa [← left] at same
  | error failure t =>
    have same := replays.of_error outcome s.stack
    have unchanged : { t with stack := s.stack } = t := by rw [← (ends.bad_of_eq outcome).stack]
    rwa [unchanged] at same
  | outOfFuel =>
    rcases replays.of_outOfFuel outcome s.stack with free | same
    · exact absurd outcome (ended free)
    · exact same

section evaluation

variable (context : Context) {lax : Prop} {fuel fuel' : Nat}

/-- With at least as much fuel, and over any stack, a node is evaluated in the same way. -/
theorem eval_replays (enough : fuel ≤ fuel') (exact : lax ∨ fuel' = fuel) (node : Node Slot) (s : State) :
    Exec.Replays lax (eval context fuel node) (eval context fuel' node) s := by
  induction fuel generalizing fuel' node s with
  | zero =>
    intro stack
    rcases exact with free | rfl
    · exact .inl free
    · exact .inr rfl
  | succ fuel ih =>
    obtain ⟨fuel', rfl⟩ : ∃ less, fuel' = less + 1 := ⟨fuel' - 1, by omega⟩
    have rest : lax ∨ fuel' = fuel := exact.imp_right (by omega)
    have agree (depth : Nat) : Law.control.Agree lax depth (eval context fuel) (eval context fuel') :=
      ⟨Law.control_sound context fuel, fun related => related.1,
        fun node s _ _ => ih (by omega) rest node s⟩
    refine Law.step_replays (agree s.depth) (by omega) rest (context.registry.every_of_forall fun _ => trivial)
      (node.every_of_forall fun _ => trivial) ⟨trivial, rfl⟩ fun _ t function args _ _ => ?_
    exact Law.activate_echoes (agree (t.depth + 1)) (function.every_of_forall fun _ => trivial)
      ⟨trivial, rfl⟩ fun _ _ => trivial

/-- More fuel never changes the outcome of an evaluation that ends. -/
theorem eval_of_le {node : Node Slot} {s : State} (enough : fuel ≤ fuel')
    (ended : eval context fuel node s ≠ .outOfFuel) :
    eval context fuel' node s = eval context fuel node s := by
  have ends := Law.bare_sound context fuel node s (node.every_of_forall fun _ => trivial) trivial
  exact Law.eq_of_replays ends (eval_replays context enough (.inl trivial) node s) fun _ => ended

end evaluation

end TreeLang
