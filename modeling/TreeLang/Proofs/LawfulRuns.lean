import TreeLang.Proofs.Law

/-! Evaluation keeps every law. The rules of one level are judged against an evaluator for
the levels below that is sound already, one lemma for each rule; induction on the fuel then
closes the recursion. Soundness also fixes the operand stack: a node that completes leaves
at most one value on it, and all other endings leave it as it was. -/
namespace TreeLang

/-- The stack with a result on top, if there is one. -/
def OperandStack.withResult (stack : OperandStack) : Option Value → OperandStack
  | none => stack
  | some value => stack.push value

/-- Whether a node that completes has left a value. For the call of a function it depends on
the function, and a `return` never completes. -/
def Node.leavesValue? : Node Slot → Option Bool
  | .int _ | .bool _ | .var _ | .index .. | .arith .. | .logic .. | .compare .. | .not _
  | .assign .. => some true
  | .call name _ => if (Builtin.ofName? name).isSome then some false else none
  | .declare _ | .block _ | .group _ | .branch .. | .loop .. => some false
  | .ret _ => none

/-- The function that a call selects once its arguments are evaluated. -/
def Eval.Selects (eval : Evaluator) (context : Context) (name : String) (args : List (Node Slot))
    (s : State) (function : FunctionDef Slot) : Prop :=
  ∃ values t, Eval.values eval args s = .ok values t ∧
    context.registry.resolve (signature name (values.map t.heap.tag)) = .ok function

namespace Law

variable {law : Law} {α : Type} {s t u : State} {node : Node Slot}

structure Leaves (law : Law) (s : State) (result : Option Value) (t : State) : Prop where
  inv : law.inv t
  rel : law.rel s t
  stack : t.stack = s.stack.withResult result
  good : ∀ value, result = some value → law.val t.heap value
  env : result.isSome → t.env = s.env

/-- The returned value of a flow is good. -/
def Flows (law : Law) (flow : Flow) (t : State) : Prop :=
  ∀ value, flow = .returned (some value) → law.val t.heap value

def After (law : Law) (node : Node Slot) (s : State) : Flow → State → Prop
  | .completed, t => ∃ result, law.Leaves s result t ∧
      ∀ leaves, node.leavesValue? = some leaves → result.isSome = leaves
  | .returned value, t => law.Level s t ∧ law.Flows (.returned value) t

/-- What an evaluator must do at every node for the rules above it to keep the law. -/
def Sound (law : Law) (eval : Evaluator) : Prop :=
  ∀ node s, node.Every law.declared → law.inv s → (eval node).Ends s (law.After node s) (law.Level s)

theorem Leaves.none (level : law.Level s t) : law.Leaves s none t :=
  ⟨level.inv, level.rel, level.stack, by simp, by simp⟩

theorem Steady.leaves {result : Option Value} (steady : law.Steady s t)
    (leaves : law.Leaves t result u) : law.Leaves s result u :=
  ⟨leaves.inv, law.trans steady.rel leaves.rel, by rw [leaves.stack, steady.stack], leaves.good,
    fun some => (leaves.env some).trans steady.env⟩

theorem Steady.after {flow : Flow} (steady : law.Steady s t) (after : law.After node t flow u) :
    law.After node s flow u := by
  cases flow with
  | completed =>
    obtain ⟨result, leaves, count⟩ := after
    exact ⟨result, steady.leaves leaves, count⟩
  | returned value => exact ⟨steady.toLevel.trans after.1, after.2⟩

/-- An expression is evaluated first and the node's own result follows. -/
theorem Yields.bindAfter {action : Exec α} {next : α → Exec Flow} {good : α → State → Prop}
    (yields : law.Yields action s good)
    (after : ∀ value t, law.Steady s t → good value t →
      (next value).Ends t (law.After node t) (law.Level t)) :
    (action >>= next).Ends s (law.After node s) (law.Level s) := by
  refine Exec.Ends.bind yields fun value t ⟨steady, holds⟩ => ?_
  exact Exec.Ends.mono (after value t steady holds) (fun _ _ ended => steady.after ended)
    fun _ level => steady.toLevel.trans level

theorem Runs.after {action : Exec Flow} (runs : law.Runs action s law.Flows)
    (statement : node.leavesValue? = some false) :
    action.Ends s (law.After node s) (law.Level s) := by
  refine Exec.Ends.mono runs (fun flow t ⟨level, flows⟩ => ?_) fun _ level => level
  cases flow with
  | completed => exact ⟨none, .none level, by simp [statement]⟩
  | returned value => exact ⟨level, flows⟩

theorem produce_after {value : Value} (inv : law.inv s) (good : law.val s.heap value)
    (expression : node.leavesValue? = some true) :
    (Eval.produce value).Ends s (law.After node s) (law.Level s) := by
  obtain ⟨kept, related⟩ := law.stack (s.stack.push value) inv
  refine ⟨some value, ⟨kept, related, rfl, ?_, fun _ => rfl⟩, by simp [expression]⟩
  rintro other ⟨⟩
  exact good

/-- What a call yields is a scalar of its own or the very value that was returned, and a
function without a result type yields nothing. -/
theorem checkReturn_cases {heap : Heap} {function : FunctionDef Slot} {returned result : Option Value}
    (checked : Eval.checkReturn heap function returned = .ok result) :
    (function.returns.isVoid ∧ result = none) ∨
    (function.returns.isVoid = false ∧ ∃ value, result = some value ∧
      ((∃ n, value = .int n) ∨ (∃ b, value = .bool b) ∨ returned = some value)) := by
  unfold Eval.checkReturn at checked
  split at checked
  next returns =>
    cases checked
    exact .inl ⟨by rw [returns]; rfl, rfl⟩
  next => contradiction
  next => contradiction
  next value returns =>
    split at checked
    · cases checked
      exact .inr ⟨by rw [returns]; rfl, _, rfl, .inl ⟨_, rfl⟩⟩
    · contradiction
  next value returns =>
    split at checked
    · contradiction
    · cases checked
      exact .inr ⟨by rw [returns]; rfl, _, rfl, .inr (.inl ⟨_, rfl⟩)⟩
  next value element size returns =>
    split at checked
    · cases checked
      exact .inr ⟨by rw [returns]; rfl, value, rfl, .inr (.inr rfl)⟩
    · contradiction

/-- The result of a call fits the function and is good. -/
def Results (law : Law) (function : FunctionDef Slot) (result : Option Value) (t : State) : Prop :=
  (result.isSome = !function.returns.isVoid) ∧ ∀ value, result = some value → law.val t.heap value

/-- A call has left a result or not: none if it is built in, else as the function that the
arguments select declares. -/
def Called (law : Law) (eval : Evaluator) (context : Context) (name : String)
    (args : List (Node Slot)) (s t : State) : Prop :=
  ∃ result, law.Leaves s result t ∧ ((Builtin.ofName? name).isSome → result = none) ∧
    (Builtin.ofName? name = none → ∃ function, Eval.Selects eval context name args s function ∧
      result.isSome = !function.returns.isVoid)

theorem finish_yields {function : FunctionDef Slot} {flow : Flow} (inv : law.inv s)
    (flows : law.Flows flow s) : law.Yields (Eval.finish function flow) s (law.Results function) := by
  cases flow with
  | completed =>
    by_cases void : function.returns.isVoid
    · simp only [Eval.finish, if_pos void]
      exact yields_pure inv ⟨by simp [void], by simp⟩
    · simp only [Eval.finish, if_neg void]
      exact yields_fail inv
  | returned returned =>
    refine yields_reading inv fun result checked => ?_
    rcases checkReturn_cases checked with ⟨void, rfl⟩ | ⟨fits, value, rfl, origin⟩
    · exact ⟨by simp [void], by simp⟩
    · refine ⟨by simp [fits], ?_⟩
      rintro other ⟨⟩
      rcases origin with ⟨n, rfl⟩ | ⟨b, rfl⟩ | rfl
      · exact law.val_int _ n
      · exact law.val_bool _ b
      · exact flows value rfl

section rules

variable {eval : Evaluator} (sound : law.Sound eval)
include sound

theorem value_yields (every : node.Every law.declared) (inv : law.inv s) :
    law.Yields (Eval.value eval node) s fun value t => law.val t.heap value := by
  unfold Eval.value
  refine Exec.ends_height_bind ?_
  refine Exec.Ends.bind (sound node s every inv) fun flow t after => ?_
  cases flow with
  | returned value => exact Exec.ends_fail after.1
  | completed =>
    obtain ⟨result, leaves, -⟩ := after
    refine Exec.ends_height_bind ?_
    cases result with
    | none =>
      have level : law.Level s t := ⟨leaves.inv, leaves.rel, leaves.stack⟩
      rw [level.stack, if_neg (Nat.lt_irrefl _)]
      exact Exec.ends_fail level
    | some value =>
      have top : t.stack = s.stack.push value := leaves.stack
      have taller : s.stack.size < t.stack.size := by simp [top, OperandStack.push, OperandStack.size]
      obtain ⟨kept, related⟩ := law.stack s.stack leaves.inv
      rw [if_pos taller]
      simp only [Exec.Ends, Exec.pop, OperandStack.pop, top, OperandStack.push]
      exact ⟨⟨⟨kept, law.trans leaves.rel related, rfl⟩, leaves.env rfl⟩, leaves.good value rfl⟩

theorem int_yields (every : node.Every law.declared) (inv : law.inv s) :
    law.Yields (Eval.int eval node) s fun _ _ => True :=
  (value_yields sound every inv).bind fun value _ steady _ => yields_toInt value steady.inv

theorem truth_yields (every : node.Every law.declared) (inv : law.inv s) :
    law.Yields (Eval.truth eval node) s fun _ _ => True :=
  (value_yields sound every inv).bind fun value _ steady _ => yields_truth value steady.inv

/-- A statement may have left a value, which is dropped. -/
theorem statement_runs (every : node.Every law.declared) (inv : law.inv s) :
    law.Runs (Eval.statement eval node) s law.Flows := by
  unfold Eval.statement
  refine Exec.ends_height_bind ?_
  refine Exec.Ends.bind (sound node s every inv) fun flow t after => ?_
  refine Exec.ends_modify_bind (Exec.ends_pure ?_)
  cases flow with
  | returned value =>
    obtain ⟨level, flows⟩ := after
    have same : t.stack.truncate s.stack.size = t.stack := by
      simp [level.stack, OperandStack.truncate]
    rw [same]
    exact ⟨level, flows⟩
  | completed =>
    obtain ⟨result, leaves, -⟩ := after
    have same : t.stack.truncate s.stack.size = s.stack := by
      cases result <;> simp [leaves.stack, OperandStack.withResult, OperandStack.truncate, OperandStack.push,
        OperandStack.size]
    obtain ⟨kept, related⟩ := law.stack s.stack leaves.inv
    rw [same]
    exact ⟨⟨kept, law.trans leaves.rel related, rfl⟩, by simp [Flows]⟩

theorem statements_runs {body : List (Node Slot)} (every : Node.EveryOf law.declared body)
    (inv : law.inv s) : law.Runs (Eval.statements eval body) s law.Flows := by
  induction body generalizing s with
  | nil => exact (yields_pure inv (by simp [Flows])).runs
  | cons node rest ih =>
    refine (statement_runs sound every.1 inv).bind fun flow t level flows => ?_
    cases flow with
    | returned value => exact (yields_pure level.inv flows).runs
    | completed => exact ih every.2 level.inv

theorem values_yields {args : List (Node Slot)} (every : Node.EveryOf law.declared args)
    (inv : law.inv s) :
    law.Yields (Eval.values eval args) s fun values t => ∀ value ∈ values, law.val t.heap value := by
  induction args generalizing s with
  | nil => exact yields_pure inv (by simp)
  | cons node rest ih =>
    refine (value_yields sound every.1 inv).bind fun first t steady good => ?_
    refine (ih every.2 steady.inv).bind fun others u later goods => ?_
    refine yields_pure later.inv fun value member => ?_
    rcases List.mem_cons.mp member with rfl | member
    · exact law.val_later later.inv later.rel good
    · exact goods value member

theorem loop_runs {condition body : Node Slot} (turns : Nat) (test : condition.Every law.declared)
    (every : body.Every law.declared) (inv : law.inv s) :
    law.Runs (Eval.loop eval condition body turns) s law.Flows := by
  induction turns generalizing s with
  | zero => trivial
  | succ turns ih =>
    refine (truth_yields sound test inv).runs.bind fun holds t level _ => ?_
    cases holds with
    | false => exact (yields_pure level.inv (by simp [Flows])).runs
    | true =>
      refine (statement_runs sound every level.inv).bind fun flow u later flows => ?_
      cases flow with
      | returned value => exact (yields_pure later.inv flows).runs
      | completed => exact ih later.inv

theorem resolve_yields : ∀ (spec : TypeSpec Slot) {s : State}, spec.Every law.declared → law.inv s →
    law.Yields (Eval.resolve eval spec) s fun ty _ => ty.tag = spec.tag ∧ ty.Sized
  | .int, _, _, inv => yields_pure inv ⟨rfl, trivial⟩
  | .bool, _, _, inv => yields_pure inv ⟨rfl, trivial⟩
  | .void, _, _, inv => yields_pure inv ⟨rfl, trivial⟩
  | .array element size, s, every, inv => by
    rw [Eval.resolve]
    refine (int_yields sound every.2 inv).bind fun n t steady _ => ?_
    by_cases positive : 0 < n
    · rw [if_pos positive]
      refine (resolve_yields element every.1 steady.inv).bind fun ty u later resolved => ?_
      refine yields_pure later.inv ⟨by simp [Ty.tag, TypeSpec.tag, resolved.1], ?_, resolved.2⟩
      have above : 0 < n.toInt := by simpa [Int64.lt_iff_toInt_lt] using positive
      omega
    · rw [if_neg positive]
      exact yields_fail steady.inv
termination_by structural spec => spec

theorem typeOf_yields {declaration : Declaration Slot} (every : declaration.Every law.declared)
    (inv : law.inv s) : law.Yields (Eval.typeOf eval declaration) s fun _ _ => True := by
  obtain ⟨evaluated, declared⟩ := every.parts
  have settled : law.Yields (Exec.settledType? declaration.note) s fun _ _ => True :=
    yields_reading inv fun _ _ => trivial
  refine settled.bind fun known t steady _ => ?_
  cases known with
  | some ty => exact yields_pure steady.inv trivial
  | none =>
    refine (resolve_yields sound declaration.ty evaluated steady.inv).bind fun ty u later resolved => ?_
    exact yields_settle later.inv declared resolved.1 resolved.2

theorem declare_runs {declaration : Declaration Slot} (every : declaration.Every law.declared)
    (inv : law.inv s) : law.Runs (Eval.declare eval declaration) s fun _ _ => True :=
  (typeOf_yields sound every inv).runs.bind fun ty _ level _ =>
    runs_newCell_bindName ty declaration.name level.inv

theorem bindParams_runs {params : List (Declaration Slot)} {args : List Value}
    (every : ∀ param ∈ params, param.Every law.declared) (inv : law.inv s)
    (given : ∀ arg ∈ args, law.arg s.heap arg) :
    law.Runs (Eval.bindParams eval params args) s fun _ _ => True := by
  induction params generalizing args s with
  | nil => exact (yields_pure inv trivial).runs
  | cons param params ih =>
    cases args with
    | nil => exact (yields_pure inv trivial).runs
    | cons arg args =>
      refine (declare_runs sound (every param (by simp)) inv).bind fun _ t declared _ => ?_
      refine (yields_lookup param.name declared.inv).runs.bind fun ref u found place => ?_
      have level := declared.trans found
      have source := law.arg_later level.inv level.rel (given arg (by simp))
      refine (yields_assign level.inv place source).runs.bind fun _ w assigned _ => ?_
      have now := level.trans assigned
      refine ih (fun other member => every other (by simp [member])) now.inv fun other member => ?_
      exact law.arg_later now.inv now.rel (given other (by simp [member]))

/-- A body between setting a frame mark and taking it away again, on every way out. -/
theorem framed_ends {body : List (Node Slot)} (every : Node.EveryOf law.declared body)
    (inv : law.inv s) :
    ((Eval.statements eval body).thenAlways fun s => { s with stack := s.stack.popFrame }).Ends
      { s with stack := s.stack.pushFrame } (fun flow t => law.Level s t ∧ law.Flows flow t)
      (law.Level s) := by
  obtain ⟨framed, pushed⟩ := law.stack s.stack.pushFrame inv
  have unwound (t : State) (level : law.Level { s with stack := s.stack.pushFrame } t) :
      law.Level s { t with stack := t.stack.popFrame } := by
    obtain ⟨kept, popped⟩ := law.stack t.stack.popFrame level.inv
    refine ⟨kept, law.trans pushed (law.trans level.rel popped), ?_⟩
    rw [level.stack]
    simp [OperandStack.pushFrame, OperandStack.popFrame, OperandStack.truncate, OperandStack.size]
  refine Exec.Ends.thenAlways (Exec.Ends.mono (statements_runs sound every framed) ?_ unwound)
  exact fun flow t ended => ⟨unwound t ended.1, ended.2⟩

theorem activate_runs {function : FunctionDef Slot} {args : List Value}
    (every : function.Every law.declared) (inv : law.inv s)
    (given : ∀ arg ∈ args, law.arg s.heap arg) :
    law.Runs (Eval.activate eval function args) s (law.Results function) := by
  unfold Eval.activate
  refine (bindParams_runs sound every.params inv given).bind fun _ t bound _ => ?_
  refine Exec.ends_modify_bind ?_
  refine Exec.Ends.bind (framed_ends sound every.body bound.inv) fun flow u ⟨level, flows⟩ => ?_
  refine Exec.Ends.mono (finish_yields level.inv flows) ?_ fun w later => level.trans later
  exact fun result w ended => ⟨level.trans ended.1.toLevel, ended.2⟩

theorem enter_yields {context : Context} {function : FunctionDef Slot} {args : List Value}
    (every : function.Every law.declared) (inv : law.inv s)
    (given : ∀ arg ∈ args, law.arg s.heap arg) :
    law.Yields (Eval.enter eval context function args) s (law.Results function) := by
  have body := activate_runs sound every (law.enterCall inv) given
  have left (t : State) (level : law.Level { s with env := .empty, depth := s.depth + 1 } t) :
      law.Level s { t with env := s.env, depth := t.depth - 1 } := by
    obtain ⟨kept, related⟩ := law.leaveCall inv level.inv level.rel
    exact ⟨kept, related, level.stack⟩
  refine Eval.enter_ends (Level.refl inv) (Exec.Ends.thenAlways ?_)
  refine Exec.Ends.mono body (fun result t ended => ?_) left
  exact ⟨⟨left t ended.1, rfl⟩, ended.2⟩

theorem invoke_yields {context : Context} {name : String} {args : List Value}
    (every : context.registry.Every law.declared) (inv : law.inv s)
    (given : ∀ arg ∈ args, law.arg s.heap arg) :
    law.Yields (Eval.invoke eval context name args) s fun result t => ∃ function,
      context.registry.resolve (signature name (args.map s.heap.tag)) = .ok function ∧
      law.Results function result t := by
  have resolved : law.Yields (Exec.reading fun s =>
      context.registry.resolve (signature name (args.map s.heap.tag))) s
      fun function _ => context.registry.resolve (signature name (args.map s.heap.tag)) = .ok function :=
    yields_reading inv fun _ found => found
  refine resolved.bind fun function t steady found => ?_
  refine (enter_yields sound (every.of_resolve found) steady.inv fun arg member => ?_).mono
    fun _ _ results => ⟨function, found, results⟩
  exact law.arg_later steady.inv steady.rel (given arg member)

theorem builtin_yields {function : Builtin} {args : List (Node Slot)}
    (every : Node.EveryOf law.declared args) (inv : law.inv s) :
    law.Yields (Eval.builtin eval function args) s fun _ _ => True := by
  induction args generalizing s with
  | nil => exact yields_pure inv trivial
  | cons node rest ih =>
    refine (value_yields sound every.1 inv).bind fun value t steady good => ?_
    cases function with
    | print =>
      exact (yields_print value steady.inv).bind fun _ u later _ => ih every.2 later.inv
    | read =>
      cases value with
      | int n => exact yields_fail steady.inv
      | bool b => exact yields_fail steady.inv
      | cell ref =>
        exact (yields_readInto ref steady.inv good).bind fun _ u later _ => ih every.2 later.inv

/-- The scope of a block is dropped on every way out. -/
theorem block_runs {body : List (Node Slot)} (every : Node.EveryOf law.declared body)
    (inv : law.inv s) :
    law.Runs (Exec.modify (fun s => { s with env := s.env.pushScope }) >>= fun _ =>
      (Eval.statements eval body).thenAlways fun s => { s with env := s.env.popScope }) s law.Flows := by
  have closed (t : State) (level : law.Level { s with env := s.env.pushScope } t) :
      law.Level s { t with env := t.env.popScope } := by
    obtain ⟨kept, related⟩ := law.closeBlock inv level.inv level.rel
    exact ⟨kept, related, level.stack⟩
  refine Exec.ends_modify_bind (Exec.Ends.thenAlways ?_)
  refine Exec.Ends.mono (statements_runs sound every (law.openBlock inv)) ?_ closed
  exact fun flow t ended => ⟨closed t ended.1, ended.2⟩

/-- The result of a call is pushed only when the caller's names are back. -/
theorem call_leaves {context : Context} {name : String} {args : List (Node Slot)}
    (functions : context.registry.Every law.declared) (every : Node.EveryOf law.declared args)
    (inv : law.inv s) :
    (Eval.call eval context name args).Ends s (fun _ => law.Called eval context name args s)
      (law.Level s) := by
  unfold Eval.call
  cases builtin : Builtin.ofName? name with
  | some function =>
    refine Exec.Ends.mono (builtin_yields sound every inv) (fun _ t ended => ?_) fun _ level => level
    exact ⟨none, .none ended.1.toLevel, fun _ => rfl, by simp [builtin]⟩
  | none =>
    refine Exec.Ends.bind (Exec.Ends.recall (values_yields sound every inv)) ?_
    rintro values t ⟨⟨valued, goods⟩, evaluated⟩
    have given : ∀ arg ∈ values, law.arg t.heap arg := fun arg member =>
      law.arg_of_val valued.inv (goods arg member)
    refine Exec.Ends.bind (Exec.Ends.mono (invoke_yields sound functions valued.inv given)
      (fun _ _ ended => ended) fun u level => valued.toLevel.trans level) ?_
    rintro result u ⟨called, function, found, fits, good⟩
    have steady := valued.trans called
    have selected : Eval.Selects eval context name args s function := ⟨values, t, evaluated, found⟩
    cases result with
    | none =>
      exact Exec.ends_pure ⟨none, .none steady.toLevel, fun _ => rfl, fun _ => ⟨function, selected, fits⟩⟩
    | some value =>
      obtain ⟨kept, related⟩ := law.stack (u.stack.push value) steady.inv
      refine ⟨some value, ⟨kept, law.trans steady.rel related, ?_, good, fun _ => steady.env⟩,
        by simp [builtin], fun _ => ⟨function, selected, fits⟩⟩
      simp only [OperandStack.withResult, steady.stack]

theorem step_sound {context : Context} {turns : Nat}
    (functions : context.registry.Every law.declared) :
    law.Sound (Eval.step eval context turns) := by
  intro node s every inv
  cases node with
  | int n => exact produce_after inv (law.val_int _ n) rfl
  | bool b => exact produce_after inv (law.val_bool _ b) rfl
  | var name =>
    exact (yields_lookup name inv).bindAfter fun ref t steady good => produce_after steady.inv good rfl
  | index base position =>
    refine (value_yields sound every.1 inv).bindAfter fun value t based good => ?_
    refine (yields_toArray based.inv good).bindAfter fun array u viewed place => ?_
    refine (int_yields sound every.2 viewed.inv).bindAfter fun n w counted _ => ?_
    have place := law.val_later counted.inv counted.rel place
    exact (yields_element counted.inv place).bindAfter fun ref x found good =>
      produce_after found.inv good rfl
  | arith op left right =>
    refine (int_yields sound every.1 inv).bindAfter fun l t lefted _ => ?_
    refine (int_yields sound every.2 lefted.inv).bindAfter fun r u righted _ => ?_
    cases result : op.result? l r with
    | some n => exact produce_after righted.inv (law.val_int _ n) rfl
    | none => exact Exec.ends_fail (Level.refl righted.inv)
  | logic op left right =>
    refine (truth_yields sound every.1 inv).bindAfter fun l t lefted _ => ?_
    cases decided : op.decided? l with
    | some b => exact produce_after lefted.inv (law.val_bool _ b) rfl
    | none =>
      exact (truth_yields sound every.2 lefted.inv).bindAfter fun r u righted _ =>
        produce_after righted.inv (law.val_bool _ r) rfl
  | compare op left right =>
    refine (int_yields sound every.1 inv).bindAfter fun l t lefted _ => ?_
    exact (int_yields sound every.2 lefted.inv).bindAfter fun r u righted _ =>
      produce_after righted.inv (law.val_bool _ _) rfl
  | not operand =>
    have inner : operand.Every law.declared := every
    exact (truth_yields sound inner inv).bindAfter fun b t steady _ =>
      produce_after steady.inv (law.val_bool _ _) rfl
  | assign target source =>
    refine (value_yields sound every.1 inv).bindAfter fun place t targeted good => ?_
    cases place with
    | int n => exact Exec.ends_fail (Level.refl targeted.inv)
    | bool b => exact Exec.ends_fail (Level.refl targeted.inv)
    | cell ref =>
      refine (value_yields sound every.2 targeted.inv).bindAfter fun value u valued source => ?_
      have place := law.val_later valued.inv valued.rel good
      refine (yields_assign valued.inv place (law.arg_of_val valued.inv source)).bindAfter
        fun _ w assigned _ => ?_
      exact produce_after assigned.inv (law.val_later assigned.inv assigned.rel place) rfl
  | call name args =>
    refine Exec.Ends.bind (call_leaves sound functions every inv) ?_
    rintro - t ⟨result, leaves, none, -⟩
    refine Exec.ends_pure ⟨result, leaves, ?_⟩
    simp_all [Node.leavesValue?]
  | declare declaration =>
    refine Runs.after ?_ rfl
    exact (declare_runs sound every inv).bind fun _ t level _ =>
      (yields_pure level.inv (by simp [Flows])).runs
  | block body => exact (block_runs sound every inv).after rfl
  | group body => exact (statements_runs sound every inv).after rfl
  | branch condition yes no =>
    refine (truth_yields sound every.1 inv).bindAfter fun holds t tested _ => ?_
    cases holds with
    | true => exact (statement_runs sound every.2.1 tested.inv).after rfl
    | false =>
      cases no with
      | none => exact (yields_pure tested.inv (by simp [Flows])).runs.after rfl
      | some no => exact (statement_runs sound every.2.2 tested.inv).after rfl
  | loop condition body => exact (loop_runs sound turns every.1 every.2 inv).after rfl
  | ret value =>
    cases value with
    | none => exact Exec.ends_pure ⟨Level.refl inv, by simp [Flows]⟩
    | some result =>
      have inner : result.Every law.declared := every
      refine (value_yields sound inner inv).bindAfter fun value t steady good => ?_
      refine Exec.ends_pure ⟨Level.refl steady.inv, ?_⟩
      rintro other ⟨⟩
      exact good

end rules

/-- Evaluation keeps every law, with any amount of fuel. -/
theorem eval_sound {context : Context} (functions : context.registry.Every law.declared)
    (fuel : Nat) : law.Sound (eval context fuel) := by
  induction fuel with
  | zero => exact fun _ _ _ _ => trivial
  | succ fuel ih => exact step_sound ih functions

end Law

end TreeLang
