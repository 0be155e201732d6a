import TreeLang.Proofs.Sharing
import TreeLang.Proofs.Signatures

/-! Tags are known before anything is evaluated. The tag of an expression's value follows from
the tags of the variables in view and from the functions there are; so does the function that
a call selects. Neither the contents of cells nor the input have a part in it. -/
namespace TreeLang

variable {δ : Type}

mutual
/-- The tag that the value of an expression has, if it has one: statements have none. -/
def Node.tag? (registry : Registry δ) (visible : String → Option Tag) : Node δ → Option Tag
  | .int _ => some .int
  | .bool _ => some .bool
  | .var name => visible name
  | .index base _ =>
    match base.tag? registry visible with
    | some (.array element) => some element
    | _ => none
  | .arith .. => some .int
  | .logic .. => some .bool
  | .compare .. => some .bool
  | .not _ => some .bool
  | .assign target _ => target.tag? registry visible
  | .call name args =>
    if (Builtin.ofName? name).isSome then none
    else (Node.tags? registry visible args).bind fun tags =>
      (registry.get? (signature name tags)).map (·.returns.tag)
  | .declare _ => none
  | .block _ => none
  | .group _ => none
  | .branch .. => none
  | .loop .. => none
  | .ret _ => none
termination_by structural node => node

def Node.tags? (registry : Registry δ) (visible : String → Option Tag) : List (Node δ) → Option (List Tag)
  | [] => some []
  | node :: rest => (node.tag? registry visible).bind fun tag => (Node.tags? registry visible rest).map (tag :: ·)
termination_by structural nodes => nodes
end

/-- The function that a call of this name selects, told from the tags of its arguments. -/
def Registry.select? (registry : Registry δ) (visible : String → Option Tag) (name : String)
    (args : List (Node δ)) : Option (FunctionDef δ) :=
  (Node.tags? registry visible args).bind fun tags => registry.get? (signature name tags)

theorem Node.tag?_call {registry : Registry δ} {visible : String → Option Tag} {name : String}
    (own : Builtin.ofName? name = none) (args : List (Node δ)) :
    (Node.call name args).tag? registry visible =
      (registry.select? visible name args).map (·.returns.tag) := by
  simp only [Node.tag?, Registry.select?, own, Option.isSome_none, Bool.false_eq_true, if_false]
  cases Node.tags? registry visible args <;> rfl

/-- The tag of the cell that a name denotes. -/
def State.visible (s : State) (name : String) : Option Tag :=
  (s.env.find? name).map fun ref => (s.heap.get ref).tag

theorem Env.find?_of_lookup {env : Env} {name : String} {ref : Ref} (found : env.lookup name = .ok ref) :
    env.find? name = some ref := by
  unfold Env.lookup at found
  split at found
  next seen =>
    cases found
    exact seen
  · contradiction

/-! ### What a call yields -/

namespace Eval

variable {below : Evaluator} {context : Context} {s : State}

/-- What is returned is made to fit the declared type, or has its tag already. -/
theorem checkReturn_tag {heap : Heap} {function : FunctionDef Slot} {returned : Option Value} {value : Value}
    (checked : checkReturn heap function returned = .ok (some value)) :
    heap.tag value = function.returns.tag := by
  unfold checkReturn at checked
  split at checked
  next => cases checked
  next => contradiction
  next => contradiction
  next got returns =>
    split at checked
    · cases checked
      rw [returns]
      rfl
    · contradiction
  next got returns =>
    split at checked
    · contradiction
    · cases checked
      rw [returns]
      rfl
  next got element size returns =>
    split at checked
    next same =>
      cases checked
      rw [same, returns]
      rfl
    · contradiction

/-- The value of a call has the tag that the function declares. -/
def Fits (function : FunctionDef Slot) (result : Option Value) (t : State) : Prop :=
  ∀ value, result = some value → t.heap.tag value = function.returns.tag

theorem finish_fits (function : FunctionDef Slot) (flow : Flow) :
    (finish function flow).Ends s (Fits function) fun _ => True := by
  cases flow with
  | returned returned =>
    refine Exec.ends_reading (fun result checked => ?_) trivial
    rintro value rfl
    exact checkReturn_tag checked
  | completed =>
    by_cases void : function.returns.isVoid
    · simp only [finish, if_pos void]
      exact Exec.ends_pure fun _ none => by cases none
    · simp only [finish, if_neg void]
      exact Exec.ends_fail trivial

theorem activate_fits (function : FunctionDef Slot) (args : List Value) :
    (activate below function args).Ends s (Fits function) fun _ => True := by
  unfold activate
  refine Exec.Ends.bind (Exec.ends_anyhow _ s) fun _ t _ => ?_
  refine Exec.ends_modify_bind ?_
  exact Exec.Ends.bind (Exec.ends_anyhow _ _) fun flow u _ => finish_fits function flow

theorem enter_fits (function : FunctionDef Slot) (args : List Value) :
    (enter below context function args).Ends s (Fits function) fun _ => True :=
  enter_ends trivial (Exec.Ends.thenAlways (activate_fits function args))

theorem invoke_fits (name : String) (args : List Value) :
    (invoke below context name args).Ends s
      (fun result t => ∃ function,
        context.registry.resolve (signature name (args.map s.heap.tag)) = .ok function ∧ Fits function result t)
      fun _ => True := by
  have resolved : (Exec.reading fun s =>
      context.registry.resolve (signature name (args.map s.heap.tag))).Ends s
      (fun function t => t = s ∧
        context.registry.resolve (signature name (args.map s.heap.tag)) = .ok function) fun _ => True :=
    Exec.ends_reading (fun _ found => ⟨rfl, found⟩) trivial
  refine Exec.Ends.bind resolved ?_
  rintro function t ⟨rfl, found⟩
  exact Exec.Ends.mono (enter_fits function args) (fun _ _ fits => ⟨function, found, fits⟩) fun _ _ => trivial

end Eval

/-! ### What expressions yield -/

theorem Heap.tag_later {heap later : Heap} {value : Value} (keeps : heap.Keeps later)
    (inside : ∀ ref, value = .cell ref → ref.index < heap.size) : later.tag value = heap.tag value := by
  cases value with
  | int n => rfl
  | bool b => rfl
  | cell ref => exact keeps.tag ref (inside ref rfl)

namespace Law

open Exec

variable {callers : List Env} {below : Evaluator} {context : Context} {s t u : State} {node : Node Slot}

/-- Evaluating an expression changes no tag of a variable. -/
theorem Steady.visible_eq (inv : (Law.storage callers).inv s) (steady : (Law.storage callers).Steady s t) :
    t.visible = s.visible := by
  funext name
  rw [State.visible, State.visible, steady.env]
  cases found : s.env.find? name with
  | none => rfl
  | some ref =>
    have looked : s.env.lookup name = .ok ref := by rw [Env.lookup, found]
    have inside := (Law.storage callers).lookup inv looked ref rfl
    exact congrArg some (steady.rel.2.tag ref inside)

/-- A value that the node leaves on the stack has the tag that was foretold. -/
def Foretold (registry : Registry Slot) (node : Node Slot) (s : State) (flow : Flow) (t : State) : Prop :=
  ∀ value, flow = .completed → t.stack = s.stack.push value →
    node.tag? registry s.visible = some (t.heap.tag value)

/-- What an evaluator must do at every node for the rules above it to know their tags. -/
def Foretells (callers : List Env) (registry : Registry Slot) (below : Evaluator) : Prop :=
  ∀ node s, (Law.storage callers).inv s → (below node).Ends s (Foretold registry node s) fun _ => True

theorem foretold_of_level {registry : Registry Slot} {flow : Flow} (stack : t.stack = s.stack) :
    Foretold registry node s flow t := by
  intro value _ left
  have pushed : s.stack = s.stack.withResult (some value) := stack.symm.trans left
  cases withResult_eq_self pushed

theorem foretold_of_push {registry : Registry Slot} {flow : Flow} {value : Value} (stack : t.stack = s.stack)
    (tagged : node.tag? registry s.visible = some (t.heap.tag value)) :
    Foretold registry node s flow { t with stack := t.stack.push value } := by
  intro other _ left
  have pushed : t.stack.push value = s.stack.withResult (some other) := left
  rw [stack] at pushed
  cases withResult_eq_push pushed
  exact tagged

/-- Where an expression has a value, the node has completed and left it on the stack. -/
theorem value_ok {law : Law} {value : Value} (sound : law.Sound below) (every : node.Every law.declared)
    (inv : law.inv s) (outcome : Eval.value below node s = .ok value t) :
    ∃ u, below node s = .ok .completed u ∧ u.stack = s.stack.push value ∧ t = { u with stack := s.stack } := by
  cases evaluated : below node s with
  | error failure u =>
    rw [Eval.value, height_bind, bind_of_error evaluated] at outcome
    contradiction
  | outOfFuel =>
    rw [Eval.value, height_bind, bind_of_outOfFuel evaluated] at outcome
    contradiction
  | ok flow u =>
    cases flow with
    | returned returned =>
      rw [Eval.value_of_returned evaluated] at outcome
      contradiction
    | completed =>
      obtain ⟨result, leaves, -⟩ := (sound node s every inv).ok_of_eq evaluated
      rw [Eval.value_of_completed evaluated leaves.stack] at outcome
      cases result with
      | none => contradiction
      | some left =>
        cases outcome
        exact ⟨u, rfl, leaves.stack, rfl⟩

/-- What comes after an expression is all that counts, if failures do not. -/
theorem Yields.bindEnds {law : Law} {α β : Type} {action : Exec α} {next : α → Exec β}
    {good : α → State → Prop} {post : β → State → Prop} (yields : law.Yields action s good)
    (after : ∀ value t, law.Steady s t → good value t → (next value).Ends t post fun _ => True) :
    (action >>= next).Ends s post fun _ => True := by
  have ends := Exec.Ends.mono yields (fun _ _ ended => ended) (fun _ _ => trivial : ∀ t, _ → True)
  exact Exec.Ends.bind ends fun value t ended => after value t ended.1 ended.2

section rules

variable (sound : (Law.storage callers).Sound below) (foretells : Foretells callers context.registry below)
include sound foretells

theorem value_foretold (node : Node Slot) (inv : (Law.storage callers).inv s) :
    (Law.storage callers).Yields (Eval.value below node) s fun value t =>
      (Law.storage callers).val t.heap value ∧ node.tag? context.registry s.visible = some (t.heap.tag value) := by
  have every : node.Every (Law.storage callers).declared := node.every_of_forall fun _ => trivial
  refine Exec.Ends.mono (Exec.Ends.recall (value_yields sound every inv)) ?_ fun _ level => level
  rintro value t ⟨⟨steady, good⟩, outcome⟩
  obtain ⟨u, evaluated, left, rfl⟩ := value_ok sound every inv outcome
  exact ⟨steady, good, (foretells node s inv).ok_of_eq evaluated value rfl left⟩

theorem values_foretold (args : List (Node Slot)) (inv : (Law.storage callers).inv s) :
    (Law.storage callers).Yields (Eval.values below args) s fun values t =>
      Node.tags? context.registry s.visible args = some (values.map t.heap.tag) := by
  induction args generalizing s with
  | nil => exact yields_pure inv rfl
  | cons node rest ih =>
    refine (value_foretold sound foretells node inv).bind fun first t steady ⟨good, tagged⟩ => ?_
    refine (ih steady.inv).bind fun others u later tags => yields_pure later.inv ?_
    -- The first value was tagged before the others were evaluated, and they see what it saw.
    rw [steady.visible_eq inv] at tags
    rw [Node.tags?, tagged, tags, List.map_cons, Heap.tag_later later.rel.2.toKeeps good]
    rfl

theorem call_foretold {name : String} (own : Builtin.ofName? name = none) (args : List (Node Slot))
    (inv : (Law.storage callers).inv s) :
    (Eval.call below context name args).Ends s
      (fun _ => Foretold context.registry (.call name args) s .completed) fun _ => True := by
  simp only [Eval.call, own]
  refine (values_foretold sound foretells args inv).bindEnds fun values t valued tags => ?_
  have functions : context.registry.Every (Law.storage callers).declared :=
    context.registry.every_of_forall fun _ => trivial
  refine Exec.Ends.bind (Exec.Ends.mono (Exec.Ends.and
    (invoke_yields sound functions valued.inv fun _ _ => trivial) (Eval.invoke_fits name values))
    (fun _ _ ended => ended) fun _ _ => trivial) ?_
  rintro result u ⟨⟨called, -⟩, function, found, fits⟩
  have stack : u.stack = s.stack := called.stack.trans valued.stack
  cases result with
  | none => exact Exec.ends_pure (foretold_of_level stack)
  | some value =>
    refine foretold_of_push stack ?_
    rw [Node.tag?_call own, Registry.select?, tags, fits value rfl]
    simp [Registry.resolve_ok_iff.mp found]

omit foretells in
/-- A node that leaves no value has nothing to foretell. -/
theorem statement_foretold (turns : Nat) (inv : (Law.storage callers).inv s)
    (statement : node.leavesValue? = some false) :
    (Eval.step below context turns node).Ends s (Foretold context.registry node s) fun _ => True := by
  have functions : context.registry.Every (Law.storage callers).declared :=
    context.registry.every_of_forall fun _ => trivial
  have every : node.Every (Law.storage callers).declared := node.every_of_forall fun _ => trivial
  refine Exec.Ends.mono (step_sound sound functions node s every inv) (fun flow t after => ?_) fun _ _ => trivial
  cases flow with
  | returned value => exact fun _ completed => nomatch completed
  | completed =>
    obtain ⟨result, leaves, count⟩ := after
    cases result with
    | none => exact foretold_of_level leaves.stack
    | some value => exact nomatch count false statement

/-- An element has the tag that its array was declared with, also after the index has been
evaluated, which may have changed all contents. -/
theorem index_foretold (turns : Nat) (base position : Node Slot) (inv : (Law.storage callers).inv s) :
    (Eval.step below context turns (.index base position)).Ends s
      (Foretold context.registry (.index base position) s) fun _ => True := by
  refine (value_foretold sound foretells base inv).bindEnds fun value t based ⟨good, tagged⟩ => ?_
  refine ends_reading_bind (fun array viewed => ?_) trivial
  obtain ⟨rfl, element, elements, content⟩ := Heap.toArray_ok viewed
  refine (int_yields sound (position.every_of_forall fun _ => trivial) based.inv).bindEnds fun n u counted _ => ?_
  refine ends_reading_bind (fun ref found => foretold_of_push (counted.stack.trans based.stack) ?_) trivial
  obtain ⟨later, others, held, member⟩ := Heap.array_of_mem (Heap.mem_of_element found)
  have kept : later.tag = element.tag := by
    have tags := counted.rel.2.tag array (good array rfl)
    rw [held, content] at tags
    exact Tag.array.inj tags
  have final : (u.heap.get ref).tag = element.tag := (counted.inv.typed.tagged held ref member).trans kept
  rw [Heap.tag, content] at tagged
  rw [Heap.tag, final, Node.tag?, tagged]
  rfl

theorem assign_foretold (turns : Nat) (target source : Node Slot) (inv : (Law.storage callers).inv s) :
    (Eval.step below context turns (.assign target source)).Ends s
      (Foretold context.registry (.assign target source) s) fun _ => True := by
  refine (value_foretold sound foretells target inv).bindEnds fun place t targeted ⟨good, tagged⟩ => ?_
  cases place with
  | int n => exact ends_fail trivial
  | bool b => exact ends_fail trivial
  | cell ref =>
    refine (value_yields sound (source.every_of_forall fun _ => trivial) targeted.inv).bindEnds
      fun value u valued _ => ?_
    have place := (Law.storage callers).val_later valued.inv valued.rel good
    refine (yields_assign valued.inv place trivial).bindEnds fun _ w assigned _ => ?_
    have steady := valued.trans assigned
    refine foretold_of_push (steady.stack.trans targeted.stack) ?_
    rw [Node.tag?, tagged, Heap.tag_later steady.rel.2.toKeeps good]

theorem step_foretells (turns : Nat) : Foretells callers context.registry (Eval.step below context turns) := by
  have every (node : Node Slot) : node.Every (Law.storage callers).declared :=
    node.every_of_forall fun _ => trivial
  intro node s inv
  cases node with
  | int n => exact foretold_of_push rfl rfl
  | bool b => exact foretold_of_push rfl rfl
  | var name =>
    refine ends_reading_bind (fun ref found => foretold_of_push rfl ?_) trivial
    rw [Node.tag?, State.visible, Env.find?_of_lookup found]
    rfl
  | index base position => exact index_foretold sound foretells turns base position inv
  | arith op left right =>
    refine (int_yields sound (every left) inv).bindEnds fun l t lefted _ => ?_
    refine (int_yields sound (every right) lefted.inv).bindEnds fun r u righted _ => ?_
    cases op.result? l r with
    | some n => exact foretold_of_push (righted.stack.trans lefted.stack) rfl
    | none => exact ends_fail trivial
  | logic op left right =>
    refine (truth_yields sound (every left) inv).bindEnds fun l t lefted _ => ?_
    cases op.decided? l with
    | some b => exact foretold_of_push lefted.stack rfl
    | none =>
      refine (truth_yields sound (every right) lefted.inv).bindEnds fun r u righted _ => ?_
      exact foretold_of_push (righted.stack.trans lefted.stack) rfl
  | compare op left right =>
    refine (int_yields sound (every left) inv).bindEnds fun l t lefted _ => ?_
    refine (int_yields sound (every right) lefted.inv).bindEnds fun r u righted _ => ?_
    exact foretold_of_push (righted.stack.trans lefted.stack) rfl
  | not operand =>
    exact (truth_yields sound (every operand) inv).bindEnds fun b t steady _ =>
      foretold_of_push steady.stack rfl
  | assign target source => exact assign_foretold sound foretells turns target source inv
  | call name args =>
    cases builtin : Builtin.ofName? name with
    | some function => exact statement_foretold sound turns inv (by simp [Node.leavesValue?, builtin])
    | none =>
      exact Exec.Ends.bind (call_foretold sound foretells builtin args inv) fun _ t foretold =>
        Exec.ends_pure foretold
  | declare declaration => exact statement_foretold sound turns inv rfl
  | block body => exact statement_foretold sound turns inv rfl
  | group body => exact statement_foretold sound turns inv rfl
  | branch condition yes no => exact statement_foretold sound turns inv rfl
  | loop condition body => exact statement_foretold sound turns inv rfl
  | ret value =>
    cases value with
    | none => exact Exec.ends_pure fun _ completed => by cases completed
    | some result =>
      exact (value_yields sound (every result) inv).bindEnds fun value t _ _ =>
        Exec.ends_pure fun _ completed => by cases completed

end rules

theorem eval_foretells (callers : List Env) (context : Context) (fuel : Nat) :
    Foretells callers context.registry (eval context fuel) := by
  induction fuel with
  | zero => exact fun _ _ _ => trivial
  | succ fuel ih => exact step_foretells ((Law.storage callers).sound_of_forall (fun _ => trivial) context fuel) ih fuel

end Law

namespace Interpreter

variable {interpreter : Interpreter} {moment : Moment}

/-- In every interpreter that is in a state which a reachable one passes: the value of an
expression has the tag that is told from the tags of the variables in view, and no name is
bound on the way; and a call selects the function that is told from these tags. -/
theorem Reachable.static_tags (reachable : interpreter.Reachable) (passes : interpreter.Passes moment)
    {running : Interpreter} (here : running.state = moment.state) (fuel : Nat) :
    (∀ node value after, running.evalExpr fuel node = (.value value, after) →
      node.tag? running.context.registry running.state.visible = some (after.state.heap.tag value) ∧
      after.state.env = running.state.env) ∧
    ∀ name args function,
      Eval.Selects (eval running.context fuel) running.context name args running.state function →
      running.context.registry.select? running.state.visible name args = some function := by
  have inv : (Law.storage moment.callers).inv moment.state :=
    Watch.storage.holds_of_interpreter_passes reachable.tidy passes
  rw [← here] at inv
  have sound : (Law.storage moment.callers).Sound (eval running.context fuel) :=
    Law.sound_of_forall (fun _ => trivial) running.context fuel
  have foretells := Law.eval_foretells moment.callers running.context fuel
  constructor
  · intro node value after performed
    have yields := Law.value_foretold sound foretells node inv
    obtain ⟨steady, -, tagged⟩ := yields.ok_of_eq (outcome_of_perform performed)
    exact ⟨tagged, steady.env⟩
  · rintro name args function ⟨values, t, evaluated, found⟩
    obtain ⟨-, tags⟩ := (Law.values_foretold sound foretells args inv).ok_of_eq evaluated
    rw [Registry.select?, tags]
    exact Registry.resolve_ok_iff.mp found

/-- The element that is read belongs to both arrays of the interpreter; that it is read as a
number could be told beforehand. -/
theorem Reachable.static_tags_twins :
    let call : Node Slot := .call "get" [.index (.var "b") (.int 1)]
    (∃ after, twins.evalExpr 3 call = (.value (.int 0), after)) ∧
    call.tag? twins.context.registry twins.state.visible = some .int ∧
    twins.context.registry.select? twins.state.visible "get" [.index (.var "b") (.int 1)] = some getter := by
  intro call
  obtain ⟨tags, selects⟩ := Reachable.static_tags twins_reachable .idle (rfl : twins.state = _) 3
  have outcome : Eval.value (eval twins.context 3) call twins.state = .ok (.int 0)
      { twins.state with heap := { cells := twins.state.heap.cells.push (.int 0) } } := by
    decide +kernel
  have performed := perform_of_ok outcome
  refine ⟨⟨_, performed⟩, (tags call _ _ performed).1, ?_⟩
  exact selects "get" [.index (.var "b") (.int 1)] getter ⟨[.cell ⟨1⟩], twins.state, rfl, rfl⟩

end Interpreter

end TreeLang
